import Espo.Essentials.Holders
import Espo.Lib.KeyedStates
import Espo.Lib.Rewinds

/-!
# Holders over runs of blocks and rewinds

What the holder rows of an alkane satisfy after every run.

* The circulating supply is the sum of the holder rows if, within each block, the sum fits after every
  holder. With the sum fitting only at the end of each block this fails: a receiver that comes before the
  sender makes the supply saturate.
* The count is the number of positive rows, and the alkane has one key in the ordered index, with that
  count.
* Every holder with a row is in the list once if no negative change meets a holder without a row.
  Otherwise a row is made that the list does not have.
-/

namespace Espo.Essentials
open Lib Option

/-- A block with what is left of the run, the last block first. -/
abbrev HolderChain := List (HolderBlock × HolderStore)

/-- The rows at the end of a chain. -/
def HolderChain.store (chain : HolderChain) : HolderStore := Rewinds.current ∅ chain

/-! ## One alkane -/

variable {store store' : HolderStore} {b : HolderBlock}

lemma HolderStore.at_put (store : HolderStore) (a alkane : SchemaAlkaneId) (st : AlkaneHolders) :
    HolderStore.at (store.put a st) alkane = if alkane = a then st else store.at alkane := by
  exact Table.stateAt_put store a alkane st

lemma AlkaneHolders.created_create (st : AlkaneHolders) : st.create.created = true := by
  unfold create
  split_ifs with h
  · exact h
  · rfl

lemma HolderStore.at_create (store : HolderStore) (creations : List SchemaAlkaneId)
    (alkane : SchemaAlkaneId) :
    (store.create creations).at alkane
      = if alkane ∈ creations then (store.at alkane).create else store.at alkane := by
  induction creations generalizing store with
  | nil => rfl
  | cons a creations ih =>
    rw [HolderStore.create, List.foldl_cons, ← HolderStore.create, ih, HolderStore.at_put]
    by_cases ha : alkane = a
    · subst ha
      have htwice : (store.at alkane).create.create = (store.at alkane).create := if_pos (store.at alkane).created_create
      simp [htwice]
    · simp [ha]

lemma indexBlock_at (h : store.indexBlock b = some store') (alkane : SchemaAlkaneId) :
    (∃ deltas, (holdersDelta b.changes).lookup alkane = some deltas ∧
      ((store.create b.creations).at alkane).applyDeltas b.check b.height (deltas.inOrder b.order)
        = some (store'.at alkane)) ∨
    (holdersDelta b.changes).lookup alkane = none ∧
      store'.at alkane = (store.create b.creations).at alkane := by
  have hupdates : Table.updateStates AlkaneHolders.empty Sigma.fst
      (fun e (st : AlkaneHolders) => st.applyDeltas b.check b.height (HolderDeltas.inOrder b.order e.2))
      (store.create b.creations) (b.hash.run (holdersDelta b.changes).entries) = some store' := h
  exact Table.updateStates_entries (b.hash.perm _) hupdates alkane

variable {st st' : AlkaneHolders} {check : Bool} {height : ℕ} {entries : List (HolderId × SignedU128)}

lemma AlkaneHolders.applyDeltas_spec (hnodup : (entries.map Prod.fst).Nodup)
    (h : st.applyDeltas check height entries = some st') :
    ∃ pass, entries.foldlM (HolderPass.step check st.rows) ⟨st.supplyLatest.getD 0, [], 0, [], 0⟩ = some pass ∧
      PassInv check st.rows entries pass ∧ st'.rows = rowsAfter check st.rows entries ∧
      st'.count = some (st.count.getD 0 + pass.added - pass.removed) ∧
      st'.ordered = insert (st.count.getD 0 + pass.added - pass.removed)
        (if st.count.getD 0 ≠ st.count.getD 0 + pass.added - pass.removed
          then st.ordered.erase (st.count.getD 0) else st.ordered) ∧
      st'.supplyLatest.getD 0 = pass.supply ∧
      st'.list = st.list.append ((pass.appended.map holderIdIndexBytes).insertionSort (· ≤ ·)) ∧
      st'.created = st.created := by
  obtain ⟨pass, hpass, rfl⟩ := map_eq_some_iff.1 h
  have hinv := passInv_of_foldlM hnodup hpass
  refine ⟨pass, hpass, hinv, hinv.rows_eq, rfl, rfl, ?_, rfl, rfl⟩
  split_ifs with hsame
  · rfl
  · exact (not_not.1 hsame).symm

lemma HolderStore.at_create_fields (store : HolderStore) (creations : List SchemaAlkaneId)
    (alkane : SchemaAlkaneId) :
    ((store.create creations).at alkane).rows = (store.at alkane).rows ∧
    ((store.create creations).at alkane).count = (store.at alkane).count ∧
    ((store.create creations).at alkane).supplyLatest = (store.at alkane).supplyLatest ∧
    ((store.create creations).at alkane).list = (store.at alkane).list := by
  rw [HolderStore.at_create]
  unfold AlkaneHolders.create
  split_ifs <;> exact ⟨rfl, rfl, rfl, rfl⟩

/-! ## Runs -/

/-- A run from the empty store; `none` is a run that panics. -/
def runHolders (events : List (Rewinds.Event HolderBlock)) : Option HolderChain :=
  Rewinds.run HolderStore.indexBlock ∅ [] events

/-- Every block of a run meets a condition on it and the chain before. -/
def HolderBlocksMeet (ok : HolderChain → HolderBlock → Prop) (events : List (Rewinds.Event HolderBlock)) :
    Prop :=
  Rewinds.Meets HolderStore.indexBlock ∅ ok [] events

variable {events : List (Rewinds.Event HolderBlock)} {chain : HolderChain}

lemma snapshots_of_runHolders {ok : HolderChain → HolderBlock → Prop}
    (hmeet : HolderBlocksMeet ok events) (hrun : runHolders events = some chain) :
    Rewinds.Snapshots HolderStore.indexBlock ∅ ok chain :=
  Rewinds.snapshots_of_run Rewinds.Snapshots.nil hmeet hrun

/-! ## Circulating supply -/

/-- In a block, the sum of the rows of every alkane fits in a `u128` after every holder that is
processed. -/
def SumsFit (store : HolderStore) (b : HolderBlock) : Prop :=
  ∀ alkane deltas, (holdersDelta b.changes).lookup alkane = some deltas →
    ∀ done rest, deltas.inOrder b.order = done ++ rest →
      holderSum (rowsAfter b.check (store.at alkane).rows done) ≤ u128Max

/-- The supply of every alkane is the sum of its rows. -/
def SupplyExact (store : HolderStore) : Prop :=
  ∀ alkane, (store.at alkane).supplyLatest.getD 0 = holderSum (store.at alkane).rows

lemma SupplyExact.indexBlock (h : SupplyExact store) (hfit : SumsFit store b)
    (hblock : store.indexBlock b = some store') : SupplyExact store' := by
  intro alkane
  obtain ⟨hrows, -, hsupply, -⟩ := store.at_create_fields b.creations alkane
  rcases indexBlock_at hblock alkane with ⟨deltas, hdeltas, happly⟩ | ⟨-, hsame⟩
  · obtain ⟨pass, hpass, -, hrows', -, -, hsupply', -⟩ :=
      AlkaneHolders.applyDeltas_spec (nodup_inOrder b.order deltas) happly
    rw [hrows, hsupply] at hpass
    rw [hsupply', hrows', hrows]
    exact supply_of_foldlM (nodup_inOrder b.order deltas) hpass (h alkane) (hfit alkane deltas hdeltas)
  · rw [hsame, hrows, hsupply]
    exact h alkane

/-- In every run in which the sums fit within each block, the circulating supply is the sum of the holder
rows. -/
theorem supply_eq_holderSum
    (hfit : HolderBlocksMeet (fun chain b => SumsFit chain.store b) events)
    (hrun : runHolders events = some chain) (alkane : SchemaAlkaneId) :
    (chain.store.at alkane).supplyLatest.getD 0 = holderSum (chain.store.at alkane).rows := by
  have hexact : SupplyExact chain.store :=
    Rewinds.Snapshots.invariant (P := SupplyExact) (fun _ => rfl)
      (fun _ _ _ hok hP happly => hP.indexBlock hok happly) (snapshots_of_runHolders hfit hrun)
  exact hexact alkane

/-- The condition on the sums, checked over the entries of `holders_delta`. -/
theorem sumsFit_of_entries
    (h : ∀ e ∈ (holdersDelta b.changes).entries, ∀ k ≤ (e.2.inOrder b.order).length,
      holderSum (rowsAfter b.check (store.at e.1).rows ((e.2.inOrder b.order).take k)) ≤ u128Max) :
    SumsFit store b := by
  intro alkane deltas hdeltas done rest hsplit
  have hmem : (⟨alkane, deltas⟩ : Sigma fun _ : SchemaAlkaneId => HolderDeltas)
      ∈ (holdersDelta b.changes).entries := AList.mem_lookup_iff.1 hdeltas
  have hfit := h _ hmem done.length (by rw [hsplit, List.length_append]; omega)
  rwa [hsplit, List.take_left] at hfit

/-- A token, and two addresses. -/
def sampleToken : SchemaAlkaneId := ⟨2, 5⟩

def sampleAddress (n : Fin 256) : HolderId := .address [n]

/-- A block with changes of the token. -/
def sampleHolderBlock (height : ℕ) (check : Bool) (changes : List (HolderId × SignedU128)) : HolderBlock where
  height := height
  check := check
  creations := [sampleToken]
  changes := changes.map fun c => ⟨sampleToken, c.1, c.2⟩
  order := holderBTreeOrder
  hash := ⟨fun l => l, fun _ => .refl _⟩

/-- One address gets all of the token and sends one unit to another. -/
def transferRun (sender receiver : Fin 256) : List (Rewinds.Event HolderBlock) :=
  [.block (sampleHolderBlock 1 true [(sampleAddress sender, .ofCredit u128Max)]),
    .block (sampleHolderBlock 2 true
      [(sampleAddress sender, .ofDebit 1), (sampleAddress receiver, .ofCredit 1)])]

/-- A receiver that comes before the sender: the sum of the rows fits after each block, and the supply loses
a unit. -/
theorem supply_lost_in_transfer :
    ∃ chain, runHolders (transferRun 2 1) = some chain ∧
      (∀ entry ∈ chain, holderSum (entry.2.at sampleToken).rows ≤ u128Max) ∧
      (chain.store.at sampleToken).supplyLatest.getD 0 ≠ holderSum (chain.store.at sampleToken).rows :=
  ⟨(runHolders (transferRun 2 1)).get (by decide +kernel), (some_get _).symm, by decide +kernel,
    by decide +kernel⟩

/-- A receiver that comes after the sender. -/
theorem supply_eq_holderSum_transfer :
    ∃ chain, runHolders (transferRun 1 2) = some chain ∧
      (chain.store.at sampleToken).supplyLatest.getD 0 = holderSum (chain.store.at sampleToken).rows := by
  have hmeet : HolderBlocksMeet (fun chain b => SumsFit chain.store b) (transferRun 1 2) := by
    refine ⟨sumsFit_of_entries (by decide +kernel), fun chain hchain => ⟨?_, fun _ _ => trivial⟩⟩
    obtain ⟨store, hstore, rfl⟩ := Rewinds.step_block_eq_some.1 hchain
    obtain rfl := get_of_eq_some (by decide +kernel) hstore
    exact sumsFit_of_entries (by decide +kernel)
  exact ⟨(runHolders (transferRun 1 2)).get (by decide +kernel), (some_get _).symm,
    supply_eq_holderSum hmeet (some_get _).symm sampleToken⟩

/-! ## Counts -/

/-- The count is the number of positive rows, and the ordered index has it; an alkane that is not known has
no key there. -/
structure CountInv (st : AlkaneHolders) : Prop where
  count_eq : st.count.getD 0 = positiveRows st.rows
  ordered_eq : st.ordered = if st.count = none ∧ st.created = false then ∅ else {st.count.getD 0}

lemma CountInv.empty : CountInv .empty := ⟨rfl, rfl⟩

lemma CountInv.create (h : CountInv st) (hfirst : st.created = true ∨ st.count = none) :
    CountInv st.create := by
  unfold AlkaneHolders.create
  split_ifs with hcreated
  · exact h
  · have hnone : st.count = none := hfirst.resolve_left hcreated
    have hordered := h.ordered_eq
    rw [if_pos ⟨hnone, by simpa using hcreated⟩] at hordered
    refine ⟨h.count_eq, ?_⟩
    rw [hordered, hnone]
    rfl

lemma CountInv.applyDeltas (h : CountInv st) (hnodup : (entries.map Prod.fst).Nodup)
    (happly : st.applyDeltas check height entries = some st') :
    CountInv st' ∧ st'.count ≠ none := by
  obtain ⟨pass, -, hinv, hrows, hcount, hordered, -, -, -⟩ :=
    AlkaneHolders.applyDeltas_spec hnodup happly
  have hpositive : st.count.getD 0 + pass.added - pass.removed = positiveRows st'.rows := by
    have hpass := hinv.count_eq
    rw [h.count_eq, hrows]
    omega
  have hnone : st'.count ≠ none := by simp [hcount]
  refine ⟨⟨by rw [hcount, ← hpositive]; rfl, ?_⟩, hnone⟩
  rw [if_neg fun hand => hnone hand.1, hordered, hcount, getD_some]
  -- the old key, if there was one, is the only one and has the old count
  have hold : st.ordered = ∅ ∨ st.ordered = {st.count.getD 0} := by
    rw [h.ordered_eq]
    split_ifs
    · exact .inl rfl
    · exact .inr rfl
  split_ifs with hsame
  · rcases hold with hempty | hone
    · rw [hempty]
      rfl
    · rw [hone, Finset.erase_singleton]
      rfl
  · rw [not_not] at hsame
    rcases hold with hempty | hone
    · rw [hempty]
      rfl
    · rw [hone, ← hsame, Finset.insert_eq_of_mem (Finset.mem_singleton_self _)]

/-- The node tells of the creation of an alkane no later than of its first holder: a block has a first
creation record only for an alkane that no block before it touches. -/
def CreatedFirst (chain : HolderChain) (b : HolderBlock) : Prop :=
  ∀ alkane ∈ b.creations, (∃ entry ∈ chain, alkane ∈ entry.1.creations) ∨
    ∀ entry ∈ chain, ¬ Touches entry.1.changes alkane

/-- The rows of all alkanes at the end of a chain, with what they say about its blocks. -/
structure CountsExact (chain : HolderChain) : Prop where
  inv : ∀ alkane, CountInv (chain.store.at alkane)
  created : ∀ alkane, (∃ entry ∈ chain, alkane ∈ entry.1.creations) →
    (chain.store.at alkane).created = true
  touched : ∀ alkane, (∃ entry ∈ chain, Touches entry.1.changes alkane) ↔
    (chain.store.at alkane).count ≠ none

lemma CountsExact.cons (h : CountsExact chain) (hfirst : CreatedFirst chain b)
    (hblock : chain.store.indexBlock b = some store) :
    CountsExact ((b, store) :: chain) := by
  -- the rows after the creation records
  have hinv : ∀ alkane, CountInv ((chain.store.create b.creations).at alkane) := by
    intro alkane
    rw [HolderStore.at_create]
    split_ifs with hmem
    · apply (h.inv alkane).create
      rcases hfirst alkane hmem with hcreated | huntouched
      · exact .inl (h.created alkane hcreated)
      · refine .inr (by_contra fun hcount => ?_)
        obtain ⟨entry, hentry, htouches⟩ := (h.touched alkane).2 hcount
        exact huntouched entry hentry htouches
    · exact h.inv alkane
  have hcreated : ∀ alkane, (∃ entry ∈ (b, store) :: chain, alkane ∈ entry.1.creations) →
      ((chain.store.create b.creations).at alkane).created = true := by
    rintro alkane ⟨entry, hentry, hmem⟩
    rw [HolderStore.at_create]
    split_ifs with hnow
    · exact AlkaneHolders.created_create _
    · rcases List.mem_cons.1 hentry with rfl | hentry
      · exact absurd hmem hnow
      · exact h.created alkane ⟨entry, hentry, hmem⟩
  have htouched : ∀ alkane, (∃ entry ∈ (b, store) :: chain, Touches entry.1.changes alkane) ↔
      Touches b.changes alkane ∨ (chain.store.at alkane).count ≠ none := by
    intro alkane
    rw [← h.touched]
    simp only [List.mem_cons, or_and_right, exists_or, exists_eq_left]
  refine ⟨?_, ?_, ?_⟩
  · intro alkane
    rcases indexBlock_at hblock alkane with ⟨deltas, -, happly⟩ | ⟨-, hsame⟩
    · exact ((hinv alkane).applyDeltas (nodup_inOrder b.order deltas) happly).1
    · show CountInv (store.at alkane)
      rw [hsame]
      exact hinv alkane
  · intro alkane hentry
    show (store.at alkane).created = true
    rcases indexBlock_at hblock alkane with ⟨deltas, -, happly⟩ | ⟨-, hsame⟩
    · obtain ⟨-, -, -, -, -, -, -, -, hkept⟩ :=
        AlkaneHolders.applyDeltas_spec (nodup_inOrder b.order deltas) happly
      rw [hkept]
      exact hcreated alkane hentry
    · rw [hsame]
      exact hcreated alkane hentry
  · intro alkane
    rw [htouched, ← lookup_holdersDelta_ne_none]
    show _ ↔ (store.at alkane).count ≠ none
    rcases indexBlock_at hblock alkane with ⟨deltas, hdeltas, happly⟩ | ⟨hnone, hsame⟩
    · have hcount := ((hinv alkane).applyDeltas (nodup_inOrder b.order deltas) happly).2
      simp [hdeltas, hcount]
    · rw [hsame, (chain.store.at_create_fields b.creations alkane).2.1]
      simp [hnone]

lemma countsExact_of_snapshots (h : Rewinds.Snapshots HolderStore.indexBlock ∅ CreatedFirst chain) :
    CountsExact chain := by
  induction h with
  | nil => exact ⟨fun _ => CountInv.empty, by simp, fun alkane => by simp [HolderChain.store, HolderStore.at,
      AlkaneHolders.empty]⟩
  | cons _ hfirst hblock ih => exact ih.cons hfirst hblock

lemma transferRun_createdFirst (sender receiver : Fin 256) :
    HolderBlocksMeet CreatedFirst (transferRun sender receiver) := by
  refine ⟨fun _ _ => .inr (by simp), fun chain hchain => ⟨fun alkane hmem => .inl ?_, fun _ _ => trivial⟩⟩
  obtain ⟨store, -, rfl⟩ := Rewinds.step_block_eq_some.1 hchain
  exact ⟨_, List.mem_cons_self, hmem⟩

/-- Without the strict check, no negative change of a block meets a holder that has no row. -/
def DebitsMeetRows (store : HolderStore) (b : HolderBlock) : Prop :=
  b.check = false → ∀ alkane deltas, (holdersDelta b.changes).lookup alkane = some deltas →
    ∀ holder delta, deltas.lookup holder = some delta → delta.isNegative = true →
      (store.at alkane).rows.get holder ≠ none

/-- The list has every holder with a row, once. -/
def ListInv (st : AlkaneHolders) : Prop :=
  ∃ l, st.list.Holds l ∧ l.Nodup ∧ ∀ holder, holderIdIndexBytes holder ∈ l ↔ st.rows.get holder ≠ none

lemma pos_of_applySignedBalanceDelta {delta : SignedU128} {next : ℕ}
    (h : applySignedBalanceDelta check 0 delta = some next) (hzero : delta.isZero = false)
    (hdebit : check = false → delta.isNegative = false) : 0 < next := by
  have hamount : 0 < delta.amount := by
    rw [SignedU128.isZero, decide_eq_false_iff_not] at hzero
    omega
  rw [applySignedBalanceDelta] at h
  split_ifs at h with hneg hpanic
  · have hcheck : check = false := by simpa [hamount] using hpanic
    rw [hdebit hcheck] at hneg
    cases hneg
  · cases h
    rw [saturatingAdd, Nat.zero_add]
    exact lt_min hamount (by decide)

lemma ListInv.applyDeltas (h : ListInv st) (hnodup : (entries.map Prod.fst).Nodup)
    (hzero : ∀ e ∈ entries, e.2.isZero = false)
    (hdebit : check = false → ∀ e ∈ entries, e.2.isNegative = true → st.rows.get e.1 ≠ none)
    (happly : st.applyDeltas check height entries = some st') : ListInv st' := by
  obtain ⟨l, hholds, hl, hmem⟩ := h
  obtain ⟨pass, -, hinv, hrows, -, -, -, hlist, -⟩ := AlkaneHolders.applyDeltas_spec hnodup happly
  have hperm := List.perm_insertionSort (· ≤ ·) (pass.appended.map holderIdIndexBytes)
  have hsorted : ∀ holder, holderIdIndexBytes holder
      ∈ (pass.appended.map holderIdIndexBytes).insertionSort (· ≤ ·) ↔ holder ∈ pass.appended := by
    intro holder
    rw [hperm.mem_iff, List.mem_map_of_injective holderIdIndexBytes_injective]
  refine ⟨l ++ (pass.appended.map holderIdIndexBytes).insertionSort (· ≤ ·), ?_, ?_, ?_⟩
  · rw [hlist]
    exact hholds.append _
  · rw [List.nodup_append]
    refine ⟨hl, hperm.nodup_iff.2 (hinv.nodup.map holderIdIndexBytes_injective), ?_⟩
    rintro bytes hold _ hnew rfl
    -- who is appended had no row, and so was not in the list
    obtain ⟨holder, happended, rfl⟩ := List.mem_map.1 (hperm.mem_iff.1 hnew)
    exact (hmem holder).1 hold ((hinv.mem_appended holder).1 happended).2.1
  · intro holder
    rw [List.mem_append, hmem, hsorted, hinv.mem_appended, hrows]
    by_cases hpassed : holder ∈ entries.map Prod.fst
    · obtain ⟨e, he, rfl⟩ := List.mem_map.1 hpassed
      obtain ⟨next, hnext, hget⟩ := hinv.get_done e he
      have hnew : (rowsAfter check st.rows entries).get e.1 ≠ none := by simp [hget]
      refine iff_of_true ?_ hnew
      by_cases hrow : st.rows.get e.1 = none
      · refine .inr ⟨hpassed, hrow, ?_⟩
        rw [hrow] at hnext
        rw [hget]
        refine pos_of_applySignedBalanceDelta hnext (hzero e he) fun hcheck => ?_
        by_contra hneg
        exact hdebit hcheck e he (by simpa using hneg) hrow
      · exact .inl hrow
    · rw [hinv.get_eq holder hpassed]
      simp [hpassed]

lemma listInv_indexBlock (h : ∀ alkane, ListInv (store.at alkane))
    (hdebits : DebitsMeetRows store b) (hblock : store.indexBlock b = some store')
    (alkane : SchemaAlkaneId) : ListInv (store'.at alkane) := by
  obtain ⟨hrows, -, -, hlist⟩ := store.at_create_fields b.creations alkane
  have hcreate : ListInv ((store.create b.creations).at alkane) := by
    rw [ListInv, hrows, hlist]
    exact h alkane
  rcases indexBlock_at hblock alkane with ⟨deltas, hdeltas, happly⟩ | ⟨-, hsame⟩
  · refine hcreate.applyDeltas (nodup_inOrder b.order deltas) ?_ ?_ happly
    · exact fun e he => isZero_of_lookup_holdersDelta hdeltas (mem_inOrder he)
    · intro hcheck e he hneg
      rw [hrows]
      exact hdebits hcheck alkane deltas hdeltas e.1 e.2 (mem_inOrder he) hneg
  · rw [hsame]
    exact hcreate

/-- In every run in which no negative change meets a holder without a row, or whose blocks are checked
strictly, every holder with a positive row is in the holder list once. -/
theorem holder_listed_once
    (hdebits : HolderBlocksMeet (fun chain b => DebitsMeetRows chain.store b) events)
    (hrun : runHolders events = some chain) (alkane : SchemaAlkaneId) (holder : HolderId)
    (hpos : 0 < ((chain.store.at alkane).rows.get holder).getD 0) :
    (chain.store.at alkane).list.read.count (holderIdIndexBytes holder) = 1 := by
  have hall : ∀ alkane, ListInv (chain.store.at alkane) := by
    refine Rewinds.Snapshots.invariant (P := fun store => ∀ alkane, ListInv (HolderStore.at store alkane)) ?_
      (fun _ _ _ hok hP happly => listInv_indexBlock hP hok happly) (snapshots_of_runHolders hdebits hrun)
    exact fun _ => ⟨[], IndexedRows.holds_empty, List.nodup_nil, fun _ => by simp [HolderStore.at, AlkaneHolders.empty]⟩
  obtain ⟨l, hholds, hnodup, hmem⟩ := hall alkane
  rw [hholds.read_eq]
  refine List.count_eq_one_of_mem hnodup ((hmem holder).2 ?_)
  intro hnone
  rw [hnone] at hpos
  exact absurd hpos (Nat.lt_irrefl 0)

/-- An address loses what it never had, which is not checked, and gets some of the token later. -/
def debitBeforeCredit (check : Bool) : List (Rewinds.Event HolderBlock) :=
  [.block (sampleHolderBlock 1 check [(sampleAddress 1, .ofDebit 1)]),
    .block (sampleHolderBlock 2 check [(sampleAddress 1, .ofCredit 5)])]

/-- The row of the holder is positive and the list is empty. -/
theorem holder_not_listed :
    ∃ chain, runHolders (debitBeforeCredit false) = some chain ∧
      ((chain.store.at sampleToken).rows.get (sampleAddress 1)).getD 0 = 5 ∧
      (chain.store.at sampleToken).list.read.count (holderIdIndexBytes (sampleAddress 1)) = 0 :=
  ⟨(runHolders (debitBeforeCredit false)).get (by decide +kernel), (some_get _).symm,
    by decide +kernel, by decide +kernel⟩

theorem holder_listed_once_transfer :
    ∃ chain, runHolders (transferRun 2 1) = some chain ∧
      0 < ((chain.store.at sampleToken).rows.get (sampleAddress 1)).getD 0 ∧
      (chain.store.at sampleToken).list.read.count (holderIdIndexBytes (sampleAddress 1)) = 1 := by
  have hmeet : HolderBlocksMeet (fun chain b => DebitsMeetRows chain.store b) (transferRun 2 1) :=
    ⟨fun hcheck => (by cases hcheck), fun _ _ => ⟨fun hcheck => (by cases hcheck), fun _ _ => trivial⟩⟩
  have hpos : 0 < (((HolderChain.store ((runHolders (transferRun 2 1)).get (by decide +kernel))).at
      sampleToken).rows.get (sampleAddress 1)).getD 0 := by decide +kernel
  exact ⟨_, (some_get _).symm, hpos,
    holder_listed_once hmeet (some_get _).symm sampleToken (sampleAddress 1) hpos⟩

end Espo.Essentials
