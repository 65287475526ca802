import Espo.Runes.Supply

/-!
# The flow of units through a block

Every phase of a transaction keeps `Flow`: the units of each rune are conserved, the caches say what
the view says, and no sum has wrapped around. A further property of the indexer may ride along, for
which `FlowRule` says what it has to be kept by; the phases then offer it what they know.
-/

namespace Espo.Runes
open Lib List

/-- The artifact has an etching. -/
def Artifact.Etches : Artifact → Prop
  | .runestone stone => stone.etching.isSome
  | .cenotaph etching _ => etching.isSome

/-- The etching whose fields the entry takes. -/
def Artifact.etching : Artifact → Option Etching
  | .runestone stone => stone.etching
  | .cenotaph _ _ => none

/-- The whole supply of the etching is a `u128`, and so is its cap. -/
def Etching.Fits (e : Etching) : Prop :=
  let cap := (e.terms.bind SchemaRuneTerms.cap).getD 0
  e.premine.getD 0 + cap * (e.terms.bind SchemaRuneTerms.amount).getD 0 < u128Size ∧ cap < u128Size

/-- The etching of the artifact, if it has one, fits. -/
def Artifact.Fits (artifact : Artifact) : Prop := ∀ e, artifact.etching = some e → e.Fits

namespace BlockRunesIndexer
variable {T A H : Type} [LinearOrder T] [LinearOrder A] {db : RuneRows T A}
  {ix ix' : BlockRunesIndexer T A} {Q : BlockRunesIndexer T A → Prop} {spent made : Set (T × ℕ)}
  {ids : Set SchemaRuneId} {flight : SchemaRuneId → ℕ} {sheet : RuneSheet SchemaRuneId}

/-- What holds between two steps of a block. `flight` are the units that the transaction has to
allocate, `spent` the outpoints spent so far, `made` has the outpoints and `ids` the ids that may have
a row; `Q` rides along. -/
structure Flow (db : RuneRows T A) (Q : BlockRunesIndexer T A → Prop) (spent made : Set (T × ℕ))
    (ids : Set SchemaRuneId) (flight : SchemaRuneId → ℕ) (ix : BlockRunesIndexer T A) : Prop where
  coherent : Coherent db ix
  tracked : Tracked db spent ix
  conserved : Conserved (ix.view db) flight
  made : ∀ o, (ix.view db).outpoint o ≠ none → o ∈ made
  ids : ∀ id, (ix.view db).entry id ≠ none → id ∈ ids
  overflow : ix.overflow = false
  rides : Q ix

/-- What keeps a property that rides along. -/
structure FlowRule (db : RuneRows T A) (Q : BlockRunesIndexer T A → Prop) : Prop where
  touches : ∀ {ix ix'}, Touches db [.entries, .others] ix ix' → Q ix → Q ix'
  noteOverflow : ∀ ix issued allocation, Q ix → Q (ix.noteOverflow issued allocation)
  spendRow : ∀ {ix : BlockRunesIndexer T A} {o row} {flight : SchemaRuneId → ℕ} previous,
    Conserved (ix.view db) flight → (ix.view db).outpoint o = some row →
      Q ix → Q (ix.spendRow db o row previous)
  createRow : ∀ {ix : BlockRunesIndexer T A} {o row} {flight : SchemaRuneId → ℕ},
    Conserved (ix.view db) (fun id => flight id + amountOf row.balances id) →
      (ix.view db).outpoint o = none → Q ix → Q (ix.createRow db o row)

lemma flowRule_true (db : RuneRows T A) : FlowRule db fun _ => True where
  touches _ _ := trivial
  noteOverflow _ _ _ _ := trivial
  spendRow _ _ _ _ := trivial
  createRow _ _ _ := trivial

/-! ## New entries -/

lemma saturatingAdd_eq {a b : ℕ} (h : a + b < u128Size) : Essentials.saturatingAdd a b = a + b := by
  unfold u128Size at h
  unfold Essentials.saturatingAdd Essentials.u128Max
  omega

section Block
variable (env : RunesEnv) (b : RuneBlock T A H) {artifact : Artifact}

lemma etched_spec {txIndex : ℕ} {tx : RuneTx T A} {id : SchemaRuneId} {rune : ℕ}
    {etching : Option Etching}
    (h : ix.etched db env b txIndex tx artifact = some (id, rune, etching)) :
    id = ⟨b.height, txIndex⟩ ∧ artifact.Etches ∧ etching = artifact.etching := by
  have hetches : (match artifact with
      | .runestone stone => stone.etching.map Etching.rune
      | .cenotaph etching _ => etching.map some) ≠ none → artifact.Etches := by
    cases artifact <;> simp [Artifact.Etches, Option.isSome_iff_ne_none]
  unfold etched at h
  dsimp only at h
  split at h
  · simp at h
  · rename_i hnamed
    obtain ⟨rfl, -, rfl⟩ : _ ∧ _ ∧ _ := by simpa using h
    exact ⟨rfl, hetches (ne_of_eq_of_ne hnamed (by simp)), by cases artifact <;> rfl⟩
  · rename_i hnamed
    split_ifs at h
    obtain ⟨rfl, -, rfl⟩ : _ ∧ _ ∧ _ := by simpa using h
    exact ⟨rfl, hetches (ne_of_eq_of_ne hnamed (by simp)), by cases artifact <;> rfl⟩

omit [LinearOrder T] [LinearOrder A] in
lemma newEntry_sound (hfits : artifact.Fits) (id : SchemaRuneId) (rune : ℕ) (txid : T)
    (number : ℕ) : (newEntry env b id rune txid artifact.etching artifact number).Sound := by
  cases artifact with
  | cenotaph e m =>
    exact ⟨(by decide : 0 + 0 * 0 < u128Size), (by decide : 0 < u128Size), Nat.zero_le _⟩
  | runestone stone =>
    cases hetching : stone.etching with
    | none =>
      simp only [Artifact.etching, hetching]
      exact ⟨(by decide : 0 + 0 * 0 < u128Size), (by decide : 0 < u128Size), Nat.zero_le _⟩
    | some e =>
      obtain ⟨hsupply, hcap⟩ := hfits e hetching
      simp only [Artifact.etching, hetching]
      exact ⟨hsupply, hcap, Nat.zero_le _⟩

omit [LinearOrder T] [LinearOrder A] in
lemma newEntry_fields (artifact : Artifact) (id : SchemaRuneId) (rune : ℕ) (txid : T)
    (number : ℕ) :
    let e := newEntry env b id rune txid artifact.etching artifact number
    e.id = id ∧ e.burned = 0 ∧ e.mints = 0 ∧
      e.premine = (artifact.etching.bind Etching.premine).getD 0 := by
  cases artifact with
  | cenotaph e m => exact ⟨rfl, rfl, rfl, rfl⟩
  | runestone stone =>
    refine ⟨rfl, rfl, rfl, ?_⟩
    show ((stone.etching.getD ⟨none, none, none, none, none, none, false⟩).premine).getD 0 = _
    cases hetching : stone.etching with
    | none => simp [Artifact.etching, hetching]
    | some e => simp [Artifact.etching, hetching]

end Block

/-! ## Allocation -/

section
omit [LinearOrder T] [LinearOrder A] in
lemma sound_allocateRunes (hoverflow : sheet.overflow = false)
    (hfit : ∀ id, sheet.amount id < u128Size) (outputs : List (TxOut A)) (artifact : Option Artifact)
    (etched : Option SchemaRuneId) :
    (allocateRunes outputs artifact etched sheet).Sound outputs sheet.amount := by
  have hstart : Allocation.Sound outputs sheet.amount ⟨sheet, ∅⟩ := Allocation.sound_start hoverflow
  have hedicts : ∀ (edicts : List Edict) (st : Allocation SchemaRuneId), st.Sound outputs sheet.amount →
      (applyEdicts outputs etched st edicts).Sound outputs sheet.amount := by
    intro edicts st hst
    refine foldlRecOn _ _ hst fun st hst edict _ => ?_
    split
    · exact hst
    · exact hst.applyEdict hfit _ _ _
  unfold allocateRunes
  split
  · exact hstart
  · exact (hedicts _ _ hstart).routeLeftovers hfit _
  · exact hstart.routeLeftovers hfit _

variable (outs : OutputRuneSheets SchemaRuneId)

lemma sum_toList (id : SchemaRuneId) :
    (outs.toList.map fun e => e.2.amount id).sum = outs.total id := by
  unfold OutputRuneSheets.toList OutputRuneSheets.total
  rw [List.map_map, ← sum_toFinset _ (Finset.sort_nodup _ _), Finset.sort_toFinset]
  rfl

lemma mem_toList_outputs {outs : OutputRuneSheets SchemaRuneId}
    {e : ℕ × RuneSheet SchemaRuneId} (he : e ∈ outs.toList) : e.1 ∈ outs.keys := by
  obtain ⟨vout, hvout, rfl⟩ := List.mem_map.1 he
  exact (Finset.mem_sort _).1 hvout

lemma nodup_toList_outputs : (outs.toList.map Prod.fst).Nodup := by
  unfold OutputRuneSheets.toList
  rw [List.map_map]
  exact (List.map_id _).symm ▸ Finset.sort_nodup _ _

lemma cached_createOutput (tx : RuneTx T A) {st : Creating T A} (h : st.live.Cached db)
    (output : ℕ × RuneSheet SchemaRuneId) :
    (createOutput db tx st output).live.Cached db := by
  unfold createOutput
  split
  · exact h
  · split_ifs
    · exact h
    · exact h
    · exact LiveOutpoints.cached_delete h _ _

end

/-! ## Steps -/

section
variable (hQ : FlowRule db Q)
include hQ

section
variable (h : Flow db Q spent made ids flight ix)
include h

lemma Flow.touches (htouches : Touches db [.others] ix ix') : Flow db Q spent made ids flight ix' := by
  have hentries := htouches.entry (by decide)
  have houtpoints := htouches.outpoint (by decide)
  exact {
    coherent := htouches.coherent h.coherent
    tracked := htouches.tracked (by decide) h.tracked
    conserved := h.conserved.congr hentries houtpoints
    made := fun o ho => h.made o (houtpoints o ▸ ho)
    ids := fun id hid => h.ids id (hentries id ▸ hid)
    overflow := htouches.overflow.trans h.overflow
    rides := hQ.touches (htouches.mono (by decide)) h.rides }

omit hQ in
lemma Flow.mono {made' : Set (T × ℕ)} {ids' : Set SchemaRuneId} {spent' : Set (T × ℕ)}
    (hspent : spent ⊆ spent') (hmade : made ⊆ made')
    (hids : ids ⊆ ids') : Flow db Q spent' made' ids' flight ix :=
  { h with
    tracked := h.tracked.mono hspent
    made := fun o ho => hmade (h.made o ho)
    ids := fun id hid => hids (h.ids id hid) }

variable {e : RuneEntry T} {flight' : SchemaRuneId → ℕ}

lemma Flow.storeEntry (hsound : e.Sound) (hflight : ∀ id, id ≠ e.id → flight' id = flight id)
    (hissued : (ix.view db).liveAmount e.id + flight' e.id + e.burned = e.issued) :
    Flow db Q spent made (insert e.id ids) flight' (ix.storeEntry e) := by
  have htouches : Touches db [.entries] ix (ix.storeEntry e) := touches_storeEntry ix e
  have hentries := entry_storeEntry h.coherent e
  have houtpoints := htouches.outpoint (by decide)
  exact {
    coherent := htouches.coherent h.coherent
    tracked := htouches.tracked (by decide) h.tracked
    conserved := h.conserved.setEntry hsound hentries houtpoints hflight hissued
    made := fun o ho => h.made o (houtpoints o ▸ ho)
    ids := fun id hid => by
      rw [hentries] at hid
      by_cases heq : id = e.id
      · exact .inl heq
      · exact .inr (h.ids id (by rwa [if_neg heq] at hid))
    overflow := h.overflow
    rides := hQ.touches (htouches.mono (by decide)) h.rides }

lemma Flow.updateEntry (hold : (ix.view db).entry e.id ≠ none) (hsound : e.Sound)
    (hflight : ∀ id, id ≠ e.id → flight' id = flight id)
    (hissued : (ix.view db).liveAmount e.id + flight' e.id + e.burned = e.issued) :
    Flow db Q spent made ids flight' (ix.storeEntry e) := by
  have hstored := h.storeEntry hQ hsound hflight hissued
  rwa [Set.insert_eq_of_mem (h.ids _ hold)] at hstored

lemma Flow.spendRow {o : T × ℕ} {row : OutpointRuneBalances A}
    (hrow : (ix.view db).outpoint o = some row) (previous : Option (OutpointRuneBalances A)) :
    Flow db Q (insert o spent) made ids (fun id => flight id + amountOf row.balances id)
      (ix.spendRow db o row previous) := by
  have htouches : Touches db [.outpoints, .balances] { ix with ephem := ix.ephem.delete o }
      (ix.spendRow db o row previous) := touches_spendRow ix o row previous
  have hentries := htouches.entry (by decide)
  have houtpoints := @outpoint_spendRow _ _ _ _ db ix o row previous
  exact {
    coherent := htouches.coherent ⟨h.coherent.deletes, h.coherent.entries⟩
    tracked := h.tracked.spendRow o row previous
    conserved := h.conserved.spend hrow hentries houtpoints
    made := fun o' ho' => by
      rw [houtpoints] at ho'
      split_ifs at ho'
      · exact absurd rfl ho'
      · exact h.made o' ho'
    ids := fun id hid => h.ids id (hentries id ▸ hid)
    overflow := htouches.overflow.trans h.overflow
    rides := hQ.spendRow previous h.conserved hrow h.rides }

lemma Flow.loadEntry (id : SchemaRuneId) :
    Flow db Q spent made ids flight (ix.loadEntry db id).2 ∧
      (ix.loadEntry db id).1 = ((ix.loadEntry db id).2.view db).entry id := by
  have htouches : Touches db [.others] ix (ix.loadEntry db id).2 := touches_loadEntry ix id
  refine ⟨h.touches hQ htouches, ?_⟩
  rw [loadEntry_fst h.coherent id]
  exact (htouches.entry (by decide) id).symm

/-- A rune that has no entry gets one, and its premine is in flight. -/
theorem Flow.nameRune (hnew : (ix.view db).entry e.id = none) (hsound : e.Sound)
    (hburned : e.burned = 0) (hmints : e.mints = 0) :
    Flow db Q spent made (insert e.id ids)
      (fun id => flight id + if id = e.id then e.premine else 0) (ix.nameRune e) := by
  have hzero := h.conserved.absent e.id hnew
  have hstored : Flow db Q spent made (insert e.id ids)
      (fun id => flight id + if id = e.id then e.premine else 0) (ix.storeEntry e) := by
    apply h.storeEntry hQ hsound
    · intro id hne
      rw [if_neg hne]
      rfl
    · rw [if_pos rfl, RuneEntry.issued, hmints]
      omega
  exact hstored.touches hQ (touches_nameRune_storeEntry ix e)

lemma Flow.noteOverflow (hsheet : sheet.overflow = false)
    {outputs : List (TxOut A)} {total : SchemaRuneId → ℕ} {allocation : Allocation SchemaRuneId}
    (hsound : allocation.Sound outputs total) :
    Flow db Q spent made ids flight (ix.noteOverflow sheet allocation) where
  coherent := ⟨h.coherent.deletes, h.coherent.entries⟩
  tracked := ⟨h.tracked.own, h.tracked.stored⟩
  conserved := h.conserved
  made := h.made
  ids := h.ids
  overflow := by
    have hallocated : (allocation.allocated.toList.any fun e => e.2.overflow) = false := by
      rw [List.any_eq_false]
      intro e he
      obtain ⟨vout, -, rfl⟩ := List.mem_map.1 he
      simp [hsound.allocated vout]
    show (ix.overflow || sheet.overflow || allocation.unallocated.overflow || _) = false
    rw [h.overflow, hsheet, hsound.unallocated, hallocated]
    rfl
  rides := hQ.noteOverflow _ _ _ h.rides

section Block
variable (env : RunesEnv) (b : RuneBlock T A H)

lemma flow_ensureGenesisRune (hgenesis : genesisRuneId ∈ ids) (txid : T) :
    Flow db Q spent made ids flight (ix.ensureGenesisRune db env b txid) := by
  obtain ⟨hloaded, hentry⟩ := h.loadEntry hQ genesisRuneId
  unfold ensureGenesisRune
  dsimp only
  generalize ix.loadEntry db genesisRuneId = loaded at hloaded hentry ⊢
  cases hfound : loaded.1 with
  | some _ => exact hloaded
  | none =>
    have htouches : Touches db [.others] loaded.2 (loaded.2.nextSequence db).2 := touches_nextId _ _
    have hnew : ((loaded.2.nextSequence db).2.view db).entry genesisRuneId = none :=
      (htouches.entry (by decide) genesisRuneId).trans (hentry.symm.trans hfound)
    have hsound : ∀ number : ℕ, (makeEntry env genesisRuneId env.uncommonGoods 128 (some '⧉') 0 0
        (some (genesisTerms env)) txid number b.time true).Sound := by
      intro number
      exact ⟨(by decide : 0 + Essentials.u128Max * 1 < u128Size), (by decide : Essentials.u128Max < u128Size),
        Nat.zero_le _⟩
    have hnamed : Flow db Q spent made (insert genesisRuneId ids)
        (fun id => flight id + if id = genesisRuneId then 0 else 0) _ :=
      (hloaded.touches hQ htouches).nameRune hQ hnew (hsound (loaded.2.nextSequence db).1) rfl rfl
    -- its premine is zero
    simp only [ite_self, Set.insert_eq_of_mem hgenesis] at hnamed
    exact hnamed

lemma flow_startTx (hgenesis : genesisRuneId ∈ ids) (txIndex : ℕ) (tx : RuneTx T A) :
    Flow db Q spent made ids flight (ix.startTx db b env txIndex tx) := by
  unfold startTx
  split_ifs
  · exact flow_ensureGenesisRune hQ h env b hgenesis tx.txid
  · exact h

lemma flow_createRuneEntry {id : SchemaRuneId} (hid : id ∉ ids) {artifact : Artifact}
    (hfits : artifact.Fits) (rune : ℕ) (tx : RuneTx T A) :
    Flow db Q spent made (insert id ids)
      (fun id' => flight id' +
        if id' = id then (artifact.etching.bind Etching.premine).getD 0 else 0)
      (ix.createRuneEntry db env b id rune tx artifact.etching artifact) := by
  have htouches : Touches db [.others] ix (ix.nextSequence db).2 := touches_nextId _ _
  have hnew : ((ix.nextSequence db).2.view db).entry id = none := by
    by_contra hentry
    exact hid ((h.touches hQ htouches).ids id hentry)
  have hsound := newEntry_sound env b hfits id rune tx.txid (ix.nextSequence db).1
  obtain ⟨hid', hburned, hmints, hpremine⟩ :=
    newEntry_fields env b artifact id rune tx.txid (ix.nextSequence db).1
  have hnamed := (h.touches hQ htouches).nameRune hQ (by rwa [hid']) hsound hburned hmints
  rw [hid', hpremine] at hnamed
  unfold createRuneEntry
  split
  · exact hnamed
  · exact hnamed.touches hQ (touches_push _ _ (by simp [RuneKey.keyClass]))

end Block

end

lemma Flow.createRow {o : T × ℕ} {row : OutpointRuneBalances A}
    (h : Flow db Q spent made ids (fun id => flight id + amountOf row.balances id) ix)
    (ho : o ∉ made) : Flow db Q spent (insert o made) ids flight (ix.createRow db o row) := by
  have hrow : (ix.view db).outpoint o = none := by
    by_contra hrow
    exact ho (h.made o hrow)
  have htouches : Touches db [.outpoints, .balances, .others]
      { ix with ephem := ix.ephem.put o row } (ix.createRow db o row) := touches_createRow ix o row
  have hentries := htouches.entry (by decide)
  have houtpoints := @outpoint_createRow _ _ _ _ db ix o row
  exact {
    coherent := htouches.coherent ⟨h.coherent.deletes, h.coherent.entries⟩
    tracked := h.tracked.createRow o row
    conserved := h.conserved.create hrow hentries houtpoints
    made := fun o' ho' => by
      rw [houtpoints] at ho'
      by_cases heq : o' = o
      · exact .inl heq
      · exact .inr (h.made o' (by rwa [if_neg heq] at ho'))
    ids := fun id hid => h.ids id (hentries id ▸ hid)
    overflow := htouches.overflow.trans h.overflow
    rides := hQ.createRow h.conserved hrow h.rides }

lemma flow_burn {balance : RuneBalance}
    (h : Flow db Q spent made ids (fun id => flight id + if balance.id = id then balance.amount else 0) ix) :
    Flow db Q spent made ids flight (ix.burn db balance) := by
  obtain ⟨hloaded, hentry⟩ := h.loadEntry hQ balance.id
  unfold burn
  dsimp only
  generalize ix.loadEntry db balance.id = loaded at hloaded hentry ⊢
  cases hfound : loaded.1 with
  | none =>
    -- a rune without an entry has no units to burn
    have hzero := hloaded.conserved.absent balance.id (hentry.symm.trans hfound)
    rw [if_pos rfl] at hzero
    have hflight : (fun id => flight id + if balance.id = id then balance.amount else 0) = flight := by
      funext id
      split_ifs <;> omega
    rwa [hflight] at hloaded
  | some e =>
    have he : (loaded.2.view db).entry balance.id = some e := hentry.symm.trans hfound
    obtain ⟨hid, hsound⟩ := hloaded.conserved.sound _ _ he
    have hissued := hloaded.conserved.issued _ _ he
    have hlt := hsound.issued_lt
    rw [if_pos rfl] at hissued
    have hburned : Essentials.saturatingAdd e.burned balance.amount = e.burned + balance.amount :=
      saturatingAdd_eq (by omega)
    rw [← hid] at he hissued
    dsimp only
    rw [hburned]
    apply hloaded.updateEntry hQ
    · rw [he]
      simp
    · exact ⟨hsound.fits, hsound.cap, hsound.mints⟩
    · intro id hne
      rw [if_neg fun heq => hne (heq.symm.trans hid.symm)]
      rfl
    · show (loaded.2.view db).liveAmount e.id + flight e.id + (e.burned + balance.amount) = e.issued
      omega

lemma flow_burns {balances : List RuneBalance}
    (h : Flow db Q spent made ids (fun id => flight id + amountOf balances id) ix) :
    Flow db Q spent made ids flight (balances.foldl (burn db) ix) := by
  induction balances generalizing ix with
  | nil => exact h
  | cons balance balances ih =>
    apply ih
    apply flow_burn hQ
    have hflight : (fun id => flight id + amountOf (balance :: balances) id) = fun id =>
        flight id + amountOf balances id + if balance.id = id then balance.amount else 0 := by
      funext id
      rw [amountOf_cons]
      omega
    rwa [hflight] at h

/-! ## Issuing -/

/-- The runes a transaction has to allocate are in flight, and adding them has not wrapped around. -/
structure Carried (db : RuneRows T A) (Q : BlockRunesIndexer T A → Prop) (spent made : Set (T × ℕ))
    (ids : Set SchemaRuneId) (ix : BlockRunesIndexer T A) (sheet : RuneSheet SchemaRuneId) : Prop where
  flow : Flow db Q spent made ids sheet.amount ix
  overflow : sheet.overflow = false

omit hQ in
lemma Carried.add {id : SchemaRuneId} {amount : ℕ}
    (hoverflow : sheet.overflow = false)
    (h : Flow db Q spent made ids (fun id' => sheet.amount id' + if id' = id then amount else 0) ix) :
    Carried db Q spent made ids ix (sheet.add id amount) := by
  have hfit : sheet.amount id + amount < u128Size := by
    have hlt := h.conserved.lt id
    rw [if_pos rfl] at hlt
    omega
  constructor
  · have hamount : (sheet.add id amount).amount = fun id' =>
        sheet.amount id' + if id' = id then amount else 0 := funext fun id' => RuneSheet.amount_add hfit id'
    rwa [hamount]
  · rw [RuneSheet.overflow_add hfit]
    exact hoverflow

omit hQ in
lemma Carried.of_keys_empty
    (h : Carried db Q spent made ids ix sheet) (hempty : sheet.rows.keys = ∅) :
    Flow db Q spent made ids (fun _ => 0) ix := by
  have hflight : sheet.amount = fun _ => 0 := funext (RuneSheet.amount_eq_zero hempty)
  exact hflight ▸ h.flow

section Block
variable (env : RunesEnv) (b : RuneBlock T A H)

lemma carried_etch
    (h : Carried db Q spent made ids ix sheet) (txIndex : ℕ) (tx : RuneTx T A)
    {artifact : Option Artifact} (hfits : ∀ a, artifact = some a → a.Fits)
    (hnew : ∀ a, artifact = some a → a.Etches → ⟨b.height, txIndex⟩ ∉ ids) :
    Carried db Q spent made (insert ⟨b.height, txIndex⟩ ids)
      (ix.etch db env b txIndex tx artifact sheet).ix
      (ix.etch db env b txIndex tx artifact sheet).unallocated := by
  have hsame : Carried db Q spent made (insert ⟨b.height, txIndex⟩ ids) ix sheet :=
    ⟨h.flow.mono subset_rfl subset_rfl (Set.subset_insert _ _), h.overflow⟩
  unfold etch
  cases artifact with
  | none => exact hsame
  | some artifact =>
    dsimp only
    cases hetched : ix.etched db env b txIndex tx artifact with
    | none => exact hsame
    | some found =>
      obtain ⟨id, rune, etching⟩ := found
      obtain ⟨rfl, hetches, rfl⟩ := etched_spec env b hetched
      have hcreated := flow_createRuneEntry hQ h.flow env b (hnew artifact rfl hetches)
        (hfits artifact rfl) rune tx
      cases artifact with
      | runestone stone => exact .add h.overflow hcreated
      | cenotaph e m =>
        -- the entry of a cenotaph has no premine
        simp only [Artifact.etching, Option.bind_none, Option.getD_none, ite_self]
          at hcreated
        exact ⟨hcreated, h.overflow⟩

lemma carried_mint {st : Issued T A}
    (h : Carried db Q spent made ids st.ix st.unallocated) (txIndex : ℕ) (artifact : Option Artifact) :
    Carried db Q spent made ids (mintArtifact db b st txIndex artifact).ix
      (mintArtifact db b st txIndex artifact).unallocated := by
  unfold mintArtifact
  cases artifact.bind Artifact.mint with
  | none => exact h
  | some id =>
    obtain ⟨hloaded, hentry⟩ := h.flow.loadEntry hQ id
    unfold mint
    dsimp only
    generalize st.ix.loadEntry db id = loaded at hloaded hentry ⊢
    cases hfound : loaded.1 with
    | none => exact ⟨hloaded, h.overflow⟩
    | some e =>
      dsimp only
      cases hmintable : e.mintable b.height txIndex with
      | none => exact ⟨hloaded, h.overflow⟩
      | some amount =>
        have he : (loaded.2.view db).entry id = some e := hentry.symm.trans hfound
        obtain ⟨hid, hsound⟩ := hloaded.conserved.sound _ _ he
        have hissued := hloaded.conserved.issued _ _ he
        obtain ⟨hamount, hcap⟩ := RuneEntry.mintable_spec hmintable
        have hcapLt := hsound.cap
        have hmints : Essentials.saturatingAdd e.mints 1 = e.mints + 1 :=
          saturatingAdd_eq (by omega)
        rw [hmints]
        apply Carried.add h.overflow
        rw [← hid] at he hissued
        apply hloaded.updateEntry hQ
        · rw [he]
          simp
        · exact ⟨hsound.fits, hsound.cap, hcap⟩
        · intro id' hne
          rw [if_neg fun heq => hne (heq.trans hid.symm)]
          rfl
        · show (loaded.2.view db).liveAmount e.id +
            (st.unallocated.amount e.id + if e.id = id then amount else 0) + e.burned =
              e.premine + (e.mints + 1) * e.mintAmount
          have hstep : (e.mints + 1) * e.mintAmount = e.mints * e.mintAmount + e.mintAmount :=
            Nat.succ_mul _ _
          rw [if_pos hid]
          unfold RuneEntry.issued at hissued
          omega

end Block

/-! ## Inputs -/

lemma carried_spendInput {st : Spending T A}
    (h : Carried db Q spent made ids st.ix st.unallocated) (hlive : st.live.Cached db)
    {input : TxIn T × ℕ} (ho : input.1.previousOutput ∉ spent) :
    Carried db Q (insert input.1.previousOutput spent) made ids
        (spendInput db st input).ix
        (spendInput db st input).unallocated ∧
      (spendInput db st input).live.Cached db := by
  have htaken := LiveOutpoints.cached_takeOutpoint hlive st.ix.ephem input.1.previousOutput
  unfold spendInput
  dsimp only
  split
  · exact ⟨⟨h.flow.mono (Set.subset_insert _ _) subset_rfl subset_rfl, h.overflow⟩, htaken⟩
  · rename_i row previous htake
    have hrow := h.flow.tracked.outpoint_of_take hlive ho htake
    have hspent := h.flow.spendRow hQ hrow previous
    obtain ⟨hoverflow, hamount⟩ := addBalances_spec fun id =>
      lt_of_le_of_lt (Nat.le_add_left _ _) (hspent.conserved.lt id)
    refine ⟨⟨?_, hoverflow.trans h.overflow⟩, LiveOutpoints.cached_delete htaken _ _⟩
    rwa [← funext hamount] at hspent

variable {tx : RuneTx T A} {live : LiveOutpoints T A}

lemma carried_unallocated (h : Flow db Q spent made ids (fun _ => 0) ix) (hlive : live.Cached db)
    (hspends : ∀ o ∈ tx.spends, o ∉ spent) (hnodup : tx.spends.Nodup) :
    Carried db Q (spent ∪ passed tx.inputs.zipIdx) made ids (unallocated db live ix tx).ix
        (unallocated db live ix tx).unallocated ∧
      (unallocated db live ix tx).live.Cached db := by
  apply foldl_invariant (P := fun done (st : Spending T A) =>
    Carried db Q (spent ∪ passed done) made ids st.ix st.unallocated ∧ st.live.Cached db)
  · rw [passed_nil, Set.union_empty]
    exact ⟨⟨h, rfl⟩, hlive⟩
  · rintro done input rest st hinputs ⟨hst, hcached⟩
    rw [passed_snoc, Set.union_insert]
    exact carried_spendInput hQ hst hcached (notMem_passed hspends hnodup hinputs)

/-! ## Outputs -/

/-- The units on sheets. -/
def sheetsTotal (outputs : List (ℕ × RuneSheet SchemaRuneId)) (id : SchemaRuneId) : ℕ :=
  (outputs.map fun e => e.2.amount id).sum

lemma flow_createOutput {st : Creating T A} {output : ℕ × RuneSheet SchemaRuneId}
    (h : Flow db Q spent made ids (fun id => flight id + output.2.amount id) st.ix)
    (hvout : output.1 < tx.outputs.length) (hmade : (tx.txid, output.1) ∉ made) :
    Flow db Q spent (insert (tx.txid, output.1) made) ids flight
      (createOutput db tx st output).ix := by
  have hmono : made ⊆ insert (tx.txid, output.1) made := Set.subset_insert _ _
  have hsheet : (fun id => flight id + output.2.amount id) = fun id =>
      flight id + amountOf (balancesFromSheet output.2) id := by
    funext id
    rw [amountOf_balancesFromSheet]
  unfold createOutput
  rw [getElem?_eq_getElem hvout]
  dsimp only
  split_ifs with hempty hburn
  · -- an empty sheet has no units
    have hflight : (fun id => flight id + output.2.amount id) = flight := by
      funext id
      rw [RuneSheet.amount_eq_zero hempty, Nat.add_zero]
    exact (hflight ▸ h).mono subset_rfl hmono subset_rfl
  · exact (flow_burns hQ (hsheet ▸ h)).mono subset_rfl hmono subset_rfl
  · exact Flow.createRow hQ (hsheet ▸ h) hmade

lemma flow_createOutputs {outputs : List (ℕ × RuneSheet SchemaRuneId)}
    (h : Flow db Q spent made ids (sheetsTotal outputs) ix) (hlive : live.Cached db)
    (hvouts : ∀ e ∈ outputs, e.1 < tx.outputs.length) (hnodup : (outputs.map Prod.fst).Nodup)
    (hmade : ∀ o ∈ made, o.1 ≠ tx.txid) (acc : TxAcc A) :
    Flow db Q spent (made ∪ {o | o.1 = tx.txid}) ids (fun _ => 0)
        (outputs.foldl (createOutput db tx) ⟨live, ix, acc⟩).ix ∧
      (outputs.foldl (createOutput db tx) ⟨live, ix, acc⟩).live.Cached db := by
  -- the sheets that are left are in flight, and only outputs that have been passed have been made
  have hloop := foldl_invariant (f := createOutput db tx) (l := outputs)
    (s := ⟨live, ix, acc⟩) (P := fun done (st : Creating T A) =>
      (∀ rest, outputs = done ++ rest → Flow db Q spent
        (made ∪ {o | o.1 = tx.txid ∧ o.2 ∈ done.map Prod.fst}) ids (sheetsTotal rest) st.ix) ∧
      st.live.Cached db)
    ⟨fun rest hrest => by
      exact (hrest ▸ h).mono subset_rfl Set.subset_union_left subset_rfl, hlive⟩ ?_
  · refine ⟨(hloop.1 [] (append_nil _).symm).mono subset_rfl ?_ subset_rfl, hloop.2⟩
    exact Set.union_subset_union_right _ fun o ho => ho.1
  · rintro done output rest st houtputs ⟨hflow, hcached⟩
    refine ⟨fun rest' hrest' => ?_, cached_createOutput tx hcached output⟩
    obtain rfl : rest = rest' := by
      rw [houtputs] at hrest'
      simpa using hrest'
    have hfresh : (tx.txid, output.1) ∉
        made ∪ {o : T × ℕ | o.1 = tx.txid ∧ o.2 ∈ done.map Prod.fst} := by
      rintro (hold | hdone)
      · exact hmade _ hold rfl
      · rw [houtputs, map_append] at hnodup
        exact disjoint_of_nodup_append hnodup hdone.2 mem_cons_self
    have hsplit : sheetsTotal (output :: rest) = fun id =>
        sheetsTotal rest id + output.2.amount id := by
      funext id
      rw [sheetsTotal, map_cons, Nat.add_comm]
      rfl
    have hstep := flow_createOutput hQ (hsplit ▸ hflow _ houtputs)
      (hvouts output (by rw [houtputs]; simp)) hfresh
    refine hstep.mono subset_rfl ?_ subset_rfl
    intro o ho
    rcases ho with rfl | hold | hdone
    · exact .inr ⟨rfl, by simp⟩
    · exact .inl hold
    · exact .inr ⟨hdone.1, by rw [map_append]; exact mem_append_left _ hdone.2⟩

/-! ## The transaction -/

section Block
variable (env : RunesEnv) (order : Essentials.HashOrder) (b : RuneBlock T A H)
  {live : LiveOutpoints T A}

lemma flow_settleTx {issued : Issued T A}
    (h : Carried db Q spent made ids issued.ix issued.unallocated) (hlive : live.Cached db)
    {tx : RuneTx T A} (hmade : ∀ o ∈ made, o.1 ≠ tx.txid) {allocation : Allocation SchemaRuneId}
    (hsound : allocation.Sound tx.outputs issued.unallocated.amount) (txIndex : ℕ) (acc : TxAcc A) :
    Flow db Q spent (made ∪ {o | o.1 = tx.txid}) ids (fun _ => 0)
        (settleTx db b order live txIndex tx issued acc allocation).2 ∧
      (settleTx db b order live txIndex tx issued acc allocation).1.Cached db := by
  -- what is left is burned, the rest is on the sheets of the outputs
  have hflight : issued.unallocated.amount = fun id => sheetsTotal allocation.allocated.toList id +
      amountOf (balancesFromSheet allocation.unallocated) id := by
    funext id
    rw [amountOf_balancesFromSheet, sheetsTotal, sum_toList, ← hsound.sum id, Nat.add_comm]
  have hnoted := h.flow.noteOverflow hQ h.overflow hsound
  rw [hflight] at hnoted
  obtain ⟨hcreated, hcached⟩ := flow_createOutputs hQ (flow_burns hQ hnoted) hlive
    (fun e he => hsound.vouts e.1 (mem_toList_outputs he)) (nodup_toList_outputs _) hmade
    (issuedIo acc issued (balancesFromSheet allocation.unallocated))
  exact ⟨hcreated.touches hQ (touches_afterOutputs b txIndex tx _ order issued _), hcached⟩

lemma flow_indexTx (h : Flow db Q spent made ids (fun _ => 0) ix)
    (hlive : live.Cached db) {entry : RuneTx T A × ℕ} (hspends : ∀ o ∈ entry.1.spends, o ∉ spent)
    (hnodup : entry.1.spends.Nodup) (hmade : ∀ o ∈ made, o.1 ≠ entry.1.txid)
    (hgenesis : genesisRuneId ∈ ids) (hfits : ∀ a, entry.1.artifact = some a → a.Fits)
    (hnew : ∀ a, entry.1.artifact = some a → a.Etches → ⟨b.height, entry.2⟩ ∉ ids) :
    Flow db Q (spent ∪ passed entry.1.inputs.zipIdx) (made ∪ {o | o.1 = entry.1.txid})
        (insert ⟨b.height, entry.2⟩ ids) (fun _ => 0)
        (indexTx db b env order (live, ix) entry).2 ∧
      (indexTx db b env order (live, ix) entry).1.Cached db := by
  have hstart := flow_startTx hQ h env b hgenesis entry.2 entry.1
  have hfound := (LiveOutpoints.cached_hasRuneInput hlive
    (ix.startTx db b env entry.2 entry.1).ephem entry.1.inputs).1
  obtain ⟨hspent, hcached⟩ := carried_unallocated hQ hstart hfound hspends hnodup
  have hartifact : ∀ a, (if entry.1.hasRunestoneCarrier then entry.1.artifact else none) = some a →
      entry.1.artifact = some a := by
    intro a ha
    split_ifs at ha
    exact ha
  have hetched := carried_etch hQ env b hspent entry.2 entry.1
    (fun a ha => hfits a (hartifact a ha)) fun a ha => hnew a (hartifact a ha)
  have hissued := carried_mint hQ b hetched entry.2
    (if entry.1.hasRunestoneCarrier then entry.1.artifact else none)
  have hsound := sound_allocateRunes hissued.overflow
    (fun id => lt_of_le_of_lt (Nat.le_add_left _ _) (hissued.flow.conserved.lt id)) entry.1.outputs
    (if entry.1.hasRunestoneCarrier then entry.1.artifact else none)
  have hids : ids ⊆ insert ⟨b.height, entry.2⟩ ids := Set.subset_insert _ _
  unfold indexTx
  dsimp only
  generalize (if entry.1.hasRunestoneCarrier then entry.1.artifact else none) = artifact
    at hissued hsound ⊢
  split_ifs with hskip hempty
  · exact ⟨hstart.mono Set.subset_union_left Set.subset_union_left hids, hfound⟩
  · exact ⟨(hspent.of_keys_empty hempty.2).mono subset_rfl Set.subset_union_left hids, hcached⟩
  · exact flow_settleTx hQ order b hissued hcached hmade (hsound _) entry.2 _

end Block

end

end BlockRunesIndexer

/-! ## The block -/

/-- A block as the chain and the `ordinals` crate give it, which does not etch under the id of the
genesis rune. -/
structure RuneBlock.Regular {T A H : Type} (b : RuneBlock T A H) : Prop where
  spends : b.SpendsOnce
  fits : ∀ tx ∈ b.txs, ∀ a, tx.artifact = some a → a.Fits
  genesis : b.height = 1 → ∀ tx, b.txs.head? = some tx → ∀ a, tx.artifact = some a → ¬ a.Etches

namespace BlockRunesIndexer
variable {T A H : Type} [LinearOrder T] [LinearOrder A] {db : RuneRows T A}
  {Q : BlockRunesIndexer T A → Prop} {made : Set (T × ℕ)} {ids : Set SchemaRuneId}
  (env : RunesEnv) (order : Essentials.HashOrder) {b : RuneBlock T A H}

lemma flow_new (hconserved : Conserved db fun _ => 0) (hnew : Q new) :
    Flow db Q ∅ {o | db.outpoint o ≠ none} (insert genesisRuneId {id | db.entry id ≠ none})
      (fun _ => 0) new where
  coherent := ⟨fun _ hk => absurd hk not_mem_nil, fun _ => rfl⟩
  tracked := tracked_new db
  conserved := hconserved
  made _ ho := ho
  ids _ hid := .inr hid
  overflow := rfl
  rides := hnew

/-- The ids and the outpoints that have a row after some transactions of a block. -/
def idsAfter (db : RuneRows T A) (b : RuneBlock T A H) (n : ℕ) : Set SchemaRuneId :=
  {id | id = genesisRuneId ∨ db.entry id ≠ none ∨ id.block = b.height ∧ id.tx < n}

/-- See `idsAfter`. -/
def madeAfter (db : RuneRows T A) (done : List (RuneTx T A × ℕ)) : Set (T × ℕ) :=
  {o | db.outpoint o ≠ none ∨ o.1 ∈ done.map fun entry => entry.1.txid}

lemma notMem_idsAfter (hregular : b.Regular)
    (hids : ∀ id, db.entry id ≠ none → id = genesisRuneId ∨ id.block < b.height)
    {done rest : List (RuneTx T A × ℕ)} {entry : RuneTx T A × ℕ}
    (htxs : b.txs.zipIdx = done ++ entry :: rest) {a : Artifact}
    (ha : entry.1.artifact = some a) (hetches : a.Etches) :
    ⟨b.height, entry.2⟩ ∉ idsAfter db b done.length := by
  have hindex := eq_length_of_zipIdx_eq htxs
  have hgenesis : (⟨b.height, entry.2⟩ : SchemaRuneId) ≠ genesisRuneId := by
    intro heq
    have hheight : b.height = 1 := congrArg SchemaRuneId.block heq
    have hzero : entry.2 = 0 := congrArg SchemaRuneId.tx heq
    -- it would be the first transaction of the block
    have hdone : done = [] := length_eq_zero_iff.1 (hindex.symm.trans hzero)
    have hhead : b.txs.head? = some entry.1 := by
      rw [eq_append_of_zipIdx_eq htxs, hdone]
      rfl
    exact hregular.genesis hheight _ hhead a ha hetches
  rintro (heq | hdb | hlater)
  · exact hgenesis heq
  · rcases hids _ hdb with heq | hlt
    · exact hgenesis heq
    · exact lt_irrefl _ hlt
  · have hlt : entry.2 < done.length := hlater.2
    omega

variable (hQ : FlowRule db Q) (hconserved : Conserved db fun _ => 0) (hnew : Q new) (hregular : b.Regular)
  (hnodup : b.txids.Nodup) (hmade : ∀ o, db.outpoint o ≠ none → o.1 ∉ b.txids)
  (hids : ∀ id, db.entry id ≠ none → id = genesisRuneId ∨ id.block < b.height)
  (live : Option (Finset (T × ℕ)))
include hQ hconserved hnew hregular hnodup hmade hids

/-- The transactions of a regular block lose no unit. -/
theorem flow_indexTxs : Flow db Q (spentBy b.txs.zipIdx) (madeAfter db b.txs.zipIdx) (idsAfter db b b.txs.length)
      (fun _ => 0) (indexTxs db b env order ⟨live, ∅⟩).2 := by
  have hloop := foldl_invariant (f := indexTx db b env order) (l := b.txs.zipIdx)
    (s := (⟨live, ∅⟩, new)) (P := fun done (st : LiveOutpoints T A × BlockRunesIndexer T A) =>
      Flow db Q (spentBy done) (madeAfter db done) (idsAfter db b done.length) (fun _ => 0) st.2 ∧
        st.1.Cached db) ?_ ?_
  · have hflow := hloop.1
    rwa [length_zipIdx] at hflow
  · refine ⟨(flow_new hconserved hnew).mono (Set.empty_subset _) (fun _ => .inl) ?_, ?_⟩
    · rintro id (heq | hid)
      · exact .inl heq
      · exact .inr (.inl hid)
    · intro o row hrow
      exact absurd (show none = some row from hrow) (by simp)
  · rintro done entry rest ⟨live, ix⟩ htxs ⟨hflow, hlive⟩
    have hsplit := eq_append_of_zipIdx_eq htxs
    obtain ⟨hspends, hinputs⟩ := spendsOnce_turn hregular.spends htxs
    have htx : entry.1 ∈ b.txs := by rw [hsplit]; simp
    have hfresh : ∀ o ∈ madeAfter db done, o.1 ≠ entry.1.txid := by
      rintro o (hdb | hdone) heq
      · exact hmade o hdb (by rw [heq]; exact List.mem_map_of_mem htx)
      · rw [RuneBlock.txids, hsplit, map_append, List.map_map] at hnodup
        exact disjoint_of_nodup_append hnodup hdone (by rw [heq]; simp)
    obtain ⟨hstep, hcached⟩ := flow_indexTx hQ env order b hflow hlive hspends hinputs hfresh (.inl rfl)
      (hregular.fits _ htx) fun a ha hetches => notMem_idsAfter hregular hids htxs ha hetches
    refine ⟨?_, hcached⟩
    rw [spentBy_snoc]
    refine hstep.mono subset_rfl ?_ ?_
    · rintro o ((hdb | hdone) | hown)
      · exact .inl hdb
      · exact .inr (by rw [map_append]; exact mem_append_left _ hdone)
      · exact .inr (by rw [map_append]; exact mem_append_right _ (by simpa using hown))
    · have hindex := eq_length_of_zipIdx_eq htxs
      rw [length_append, length_singleton]
      rintro id (rfl | heq | hdb | hlater)
      · exact .inr (.inr ⟨rfl, by dsimp only; omega⟩)
      · exact .inl heq
      · exact .inr (.inl hdb)
      · exact .inr (.inr ⟨hlater.1, by omega⟩)

lemma flow_collectBlock :
    Flow db Q (spentBy b.txs.zipIdx) (madeAfter db b.txs.zipIdx) (idsAfter db b b.txs.length)
      (fun _ => 0) (collectBlock env order db live b).2 := by
  rw [collectBlock_snd]
  exact (flow_indexTxs env order hQ hconserved hnew hregular hnodup hmade hids live).touches hQ
    (touches_flush b env _)

end BlockRunesIndexer

end Espo.Runes
