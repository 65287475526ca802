import Espo.Essentials.Balances
import Espo.Lib.IndexedRows

/-!
# Holders of an alkane

The section of `bulk_update_balances_for_block_with_factory_hints` that keeps, for every alkane, a row for
each holder, a list of the holders, their number, the alkane's key in the index ordered by that number, and
the circulating supply. The changes of a block are summed up by alkane and holder (`addHolderDelta`); then
every alkane that was touched is updated once, from the rows before the block.

All keys carry the alkane, so the rows are kept by alkane here: `AlkaneHolders` has those of one. Counts and
list positions are natural numbers.
-/

namespace Espo.Essentials
open Lib List

/-! ## Holder ids -/

/-- `HolderId`. -/
inductive HolderId where
  | address (addr : List (Fin 256))
  | alkane (id : SchemaAlkaneId)
  deriving DecidableEq

/-- An address comes before an alkane. -/
def HolderId.toSum : HolderId → List (Fin 256) ⊕ₗ SchemaAlkaneId
  | address addr => toLex (.inl addr)
  | alkane id => toLex (.inr id)

lemma HolderId.toSum_injective : Function.Injective HolderId.toSum := by
  intro a b h
  cases a with
  | address a =>
    cases b with
    | address b => rw [Sum.inl.inj (toLex.injective h)]
    | alkane b => cases toLex.injective h
  | alkane a =>
    cases b with
    | address b => cases toLex.injective h
    | alkane b => rw [Sum.inr.inj (toLex.injective h)]

instance : LinearOrder HolderId := LinearOrder.lift' HolderId.toSum HolderId.toSum_injective

/-- `holder_id_index_bytes`. -/
def holderIdIndexBytes : HolderId → List (Fin 256)
  | .address addr => 97 :: addr
  | .alkane id => 107 :: encodeAlkaneIdBe id

lemma holderIdIndexBytes_injective : Function.Injective holderIdIndexBytes := by
  intro a b h
  cases a with
  | address a =>
    cases b with
    | address b => rw [(List.cons.inj h).2]
    | alkane b => exact absurd (List.cons.inj h).1 (by decide)
  | alkane a =>
    cases b with
    | address b => exact absurd (List.cons.inj h).1 (by decide)
    | alkane b => rw [encodeAlkaneIdBe_injective (List.cons.inj h).2]

/-! ## Deltas of a block -/

/-- The deltas of the holders of one alkane. -/
abbrev HolderDeltas := AList fun _ : HolderId => SignedU128

/-- A change of a holder's amount. -/
structure HolderChange where
  alkane : SchemaAlkaneId
  holder : HolderId
  delta : SignedU128

variable (deltas : AList fun _ : SchemaAlkaneId => HolderDeltas)

/-- `add_holder_delta`: a slot that becomes zero is removed, and the alkane stays. -/
def addHolderDelta (c : HolderChange) : AList fun _ : SchemaAlkaneId => HolderDeltas :=
  if c.delta.isZero then deltas
  else
    let entry := (deltas.lookup c.alkane).getD ∅
    let slot := ((entry.lookup c.holder).getD .zero).add c.delta
    deltas.insert c.alkane (if slot.isZero then entry.erase c.holder else entry.insert c.holder slot)

/-- `holders_delta`, after all changes of a block. -/
def holdersDelta (changes : List HolderChange) : AList fun _ : SchemaAlkaneId => HolderDeltas :=
  changes.foldl addHolderDelta ∅

/-- The order in which the holders of an alkane are processed. -/
structure HolderOrder where
  run : List (HolderId × SignedU128) → List (HolderId × SignedU128)
  perm : ∀ l, (run l).Perm l

/-- The order of a `BTreeMap`. -/
def holderBTreeOrder : HolderOrder where
  run l := l.insertionSort fun a b => a.1 ≤ b.1
  perm := perm_insertionSort _

/-- The deltas of an alkane as they are processed. -/
def HolderDeltas.inOrder (order : HolderOrder) (deltas : HolderDeltas) : List (HolderId × SignedU128) :=
  order.run (deltas.entries.map fun e => (e.1, e.2))

/-! ## Rows of an alkane -/

/-- The rows of an alkane. -/
structure AlkaneHolders where
  /-- `holder_key`. -/
  rows : Table HolderId ℕ
  /-- `holders_count_key`. -/
  count : Option ℕ
  /-- The counts under which the alkane has an `alkane_holders_ordered_key`. -/
  ordered : Finset ℕ
  /-- `circulating_supply_latest_key`. -/
  supplyLatest : Option ℕ
  /-- `circulating_supply_key`, by height. -/
  supplyAt : Table ℕ ℕ
  /-- `holder_list_len_key` and `holder_list_idx_key`. -/
  list : IndexedRows (List (Fin 256))
  /-- There is a creation record. -/
  created : Bool

namespace AlkaneHolders

/-- No rows. -/
def empty : AlkaneHolders := ⟨∅, none, ∅, none, ∅, .empty, false⟩

/-- The amount in the row of a holder; no row counts as zero. -/
def amount (st : AlkaneHolders) (holder : HolderId) : ℕ := (st.rows.get holder).getD 0

/-- A creation record is written: a new one comes with the key for no holders. -/
def create (st : AlkaneHolders) : AlkaneHolders :=
  if st.created then st else { st with created := true, ordered := insert 0 st.ordered }

end AlkaneHolders

/-- The variables of the pass over the holders of an alkane. -/
structure HolderPass where
  supply : ℕ
  changed : List (HolderId × ℕ)
  added : ℕ
  appended : List HolderId
  removed : ℕ

/-- One holder; `none` is the panic. -/
def HolderPass.step (check : Bool) (rows : Table HolderId ℕ) (pass : HolderPass)
    (e : HolderId × SignedU128) : Option HolderPass :=
  let cur := (rows.get e.1).getD 0
  (applySignedBalanceDelta check cur e.2).map fun next =>
    { supply := if cur ≤ next then saturatingAdd pass.supply (next - cur) else pass.supply - (cur - next)
      changed := pass.changed ++ [(e.1, next)]
      added := if cur = 0 ∧ 0 < next then pass.added + 1 else pass.added
      appended :=
        if (cur = 0 ∧ 0 < next) ∧ rows.get e.1 = none then pass.appended ++ [e.1] else pass.appended
      removed := if 0 < cur ∧ next = 0 then pass.removed + 1 else pass.removed }

/-- The update of an alkane in a block. -/
def AlkaneHolders.applyDeltas (check : Bool) (height : ℕ) (entries : List (HolderId × SignedU128))
    (st : AlkaneHolders) : Option AlkaneHolders :=
  let prevSupply := st.supplyLatest.getD 0
  let prevCount := st.count.getD 0
  (entries.foldlM (HolderPass.step check st.rows) ⟨prevSupply, [], 0, [], 0⟩).map fun pass =>
    let newCount := prevCount + pass.added - pass.removed
    { st with
      rows := st.rows.putAll pass.changed
      count := some newCount
      ordered := insert newCount (if prevCount ≠ newCount then st.ordered.erase prevCount else st.ordered)
      supplyAt := if pass.supply ≠ prevSupply then st.supplyAt.put height pass.supply else st.supplyAt
      supplyLatest := if pass.supply ≠ prevSupply then some pass.supply else st.supplyLatest
      list := st.list.append ((pass.appended.map holderIdIndexBytes).insertionSort (· ≤ ·)) }

/-! ## Blocks -/

/-- What a block does to holders. -/
structure HolderBlock where
  height : ℕ
  /-- `check_negative_balances`. -/
  check : Bool
  /-- The alkanes for which the block has a creation record. -/
  creations : List SchemaAlkaneId
  changes : List HolderChange
  order : HolderOrder
  /-- The order of the `HashMap` of alkanes. -/
  hash : HashOrder

/-- The rows of all alkanes. -/
abbrev HolderStore := Table SchemaAlkaneId AlkaneHolders

variable (store : HolderStore)

/-- The rows of an alkane. -/
def HolderStore.at (alkane : SchemaAlkaneId) : AlkaneHolders :=
  (store.get alkane).getD .empty

/-- The creation records of a block, which are written before. -/
def HolderStore.create (creations : List SchemaAlkaneId) : HolderStore :=
  creations.foldl (fun store alkane => store.put alkane (store.at alkane).create) store

/-- One alkane of `holders_delta`. -/
def HolderStore.applyAlkane (b : HolderBlock) (store : HolderStore)
    (e : Sigma fun _ : SchemaAlkaneId => HolderDeltas) : Option HolderStore :=
  ((store.at e.1).applyDeltas b.check b.height (HolderDeltas.inOrder b.order e.2)).map (store.put e.1)

/-- A block. The rows of an alkane are read before any is written; alkanes do not share rows. -/
def HolderStore.indexBlock (b : HolderBlock) : Option HolderStore :=
  (b.hash.run (holdersDelta b.changes).entries).foldlM (HolderStore.applyAlkane b) (store.create b.creations)

/-! ## The deltas -/

/-- A block touches an alkane when one of its changes is not zero. -/
def Touches (changes : List HolderChange) (alkane : SchemaAlkaneId) : Prop :=
  ∃ c ∈ changes, c.alkane = alkane ∧ c.delta.isZero = false

variable {e : HolderId × SignedU128} {check : Bool} {rows : Table HolderId ℕ}
  {pass pass' : HolderPass} {alkane : SchemaAlkaneId} {done : List (HolderId × SignedU128)}

lemma lookup_addHolderDelta_of_ne {c : HolderChange} (h : alkane ≠ c.alkane) :
    (addHolderDelta deltas c).lookup alkane = deltas.lookup alkane := by
  rw [addHolderDelta]
  split_ifs
  · rfl
  · exact AList.lookup_insert_ne h

variable {changes : List HolderChange} {deltas : HolderDeltas}
  {entries : List (HolderId × SignedU128)}

lemma lookup_holdersDelta_ne_none :
    (holdersDelta changes).lookup alkane ≠ none ↔ Touches changes alkane := by
  refine foldl_invariant
    (P := fun done (deltas : AList fun _ : SchemaAlkaneId => HolderDeltas) =>
      deltas.lookup alkane ≠ none ↔ Touches done alkane) ?_ ?_
  · simp [Touches]
  · intro done c rest deltas _ ih
    have hconcat : Touches (done ++ [c]) alkane ↔
        Touches done alkane ∨ c.alkane = alkane ∧ c.delta.isZero = false := by
      simp only [Touches, mem_append, mem_singleton, or_and_right, exists_or, exists_eq_left]
    rw [hconcat, ← ih]
    by_cases hc : c.alkane = alkane
    · rw [addHolderDelta]
      split_ifs with hzero
      · simp [hzero]
      · simp [hc, hzero]
    · rw [lookup_addHolderDelta_of_ne _ (Ne.symm hc)]
      simp [hc]

lemma isZero_of_lookup_holdersDelta (h : (holdersDelta changes).lookup alkane = some deltas)
    {holder : HolderId} {delta : SignedU128} (hdelta : deltas.lookup holder = some delta) :
    delta.isZero = false := by
  have hall : ∀ alkane deltas, (holdersDelta changes).lookup alkane = some deltas →
      ∀ holder delta, deltas.lookup holder = some delta → delta.isZero = false := by
    refine foldl_invariant
      (P := fun _ (m : AList fun _ : SchemaAlkaneId => HolderDeltas) =>
        ∀ alkane deltas, m.lookup alkane = some deltas →
          ∀ holder delta, deltas.lookup holder = some delta → delta.isZero = false) ?_ ?_
    · intro alkane deltas h
      cases h
    · intro _ c _ m _ ih alkane deltas h holder delta hdelta
      by_cases hc : alkane = c.alkane
      · subst hc
        -- the other slots of the alkane were there before
        have hold : ∀ holder delta, ((m.lookup c.alkane).getD ∅).lookup holder = some delta →
            delta.isZero = false := by
          intro holder delta hd
          cases hm : m.lookup c.alkane with
          | none => simp [hm] at hd
          | some old =>
            rw [hm] at hd
            exact ih _ _ hm holder delta hd
        rw [addHolderDelta] at h
        split_ifs at h with hzero
        · exact ih _ _ h holder delta hdelta
        · rw [AList.lookup_insert] at h
          cases h
          split_ifs at hdelta with hslot
          · by_cases hh : holder = c.holder
            · subst hh
              simp at hdelta
            · rw [AList.lookup_erase_ne hh] at hdelta
              exact hold holder delta hdelta
          · by_cases hh : holder = c.holder
            · subst hh
              rw [AList.lookup_insert] at hdelta
              cases hdelta
              simpa using hslot
            · rw [AList.lookup_insert_ne hh] at hdelta
              exact hold holder delta hdelta
      · rw [lookup_addHolderDelta_of_ne _ hc] at h
        exact ih _ _ h holder delta hdelta
  exact hall alkane deltas h holder delta hdelta

lemma mem_inOrder {order : HolderOrder} (h : e ∈ deltas.inOrder order) :
    deltas.lookup e.1 = some e.2 := by
  have hmem := (order.perm _).mem_iff.1 h
  obtain ⟨s, hs, rfl⟩ := List.mem_map.1 hmem
  exact AList.mem_lookup_iff.2 hs

lemma nodup_inOrder (order : HolderOrder) (deltas : HolderDeltas) :
    ((deltas.inOrder order).map Prod.fst).Nodup := by
  rw [HolderDeltas.inOrder, ((order.perm _).map Prod.fst).nodup_iff, List.map_map]
  exact deltas.nodupKeys

/-! ## The pass over the holders of an alkane -/

/-- The sum of the holder rows. -/
def holderSum (rows : Table HolderId ℕ) : ℕ := rows.rowSum fun _ n => n

/-- The number of holder rows with a positive amount. -/
def positiveRows (rows : Table HolderId ℕ) : ℕ := rows.rowSum fun _ n => if 0 < n then 1 else 0

/-- The rows with the first changes applied. -/
def rowsAfter (check : Bool) (rows : Table HolderId ℕ) (entries : List (HolderId × SignedU128)) :
    Table HolderId ℕ :=
  entries.foldl (fun t e =>
    match applySignedBalanceDelta check ((rows.get e.1).getD 0) e.2 with
    | some next => t.put e.1 next
    | none => t) rows

lemma rowsAfter_concat (done : List (HolderId × SignedU128)) {next : ℕ}
    (h : applySignedBalanceDelta check ((rows.get e.1).getD 0) e.2 = some next) :
    rowsAfter check rows (done ++ [e]) = (rowsAfter check rows done).put e.1 next := by
  rw [rowsAfter, foldl_append, ← rowsAfter, foldl_cons, foldl_nil, h]

lemma HolderPass.step_eq_some (h : pass.step check rows e = some pass') :
    ∃ next, applySignedBalanceDelta check ((rows.get e.1).getD 0) e.2 = some next ∧
      pass'.supply = (if (rows.get e.1).getD 0 ≤ next
        then saturatingAdd pass.supply (next - (rows.get e.1).getD 0)
        else pass.supply - ((rows.get e.1).getD 0 - next)) ∧
      pass'.changed = pass.changed ++ [(e.1, next)] ∧
      pass'.added = (if (rows.get e.1).getD 0 = 0 ∧ 0 < next then pass.added + 1 else pass.added) ∧
      pass'.appended = (if ((rows.get e.1).getD 0 = 0 ∧ 0 < next) ∧ rows.get e.1 = none
        then pass.appended ++ [e.1] else pass.appended) ∧
      pass'.removed = if 0 < (rows.get e.1).getD 0 ∧ next = 0 then pass.removed + 1 else pass.removed := by
  obtain ⟨next, hnext, rfl⟩ := Option.map_eq_some_iff.1 h
  exact ⟨next, hnext, rfl, rfl, rfl, rfl, rfl⟩

/-- The invariant of the pass: `done` are the entries passed. -/
structure PassInv (check : Bool) (rows : Table HolderId ℕ) (done : List (HolderId × SignedU128))
    (pass : HolderPass) : Prop where
  rows_eq : rows.putAll pass.changed = rowsAfter check rows done
  /-- Only holders that were passed have changed. -/
  get_eq : ∀ h, h ∉ done.map Prod.fst → (rowsAfter check rows done).get h = rows.get h
  /-- Those that were passed have their new amounts. -/
  get_done : ∀ e ∈ done, ∃ next, applySignedBalanceDelta check ((rows.get e.1).getD 0) e.2 = some next ∧
    (rowsAfter check rows done).get e.1 = some next
  count_eq : positiveRows (rowsAfter check rows done) + pass.removed = positiveRows rows + pass.added
  nodup : pass.appended.Nodup
  mem_appended : ∀ h, h ∈ pass.appended ↔
    h ∈ done.map Prod.fst ∧ rows.get h = none ∧ 0 < ((rowsAfter check rows done).get h).getD 0

lemma PassInv.step (h : PassInv check rows done pass) (hfresh : e.1 ∉ done.map Prod.fst)
    (hstep : pass.step check rows e = some pass') : PassInv check rows (done ++ [e]) pass' := by
  obtain ⟨next, hnext, -, hchanged, hadded, happended, hremoved⟩ := HolderPass.step_eq_some hstep
  have hrows := rowsAfter_concat done hnext
  have hcur := h.get_eq e.1 hfresh
  have hkeys : ∀ k, k ∈ (done ++ [e]).map Prod.fst ↔ k ∈ done.map Prod.fst ∨ k = e.1 := by
    simp
  have hget : ∀ k, (rowsAfter check rows (done ++ [e])).get k
      = if k = e.1 then some next else (rowsAfter check rows done).get k := by
    intro k
    rw [hrows, Table.get_put]
  refine ⟨?_, ?_, ?_, ?_, ?_, ?_⟩
  · rw [hchanged, Table.putAll_concat, h.rows_eq, hrows]
  · intro k hk
    rw [hkeys, not_or] at hk
    rw [hget, if_neg hk.2, h.get_eq k hk.1]
  · intro e' he'
    rw [hget]
    rcases mem_append.1 he' with hmem | hlast
    · have hne : e'.1 ≠ e.1 := by
        intro heq
        exact hfresh (heq ▸ List.mem_map.2 ⟨e', hmem, rfl⟩)
      rw [if_neg hne]
      exact h.get_done e' hmem
    · obtain rfl := mem_singleton.1 hlast
      exact ⟨next, hnext, if_pos rfl⟩
  · have hput := Table.rowSum_put (fun _ n => if 0 < n then 1 else 0) (rowsAfter check rows done) e.1 next
    have hold : ((rowsAfter check rows done).get e.1).elim 0 (fun n => if 0 < n then 1 else 0)
        = if 0 < (rows.get e.1).getD 0 then 1 else 0 := by
      rw [hcur]
      cases rows.get e.1 <;> rfl
    have hcount := h.count_eq
    rw [hold] at hput
    rw [hrows, hadded, hremoved]
    simp only [positiveRows] at hcount ⊢
    split_ifs at hput ⊢ <;> omega
  · rw [happended]
    split_ifs
    · rw [nodup_append]
      refine ⟨h.nodup, nodup_singleton _, ?_⟩
      rintro a ha b hb rfl
      exact hfresh (mem_singleton.1 hb ▸ ((h.mem_appended a).1 ha).1)
    · exact h.nodup
  · intro k
    have hnew : k ∈ pass'.appended ↔
        k ∈ pass.appended ∨ k = e.1 ∧ ((rows.get e.1).getD 0 = 0 ∧ 0 < next) ∧ rows.get e.1 = none := by
      rw [happended]
      split_ifs with hcond
      · simp [hcond]
      · simp [hcond]
    rw [hnew, h.mem_appended, hkeys, hget]
    by_cases hk : k = e.1
    · subst hk
      simp only [hfresh, false_and, false_or, true_and]
      constructor
      · rintro ⟨⟨-, hpos⟩, hnone⟩
        exact ⟨hnone, hpos⟩
      · rintro ⟨hnone, hpos⟩
        exact ⟨⟨by rw [hnone]; rfl, hpos⟩, hnone⟩
    · simp only [hk, false_and, or_false, if_false]

lemma PassInv.supply_step (h : PassInv check rows done pass) (hfresh : e.1 ∉ done.map Prod.fst)
    (hstep : pass.step check rows e = some pass')
    (hsum : pass.supply = holderSum (rowsAfter check rows done))
    (hfit : holderSum (rowsAfter check rows (done ++ [e])) ≤ u128Max) :
    pass'.supply = holderSum (rowsAfter check rows (done ++ [e])) := by
  obtain ⟨next, hnext, hsupply, -⟩ := HolderPass.step_eq_some hstep
  have hrows := rowsAfter_concat done hnext
  have hput := Table.rowSum_put (fun _ n => n) (rowsAfter check rows done) e.1 next
  have hold : ((rowsAfter check rows done).get e.1).elim 0 (fun n => n) = (rows.get e.1).getD 0 := by
    rw [h.get_eq e.1 hfresh]
    cases rows.get e.1 <;> rfl
  rw [hrows] at hfit
  rw [hsupply, hsum, hrows]
  simp only [holderSum] at hfit hput ⊢
  split_ifs
  · rw [saturatingAdd]
    omega
  · omega

lemma PassInv.init (check : Bool) (rows : Table HolderId ℕ) (supply : ℕ) :
    PassInv check rows [] ⟨supply, [], 0, [], 0⟩ :=
  ⟨rfl, fun _ _ => rfl, by simp, rfl, nodup_nil, by simp⟩

lemma notMem_of_nodup {rest : List (HolderId × SignedU128)}
    (h : ((done ++ e :: rest).map Prod.fst).Nodup) : e.1 ∉ done.map Prod.fst := by
  rw [map_append, nodup_append] at h
  intro hmem
  exact h.2.2 e.1 hmem e.1 mem_cons_self rfl

lemma passInv_of_foldlM (hnodup : (entries.map Prod.fst).Nodup) {supply : ℕ}
    (h : entries.foldlM (HolderPass.step check rows) ⟨supply, [], 0, [], 0⟩ = some pass) :
    PassInv check rows entries pass := by
  refine foldlM_invariant (P := PassInv check rows) h (PassInv.init check rows supply) ?_
  intro done e rest pass pass' hentries hstep hinv
  exact hinv.step (notMem_of_nodup (hentries ▸ hnodup)) hstep

lemma supply_of_foldlM (hnodup : (entries.map Prod.fst).Nodup) {supply : ℕ}
    (h : entries.foldlM (HolderPass.step check rows) ⟨supply, [], 0, [], 0⟩ = some pass)
    (hsupply : supply = holderSum rows)
    (hfit : ∀ done rest, entries = done ++ rest → holderSum (rowsAfter check rows done) ≤ u128Max) :
    pass.supply = holderSum (rowsAfter check rows entries) := by
  have hboth : PassInv check rows entries pass ∧
      pass.supply = holderSum (rowsAfter check rows entries) := by
    refine foldlM_invariant (P := fun done pass => PassInv check rows done pass ∧
      pass.supply = holderSum (rowsAfter check rows done)) h ⟨PassInv.init check rows supply, hsupply⟩ ?_
    rintro done e rest pass pass' hentries hstep ⟨hinv, hsum⟩
    have hfresh := notMem_of_nodup (hentries ▸ hnodup)
    refine ⟨hinv.step hfresh hstep, hinv.supply_step hfresh hstep hsum ?_⟩
    exact hfit (done ++ [e]) rest (by rw [hentries]; simp)
  exact hboth.2

end Espo.Essentials
