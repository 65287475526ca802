import Espo.Essentials.TokenLists
import Espo.Lib.Versions

/-!
# Balances of alkanes, now and by height

The sections of `bulk_update_balances_for_block_with_factory_hints` that keep the tokens which alkanes hold,
and `get_alkane_balances_at_or_before`, which reads them as of a height. All keys carry the owner, so the
rows are kept by owner here.

The rows by height are complete: for every token they give the amount at the end of every block
(`OwnerInv`). The list of tokens has those that are not zero now (`ListExact`). So the read as of a height is
exact if and only if no token held then is gone now.
-/

namespace Espo.Essentials
open Lib List Option

/-! ## Rows of an owner -/

/-- The rows of an owner. -/
structure AlkaneTokens where
  /-- `alkane_balance_key`. -/
  rows : Table SchemaAlkaneId ℕ
  /-- `alkane_balance_list_len_key` and `alkane_balance_list_idx_key`. -/
  list : IndexedRows SchemaAlkaneId
  /-- `alkane_balance_by_height_key`, with its list of heights, by token. -/
  byHeight : Table SchemaAlkaneId (Versions ℕ)

namespace AlkaneTokens

/-- No rows. -/
def empty : AlkaneTokens := ⟨∅, .empty, ∅⟩

/-- The rows by height of a token. -/
def history (st : AlkaneTokens) (token : SchemaAlkaneId) : Versions ℕ :=
  Table.stateAt .empty st.byHeight token

/-- One delta on the amounts of an owner; `none` is the panic. -/
def applyDelta (check : Bool) (amounts : TokenAmounts) (e : SchemaAlkaneId × SignedU128) :
    Option TokenAmounts :=
  if e.2.amount = 0 then some amounts
  else
    (applySignedBalanceDelta check ((amounts.lookup e.1).getD 0) e.2).map fun updated =>
      if updated = 0 then amounts.erase e.1 else amounts.insert e.1 updated

/-- The entry of an owner in `alkane_balances_rows`: the listed amounts with the deltas applied. -/
def finalAmounts (check : Bool) (entries : List (SchemaAlkaneId × SignedU128)) (st : AlkaneTokens) :
    Option TokenAmounts :=
  entries.foldlM (applyDelta check) (listedAmounts st.rows st.list.read)

/-- The changes of the rows. -/
def changes (st : AlkaneTokens) (final : TokenAmounts) (changedTokens : List SchemaAlkaneId) :
    List TokenChange :=
  changedTokens.map fun token => ⟨token, tokenAmount st.rows token, (final.lookup token).getD 0⟩

/-- The rows by height with the changes of a block. -/
def recordChanges (height : ℕ) (byHeight : Table SchemaAlkaneId (Versions ℕ)) (changes : List TokenChange) :
    Table SchemaAlkaneId (Versions ℕ) :=
  changes.foldl (fun byHeight c =>
    byHeight.put c.token ((Table.stateAt .empty byHeight c.token).record height c.next)) byHeight

/-- The update of an owner in a block. -/
def applyDeltas (check : Bool) (height : ℕ) (entries : List (SchemaAlkaneId × SignedU128))
    (st : AlkaneTokens) : Option AlkaneTokens :=
  (st.finalAmounts check entries).map fun final =>
    let changes := st.changes final (entries.map Prod.fst)
    { rows := putChanges st.rows changes
      list :=
        if changes.isEmpty then st.list
        else updateTokenList st.rows st.list changes fun _ => final.keys
      byHeight := recordChanges height st.byHeight changes }

end AlkaneTokens

/-! ## Blocks -/

/-- A change of what an alkane holds. -/
structure AlkaneChange where
  owner : SchemaAlkaneId
  token : SchemaAlkaneId
  delta : SignedU128

/-- What a block does to alkanes. -/
structure AlkaneBlock where
  /-- `check_negative_balances`. -/
  check : Bool
  changes : List AlkaneChange
  /-- The order of hash maps. -/
  hash : HashOrder

/-- The rows of all owners. -/
abbrev AlkaneStore := Table SchemaAlkaneId AlkaneTokens

variable (store : AlkaneStore) (owner : SchemaAlkaneId)

/-- The rows of an owner. -/
def AlkaneStore.at : AlkaneTokens :=
  Table.stateAt .empty store owner

/-- `alkane_balance_delta`. What an alkane holds of itself is not kept. -/
def alkaneBalanceDelta (changes : List AlkaneChange) : AList fun _ : SchemaAlkaneId => TokenDeltas :=
  changes.foldl (fun deltas c =>
    if c.delta.isZero then deltas
    else if c.token = c.owner then deltas
    else addTokenDelta deltas c.owner c.token c.delta) ∅

/-- The deltas of an owner, by token as in a `BTreeMap`. -/
def sortedDeltas (deltas : TokenDeltas) : List (SchemaAlkaneId × SignedU128) :=
  (deltas.entries.map fun e => (e.1, e.2)).insertionSort fun a b => a.1 ≤ b.1

/-- A block. The rows of an owner are read before any is written; owners do not share rows. -/
def AlkaneStore.indexBlock (height : ℕ) (b : AlkaneBlock) : Option AlkaneStore :=
  Table.updateStates .empty Sigma.fst (fun e st => st.applyDeltas b.check height (sortedDeltas e.2)) store
    (b.hash.run (alkaneBalanceDelta b.changes).entries)

/-- The blocks from a height on; `none` is a run that panics. -/
def runAlkanes (start : ℕ) (blocks : List AlkaneBlock) : Option AlkaneStore :=
  (blocks.zipIdx start).foldlM (fun store b => store.indexBlock b.2 b.1) ∅

/-- One token of `get_alkane_balances_at_or_before`: the amounts and the height that was resolved. -/
def readTokenAtOrBefore (st : AlkaneTokens) (height : ℕ) (acc : TokenAmounts × Option ℕ)
    (token : SchemaAlkaneId) : TokenAmounts × Option ℕ :=
  match (st.history token).found height with
  | none => acc
  | some foundHeight =>
    let amount := ((st.history token).values.get foundHeight).getD 0
    (if 0 < amount then acc.1.insert token amount else acc.1,
      some ((acc.2.map (max · foundHeight)).getD foundHeight))

/-- `get_alkane_balances_at_or_before`. -/
def getAlkaneBalancesAtOrBefore (height : ℕ) : TokenAmounts × Option ℕ :=
  let st := store.at owner
  st.list.read.foldl (readTokenAtOrBefore st height) (∅, none)

/-! ## One owner -/

namespace AlkaneTokens

/-- The list has the tokens that are not zero, each once. -/
def ListExact (st : AlkaneTokens) : Prop :=
  ∃ l, st.list.Holds l ∧ l.Nodup ∧ ∀ token, token ∈ l ↔ 0 < tokenAmount st.rows token

section
variable {st st' : AlkaneTokens} {check : Bool} {height : ℕ} {entries : List (SchemaAlkaneId × SignedU128)}
  {final : TokenAmounts}

lemma ListExact.lookup_listed (h : st.ListExact) (token : SchemaAlkaneId) :
    ((listedAmounts st.rows st.list.read).lookup token).getD 0 = tokenAmount st.rows token := by
  obtain ⟨l, hl, -, hexact⟩ := h
  have hlookup := lookup_listedAmounts st.rows st.list.read token
  rw [hl.read_eq] at hlookup ⊢
  rcases Nat.eq_zero_or_pos (tokenAmount st.rows token) with hzero | hpos
  · rw [hzero]
    cases hrow : (listedAmounts st.rows l).lookup token with
    | none => rfl
    | some amount =>
      obtain ⟨-, hget, hne⟩ := (hlookup amount).1 hrow
      rw [tokenAmount, hget] at hzero
      exact absurd hzero hne
  · have hmem := (hexact token).2 hpos
    rw [tokenAmount] at hpos ⊢
    cases hrow : st.rows.get token with
    | none =>
      rw [hrow] at hpos
      exact absurd hpos (Nat.lt_irrefl 0)
    | some amount =>
      rw [hrow] at hpos
      rw [(hlookup amount).2 ⟨hmem, hrow, Nat.ne_of_gt hpos⟩]

/-- A delta takes an amount to another one. -/
def DeltaApplied (check : Bool) (current : ℕ) (delta : SignedU128) (next : ℕ) : Prop :=
  delta.amount = 0 ∧ next = current ∨ applySignedBalanceDelta check current delta = some next

lemma DeltaApplied.eq_add {current next : ℕ} {delta : SignedU128} (h : DeltaApplied check current delta next)
    (hpos : 0 ≤ current + delta.toInt) (hmax : current + delta.toInt ≤ u128Max) :
    (next : ℤ) = current + delta.toInt := by
  rcases h with ⟨hzero, rfl⟩ | happly
  · have hnone : delta.toInt = 0 := by
      rw [← SignedU128.isZero_iff, SignedU128.isZero, hzero]
      rfl
    omega
  · obtain ⟨exact, hexact, heq⟩ := applySignedBalanceDelta_eq check hpos hmax
    rw [happly] at hexact
    rw [Option.some.inj hexact, heq]

lemma DeltaApplied.le_u128Max {current next : ℕ} {delta : SignedU128}
    (h : DeltaApplied check current delta next) (hcurrent : current ≤ u128Max) : next ≤ u128Max := by
  rcases h with ⟨-, rfl⟩ | happly
  · exact hcurrent
  · unfold applySignedBalanceDelta at happly
    split_ifs at happly
    · have hnext := Option.some.inj happly
      omega
    · exact Option.some.inj happly ▸ min_le_right _ _

lemma applyDelta_eq_some {amounts amounts' : TokenAmounts} {e : SchemaAlkaneId × SignedU128}
    (h : applyDelta check amounts e = some amounts') :
    (∀ token, token ≠ e.1 → amounts'.lookup token = amounts.lookup token) ∧
    (amounts' = amounts ∨ ∀ amount, amounts'.lookup e.1 = some amount → amount ≠ 0) ∧
    DeltaApplied check ((amounts.lookup e.1).getD 0) e.2 ((amounts'.lookup e.1).getD 0) := by
  unfold applyDelta at h
  split_ifs at h with hzero
  · cases h
    exact ⟨fun _ _ => rfl, .inl rfl, .inl ⟨hzero, rfl⟩⟩
  · obtain ⟨updated, hupdated, rfl⟩ := map_eq_some_iff.1 h
    split_ifs with hnone
    · refine ⟨fun token hne => AList.lookup_erase_ne hne, .inr ?_, .inr ?_⟩
      · intro amount hlookup
        simp at hlookup
      · rw [hupdated, hnone]
        simp
    · refine ⟨fun token hne => AList.lookup_insert_ne hne, .inr ?_, .inr ?_⟩
      · intro amount hlookup
        rw [AList.lookup_insert] at hlookup
        exact Option.some.inj hlookup ▸ hnone
      · rw [hupdated, AList.lookup_insert, getD_some]

lemma stateAt_recordChanges {changes : List TokenChange} (hnodup : (changes.map TokenChange.token).Nodup)
    (height : ℕ) (byHeight : Table SchemaAlkaneId (Versions ℕ)) (token : SchemaAlkaneId) :
    (∀ c ∈ changes, c.token = token → (recordChanges height byHeight changes).stateAt .empty token
      = (byHeight.stateAt .empty token).record height c.next) ∧
    (token ∉ changes.map TokenChange.token →
      (recordChanges height byHeight changes).stateAt .empty token = byHeight.stateAt .empty token) := by
  refine foldl_invariant (P := fun done (t : Table SchemaAlkaneId (Versions ℕ)) =>
    (∀ c ∈ done, c.token = token →
      t.stateAt .empty token = (byHeight.stateAt .empty token).record height c.next) ∧
    (token ∉ done.map TokenChange.token → t.stateAt .empty token = byHeight.stateAt .empty token))
    ⟨fun _ h => absurd h not_mem_nil, fun _ => rfl⟩ ?_
  rintro done c rest t hsplit ⟨hin, hout⟩
  have hfresh : c.token ∉ done.map TokenChange.token := notMem_map_of_nodup hnodup hsplit
  rw [Table.stateAt_put]
  constructor
  · intro c' hc' htoken
    rcases mem_append.1 hc' with hdone | hlast
    · have hne : token ≠ c.token := by
        rintro rfl
        exact hfresh (List.mem_map.2 ⟨c', hdone, htoken⟩)
      rw [if_neg hne]
      exact hin c' hdone htoken
    · obtain rfl := mem_singleton.1 hlast
      subst htoken
      rw [if_pos rfl, hout hfresh]
  · intro hnot
    rw [map_append, mem_append, not_or, map_singleton, mem_singleton] at hnot
    rw [if_neg hnot.2]
    exact hout hnot.1

/-- The amounts after some deltas: tokens without a delta stay, none is zero, and those with a delta have it
applied. -/
structure AmountsAfter (check : Bool) (before : TokenAmounts) (done : List (SchemaAlkaneId × SignedU128))
    (amounts : TokenAmounts) : Prop where
  same : ∀ token, token ∉ done.map Prod.fst → amounts.lookup token = before.lookup token
  ne_zero : ∀ token amount, amounts.lookup token = some amount → amount ≠ 0
  applied : ∀ e ∈ done, DeltaApplied check ((before.lookup e.1).getD 0) e.2 ((amounts.lookup e.1).getD 0)

lemma map_token_changes (st : AlkaneTokens) (final : TokenAmounts) (tokens : List SchemaAlkaneId) :
    (st.changes final tokens).map TokenChange.token = tokens := by
  rw [AlkaneTokens.changes, List.map_map]
  exact List.map_id _

section
variable (hnodup : (entries.map Prod.fst).Nodup)
include hnodup

lemma finalAmounts_spec (h : st.finalAmounts check entries = some final) :
    AmountsAfter check (listedAmounts st.rows st.list.read) entries final := by
  refine foldlM_invariant (P := AmountsAfter check (listedAmounts st.rows st.list.read)) h ?_ ?_
  · refine ⟨fun _ _ => rfl, fun token amount hlookup => ?_, by simp⟩
    exact ((lookup_listedAmounts _ _ token amount).1 hlookup).2.2
  · rintro done e rest amounts amounts' hsplit hstep ⟨hsame, hne, hdone⟩
    obtain ⟨hothers, hnonzero, hvalue⟩ := applyDelta_eq_some hstep
    have hfresh : e.1 ∉ done.map Prod.fst := notMem_map_of_nodup hnodup hsplit
    refine ⟨fun token hnot => ?_, fun token amount hlookup => ?_, fun e' he' => ?_⟩
    · rw [map_append, mem_append, not_or] at hnot
      rw [hothers token fun heq => hnot.2 (heq ▸ mem_cons_self), hsame token hnot.1]
    · by_cases heq : token = e.1
      · subst heq
        rcases hnonzero with rfl | hnonzero
        · exact hne _ amount hlookup
        · exact hnonzero amount hlookup
      · rw [hothers token heq] at hlookup
        exact hne token amount hlookup
    · rcases mem_append.1 he' with hmem | hlast
      · have hneq : e'.1 ≠ e.1 := fun heq => hfresh (heq ▸ List.mem_map.2 ⟨e', hmem, rfl⟩)
        rw [hothers _ hneq]
        exact hdone e' hmem
      · obtain rfl := mem_singleton.1 hlast
        rw [← hsame _ hfresh]
        exact hvalue

lemma changesOf_changes (st : AlkaneTokens) (final : TokenAmounts) :
    ChangesOf st.rows (st.changes final (entries.map Prod.fst)) := by
  constructor
  · rwa [map_token_changes]
  · intro c hc
    obtain ⟨token, -, rfl⟩ := List.mem_map.1 hc
    rfl

lemma ListExact.lookup_final (h : st.ListExact) (hfinal : st.finalAmounts check entries = some final)
    (token : SchemaAlkaneId) :
    (final.lookup token).getD 0
      = tokenAmount (putChanges st.rows (st.changes final (entries.map Prod.fst))) token := by
  by_cases hmem : token ∈ entries.map Prod.fst
  · have hc : (⟨token, tokenAmount st.rows token, (final.lookup token).getD 0⟩ : TokenChange)
        ∈ st.changes final (entries.map Prod.fst) := List.mem_map.2 ⟨token, hmem, rfl⟩
    exact (tokenAmount_putChanges_of_mem (changesOf_changes hnodup st final) hc).symm
  · rw [tokenAmount_putChanges_of_notMem, (finalAmounts_spec hnodup hfinal).same token hmem, h.lookup_listed]
    rwa [map_token_changes]

variable (happly : st.applyDeltas check height entries = some st')
include happly

lemma ListExact.applyDeltas (h : st.ListExact) : st'.ListExact := by
  obtain ⟨final, hfinal, rfl⟩ := map_eq_some_iff.1 happly
  have hof := changesOf_changes hnodup st final
  have hlookup := h.lookup_final hnodup hfinal
  obtain ⟨l, hl, hl_nodup, hexact⟩ := h
  dsimp only
  split_ifs with hempty
  · refine ⟨l, hl, hl_nodup, fun token => ?_⟩
    rw [List.isEmpty_iff.1 hempty]
    exact hexact token
  · rcases holds_updateTokenList st.rows (st.changes final (entries.map Prod.fst)) hl
      (fun _ => final.keys) with
      ⟨hnonzero, hremoved, happend⟩ | hrebuild
    · rw [removedTokens_eq_zero_iff hof] at hremoved
      refine ⟨_, happend, ?_, fun token => ?_⟩
      · exact nodup_append_addedTokens hof hl_nodup hnonzero
      · rw [mem_append, mem_insertionSort, mem_addedTokens hof, hexact token]
        constructor
        · rintro (hbefore | hadded)
          · exact hremoved token hbefore
          · exact hadded.2
        · intro hpos
          rcases Nat.eq_zero_or_pos (tokenAmount st.rows token) with hzero | hbefore
          · exact .inr ⟨hzero, hpos⟩
          · exact .inl hbefore
    · refine ⟨_, hrebuild, ?_, fun token => ?_⟩
      · exact (perm_insertionSort _ _).nodup_iff.2 final.keys_nodup
      · rw [mem_insertionSort, ← hlookup token, ← AList.mem_keys]
        cases hrow : final.lookup token with
        | none =>
          have hnot := AList.lookup_eq_none.1 hrow
          simp [hnot]
        | some amount =>
          have hne := (finalAmounts_spec hnodup hfinal).ne_zero token amount hrow
          have hmem : token ∈ final := AList.lookup_isSome.1 (by rw [hrow]; rfl)
          simpa [hmem] using Nat.pos_of_ne_zero hne

lemma history_applyDeltas (token : SchemaAlkaneId) :
    st'.history token = (st.history token).record height (tokenAmount st'.rows token) ∨
    st'.history token = st.history token ∧ tokenAmount st'.rows token = tokenAmount st.rows token := by
  obtain ⟨final, -, rfl⟩ := map_eq_some_iff.1 happly
  have hof := changesOf_changes hnodup st final
  generalize st.changes final (entries.map Prod.fst) = changes at hof ⊢
  obtain ⟨hin, hout⟩ := stateAt_recordChanges hof.nodup height st.byHeight token
  by_cases hmem : token ∈ changes.map TokenChange.token
  · obtain ⟨c, hc, rfl⟩ := List.mem_map.1 hmem
    refine .inl ((hin c hc rfl).trans ?_)
    rw [tokenAmount_putChanges_of_mem hof hc]
    rfl
  · exact .inr ⟨hout hmem, tokenAmount_putChanges_of_notMem hmem⟩

lemma ListExact.tokenAmount_of_mem (h : st.ListExact) {e : SchemaAlkaneId × SignedU128}
    (he : e ∈ entries) : DeltaApplied check (tokenAmount st.rows e.1) e.2 (tokenAmount st'.rows e.1) := by
  obtain ⟨final, hfinal, rfl⟩ := map_eq_some_iff.1 happly
  have hvalue := (finalAmounts_spec hnodup hfinal).applied e he
  rw [h.lookup_listed, h.lookup_final hnodup hfinal] at hvalue
  exact hvalue

omit hnodup in
lemma tokenAmount_of_notMem {token : SchemaAlkaneId} (hnot : token ∉ entries.map Prod.fst) :
    tokenAmount st'.rows token = tokenAmount st.rows token := by
  obtain ⟨final, -, rfl⟩ := map_eq_some_iff.1 happly
  refine tokenAmount_putChanges_of_notMem ?_
  rwa [map_token_changes]

end
end
end AlkaneTokens

/-! ## Runs -/

lemma nodup_sortedDeltas (deltas : TokenDeltas) : ((sortedDeltas deltas).map Prod.fst).Nodup := by
  rw [sortedDeltas, ((perm_insertionSort _ _).map Prod.fst).nodup_iff, List.map_map]
  exact deltas.nodupKeys

lemma AlkaneStore.indexBlock_at {store store' : AlkaneStore} {height : ℕ} {b : AlkaneBlock}
    (h : store.indexBlock height b = some store') (owner : SchemaAlkaneId) :
    (∃ deltas, (alkaneBalanceDelta b.changes).lookup owner = some deltas ∧
      (store.at owner).applyDeltas b.check height (sortedDeltas deltas) = some (store'.at owner)) ∨
    (alkaneBalanceDelta b.changes).lookup owner = none ∧ store'.at owner = store.at owner :=
  Table.updateStates_entries (b.hash.perm _) h owner

lemma runAlkanes_concat (start : ℕ) (blocks : List AlkaneBlock) (b : AlkaneBlock) :
    runAlkanes start (blocks ++ [b])
      = (runAlkanes start blocks).bind fun store => store.indexBlock (start + blocks.length) b := by
  rw [runAlkanes, zipIdx_append, foldlM_append, zipIdx_singleton]
  simp only [foldlM_cons, foldlM_nil, bind_pure]
  rfl

/-- What holds after some blocks. -/
structure OwnerInv (start : ℕ) (blocks : List AlkaneBlock) (store : AlkaneStore) : Prop where
  listExact : ∀ owner, (store.at owner).ListExact
  below : ∀ owner token, ((store.at owner).history token).Below (start + blocks.length)
  /-- The rows by height give the amounts at the end of every block. -/
  valueAt : ∀ height, ∃ past, runAlkanes start (blocks.take (height + 1 - start)) = some past ∧
    ∀ owner token, (((store.at owner).history token).valueAt height).getD 0
      = tokenAmount (past.at owner).rows token

lemma OwnerInv.nil (start : ℕ) : OwnerInv start [] ∅ where
  listExact _ := ⟨[], IndexedRows.holds_empty, nodup_nil,
    fun token => ⟨fun h => absurd h not_mem_nil, fun h => absurd h (Nat.lt_irrefl 0)⟩⟩
  below _ _ := Versions.below_empty _
  valueAt height := by
    rw [take_nil]
    exact ⟨∅, rfl, fun _ _ => rfl⟩

variable {blocks : List AlkaneBlock}

lemma OwnerInv.concat {start : ℕ} {store store' : AlkaneStore} {b : AlkaneBlock}
    (h : OwnerInv start blocks store) (hrun : runAlkanes start blocks = some store)
    (hblock : store.indexBlock (start + blocks.length) b = some store') :
    OwnerInv start (blocks ++ [b]) store' := by
  have hlength : start + (blocks ++ [b]).length = start + blocks.length + 1 := by
    rw [length_append, length_singleton]
    omega
  have hhistory : ∀ owner token,
      (store'.at owner).history token = ((store.at owner).history token).record (start + blocks.length)
        (tokenAmount (store'.at owner).rows token) ∨
      (store'.at owner).history token = (store.at owner).history token ∧
        tokenAmount (store'.at owner).rows token = tokenAmount (store.at owner).rows token := by
    intro owner token
    rcases AlkaneStore.indexBlock_at hblock owner with ⟨deltas, -, happly⟩ | ⟨-, hsame⟩
    · exact AlkaneTokens.history_applyDeltas (nodup_sortedDeltas deltas) happly token
    · rw [hsame]
      exact .inr ⟨rfl, rfl⟩
  refine ⟨fun owner => ?_, fun owner token => ?_, fun height => ?_⟩
  · rcases AlkaneStore.indexBlock_at hblock owner with ⟨deltas, -, happly⟩ | ⟨-, hsame⟩
    · exact (h.listExact owner).applyDeltas (nodup_sortedDeltas deltas) happly
    · rw [hsame]
      exact h.listExact owner
  · rw [hlength]
    rcases hhistory owner token with hrecord | ⟨hsame, -⟩
    · rw [hrecord]
      exact (h.below owner token).record le_rfl _
    · rw [hsame]
      exact (h.below owner token).mono (by omega)
  · rcases Nat.lt_or_ge height (start + blocks.length) with hbefore | hafter
    · obtain ⟨past, hpast, hvalue⟩ := h.valueAt height
      refine ⟨past, ?_, fun owner token => ?_⟩
      · rw [take_append_of_le_length (by omega)]
        exact hpast
      · rw [← hvalue owner token]
        rcases hhistory owner token with hrecord | ⟨hsame, -⟩
        · rw [hrecord, (h.below owner token).valueAt_record, if_neg (by omega)]
        · rw [hsame]
    · refine ⟨store', ?_, fun owner token => ?_⟩
      · rw [take_of_length_le (by omega),
          runAlkanes_concat, hrun]
        exact hblock
      · rcases hhistory owner token with hrecord | ⟨hsame, hamount⟩
        · rw [hrecord, (h.below owner token).valueAt_record, if_pos hafter]
          rfl
        · obtain ⟨past, hpast, hvalue⟩ := h.valueAt height
          rw [take_of_length_le (by omega), hrun] at hpast
          cases hpast
          rw [hsame, hamount]
          exact hvalue owner token

lemma ownerInv_of_run {start : ℕ} {store : AlkaneStore}
    (hrun : runAlkanes start blocks = some store) : OwnerInv start blocks store := by
  induction blocks using List.reverseRecOn generalizing store with
  | nil =>
    cases hrun
    exact OwnerInv.nil start
  | append_singleton blocks b ih =>
    rw [runAlkanes_concat, bind_eq_some_iff] at hrun
    obtain ⟨before, hbefore, hblock⟩ := hrun
    exact (ih hbefore).concat hbefore hblock

/-! ## Reads as of a height -/

lemma readTokenAtOrBefore_fst (st : AlkaneTokens) (height : ℕ) (acc : TokenAmounts × Option ℕ)
    (token : SchemaAlkaneId) :
    (readTokenAtOrBefore st height acc token).1
      = if 0 < ((st.history token).valueAt height).getD 0
        then acc.1.insert token (((st.history token).valueAt height).getD 0) else acc.1 := by
  rw [readTokenAtOrBefore, Versions.valueAt]
  cases (st.history token).found height <;> rfl

/-- A read finds the listed tokens with the amounts that were recorded. -/
theorem lookup_getAlkaneBalancesAtOrBefore (height : ℕ) (token : SchemaAlkaneId) (amount : ℕ) :
    (getAlkaneBalancesAtOrBefore store owner height).1.lookup token = some amount ↔
      token ∈ (store.at owner).list.read ∧
        (((store.at owner).history token).valueAt height).getD 0 = amount ∧ amount ≠ 0 := by
  refine foldl_invariant (P := fun done (acc : TokenAmounts × Option ℕ) =>
    acc.1.lookup token = some amount ↔ token ∈ done ∧
      (((store.at owner).history token).valueAt height).getD 0 = amount ∧ amount ≠ 0) (by simp) ?_
  intro done a _ acc _ ih
  have hmem : token ∈ done ++ [a] ↔ token ∈ done ∨ token = a := by simp
  rw [hmem, readTokenAtOrBefore_fst]
  by_cases ha : token = a
  · subst ha
    simp only [or_true, true_and]
    split_ifs with hpos
    · rw [AList.lookup_insert, Option.some.injEq]
      constructor
      · rintro rfl
        exact ⟨rfl, Nat.ne_of_gt hpos⟩
      · exact fun h => h.1
    · rw [ih]
      constructor
      · exact fun h => h.2
      · omega
  · simp only [ha, or_false]
    rw [← ih]
    split_ifs
    · rw [AList.lookup_insert_ne ha]
    · rfl

/-- After every run of blocks, the balances read as of a height are those at the end of the block of that
height if and only if every token that is not zero there is not zero at the tip. -/
theorem getAlkaneBalancesAtOrBefore_exact_iff {start : ℕ} {blocks : List AlkaneBlock} {tip : AlkaneStore}
    (hrun : runAlkanes start blocks = some tip) (owner : SchemaAlkaneId) (height : ℕ) :
    ∃ past, runAlkanes start (blocks.take (height + 1 - start)) = some past ∧
      ((∀ token amount, (getAlkaneBalancesAtOrBefore tip owner height).1.lookup token = some amount ↔
          tokenAmount (past.at owner).rows token = amount ∧ amount ≠ 0) ↔
        ∀ token, tokenAmount (past.at owner).rows token ≠ 0 → tokenAmount (tip.at owner).rows token ≠ 0) := by
  have hinv := ownerInv_of_run hrun
  obtain ⟨past, hpast, hvalue⟩ := hinv.valueAt height
  obtain ⟨l, hl, -, hlisted⟩ := hinv.listExact owner
  have hread := lookup_getAlkaneBalancesAtOrBefore tip owner height
  simp only [hl.read_eq, hvalue] at hread
  refine ⟨past, hpast, ?_⟩
  constructor
  · intro hexact token hheld
    have hmem := ((hread token _).1 ((hexact token _).2 ⟨rfl, hheld⟩)).1
    exact Nat.ne_of_gt ((hlisted token).1 hmem)
  · intro hkept token amount
    rw [hread]
    constructor
    · exact fun h => h.2
    · rintro ⟨rfl, hne⟩
      exact ⟨(hlisted token).2 (Nat.pos_of_ne_zero (hkept token hne)), rfl, hne⟩

/-- A block with changes of one owner, in the order they are given. -/
def sampleAlkaneBlock (changes : List (SchemaAlkaneId × SignedU128)) : AlkaneBlock where
  check := true
  changes := changes.map fun c => ⟨⟨4, 1⟩, c.1, c.2⟩
  hash := ⟨fun l => l, fun _ => .refl _⟩

/-- A token that is received at height 1 and sent at height 2 is missing from the balances as of height 1. -/
theorem getAlkaneBalancesAtOrBefore_forgets :
    ∃ past tip,
      runAlkanes 1 [sampleAlkaneBlock [(⟨2, 5⟩, .ofCredit 7)]] = some past ∧
      runAlkanes 1 [sampleAlkaneBlock [(⟨2, 5⟩, .ofCredit 7)], sampleAlkaneBlock [(⟨2, 5⟩, .ofDebit 7)]]
        = some tip ∧
      tokenAmount (past.at ⟨4, 1⟩).rows ⟨2, 5⟩ = 7 ∧
      (getAlkaneBalancesAtOrBefore tip ⟨4, 1⟩ 1).1.lookup ⟨2, 5⟩ = none :=
  ⟨(runAlkanes 1 _).get (by decide +kernel), (runAlkanes 1 _).get (by decide +kernel),
    (some_get _).symm, (some_get _).symm, by decide +kernel, by decide +kernel⟩

/-- A token that is received in two blocks is read as of the first. -/
theorem getAlkaneBalancesAtOrBefore_exact_iff_kept :
    ∃ past tip,
      runAlkanes 1 [sampleAlkaneBlock [(⟨2, 5⟩, .ofCredit 7)]] = some past ∧
      runAlkanes 1 [sampleAlkaneBlock [(⟨2, 5⟩, .ofCredit 7)], sampleAlkaneBlock [(⟨2, 5⟩, .ofCredit 2)]]
        = some tip ∧
      ((∀ token amount, (getAlkaneBalancesAtOrBefore tip ⟨4, 1⟩ 1).1.lookup token = some amount ↔
          tokenAmount (past.at ⟨4, 1⟩).rows token = amount ∧ amount ≠ 0) ↔
        ∀ token, tokenAmount (past.at ⟨4, 1⟩).rows token ≠ 0 →
          tokenAmount (tip.at ⟨4, 1⟩).rows token ≠ 0) := by
  have hrun := (some_get (by decide +kernel : (runAlkanes 1
    [sampleAlkaneBlock [(⟨2, 5⟩, .ofCredit 7)], sampleAlkaneBlock [(⟨2, 5⟩, .ofCredit 2)]]).isSome)).symm
  obtain ⟨past, hpast, hiff⟩ := getAlkaneBalancesAtOrBefore_exact_iff hrun ⟨4, 1⟩ 1
  exact ⟨past, _, hpast, hrun, hiff⟩

end Espo.Essentials
