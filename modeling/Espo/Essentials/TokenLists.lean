import Espo.Essentials.Balances
import Espo.Lib.IndexedRows
import Espo.Lib.KeyedStates

/-!
# Balances with a list of tokens

An address, or an alkane that holds tokens, has a row for each token and a list of tokens, from which
balances are read. The sections of `bulk_update_balances_for_block_with_factory_hints` for both collect the
deltas of a block by token, write the rows, and keep the list: new tokens are put at its end, unless a token
is zero in it or becomes zero; then the list is written anew. Which tokens are zero is read from the rows
before the block.
-/

namespace Espo.Essentials
open Lib

/-! ## Deltas of a block -/

/-- The deltas of tokens. -/
abbrev TokenDeltas := AList fun _ : SchemaAlkaneId => SignedU128

section
variable {K : Type} [DecidableEq K]

/-- `*slot += delta`: a slot that becomes zero is removed, and the entry of the key stays. -/
def addTokenDelta (deltas : AList fun _ : K => TokenDeltas) (key : K) (token : SchemaAlkaneId)
    (delta : SignedU128) : AList fun _ : K => TokenDeltas :=
  let entry := (deltas.lookup key).getD ∅
  let slot := ((entry.lookup token).getD .zero).add delta
  deltas.insert key (if slot.isZero then entry.erase token else entry.insert token slot)

end

/-! ## Rows and amounts -/

/-- Amounts by token in memory. -/
abbrev TokenAmounts := AList fun _ : SchemaAlkaneId => ℕ

/-- The amount in a row; no row counts as zero. -/
def tokenAmount (rows : Table SchemaAlkaneId ℕ) (token : SchemaAlkaneId) : ℕ := (rows.get token).getD 0

/-- The amounts of listed tokens, without those that are zero. -/
def listedAmounts (rows : Table SchemaAlkaneId ℕ) (tokens : List SchemaAlkaneId) : TokenAmounts :=
  tokens.foldl (fun agg token =>
    match rows.get token with
    | none => agg
    | some amount => if amount = 0 then agg else agg.insert token amount) ∅

/-- The change of a row. -/
structure TokenChange where
  token : SchemaAlkaneId
  current : ℕ
  next : ℕ

/-- The rows with some changes. -/
def putChanges (rows : Table SchemaAlkaneId ℕ) (changes : List TokenChange) : Table SchemaAlkaneId ℕ :=
  rows.putAll (changes.map fun c => (c.token, c.next))

/-- `added_tokens`. -/
def addedTokens (changes : List TokenChange) : List SchemaAlkaneId :=
  (changes.filter fun c => c.current = 0 ∧ 0 < c.next).map TokenChange.token

/-- `removed_tokens`. -/
def removedTokens (changes : List TokenChange) : ℕ :=
  changes.countP fun c => 0 < c.current ∧ c.next = 0

/-- The list after a block. `rebuilt` are the tokens of a list that is written anew, given those of the
old list that were not zero. -/
def updateTokenList (rows : Table SchemaAlkaneId ℕ) (list : IndexedRows SchemaAlkaneId)
    (changes : List TokenChange) (rebuilt : List SchemaAlkaneId → List SchemaAlkaneId) :
    IndexedRows SchemaAlkaneId :=
  let existing := list.read
  let existingNonzero := existing.filter fun token => tokenAmount rows token ≠ 0
  let hadZeroInExistingList := existing.any fun token => tokenAmount rows token = 0
  if !hadZeroInExistingList ∧ removedTokens changes = 0 then
    list.append ((addedTokens changes).insertionSort (· ≤ ·))
  else list.rebuild ((rebuilt existingNonzero).insertionSort (· ≤ ·))

/-! ## What they do -/

section
variable {rows : Table SchemaAlkaneId ℕ} {token : SchemaAlkaneId}

lemma lookup_listedAmounts (rows : Table SchemaAlkaneId ℕ) (tokens : List SchemaAlkaneId)
    (token : SchemaAlkaneId) (amount : ℕ) :
    (listedAmounts rows tokens).lookup token = some amount ↔
      token ∈ tokens ∧ rows.get token = some amount ∧ amount ≠ 0 := by
  refine foldl_invariant (P := fun done (agg : TokenAmounts) => agg.lookup token = some amount ↔
    token ∈ done ∧ rows.get token = some amount ∧ amount ≠ 0) (by simp) ?_
  intro done a _ agg _ ih
  have hmem : token ∈ done ++ [a] ↔ token ∈ done ∨ token = a := by simp
  rw [hmem]
  by_cases ha : token = a
  · subst ha
    cases hrow : rows.get token with
    | none =>
      rw [hrow] at ih
      simpa using ih
    | some n =>
      rw [hrow] at ih
      dsimp only
      split_ifs with hn
      · rw [ih]
        constructor
        · rintro ⟨-, h⟩
          exact ⟨.inr rfl, h⟩
        · rintro ⟨-, hsome, hne⟩
          exact absurd ((Option.some.inj hsome).symm.trans hn) hne
      · rw [AList.lookup_insert]
        constructor
        · intro hsome
          exact ⟨.inr rfl, hsome, Option.some.inj hsome ▸ hn⟩
        · exact fun h => h.2.1
  · simp only [ha, or_false]
    rw [← ih]
    split
    · rfl
    · split_ifs
      · rfl
      · rw [AList.lookup_insert_ne ha]

/-- Changes of different rows, read before the block. -/
structure ChangesOf (rows : Table SchemaAlkaneId ℕ) (changes : List TokenChange) : Prop where
  nodup : (changes.map TokenChange.token).Nodup
  current_eq : ∀ c ∈ changes, c.current = tokenAmount rows c.token

variable {changes : List TokenChange}

lemma tokenAmount_putChanges_of_mem (h : ChangesOf rows changes) {c : TokenChange} (hc : c ∈ changes) :
    tokenAmount (putChanges rows changes) c.token = c.next := by
  obtain ⟨c', hc', heq, hget⟩ := Table.exists_get_putAll_map TokenChange.next
    (List.mem_map_of_mem (f := TokenChange.token) hc)
  -- a token has one change
  obtain rfl : c' = c := List.inj_on_of_nodup_map h.nodup hc' hc heq
  rw [tokenAmount, putChanges, hget]
  rfl

lemma tokenAmount_putChanges_of_notMem (h : token ∉ changes.map TokenChange.token) :
    tokenAmount (putChanges rows changes) token = tokenAmount rows token := by
  rw [tokenAmount, putChanges, Table.get_putAll_map_of_notMem _ _ h, tokenAmount]

section
variable (h : ChangesOf rows changes)
include h

lemma mem_addedTokens :
    token ∈ addedTokens changes ↔
      tokenAmount rows token = 0 ∧ 0 < tokenAmount (putChanges rows changes) token := by
  rw [addedTokens, List.mem_map]
  constructor
  · rintro ⟨c, hc, rfl⟩
    obtain ⟨hmem, hcond⟩ := List.mem_filter.1 hc
    rw [decide_eq_true_eq, h.current_eq c hmem] at hcond
    rw [tokenAmount_putChanges_of_mem h hmem]
    exact hcond
  · rintro ⟨hzero, hpos⟩
    have hmem : token ∈ changes.map TokenChange.token := by
      by_contra hnot
      rw [tokenAmount_putChanges_of_notMem hnot] at hpos
      omega
    obtain ⟨c, hc, rfl⟩ := List.mem_map.1 hmem
    rw [tokenAmount_putChanges_of_mem h hc] at hpos
    refine ⟨c, List.mem_filter.2 ⟨hc, ?_⟩, rfl⟩
    rw [decide_eq_true_eq, h.current_eq c hc]
    exact ⟨hzero, hpos⟩

lemma nodup_append_addedTokens {l : List SchemaAlkaneId} (hl : l.Nodup)
    (hnonzero : ∀ token ∈ l, tokenAmount rows token ≠ 0) :
    (l ++ (addedTokens changes).insertionSort (· ≤ ·)).Nodup := by
  have hadded : (addedTokens changes).Nodup := h.nodup.sublist (List.filter_sublist.map _)
  rw [List.nodup_append]
  refine ⟨hl, (List.perm_insertionSort _ _).nodup_iff.2 hadded, ?_⟩
  rintro token hmem _ hnew rfl
  exact hnonzero token hmem ((mem_addedTokens h).1 ((List.mem_insertionSort _).1 hnew)).1

lemma removedTokens_eq_zero_iff :
    removedTokens changes = 0 ↔
      ∀ token, 0 < tokenAmount rows token → 0 < tokenAmount (putChanges rows changes) token := by
  rw [removedTokens, List.countP_eq_zero]
  constructor
  · intro hnone token hpos
    by_cases hmem : token ∈ changes.map TokenChange.token
    · obtain ⟨c, hc, rfl⟩ := List.mem_map.1 hmem
      have hcond := hnone c hc
      rw [decide_eq_true_eq, h.current_eq c hc] at hcond
      rw [tokenAmount_putChanges_of_mem h hc]
      omega
    · rwa [tokenAmount_putChanges_of_notMem hmem]
  · intro hstay c hc
    rw [decide_eq_true_eq, h.current_eq c hc]
    rintro ⟨hpos, hzero⟩
    have hnext := hstay c.token hpos
    rw [tokenAmount_putChanges_of_mem h hc] at hnext
    omega

end

lemma holds_updateTokenList (rows : Table SchemaAlkaneId ℕ) (changes : List TokenChange)
    {list : IndexedRows SchemaAlkaneId} {l : List SchemaAlkaneId} (h : list.Holds l)
    (rebuilt : List SchemaAlkaneId → List SchemaAlkaneId) :
    ((∀ token ∈ l, tokenAmount rows token ≠ 0) ∧ removedTokens changes = 0 ∧
      (updateTokenList rows list changes rebuilt).Holds
        (l ++ (addedTokens changes).insertionSort (· ≤ ·))) ∨
    (updateTokenList rows list changes rebuilt).Holds
      ((rebuilt (l.filter fun token => tokenAmount rows token ≠ 0)).insertionSort (· ≤ ·)) := by
  unfold updateTokenList
  rw [h.read_eq]
  dsimp only
  split_ifs with hcond
  · obtain ⟨hzero, hremoved⟩ := hcond
    refine .inl ⟨?_, hremoved, h.append _⟩
    simpa using hzero
  · exact .inr (h.rebuild _)

end
end Espo.Essentials
