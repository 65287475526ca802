import Espo.Essentials.TokenLists
import Espo.Lib.Rewinds

/-!
# Balances of addresses

The section of `bulk_update_balances_for_block_with_factory_hints` that keeps the balances of addresses, and
`get_balance_for_address`, which reads them through the list of tokens.

All keys carry the address, so the rows are kept by address here. A list has every token that is not zero,
and none twice (`ListCovers`); it may also have tokens that became zero, which the read skips.
-/

namespace Espo.Essentials
open Lib List

/-! ## Rows of an address -/

/-- The rows of an address. -/
structure AddressTokens where
  /-- `address_balance_key`. -/
  rows : Table SchemaAlkaneId ℕ
  /-- `address_balance_list_len_key` and `address_balance_list_idx_key`. -/
  list : IndexedRows SchemaAlkaneId

namespace AddressTokens

/-- No rows. -/
def empty : AddressTokens := ⟨∅, .empty⟩

/-- The changes of the rows; `none` is the panic. -/
def changes (check : Bool) (st : AddressTokens) (entries : List (SchemaAlkaneId × SignedU128)) :
    Option (List TokenChange) :=
  entries.mapM fun e =>
    let current := tokenAmount st.rows e.1
    (applySignedBalanceDelta check current e.2).map fun next => ⟨e.1, current, next⟩

/-- The update of an address in a block. -/
def applyDeltas (check : Bool) (entries : List (SchemaAlkaneId × SignedU128)) (st : AddressTokens) :
    Option AddressTokens :=
  (st.changes check entries).map fun changes =>
    { rows := putChanges st.rows changes
      list :=
        -- an address without added and removed tokens is not in `address_membership_touched`
        if addedTokens changes = [] ∧ removedTokens changes = 0 then st.list
        else updateTokenList st.rows st.list changes fun existingNonzero =>
          (existingNonzero ++ addedTokens changes).dedup }

end AddressTokens

/-! ## Blocks -/

section
variable {A : Type}

/-- A change of an address's balance: an input is a debit, an output a credit. -/
structure AddressChange (A : Type) where
  address : A
  token : SchemaAlkaneId
  delta : SignedU128

/-- What a block does to addresses. -/
structure AddressBlock (A : Type) where
  /-- `check_negative_balances`. -/
  check : Bool
  changes : List (AddressChange A)
  /-- The order of hash maps. -/
  hash : HashOrder

/-- The tokens of an address in the order of the map. -/
def AddressBlock.entriesOf (b : AddressBlock A) (deltas : TokenDeltas) : List (SchemaAlkaneId × SignedU128) :=
  b.hash.run (deltas.entries.map fun e => (e.1, e.2))

lemma AddressBlock.nodup_entriesOf (b : AddressBlock A) (deltas : TokenDeltas) :
    ((b.entriesOf deltas).map Prod.fst).Nodup := by
  rw [entriesOf, ((b.hash.perm _).map Prod.fst).nodup_iff, List.map_map]
  exact deltas.nodupKeys

/-- The rows of all addresses. -/
abbrev AddressStore (A : Type) := Table A AddressTokens

variable [DecidableEq A] (store : AddressStore A)

/-- The rows of an address. -/
def AddressStore.at (address : A) : AddressTokens :=
  Table.stateAt .empty store address

/-- `address_balance_delta`. -/
def addressBalanceDelta (changes : List (AddressChange A)) : AList fun _ : A => TokenDeltas :=
  changes.foldl (fun deltas c => addTokenDelta deltas c.address c.token c.delta) ∅

/-- A block. The rows of an address are read before any is written; addresses do not share rows. -/
def AddressStore.indexBlock (b : AddressBlock A) : Option (AddressStore A) :=
  Table.updateStates .empty Sigma.fst (fun e st => st.applyDeltas b.check (b.entriesOf e.2)) store
    (b.hash.run (addressBalanceDelta b.changes).entries)

/-- `get_balance_for_address`. -/
def getBalanceForAddress (address : A) : TokenAmounts :=
  let st := store.at address
  if st.list.length = 0 then ∅ else listedAmounts st.rows st.list.read

end

/-! ## One address -/

/-- The list has the tokens that are not zero, and none twice. -/
def AddressTokens.ListCovers (st : AddressTokens) : Prop :=
  ∃ l, st.list.Holds l ∧ l.Nodup ∧ ∀ token, 0 < tokenAmount st.rows token → token ∈ l

section
variable {st st' : AddressTokens} {check : Bool} {entries : List (SchemaAlkaneId × SignedU128)}

lemma AddressTokens.changesOf_changes (hnodup : (entries.map Prod.fst).Nodup)
    {changes : List TokenChange} (h : st.changes check entries = some changes) :
    ChangesOf st.rows changes := by
  have htokens : changes.map TokenChange.token = entries.map Prod.fst ∧
      ∀ c ∈ changes, c.current = tokenAmount st.rows c.token := by
    clear hnodup
    unfold AddressTokens.changes at h
    induction entries generalizing changes with
    | nil =>
      cases h
      exact ⟨rfl, fun _ hc => absurd hc not_mem_nil⟩
    | cons e entries ih =>
      rw [mapM_cons] at h
      obtain ⟨c, hc, h⟩ := Option.bind_eq_some_iff.1 h
      obtain ⟨rest, hrest, h⟩ := Option.bind_eq_some_iff.1 h
      cases h
      obtain ⟨next, -, rfl⟩ := Option.map_eq_some_iff.1 hc
      obtain ⟨hmap, hcurrent⟩ := ih hrest
      refine ⟨by rw [map_cons, hmap, map_cons], fun c' hc' => ?_⟩
      rcases mem_cons.1 hc' with rfl | hmem
      · rfl
      · exact hcurrent c' hmem
  exact ⟨htokens.1 ▸ hnodup, htokens.2⟩

lemma AddressTokens.ListCovers.applyDeltas (h : st.ListCovers) (hnodup : (entries.map Prod.fst).Nodup)
    (happly : st.applyDeltas check entries = some st') : st'.ListCovers := by
  obtain ⟨changes, hchanges, rfl⟩ := Option.map_eq_some_iff.1 happly
  have hof := changesOf_changes hnodup hchanges
  obtain ⟨l, hl, hl_nodup, hcovers⟩ := h
  -- a token that is positive afterwards was so before, or is added
  have hpositive : ∀ token, 0 < tokenAmount (putChanges st.rows changes) token →
      0 < tokenAmount st.rows token ∨ token ∈ addedTokens changes := by
    intro token hpos
    rcases Nat.eq_zero_or_pos (tokenAmount st.rows token) with hzero | hbefore
    · exact .inr ((mem_addedTokens hof).2 ⟨hzero, hpos⟩)
    · exact .inl hbefore
  split_ifs with huntouched
  · refine ⟨l, hl, hl_nodup, fun token hpos => ?_⟩
    rcases hpositive token hpos with hbefore | hadded
    · exact hcovers token hbefore
    · rw [huntouched.1] at hadded
      exact absurd hadded not_mem_nil
  · rcases holds_updateTokenList st.rows changes hl
      (fun existingNonzero => (existingNonzero ++ addedTokens changes).dedup) with
      ⟨hnonzero, -, happend⟩ | hrebuild
    · refine ⟨_, happend, ?_, fun token hpos => ?_⟩
      · exact nodup_append_addedTokens hof hl_nodup hnonzero
      · rw [mem_append, mem_insertionSort]
        exact (hpositive token hpos).imp_left (hcovers token)
    · refine ⟨_, hrebuild, ?_, fun token hpos => ?_⟩
      · exact (perm_insertionSort _ _).nodup_iff.2 (nodup_dedup _)
      · rw [mem_insertionSort, mem_dedup, mem_append, mem_filter, decide_eq_true_eq]
        refine (hpositive token hpos).imp_left fun hbefore => ?_
        exact ⟨hcovers token hbefore, by omega⟩

end

/-! ## Runs -/

section
variable {A : Type} [DecidableEq A]

/-- A block with what is left of the run, the last block first. -/
abbrev AddressChain (A : Type) := List (AddressBlock A × AddressStore A)

/-- The rows at the end of a chain. -/
def AddressChain.store (chain : AddressChain A) : AddressStore A := Rewinds.current ∅ chain

/-- A run from the empty store; `none` is a run that panics. -/
def runAddresses (events : List (Rewinds.Event (AddressBlock A))) : Option (AddressChain A) :=
  Rewinds.run AddressStore.indexBlock ∅ [] events

lemma AddressStore.indexBlock_at {store store' : AddressStore A} {b : AddressBlock A}
    (h : store.indexBlock b = some store') (address : A) :
    (∃ deltas, (store.at address).applyDeltas b.check (b.entriesOf deltas) = some (store'.at address)) ∨
    store'.at address = store.at address := by
  rcases Table.updateStates_entries (b.hash.perm _) h address with ⟨deltas, -, happly⟩ | ⟨-, hsame⟩
  · exact .inl ⟨deltas, happly⟩
  · exact .inr hsame

lemma listCovers_of_run {events : List (Rewinds.Event (AddressBlock A))} {chain : AddressChain A}
    (hrun : runAddresses events = some chain) (address : A) : (chain.store.at address).ListCovers := by
  have hall : ∀ address, (AddressStore.at (Rewinds.current ∅ chain) address).ListCovers := by
    have hchain : Rewinds.Snapshots AddressStore.indexBlock ∅ (fun _ _ => True) chain :=
      Rewinds.snapshots_of_run Rewinds.Snapshots.nil (Rewinds.meets_of_forall (fun _ _ => trivial) [] events)
        hrun
    refine Rewinds.Snapshots.invariant
      (P := fun store => ∀ address, (AddressStore.at store address).ListCovers) ?_ ?_ hchain
    · intro address
      exact ⟨[], IndexedRows.holds_empty, nodup_nil, fun _ h => absurd h (Nat.lt_irrefl 0)⟩
    · intro _ b store' _ hcovers hblock address
      rcases AddressStore.indexBlock_at hblock address with ⟨deltas, happly⟩ | hsame
      · exact (hcovers address).applyDeltas (b.nodup_entriesOf deltas) happly
      · rw [hsame]
        exact hcovers address
  exact hall address

/-- After every run of blocks and rewinds, the balances that are read for an address are its rows that are
not zero, and no token is listed twice. -/
theorem getBalanceForAddress_exact {events : List (Rewinds.Event (AddressBlock A))}
    {chain : AddressChain A} (hrun : runAddresses events = some chain) (address : A) :
    (chain.store.at address).list.read.Nodup ∧
    ∀ token amount, (getBalanceForAddress chain.store address).lookup token = some amount ↔
      (chain.store.at address).rows.get token = some amount ∧ amount ≠ 0 := by
  obtain ⟨l, hl, hnodup, hcovers⟩ := listCovers_of_run hrun address
  refine ⟨hl.read_eq ▸ hnodup, fun token amount => ?_⟩
  -- a token that is not zero is listed
  have hlisted : (chain.store.at address).rows.get token = some amount → amount ≠ 0 → token ∈ l := by
    intro hrow hne
    refine hcovers token ?_
    rw [tokenAmount, hrow]
    exact Nat.pos_of_ne_zero hne
  unfold getBalanceForAddress
  dsimp only
  split_ifs with hempty
  · rw [hl.length_eq, length_eq_zero_iff] at hempty
    subst hempty
    constructor
    · intro h
      cases h
    · rintro ⟨hrow, hne⟩
      exact absurd (hlisted hrow hne) not_mem_nil
  · rw [lookup_listedAmounts, hl.read_eq]
    constructor
    · exact fun h => h.2
    · exact fun h => ⟨hlisted h.1 h.2, h⟩

end

/-- A block with changes of one address, in the order they are given. -/
def sampleAddressBlock (changes : List (SchemaAlkaneId × SignedU128)) : AddressBlock ℕ where
  check := true
  changes := changes.map fun c => ⟨0, c.1, c.2⟩
  hash := ⟨fun l => l, fun _ => .refl _⟩

/-- A token goes and comes back while another is added; a block is rewound. -/
theorem getBalanceForAddress_exact_returned :
    ∃ chain, runAddresses [.block (sampleAddressBlock [(⟨2, 5⟩, .ofCredit 7)]),
        .block (sampleAddressBlock [(⟨2, 5⟩, .ofDebit 7)]), .block (sampleAddressBlock [(⟨2, 9⟩, .ofCredit 1)]),
        .rewind 1, .block (sampleAddressBlock [(⟨2, 5⟩, .ofCredit 3), (⟨2, 8⟩, .ofCredit 4)])] = some chain ∧
      (getBalanceForAddress chain.store 0).lookup ⟨2, 5⟩ = some 3 := by
  refine ⟨(runAddresses _).get (by decide +kernel), (Option.some_get _).symm, ?_⟩
  refine ((getBalanceForAddress_exact (Option.some_get _).symm 0).2 _ _).2 ?_
  decide +kernel

end Espo.Essentials
