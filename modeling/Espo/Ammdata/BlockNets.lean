import Espo.Ammdata.Reserves

/-!
# What a block adds to a balance

The deltas of the transactions of a block are added up, by owner and token, and the sum is applied to the
row. Here the sum is the number `net`, provided that no partial sum saturates, and the row changes by it.
An owner's own token has no row.
-/

namespace Espo.Ammdata
open Lib Espo.Essentials List

/-! ## Sums -/

/-- The delta of a token. -/
def tokenDelta (deltas : TokenDeltas) (token : SchemaAlkaneId) : ℤ := ((deltas.lookup token).getD .zero).toInt

/-- What some transactions add to a balance. -/
def net (txs : List TxDelta) (owner token : SchemaAlkaneId) : ℤ :=
  (txs.map fun d => tokenDelta (d.of owner) token).sum

@[simp]
lemma net_nil (owner token : SchemaAlkaneId) : net [] owner token = 0 := rfl

lemma net_cons (d : TxDelta) (txs : List TxDelta) (owner token : SchemaAlkaneId) :
    net (d :: txs) owner token = tokenDelta (d.of owner) token + net txs owner token := sum_cons

variable {deltas : TokenDeltas} {token : SchemaAlkaneId}

lemma tokenDelta_of_lookup_eq_none (h : deltas.lookup token = none) :
    tokenDelta deltas token = 0 := by
  rw [tokenDelta, h]
  rfl

lemma tokenDelta_of_lookup_eq_some {delta : SignedU128} (h : deltas.lookup token = some delta) :
    tokenDelta deltas token = delta.toInt := by
  rw [tokenDelta, h]
  rfl

lemma mem_sortedDeltas {delta : SignedU128} :
    (token, delta) ∈ sortedDeltas deltas ↔ deltas.lookup token = some delta := by
  rw [sortedDeltas, mem_insertionSort, List.mem_map, ← Option.mem_def, AList.mem_lookup_iff]
  constructor
  · rintro ⟨e, he, heq⟩
    obtain ⟨rfl, rfl⟩ := Prod.mk.inj heq
    exact he
  · exact fun h => ⟨⟨token, delta⟩, h, rfl⟩

/-! ## The deltas of a block -/

/-- The sum that the block has for an owner and a token. -/
def slot (deltas : TxDelta) (owner token : SchemaAlkaneId) : ℤ := tokenDelta (deltas.of owner) token

/-- The body of `alkane_balance_delta`. -/
def addChange (deltas : TxDelta) (c : AlkaneChange) : TxDelta :=
  if c.delta.isZero then deltas
  else if c.token = c.owner then deltas
  else addTokenDelta deltas c.owner c.token c.delta

section
variable {owner token : SchemaAlkaneId} (deltas : TxDelta)

lemma slot_addTokenDelta (owner token key t : SchemaAlkaneId) (delta : SignedU128) :
    (owner = key → token = t → -(u128Max : ℤ) ≤ slot deltas owner token + delta.toInt →
      slot deltas owner token + delta.toInt ≤ u128Max →
      slot (addTokenDelta deltas key t delta) owner token = slot deltas owner token + delta.toInt) ∧
    (¬ (owner = key ∧ token = t) →
      slot (addTokenDelta deltas key t delta) owner token = slot deltas owner token) := by
  unfold slot TxDelta.of addTokenDelta
  constructor
  · rintro rfl rfl hmin hmax
    have hadd := SignedU128.toInt_add hmin hmax
    rw [AList.lookup_insert, Option.getD_some]
    split_ifs with hzero
    · rw [tokenDelta_of_lookup_eq_none (AList.lookup_erase _ _), ← (SignedU128.isZero_iff _).1 hzero, hadd]
      rfl
    · rw [tokenDelta_of_lookup_eq_some (AList.lookup_insert _), hadd]
      rfl
  · intro hne
    by_cases howner : owner = key
    · have ht : token ≠ t := fun ht => hne ⟨howner, ht⟩
      subst howner
      rw [AList.lookup_insert, Option.getD_some, tokenDelta]
      split_ifs
      · rw [AList.lookup_erase_ne ht]
        rfl
      · rw [AList.lookup_insert_ne ht]
        rfl
    · rw [AList.lookup_insert_ne howner]

lemma slot_addChange (hself : token ≠ owner) (c : AlkaneChange) :
    (c.owner = owner → c.token = token → -(u128Max : ℤ) ≤ slot deltas owner token + c.delta.toInt →
      slot deltas owner token + c.delta.toInt ≤ u128Max →
      slot (addChange deltas c) owner token = slot deltas owner token + c.delta.toInt) ∧
    (¬ (c.owner = owner ∧ c.token = token) → slot (addChange deltas c) owner token = slot deltas owner token) := by
  obtain ⟨hin, hout⟩ := slot_addTokenDelta deltas owner token c.owner c.token c.delta
  unfold addChange
  split_ifs with hzero hown
  · rw [SignedU128.isZero_iff] at hzero
    omega
  · refine ⟨fun howner htoken => ?_, fun _ => rfl⟩
    exact absurd (htoken.symm.trans (hown.trans howner)) hself
  · exact ⟨fun howner htoken => hin howner.symm htoken.symm, fun hne => hout fun h => hne ⟨h.1.symm, h.2.symm⟩⟩

lemma slot_foldl_addChange (hself : token ≠ owner) {changes : List AlkaneChange}
    (hnodup : (changes.map fun c => (c.owner, c.token)).Nodup) :
    (∀ c ∈ changes, c.owner = owner → c.token = token →
      -(u128Max : ℤ) ≤ slot deltas owner token + c.delta.toInt →
      slot deltas owner token + c.delta.toInt ≤ u128Max →
      slot (changes.foldl addChange deltas) owner token = slot deltas owner token + c.delta.toInt) ∧
    ((owner, token) ∉ changes.map (fun c => (c.owner, c.token)) →
      slot (changes.foldl addChange deltas) owner token = slot deltas owner token) := by
  refine foldl_invariant (P := fun (done : List AlkaneChange) (acc : TxDelta) =>
    (∀ c ∈ done, c.owner = owner → c.token = token →
      -(u128Max : ℤ) ≤ slot deltas owner token + c.delta.toInt →
      slot deltas owner token + c.delta.toInt ≤ u128Max →
      slot acc owner token = slot deltas owner token + c.delta.toInt) ∧
    ((owner, token) ∉ done.map (fun c => (c.owner, c.token)) → slot acc owner token = slot deltas owner token))
    ⟨fun _ h => absurd h not_mem_nil, fun _ => rfl⟩ ?_
  rintro done c rest acc hsplit ⟨hin, hout⟩
  obtain ⟨hhere, helse⟩ := slot_addChange acc hself c
  have hfresh : (c.owner, c.token) ∉ done.map fun c => (c.owner, c.token) :=
    notMem_map_of_nodup hnodup hsplit
  constructor
  · intro c' hc' howner htoken hmin hmax
    rcases mem_append.1 hc' with hdone | hlast
    · -- The slot has its change already, and `c` is for another one.
      have hother : ¬ (c.owner = owner ∧ c.token = token) := by
        rintro ⟨rfl, rfl⟩
        exact hfresh (List.mem_map.2 ⟨c', hdone, by rw [howner, htoken]⟩)
      rw [helse hother]
      exact hin c' hdone howner htoken hmin hmax
    · obtain rfl := mem_singleton.1 hlast
      have hbefore : slot acc owner token = slot deltas owner token :=
        hout (by rw [← howner, ← htoken]; exact hfresh)
      rw [← hbefore] at hmin hmax ⊢
      exact hhere howner htoken hmin hmax
  · intro hnot
    rw [map_append, mem_append, not_or, map_singleton, mem_singleton, Prod.mk.injEq] at hnot
    rw [helse fun h => hnot.2 ⟨h.1.symm, h.2.symm⟩]
    exact hout hnot.1

end

/-! ## Transactions -/

section
variable {owner token : SchemaAlkaneId}

lemma mem_changes (hash : HashOrder) (d : TxDelta) (c : AlkaneChange) :
    c ∈ d.changes hash ↔ ∃ deltas, d.lookup c.owner = some deltas ∧ deltas.lookup c.token = some c.delta := by
  unfold TxDelta.changes
  rw [mem_flatMap]
  constructor
  · rintro ⟨e, he, hc⟩
    obtain ⟨t, ht, rfl⟩ := List.mem_map.1 hc
    exact ⟨e.2, AList.mem_lookup_iff.2 ((hash.perm _).mem_iff.1 he), mem_sortedDeltas.1 ht⟩
  · rintro ⟨deltas, hdeltas, hdelta⟩
    refine ⟨⟨c.owner, deltas⟩, (hash.perm _).mem_iff.2 (AList.mem_lookup_iff.1 hdeltas), ?_⟩
    exact List.mem_map.2 ⟨(c.token, c.delta), mem_sortedDeltas.2 hdelta, rfl⟩

lemma nodup_changes (hash : HashOrder) (d : TxDelta) :
    ((d.changes hash).map fun c => (c.owner, c.token)).Nodup := by
  have hmap : (d.changes hash).map (fun c => (c.owner, c.token))
      = (hash.run d.entries).flatMap fun e => (sortedDeltas e.2).map fun t => (e.1, t.1) := by
    rw [TxDelta.changes, map_flatMap]
    simp only [List.map_map, Function.comp_def]
  rw [hmap, nodup_flatMap]
  constructor
  · intro e _
    have hinj : Function.Injective fun token : SchemaAlkaneId => (e.1, token) :=
      fun _ _ h => (Prod.mk.inj h).2
    have hnodup := (nodup_sortedDeltas e.2).map hinj
    rwa [List.map_map] at hnodup
  · have hkeys : (hash.run d.entries).Pairwise fun a b => a.1 ≠ b.1 := by
      have hperm := (hash.perm d.entries).map Sigma.fst
      exact pairwise_map.1 (hperm.nodup_iff.2 d.nodupKeys)
    refine hkeys.imp fun {a b} hne => ?_
    intro x ha hb
    obtain ⟨_, -, rfl⟩ := List.mem_map.1 ha
    obtain ⟨_, -, heq⟩ := List.mem_map.1 hb
    exact hne (Prod.mk.inj heq).1.symm

lemma slot_foldl_changes (hash : HashOrder) (d : TxDelta) (hself : token ≠ owner) {deltas : TxDelta}
    (hmin : -(u128Max : ℤ) ≤ slot deltas owner token + tokenDelta (d.of owner) token)
    (hmax : slot deltas owner token + tokenDelta (d.of owner) token ≤ u128Max) :
    slot ((d.changes hash).foldl addChange deltas) owner token
      = slot deltas owner token + tokenDelta (d.of owner) token := by
  obtain ⟨hin, hout⟩ := slot_foldl_addChange deltas hself (nodup_changes hash d)
  cases hlookup : (d.of owner).lookup token with
  | some delta =>
    have hdelta := tokenDelta_of_lookup_eq_some hlookup
    have hc : (⟨owner, token, delta⟩ : AlkaneChange) ∈ d.changes hash := by
      rw [mem_changes]
      unfold TxDelta.of at hlookup
      cases howner : d.lookup owner with
      | none =>
        rw [howner] at hlookup
        simp at hlookup
      | some own =>
        rw [howner] at hlookup
        exact ⟨own, rfl, hlookup⟩
    rw [hdelta] at hmin hmax ⊢
    exact hin _ hc rfl rfl hmin hmax
  | none =>
    rw [tokenDelta_of_lookup_eq_none hlookup, add_zero]
    refine hout fun hmem => ?_
    obtain ⟨c, hc, heq⟩ := List.mem_map.1 hmem
    obtain ⟨own, hown, hdelta⟩ := (mem_changes hash d c).1 hc
    obtain ⟨rfl, rfl⟩ := Prod.mk.inj heq
    rw [TxDelta.of, hown, Option.getD_some, hdelta] at hlookup
    cases hlookup

/-- All transactions: the partial sums must not saturate. -/
theorem slot_foldl_txs (hash : HashOrder) (hself : token ≠ owner) (txs : List TxDelta) (deltas : TxDelta)
    (hrange : ∀ n, -(u128Max : ℤ) ≤ slot deltas owner token + net (txs.take n) owner token ∧
      slot deltas owner token + net (txs.take n) owner token ≤ u128Max) :
    slot ((txs.flatMap (TxDelta.changes hash)).foldl addChange deltas) owner token
      = slot deltas owner token + net txs owner token := by
  induction txs generalizing deltas with
  | nil =>
    rw [net_nil, add_zero]
    rfl
  | cons d txs ih =>
    have hfirst := hrange 1
    rw [take_succ_cons, take_zero, net_cons, net_nil, add_zero] at hfirst
    have hstep := slot_foldl_changes hash d hself hfirst.1 hfirst.2
    rw [flatMap_cons, foldl_append, ih, hstep, net_cons, add_assoc]
    intro n
    have hnext := hrange (n + 1)
    rw [take_succ_cons, net_cons, ← add_assoc] at hnext
    rw [hstep]
    exact hnext

/-! ## Blocks -/

lemma slot_alkaneBalanceDelta (b : ReserveBlock) (hself : token ≠ owner)
    (hrange : ∀ n, -(u128Max : ℤ) ≤ net (b.txs.take n) owner token ∧ net (b.txs.take n) owner token ≤ u128Max) :
    slot (alkaneBalanceDelta b.alkaneBlock.changes) owner token = net b.txs owner token := by
  have hempty : slot ∅ owner token = 0 := rfl
  have hsum := slot_foldl_txs b.hash hself b.txs ∅ (by simpa only [hempty, zero_add] using hrange)
  rw [hempty, zero_add] at hsum
  exact hsum

variable {store store' : AlkaneStore}

/-- A block adds its net to a balance that does not clamp. -/
theorem tokenAmount_indexBlock {b : ReserveBlock}
    (hblock : store.indexBlock b.height b.alkaneBlock = some store')
    (hlist : (store.at owner).ListExact) (hself : token ≠ owner)
    (hrange : ∀ n, -(u128Max : ℤ) ≤ net (b.txs.take n) owner token ∧ net (b.txs.take n) owner token ≤ u128Max)
    (hpos : 0 ≤ tokenAmount (store.at owner).rows token + net b.txs owner token)
    (hmax : tokenAmount (store.at owner).rows token + net b.txs owner token ≤ u128Max) :
    (tokenAmount (store'.at owner).rows token : ℤ)
      = tokenAmount (store.at owner).rows token + net b.txs owner token := by
  have hslot := slot_alkaneBalanceDelta b hself hrange
  rcases AlkaneStore.indexBlock_at hblock owner with ⟨deltas, hlookup, happly⟩ | ⟨hlookup, hsame⟩
  · rw [slot, TxDelta.of, hlookup, Option.getD_some] at hslot
    cases hdelta : deltas.lookup token with
    | none =>
      rw [tokenDelta_of_lookup_eq_none hdelta] at hslot
      have hnot : token ∉ (sortedDeltas deltas).map Prod.fst := by
        intro hmem
        obtain ⟨⟨t, delta⟩, he, rfl⟩ := List.mem_map.1 hmem
        rw [mem_sortedDeltas.1 he] at hdelta
        cases hdelta
      rw [AlkaneTokens.tokenAmount_of_notMem happly hnot]
      omega
    | some delta =>
      rw [tokenDelta_of_lookup_eq_some hdelta] at hslot
      have hmem : (token, delta) ∈ sortedDeltas deltas := mem_sortedDeltas.2 hdelta
      have happlied := hlist.tokenAmount_of_mem (nodup_sortedDeltas deltas) happly hmem
      rw [← hslot] at hpos hmax ⊢
      exact happlied.eq_add hpos hmax
  · rw [slot, TxDelta.of, hlookup] at hslot
    have hzero : net b.txs owner token = 0 := hslot.symm
    rw [hsame]
    omega

/-- What blocks keep of the balances. -/
structure BalancesInv (store : AlkaneStore) : Prop where
  listExact : ∀ owner, (store.at owner).ListExact
  le_u128Max : ∀ owner token, tokenAmount (store.at owner).rows token ≤ u128Max

lemma balancesInv_empty : BalancesInv ∅ where
  listExact := (OwnerInv.nil 0).listExact
  le_u128Max _ _ := Nat.zero_le _

lemma BalancesInv.indexBlock {height : ℕ} {b : AlkaneBlock} (h : BalancesInv store)
    (hblock : store.indexBlock height b = some store') : BalancesInv store' := by
  constructor
  · intro owner
    rcases AlkaneStore.indexBlock_at hblock owner with ⟨deltas, -, happly⟩ | ⟨-, hsame⟩
    · exact (h.listExact owner).applyDeltas (nodup_sortedDeltas deltas) happly
    · rw [hsame]
      exact h.listExact owner
  · intro owner token
    rcases AlkaneStore.indexBlock_at hblock owner with ⟨deltas, -, happly⟩ | ⟨-, hsame⟩
    · by_cases hmem : token ∈ (sortedDeltas deltas).map Prod.fst
      · obtain ⟨e, he, rfl⟩ := List.mem_map.1 hmem
        have happlied := (h.listExact owner).tokenAmount_of_mem (nodup_sortedDeltas deltas) happly he
        exact happlied.le_u128Max (h.le_u128Max owner e.1)
      · rw [AlkaneTokens.tokenAmount_of_notMem happly hmem]
        exact h.le_u128Max owner token
    · rw [hsame]
      exact h.le_u128Max owner token

end
end Espo.Ammdata
