import Espo.Ammdata.BlockNets

/-!
# Reserves and balances

The reserves of a pool are the balances of its alkane as long as they start in step with them. A pool that
is old stays in step: a block changes both sides by the same `net`. A pool that a block registers is in step
after the block only in these cases:

* its reserves came from the balances, which have the block in them, and the block has no net effect on them;
* its reserves started from zero, and the pool had no balances before the block.
-/

namespace Espo.Ammdata
open Lib Espo.Essentials List

/-! ## Changes -/

/-- The two sides of a pool. -/
inductive Side
  | base
  | quote

namespace SchemaPoolSnapshot

/-- The token of a side. -/
def token (s : SchemaPoolSnapshot) : Side → SchemaAlkaneId
  | .base => s.baseId
  | .quote => s.quoteId

/-- The reserve of a side. -/
def reserve (s : SchemaPoolSnapshot) : Side → ℕ
  | .base => s.baseReserve
  | .quote => s.quoteReserve

end SchemaPoolSnapshot

/-- The deltas fit in `i128`. -/
def DeltasFit (deltas : TokenDeltas) : Prop :=
  ∀ token delta, deltas.lookup token = some delta → -2 ^ 127 ≤ delta.toInt ∧ delta.toInt < 2 ^ 127

/-- A transaction clamps no reserve. -/
def EntryExact (s : SchemaPoolSnapshot) (outflow : TokenDeltas) : Prop :=
  ∀ side, 0 ≤ s.reserve side + signedFromDelta (outflow.lookup (s.token side)) ∧
    s.reserve side + signedFromDelta (outflow.lookup (s.token side)) ≤ u128Max

/-- The transactions of a log clamp no reserve. -/
def Unclamped (s : SchemaPoolSnapshot) : List TokenDeltas → Prop
  | [] => True
  | outflow :: rest => EntryExact s outflow ∧ Unclamped (applyEntry s outflow) rest

variable {pool : SchemaAlkaneId} {s : SchemaPoolSnapshot}

/-- The casts are exact on what fits. -/
theorem signedFromDelta_eq {deltas : TokenDeltas} (h : DeltasFit deltas) (token : SchemaAlkaneId) :
    signedFromDelta (deltas.lookup token) = tokenDelta deltas token := by
  cases hlookup : deltas.lookup token with
  | none => rw [tokenDelta_of_lookup_eq_none hlookup, signedFromDelta]
  | some delta =>
    rw [tokenDelta_of_lookup_eq_some hlookup, signedFromDelta]
    obtain ⟨hmin, hmax⟩ := h token delta hlookup
    cases hneg : delta.isNegative with
    | false =>
      rw [SignedU128.toInt_of_nonnegative hneg] at hmax ⊢
      simp only [Bool.false_eq_true, if_false, Int.bmod_def]
      split_ifs <;> omega
    | true =>
      rw [SignedU128.toInt_of_negative hneg] at hmin ⊢
      simp only [Int.bmod_def]
      -- The amount `2 ^ 127` is cast to its negative, which negation keeps.
      split_ifs <;> omega

@[simp]
lemma token_applyEntry (s : SchemaPoolSnapshot) (outflow : TokenDeltas) (side : Side) :
    (applyEntry s outflow).token side = s.token side := by
  unfold applyEntry
  cases side <;> (dsimp only; split_ifs <;> rfl)

lemma reserve_applyEntry {outflow : TokenDeltas} (hfit : DeltasFit outflow)
    (hexact : EntryExact s outflow) (side : Side) :
    ((applyEntry s outflow).reserve side : ℤ) = s.reserve side + tokenDelta outflow (s.token side) := by
  have hboth := hexact side
  rw [← signedFromDelta_eq hfit]
  unfold applyEntry
  dsimp only
  split_ifs with hzero
  · have hnone : signedFromDelta (outflow.lookup (s.token side)) = 0 := by
      cases side
      exacts [hzero.1, hzero.2]
    omega
  · cases side <;> exact applyDeltaU128_eq hboth.1 hboth.2

/-- A transaction that is not in the log of an owner has no delta for it. -/
theorem tokenDelta_of_not_changesHolder {d : TxDelta} {owner token : SchemaAlkaneId}
    (h : d.changesHolder owner = false) (hself : token ≠ owner) : tokenDelta (d.of owner) token = 0 := by
  cases hlookup : (d.of owner).lookup token with
  | none => exact tokenDelta_of_lookup_eq_none hlookup
  | some delta =>
    unfold TxDelta.changesHolder at h
    rw [List.any_eq_false] at h
    have hentry := h ⟨token, delta⟩ (AList.mem_lookup_iff.1 hlookup)
    rw [tokenDelta_of_lookup_eq_some hlookup, ← SignedU128.isZero_iff]
    simpa [hself] using hentry

section
variable {owner : SchemaAlkaneId} {txs : List TxDelta}

lemma reserve_foldl_applyEntry (hself : ∀ side, s.token side ≠ owner)
    (hfit : ∀ d ∈ txs, DeltasFit (d.of owner)) (hrange : ∀ side, s.reserve side ≤ u128Max)
    (hunclamped : Unclamped s (balanceTxsOf owner txs)) (side : Side) :
    ((balanceTxsOf owner txs).foldl applyEntry s).token side = s.token side ∧
    (((balanceTxsOf owner txs).foldl applyEntry s).reserve side : ℤ)
      = s.reserve side + net txs owner (s.token side) ∧
    ∀ n, 0 ≤ s.reserve side + net (txs.take n) owner (s.token side) ∧
      s.reserve side + net (txs.take n) owner (s.token side) ≤ u128Max := by
  induction txs generalizing s with
  | nil =>
    have hside := hrange side
    refine ⟨rfl, (add_zero _).symm, fun n => ?_⟩
    rw [take_nil, net_nil]
    omega
  | cons d txs ih =>
    have hrest : ∀ d' ∈ txs, DeltasFit (d'.of owner) := fun d' hd' => hfit d' (mem_cons_of_mem d hd')
    have hside := hrange side
    rw [balanceTxsOf] at hunclamped ⊢
    split_ifs at hunclamped ⊢ with hlogged
    · obtain ⟨hexact, hunclamped⟩ := hunclamped
      have hstep := reserve_applyEntry (hfit d mem_cons_self) hexact
      have hrange' : ∀ side, (applyEntry s (d.of owner)).reserve side ≤ u128Max := by
        intro side'
        have hin := (hexact side').2
        rw [signedFromDelta_eq (hfit d mem_cons_self), ← hstep] at hin
        exact_mod_cast hin
      obtain ⟨htoken, hreserve, htake⟩ := ih (fun side' => by rw [token_applyEntry]; exact hself side') hrest
        hrange' hunclamped
      rw [token_applyEntry] at htoken hreserve htake
      rw [hstep side] at hreserve htake
      rw [net_cons, ← add_assoc]
      refine ⟨htoken, hreserve, fun n => ?_⟩
      cases n with
      | zero =>
        rw [take_zero, net_nil]
        omega
      | succ n =>
        rw [take_succ_cons, net_cons, ← add_assoc]
        exact htake n
    · -- The transaction is left out, and it has no delta for either side.
      rw [Bool.or_eq_true, not_or, Bool.not_eq_true] at hlogged
      have hnone := tokenDelta_of_not_changesHolder hlogged.1 (hself side)
      obtain ⟨htoken, hreserve, htake⟩ := ih hself hrest hrange hunclamped
      rw [net_cons, hnone, zero_add]
      refine ⟨htoken, hreserve, fun n => ?_⟩
      cases n with
      | zero =>
        rw [take_zero, net_nil]
        omega
      | succ n =>
        rw [take_succ_cons, net_cons, hnone, zero_add]
        exact htake n

end

/-! ## All owners -/

lemma balanceTxsOf_eq_nil {txs : List TxDelta} {owner : SchemaAlkaneId}
    (h : ∀ d ∈ txs, owner ∉ d.keys) : balanceTxsOf owner txs = [] := by
  induction txs with
  | nil => rfl
  | cons d txs ih =>
    have hnone : d.of owner = ∅ := by
      have hlookup := AList.lookup_eq_none.2 (h d mem_cons_self)
      rw [TxDelta.of, hlookup]
      rfl
    have hlog : (d.changesHolder owner || isSource d txs owner) = false := by
      rw [TxDelta.changesHolder, isSource, hnone]
      rfl
    rw [balanceTxsOf, hlog]
    exact ih fun d' hd' => h d' (mem_cons_of_mem d hd')

lemma mem_balanceOwners {txs : List TxDelta} {owner : SchemaAlkaneId} :
    owner ∈ balanceOwners txs ↔ balanceTxsOf owner txs ≠ [] := by
  unfold balanceOwners
  rw [mem_insertionSort, mem_filter, mem_dedup, mem_flatMap, Bool.not_eq_true',
    isEmpty_eq_false_iff]
  constructor
  · exact fun h => h.2
  · intro hne
    refine ⟨?_, hne⟩
    by_contra hnone
    exact hne (balanceTxsOf_eq_nil fun d hd hkey => hnone ⟨d, hd, hkey⟩)

variable (txs : List TxDelta)

lemma nodup_balanceOwners : (balanceOwners txs).Nodup := by
  rw [balanceOwners, (perm_insertionSort _ _).nodup_iff]
  exact (nodup_dedup _).filter _

lemma get_processOwner (snapshot : ReservesSnapshot) (owner pool : SchemaAlkaneId) :
    (processOwner txs snapshot owner).get pool
      = if pool = owner then (snapshot.get pool).map ((balanceTxsOf pool txs).foldl applyEntry ·)
        else snapshot.get pool := by
  unfold processOwner
  split_ifs with heq
  · subst heq
    cases hget : snapshot.get pool with
    | none => rw [hget]; rfl
    | some s => simp
  · cases snapshot.get owner with
    | none => rfl
    | some s => simp [Table.get_put, heq]

lemma get_processBalanceDeltas (snapshot : ReservesSnapshot) (pool : SchemaAlkaneId) :
    (processBalanceDeltas txs snapshot).get pool
      = (snapshot.get pool).map ((balanceTxsOf pool txs).foldl applyEntry ·) := by
  have hloop : (processBalanceDeltas txs snapshot).get pool
      = if pool ∈ balanceOwners txs then (snapshot.get pool).map ((balanceTxsOf pool txs).foldl applyEntry ·)
        else snapshot.get pool := by
    refine foldl_invariant (P := fun (done : List SchemaAlkaneId) (acc : ReservesSnapshot) => acc.get pool
      = if pool ∈ done then (snapshot.get pool).map ((balanceTxsOf pool txs).foldl applyEntry ·)
        else snapshot.get pool) rfl ?_
    intro done owner rest acc hsplit ih
    rw [get_processOwner, ih]
    by_cases heq : pool = owner
    · have hnodup := hsplit ▸ nodup_balanceOwners txs
      have hfresh : owner ∉ done := fun hmem => (nodup_append.1 hnodup).2.2 _ hmem _ mem_cons_self rfl
      simp [heq, hfresh]
    · simp [heq]
  rw [hloop]
  split_ifs with hlog
  · rfl
  · rw [mem_balanceOwners, not_not] at hlog
    rw [hlog]
    simp

/-! ## Registration -/

/-- Some pools are new, and each of them has a property; the others stay. -/
def Registers (P : SchemaAlkaneId → SchemaPoolSnapshot → Prop) (before after : ReservesSnapshot) : Prop :=
  ∀ pool, after.get pool = before.get pool ∨
    before.get pool = none ∧ ∃ s, after.get pool = some s ∧ P pool s

namespace Registers
variable {P : SchemaAlkaneId → SchemaPoolSnapshot → Prop} {before mid after : ReservesSnapshot}

lemma refl (snapshot : ReservesSnapshot) : Registers P snapshot snapshot := fun _ => .inl rfl

lemma trans (h₁ : Registers P before mid) (h₂ : Registers P mid after) : Registers P before after := by
  intro pool
  rcases h₂ pool with hsame | ⟨hnone, hnew⟩
  · rw [hsame]
    exact h₁ pool
  · rcases h₁ pool with hsame | ⟨-, s, hsome, -⟩
    · exact .inr ⟨hsame ▸ hnone, hnew⟩
    · rw [hnone] at hsome
      cases hsome

lemma get_eq (h : Registers P before after)
    (hold : before.get pool = some s) : after.get pool = some s := by
  rcases h pool with hsame | ⟨hnone, -⟩
  · rw [hsame, hold]
  · rw [hold] at hnone
    cases hnone

lemma put (hnone : ¬ (before.get pool).isSome)
    (hP : P pool s) : Registers P before (before.put pool s) := by
  intro pool'
  rw [Table.get_put]
  split_ifs with heq
  · subst heq
    exact .inr ⟨Option.not_isSome_iff_eq_none.1 hnone, s, rfl, hP⟩
  · exact .inl rfl

lemma foldl {E : Type} {f : ReservesSnapshot → E → ReservesSnapshot} {entries : List E}
    (h : ∀ snapshot, ∀ e ∈ entries, Registers P snapshot (f snapshot e)) (snapshot : ReservesSnapshot) :
    Registers P snapshot (entries.foldl f snapshot) := by
  exact foldlRecOn _ _ (refl snapshot) fun acc ih e he => ih.trans (h acc e he)

end Registers

variable (store : AlkaneStore) (b : ReserveBlock) (snapshot : ReservesSnapshot)

/-- A pool starts with its balances. -/
def Seeded (pool : SchemaAlkaneId) (s : SchemaPoolSnapshot) : Prop :=
  ∃ defs : SchemaMarketDefs, defs.pool = pool ∧ defs.base ≠ defs.quote ∧
    s = seedReserves store b.selfBalance defs

lemma registers_bootstrapPools :
    Registers (Seeded store b) snapshot (bootstrapPools store b snapshot) := by
  unfold bootstrapPools
  split_ifs
  · exact Registers.refl snapshot
  · refine Registers.foldl (fun acc c _ => ?_) snapshot
    unfold bootstrapPool
    split_ifs with hsome hok
    · exact Registers.refl acc
    · rw [Bool.and_eq_true, decide_eq_true_eq] at hok
      exact Registers.put hsome ⟨c.defs, rfl, hok.2, rfl⟩
    · exact Registers.refl acc

lemma registers_discoverNewPools :
    Registers (fun _ s => ∀ side, s.reserve side = 0) snapshot (discoverNewPools b snapshot) := by
  refine foldlRecOn (motive := fun acc : ReservesSnapshot × List SchemaAlkaneId =>
    Registers (fun _ s => ∀ side, s.reserve side = 0) snapshot acc.1) _ _ (Registers.refl snapshot) ?_
  intro acc ih c _
  unfold discoverPool
  split_ifs with hseen hsome hok
  · exact ih
  · exact ih
  · refine ih.trans (Registers.put hsome fun side => ?_)
    cases side <;> rfl
  · exact ih

lemma registers_registerCryptoswapPools :
    Registers (Seeded store b) snapshot (registerCryptoswapPools store b snapshot) := by
  have htable : ∀ defs ∈ cryptoswapPools b.mainnet, defs.base ≠ defs.quote := by
    cases b.mainnet <;> decide
  refine Registers.foldl (fun acc defs hdefs => ?_) snapshot
  unfold registerCryptoswapPool
  split_ifs with hstate hsome
  · exact Registers.refl acc
  · exact Registers.refl acc
  · exact Registers.put hsome ⟨defs, rfl, htable defs hdefs, rfl⟩

/-- A balance as it is read. -/
def poolBalance (selfBalance : SchemaAlkaneId → Option ℕ) (pool token : SchemaAlkaneId) : ℕ :=
  ((getAlkaneBalances store selfBalance pool).lookup token).getD 0

lemma poolBalance_eq {store : AlkaneStore} (h : BalancesInv store)
    (selfBalance : SchemaAlkaneId → Option ℕ) {pool token : SchemaAlkaneId} (hself : token ≠ pool) :
    poolBalance store selfBalance pool token = tokenAmount (store.at pool).rows token := by
  rw [← (h.listExact pool).lookup_listed, poolBalance, getAlkaneBalances]
  cases selfBalance pool with
  | none => rfl
  | some amount =>
    dsimp only
    split_ifs
    · rw [AList.lookup_erase_ne hself]
    · rw [AList.lookup_insert_ne hself]

lemma Seeded.reserve_eq {store : AlkaneStore} {b : ReserveBlock}
    (hseeded : Seeded store b pool s) (h : BalancesInv store)
    (hself : ∀ side, s.token side ≠ pool) (side : Side) :
    s.reserve side = tokenAmount (store.at pool).rows (s.token side) := by
  obtain ⟨defs, rfl, hne, rfl⟩ := hseeded
  have hread := poolBalance_eq h b.selfBalance (hself side)
  rw [← hread]
  cases side with
  | base => rfl
  | quote =>
    show (((getAlkaneBalances store b.selfBalance defs.pool).erase defs.base).lookup defs.quote).getD 0 = _
    rw [AList.lookup_erase_ne hne.symm]
    rfl

/-! ## Runs -/

/-- The deltas of a block fit, and no reserve is clamped. -/
structure ReserveBlock.Exact (b : ReserveBlock) (store : AlkaneStore) (snapshot : ReservesSnapshot) : Prop where
  fit : ∀ d ∈ b.txs, ∀ owner, DeltasFit (d.of owner)
  unclamped : ∀ pool s, (registerPools store b snapshot).get pool = some s →
    Unclamped s (balanceTxsOf pool b.txs)

/-- The pools that a block registers will be in step with their balances. `store` has the balances after
the block. -/
structure ReserveState.RegistersInStep (st : ReserveState) (b : ReserveBlock) (store : AlkaneStore) :
    Prop where
  /-- No pool trades its own alkane. -/
  own : ∀ pool s, st.snapshot.get pool = none → (registerPools store b st.snapshot).get pool = some s →
    ∀ side, s.token side ≠ pool
  /-- The block has no net effect on a pool that has a creation record in it. -/
  created : ∀ pool s, st.snapshot.get pool = none → (bootstrapPools store b st.snapshot).get pool = some s →
    ∀ side, net b.txs pool (s.token side) = 0
  /-- A pool that is found in traces had no balances before. -/
  found : ∀ pool s, (bootstrapPools store b st.snapshot).get pool = none →
    (discoverNewPools b (bootstrapPools store b st.snapshot)).get pool = some s →
    ∀ side, tokenAmount (st.alkanes.at pool).rows (s.token side) = 0
  /-- The block has no net effect on a pool that it takes from the static table. -/
  static : ∀ pool s, (discoverNewPools b (bootstrapPools store b st.snapshot)).get pool = none →
    (registerPools store b st.snapshot).get pool = some s → ∀ side, net b.txs pool (s.token side) = 0

/-- Every block of a run meets a condition on it, the state before and the state after. -/
def AllBlocks (ok : ReserveState → ReserveBlock → ReserveState → Prop) : ReserveState → List ReserveBlock → Prop
  | _, [] => True
  | st, b :: blocks => ∀ next, st.indexBlock b = some next → ok st b next ∧ AllBlocks ok next blocks

/-- The reserves are the balances. -/
structure ReserveState.InStep (st : ReserveState) : Prop where
  balances : BalancesInv st.alkanes
  token_ne : ∀ pool s, st.snapshot.get pool = some s → ∀ side, s.token side ≠ pool
  reserve_eq : ∀ pool s, st.snapshot.get pool = some s → ∀ side,
    s.reserve side = tokenAmount (st.alkanes.at pool).rows (s.token side)

section
variable {st : ReserveState} {b : ReserveBlock} {store : AlkaneStore}

/-- The reserves before the transactions of a block are the balances before it, or those after it when the
block has no net effect. -/
theorem ReserveState.InStep.registered (h : st.InStep) (hstore : BalancesInv store)
    (hnew : st.RegistersInStep b store)
    (hpool : (registerPools store b st.snapshot).get pool = some s) :
    (∀ side, s.token side ≠ pool) ∧
    ((∀ side, s.reserve side = tokenAmount (st.alkanes.at pool).rows (s.token side)) ∨
      ∀ side, s.reserve side = tokenAmount (store.at pool).rows (s.token side) ∧
        net b.txs pool (s.token side) = 0) := by
  cases hold : st.snapshot.get pool with
  | some old =>
    -- None of the three ways touches an old pool.
    have hboot := (registers_bootstrapPools store b st.snapshot).get_eq hold
    have hfound := (registers_discoverNewPools b _).get_eq hboot
    have hsame := (registers_registerCryptoswapPools store b _).get_eq hfound
    obtain rfl := Option.some.inj (hsame.symm.trans hpool)
    exact ⟨h.token_ne pool old hold, .inl (h.reserve_eq pool old hold)⟩
  | none =>
    have hself := hnew.own pool s hold hpool
    refine ⟨hself, ?_⟩
    rcases registers_registerCryptoswapPools store b _ pool with hsame | ⟨hnone, s', hs', hseeded⟩
    · rw [registerPools, hsame] at hpool
      rcases registers_discoverNewPools b (bootstrapPools store b st.snapshot) pool with
        hsame' | ⟨hnone, s', hs', hzero⟩
      · rw [hsame'] at hpool
        rcases registers_bootstrapPools store b st.snapshot pool with hsame'' | ⟨-, s', hs', hseeded⟩
        · rw [hsame'', hold] at hpool
          cases hpool
        · obtain rfl := Option.some.inj (hs'.symm.trans hpool)
          exact .inr fun side => ⟨hseeded.reserve_eq hstore hself side, hnew.created pool s' hold hs' side⟩
      · obtain rfl := Option.some.inj (hs'.symm.trans hpool)
        exact .inl fun side => by rw [hzero side, hnew.found pool s' hnone hs' side]
    · obtain rfl := Option.some.inj (hs'.symm.trans hpool)
      exact .inr fun side => ⟨hseeded.reserve_eq hstore hself side, hnew.static pool s' hnone hpool side⟩

lemma ReserveState.InStep.indexBlock {next : ReserveState} (h : st.InStep)
    (hblock : st.indexBlock b = some next) (hexact : b.Exact next.alkanes st.snapshot)
    (hnew : st.RegistersInStep b next.alkanes) : next.InStep := by
  obtain ⟨store, hstore, rfl⟩ := Option.map_eq_some_iff.1 hblock
  have hbalances := h.balances.indexBlock hstore
  -- What a pool is after the block, and what it was registered as.
  have hpools : ∀ pool s', (processBalanceDeltas b.txs (registerPools store b st.snapshot)).get pool = some s' →
      ∀ side, s'.token side ≠ pool ∧
        s'.reserve side = tokenAmount (store.at pool).rows (s'.token side) := by
    intro pool s' hget side
    rw [get_processBalanceDeltas, Option.map_eq_some_iff] at hget
    obtain ⟨s, hpool, rfl⟩ := hget
    obtain ⟨hself, hreserve⟩ := h.registered hbalances hnew hpool
    have hrange : ∀ side, s.reserve side ≤ u128Max := by
      intro side
      rcases hreserve with hbefore | hafter
      · rw [hbefore side]
        exact h.balances.le_u128Max _ _
      · rw [(hafter side).1]
        exact hbalances.le_u128Max _ _
    obtain ⟨htoken, hsum, htake⟩ := reserve_foldl_applyEntry hself (fun d hd => hexact.fit d hd pool) hrange
      (hexact.unclamped pool s hpool) side
    rw [htoken]
    refine ⟨hself side, ?_⟩
    rcases hreserve with hbefore | hafter
    · have hall := htake b.txs.length
      rw [take_length, hbefore side] at hall
      have hbalance := tokenAmount_indexBlock hstore (h.balances.listExact pool) (hself side) (fun n => by
        have hn := htake n
        have hside := hrange side
        omega) hall.1 hall.2
      rw [← hbefore side] at hbalance
      omega
    · obtain ⟨hseed, hnone⟩ := hafter side
      omega
  exact ⟨hbalances, fun pool s hs side => (hpools pool s hs side).1,
    fun pool s hs side => (hpools pool s hs side).2⟩

end

lemma ReserveState.InStep.run {blocks : List ReserveBlock} {st last : ReserveState} (h : st.InStep)
    (hrun : blocks.foldlM ReserveState.indexBlock st = some last)
    (hexact : AllBlocks (fun past b next => b.Exact next.alkanes past.snapshot) st blocks)
    (hnew : AllBlocks (fun past b next => past.RegistersInStep b next.alkanes) st blocks) : last.InStep := by
  induction blocks generalizing st with
  | nil =>
    cases hrun
    exact h
  | cons b blocks ih =>
    rw [foldlM_cons, Option.bind_eq_bind, Option.bind_eq_some_iff] at hrun
    obtain ⟨next, hblock, hrest⟩ := hrun
    obtain ⟨hexact, hexact'⟩ := hexact next hblock
    obtain ⟨hnew, hnew'⟩ := hnew next hblock
    exact ih (h.indexBlock hblock hexact hnew) hrest hexact' hnew'

lemma ReserveState.inStep_empty : (⟨∅, ∅⟩ : ReserveState).InStep where
  balances := balancesInv_empty
  token_ne _ _ h := absurd h (by simp)
  reserve_eq _ _ h := absurd h (by simp)

/-- The reserves of every pool are its balances, after every run that clamps nothing and whose blocks
register pools in step. -/
theorem reserve_eq_poolBalance {blocks : List ReserveBlock} {st : ReserveState}
    (hrun : runReserves blocks = some st)
    (hexact : AllBlocks (fun past b next => b.Exact next.alkanes past.snapshot) ⟨∅, ∅⟩ blocks)
    (hnew : AllBlocks (fun past b next => past.RegistersInStep b next.alkanes) ⟨∅, ∅⟩ blocks)
    (selfBalance : SchemaAlkaneId → Option ℕ) {pool : SchemaAlkaneId} {s : SchemaPoolSnapshot}
    (hpool : st.snapshot.get pool = some s) :
    s.baseReserve = poolBalance st.alkanes selfBalance pool s.baseId ∧
    s.quoteReserve = poolBalance st.alkanes selfBalance pool s.quoteId := by
  have hst := ReserveState.inStep_empty.run hrun hexact hnew
  have hside : ∀ side, s.reserve side = poolBalance st.alkanes selfBalance pool (s.token side) := by
    intro side
    rw [poolBalance_eq hst.balances selfBalance (hst.token_ne pool s hpool side)]
    exact hst.reserve_eq pool s hpool side
  exact ⟨hside .base, hside .quote⟩

/-! ## A pool -/

/-- A pool, the transaction that gives it its liquidity, and blocks with them. -/
def samplePoolDefs : SchemaMarketDefs := ⟨⟨2, 7⟩, ⟨2, 1⟩, ⟨2, 2⟩⟩

def sampleLiquidity : TxDelta :=
  AList.insert samplePoolDefs.pool
    (((∅ : TokenDeltas).insert samplePoolDefs.base (.ofCredit 5)).insert samplePoolDefs.quote (.ofCredit 9)) ∅

def sampleReserveBlock (height : ℕ) (created : List PoolCandidate) (txs : List TxDelta) : ReserveBlock where
  height := height
  check := true
  txs := txs
  hash := ⟨fun l => l, fun _ => .refl _⟩
  mainnet := false
  ammFactories := [⟨4, 65522⟩]
  created := created
  discovered := []
  initialised := fun _ => false
  selfBalance := fun _ => none

/-- The block that creates the pool. -/
def sampleCreation (txs : List TxDelta) : ReserveBlock :=
  sampleReserveBlock 1 [⟨samplePoolDefs, some ⟨4, 65522⟩⟩] txs

lemma fit_sampleLiquidity (owner : SchemaAlkaneId) : DeltasFit (sampleLiquidity.of owner) := by
  intro token delta h
  by_cases howner : owner = samplePoolDefs.pool
  · subst howner
    have hmem : ⟨token, delta⟩ ∈ (sampleLiquidity.of samplePoolDefs.pool).entries := AList.mem_lookup_iff.1 h
    have hentries : (sampleLiquidity.of samplePoolDefs.pool).entries
        = [⟨samplePoolDefs.quote, .ofCredit 9⟩, ⟨samplePoolDefs.base, .ofCredit 5⟩] := by decide
    rw [hentries, mem_cons, mem_singleton] at hmem
    rcases hmem with heq | heq
    · obtain ⟨rfl, rfl⟩ := Sigma.mk.inj heq
      decide
    · obtain ⟨rfl, rfl⟩ := Sigma.mk.inj heq
      decide
  · rw [TxDelta.of, sampleLiquidity, AList.lookup_insert_ne howner] at h
    cases h

lemma get_registerPools_sampleCreation (txs : List TxDelta)
    (h : (registerPools store (sampleCreation txs) ∅).get pool = some s) :
    pool = samplePoolDefs.pool ∧ s = seedReserves store (fun _ => none) samplePoolDefs := by
  have hput : registerPools store (sampleCreation txs) ∅
      = Table.put ∅ samplePoolDefs.pool (seedReserves store (fun _ => none) samplePoolDefs) := rfl
  rw [hput, Table.get_put] at h
  split_ifs at h with heq
  · exact ⟨heq, (Option.some.inj h).symm⟩
  · simp at h

/-- A pool that is created with its liquidity in one block has it twice in its reserves. -/
theorem seeded_reserve_doubled :
    let blocks := [sampleCreation [sampleLiquidity]]
    AllBlocks (fun past b next => b.Exact next.alkanes past.snapshot) ⟨∅, ∅⟩ blocks ∧
    ∃ st, runReserves blocks = some st ∧
      st.snapshot.get samplePoolDefs.pool = some ⟨10, 18, samplePoolDefs.base, samplePoolDefs.quote⟩ ∧
      poolBalance st.alkanes (fun _ => none) samplePoolDefs.pool samplePoolDefs.base = 5 ∧
      poolBalance st.alkanes (fun _ => none) samplePoolDefs.pool samplePoolDefs.quote = 9 := by
  refine ⟨?_, (runReserves [sampleCreation [sampleLiquidity]]).get (by decide +kernel),
    (Option.some_get _).symm, by decide +kernel, by decide +kernel, by decide +kernel⟩
  intro next hnext
  have hseeds : (ReserveState.indexBlock ⟨∅, ∅⟩ (sampleCreation [sampleLiquidity])).map
      (fun next => seedReserves next.alkanes (fun _ => none) samplePoolDefs)
      = some ⟨5, 9, samplePoolDefs.base, samplePoolDefs.quote⟩ := by decide +kernel
  rw [hnext, Option.map_some, Option.some.injEq] at hseeds
  refine ⟨⟨fun d hd owner => ?_, fun pool s hpool => ?_⟩, trivial⟩
  · obtain rfl := mem_singleton.1 hd
    exact fit_sampleLiquidity owner
  · obtain ⟨rfl, rfl⟩ := get_registerPools_sampleCreation _ _ hpool
    rw [hseeds]
    refine ⟨fun side => ?_, trivial⟩
    cases side <;> decide

/-- The liquidity comes one block later. -/
theorem reserve_eq_poolBalance_later :
    ∃ st, runReserves [sampleCreation [], sampleReserveBlock 2 [] [sampleLiquidity]] = some st ∧
      st.snapshot.get samplePoolDefs.pool = some ⟨5, 9, samplePoolDefs.base, samplePoolDefs.quote⟩ ∧
      5 = poolBalance st.alkanes (fun _ => none) samplePoolDefs.pool samplePoolDefs.base ∧
      9 = poolBalance st.alkanes (fun _ => none) samplePoolDefs.pool samplePoolDefs.quote := by
  have hrun : runReserves [sampleCreation [], sampleReserveBlock 2 [] [sampleLiquidity]]
      = some ((runReserves [sampleCreation [], sampleReserveBlock 2 [] [sampleLiquidity]]).get
        (by decide +kernel)) := (Option.some_get _).symm
  have hpool : ((runReserves [sampleCreation [], sampleReserveBlock 2 [] [sampleLiquidity]]).get
      (by decide +kernel)).snapshot.get samplePoolDefs.pool
      = some ⟨5, 9, samplePoolDefs.base, samplePoolDefs.quote⟩ := by decide +kernel
  -- The first block registers the pool with nothing in it.
  have hfirst : (ReserveState.indexBlock ⟨∅, ∅⟩ (sampleCreation [])).map ReserveState.snapshot
      = some (Table.put ∅ samplePoolDefs.pool ⟨0, 0, samplePoolDefs.base, samplePoolDefs.quote⟩) := by
    decide +kernel
  refine ⟨_, hrun, hpool, reserve_eq_poolBalance hrun ?_ ?_ (fun _ => none) hpool⟩
  · intro past hpast
    rw [hpast, Option.map_some, Option.some.injEq] at hfirst
    refine ⟨⟨fun d hd => absurd hd not_mem_nil, fun pool s _ => trivial⟩, fun next _ => ?_⟩
    refine ⟨⟨fun d hd owner => ?_, fun pool s hget => ?_⟩, trivial⟩
    · obtain rfl := mem_singleton.1 hd
      exact fit_sampleLiquidity owner
    · have hold : past.snapshot.get pool = some s := hget
      rw [hfirst, Table.get_put] at hold
      split_ifs at hold with heq
      · subst heq
        cases hold
        refine ⟨fun side => ?_, trivial⟩
        cases side <;> decide
      · simp at hold
  · intro past hpast
    refine ⟨⟨fun pool s _ hget side => ?_, fun _ _ _ _ _ => rfl, fun pool s hnone hget => ?_,
      fun _ _ _ _ _ => rfl⟩, fun next _ => ⟨⟨?_, ?_, ?_, ?_⟩, trivial⟩⟩
    · obtain ⟨rfl, rfl⟩ := get_registerPools_sampleCreation _ _ hget
      cases side with
      | base => exact (by decide : samplePoolDefs.base ≠ samplePoolDefs.pool)
      | quote => exact (by decide : samplePoolDefs.quote ≠ samplePoolDefs.pool)
    · exact absurd (hnone.symm.trans hget) (by simp)
    all_goals
      -- The second block registers no pool.
      intro pool s hnone hget
      exact absurd (hnone.symm.trans hget) (by simp)

end Espo.Ammdata
