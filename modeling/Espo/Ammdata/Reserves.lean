import Espo.Essentials.AlkaneTokens

/-!
# Reserves of pools

The reserves that the AMM module keeps for a pool: the two amounts in `reserves_snapshot`. A pool is
registered in one of three ways, and then the changes that a block makes to the balances of the pool's alkane
are applied to its reserves, transaction by transaction.

* Pools with a creation record in the block and pools of the static table start from the balances of their
  alkane (`seedReserves`). The block is in these balances already.
* Pools that are found in traces start from zero.
-/

namespace Espo.Ammdata
open Lib Espo.Essentials

/-! ## What transactions move -/

/-- `local_alkane_delta`: what a transaction adds to and takes from each alkane. -/
abbrev TxDelta := AList fun _ : SchemaAlkaneId => TokenDeltas

variable (d : TxDelta)

/-- The part of an owner. -/
def TxDelta.of (owner : SchemaAlkaneId) : TokenDeltas := (d.lookup owner).getD ∅

/-- What a transaction does to the balances of alkanes. -/
def TxDelta.changes (hash : HashOrder) (d : TxDelta) : List AlkaneChange :=
  (hash.run d.entries).flatMap fun e => (sortedDeltas e.2).map fun t => ⟨e.1, t.1, t.2⟩

/-- A transaction changes a balance of the owner, so the owner is in `holder_alkanes_changed`. -/
def TxDelta.changesHolder (owner : SchemaAlkaneId) : Bool :=
  (d.of owner).entries.any fun t => !t.2.isZero && decide (t.1 ≠ owner)

/-- A transaction moves a token of an owner. -/
def TxDelta.moves (owner token : SchemaAlkaneId) : Bool :=
  ((d.of owner).lookup token).any fun delta => !delta.isZero

/-- A transaction is in `alkane_balance_delta_src`: it is the last to move some token of the owner. -/
def isSource (later : List TxDelta) (owner : SchemaAlkaneId) : Bool :=
  (d.of owner).keys.any fun token => d.moves owner token && later.all fun d' => !d'.moves owner token

/-- `load_balance_txs_by_height` for an owner: its parts of the transactions in its log, in order. -/
def balanceTxsOf (owner : SchemaAlkaneId) : List TxDelta → List TokenDeltas
  | [] => []
  | d :: later =>
    if d.changesHolder owner || isSource d later owner then d.of owner :: balanceTxsOf owner later
    else balanceTxsOf owner later

variable (txs : List TxDelta)

/-- The owners that have a log, in order. -/
def balanceOwners : List SchemaAlkaneId :=
  ((txs.flatMap AList.keys).dedup.filter fun owner => !(balanceTxsOf owner txs).isEmpty).insertionSort (· ≤ ·)

/-! ## Pools -/

/-- `SchemaMarketDefs`. -/
structure SchemaMarketDefs where
  pool : SchemaAlkaneId
  base : SchemaAlkaneId
  quote : SchemaAlkaneId
  deriving DecidableEq

/-- `SchemaPoolSnapshot`. -/
structure SchemaPoolSnapshot where
  baseReserve : ℕ
  quoteReserve : ℕ
  baseId : SchemaAlkaneId
  quoteId : SchemaAlkaneId
  deriving DecidableEq

/-- A pool that a creation record or a trace gives, with its factory. -/
structure PoolCandidate where
  defs : SchemaMarketDefs
  factory : Option SchemaAlkaneId

/-- `cryptoswap_pools`; only the main network has one. -/
def cryptoswapPools (mainnet : Bool) : List SchemaMarketDefs :=
  if mainnet then [⟨⟨4, 1778⟩, ⟨32, 0⟩, ⟨4, 1776⟩⟩] else []

/-- What the AMM module takes from a block. -/
structure ReserveBlock where
  height : ℕ
  /-- `check_negative_balances` of the balances. -/
  check : Bool
  txs : List TxDelta
  hash : HashOrder
  mainnet : Bool
  ammFactories : List SchemaAlkaneId
  /-- The alkanes created in the block whose creation transaction defines a market. -/
  created : List PoolCandidate
  /-- The pools found in the traces of the block, in order. -/
  discovered : List PoolCandidate
  /-- `read_pool_state` finds an initialised pool. -/
  initialised : SchemaAlkaneId → Bool
  /-- `lookup_self_balance`. -/
  selfBalance : SchemaAlkaneId → Option ℕ

namespace ReserveBlock

/-- The block as the balances see it. -/
def alkaneBlock (b : ReserveBlock) : AlkaneBlock where
  check := b.check
  changes := b.txs.flatMap (TxDelta.changes b.hash)
  hash := b.hash

/-- The factory of a candidate is known. -/
def factoryOk (b : ReserveBlock) (c : PoolCandidate) : Bool := c.factory.any fun f => decide (f ∈ b.ammFactories)

end ReserveBlock

variable (store : AlkaneStore) (selfBalance : SchemaAlkaneId → Option ℕ)

/-- `get_alkane_balances`: what an alkane holds of itself comes from elsewhere. -/
def getAlkaneBalances (owner : SchemaAlkaneId) : TokenAmounts :=
  let agg := listedAmounts (store.at owner).rows (store.at owner).list.read
  match selfBalance owner with
  | none => agg
  | some amount => if amount = 0 then agg.erase owner else agg.insert owner amount

/-- The reserves of a pool from its balances. -/
def seedReserves (defs : SchemaMarketDefs) : SchemaPoolSnapshot :=
  let balances := getAlkaneBalances store selfBalance defs.pool
  { baseReserve := (balances.lookup defs.base).getD 0
    quoteReserve := ((balances.erase defs.base).lookup defs.quote).getD 0
    baseId := defs.base
    quoteId := defs.quote }

/-- `reserves_snapshot`. The pools of `pools_map` are its pools. -/
abbrev ReservesSnapshot := Table SchemaAlkaneId SchemaPoolSnapshot

variable (b : ReserveBlock) (snapshot : ReservesSnapshot)

/-- `bootstrap_pools_from_creation_records`, for one alkane. -/
def bootstrapPool (c : PoolCandidate) : ReservesSnapshot :=
  if (snapshot.get c.defs.pool).isSome then snapshot
  else if b.factoryOk c && decide (c.defs.base ≠ c.defs.quote) then
    snapshot.put c.defs.pool (seedReserves store b.selfBalance c.defs)
  else snapshot

/-- `bootstrap_pools_from_creation_records`. -/
def bootstrapPools : ReservesSnapshot :=
  if b.ammFactories.isEmpty then snapshot else b.created.foldl (bootstrapPool store b) snapshot

/-- `discover_new_pools`, for one pool; the pools seen before are kept. -/
def discoverPool (acc : ReservesSnapshot × List SchemaAlkaneId) (c : PoolCandidate) :
    ReservesSnapshot × List SchemaAlkaneId :=
  if c.defs.pool ∈ acc.2 then acc
  else
    let seen := c.defs.pool :: acc.2
    if (acc.1.get c.defs.pool).isSome then (acc.1, seen)
    else if b.factoryOk c then (acc.1.put c.defs.pool ⟨0, 0, c.defs.base, c.defs.quote⟩, seen)
    else (acc.1, seen)

/-- `discover_new_pools`. -/
def discoverNewPools : ReservesSnapshot :=
  (b.discovered.foldl (discoverPool b) (snapshot, [])).1

/-- `register_cryptoswap_pools`, for one pool. -/
def registerCryptoswapPool (defs : SchemaMarketDefs) : ReservesSnapshot :=
  if !b.initialised defs.pool then snapshot
  else if (snapshot.get defs.pool).isSome then snapshot
  else snapshot.put defs.pool (seedReserves store b.selfBalance defs)

/-- `register_cryptoswap_pools`. -/
def registerCryptoswapPools : ReservesSnapshot :=
  (cryptoswapPools b.mainnet).foldl (registerCryptoswapPool store b) snapshot

/-- The pools of a block, old and new, before its changes. -/
def registerPools : ReservesSnapshot :=
  registerCryptoswapPools store b (discoverNewPools b (bootstrapPools store b snapshot))

/-! ## Changes -/

/-- `signed_from_delta`: the casts to `i128` wrap. -/
def signedFromDelta : Option SignedU128 → ℤ
  | none => 0
  | some d =>
    let amount := Int.bmod d.amount (2 ^ 128)
    if d.isNegative then Int.bmod (-amount) (2 ^ 128) else amount

/-- `apply_delta_u128`. -/
def applyDeltaU128 (current : ℕ) (delta : ℤ) : ℕ :=
  if 0 ≤ delta then saturatingAdd current delta.toNat else current - delta.natAbs

lemma applyDeltaU128_eq {current : ℕ} {delta : ℤ} (hpos : 0 ≤ current + delta)
    (hmax : current + delta ≤ u128Max) : (applyDeltaU128 current delta : ℤ) = current + delta := by
  unfold applyDeltaU128 saturatingAdd
  split_ifs
  · omega
  · omega

/-- One transaction of the log. -/
def applyEntry (snapshot : SchemaPoolSnapshot) (outflow : TokenDeltas) : SchemaPoolSnapshot :=
  let baseDelta := signedFromDelta (outflow.lookup snapshot.baseId)
  let quoteDelta := signedFromDelta (outflow.lookup snapshot.quoteId)
  if baseDelta = 0 ∧ quoteDelta = 0 then snapshot
  else
    { snapshot with
      baseReserve := applyDeltaU128 snapshot.baseReserve baseDelta
      quoteReserve := applyDeltaU128 snapshot.quoteReserve quoteDelta }

/-- `process_balance_deltas`, for one owner of the log. -/
def processOwner (snapshot : ReservesSnapshot) (owner : SchemaAlkaneId) : ReservesSnapshot :=
  match snapshot.get owner with
  | none => snapshot
  | some s => snapshot.put owner ((balanceTxsOf owner txs).foldl applyEntry s)

/-- `process_balance_deltas`. -/
def processBalanceDeltas (snapshot : ReservesSnapshot) : ReservesSnapshot :=
  (balanceOwners txs).foldl (processOwner txs) snapshot

/-- The balances and the reserves. -/
structure ReserveState where
  alkanes : AlkaneStore
  snapshot : ReservesSnapshot

/-- A block. The balances are those after the block when the AMM module reads them. -/
def ReserveState.indexBlock (st : ReserveState) (b : ReserveBlock) : Option ReserveState :=
  (st.alkanes.indexBlock b.height b.alkaneBlock).map fun alkanes =>
    { alkanes := alkanes
      snapshot := processBalanceDeltas b.txs (registerPools alkanes b st.snapshot) }

/-- The state after some blocks; `none` is a run that panics. -/
def runReserves (blocks : List ReserveBlock) : Option ReserveState :=
  blocks.foldlM ReserveState.indexBlock ⟨∅, ∅⟩

end Espo.Ammdata
