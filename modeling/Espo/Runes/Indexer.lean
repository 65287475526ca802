import Espo.Essentials.Balances
import Espo.Runes.Journal
import Espo.Runes.Transfer

/-!
# Indexing the runes of a block

`BlockRunesIndexer` goes through the transactions of a block with caches of what it has read and
written, and collects one batch of writes.

The set of live outpoints is an option of the module: with it, an input is looked up in the set
first; without it, in the database and a cache.
-/

namespace Espo.Runes
open Lib

/-! ## Arithmetic -/

/-- `amount as i128`. -/
def asI128 (n : ℕ) : ℤ := if n < 2 ^ 127 then n else (n : ℤ) - 2 ^ 128

/-- Negation of an `i128`: the least value is its own negative. -/
def negI128 (z : ℤ) : ℤ := if z = -2 ^ 127 then z else -z

/-- A balance after a change, saturating at both ends. -/
def applyDelta (prev : ℕ) (delta : ℤ) : ℕ :=
  if delta < 0 then prev - delta.natAbs else Essentials.saturatingAdd prev delta.toNat

/-- `U256` multiplication and addition saturate. -/
def saturateU256 (n : ℕ) : ℕ := min n (2 ^ 256 - 1)

/-- `PRICE_SCALE`. -/
def priceScale : ℕ := 10_000_000_000_000_000

/-- `SATS_PER_BTC`. -/
def satsPerBtc : ℕ := 100_000_000

/-- `scale_rune_fee_price_sats`. -/
def scaleRuneFeePriceSats (feePaidSats mintedAmount divisibility : ℕ) : ℕ :=
  if feePaidSats = 0 ∨ mintedAmount = 0 then 0
  else
    let unitScale := saturateU256 (10 ^ divisibility)
    saturateU256 (saturateU256 (feePaidSats * unitScale) * priceScale) / mintedAmount

/-- `scale_rune_fee_price_usd`. -/
def scaleRuneFeePriceUsd (mintPricePaidSats : ℕ) (btcPriceUsdScaled : Option ℕ) : ℕ :=
  match btcPriceUsdScaled with
  | none => 0
  | some price =>
    if mintPricePaidSats = 0 then 0
    else saturateU256 (mintPricePaidSats * price) / (priceScale * satsPerBtc)

/-! ## Entries -/

/-- `GENESIS_RUNE_ID`. -/
def genesisRuneId : SchemaRuneId := ⟨1, 0⟩

namespace RuneEntry
variable {T : Type} (e : RuneEntry T)

/-- A height relative to the block of the rune, by `saturating_add`. -/
def relativeHeight (offset : ℕ) : ℕ := min (e.id.block + offset) (2 ^ 64 - 1)

/-- The later of two lower bounds, or the only one. -/
def startHeight : Option ℕ :=
  e.terms.bind fun terms =>
    let relative := terms.offsetStart.map e.relativeHeight
    match relative, terms.heightStart with
    | some a, some b => some (max a b)
    | some a, none => some a
    | none, absolute => absolute

/-- The earlier of two upper bounds, or the only one. -/
def endHeight : Option ℕ :=
  e.terms.bind fun terms =>
    let relative := terms.offsetEnd.map e.relativeHeight
    match relative, terms.heightEnd with
    | some a, some b => some (min a b)
    | some a, none => some a
    | none, absolute => absolute

/-- `mintable`. -/
def mintable (height txIndex : ℕ) : Option ℕ :=
  match e.terms with
  | none => none
  | some terms =>
    match terms.amount with
    | none => none
    | some amount =>
      let creationHeight := if e.id = genesisRuneId then 840_000 else e.id.block
      if height = creationHeight ∧ txIndex = e.id.tx then none
      else if e.startHeight.any fun start => height < start then none
      else if e.endHeight.any fun stop => stop < height then none
      else if terms.cap.getD 0 ≤ e.mints then none
      else some amount

/-- The amount of one mint. -/
def mintAmount : ℕ := (e.terms.bind SchemaRuneTerms.amount).getD 0

/-- `supply`, computed in `u128`. -/
def supply : ℕ := (e.premine + e.mints * e.mintAmount) % u128Size

end RuneEntry

/-- `make_entry`. -/
def makeEntry {T : Type} (env : RunesEnv) (id : SchemaRuneId) (rune spacers : ℕ)
    (symbol : Option Char) (divisibility premine : ℕ) (terms : Option SchemaRuneTerms)
    (etchingTxid : T) (number timestamp : ℕ) (turbo : Bool) : RuneEntry T where
  id := id
  rune := rune
  name := env.runeName rune
  spacedName := env.spacedName rune spacers
  spacers := spacers
  symbol := some (symbol.getD '¤')
  divisibility := divisibility
  premine := premine
  burned := 0
  mints := 0
  terms := terms
  etchingTxid := etchingTxid
  number := number
  timestamp := timestamp
  turbo := turbo

/-! ## Transactions -/

namespace RuneTx
variable {T A : Type}

/-- `tx_has_runestone_carrier`. -/
def hasRunestoneCarrier (tx : RuneTx T A) : Bool := tx.outputs.any TxOut.runestoneCarrier

end RuneTx

namespace RuneBlock
variable {T A H : Type} [DecidableEq T] (b : RuneBlock T A H)

/-- A previous transaction: `block_tx_map`, then what electrum returned. Electrum was asked for all
previous transactions that are looked up. -/
def prevTx (txid : T) : Option (RuneTx T A) :=
  (b.txs.reverse.find? fun tx => tx.txid = txid).or (b.electrum txid)

/-- The output an input spends. -/
def prevOut (outpoint : T × ℕ) : Option (TxOut A) :=
  (b.prevTx outpoint.1).bind fun tx => tx.outputs[outpoint.2]?

/-- `compute_tx_fee_sats`: zero when a previous output is not known. -/
def computeTxFeeSats (tx : RuneTx T A) : ℕ :=
  let spending := tx.inputs.filter fun input => !input.null
  match spending.mapM fun input => b.prevOut input.previousOutput with
  | none => 0
  | some outs =>
    outs.foldl (fun acc out => Essentials.saturatingAdd acc out.value) 0 -
      tx.outputs.foldl (fun acc out => Essentials.saturatingAdd acc out.value) 0

/-- `bitcoin_addresses_for_tx`. -/
def bitcoinAddressesForTx [DecidableEq A] (b : RuneBlock T A H) (tx : RuneTx T A) : List A :=
  let received := (tx.outputs.filter fun out => !out.opReturn).filterMap TxOut.address
  let spent := (tx.inputs.filter fun input => !input.null).filterMap fun input =>
    (b.prevOut input.previousOutput).bind TxOut.address
  (received ++ spent).dedup

/-- `commitment_input_is_mature`. -/
def commitmentInputIsMature (env : RunesEnv) (b : RuneBlock T A H) (outpoint : T × ℕ) : Bool :=
  match b.txOutputsAndBlock outpoint.1 with
  | none => false
  | some info =>
    match info.taproot[outpoint.2]? with
    | some (some true) =>
      match info.blockhash.bind b.headerHeight with
      | none => false
      | some commitHeight =>
        decide (commitHeight < 2 ^ 32 ∧ env.commitConfirmations ≤ b.height - commitHeight + 1)
    | _ => false

/-- `tx_commits_to_rune`. -/
def txCommitsToRune (env : RunesEnv) (b : RuneBlock T A H) (tx : RuneTx T A) (rune : ℕ) : Bool :=
  tx.inputs.any fun input =>
    input.tapscriptPushes.contains (env.commitment rune) &&
      b.commitmentInputIsMature env input.previousOutput

end RuneBlock

/-! ## The indexer's state -/

/-- `ActionCandidate`. -/
structure ActionCandidate (A : Type) where
  txIndex : ℕ
  hasAlkane : Bool
  hasRune : Bool
  addresses : List A

/-- `live_outpoints` and `live_outpoint_cache`. -/
structure LiveOutpoints (T A : Type) where
  set : Option (Finset (T × ℕ))
  cache : Table (T × ℕ) (Option (OutpointRuneBalances A))

/-- The rest of `BlockRunesIndexer`. `numbers` holds what is cached of the numbers, by their keys
(`address_balance_cache`, `holder_balance_cache`, `holder_count_cache`, `volume_cache`,
`volume_len_cache`, `next_seq` and the other next ids); `writes` holds `puts`, `deletes` and
`preimage_values`; `overflow` tells whether a `u128` addition has wrapped around. -/
structure BlockRunesIndexer (T A : Type) where
  ephem : Table (T × ℕ) (OutpointRuneBalances A)
  entries : Table SchemaRuneId (RuneEntry T)
  runeToId : Table ℕ SchemaRuneId
  numbers : Table (NumberKey A) ℕ
  addressBalanceHistoryTouched : Finset (A × SchemaRuneId)
  blockTxPointerIds : List ℕ
  addressTxPointerIds : Table A (List ℕ)
  actionBlockPointerIds : List ℕ
  actionAddressPointerIds : Table A (List ℕ)
  actionCandidates : Table T (ActionCandidate A)
  uncommonGoodsUsdWeightedSum : ℕ
  uncommonGoodsAmountSum : ℕ
  writes : WriteQueue (RuneKey.Value (T := T) (A := A))
  overflow : Bool

/-- `balances_from_sheet`. -/
def balancesFromSheet (sheet : RuneSheet SchemaRuneId) : List RuneBalance :=
  (sheet.toList.filter fun e => 0 < e.2).map fun e => ⟨e.1, e.2⟩

/-! ## The set of live outpoints -/

namespace LiveOutpoints
variable {T A : Type} [LinearOrder T] [LinearOrder A] (live : LiveOutpoints T A)

/-- `live_outpoints_contains`. -/
def contains (outpoint : T × ℕ) : Bool :=
  live.set.any fun set => outpoint ∈ set

/-- `insert_live_outpoint`. -/
def insert (outpoint : T × ℕ) : LiveOutpoints T A where
  set := live.set.map fun set => Insert.insert outpoint set
  cache := live.cache.delete outpoint

/-- `remove_live_outpoint`. -/
def remove (outpoint : T × ℕ) : LiveOutpoints T A where
  set := live.set.map fun set => set.erase outpoint
  cache := live.cache.delete outpoint

variable (db : RuneRows T A)

/-- `get_point_lookup_outpoint`. -/
def getPointLookupOutpoint (outpoint : T × ℕ) :
    Option (OutpointRuneBalances A) × LiveOutpoints T A :=
  match live.cache.get outpoint with
  | some row => (row, live)
  | none =>
    let row := db.outpoint outpoint
    (row, { live with cache := live.cache.put outpoint row })

/-- `take_point_lookup_outpoint`. -/
def takePointLookupOutpoint (outpoint : T × ℕ) :
    Option (OutpointRuneBalances A) × LiveOutpoints T A :=
  match live.cache.get outpoint with
  | some row => (row, { live with cache := live.cache.delete outpoint })
  | none => (db.outpoint outpoint, live)

/-- `has_rune_outpoint`. -/
def hasRuneOutpoint (ephem : Table (T × ℕ) (OutpointRuneBalances A)) (live : LiveOutpoints T A)
    (outpoint : T × ℕ) : Bool × LiveOutpoints T A :=
  if (ephem.get outpoint).isSome || live.contains outpoint then (true, live)
  else if live.set.isSome then (false, live)
  else
    let looked := live.getPointLookupOutpoint db outpoint
    (looked.1.isSome, looked.2)

/-- The loop of `index_tx` that looks for a rune outpoint on the inputs. -/
def hasRuneInput (ephem : Table (T × ℕ) (OutpointRuneBalances A)) :
    LiveOutpoints T A → List (TxIn T) → Bool × LiveOutpoints T A
  | live, [] => (false, live)
  | live, input :: inputs =>
    let found := live.hasRuneOutpoint db ephem input.previousOutput
    if found.1 then (true, found.2) else hasRuneInput ephem found.2 inputs

/-- Where `unallocated` finds the row an input spends, and what the database held of it: the rows of
the block itself, then the set with the database, or the database alone. -/
def takeOutpoint (ephem : Table (T × ℕ) (OutpointRuneBalances A)) (live : LiveOutpoints T A)
    (outpoint : T × ℕ) :
    Option (OutpointRuneBalances A × Option (OutpointRuneBalances A)) × LiveOutpoints T A :=
  match ephem.get outpoint with
  | some row => (some (row, none), live)
  | none =>
    match live.set with
    | some set =>
      if outpoint ∈ set then ((db.outpoint outpoint).map fun row => (row, some row), live)
      else (none, live)
    | none =>
      let taken := live.takePointLookupOutpoint db outpoint
      (taken.1.map fun row => (row, some row), taken.2)

end LiveOutpoints

namespace BlockRunesIndexer
variable {T A H : Type} [LinearOrder T] [LinearOrder A]

/-- `BlockRunesIndexer::new`. -/
def new : BlockRunesIndexer T A where
  ephem := ∅
  entries := ∅
  runeToId := ∅
  numbers := ∅
  addressBalanceHistoryTouched := ∅
  blockTxPointerIds := []
  addressTxPointerIds := ∅
  actionBlockPointerIds := []
  actionAddressPointerIds := ∅
  actionCandidates := ∅
  uncommonGoodsUsdWeightedSum := 0
  uncommonGoodsAmountSum := 0
  writes := .empty
  overflow := false

/-! ## Writes -/

variable (ix : BlockRunesIndexer T A) (k : RuneKey T A)

/-- `self.puts.push`. -/
def push (v : k.Value) : BlockRunesIndexer T A :=
  { ix with writes := ix.writes.push k v }

/-- `queue_put`. -/
def queuePut (v : k.Value) : BlockRunesIndexer T A :=
  { ix with writes := ix.writes.queuePut k v }

/-- `queue_delete`. -/
def queueDelete : BlockRunesIndexer T A :=
  { ix with writes := ix.writes.queueDelete k }

/-- `self.preimage_values.entry(key).or_insert(raw)`. -/
def remember (raw : Option k.Value) : BlockRunesIndexer T A :=
  { ix with writes := ix.writes.remember k raw }

/-- Put a number into the cache. -/
def cacheNumber (k : NumberKey A) (n : ℕ) : BlockRunesIndexer T A :=
  { ix with numbers := ix.numbers.put k n }

section Functions
variable (db : RuneRows T A)

/-! ## Numbers -/

variable (ix : BlockRunesIndexer T A)

/-- A number: the cached one, or the stored one, which is then cached and remembered. -/
def loadNumber (k : NumberKey A) : ℕ × BlockRunesIndexer T A :=
  match ix.numbers.get k with
  | some n => (n, ix)
  | none =>
    (db.number k, (ix.remember (.number k) (db.get (.number k))).cacheNumber k (db.number k))

/-- `next_sequence`, `next_tx_pointer_id` and `next_action_pointer_id`. -/
def nextId (c : Counter A) : ℕ × BlockRunesIndexer T A :=
  let loaded := ix.loadNumber db (.count c)
  let next := loaded.1 + 1
  (loaded.1, (loaded.2.cacheNumber (.count c) next).push (.number (.count c)) next)

/-- `next_sequence`. -/
def nextSequence : ℕ × BlockRunesIndexer T A := ix.nextId db .seq

/-- `next_tx_pointer_id`. -/
def nextTxPointerId : ℕ × BlockRunesIndexer T A :=
  ix.nextId db .txPointer

/-- `next_action_pointer_id`. -/
def nextActionPointerId : ℕ × BlockRunesIndexer T A :=
  ix.nextId db .actionPointer

/-- One of the two amounts of `apply_address_delta`: what it was, and what it becomes; a row that
becomes zero is deleted. -/
def changeAmount (k : NumberKey A) (delta : ℤ) : (ℕ × ℕ) × BlockRunesIndexer T A :=
  let loaded := ix.loadNumber db k
  let next := applyDelta loaded.1 delta
  let ix := loaded.2.cacheNumber k next
  ((loaded.1, next), if next = 0 then ix.queueDelete (.number k) else ix.queuePut (.number k) next)

/-- The last part of `apply_address_delta`: an address that starts or stops to hold the rune. -/
def countHolders (id : SchemaRuneId) (hprev hnext : ℕ) : BlockRunesIndexer T A :=
  let loaded := ix.loadNumber db (.holdersCount id)
  let next :=
    if hprev = 0 ∧ hnext ≠ 0 then loaded.1 + 1
    else if hprev ≠ 0 ∧ hnext = 0 then loaded.1 - 1
    else loaded.1
  if next ≠ loaded.1 then
    (loaded.2.cacheNumber (.holdersCount id) next).queuePut (.number (.holdersCount id)) next
  else loaded.2

/-- `apply_address_delta`. -/
def applyAddressDelta (address : A) (id : SchemaRuneId) (delta : ℤ) : BlockRunesIndexer T A :=
  let balance := ix.changeAmount db (.addressBalance address id) delta
  let ix := { balance.2 with
    addressBalanceHistoryTouched := insert (address, id) balance.2.addressBalanceHistoryTouched }
  let holder := ix.changeAmount db (.holder id address) delta
  holder.2.countHolders db id holder.1.1 holder.1.2

/-- The end of `apply_volume_delta`: a new row is added to the list of its rune. -/
def listVolume (kind : RuneVolumeKind) (id : SchemaRuneId) (address : A) : BlockRunesIndexer T A :=
  let len := ix.loadNumber db (.count (.volume kind id))
  let ix := len.2.queuePut (.slot (.volume kind id) len.1) address
  let next := len.1 + 1
  (ix.cacheNumber (.count (.volume kind id)) next).queuePut (.number (.count (.volume kind id))) next

/-- `apply_volume_delta`. -/
def applyVolumeDelta (kind : RuneVolumeKind) (id : SchemaRuneId) (address : A) (delta : ℕ) :
    BlockRunesIndexer T A :=
  if delta = 0 then ix
  else
    let k : NumberKey A := .volume kind id address
    let hadRow := (ix.numbers.get k).isSome || (db.get (.number k)).isSome
    let prev := ix.loadNumber db k
    let next := Essentials.saturatingAdd prev.1 delta
    let ix := (prev.2.cacheNumber k next).queuePut (.number k) next
    if hadRow then ix else ix.listVolume db kind id address

/-! ## Entries -/

/-- `load_entry`. -/
def loadEntry (id : SchemaRuneId) : Option (RuneEntry T) × BlockRunesIndexer T A :=
  match ix.entries.get id with
  | some entry => (some entry, ix)
  | none =>
    match db.entry id with
    | none => (none, ix)
    | some entry =>
      (some entry,
        { ix with
          entries := ix.entries.put id entry
          runeToId := ix.runeToId.put entry.rune id })

/-- `store_entry`. -/
def storeEntry (entry : RuneEntry T) : BlockRunesIndexer T A :=
  { ix with entries := ix.entries.put entry.id entry }.push (.entry entry.id) entry

/-- `rune_exists`. -/
def runeExists (rune : ℕ) : Bool :=
  (ix.runeToId.get rune).isSome || (db.get (.idByRune rune)).isSome

/-- `mint`. -/
def mint (height : ℕ) (id : SchemaRuneId) (txIndex : ℕ) : Option ℕ × BlockRunesIndexer T A :=
  let loaded := ix.loadEntry db id
  match loaded.1 with
  | none => (none, loaded.2)
  | some entry =>
    match entry.mintable height txIndex with
    | none => (none, loaded.2)
    | some amount =>
      (some amount,
        loaded.2.storeEntry { entry with mints := Essentials.saturatingAdd entry.mints 1 })

/-- Add to the burned amount of an entry. -/
def burn (balance : RuneBalance) : BlockRunesIndexer T A :=
  let loaded := ix.loadEntry db balance.id
  match loaded.1 with
  | none => loaded.2
  | some entry =>
    loaded.2.storeEntry
      { entry with burned := Essentials.saturatingAdd entry.burned balance.amount }

/-- The rows that name a new rune. -/
def nameRune (entry : RuneEntry T) : BlockRunesIndexer T A :=
  let ix := ix.storeEntry entry
  let ix := { ix with runeToId := ix.runeToId.put entry.rune entry.id }
  let ix := ix.push (.idByRune entry.rune) entry.id
  let ix := ix.push (.idByName entry.name) entry.id
  let ix := ix.push (.idByName entry.spacedName) entry.id
  ix.push (.slot .seq entry.number) entry.id

variable (env : RunesEnv) (b : RuneBlock T A H)

/-- The terms of the genesis rune. -/
def genesisTerms : SchemaRuneTerms where
  amount := some 1
  cap := some Essentials.u128Max
  heightStart := some env.genesisHeight
  heightEnd := some (env.genesisHeight + 210_000)
  offsetStart := none
  offsetEnd := none

variable (ix : BlockRunesIndexer T A)

/-- `ensure_genesis_rune`. -/
def ensureGenesisRune (txid : T) : BlockRunesIndexer T A :=
  let loaded := ix.loadEntry db genesisRuneId
  match loaded.1 with
  | some _ => loaded.2
  | none =>
    let seq := loaded.2.nextSequence db
    seq.2.nameRune (makeEntry env genesisRuneId env.uncommonGoods 128 (some '⧉') 0 0
      (some (genesisTerms env)) txid seq.1 b.time true)

/-- `etched`: the id, the rune and the etching. -/
def etched (txIndex : ℕ) (tx : RuneTx T A) (artifact : Artifact) :
    Option (SchemaRuneId × ℕ × Option Etching) :=
  let named := match artifact with
    | .runestone stone => stone.etching.map Etching.rune
    | .cenotaph etching _ => etching.map some
  let etching := match artifact with
    | .runestone stone => stone.etching
    | .cenotaph _ _ => none
  match named with
  | none => none
  | some none => some (⟨b.height, txIndex⟩, env.reserved b.height txIndex, etching)
  | some (some rune) =>
    if rune < env.minimumAtHeight b.height || env.isReserved rune || ix.runeExists db rune ||
        !b.txCommitsToRune env tx rune then none
    else some (⟨b.height, txIndex⟩, rune, etching)

/-- The entry of a new rune; the default etching has no field set. -/
def newEntry (id : SchemaRuneId) (rune : ℕ) (txid : T) (etching : Option Etching)
    (artifact : Artifact) (number : ℕ) : RuneEntry T :=
  match artifact with
  | .cenotaph _ _ => makeEntry env id rune 0 none 0 0 none txid number b.time false
  | .runestone _ =>
    let e := etching.getD ⟨none, none, none, none, none, none, false⟩
    makeEntry env id rune (e.spacers.getD 0) e.symbol (e.divisibility.getD 0) (e.premine.getD 0)
      e.terms txid number b.time e.turbo

/-- `create_rune_entry`. -/
def createRuneEntry (id : SchemaRuneId) (rune : ℕ) (tx : RuneTx T A) (etching : Option Etching)
    (artifact : Artifact) : BlockRunesIndexer T A :=
  let seq := ix.nextSequence db
  let ix := seq.2.nameRune (newEntry env b id rune tx.txid etching artifact seq.1)
  match tx.icon with
  | none => ix
  | some icon => ix.push (.icon id) icon

end Functions

end BlockRunesIndexer

end Espo.Runes
