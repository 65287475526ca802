import Espo.Lib.ChunkedList
import Espo.Lib.WriteQueue

/-!
# The rows of the runes namespace

The keys of the namespace and the type of the row under each. Keys that a counter numbers (sequence
numbers, pointers, chunks, history and volume lists) are slots of that counter. Balances, holders,
volumes and counters are numbers: the indexer treats them alike.

Blocks and transactions are given as far as the indexer looks at them: what the `bitcoin` and
`ordinals` crates make of a script or a transaction is a field of it, and a block carries the answers
that electrum, the node and the other namespaces give while it is indexed.
-/

namespace Espo.Runes
open Lib

/-- `SchemaRuneId`, ordered by block, then by transaction. -/
structure SchemaRuneId where
  block : ℕ
  tx : ℕ

instance : LinearOrder SchemaRuneId :=
  LinearOrder.lift' (fun id => toLex (id.block, id.tx)) fun a b h => by
    cases a
    simp_all

/-- `SchemaRuneTerms`. -/
structure SchemaRuneTerms where
  amount : Option ℕ
  cap : Option ℕ
  heightStart : Option ℕ
  heightEnd : Option ℕ
  offsetStart : Option ℕ
  offsetEnd : Option ℕ
  deriving DecidableEq

/-- `RuneEntry`. -/
structure RuneEntry (T : Type) where
  id : SchemaRuneId
  rune : ℕ
  name : String
  spacedName : String
  spacers : ℕ
  symbol : Option Char
  divisibility : ℕ
  premine : ℕ
  burned : ℕ
  mints : ℕ
  terms : Option SchemaRuneTerms
  etchingTxid : T
  number : ℕ
  timestamp : ℕ
  turbo : Bool

/-- `RuneBalance`. -/
structure RuneBalance where
  id : SchemaRuneId
  amount : ℕ
  deriving DecidableEq

/-- `OutpointRuneBalances`. -/
structure OutpointRuneBalances (A : Type) where
  address : Option A
  scriptPubkey : List UInt8
  balances : List RuneBalance

/-- `RuneIcon`. -/
structure RuneIcon where
  contentType : String
  contentEncoding : Option String
  body : List UInt8

/-- `TxRuneIo`; inputs and outputs in increasing order of their index. -/
structure TxRuneIo where
  inputs : List (ℕ × List RuneBalance)
  outputs : List (ℕ × List RuneBalance)
  burned : List RuneBalance
  minted : List RuneBalance
  etched : Option SchemaRuneId

/-- `RuneActivityKind`. -/
inductive RuneActivityKind where
  | etch
  | mint
  deriving DecidableEq

/-- `RuneMintActivity`. -/
structure RuneMintActivity (T A : Type) where
  id : SchemaRuneId
  txid : T
  chainTxids : List T
  cpfp : Bool
  height : ℕ
  txIndex : ℕ
  timestamp : ℕ
  amount : ℕ
  feePaidSats : ℕ
  mintPricePaidSats : ℕ
  mintPricePaidUsd : ℕ
  destination : Option A
  success : Bool

/-- `RuneActivity`. -/
structure RuneActivity (T A : Type) extends RuneMintActivity T A where
  kind : RuneActivityKind

/-- `RuneActivityScope`. -/
inductive RuneActivityScope where
  | all
  | market
  | mint
  | etch
  deriving DecidableEq

/-- `RuneActivitySortField`. -/
inductive RuneActivitySortField where
  | timestamp
  | amount
  deriving DecidableEq

/-- `RuneVolumeKind`. -/
inductive RuneVolumeKind where
  | transferVolume
  | totalReceived
  deriving DecidableEq

/-- `RuneTxPointerBlob`. -/
structure RuneTxPointerBlob (T : Type) where
  txid : T
  height : ℕ
  txIndex : ℕ
  io : TxRuneIo

/-- `ActionTxPointerBlob`. -/
structure ActionTxPointerBlob (T : Type) where
  txid : T
  height : ℕ
  txIndex : ℕ
  hasAlkane : Bool
  hasRune : Bool

/-- `RuneTxIndexKind`. -/
inductive RuneTxIndexKind where
  | block
  | address
  | actionBlock
  | actionAddress
  deriving DecidableEq

/-! ## Keys -/

/-- The lists of transaction pointers. -/
inductive TxList (A : Type) where
  | block (height : ℕ)
  | address (address : A)
  | actionBlock (height : ℕ)
  | actionAddress (address : A)
  deriving DecidableEq

/-- The kind under which the chunks of a list are stored. -/
def TxList.kind {A : Type} : TxList A → RuneTxIndexKind
  | .block _ => .block
  | .address _ => .address
  | .actionBlock _ => .actionBlock
  | .actionAddress _ => .actionAddress

/-- The counters: each numbers a family of keys. -/
inductive Counter (A : Type) where
  /-- `/rune/seq/count` -/
  | seq
  /-- `/tx_index/pointer/count` -/
  | txPointer
  /-- `/tx_index/actions/pointer/count` -/
  | actionPointer
  /-- `/tx_index/chunk_count/<kind>` -/
  | chunk (kind : RuneTxIndexKind)
  /-- `/address_balance_height_idx/v1/<address>/<id>/len` -/
  | history (address : A) (id : SchemaRuneId)
  /-- `/volume_idx/<kind>/<id>/len` -/
  | volume (kind : RuneVolumeKind) (id : SchemaRuneId)
  deriving DecidableEq

/-- The rows that a counter numbers. -/
def Counter.Item (T : Type) {A : Type} : Counter A → Type
  | .seq => SchemaRuneId
  | .txPointer => RuneTxPointerBlob T
  | .actionPointer => ActionTxPointerBlob T
  | .chunk _ => List ℕ
  | .history _ _ => ℕ
  | .volume _ _ => A

/-- The keys of the numbers that the indexer keeps in a cache. -/
inductive NumberKey (A : Type) where
  /-- `holder_key` -/
  | holder (id : SchemaRuneId) (address : A)
  /-- `holders_count_key` -/
  | holdersCount (id : SchemaRuneId)
  /-- `address_balance_key` -/
  | addressBalance (address : A) (id : SchemaRuneId)
  /-- `rune_volume_entry_key` -/
  | volume (kind : RuneVolumeKind) (id : SchemaRuneId) (address : A)
  /-- the key of a counter -/
  | count (counter : Counter A)
  deriving DecidableEq

/-- The three activity indexes. -/
inductive ActivityIndex (A : Type) where
  /-- `/activity/v2/<id>/` -/
  | rune (id : SchemaRuneId)
  /-- `/activity_address/v2/<address>/` -/
  | address (address : A)
  /-- `/activity_address_token/v2/<address>/<id>/` -/
  | addressToken (address : A) (id : SchemaRuneId)
  deriving DecidableEq

/-- The keys of the rows. -/
inductive RuneKey (T A : Type) where
  /-- `entry_key` -/
  | entry (id : SchemaRuneId)
  /-- `id_by_name_key` -/
  | idByName (name : String)
  /-- `id_by_rune_key` -/
  | idByRune (rune : ℕ)
  /-- `rune_icon_key` -/
  | icon (id : SchemaRuneId)
  /-- `outpoint_key` -/
  | outpoint (outpoint : T × ℕ)
  /-- `address_outpoint_key` -/
  | addressOutpoint (address : A) (outpoint : T × ℕ)
  /-- the key of a number -/
  | number (key : NumberKey A)
  /-- `address_balance_history_key` -/
  | balanceHistory (address : A) (id : SchemaRuneId) (height : ℕ)
  /-- `tx_io_key` -/
  | txIo (txid : T)
  /-- `rune_tx_block_list_key` and its siblings -/
  | txList (list : TxList A)
  /-- `mint_activity_key` -/
  | mintActivity (id : SchemaRuneId) (timestamp : ℕ) (txid : T) (ordinal : ℕ)
  /-- `rune_activity_index_key` and its siblings; `value` is what the index sorts by -/
  | activity (index : ActivityIndex A) (scope : RuneActivityScope) (sortBy : RuneActivitySortField)
    (value height txIndex : ℕ) (kind : RuneActivityKind) (txid : T)
  /-- `uncommon_goods_avg_price_usd_by_height_key` -/
  | blockPrice (height : ℕ)
  /-- a key that a counter numbers -/
  | slot (counter : Counter A) (index : ℕ)
  deriving DecidableEq

/-- The row under a key. -/
def RuneKey.Value {T A : Type} : RuneKey T A → Type
  | .entry _ => RuneEntry T
  | .idByName _ => SchemaRuneId
  | .idByRune _ => SchemaRuneId
  | .icon _ => RuneIcon
  | .outpoint _ => OutpointRuneBalances A
  | .addressOutpoint _ _ => Unit
  | .number _ => ℕ
  | .balanceHistory _ _ _ => ℕ
  | .txIo _ => TxRuneIo
  | .txList _ => ChunkedList ℕ
  | .mintActivity _ _ _ _ => RuneMintActivity T A
  | .activity _ _ _ _ _ _ _ _ => RuneActivity T A
  | .blockPrice _ => ℕ
  | .slot c _ => c.Item T

/-- `runes_put_key_requires_preimage`. The index keys of the history and volume lists are told from
their length keys by the last four bytes, which for one index read `/len`. -/
def RuneKey.requiresPreimage {T A : Type} : RuneKey T A → Bool
  | .number _ => true
  | .entry _ => true
  | .slot (.history _ _) index => index == 0x2f6c656e
  | .slot (.volume _ _) index => index == 0x2f6c656e
  | _ => false

/-- The rows of the namespace. -/
abbrev RuneRows (T A : Type) := Finmap (RuneKey.Value (T := T) (A := A))

/-- Point read. -/
abbrev RuneRows.get {T A : Type} [DecidableEq T] [DecidableEq A] (rows : RuneRows T A)
    (k : RuneKey T A) : Option k.Value :=
  rows.lookup k

/-- `get_rune`. -/
def RuneRows.entry {T A : Type} [DecidableEq T] [DecidableEq A] (rows : RuneRows T A)
    (id : SchemaRuneId) : Option (RuneEntry T) :=
  rows.get (.entry id)

/-- `get_outpoint_balances`. -/
def RuneRows.outpoint {T A : Type} [DecidableEq T] [DecidableEq A] (rows : RuneRows T A)
    (outpoint : T × ℕ) : Option (OutpointRuneBalances A) :=
  rows.get (.outpoint outpoint)

/-- The number under a key, zero when it has none. -/
def RuneRows.number {T A : Type} [DecidableEq T] [DecidableEq A] (rows : RuneRows T A)
    (k : NumberKey A) : ℕ :=
  (rows.get (.number k)).getD (0 : ℕ)

/-! ## Blocks -/

/-- An input. -/
structure TxIn (T : Type) where
  previousOutput : T × ℕ
  /-- `is_null`: the input of a coinbase. -/
  null : Bool
  /-- The data pushed by the tapscript, up to its first malformed instruction. -/
  tapscriptPushes : List (List UInt8)

/-- An output. -/
structure TxOut (A : Type) where
  value : ℕ
  scriptPubkey : List UInt8
  /-- `is_op_return` -/
  opReturn : Bool
  /-- The script starts with `OP_RETURN` and `OP_PUSHNUM_13`. -/
  runestoneCarrier : Bool
  /-- `script_to_address` -/
  address : Option A

/-- `ordinals::Etching`. -/
structure Etching where
  divisibility : Option ℕ
  premine : Option ℕ
  rune : Option ℕ
  spacers : Option ℕ
  symbol : Option Char
  terms : Option SchemaRuneTerms
  turbo : Bool

/-- `ordinals::Edict`. -/
structure Edict where
  id : SchemaRuneId
  amount : ℕ
  output : ℕ

/-- `ordinals::Runestone`. -/
structure Runestone where
  edicts : List Edict
  etching : Option Etching
  mint : Option SchemaRuneId
  pointer : Option ℕ

/-- `ordinals::Artifact`. -/
inductive Artifact where
  | runestone (stone : Runestone)
  | cenotaph (etching : Option ℕ) (mint : Option SchemaRuneId)

/-- `Artifact::mint`. -/
def Artifact.mint : Artifact → Option SchemaRuneId
  | .runestone stone => stone.mint
  | .cenotaph _ mint => mint

/-- A transaction. -/
structure RuneTx (T A : Type) where
  txid : T
  inputs : List (TxIn T)
  outputs : List (TxOut A)
  /-- `Runestone::decipher` -/
  artifact : Option Artifact
  /-- `rune_icon_from_etching_tx` -/
  icon : Option RuneIcon

/-- `TxOutputsAndBlock`: for each output whether its script pays to taproot, where it decodes. -/
structure TxOutputsAndBlock (H : Type) where
  taproot : List (Option Bool)
  blockhash : Option H

/-- A block with the answers of the services asked while it is indexed. -/
structure RuneBlock (T A H : Type) where
  height : ℕ
  time : ℕ
  hash : H
  txs : List (RuneTx T A)
  /-- `batch_transaction_get_raw` of electrum -/
  electrum : T → Option (RuneTx T A)
  /-- `tx_outputs_and_block` of the node -/
  txOutputsAndBlock : T → Option (TxOutputsAndBlock H)
  /-- `header_height` of the node -/
  headerHeight : H → Option ℕ
  /-- `btc_usd_price_at_height` -/
  btcUsdPrice : Option ℕ
  /-- The alkane transactions of the block, with their positions. -/
  alkaneBlockTxs : List (T × ℕ)

/-- The ids of the transactions of a block. -/
def RuneBlock.txids {T A H : Type} (b : RuneBlock T A H) : List T := b.txs.map RuneTx.txid

/-- What the `ordinals` crate says about rune names, and the configuration. -/
structure RunesEnv where
  /-- `runes_genesis_block` -/
  genesisHeight : ℕ
  /-- `get_address_index_chunk_size` -/
  chunkSize : ℕ
  /-- `Rune::minimum_at_height` -/
  minimumAtHeight : ℕ → ℕ
  /-- `Rune::is_reserved` -/
  isReserved : ℕ → Bool
  /-- `Rune::reserved` -/
  reserved : ℕ → ℕ → ℕ
  /-- `Runestone::COMMIT_CONFIRMATIONS` -/
  commitConfirmations : ℕ
  /-- `Rune::commitment` -/
  commitment : ℕ → List UInt8
  /-- `Rune::to_string` -/
  runeName : ℕ → String
  /-- `SpacedRune::to_string` -/
  spacedName : ℕ → ℕ → String
  /-- `Rune::from_str("UNCOMMONGOODS")` -/
  uncommonGoods : ℕ
  /-- The rune a name spells. -/
  runeOf : String → ℕ
  runeOf_runeName : ∀ rune, runeOf (runeName rune) = rune
  runeOf_spacedName : ∀ rune spacers, runeOf (spacedName rune spacers) = rune
  isReserved_reserved : ∀ block tx, isReserved (reserved block tx) = true
  reserved_inj : ∀ {block tx block' tx'}, reserved block tx = reserved block' tx' →
    block = block' ∧ tx = tx'
  isReserved_uncommonGoods : isReserved uncommonGoods = false

/-- An environment with names in unary and the odd runes reserved. -/
def RunesEnv.unary (genesisHeight : ℕ) : RunesEnv where
  genesisHeight := genesisHeight
  chunkSize := 4
  minimumAtHeight _ := 0
  isReserved rune := rune % 2 == 1
  reserved block tx := 2 * Nat.pair block tx + 1
  commitConfirmations := 6
  commitment _ := []
  runeName rune := String.ofList (List.replicate rune 'A')
  spacedName rune _ := String.ofList (List.replicate rune 'A')
  uncommonGoods := 0
  runeOf name := name.length
  runeOf_runeName _ := by simp
  runeOf_spacedName _ _ := by simp
  isReserved_reserved _ _ := by simp [Nat.add_mod]
  reserved_inj h := Nat.pair_eq_pair.1 (by omega)
  isReserved_uncommonGoods := rfl

/-- A block with one transaction, which etches a rune without a name. -/
def etchingBlock (height txid : ℕ) (premine : ℕ) : RuneBlock ℕ ℕ ℕ where
  height := height
  time := 0
  hash := height
  txs := [
    { txid := txid
      inputs := []
      outputs := [⟨0, [], true, true, none⟩, ⟨546, [], false, false, some 7⟩]
      artifact := some (.runestone
        ⟨[], some ⟨none, some premine, none, none, none, none, false⟩, none, none⟩)
      icon := none }]
  electrum _ := none
  txOutputsAndBlock _ := none
  headerHeight _ := none
  btcUsdPrice := none
  alkaneBlockTxs := []

end Espo.Runes
