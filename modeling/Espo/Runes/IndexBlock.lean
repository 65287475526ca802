import Espo.Runes.IndexTx

/-!
# Indexing a block

The transactions of a block one after the other, then what is collected over the block: the history
of the balances it touched, the pointers of its rune and alkane transactions, and the price of the
genesis rune. Everything goes into one batch with its undo record.
-/

namespace Espo.Runes
open Lib

namespace BlockRunesIndexer
variable {T A H : Type} [LinearOrder T] [LinearOrder A]

section Functions
variable (db : RuneRows T A) (b : RuneBlock T A H)

/-! ## Balance history -/

/-- One turn of `flush_address_balance_history`. The length is read from the database: an address and
a rune are touched once. -/
def flushBalance (ix : BlockRunesIndexer T A) (touched : A × SchemaRuneId) : BlockRunesIndexer T A :=
  let address := touched.1
  let id := touched.2
  let amount := (ix.numbers.get (.addressBalance address id)).getD 0
  let len : NumberKey A := .count (.history address id)
  let ix := ix.queuePut (.balanceHistory address id b.height) amount
  let ix := ix.remember (.number len) (db.get (.number len))
  let ix := ix.queuePut (.slot (.history address id) (db.number len)) b.height
  ix.queuePut (.number len) (db.number len + 1 : ℕ)

/-- `flush_address_balance_history`. -/
def flushAddressBalanceHistory (ix : BlockRunesIndexer T A) : BlockRunesIndexer T A :=
  let touched := (ix.addressBalanceHistoryTouched.map toLex.toEmbedding).sort (· ≤ ·)
  (touched.map ofLex).foldl (flushBalance db b) { ix with addressBalanceHistoryTouched := ∅ }

/-! ## Lists of pointers -/

variable (env : RunesEnv) (kind : RuneTxIndexKind)

/-- Store chunks. -/
def pushChunks (ix : BlockRunesIndexer T A) (chunks : List (ℕ × List ℕ)) : BlockRunesIndexer T A :=
  chunks.foldl (fun ix chunk => ix.push (.slot (.chunk kind) chunk.1) chunk.2) ix

/-- Rewrite the last chunk with as much as fits; returns what is left. -/
def fillLastChunk (ix : BlockRunesIndexer T A) (chunkIds : List ℕ) (len size : ℕ) (values : List ℕ) :
    List ℕ × BlockRunesIndexer T A :=
  match chunkIds.getLast? with
  | none => (values, ix)
  | some last =>
    if len % size = 0 then (values, ix)
    else
      let key : RuneKey T A := .slot (.chunk kind) last
      let raw : Option (List ℕ) := db.get (.slot (.chunk kind) last)
      let lastItems := (raw.getD []).take size
      let take := min (size - lastItems.length) values.length
      if 0 < take then
        (values.drop take,
          (ix.remember key raw).push (.slot (.chunk kind) last) (lastItems ++ values.take take))
      else (values, ix)

/-- The list after an append, the next chunk id and the chunks. -/
def appendToList (nextChunkId : ℕ) (ix : BlockRunesIndexer T A) (current : ChunkedList ℕ)
    (values : List ℕ) : ChunkedList ℕ × ℕ × BlockRunesIndexer T A :=
  match current with
  | .inline items =>
    if items.length + values.length ≤ 8 then (.inline (items ++ values), nextChunkId, ix)
    else
      let size := max env.chunkSize 1
      let fresh := ChunkedList.allocate size nextChunkId (items ++ values)
      (.external (fresh.map Prod.fst) (items ++ values).length size, nextChunkId + fresh.length,
        pushChunks kind ix fresh)
  | .external chunkIds len chunkSize =>
    let size := max chunkSize 1
    let filled := fillLastChunk db kind ix chunkIds len size values
    let fresh := ChunkedList.allocate size nextChunkId filled.1
    (.external (chunkIds ++ fresh.map Prod.fst) (len + values.length) size,
      nextChunkId + fresh.length, pushChunks kind filled.2 fresh)

/-- `append_rune_tx_index_values`; `TX_INDEX_INLINE_CAP` is 8. -/
def appendRuneTxIndexValues (st : ℕ × BlockRunesIndexer T A) (append : TxList A × List ℕ) :
    ℕ × BlockRunesIndexer T A :=
  if append.2 = [] then st
  else
    let key : RuneKey T A := .txList append.1
    let current : Option (ChunkedList ℕ) := db.get (.txList append.1)
    let ix := match current with
      | none => st.2
      | some list => st.2.remember key (some list)
    let appended := appendToList db env append.1.kind st.1 ix (current.getD (.inline [])) append.2
    (appended.2.1, appended.2.2.push (.txList append.1) appended.1)

/-- Append to lists of one kind; the next chunk id is stored at the end. -/
def appendLists (ix : BlockRunesIndexer T A) (appends : List (TxList A × List ℕ)) :
    BlockRunesIndexer T A :=
  let next := ix.loadNumber db (.count (.chunk kind))
  let appended := appends.foldl (appendRuneTxIndexValues db env) next
  (appended.2.cacheNumber (.count (.chunk kind)) appended.1).push (.number (.count (.chunk kind)))
    appended.1

/-- The lists of the addresses that were given pointers, in the order of the addresses. -/
def addressAppends (list : A → TxList A) (ids : Table A (List ℕ)) : List (TxList A × List ℕ) :=
  (ids.keys.sort (· ≤ ·)).map fun address => (list address, (ids.get address).getD [])

/-! ## Actions -/

variable (ix : BlockRunesIndexer T A)

/-- `collect_alkane_action_candidates`: mark the alkane transactions. -/
def markAlkane (tx : T × ℕ) : BlockRunesIndexer T A :=
  { ix with
    actionCandidates := ix.actionCandidates.put tx.1
      { ix.candidate tx.1 tx.2 with hasAlkane := true } }

/-- The second loop of `collect_alkane_action_candidates`. -/
def addAlkaneAddresses (tx : T × ℕ) : BlockRunesIndexer T A :=
  match b.txs.reverse.find? fun t => t.txid = tx.1, ix.actionCandidates.get tx.1 with
  | some t, some candidate =>
    { ix with
      actionCandidates := ix.actionCandidates.put tx.1
        { candidate with addresses := candidate.addresses ∪ b.bitcoinAddressesForTx t } }
  | _, _ => ix

/-- `collect_alkane_action_candidates`. -/
def collectAlkaneActionCandidates : BlockRunesIndexer T A :=
  b.alkaneBlockTxs.foldl (addAlkaneAddresses b) (b.alkaneBlockTxs.foldl markAlkane ix)

/-- The candidates in the order of their position, then of their id. -/
def sortedCandidates : List (T × ActionCandidate A) :=
  let position := fun txid => ((ix.actionCandidates.get txid).map ActionCandidate.txIndex).getD 0
  let sorted := (ix.actionCandidates.keys.image fun txid => toLex (position txid, txid)).sort (· ≤ ·)
  sorted.filterMap fun e =>
    (ix.actionCandidates.get (ofLex e).2).map fun candidate => ((ofLex e).2, candidate)

/-- The pointer of a candidate, for the block and for its addresses. -/
def pointToAction (e : T × ActionCandidate A) : BlockRunesIndexer T A :=
  if !e.2.hasAlkane && !e.2.hasRune then ix
  else
    let pointer := ix.nextActionPointerId db
    let ix := pointer.2.push (.slot .actionPointer pointer.1)
      (⟨e.1, b.height, e.2.txIndex, e.2.hasAlkane, e.2.hasRune⟩)
    { ix with
      actionBlockPointerIds := ix.actionBlockPointerIds ++ [pointer.1]
      actionAddressPointerIds := e.2.addresses.foldl (fun ids address =>
        ids.put address ((ids.get address).getD [] ++ [pointer.1])) ix.actionAddressPointerIds }

/-- Append to the list of the block and to the lists of addresses, where there is something. -/
def flushPointers (blockKind addressKind : RuneTxIndexKind) (blockList : TxList A)
    (blockIds : List ℕ) (addressList : A → TxList A) (addressIds : Table A (List ℕ)) :
    BlockRunesIndexer T A :=
  let ix := if blockIds = [] then ix else ix.appendLists db env blockKind [(blockList, blockIds)]
  let appends := addressAppends addressList addressIds
  if appends = [] then ix else ix.appendLists db env addressKind appends

/-- `flush_action_tx_indexes`. -/
def flushActionTxIndexes : BlockRunesIndexer T A :=
  let candidates := ix.sortedCandidates
  let ix := candidates.foldl (pointToAction db b) { ix with actionCandidates := ∅ }
  ix.flushPointers db env .actionBlock .actionAddress (.actionBlock b.height)
    ix.actionBlockPointerIds .actionAddress ix.actionAddressPointerIds

/-- `flush_tx_indexes`. -/
def flushTxIndexes : BlockRunesIndexer T A :=
  ix.flushPointers db env .block .address (.block b.height) ix.blockTxPointerIds .address
    ix.addressTxPointerIds

/-- `uncommon_goods_avg_price_usd_by_height`, for a block that minted some. -/
def recordBlockPrice : BlockRunesIndexer T A :=
  if ix.uncommonGoodsAmountSum = 0 then ix
  else
    ix.push (.blockPrice b.height)
      (ix.uncommonGoodsUsdWeightedSum / ix.uncommonGoodsAmountSum : ℕ)

/-! ## The block -/

variable (order : Essentials.HashOrder)

/-- The loop over the transactions. -/
def indexTxs (live : LiveOutpoints T A) : LiveOutpoints T A × BlockRunesIndexer T A :=
  b.txs.zipIdx.foldl (indexTx db b env order) (live, new)

/-- The flushes after the transactions. -/
def flush (ix : BlockRunesIndexer T A) : BlockRunesIndexer T A :=
  let ix := (ix.collectAlkaneActionCandidates b).flushAddressBalanceHistory db b
  ((ix.flushActionTxIndexes db b env).flushTxIndexes db b env).recordBlockPrice b

end Functions

end BlockRunesIndexer

/-- The runes namespace with its rows. -/
abbrev RunesDb (T A H : Type) := RunesStore (RuneKey.Value (T := T) (A := A)) H

section Block
variable {T A H : Type} [LinearOrder T] [LinearOrder A]
open BlockRunesIndexer

/-- What `index_block` has collected when it writes. -/
def collectBlock (env : RunesEnv) (order : Essentials.HashOrder) (db : RuneRows T A)
    (live : Option (Finset (T × ℕ))) (b : RuneBlock T A H) :
    LiveOutpoints T A × BlockRunesIndexer T A :=
  let scanned := indexTxs db b env order ⟨live, ∅⟩
  (scanned.1, scanned.2.flush db b env)

variable (env : RunesEnv) (order : Essentials.HashOrder)

lemma collectBlock_snd (db : RuneRows T A) (live : Option (Finset (T × ℕ))) (b : RuneBlock T A H) :
    (collectBlock env order db live b).2 =
      (indexTxs db b env order ⟨live, ∅⟩).2.flush db b env := by
  unfold collectBlock
  dsimp only

variable (s : RunesDb T A H) (b : RuneBlock T A H)

/-- The batch of a block. -/
def writeBlock (ix : BlockRunesIndexer T A) : RunesDb T A H :=
  s.setBlockBatch RuneKey.requiresPreimage ix.writes.retained ix.writes.deletes ix.writes.preimages
    b.height b.hash

/-- `index_block`: the namespace and the set of live outpoints after it. -/
def indexBlock (env : RunesEnv) (order : Essentials.HashOrder) (live : Option (Finset (T × ℕ)))
    (s : RunesDb T A H) (b : RuneBlock T A H) : Option (Finset (T × ℕ)) × RunesDb T A H :=
  let collected := collectBlock env order s.rows live b
  (collected.1.set, writeBlock s b collected.2)

variable (live : Option (Finset (T × ℕ)))

lemma indexBlock_fst :
    (indexBlock env order live s b).1 = (collectBlock env order s.rows live b).1.set := by
  unfold indexBlock
  dsimp only

lemma indexBlock_snd :
    (indexBlock env order live s b).2 =
      writeBlock s b (collectBlock env order s.rows live b).2 := by
  unfold indexBlock
  dsimp only

end Block

end Espo.Runes
