import Espo.Runes.Indexer

/-!
# Indexing a transaction

`index_tx` in its phases: the rune outpoints on the inputs are spent, a rune is etched and one is
minted, the runes are allocated, what is burned is noted in the entries, the outputs get their rows,
and volumes, activities and pointers follow.
-/

namespace Espo.Runes
open Lib

/-- What the transaction being indexed has collected: `touched_addresses`, `transfer_participants`,
`transfer_amounts` and `io`. -/
structure TxAcc (A : Type) where
  touched : List A
  participants : AList fun _ : SchemaRuneId => List A
  amounts : AList fun _ : SchemaRuneId => ℕ
  io : TxRuneIo

namespace TxAcc
variable {A : Type} [DecidableEq A]

/-- Nothing collected. -/
def empty : TxAcc A := ⟨[], ∅, ∅, ⟨[], [], [], [], none⟩⟩

/-- `touched_addresses.insert(address)`, and `transfer_participants.entry(id).or_default()
.insert(address)` for the runes of a row. -/
def participate (acc : TxAcc A) (address : A) (balances : List RuneBalance) : TxAcc A :=
  { acc with
    touched := acc.touched.insert address
    participants := balances.foldl (fun participants balance => participants.insert balance.id
      (((participants.lookup balance.id).getD []).insert address)) acc.participants }

/-- Add to `transfer_amounts`. -/
def received (acc : TxAcc A) (balances : List RuneBalance) : TxAcc A :=
  { acc with
    amounts := balances.foldl (fun amounts balance => amounts.insert balance.id
      (Essentials.saturatingAdd ((amounts.lookup balance.id).getD 0) balance.amount)) acc.amounts }

end TxAcc

namespace BlockRunesIndexer
variable {T A H : Type} [LinearOrder T] [LinearOrder A]

section Functions
variable (db : RuneRows T A)

/-! ## Inputs -/

/-- The loop of `unallocated` so far. -/
structure Spending (T A : Type) where
  live : LiveOutpoints T A
  ix : BlockRunesIndexer T A
  acc : TxAcc A
  unallocated : RuneSheet SchemaRuneId

variable (ix : BlockRunesIndexer T A)

/-- Change the balances of an address by the balances of a row it loses or gains. -/
def applyAddressDeltas (address : A) (balances : List RuneBalance) (delta : ℕ → ℤ) :
    BlockRunesIndexer T A :=
  balances.foldl (fun ix balance =>
    ix.applyAddressDelta db address balance.id (delta balance.amount)) ix

/-- The rows of an outpoint that is spent; `previous` is what the database held of it. -/
def spendRow (outpoint : T × ℕ) (row : OutpointRuneBalances A)
    (previous : Option (OutpointRuneBalances A)) : BlockRunesIndexer T A :=
  let ix := { ix with ephem := ix.ephem.delete outpoint }
  let ix := (ix.remember (.outpoint outpoint) previous).queueDelete (.outpoint outpoint)
  match row.address with
  | none => ix
  | some address =>
    let ix := ix.remember (.addressOutpoint address outpoint) (previous.map fun _ => ())
    let ix := ix.queueDelete (.addressOutpoint address outpoint)
    ix.applyAddressDeltas db address row.balances fun amount => negI128 (asI128 amount)

/-- One turn of the loop of `unallocated`. -/
def spendInput (st : Spending T A) (input : TxIn T × ℕ) : Spending T A :=
  let outpoint := input.1.previousOutput
  let taken := st.live.takeOutpoint db st.ix.ephem outpoint
  match taken.1 with
  | none => { st with live := taken.2 }
  | some (row, previous) =>
    let io := { st.acc.io with inputs := st.acc.io.inputs ++ [(input.2, row.balances)] }
    let acc := { st.acc with io := io }
    { live := taken.2.remove outpoint
      ix := st.ix.spendRow db outpoint row previous
      acc := match row.address with
        | none => acc
        | some address => acc.participate address row.balances
      unallocated := row.balances.foldl (fun sheet balance => sheet.add balance.id balance.amount)
        st.unallocated }

/-- `unallocated`. -/
def unallocated (live : LiveOutpoints T A) (ix : BlockRunesIndexer T A) (tx : RuneTx T A) :
    Spending T A :=
  tx.inputs.zipIdx.foldl (spendInput db) ⟨live, ix, .empty, .empty⟩

/-! ## Etching and minting -/

variable (env : RunesEnv) (b : RuneBlock T A H)

/-- What a transaction has so far: the etched id, the minted balance and the runes to allocate. -/
structure Issued (T A : Type) where
  ix : BlockRunesIndexer T A
  etched : Option SchemaRuneId
  minted : Option RuneBalance
  unallocated : RuneSheet SchemaRuneId

/-- The etching of a transaction. -/
def etch (txIndex : ℕ) (tx : RuneTx T A) (artifact : Option Artifact)
    (unallocated : RuneSheet SchemaRuneId) : Issued T A :=
  match artifact with
  | none => ⟨ix, none, none, unallocated⟩
  | some artifact =>
    match ix.etched db env b txIndex tx artifact with
    | none => ⟨ix, none, none, unallocated⟩
    | some (id, rune, etching) =>
      { ix := ix.createRuneEntry db env b id rune tx etching artifact
        etched := some id
        minted := none
        unallocated := match artifact with
          | .runestone stone => unallocated.add id ((stone.etching.bind Etching.premine).getD 0)
          | .cenotaph _ _ => unallocated }

/-- The mint of a transaction. -/
def mintArtifact (st : Issued T A) (txIndex : ℕ) (artifact : Option Artifact) : Issued T A :=
  match artifact.bind Artifact.mint with
  | none => st
  | some id =>
    let minted := st.ix.mint db b.height id txIndex
    match minted.1 with
    | none => { st with ix := minted.2 }
    | some amount =>
      { st with
        ix := minted.2
        minted := some ⟨id, amount⟩
        unallocated := st.unallocated.add id amount }

end Functions

end BlockRunesIndexer

/-! ## Allocation -/

/-- The loop over the edicts; the default id stands for the etched rune. -/
def applyEdicts {A : Type} (outputs : List (TxOut A)) (etched : Option SchemaRuneId)
    (st : Allocation SchemaRuneId) (edicts : List Edict) : Allocation SchemaRuneId :=
  edicts.foldl (fun st edict =>
    match if edict.id = ⟨0, 0⟩ then etched else some edict.id with
    | none => st
    | some id => applyEdict outputs st id edict.amount edict.output) st

/-- The edicts and the leftovers; what is left unallocated is burned. -/
def allocateRunes {A : Type} (outputs : List (TxOut A)) (artifact : Option Artifact)
    (etched : Option SchemaRuneId) (unallocated : RuneSheet SchemaRuneId) :
    Allocation SchemaRuneId :=
  match artifact with
  | some (.cenotaph _ _) => ⟨unallocated, ∅⟩
  | some (.runestone stone) =>
    routeLeftovers outputs (applyEdicts outputs etched ⟨unallocated, ∅⟩ stone.edicts) stone.pointer
  | none => routeLeftovers outputs ⟨unallocated, ∅⟩ none

namespace BlockRunesIndexer
variable {T A H : Type} [LinearOrder T] [LinearOrder A]

section Functions
variable (db : RuneRows T A)

/-! ## Outputs -/

/-- The loop over the outputs so far. -/
structure Creating (T A : Type) where
  live : LiveOutpoints T A
  ix : BlockRunesIndexer T A
  acc : TxAcc A

variable (ix : BlockRunesIndexer T A)

/-- The balances and volumes of an address that receives runes. -/
def receiveBalances (address : A) (balances : List RuneBalance) : BlockRunesIndexer T A :=
  balances.foldl (fun ix balance =>
    (ix.applyVolumeDelta db .totalReceived balance.id address balance.amount).applyAddressDelta db
      address balance.id (asI128 balance.amount)) ix

/-- The rows of an output that receives runes. -/
def createRow (outpoint : T × ℕ) (row : OutpointRuneBalances A) : BlockRunesIndexer T A :=
  let ix := { ix with ephem := ix.ephem.put outpoint row }.queuePut (.outpoint outpoint) row
  match row.address with
  | none => ix
  | some address =>
    (ix.queuePut (.addressOutpoint address outpoint) ()).receiveBalances db address row.balances

/-- One turn of the loop over the outputs. The source indexes the outputs by `vout`. -/
def createOutput (tx : RuneTx T A) (st : Creating T A) (output : ℕ × RuneSheet SchemaRuneId) :
    Creating T A :=
  match tx.outputs[output.1]? with
  | none => st
  | some out =>
    if output.2.rows.keys = ∅ then st
    else
      let balances := balancesFromSheet output.2
      let io := st.acc.io
      if out.opReturn then
        { st with
          ix := balances.foldl (burn db) st.ix
          acc := { st.acc with io := { io with burned := io.burned ++ balances } } }
      else
        let outpoint := (tx.txid, output.1)
        let row : OutpointRuneBalances A := ⟨out.address, out.scriptPubkey, balances⟩
        let acc := match out.address with
          | none => st.acc
          | some address => (st.acc.participate address balances).received balances
        { live := st.live.insert outpoint
          ix := st.ix.createRow db outpoint row
          acc := { acc with io := { io with outputs := io.outputs ++ [(output.1, balances)] } } }

variable (order : Essentials.HashOrder)

/-- The volume of a rune, for each address that took part in its transfer. -/
def transferVolume (participants : AList fun _ : SchemaRuneId => List A)
    (ix : BlockRunesIndexer T A) (amount : SchemaRuneId × ℕ) : BlockRunesIndexer T A :=
  (order.run ((participants.lookup amount.1).getD [])).foldl (fun ix address =>
    ix.applyVolumeDelta db .transferVolume amount.1 address amount.2) ix

/-- The loop over `transfer_amounts`. -/
def transferVolumes (ix : BlockRunesIndexer T A) (acc : TxAcc A) : BlockRunesIndexer T A :=
  (order.run (acc.amounts.entries.map fun e => (e.1, e.2))).foldl
    (transferVolume db order acc.participants) ix

/-! ## Activities -/

/-- The rows of an activity for one scope and one order. -/
def queueActivityRow (activity : RuneActivity T A) (scope : RuneActivityScope)
    (ix : BlockRunesIndexer T A) (sortBy : RuneActivitySortField) : BlockRunesIndexer T A :=
  let value := match sortBy with
    | .timestamp => activity.timestamp
    | .amount => activity.amount
  let key := fun index : ActivityIndex A => RuneKey.activity index scope sortBy value activity.height
    activity.txIndex activity.kind activity.txid
  let ix := ix.push (key (.rune activity.id)) activity
  match activity.destination with
  | none => ix
  | some address =>
    (ix.push (key (.address address)) activity).push (key (.addressToken address activity.id)) activity

/-- `queue_rune_activity`. -/
def queueRuneActivity (activity : RuneActivity T A) : BlockRunesIndexer T A :=
  let own := match activity.kind with
    | .etch => RuneActivityScope.etch
    | .mint => RuneActivityScope.mint
  [.all, own].foldl (fun ix scope =>
    [.timestamp, .amount].foldl (queueActivityRow activity scope) ix) ix

/-- `first_output_address_for_rune`. -/
def firstOutputAddressForRune (txid : T) (id : SchemaRuneId) : Option A :=
  let vouts := (ix.ephem.keys.filter fun o => o.1 = txid).image Prod.snd
  (vouts.sort (· ≤ ·)).findSome? fun vout =>
    match ix.ephem.get (txid, vout) with
    | none => none
    | some row => if row.balances.any fun balance => balance.id = id then row.address else none

variable (b : RuneBlock T A H)

/-- The sums behind the average price of a block. -/
def weighUncommonGoods (balance : RuneBalance) (mintPricePaidUsd : ℕ) : BlockRunesIndexer T A :=
  if balance.id = genesisRuneId ∧ b.btcUsdPrice.isSome ∧ 0 < balance.amount then
    { ix with
      uncommonGoodsAmountSum := saturateU256 (ix.uncommonGoodsAmountSum + balance.amount)
      uncommonGoodsUsdWeightedSum := saturateU256 (ix.uncommonGoodsUsdWeightedSum +
        saturateU256 (mintPricePaidUsd * balance.amount)) }
  else ix

/-- The activity of a mint. -/
def recordMint (txIndex : ℕ) (tx : RuneTx T A) (ix : BlockRunesIndexer T A) (balance : RuneBalance) :
    BlockRunesIndexer T A :=
  let loaded := ix.loadEntry db balance.id
  let feePaidSats := b.computeTxFeeSats tx
  let mintPricePaidSats := scaleRuneFeePriceSats feePaidSats balance.amount
    ((loaded.1.map RuneEntry.divisibility).getD 0)
  let mintPricePaidUsd := scaleRuneFeePriceUsd mintPricePaidSats b.btcUsdPrice
  let activity : RuneMintActivity T A :=
    { id := balance.id
      txid := tx.txid
      chainTxids := [tx.txid]
      cpfp := false
      height := b.height
      txIndex := txIndex
      timestamp := b.time
      amount := balance.amount
      feePaidSats := feePaidSats
      mintPricePaidSats := mintPricePaidSats
      mintPricePaidUsd := mintPricePaidUsd
      destination := ix.firstOutputAddressForRune tx.txid balance.id
      success := true }
  let ix := loaded.2.weighUncommonGoods b balance mintPricePaidUsd
  (ix.push (.mintActivity balance.id b.time tx.txid txIndex) activity).queueRuneActivity
    ⟨activity, .mint⟩

/-- The activity of an etching. -/
def recordEtching (txIndex : ℕ) (tx : RuneTx T A) (ix : BlockRunesIndexer T A) (id : SchemaRuneId) :
    BlockRunesIndexer T A :=
  let loaded := ix.loadEntry db id
  match loaded.1 with
  | none => loaded.2
  | some entry =>
    let activity : RuneMintActivity T A :=
      { id := id
        txid := tx.txid
        chainTxids := [tx.txid]
        cpfp := false
        height := b.height
        txIndex := txIndex
        timestamp := b.time
        amount := entry.premine
        feePaidSats := 0
        mintPricePaidSats := 0
        mintPricePaidUsd := 0
        destination := ix.firstOutputAddressForRune tx.txid id
        success := true }
    loaded.2.queueRuneActivity ⟨activity, .etch⟩

/-- `action_candidates.entry(txid)`, or a new candidate. -/
def candidate (txid : T) (txIndex : ℕ) : ActionCandidate A :=
  let old := (ix.actionCandidates.get txid).getD ⟨txIndex, false, false, []⟩
  { old with txIndex := min old.txIndex txIndex }

/-- `queue_tx_index`. -/
def queueTxIndex (txid : T) (txIndex : ℕ) (io : TxRuneIo) (touched : List A) :
    BlockRunesIndexer T A :=
  let pointer := ix.nextTxPointerId db
  let ix := pointer.2.push (.slot .txPointer pointer.1) (⟨txid, b.height, txIndex, io⟩)
  let candidate := ix.candidate txid txIndex
  { ix with
    blockTxPointerIds := ix.blockTxPointerIds ++ [pointer.1]
    actionCandidates := ix.actionCandidates.put txid
      { candidate with hasRune := true, addresses := candidate.addresses ∪ touched }
    addressTxPointerIds := touched.foldl (fun ids address =>
      ids.put address ((ids.get address).getD [] ++ [pointer.1])) ix.addressTxPointerIds }

/-- The transaction's own rows. -/
def finishTx (txIndex : ℕ) (tx : RuneTx T A) (acc : TxAcc A) : BlockRunesIndexer T A :=
  let io := acc.io
  if io.inputs ≠ [] ∨ io.outputs ≠ [] ∨ io.burned ≠ [] ∨ io.minted ≠ [] ∨ io.etched.isSome then
    (ix.push (.txIo tx.txid) io).queueTxIndex db b tx.txid txIndex io acc.touched
  else ix

/-! ## The transaction -/

variable (env : RunesEnv) (order : Essentials.HashOrder)

/-- `ensure_genesis_rune`, in the first transaction of the genesis block. -/
def startTx (txIndex : ℕ) (tx : RuneTx T A) : BlockRunesIndexer T A :=
  if b.height = env.genesisHeight ∧ txIndex = 0 then ix.ensureGenesisRune db env b tx.txid else ix

/-- Note whether an addition on a sheet of the transaction has wrapped around. -/
def noteOverflow (issued : RuneSheet SchemaRuneId) (allocation : Allocation SchemaRuneId) :
    BlockRunesIndexer T A :=
  { ix with
    overflow := ix.overflow || issued.overflow || allocation.unallocated.overflow ||
      allocation.allocated.toList.any fun e => e.2.overflow }

/-- The etched and the minted rune of a transaction and what it burns. -/
def issuedIo (acc : TxAcc A) (issued : Issued T A) (burned : List RuneBalance) : TxAcc A :=
  { acc with
    io := { acc.io with
      etched := issued.etched, minted := issued.minted.toList, burned := burned } }

/-- The activities of a transaction. -/
def recordActivities (txIndex : ℕ) (tx : RuneTx T A) (issued : Issued T A) :
    BlockRunesIndexer T A :=
  issued.etched.toList.foldl (recordEtching db b txIndex tx)
    (issued.minted.toList.foldl (recordMint db b txIndex tx) ix)

/-- What follows the allocation: burns, outputs, volumes, activities and the transaction's rows. -/
def settleTx (live : LiveOutpoints T A) (txIndex : ℕ) (tx : RuneTx T A) (issued : Issued T A)
    (acc : TxAcc A) (allocation : Allocation SchemaRuneId) :
    LiveOutpoints T A × BlockRunesIndexer T A :=
  let burned := balancesFromSheet allocation.unallocated
  let ix := burned.foldl (burn db) (issued.ix.noteOverflow issued.unallocated allocation)
  let created := allocation.allocated.toList.foldl (createOutput db tx)
    ⟨live, ix, issuedIo acc issued burned⟩
  let ix := created.ix.transferVolumes db order created.acc
  (created.live,
    (ix.recordActivities db b txIndex tx issued).finishTx db b txIndex tx created.acc)

/-- `index_tx`. -/
def indexTx (st : LiveOutpoints T A × BlockRunesIndexer T A) (entry : RuneTx T A × ℕ) :
    LiveOutpoints T A × BlockRunesIndexer T A :=
  let tx := entry.1
  let txIndex := entry.2
  let ix := st.2.startTx db b env txIndex tx
  let found := st.1.hasRuneInput db ix.ephem tx.inputs
  if !tx.hasRunestoneCarrier && !found.1 then (found.2, ix)
  else
    let artifact := if tx.hasRunestoneCarrier then tx.artifact else none
    let spent := unallocated db found.2 ix tx
    if artifact.isNone ∧ spent.unallocated.rows.keys = ∅ then (spent.live, spent.ix)
    else
      let etched := spent.ix.etch db env b txIndex tx artifact spent.unallocated
      let issued := mintArtifact db b etched txIndex artifact
      let allocation := allocateRunes tx.outputs artifact issued.etched issued.unallocated
      settleTx db b order spent.live txIndex tx issued spent.acc allocation

end Functions

end BlockRunesIndexer

end Espo.Runes
