import Espo.Alkanes.Clean
import Espo.Essentials.Balances
import Espo.Lib.WriteBatch

/-!
# Unwrap requests

A call of frBTC that unwraps an amount is a request. It names an output of its transaction that pays the
signer, and the transaction that spends this output fulfils it. Requests are kept in one list of all of
them and in a list for each address, and the requests that wait are found by their outpoint: a pending row
says at which positions of the two lists they stand.

The rows of the module have typed keys and values here. The events of wraps and unwraps and the totals are
written to rows of their own and are left out.
-/

namespace Espo.Subfrost
open Lib Alkanes Essentials

/-! ## Blocks -/

/-- A script. -/
abbrev Spk := List UInt8

/-- An output of a transaction. -/
structure TxOut where
  value : ℕ
  scriptPubkey : Spk
  deriving DecidableEq

/-- `Protostone` with the fields that are read. -/
structure Protostone where
  protocolTag : ℕ
  pointer : Option ℕ
  deriving DecidableEq

/-- A transaction with its traces. A null input has no outpoint. -/
structure SubfrostTx (T : Type) where
  txid : T
  input : List (Option (T × ℕ))
  output : List TxOut
  protostones : List Protostone
  traces : List Trace

/-- A block, with the script of the signer at it and with what the node answers about the outputs of
earlier transactions. -/
structure SubfrostBlock (T : Type) where
  height : ℕ
  time : ℕ
  hostFunctionValues : HostFunctionValues
  signerScript : Option Spk
  fetch : T → Option (List TxOut)
  transactions : List (SubfrostTx T)

/-! ## Calls of frBTC -/

/-- `get_frbtc_alkane`: the same on all networks. -/
def frbtcAlkane : SchemaAlkaneId := ⟨32, 0⟩

/-- `parse_hex_u32`, `parse_hex_u64` and `parse_hex_u128` of this module: hex with the marker, or decimal. -/
def parseNumber (bound : ℕ) (s : Text) : Option ℕ :=
  ((stripStart "0x".toList s).bind (fromStrRadix 16 bound)).or (fromStrRadix 10 bound s)

/-- `parse_trace_id`. -/
def parseTraceId (id : ShortId) : Option SchemaAlkaneId :=
  (parseNumber (2 ^ 32) id.block).bind fun block =>
    (parseNumber (2 ^ 64) id.tx).bind fun tx => schemaIdFromParts block tx

/-- `extract_amount_for_alkane`: nothing when no transfer of the alkane is found. -/
def extractAmountForAlkane (transfers : List TraceTransfer) (target : SchemaAlkaneId) : Option ℕ :=
  transfers.foldl (fun total t =>
    if parseTraceId t.id = some target then
      match parseNumber (u128Max + 1) t.value with
      | some value => some (saturatingAdd (total.getD 0) value)
      | none => total
    else total) none

/-- `WrapKind`. -/
inductive WrapKind where
  | wrap
  | unwrap
  deriving DecidableEq

/-- `ParsedWrapInvoke`. -/
structure ParsedWrapInvoke where
  kind : WrapKind
  amount : Option ℕ
  signerVout : Option ℕ
  deriving DecidableEq

/-- The opcode of a call and its position among the inputs: it may be forwarded behind a target. -/
def wrapOpcode (inputs : List Text) : Option (ℕ × ℕ) :=
  let opcode0 := inputs[0]?.bind (parseNumber (2 ^ 64))
  let opcode2 := inputs[2]?.bind (parseNumber (2 ^ 64))
  if opcode0 = some 0x4d ∨ opcode0 = some 0x4e then opcode0.map fun opcode => (0, opcode)
  else opcode2.map fun opcode => (2, opcode)

/-- `parse_wrap_invoke`. -/
def parseWrapInvoke (invoke : InvokeData) (frbtc : SchemaAlkaneId) : Option ParsedWrapInvoke :=
  if parseTraceId invoke.myself = some frbtc then
    match wrapOpcode invoke.inputs with
    | some (_, 0x4d) => some ⟨.wrap, none, none⟩
    | some (opcodeIndex, 0x4e) =>
      some ⟨.unwrap, extractAmountForAlkane invoke.incomingAlkanes frbtc,
        invoke.inputs[opcodeIndex + 1]?.bind (parseNumber (2 ^ 32))⟩
    | _ => none
  else none

section Defs
variable {T : Type} [DecidableEq T]

/-! ## The owner of a transaction -/

/-- `spk_from_protostone`. -/
def spkFromProtostone (tx : SubfrostTx T) : Option Spk :=
  tx.protostones.findSome? fun ps =>
    if ps.protocolTag = 1 then (ps.pointer.bind fun ptr => tx.output[ptr]?).map TxOut.scriptPubkey
    else none

variable (block : SubfrostBlock T)

/-- The outputs of an earlier transaction: of this block, or fetched from the node. -/
def SubfrostBlock.prevOutputs (txid : T) : Option (List TxOut) :=
  ((block.transactions.reverse.find? fun tx => tx.txid = txid).map SubfrostTx.output).or (block.fetch txid)

/-- `tx_owner_spk`: the script that a protostone points to, or that of the spent output of lowest value. -/
def txOwnerSpk (tx : SubfrostTx T) : Option Spk :=
  (spkFromProtostone tx).or
    ((tx.input.reduceOption.foldl (fun (lowest : Option TxOut) o =>
      match (block.prevOutputs o.1).bind fun outputs => outputs[o.2]? with
      | none => lowest
      | some out => if lowest.all fun l => out.value < l.value then some out else lowest) none).map
        TxOut.scriptPubkey)

/-! ## Requests of a block -/

/-- `SchemaUnwrapRequestV1`. -/
structure UnwrapRequest (T : Type) where
  timestamp : ℕ
  txid : T
  vout : ℕ
  amount : ℕ
  addressSpk : Spk
  fulfillmentTx : Option T
  deriving DecidableEq

/-- The output that a request is about. -/
def UnwrapRequest.outpoint (r : UnwrapRequest T) : T × ℕ := (r.txid, r.vout)

/-- `collect_unwrap_request_spends`: the spent outpoints with their spenders. -/
def collectUnwrapRequestSpends (transactions : List (SubfrostTx T)) : List ((T × ℕ) × T) :=
  transactions.flatMap fun tx => tx.input.reduceOption.map fun o => (o, tx.txid)

/-- `fulfillment_by_outpoint`: of several spends of an outpoint the last. -/
def fulfillmentByOutpoint (spends : List ((T × ℕ) × T)) : Table (T × ℕ) T := (∅ : Table (T × ℕ) T).putAll spends

/-- `subfrost_unwrap_vout`: the requested output, if it pays the signer. -/
def subfrostUnwrapVout (tx : SubfrostTx T) (requestedVout : Option ℕ) (signerScript : Option Spk) :
    Option ℕ :=
  requestedVout.bind fun vout =>
    signerScript.bind fun signer =>
      (tx.output[vout]?).bind fun out => if out.scriptPubkey = signer then some vout else none

/-- The stack of `PendingWrap`, and the requests so far. The address of a pending call is that of its
transaction. -/
structure RequestWalk (T : Type) where
  stack : List (Option ParsedWrapInvoke)
  requests : List (UnwrapRequest T)

/-- The request of an unwrap that returned, if it names an output that pays the signer. -/
def unwrapRequest (tx : SubfrostTx T) (pending : ParsedWrapInvoke) (ret : ReturnData) :
    Option (UnwrapRequest T) :=
  if pending.kind = .unwrap ∧ ret.status = .success then
    pending.amount.bind fun amount =>
      (subfrostUnwrapVout tx pending.signerVout block.signerScript).map fun vout =>
        { timestamp := block.time
          txid := tx.txid
          vout := vout
          amount := amount
          addressSpk := (txOwnerSpk block tx).getD []
          fulfillmentTx :=
            (fulfillmentByOutpoint (collectUnwrapRequestSpends block.transactions)).get (tx.txid, vout) }
  else none

/-- One event of a trace. -/
def RequestWalk.step (tx : SubfrostTx T) (w : RequestWalk T) :
    TraceEvent → RequestWalk T
  | .opening inv => { w with stack := parseWrapInvoke inv frbtcAlkane :: w.stack }
  | .closing ret =>
    { stack := w.stack.tail
      requests := w.requests ++
        ((w.stack.head?.join.bind fun pending => unwrapRequest block tx pending ret).toList) }
  | .leaf _ => w

variable (bitcoin : BitcoinDecode)

/-- The requests of a transaction: the traces that cannot be cleaned are skipped. -/
def txUnwrapRequests (block : SubfrostBlock T) (tx : SubfrostTx T) : List (UnwrapRequest T) :=
  tx.traces.flatMap fun trace =>
    match cleanTrace bitcoin block.hostFunctionValues trace with
    | none => []
    | some cleaned => (cleaned.events.foldl (RequestWalk.step block tx) ⟨[], []⟩).requests

/-- `unwrap_requests_all` of `index_block`. -/
def unwrapRequests (block : SubfrostBlock T) : List (UnwrapRequest T) :=
  block.transactions.flatMap (txUnwrapRequests bitcoin block)

/-! ## Rows -/

variable (spk : Spk)

/-- `push_spk`: the length of a script is a `u16`, so a longer one is cut. -/
def pushSpk : Spk := spk.take 65535

/-- `UnwrapRequestListRefV1`. -/
structure UnwrapRequestListRef where
  allIndex : ℕ
  addressSpk : Spk
  addressIndex : ℕ
  deriving DecidableEq

/-- The keys of the lists of requests and of the pending rows. An address list goes by what `push_spk`
writes. -/
inductive UnwrapKey (T : Type) where
  | allLength
  | allItem (i : ℕ)
  | addressLength (spk : Spk)
  | addressItem (spk : Spk) (i : ℕ)
  | pending (o : T × ℕ)
  deriving DecidableEq

/-- The values of these rows. -/
inductive UnwrapValue (T : Type) where
  | length (n : ℕ)
  | request (r : UnwrapRequest T)
  | refs (l : List UnwrapRequestListRef)
  deriving DecidableEq

/-- The rows of the module that are modelled, and its index height. -/
structure UnwrapStore (T : Type) where
  rows : Table (UnwrapKey T) (UnwrapValue T)
  indexHeight : Option ℕ

/-- A store without rows. -/
def UnwrapStore.empty : UnwrapStore T := ⟨∅, none⟩

/-- The key of an item in the list of an address. -/
def addressItemKey (i : ℕ) : UnwrapKey T := .addressItem (pushSpk spk) i

/-- The key of the length of the list of an address. -/
def addressLengthKey : UnwrapKey T := .addressLength (pushSpk spk)

variable (s : UnwrapStore T)

/-- `read_u64_len`. -/
def UnwrapStore.readLen (key : UnwrapKey T) : ℕ :=
  match s.rows.get key with
  | some (.length n) => n
  | _ => 0

/-- Read and decode a request. -/
def UnwrapStore.readRequest (key : UnwrapKey T) : Option (UnwrapRequest T) :=
  match s.rows.get key with
  | some (.request r) => some r
  | _ => none

/-- Read and decode a pending row. -/
def UnwrapStore.readRefs (o : T × ℕ) : Option (List UnwrapRequestListRef) :=
  match s.rows.get (.pending o) with
  | some (.refs refs) => some refs
  | _ => none

/-- `read_unwrap_request_list_all`: missing items are skipped. -/
def UnwrapStore.readUnwrapRequestListAll (lengthKey : UnwrapKey T) (itemKey : ℕ → UnwrapKey T) :
    List (UnwrapRequest T) :=
  (List.range (s.readLen lengthKey)).filterMap fun i => s.readRequest (itemKey i)

/-- The list of all requests. -/
def UnwrapStore.allRequests : List (UnwrapRequest T) :=
  s.readUnwrapRequestListAll .allLength .allItem

/-- The list of requests of an address. -/
def UnwrapStore.addressRequests : List (UnwrapRequest T) :=
  s.readUnwrapRequestListAll (addressLengthKey spk) (addressItemKey spk)

/-! ## Appends and updates -/

/-- The variables of `build_unwrap_request_appends`. -/
structure RequestAppends (T : Type) where
  allLen : ℕ
  addressLens : AList fun _ : Spk => ℕ
  pendingRefsByKey : AList fun _ : T × ℕ => List UnwrapRequestListRef
  puts : List (UnwrapKey T × UnwrapValue T)

/-- One request of `build_unwrap_request_appends`. -/
def RequestAppends.step (a : RequestAppends T) (request : UnwrapRequest T) : RequestAppends T :=
  let spk := request.addressSpk
  let addressIndex := (a.addressLens.lookup spk).getD (s.readLen (addressLengthKey spk))
  let refs := (a.pendingRefsByKey.lookup request.outpoint).getD ((s.readRefs request.outpoint).getD [])
  { allLen := a.allLen + 1
    addressLens := a.addressLens.insert spk (addressIndex + 1)
    pendingRefsByKey :=
      if request.fulfillmentTx.isNone then
        a.pendingRefsByKey.insert request.outpoint (refs ++ [⟨a.allLen, spk, addressIndex⟩])
      else a.pendingRefsByKey
    puts := a.puts ++ [(.allItem a.allLen, .request request), (addressItemKey spk addressIndex, .request request)] }

/-- `build_unwrap_request_appends`. -/
def buildUnwrapRequestAppends (order : HashOrder) (s : UnwrapStore T) (requests : List (UnwrapRequest T)) :
    List (UnwrapKey T × UnwrapValue T) :=
  if requests.isEmpty then []
  else
    let a := requests.foldl (RequestAppends.step s) ⟨s.readLen .allLength, ∅, ∅, []⟩
    a.puts ++ [(.allLength, .length a.allLen)]
      ++ (order.run a.addressLens.entries).map (fun e => (addressLengthKey e.1, .length e.2))
      ++ (order.run a.pendingRefsByKey.entries).map fun e => (.pending e.1, .refs e.2)

/-- The puts for one reference of a spent outpoint: the request in both lists, unless it is fulfilled
already. -/
def fulfillmentPuts (fulfillmentTx : T) (ref : UnwrapRequestListRef) :
    List (UnwrapKey T × UnwrapValue T) :=
  match s.readRequest (.allItem ref.allIndex) with
  | none => []
  | some request =>
    if request.fulfillmentTx.isSome then []
    else
      let request := { request with fulfillmentTx := some fulfillmentTx }
      [(.allItem ref.allIndex, .request request),
        (addressItemKey ref.addressSpk ref.addressIndex, .request request)]

/-- `build_unwrap_request_fulfillment_updates`: puts and deletes. -/
def buildUnwrapRequestFulfillmentUpdates (spends : List ((T × ℕ) × T)) :
    List (UnwrapKey T × UnwrapValue T) × List (UnwrapKey T) :=
  (spends.flatMap fun spend => ((s.readRefs spend.1).getD []).flatMap (fulfillmentPuts s spend.2),
    (spends.filter fun spend => (s.readRefs spend.1).isSome).map fun spend => .pending spend.1)

/-- `set_batch`. -/
def UnwrapStore.setBatch (puts : List (UnwrapKey T × UnwrapValue T)) (deletes : List (UnwrapKey T)) :
    UnwrapStore T :=
  let ops := dedupeOps puts deletes
  { s with rows := s.rows.writeBatch ops.1 ops.2 }

/-- `index_block`: a block at or below the index height is skipped. -/
def indexBlock (order : HashOrder) (s : UnwrapStore T) (block : SubfrostBlock T) : UnwrapStore T :=
  if s.indexHeight.any fun prev => block.height ≤ prev then s
  else
    let updates := buildUnwrapRequestFulfillmentUpdates s (collectUnwrapRequestSpends block.transactions)
    let appends := buildUnwrapRequestAppends order s (unwrapRequests bitcoin block)
    { s.setBatch (updates.1 ++ appends) updates.2 with indexHeight := some block.height }

end Defs
end Espo.Subfrost
