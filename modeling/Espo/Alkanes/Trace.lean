import Espo.Essentials.Transfers
import Espo.Lib.Nesting

/-!
# Traces of alkanes

A trace lists what the calls of a message did: an `invoke` event opens a frame, a `return` event
closes it, and a `create` event stands between. Ids, amounts and opcodes come as texts. A text is a
list of characters here.

The functions that walk a trace as a call stack are about well-nested traces, the listings of a
`CallForest`.
-/

namespace Espo.Alkanes
open Lib Essentials

/-! ## Texts -/

/-- A `String` of the source. -/
abbrev Text := List Char

/-- `char::to_digit`. -/
def toDigit (radix : ℕ) (c : Char) : Option ℕ :=
  let value :=
    if '0' ≤ c ∧ c ≤ '9' then some (c.toNat - '0'.toNat)
    else if 'a' ≤ c ∧ c ≤ 'z' then some (c.toNat - 'a'.toNat + 10)
    else if 'A' ≤ c ∧ c ≤ 'Z' then some (c.toNat - 'A'.toNat + 10)
    else none
  value.filter (· < radix)

/-- `from_str_radix` of an unsigned type with the values below `bound`. -/
def fromStrRadix (radix bound : ℕ) (s : Text) : Option ℕ :=
  -- a sign may stand before the digits, but not alone
  let digits := match s with
    | '+' :: d :: ds => d :: ds
    | _ => s
  if digits.isEmpty then none
  else ((digits.mapM (toDigit radix)).map fun ds => ds.foldl (fun n d => n * radix + d) 0).filter (· < bound)

/-- `strip_prefix`. -/
def stripStart (start s : Text) : Option Text :=
  if start <+: s then some (s.drop start.length) else none

/-- `parse_hex_u32`, `parse_hex_u64` and `parse_hex_u128`: the marker of the base is optional. -/
def parseHex (bound : ℕ) (s : Text) : Option ℕ :=
  fromStrRadix 16 bound ((stripStart "0x".toList s).getD s)

/-- `parse_hex_u128`. -/
def parseHexU128 (s : Text) : Option ℕ := parseHex (u128Max + 1) s

/-- `parse_u128_from_str`: without the marker the text is decimal. -/
def parseU128FromStr (s : Text) : Option ℕ :=
  match stripStart "0x".toList s with
  | some hex => fromStrRadix 16 (u128Max + 1) hex
  | none => fromStrRadix 10 (u128Max + 1) s

/-! ## Events -/

/-- `EspoSandshrewLikeTraceShortId`. -/
structure ShortId where
  block : Text
  tx : Text
  deriving DecidableEq

/-- `EspoSandshrewLikeTraceTransfer`. -/
structure TraceTransfer where
  id : ShortId
  value : Text
  deriving DecidableEq

/-- `EspoSandshrewLikeTraceStatus`. -/
inductive TraceStatus where
  | success
  | failure
  deriving DecidableEq

/-- `EspoSandshrewLikeTraceInvokeData` with the fields of its context that are read. -/
structure InvokeData where
  typ : Text
  myself : ShortId
  inputs : List Text
  incomingAlkanes : List TraceTransfer
  deriving DecidableEq

/-- `EspoSandshrewLikeTraceReturnData` with its response; of the storage only the keys and values. -/
structure ReturnData where
  status : TraceStatus
  alkanes : List TraceTransfer
  data : Text
  storage : List (Text × Text)
  deriving DecidableEq

/-- `EspoSandshrewLikeTraceEvent`: an opening bracket is `Invoke`, a closing one `Return`, a leaf
`Create`. -/
abbrev TraceEvent := Bracket InvokeData ReturnData ShortId

/-- The calls of a well-nested trace. -/
abbrev CallForest := Nest InvokeData ReturnData ShortId

/-- `EspoSandshrewLikeTrace`. -/
structure Trace where
  outpoint : Text
  events : List TraceEvent
  deriving DecidableEq

/-- `FrameKind`. -/
inductive FrameKind where
  | normal
  | delegate
  | static
  deriving DecidableEq

/-- The kind of a call, in any case of letters; all other types are normal calls. -/
def InvokeData.kind (inv : InvokeData) : FrameKind :=
  let typ := inv.typ.map Char.toLower
  if typ = "delegatecall".toList then .delegate
  else if typ = "staticcall".toList then .static
  else .normal

/-- `parse_short_id`. -/
def parseShortId (id : ShortId) : Option SchemaAlkaneId :=
  (parseHex (2 ^ 32) id.block).bind fun block =>
    (parseHex (2 ^ 64) id.tx).bind fun tx => schemaIdFromParts block tx

/-- The id and the amount of a transfer, when both parse. -/
def TraceTransfer.parse (t : TraceTransfer) : Option (SchemaAlkaneId × ℕ) :=
  (parseShortId t.id).bind fun id => (parseHexU128 t.value).map fun value => (id, value)

/-- Add a transfer to a sheet; one that does not parse, or of nothing, is skipped. -/
def addTransfer (m : Sheet) (t : TraceTransfer) : Sheet :=
  match t.parse with
  | none => m
  | some (id, value) => if value = 0 then m else m.add id value

/-- `transfers_to_sheet`. -/
def transfersToSheet (transfers : List TraceTransfer) : Sheet := transfers.foldl addTransfer ∅

/-- A call that has no effect: it failed, or it was static. -/
def InvokeData.dead (inv : InvokeData) (ret : ReturnData) : Bool :=
  decide (ret.status = .failure) || decide (inv.kind = .static)

/-- The frames without the failed and the static ones and all that they called. -/
def CallForest.live (calls : CallForest) : CallForest := calls.prune InvokeData.dead

end Espo.Alkanes
