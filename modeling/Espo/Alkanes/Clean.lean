import Espo.Alkanes.Trace

/-!
# Orphan returns

Host functions leave returns without an invoke in a trace. `clean_espo_sandshrew_like_trace` removes
returns that look like theirs until the calls are balanced, and gives up when it cannot. A trace with
as many invokes as returns, such as a well-nested one, is left as it is.
-/

namespace Espo.Alkanes
open Lib

/-- `CleanEventView`. -/
inductive CleanEventView where
  | invoke
  | ret (candidateData : Option (List UInt8))
  | other
  deriving DecidableEq

/-- `EspoHostFunctionValues`. -/
structure HostFunctionValues where
  header : List UInt8
  coinbase : List UInt8
  diesel : List UInt8
  fee : List UInt8
  deriving DecidableEq

/-- What the bitcoin library finds in bytes. -/
structure BitcoinDecode where
  /-- They are a block header. -/
  isHeader : List UInt8 → Bool
  /-- They are a coinbase transaction. -/
  isCoinbase : List UInt8 → Bool

/-- `hex::decode`. -/
def hexDecode : Text → Option (List UInt8)
  | [] => some []
  | [_] => none
  | hi :: lo :: rest =>
    (toDigit 16 hi).bind fun h => (toDigit 16 lo).bind fun l =>
      (hexDecode rest).map (UInt8.ofNat (16 * h + l) :: ·)

/-- `decode_hex_data`. -/
def decodeHexData (data : Text) : Option (List UInt8) :=
  hexDecode ((stripStart "0x".toList data).getD data)

/-- `sandshrew_event_views`, of one event. -/
def eventView : TraceEvent → CleanEventView
  | .opening _ => .invoke
  | .closing ret =>
    .ret (if ret.status = .success ∧ ret.alkanes = [] ∧ ret.storage = [] then decodeHexData ret.data
      else none)
  | .leaf _ => .other

/-- `host_match`: empty values match nothing. -/
def hostMatch (host : HostFunctionValues) (data : List UInt8) : Bool :=
  [host.header, host.coinbase, host.diesel, host.fee].any fun hv => !hv.isEmpty && decide (data = hv)

/-- `fuzzy_host_match`. -/
def fuzzyHostMatch (bitcoin : BitcoinDecode) (data : List UInt8) : Bool :=
  decide (data.length = 80) && bitcoin.isHeader data || bitcoin.isCoinbase data

section Removals
variable (bitcoin : BitcoinDecode) (host : HostFunctionValues)

/-- A return that may be one of a host function. -/
def isCandidate (allowFuzzy : Bool) (candidateData : Option (List UInt8)) : Bool :=
  candidateData.any fun data => hostMatch host data || (allowFuzzy && fuzzyHostMatch bitcoin data)

/-- The state of the walk of `attempt`. -/
structure RemovalWalk where
  removeIndices : Finset ℕ
  candidateStack : List ℕ
  totalCandidates : ℕ
  depth : ℕ

/-- One event. A return that no invoke is left for removes the latest candidate, which may be the
return itself; the depth is then as before. -/
def RemovalWalk.step (allowFuzzy : Bool) (w : RemovalWalk) (view : CleanEventView × ℕ) :
    Option RemovalWalk :=
  match view.1 with
  | .invoke => some { w with depth := w.depth + 1 }
  | .other => some w
  | .ret candidateData =>
    let w := if isCandidate bitcoin host allowFuzzy candidateData then
        { w with
          totalCandidates := w.totalCandidates + 1
          candidateStack := view.2 :: w.candidateStack }
      else w
    if w.depth = 0 then
      match w.candidateStack with
      | [] => none
      | idx :: stack =>
        some { w with removeIndices := insert idx w.removeIndices, candidateStack := stack }
    else some { w with depth := w.depth - 1 }

/-- The depth after events, `none` when a return comes with no frame open. -/
def cleanedDepth : ℕ → List CleanEventView → Option ℕ
  | depth, [] => some depth
  | depth, .invoke :: views => cleanedDepth (depth + 1) views
  | depth, .other :: views => cleanedDepth depth views
  | 0, .ret _ :: _ => none
  | depth + 1, .ret _ :: views => cleanedDepth depth views

variable (views : List CleanEventView)

/-- The number of invokes. -/
def invokes : ℕ := views.countP fun v => v matches .invoke

/-- The number of returns. -/
def returns : ℕ := views.countP fun v => v matches .ret _

/-- `attempt` of `orphan_return_removals`. -/
def attempt (allowFuzzy : Bool) : Option (Finset ℕ) :=
  let mismatch := returns views - invokes views
  (views.zipIdx.foldlM (RemovalWalk.step bitcoin host allowFuzzy) ⟨∅, [], 0, 0⟩).bind fun w =>
    if w.totalCandidates < mismatch ∨ w.removeIndices.card ≠ mismatch then none
    else
      let cleaned := (views.zipIdx.filter fun v => v.2 ∉ w.removeIndices).map Prod.fst
      if invokes cleaned ≠ returns cleaned ∨ cleanedDepth 0 cleaned ≠ some 0 then none
      else some w.removeIndices

/-- `orphan_return_removals`. -/
def orphanReturnRemovals : Option (Finset ℕ) :=
  if invokes views = returns views then some ∅
  else if returns views < invokes views then none
  else (attempt bitcoin host views false).or (attempt bitcoin host views true)

/-- `clean_espo_sandshrew_like_trace`. -/
def cleanTrace (trace : Trace) : Option Trace :=
  (orphanReturnRemovals bitcoin host (trace.events.map eventView)).map fun removeIndices =>
    if removeIndices = ∅ then trace
    else
      { trace with
        events := (trace.events.zipIdx.filter fun ev => ev.2 ∉ removeIndices).map Prod.fst }

/-- A well-nested trace is not changed. -/
theorem cleanTrace_of_nested {trace : Trace} {calls : CallForest}
    (hcalls : trace.events = calls.flatten) : cleanTrace bitcoin host trace = some trace := by
  have hinvokes : invokes (trace.events.map eventView)
      = calls.flatten.countP Bracket.isOpening := by
    rw [invokes, List.countP_map, hcalls]
    apply List.countP_congr
    rintro (inv | ret | id) _ <;> rfl
  have hreturns : returns (trace.events.map eventView)
      = calls.flatten.countP Bracket.isClosing := by
    rw [returns, List.countP_map, hcalls]
    apply List.countP_congr
    rintro (inv | ret | id) _ <;> rfl
  rw [cleanTrace, orphanReturnRemovals, if_pos (by rw [hinvokes, hreturns, calls.count_flatten])]
  rfl

end Removals
end Espo.Alkanes
