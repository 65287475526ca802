import Espo.Lib.ByteOrder
import Espo.Lib.Table

/-!
# Where the alkanes of a transaction go

`apply_transfers_multi_attributed` routes the alkanes on the inputs of a transaction, and those that
its traces return, to the outputs: protostones are processed in order, each with a sheet of amounts
that its edicts, its pointer and its refund pointer distribute over outputs and other protostones. The
attribution of amounts to contracts, which runs alongside, is left out.
-/

namespace Espo.Essentials
open Lib List

/-- `SchemaAlkaneId`, ordered by block, then by transaction. -/
structure SchemaAlkaneId where
  block : Fin (2 ^ 32)
  tx : Fin (2 ^ 64)
  deriving DecidableEq

instance : LinearOrder SchemaAlkaneId :=
  LinearOrder.lift' (fun id => toLex (id.block, id.tx)) fun a b h => by
    cases a
    simp_all

/-- `encode_alkane_id_be`: 4 bytes of the block and 8 of the transaction. -/
def encodeAlkaneIdBe (id : SchemaAlkaneId) : List (Fin 256) := beBytes 4 id.block ++ beBytes 8 id.tx

@[simp]
lemma length_encodeAlkaneIdBe (id : SchemaAlkaneId) : (encodeAlkaneIdBe id).length = 12 := by
  simp [encodeAlkaneIdBe]

lemma encodeAlkaneIdBe_injective : Function.Injective encodeAlkaneIdBe := by
  intro a b h
  obtain ⟨hblock, htx⟩ := append_inj' h (by simp)
  have hblock' : (a.block : ℕ) = b.block :=
    beBytes_inj (a.block.isLt.trans_le (by decide)) (b.block.isLt.trans_le (by decide)) hblock
  have htx' : (a.tx : ℕ) = b.tx :=
    beBytes_inj (a.tx.isLt.trans_le (by decide)) (b.tx.isLt.trans_le (by decide)) htx
  exact SchemaAlkaneId.mk.injEq .. |>.mpr ⟨Fin.ext hblock', Fin.ext htx'⟩

/-- `u128::MAX`. -/
def u128Max : ℕ := 2 ^ 128 - 1

/-- `u128::saturating_add`. -/
def saturatingAdd (a b : ℕ) : ℕ := min (a + b) u128Max

/-- `schema_id_from_parts`: both parts must fit. -/
def schemaIdFromParts (block tx : ℕ) : Option SchemaAlkaneId :=
  if hblock : block < 2 ^ 32 then
    if htx : tx < 2 ^ 64 then some ⟨⟨block, hblock⟩, ⟨tx, htx⟩⟩ else none
  else none

/-! ## Sheets -/

/-- Amounts by alkane, a `BTreeMap` of the source. -/
abbrev Sheet := Table SchemaAlkaneId ℕ

namespace Sheet

variable (s : Sheet) (id : SchemaAlkaneId)

/-- The amount on a sheet. -/
def amount : ℕ := (s.get id).getD 0

/-- Add to an amount. -/
def add (amt : ℕ) : Sheet := s.put id (saturatingAdd (s.amount id) amt)

/-- The entries in the order of a `BTreeMap`. -/
def toList : List (SchemaAlkaneId × ℕ) :=
  (s.keys.sort (· ≤ ·)).map fun id => (id, s.amount id)

/-- Add all entries that are not zero. -/
def merge (entries : List (SchemaAlkaneId × ℕ)) : Sheet :=
  entries.foldl (fun s e => if e.2 = 0 then s else s.add e.1 e.2) s

/-- Subtract, and drop what becomes zero. -/
def subtract (amt : ℕ) : Sheet :=
  if s.amount id - amt = 0 then s.delete id else s.put id (s.amount id - amt)

lemma sum_toList {M : Type*} [AddCommMonoid M] (f : ℕ → M) (hf : f 0 = 0) (s : Sheet)
    (id : SchemaAlkaneId) :
    (s.toList.map fun e => if e.1 = id then f e.2 else 0).sum = f (s.amount id) := by
  have hsum : (s.toList.map fun e => if e.1 = id then f e.2 else 0).sum
      = ∑ id' ∈ s.keys, if id' = id then f (s.amount id') else 0 := by
    rw [toList, List.map_map, ← Finset.sort_toFinset s.keys (· ≤ ·),
      sum_toFinset _ (Finset.sort_nodup _ _), Finset.sort_toFinset]
    rfl
  rw [hsum, Finset.sum_ite_eq']
  split_ifs with hid
  · rfl
  · rw [amount, Table.notMem_keys.1 hid]
    exact hf.symm

end Sheet

/-- An output as far as alkanes are concerned. -/
structure TxOutput (A : Type*) where
  /-- `spk_to_address_str` of the script. -/
  address : Option A
  /-- `is_op_return` of the script. -/
  opReturn : Bool

/-- `ProtostoneEdict`. -/
structure Edict where
  block : ℕ
  tx : ℕ
  amount : ℕ
  output : ℕ

/-- The parts of a `Protostone` that route alkanes. -/
structure Protostone where
  edicts : List Edict
  pointer : Option ℕ
  refund : Option ℕ

/-- `EspoTraceType`. -/
inductive EspoTraceType where
  | noTrace
  | revert
  | success
  deriving DecidableEq

/-- A trace: the output it belongs to, and what `compute_nets` finds in it. -/
structure TraceNets where
  vout : ℕ
  netIn : Option Sheet
  netOut : Option Sheet
  status : EspoTraceType

/-- What has been routed so far: entries for outputs, and sheets for protostones. -/
structure Routed where
  outMap : Table ℕ (List (SchemaAlkaneId × ℕ))
  incoming : List Sheet

namespace Routed

/-- Append entries to an output. -/
def push (st : Routed) (vout : ℕ) (entries : List (SchemaAlkaneId × ℕ)) : Routed :=
  { st with outMap := st.outMap.put vout ((st.outMap.get vout).getD [] ++ entries) }

/-- `push_to_vout`: zero amounts are dropped. -/
def pushToVout (st : Routed) (vout : ℕ) (delta : List (SchemaAlkaneId × ℕ)) : Routed :=
  if delta.isEmpty then st else st.push vout (delta.filter fun e => 0 < e.2)

/-- The sheet of a protostone. -/
def sheetOf (st : Routed) (i : ℕ) : Sheet := (st.incoming[i]?).getD ∅

end Routed

section Defs
variable {A : Type*} (outputs : List (TxOutput A)) (protostones : ℕ) (blockHeight : ℕ)

/-- The outputs that are not an `OP_RETURN`. -/
def spendableVouts : List ℕ :=
  (outputs.zipIdx.filter fun o => !o.1.opReturn).map Prod.snd

/-- `is_valid_spend_vout`. -/
def isValidSpendVout (vout : ℕ) : Bool := (outputs[vout]?).any fun o => !o.opReturn

/-- The even split of a multicast: the first outputs take one more when it does not divide. -/
def multicastShares (vouts : List ℕ) (total : ℕ) : List (ℕ × ℕ) :=
  (vouts.zipIdx.map fun v =>
    (v.1, if v.2 < total % vouts.length then saturatingAdd (total / vouts.length) 1
      else total / vouts.length)).filter fun share => share.2 ≠ 0

/-- `route_delta`. -/
def routeDelta (target : ℕ) (delta : List (SchemaAlkaneId × ℕ)) (st : Routed) : Routed :=
  if delta.isEmpty then st
  else if target = outputs.length then
    if (spendableVouts outputs).isEmpty then st
    else delta.foldl (fun st e => (multicastShares (spendableVouts outputs) e.2).foldl
      (fun st share => st.push share.1 [(e.1, share.2)]) st) st
  else if target < outputs.length then
    if isValidSpendVout outputs target then st.pushToVout target delta else st
  else if target - (outputs.length + 1) < protostones then
    { st with incoming := st.incoming.modify (target - (outputs.length + 1)) (Sheet.merge · delta) }
  else st

/-- `ALKANES_V217_EDICT_FIX_HEIGHT`. -/
def alkanesV217EdictFixHeight : ℕ := 943500

/-- The walk over the outputs of an amount-capped multicast before the fix: the slot of an
`OP_RETURN` is deferred. Returns the entries, the deferred amounts, and what remains with the index
where the walk stopped. -/
def cappedWalk (cap : ℕ) : ℕ → ℕ → List (TxOutput A) → List (ℕ × ℕ) × List ℕ × ℕ × ℕ
  | remaining, idx, [] => ([], [], remaining, idx)
  | remaining, idx, o :: os =>
    if min remaining cap = 0 then ([], [], remaining, idx)
    else
      let give := min remaining cap
      let rest := cappedWalk cap (remaining - give) (idx + 1) os
      if o.opReturn then (rest.1, give :: rest.2.1, rest.2.2)
      else ((idx, give) :: rest.1, rest.2)

/-- The deferred amounts go to the next spendable outputs after the walk. -/
def placeDeferred : ℕ → List ℕ → List (ℕ × ℕ)
  | _, [] => []
  | searchFrom, amt :: deferred =>
    match (spendableVouts outputs).find? (searchFrom ≤ ·) with
    | none => placeDeferred searchFrom deferred
    | some vout => (vout, amt) :: placeDeferred (vout + 1) deferred

/-- An amount-capped multicast over the spendable outputs. Returns the entries and what remains. -/
def cappedShares (cap : ℕ) : ℕ → List ℕ → List (ℕ × ℕ) × ℕ
  | remaining, [] => ([], remaining)
  | remaining, vout :: vouts =>
    if min remaining cap = 0 then ([], remaining)
    else
      let rest := cappedShares cap (remaining - min remaining cap) vouts
      ((vout, min remaining cap) :: rest.1, rest.2)

/-- Push one entry for each share. -/
def pushShares (id : SchemaAlkaneId) (shares : List (ℕ × ℕ)) (st : Routed) : Routed :=
  shares.foldl (fun st share => st.push share.1 [(id, share.2)]) st

/-- The multicast branch of `apply_single_edict`, for an alkane of which there is some. -/
def multicastEdict (id : SchemaAlkaneId) (amt : ℕ) (sheet : Sheet) (st : Routed) : Sheet × Routed :=
  let held := sheet.amount id
  let vouts := spendableVouts outputs
  if amt = 0 then
    (sheet.delete id, routeDelta outputs protostones outputs.length [(id, held)] st)
  else if blockHeight < alkanesV217EdictFixHeight ∧ held ≤ vouts.length * amt then
    let walk := cappedWalk amt held 0 outputs
    let shares := walk.1 ++ placeDeferred outputs walk.2.2.2 walk.2.1
    (sheet.subtract id (held - walk.2.2.1), pushShares id shares st)
  else
    let shares := cappedShares amt held vouts
    (sheet.subtract id (held - shares.2), pushShares id shares.1 st)

/-- `apply_single_edict`. An edict that does not fit its types is skipped. -/
def applySingleEdict (sheet : Sheet) (st : Routed) (ed : Edict) : Sheet × Routed :=
  if ed.block = 0 ∧ 0 < ed.tx then (sheet, st)
  else if 2 ^ 32 ≤ ed.output then (sheet, st)
  else
    match schemaIdFromParts ed.block ed.tx with
    | none => (sheet, st)
    | some id =>
      if ed.output = outputs.length then
        if (spendableVouts outputs).isEmpty then (sheet, st)
        else if sheet.amount id = 0 then (sheet.put id 0, st)
        else multicastEdict outputs protostones blockHeight id ed.amount sheet st
      else
        let need := if ed.amount = 0 then sheet.amount id else min ed.amount (sheet.amount id)
        if need = 0 then (sheet, st)
        else (sheet.subtract id need, routeDelta outputs protostones ed.output [(id, need)] st)

/-- The trace of a protostone: the last one that points to its shadow output. -/
def traceFor (traces : List TraceNets) (shadowVout : ℕ) : Option TraceNets :=
  traces.reverse.find? fun t => t.vout = shadowVout

/-- The sheet that the edicts of a protostone start with: what was routed to it, less what a
successful trace took in, plus what it returned; without a trace, the first protostone has the alkanes
of the inputs. -/
def startingSheet (i : ℕ) (seeds : Sheet) (trace : Option TraceNets) (status : EspoTraceType)
    (st : Routed) : Sheet :=
  let sheet := Sheet.merge ∅ (st.sheetOf i).toList
  match status with
  | .success =>
    let netIn := ((trace.bind TraceNets.netIn).getD ∅).toList.filter fun e => e.2 ≠ 0
    let netOut := ((trace.bind TraceNets.netOut).getD ∅).toList
    (netIn.foldl (fun sheet e => sheet.subtract e.1 e.2) sheet).merge netOut
  | .noTrace => if i = 0 then sheet.merge seeds.toList else sheet
  | .revert => sheet

/-- The status of a protostone: a reverted trace without incoming alkanes counts as no trace. -/
def effectiveStatus (trace : Option TraceNets) : EspoTraceType :=
  let status := (trace.map TraceNets.status).getD .noTrace
  if status = .revert ∧ ((trace.bind TraceNets.netIn).all fun netIn => netIn.toList.isEmpty) then
    .noTrace
  else status

/-- What is left after the edicts goes to the pointer, or to the first spendable output. -/
def routeLeftovers (ps : Protostone) (sheet : Sheet) (st : Routed) : Routed :=
  if sheet.toList.isEmpty then st
  else
    match ps.pointer with
    | some target => routeDelta outputs protostones target sheet.toList st
    | none =>
      match (spendableVouts outputs).head? with
      | some vout => st.pushToVout vout sheet.toList
      | none => st

/-- One protostone. -/
def processProtostone (traces : List TraceNets) (seeds : Sheet) (i : ℕ) (ps : Protostone)
    (st : Routed) : Routed :=
  let trace := traceFor traces (outputs.length + 1 + i)
  let status := effectiveStatus trace
  let sheet := startingSheet i seeds trace status st
  let st := { st with incoming := st.incoming.set i ∅ }
  if status = .revert then
    match trace.bind TraceNets.netIn, ps.refund with
    | some netIn, some target => routeDelta outputs protostones target netIn.toList st
    | _, _ => st
  else
    let applied := ps.edicts.foldl
      (fun acc ed => applySingleEdict outputs protostones blockHeight acc.1 acc.2 ed) (sheet, st)
    routeLeftovers outputs protostones ps applied.1 applied.2

end Defs

/-- `apply_transfers_multi_attributed`: the entries for each output. -/
def applyTransfersMulti {A : Type*} (outputs : List (TxOutput A)) (protostones : List Protostone)
    (traces : List TraceNets) (blockHeight : ℕ) (seeds : Sheet) :
    Table ℕ (List (SchemaAlkaneId × ℕ)) :=
  (protostones.zipIdx.foldl
    (fun st ps => processProtostone outputs protostones.length blockHeight traces seeds ps.2 ps.1 st)
    ⟨∅, protostones.map fun _ => ∅⟩).outMap

end Espo.Essentials
