import Espo.Alkanes.Clean
import Espo.Essentials.BalanceIndex

/-!
# The balance changes of a trace

`accumulate_alkane_balance_deltas` walks a trace with a stack of frames. A frame collects the changes
of the calls it made; when it returns successfully its own transfers are added, from and to the
nearest frame of a normal call below it, and all is merged into the frame below. What a failed or
static frame has collected is dropped.

Over a well-nested trace the walk is a recursion over the calls (`absorb`). It does not see the calls
that are dropped, and it moves tokens without creating any.
-/

namespace Espo.Essentials
open Lib Alkanes

/-! ## Deltas -/

/-- `AlkaneDeltaMap`, by owner and token; the entries come in the order in which the hash map has
them. No owner has an empty map. -/
abbrev AlkaneDelta := AList fun _ : SchemaAlkaneId × SchemaAlkaneId => SignedU128

/-- `RootDebitCandidateMap`, by owner and token. -/
abbrev RootDebits := Table (SchemaAlkaneId × SchemaAlkaneId) ℕ

/-- A change of what an owner has of a token. -/
abbrev DeltaChange := (SchemaAlkaneId × SchemaAlkaneId) × SignedU128

variable (d : AlkaneDelta) (key : SchemaAlkaneId × SchemaAlkaneId)

/-- What an owner gains of a token. -/
def gain : SignedU128 :=
  (d.lookup key).getD .zero

/-- `add_delta`. -/
def addSigned (c : DeltaChange) : AlkaneDelta :=
  if c.2.isZero then d else addDelta d c

/-- The changes that `apply_transfer` makes. -/
def transferChanges (source target : Option SchemaAlkaneId) (token : SchemaAlkaneId) (amount : ℕ) :
    List DeltaChange :=
  if amount = 0 then []
  else (source.toList.map fun owner => ((owner, token), SignedU128.ofDebit amount)) ++
    target.toList.map fun owner => ((owner, token), SignedU128.ofCredit amount)

/-- The changes of a sheet of transfers. -/
def sheetChanges (source target : Option SchemaAlkaneId) (sheet : Sheet) : List DeltaChange :=
  sheet.toList.flatMap fun e => transferChanges source target e.1 e.2

/-- The entries as changes. -/
def asChanges : List DeltaChange := d.entries.map fun e => (e.1, e.2)

/-- `merge_deltas`. -/
def mergeDeltas (target child : AlkaneDelta) : AlkaneDelta := (asChanges child).foldl addSigned target

/-- `add_root_debit_candidate`. -/
def addRootDebitCandidate (debits : RootDebits) (key : SchemaAlkaneId × SchemaAlkaneId) (amount : ℕ) :
    RootDebits :=
  if amount = 0 then debits
  else debits.put key (saturatingAdd ((debits.get key).getD 0) amount)

/-- What `cancel_positive_delta` cancels. -/
def canceled (amount : ℕ) : ℕ :=
  min (if (gain d key).isNegative then 0 else (gain d key).amount) amount

/-- The changes for an amount that a frame without a normal parent returns: what the trace credited
is canceled, and the rest is debited unless it is the owner's own token. -/
def rootChanges (owner : SchemaAlkaneId) (d : AlkaneDelta) (e : SchemaAlkaneId × ℕ) :
    List DeltaChange :=
  let key := (owner, e.1)
  let amount := canceled d key e.2
  (if 0 < amount then [(key, SignedU128.ofDebit amount)] else []) ++
    if 0 < e.2 - amount ∧ e.1 ≠ owner then [(key, SignedU128.ofDebit (e.2 - amount))] else []

/-- One amount of a return without a normal parent. -/
def rootReturn (owner : SchemaAlkaneId) (st : AlkaneDelta × RootDebits) (e : SchemaAlkaneId × ℕ) :
    AlkaneDelta × RootDebits :=
  let remaining := e.2 - canceled st.1 (owner, e.1) e.2
  ((rootChanges owner st.1 e).foldl addSigned st.1,
    if 0 < remaining ∧ e.1 ≠ owner then addRootDebitCandidate st.2 (owner, e.1) remaining else st.2)

/-! ## The walk -/

/-- `Frame`. -/
structure DeltaFrame where
  kind : FrameKind
  owner : SchemaAlkaneId
  incoming : Sheet
  parentNormal : Option SchemaAlkaneId
  deltas : AlkaneDelta

/-- `nearest_normal_owner`. -/
def nearestNormalOwner (stack : List DeltaFrame) : Option SchemaAlkaneId :=
  (stack.find? fun frame => frame.kind = .normal).map DeltaFrame.owner

/-- The variables of the loop; the top of the stack comes first. -/
structure DeltaWalk where
  outflows : AlkaneDelta
  rootDebits : RootDebits
  stack : List DeltaFrame
  rootReverted : Bool

namespace DeltaFrame

/-- The changes of a successful return to a normal parent. -/
def changes (frame : DeltaFrame) (outgoing : Sheet) : List DeltaChange :=
  sheetChanges frame.parentNormal (some frame.owner) frame.incoming ++
    sheetChanges (some frame.owner) frame.parentNormal outgoing

/-- The deltas and the candidates after a successful return. -/
def settle (frame : DeltaFrame) (debits : RootDebits) (outgoing : Sheet) : AlkaneDelta × RootDebits :=
  match frame.parentNormal with
  | some _ => ((frame.changes outgoing).foldl addSigned frame.deltas, debits)
  | none => outgoing.toList.foldl (rootReturn frame.owner)
      ((sheetChanges none (some frame.owner) frame.incoming).foldl addSigned frame.deltas, debits)

end DeltaFrame

namespace DeltaWalk

/-- The start. -/
def init : DeltaWalk := ⟨∅, ∅, [], false⟩

variable (w : DeltaWalk)

/-- The frame that an invoke pushes. -/
def opened (inv : InvokeData) (owner : SchemaAlkaneId) : DeltaFrame where
  kind := inv.kind
  owner := owner
  incoming := if inv.kind = .static then ∅ else transfersToSheet inv.incomingAlkanes
  parentNormal := nearestNormalOwner w.stack
  deltas := ∅

/-- Merge into the frame below, or into the result. -/
def mergeUp (d : AlkaneDelta) : DeltaWalk :=
  match w.stack with
  | [] => { w with outflows := mergeDeltas w.outflows d }
  | parent :: stack =>
    { w with stack := { parent with deltas := mergeDeltas parent.deltas d } :: stack }

/-- One event. -/
def step : TraceEvent → DeltaWalk
  | .opening inv =>
    match parseShortId inv.myself with
    | none => w
    | some owner => { w with stack := w.opened inv owner :: w.stack }
  | .closing ret =>
    match w.stack with
    | [] => { w with rootReverted := true }
    | frame :: stack =>
      let w := { w with stack := stack }
      if ret.status = .failure then
        if stack.isEmpty ∧ frame.kind = .normal then { w with rootReverted := true } else w
      else if frame.kind = .static then w
      else
        let settled := frame.settle w.rootDebits (transfersToSheet ret.alkanes)
        mergeUp { w with rootDebits := settled.2 } settled.1
  | .leaf _ => w

end DeltaWalk

/-- `accumulate_alkane_balance_deltas`. -/
def accumulateAlkaneBalanceDeltas (bitcoin : BitcoinDecode) (host : HostFunctionValues)
    (trace : Trace) : Bool × AlkaneDelta × RootDebits :=
  match cleanTrace bitcoin host trace with
  | none => (false, ∅, ∅)
  | some trace =>
    let w := trace.events.foldl DeltaWalk.step .init
    if w.rootReverted || !w.stack.isEmpty then (false, ∅, ∅) else (true, w.outflows, w.rootDebits)

lemma nearestNormalOwner_cons (frame : DeltaFrame) (stack : List DeltaFrame) :
    nearestNormalOwner (frame :: stack)
      = if frame.kind = .normal then some frame.owner else nearestNormalOwner stack := by
  rw [nearestNormalOwner]
  by_cases hkind : frame.kind = .normal
  · simp [hkind]
  · simp [hkind, nearestNormalOwner]

/-! ## The walk as a recursion over the calls -/

/-- Every id of a called alkane parses. -/
def IdsParse (calls : CallForest) : Prop := calls.All fun inv _ => (parseShortId inv.myself).isSome

variable (parent : SchemaAlkaneId) (inv : InvokeData)

/-- The frame of a call below a normal frame of `parent`, when its own calls are done. -/
def calledFrame (owner : SchemaAlkaneId) (deltas : AlkaneDelta) : DeltaFrame where
  kind := inv.kind
  owner := owner
  incoming := if inv.kind = .static then ∅ else transfersToSheet inv.incomingAlkanes
  parentNormal := some parent
  deltas := deltas

/-- The nearest normal frame for the calls of a call. -/
def normalOwner (owner : SchemaAlkaneId) : SchemaAlkaneId :=
  if inv.kind = .normal then owner else parent

/-- What the return of a call makes of the deltas of the frame below. -/
def returned (owner : SchemaAlkaneId) (ret : ReturnData) (inner below : AlkaneDelta) :
    AlkaneDelta :=
  let frame := calledFrame parent inv owner inner
  if inv.dead ret then below
  else mergeDeltas below ((frame.changes (transfersToSheet ret.alkanes)).foldl addSigned frame.deltas)

/-- What calls below a normal frame of `parent` make of the deltas of the frame that makes them. -/
def absorb : SchemaAlkaneId → CallForest → AlkaneDelta → AlkaneDelta
  | _, .nil, d => d
  | parent, .leaf _ rest, d => absorb parent rest d
  | parent, .node inv body ret rest, d =>
    match parseShortId inv.myself with
    | none => absorb parent rest d
    | some owner =>
      absorb parent rest
        (returned parent inv owner ret (absorb (normalOwner parent inv owner) body ∅) d)

namespace DeltaWalk

variable {frame : DeltaFrame} {stack : List DeltaFrame} {ret : ReturnData} {owner : SchemaAlkaneId}
  {inv : InvokeData} {calls : CallForest} {w : DeltaWalk} {parent : SchemaAlkaneId}

lemma step_return_of_live (hret : ret.status ≠ .failure) (hkind : frame.kind ≠ .static) :
    step { w with stack := frame :: stack } (.closing ret)
      = mergeUp { w with
          stack := stack
          rootDebits := (frame.settle w.rootDebits (transfersToSheet ret.alkanes)).2 }
        (frame.settle w.rootDebits (transfersToSheet ret.alkanes)).1 := by
  rw [step]
  dsimp only
  rw [if_neg hret, if_neg hkind]

lemma step_return_of_dead {below : DeltaFrame} (h : ret.status = .failure ∨ frame.kind = .static) :
    step { w with stack := frame :: below :: stack } (.closing ret)
      = { w with stack := below :: stack } := by
  rw [step]
  dsimp only
  by_cases hret : ret.status = .failure
  · rw [if_pos hret, if_neg (by simp)]
  · rw [if_neg hret, if_pos (h.resolve_left hret)]

lemma step_invoke (hstack : w.stack = frame :: stack)
    (hparent : nearestNormalOwner (frame :: stack) = some parent)
    (howner : parseShortId inv.myself = some owner) :
    step w (.opening inv) = { w with stack := calledFrame parent inv owner ∅ :: frame :: stack } := by
  rw [step, howner]
  dsimp only
  rw [opened, hstack, hparent, calledFrame]

lemma nearestNormalOwner_called (hparent : nearestNormalOwner (frame :: stack) = some parent)
    (inv : InvokeData) (owner : SchemaAlkaneId) (d : AlkaneDelta) :
    nearestNormalOwner (calledFrame parent inv owner d :: frame :: stack)
      = some (normalOwner parent inv owner) := by
  rw [nearestNormalOwner_cons, hparent]
  exact (apply_ite some _ _ _).symm

lemma nearestNormalOwner_deltas (frame : DeltaFrame) (stack : List DeltaFrame) (d : AlkaneDelta) :
    nearestNormalOwner ({ frame with deltas := d } :: stack) = nearestNormalOwner (frame :: stack) := by
  rw [nearestNormalOwner_cons, nearestNormalOwner_cons]

lemma step_return (w : DeltaWalk) (frame : DeltaFrame) (stack : List DeltaFrame)
    (parent : SchemaAlkaneId) (inv : InvokeData) (owner : SchemaAlkaneId) (ret : ReturnData)
    (inner : AlkaneDelta) :
    step { w with stack := calledFrame parent inv owner inner :: frame :: stack } (.closing ret)
      = { w with
          stack := { frame with deltas := returned parent inv owner ret inner frame.deltas } :: stack } := by
  cases hdead : inv.dead ret with
  | true =>
    have hwhy : ret.status = .failure ∨ inv.kind = .static := by
      simpa [InvokeData.dead] using hdead
    rw [step_return_of_dead (w := w) hwhy, returned, if_pos hdead]
  | false =>
    have hwhy : ret.status ≠ .failure ∧ inv.kind ≠ .static := by
      simpa [InvokeData.dead] using hdead
    rw [step_return_of_live (w := w) hwhy.1 hwhy.2, returned, hdead]
    rfl

lemma run_calls (hids : IdsParse calls) :
    ∀ {w : DeltaWalk} {frame : DeltaFrame} {stack : List DeltaFrame} {parent : SchemaAlkaneId},
      w.stack = frame :: stack → nearestNormalOwner (frame :: stack) = some parent →
      calls.flatten.foldl step w
        = { w with stack := { frame with deltas := absorb parent calls frame.deltas } :: stack } := by
  induction calls with
  | nil =>
    intro w frame stack parent hstack _
    rw [absorb, Nest.flatten, List.foldl_nil, ← hstack]
  | leaf id rest ih =>
    intro w frame stack parent hstack hparent
    exact ih hids hstack hparent
  | node inv body ret rest ihBody ihRest =>
    intro w frame stack parent hstack hparent
    obtain ⟨hinv, hbody, hrest⟩ := hids
    obtain ⟨owner, howner⟩ := Option.isSome_iff_exists.1 hinv
    -- the invoke pushes a frame, the body fills it, and the return pops it
    rw [Nest.flatten, List.foldl_cons, List.foldl_append,
      step_invoke hstack hparent howner,
      ihBody hbody rfl (nearestNormalOwner_called hparent inv owner ∅)]
    have hret := step_return w frame stack parent inv owner ret
      (absorb (normalOwner parent inv owner) body ∅)
    have hnext : ∀ d, rest.flatten.foldl step { w with stack := { frame with deltas := d } :: stack }
        = { w with stack := { frame with deltas := absorb parent rest d } :: stack } := by
      intro d
      exact ihRest hrest rfl ((nearestNormalOwner_deltas frame stack d).trans hparent)
    rw [absorb, howner]
    exact (congrArg (rest.flatten.foldl step) hret).trans (hnext _)

lemma run_of_roots_nil (h : calls.roots = []) (w : DeltaWalk) :
    calls.flatten.foldl step w = w := by
  induction calls with
  | nil => rfl
  | leaf id rest ih => exact ih h
  | node inv body ret rest ihBody ihRest => simp [Nest.roots] at h

/-- The frame of the root when its calls are done. -/
def rootFrame (inv : InvokeData) (owner : SchemaAlkaneId) (deltas : AlkaneDelta) : DeltaFrame where
  kind := .normal
  owner := owner
  incoming := transfersToSheet inv.incomingAlkanes
  parentNormal := none
  deltas := deltas

lemma step_invoke_root (hkind : inv.kind = .normal)
    (howner : parseShortId inv.myself = some owner) :
    step init (.opening inv) = { init with stack := [rootFrame inv owner ∅] } := by
  rw [step, howner]
  dsimp only
  rw [opened, hkind]
  rfl

lemma run_root (hids : IdsParse calls) (hroot : calls.roots = [(inv, ret)])
    (hkind : inv.kind = .normal) (howner : parseShortId inv.myself = some owner) :
    calls.flatten.foldl step .init
      = step { init with stack := [rootFrame inv owner (absorb owner calls.body ∅)] } (.closing ret) := by
  induction calls with
  | nil => simp [Nest.roots] at hroot
  | leaf id rest ih => exact ih hids hroot
  | node inv' body ret' rest ihBody ihRest =>
    obtain ⟨hends, hrest⟩ := List.cons.inj hroot
    obtain ⟨rfl, rfl⟩ := Prod.mk.inj hends
    have hparent : nearestNormalOwner [rootFrame inv' owner ∅] = some owner := rfl
    rw [Nest.flatten, List.foldl_cons, List.foldl_append, List.foldl_cons,
      step_invoke_root hkind howner, run_calls hids.2.1 rfl hparent, run_of_roots_nil hrest]
    rfl

end DeltaWalk

/-! ## Failed and static calls -/

lemma absorb_live (calls : CallForest) (d : AlkaneDelta) :
    absorb parent calls.live d = absorb parent calls d := by
  induction calls generalizing parent d with
  | nil => rfl
  | leaf id rest ih => exact ih parent d
  | node inv body ret rest ihBody ihRest =>
    unfold CallForest.live at ihBody ihRest ⊢
    cases hdead : inv.dead ret with
    | true =>
      have hreturned : ∀ owner inner, returned parent inv owner ret inner d = d :=
        fun owner inner => if_pos hdead
      rw [Nest.prune_node_of_drop hdead, ihRest, absorb]
      cases parseShortId inv.myself with
      | none => rfl
      | some owner => simp only [hreturned]
    | false =>
      rw [Nest.prune_node_of_keep hdead, absorb, absorb]
      cases parseShortId inv.myself with
      | none => exact ihRest parent d
      | some owner =>
        dsimp only
        rw [ihBody, ihRest]

section Results
variable (bitcoin : BitcoinDecode) (host : HostFunctionValues) {trace : Trace} {calls : CallForest}
  {inv : InvokeData} {ret : ReturnData} (hcalls : trace.events = calls.flatten) (hids : IdsParse calls)
  (hroot : calls.roots = [(inv, ret)]) (hkind : inv.kind = .normal) (hret : ret.status = .success)
include hcalls hids hroot hkind hret

lemma accumulateAlkaneBalanceDeltas_eq {owner : SchemaAlkaneId}
    (howner : parseShortId inv.myself = some owner) :
    accumulateAlkaneBalanceDeltas bitcoin host trace
      = let settled := (DeltaWalk.rootFrame inv owner (absorb owner calls.body ∅)).settle ∅
          (transfersToSheet ret.alkanes)
        (true, mergeDeltas ∅ settled.1, settled.2) := by
  rw [accumulateAlkaneBalanceDeltas, cleanTrace_of_nested bitcoin host hcalls]
  dsimp only
  rw [hcalls, DeltaWalk.run_root hids hroot hkind howner, DeltaWalk.step_return_of_live
    (w := DeltaWalk.init) (by rw [hret]; decide) FrameKind.noConfusion]
  rfl

/-- Failed and static calls, and all that they call, have no effect on the balance changes of a trace. -/
theorem accumulateAlkaneBalanceDeltas_live : accumulateAlkaneBalanceDeltas bitcoin host trace
      = accumulateAlkaneBalanceDeltas bitcoin host { trace with events := calls.live.flatten } := by
  have hkeep : ∀ ends ∈ calls.roots, InvokeData.dead ends.1 ends.2 = false := by
    intro ends hends
    rw [hroot, List.mem_singleton] at hends
    subst hends
    simp [InvokeData.dead, hkind, hret]
  have hinv : (parseShortId inv.myself).isSome := hids.roots (inv, ret) (by rw [hroot]; simp)
  obtain ⟨owner, howner⟩ := Option.isSome_iff_exists.1 hinv
  have hbody : Nest.body calls.live = CallForest.live (Nest.body calls) := Nest.body_prune hkeep
  rw [accumulateAlkaneBalanceDeltas_eq bitcoin host hcalls hids hroot hkind hret howner,
    @accumulateAlkaneBalanceDeltas_eq bitcoin host _ calls.live _ _ rfl hids.prune
      ((Nest.roots_prune hkeep).trans hroot) hkind hret _ howner, hbody, absorb_live]

end Results

/-- A bitcoin library that recognises nothing. -/
def noDecode : BitcoinDecode := ⟨fun _ => false, fun _ => false⟩

/-- No host function was called. -/
def noHost : HostFunctionValues := ⟨[], [], [], []⟩

/-- A short id in the form that traces have. -/
def hexId (block tx : Char) : ShortId := ⟨['0', 'x', block], ['0', 'x', tx]⟩

/-- A call of a type, to an alkane, with an amount of one token. -/
def callOf (typ : String) (myself token : ShortId) (value : Char) : InvokeData :=
  ⟨typ.toList, myself, [], [⟨token, ['0', 'x', value]⟩]⟩

/-- A return of an amount of one token. -/
def returnOf (status : TraceStatus) (token : ShortId) (value : Char) : ReturnData :=
  ⟨status, [⟨token, ['0', 'x', value]⟩], [], []⟩

/-- Alkane 2:1 is called with 9 units of 2:7. It calls 2:2, which passes 4 on to 2:3 and fails, it makes
a static call to 2:4, and returns 5. -/
def failedCalls : CallForest :=
  .node (callOf "call" (hexId '2' '1') (hexId '2' '7') '9')
    (.node (callOf "call" (hexId '2' '2') (hexId '2' '7') '6')
      (.node (callOf "delegatecall" (hexId '2' '3') (hexId '2' '7') '4') .nil
        (returnOf .success (hexId '2' '7') '0') .nil)
      (returnOf .failure (hexId '2' '7') '0')
      (.node (callOf "StaticCall" (hexId '2' '4') (hexId '2' '7') '1') .nil
        (returnOf .success (hexId '2' '7') '1') .nil))
    (returnOf .success (hexId '2' '7') '5') .nil

theorem accumulateAlkaneBalanceDeltas_live_failedCalls :
    IdsParse failedCalls ∧ failedCalls.live.flatten.length = 2 ∧
      accumulateAlkaneBalanceDeltas noDecode noHost ⟨[], failedCalls.flatten⟩
        = accumulateAlkaneBalanceDeltas noDecode noHost ⟨[], failedCalls.live.flatten⟩ := by
  have hids : IdsParse failedCalls := by
    simp only [IdsParse, failedCalls, Nest.All]
    decide
  exact ⟨hids, by decide, accumulateAlkaneBalanceDeltas_live noDecode noHost rfl hids rfl (by decide) rfl⟩

end Espo.Essentials
