import Espo.Subfrost.RequestRuns

/-!
# Unwraps in failed calls

A return from an unwrap is recorded as an event, counts in the totals and may make a request, as soon as the
call itself has returned success. Whether a call around it fails is known only later, and is not read.
-/

namespace Espo.Subfrost
open Lib Alkanes Essentials List

/-- `SchemaWrapEventV1`. -/
structure WrapEvent (T : Type) where
  timestamp : ℕ
  txid : T
  amount : ℕ
  addressSpk : Spk
  success : Bool
  deriving DecidableEq

/-- What the loop of `index_block` collects. The lists by address have the same events and are left out. -/
structure Collected (T : Type) where
  wrapEvents : List (WrapEvent T)
  unwrapEvents : List (WrapEvent T)
  unwrapDeltaAll : ℕ
  unwrapDeltaSuccess : ℕ
  unwrapRequests : List (UnwrapRequest T)

variable {T : Type} [DecidableEq T] (block : SubfrostBlock T)

/-- Nothing collected. -/
def Collected.empty : Collected T := ⟨[], [], 0, 0, []⟩

variable (tx : SubfrostTx T)

/-- The event of a wrap or an unwrap. -/
def wrapEvent (amount : ℕ) (success : Bool) : WrapEvent T :=
  ⟨block.time, tx.txid, amount, (txOwnerSpk block tx).getD [], success⟩

variable (c : Collected T)

/-- A return from a call that `parse_wrap_invoke` has looked at. -/
def Collected.leave (pending : Option ParsedWrapInvoke) (ret : ReturnData) : Collected T :=
  let success := decide (ret.status = .success)
  match pending with
  | none => c
  | some ⟨.wrap, _, _⟩ =>
    match extractAmountForAlkane ret.alkanes frbtcAlkane with
    | none => c
    | some amount => { c with wrapEvents := c.wrapEvents ++ [wrapEvent block tx amount success] }
  | some ⟨.unwrap, none, _⟩ => c
  | some ⟨.unwrap, some amount, vout⟩ =>
    { c with
      unwrapEvents := c.unwrapEvents ++ [wrapEvent block tx amount success]
      unwrapDeltaAll := saturatingAdd c.unwrapDeltaAll amount
      unwrapDeltaSuccess :=
        if success then saturatingAdd c.unwrapDeltaSuccess amount else c.unwrapDeltaSuccess
      unwrapRequests := c.unwrapRequests ++ (unwrapRequest block tx ⟨.unwrap, some amount, vout⟩ ret).toList }

/-- One event of a trace. -/
def Collected.step (w : Collected T × List (Option ParsedWrapInvoke)) :
    TraceEvent → Collected T × List (Option ParsedWrapInvoke)
  | .opening inv => (w.1, parseWrapInvoke inv frbtcAlkane :: w.2)
  | .closing ret => (w.1.leave block tx w.2.head?.join ret, w.2.tail)
  | .leaf _ => w

/-- The loop over the traces. -/
def collectTraces (bitcoin : BitcoinDecode) : Collected T :=
  block.transactions.foldl (fun c tx => tx.traces.foldl (fun c trace =>
    match cleanTrace bitcoin block.hostFunctionValues trace with
    | none => c
    | some cleaned => (cleaned.events.foldl (Collected.step block tx) (c, [])).1) c) .empty

/-- A call with its transaction, and whether it or a call around it has failed. -/
abbrev MarkedCall (T : Type) := SubfrostTx T × (InvokeData × ReturnData) × Bool

/-- The calls of a block in the order of their returns. -/
def markedCalls (calls : Trace → CallForest) : List (MarkedCall T) :=
  block.transactions.flatMap fun tx => tx.traces.flatMap fun trace =>
    ((calls trace).exitsIn (fun _ ret => decide (ret.status = .failure)) false).map (Prod.mk tx)

/-- One call after the other. -/
def collectCalls (calls : List (MarkedCall T)) (c : Collected T) : Collected T :=
  calls.foldl (fun c call => c.leave block call.1 (parseWrapInvoke call.2.1.1 frbtcAlkane) call.2.1.2) c

variable (call : InvokeData × ReturnData)

/-- The amount of an unwrap that has returned success. -/
def succeededUnwrap : Option ℕ :=
  if call.2.status = .success then
    (parseWrapInvoke call.1 frbtcAlkane).bind fun p => if p.kind = .unwrap then p.amount else none
  else none

/-- What is recorded of successful unwraps: events, their sum, requests. -/
def Collected.successful : List (WrapEvent T) × ℕ × List (UnwrapRequest T) :=
  (c.unwrapEvents.filter WrapEvent.success, c.unwrapDeltaSuccess, c.unwrapRequests)

/-- `total_success`, from the total before the block. -/
def Collected.totalSuccess (total : ℕ) : ℕ := saturatingAdd total c.unwrapDeltaSuccess

lemma successful_leave :
    ∃ f : List (WrapEvent T) × ℕ × List (UnwrapRequest T) → List (WrapEvent T) × ℕ × List (UnwrapRequest T),
      (∀ c : Collected T, (c.leave block tx (parseWrapInvoke call.1 frbtcAlkane) call.2).successful = f c.successful) ∧
      (succeededUnwrap call = none → f = id) ∧
      ∀ s, (f s).1.length = s.1.length + (succeededUnwrap call).isSome.toNat := by
  unfold succeededUnwrap
  rcases parseWrapInvoke call.1 frbtcAlkane with _ | ⟨_ | _, amount, vout⟩
  · exact ⟨id, fun c => rfl, fun _ => rfl, by simp⟩
  · refine ⟨id, fun c => ?_, fun _ => rfl, by simp⟩
    unfold Collected.leave
    cases extractAmountForAlkane call.2.alkanes frbtcAlkane <;> rfl
  · rcases amount with _ | amount
    · exact ⟨id, fun c => rfl, fun _ => rfl, by simp⟩
    · by_cases hsuccess : call.2.status = .success
      · refine ⟨fun s => (s.1 ++ [wrapEvent block tx amount true], saturatingAdd s.2.1 amount,
          s.2.2 ++ (unwrapRequest block tx ⟨.unwrap, some amount, vout⟩ call.2).toList), ?_, ?_, ?_⟩
        · simp [Collected.leave, Collected.successful, wrapEvent, hsuccess]
        · simp [hsuccess]
        · simp [hsuccess]
      · refine ⟨id, fun c => ?_, fun _ => rfl, by simp [hsuccess]⟩
        simp [Collected.leave, Collected.successful, wrapEvent, unwrapRequest, hsuccess]

section
variable {block} {calls : List (MarkedCall T)} {c c' : Collected T}

lemma length_successful_collectCalls :
    (collectCalls block calls c).successful.1.length
      = c.successful.1.length + calls.countP fun call => (succeededUnwrap call.2.1).isSome := by
  induction calls generalizing c with
  | nil => rfl
  | cons call calls ih =>
    obtain ⟨f, hf, -, hlength⟩ := successful_leave block call.1 call.2.1
    rw [collectCalls, foldl_cons, ← collectCalls, ih, hf, hlength, countP_cons]
    cases (succeededUnwrap call.2.1).isSome <;> simp +arith

/-- Calls that have failed, and in which no unwrap has succeeded, may be left out. -/
theorem successful_collectCalls_filter
    (h : ∀ call ∈ calls, call.2.2 = true → succeededUnwrap call.2.1 = none) (hc : c.successful = c'.successful) :
    (collectCalls block calls c).successful
      = (collectCalls block (calls.filter fun call => !call.2.2) c').successful := by
  induction calls generalizing c c' with
  | nil => exact hc
  | cons call calls ih =>
    have ih := fun {c c'} => @ih c c' fun call hcall => h call (mem_cons_of_mem _ hcall)
    obtain ⟨f, hf, hid, -⟩ := successful_leave block call.1 call.2.1
    cases hfailed : call.2.2 with
    | true =>
      rw [filter_cons_of_neg (by simp [hfailed])]
      refine ih ?_
      rw [hf, hid (h call mem_cons_self hfailed)]
      exact hc
    | false =>
      rw [filter_cons_of_pos (by simp [hfailed])]
      exact ih (by rw [hf, hf, hc])

end

section
variable {block} (bitcoin : BitcoinDecode) (calls : Trace → CallForest)
  (hnested : ∀ tx ∈ block.transactions, ∀ trace ∈ tx.traces, trace.events = (calls trace).flatten)
include hnested

lemma collectTraces_eq : collectTraces block bitcoin = collectCalls block (markedCalls block calls) .empty := by
  unfold collectTraces collectCalls markedCalls
  rw [foldl_flatMap]
  refine foldl_ext _ _ _ fun c tx htx => ?_
  rw [foldl_flatMap]
  refine foldl_ext _ _ _ fun c trace htrace => ?_
  have hevents := hnested tx htx trace htrace
  rw [cleanTrace_of_nested _ _ hevents, foldl_map]
  simp only [hevents]
  exact congrArg Prod.fst (Nest.foldl_flatten (fun inv => parseWrapInvoke inv frbtcAlkane)
    (Collected.leave block tx) (fun _ _ _ => rfl) (fun _ _ _ _ => rfl) (fun _ _ => rfl) _ _ _ _)

/-- What is recorded as successful comes from the calls that no failure has undone alone, exactly when no
unwrap has succeeded inside a failed call. -/
theorem unwraps_committed_iff (total : ℕ) :
    (let collected := collectTraces block bitcoin
      let committed := collectCalls block ((markedCalls block calls).filter fun call => !call.2.2) .empty
      collected.unwrapEvents.filter WrapEvent.success = committed.unwrapEvents.filter WrapEvent.success ∧
        collected.totalSuccess total = committed.totalSuccess total ∧
        collected.unwrapRequests = committed.unwrapRequests) ↔
      ∀ call ∈ markedCalls block calls, call.2.2 = true → succeededUnwrap call.2.1 = none := by
  rw [collectTraces_eq bitcoin calls hnested]
  constructor
  · rintro ⟨hevents, -⟩ call hcall hfailed
    have hlength := (length_successful_collectCalls.symm.trans (congrArg length hevents)).trans
      length_successful_collectCalls
    rw [countP_eq_countP_filter_add _ _ fun call => !call.2.2, add_left_cancel_iff, add_eq_left, countP_eq_zero] at hlength
    have hnone := hlength call (mem_filter.2 ⟨hcall, by simp [hfailed]⟩)
    simpa using hnone
  · intro h
    have heq := @successful_collectCalls_filter _ _ block _ .empty _ h rfl
    obtain ⟨hevents, hrest⟩ := Prod.mk.inj heq
    obtain ⟨hdelta, hrequests⟩ := Prod.mk.inj hrest
    exact ⟨hevents, congrArg (saturatingAdd total) hdelta, hrequests⟩

end

/-- The call of `unwrapTx`, made by a call that ends with the status. -/
def nestedUnwrap (status : TraceStatus) : CallForest :=
  .node { unwrapCall with inputs := [] } (.node unwrapCall .nil ⟨.success, [], [], []⟩ .nil) ⟨status, [], [], []⟩ .nil

/-- A block with this call in the place of the one of `unwrapTx`. -/
def nestedBlock (status : TraceStatus) : SubfrostBlock ℕ :=
  unwrapBlock 1 [{ unwrapTx 1 [] [1] with traces := [⟨[], (nestedUnwrap status).flatten⟩] }]

theorem unwraps_committed_succeeded :
    (collectTraces (nestedBlock .success) noDecode).unwrapRequests
      = (collectCalls (nestedBlock .success) ((markedCalls (nestedBlock .success) fun _ =>
          nestedUnwrap .success).filter fun call => !call.2.2) .empty).unwrapRequests :=
  ((unwraps_committed_iff noDecode (fun _ => nestedUnwrap .success) (by decide +kernel) 0).2
    (by decide +kernel)).2.2

/-- The outer call has failed, and the unwrap in it counts. -/
theorem unwraps_reverted :
    let collected := collectTraces (nestedBlock .failure) noDecode
    collected.unwrapEvents = [⟨0, 1, 5, [1], true⟩] ∧ collected.totalSuccess 0 = 5 ∧
      collected.unwrapRequests = [⟨0, 1, 0, 5, [1], none⟩] ∧
      (markedCalls (nestedBlock .failure) fun _ => nestedUnwrap .failure).all fun call => call.2.2 := by
  decide +kernel

end Espo.Subfrost
