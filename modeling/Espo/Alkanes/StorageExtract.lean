import Espo.Alkanes.OrphanReturns

/-!
# Storage writes of a trace

`extract_alkane_storage` collects the storage that a protobuf trace reports: every exit event lists what
its frame wrote, and a later write of a key replaces an earlier one. The status of a frame is not read.
-/

namespace Espo.Alkanes
open Lib Essentials List

/-! ## Protobuf traces -/

/-- `alkanes::Uint128`. -/
structure Uint128 where
  lo : Fin (2 ^ 64)
  hi : Fin (2 ^ 64)
  deriving DecidableEq

/-- `alkanes::AlkaneId`. -/
structure PbAlkaneId where
  block : Option Uint128
  tx : Option Uint128
  deriving DecidableEq

/-- `alkanes::Context`, of which only the callee is read. -/
structure PbContext where
  myself : Option PbAlkaneId
  deriving DecidableEq

/-- `alkanes::TraceContext`. -/
structure PbTraceContext where
  inner : Option PbContext
  deriving DecidableEq

/-- `alkanes::AlkanesEnterContext`. -/
structure EnterContext where
  context : Option PbTraceContext
  deriving DecidableEq

/-- `alkanes::ExtendedCallResponse`. -/
structure PbResponse where
  alkanes : List (Option PbAlkaneId × Option Uint128)
  storage : List (List UInt8 × List UInt8)
  data : List UInt8
  deriving DecidableEq

/-- `alkanes::AlkanesExitContext`. -/
structure ExitContext where
  status : TraceStatus
  response : Option PbResponse
  deriving DecidableEq

/-- The events that open and close no frame; `missing` is an event without a kind. -/
inductive OtherEvent where
  | createAlkane
  | receiveIntent
  | valueTransfer
  | missing
  deriving DecidableEq

/-- `alkanes::AlkanesTraceEvent`: an opening bracket is `EnterContext`, a closing one `ExitContext`. -/
abbrev PbEvent := Bracket EnterContext ExitContext OtherEvent

/-- The calls of a well-nested protobuf trace. -/
abbrev PbForest := Nest EnterContext ExitContext OtherEvent

/-- `u128_from_uint128`. -/
def u128FromUint128 (u : Uint128) : ℕ := u.hi.val * 2 ^ 64 + u.lo.val

/-- `try_into().unwrap_or(MAX)`. -/
def clampFin (n v : ℕ) [NeZero n] : Fin n := if h : v < n then ⟨v, h⟩ else Fin.ofNat n (n - 1)

/-- `try_into`, of an `AlkaneId` to a `SchemaAlkaneId`. -/
def PbAlkaneId.tryInto (id : PbAlkaneId) : Except String SchemaAlkaneId :=
  match id.block, id.tx with
  | none, _ => .error "Schema error: missing block on AlkaneId -> SchemaAlkaneId"
  | some _, none => .error "Schema error: missing tx on AlkaneId -> SchemaAlkaneId"
  | some block, some tx =>
    .ok ⟨clampFin (2 ^ 32) (u128FromUint128 block), clampFin (2 ^ 64) (u128FromUint128 tx)⟩

/-- The id of the callee, when the event carries its context. -/
def EnterContext.myself (enter : EnterContext) : Option PbAlkaneId :=
  (enter.context.bind PbTraceContext.inner).bind PbContext.myself

/-- `protobuf_event_views`, of one event. -/
def protobufEventView : PbEvent → CleanEventView
  | .opening _ => .invoke
  | .closing exit =>
    .ret (if exit.status = .failure then none
      else match exit.response with
        | none => some []
        | some resp => if resp.alkanes.isEmpty && resp.storage.isEmpty then some resp.data else none)
  | .leaf _ => .other

section Extract
variable {T : Type*} (txid : T)

/-- `AlkaneStorageChanges`. -/
abbrev AlkaneStorageChanges (T : Type*) := Table SchemaAlkaneId (Table (List UInt8) (T × List UInt8))

/-- The variables of the walk. -/
structure ExtractWalk (T : Type*) where
  out : AlkaneStorageChanges T
  stack : List SchemaAlkaneId

/-- The storage that a response lists, under the alkane that returns it. -/
def recordStorage (owner : SchemaAlkaneId) (out : AlkaneStorageChanges T) :
    Option PbResponse → AlkaneStorageChanges T
  | none => out
  | some resp =>
    out.put owner (((out.get owner).getD ∅).putAll (resp.storage.map fun kv => (kv.1, txid, kv.2)))

/-- One event. An enter event without its context pushes nothing, and an exit event with an empty stack
is skipped. -/
def ExtractWalk.step (w : ExtractWalk T) : PbEvent → Except String (ExtractWalk T)
  | .opening enter =>
    match enter.myself with
    | none => .ok w
    | some id => id.tryInto.map fun owner => { w with stack := owner :: w.stack }
  | .closing exit =>
    match w.stack with
    | [] => .ok w
    | owner :: stack => .ok ⟨recordStorage txid owner w.out exit.response, stack⟩
  | .leaf _ => .ok w

variable (bitcoin : BitcoinDecode) (host : HostFunctionValues) (events : List PbEvent)

/-- The positions that are skipped. -/
def removedIndices : Finset ℕ :=
  (orphanReturnRemovals bitcoin host (events.map protobufEventView)).getD ∅

/-- The events that are not skipped. -/
def keptEvents : List PbEvent :=
  (events.zipIdx.filter fun ev => ev.2 ∉ removedIndices bitcoin host events).map Prod.fst

/-- `extract_alkane_storage`. -/
def extractAlkaneStorage : Except String (AlkaneStorageChanges T) :=
  ((keptEvents bitcoin host events).foldlM (ExtractWalk.step txid) ⟨∅, []⟩).map ExtractWalk.out

end Extract

/-- The value reported for a key of an alkane. -/
def reported {T : Type*} (out : AlkaneStorageChanges T) (alkane : SchemaAlkaneId) (key : List UInt8) :
    Option (T × List UInt8) :=
  (out.get alkane).bind fun kvs => kvs.get key

/-! ## Frames -/

/-- A frame that has exited, with whether its writes are committed. -/
structure FrameExit where
  committed : Bool
  enter : EnterContext
  exit : ExitContext

/-- The frames of a forest in the order of their exits; `live` says that all frames around them
succeed. -/
def frameExits (live : Bool) : PbForest → List FrameExit
  | .nil => []
  | .leaf _ rest => frameExits live rest
  | .node enter body exit rest =>
    frameExits (live && decide (exit.status = .success)) body
      ++ ⟨live && decide (exit.status = .success), enter, exit⟩ :: frameExits live rest

/-- The alkane of a frame. -/
def EnterContext.owner (enter : EnterContext) : Option SchemaAlkaneId :=
  enter.myself.bind fun id => id.tryInto.toOption

/-- The value that a frame leaves under a key: the last one it lists. -/
def FrameExit.value (f : FrameExit) (key : List UInt8) : Option (List UInt8) :=
  f.exit.response.bind fun resp => ((resp.storage.filter fun kv => kv.1 = key).getLast?).map Prod.snd

/-- What the frames of an alkane write under a key, in the order of their exits, each with whether it is
committed. -/
def frameWrites (alkane : SchemaAlkaneId) (key : List UInt8) (frames : List FrameExit) :
    List (Bool × List UInt8) :=
  frames.filterMap fun f =>
    if f.enter.owner = some alkane then (f.value key).map fun value => (f.committed, value) else none

/-- The value written by the last-exiting frame of an alkane that succeeded and is not nested inside a
failed one. -/
def committedValue (calls : PbForest) (alkane : SchemaAlkaneId) (key : List UInt8) : Option (List UInt8) :=
  (((frameWrites alkane key (frameExits true calls)).filter fun w => w.1).getLast?).map Prod.snd

/-! ## What is reported -/

section Reported
variable {T : Type*} (txid : T)

/-- The exit of a frame. -/
def recordFrame (out : AlkaneStorageChanges T) (f : FrameExit) : AlkaneStorageChanges T :=
  match f.enter.owner with
  | none => out
  | some owner => recordStorage txid owner out f.exit.response

lemma foldlM_step_flatten {calls : PbForest}
    (howner : ∀ enter, .opening enter ∈ calls.flatten → ∃ id owner,
      enter.myself = some id ∧ id.tryInto = .ok owner)
    (live : Bool) (out : AlkaneStorageChanges T) (stack : List SchemaAlkaneId) :
    calls.flatten.foldlM (ExtractWalk.step txid) ⟨out, stack⟩
      = .ok ⟨(frameExits live calls).foldl (recordFrame txid) out, stack⟩ := by
  induction calls generalizing live out stack with
  | nil => rfl
  | leaf c rest ih =>
    exact ih (fun enter henter => howner enter (mem_cons_of_mem _ henter)) live out stack
  | node enter body exit rest ihBody ihRest =>
    obtain ⟨id, owner, hmyself, hid⟩ := howner enter mem_cons_self
    have hbody := ihBody (fun e he => howner e (by simp [Nest.flatten, he]))
      (live && decide (exit.status = .success)) out (owner :: stack)
    have hopen : ExtractWalk.step txid ⟨out, stack⟩ (.opening enter) = .ok ⟨out, owner :: stack⟩ := by
      simp [ExtractWalk.step, hmyself, hid, Except.map]
    have hrecord : ∀ out' : AlkaneStorageChanges T, ∀ committed,
        recordFrame txid out' ⟨committed, enter, exit⟩ = recordStorage txid owner out' exit.response := by
      simp [recordFrame, EnterContext.owner, hmyself, hid, Except.toOption]
    rw [Nest.flatten, foldlM_cons, hopen, frameExits, foldl_append, foldl_cons, hrecord]
    show (body.flatten ++ .closing exit :: rest.flatten).foldlM (ExtractWalk.step txid)
      ⟨out, owner :: stack⟩ = _
    rw [foldlM_append, hbody]
    exact ihRest (fun e he => howner e (by simp [Nest.flatten, he])) live _ stack

variable (out : AlkaneStorageChanges T)

lemma reported_recordFrame (f : FrameExit) (alkane : SchemaAlkaneId) (key : List UInt8) :
    reported (recordFrame txid out f) alkane key
      = ((if f.enter.owner = some alkane then f.value key else none).map fun v => (txid, v)).or
          (reported out alkane key) := by
  rw [recordFrame]
  cases howner : f.enter.owner with
  | none => simp
  | some owner =>
    cases hresp : f.exit.response with
    | none => simp [recordStorage, FrameExit.value, hresp]
    | some resp =>
      have hvalue : f.value key
          = ((resp.storage.filter fun kv => kv.1 = key).getLast?).map Prod.snd := by
        rw [FrameExit.value, hresp, Option.bind_some]
      simp only [recordStorage]
      by_cases hown : owner = alkane
      · subst hown
        have hold : reported out owner key = ((out.get owner).getD ∅).get key := by
          rw [reported]
          cases out.get owner <;> rfl
        rw [reported, Table.get_put_self, Option.bind_some, Table.get_putAll, if_pos rfl, hvalue, hold,
          List.filter_map, getLast?_map, Option.map_map, Option.map_map]
        rfl
      · rw [reported, Table.get_put_of_ne _ _ (Ne.symm hown), if_neg (by simpa using hown)]
        rfl

/-- After any frames, a key has the value of the last frame that writes it. -/
theorem reported_frames (frames : List FrameExit) (alkane : SchemaAlkaneId) (key : List UInt8) :
    reported (frames.foldl (recordFrame txid) out) alkane key
      = (((frameWrites alkane key frames).getLast?).map fun w => (txid, w.2)).or (reported out alkane key) := by
  induction frames using List.reverseRecOn with
  | nil => rfl
  | append_singleton frames f ih =>
    rw [foldl_append, foldl_cons, foldl_nil, reported_recordFrame, ih]
    by_cases hown : f.enter.owner = some alkane
    · cases hvalue : f.value key with
      | none => simp [frameWrites, hvalue]
      | some value => simp [frameWrites, hown, hvalue]
    · simp [frameWrites, hown]

end Reported

/-! ## Balanced traces -/

section Balanced
variable (bitcoin : BitcoinDecode) (host : HostFunctionValues) (events : List PbEvent)

lemma map_keptEvents :
    (keptEvents bitcoin host events).map protobufEventView
      = without (removedIndices bitcoin host events) (events.map protobufEventView) := by
  rw [keptEvents, without, zipIdx_map, List.filter_map, List.map_map, List.map_map]
  rfl

lemma invokes_map_view :
    invokes (events.map protobufEventView) = events.countP Bracket.isOpening := by
  rw [invokes, countP_map]
  apply countP_congr
  rintro (enter | exit | other) _ <;> rfl

lemma returns_map_view :
    returns (events.map protobufEventView) = events.countP Bracket.isClosing := by
  rw [returns, countP_map]
  apply countP_congr
  rintro (enter | exit | other) _ <;> rfl

variable {events : List PbEvent}

lemma exists_calls_of_wellNested (h : WellNested (events.map protobufEventView)) :
    ∃ calls : PbForest, events = calls.flatten := by
  apply Nest.exists_flatten_of_count
  · intro p hp
    rw [← invokes_map_view, ← returns_map_view]
    exact h.returns_le _ (hp.map _)
  · rw [← invokes_map_view, ← returns_map_view]
    exact h.total

variable {T : Type*} (txid : T)

lemma tryInto_of_foldlM {w w' : ExtractWalk T}
    (h : events.foldlM (ExtractWalk.step txid) w = .ok w') {enter : EnterContext} {id : PbAlkaneId}
    (henter : .opening enter ∈ events) (hid : enter.myself = some id) :
    ∃ owner, id.tryInto = .ok owner := by
  induction events generalizing w with
  | nil => cases henter
  | cons ev events ih =>
    rw [foldlM_cons] at h
    cases hstep : ExtractWalk.step txid w ev with
    | error e =>
      rw [hstep] at h
      cases h
    | ok w₁ =>
      rw [hstep] at h
      rcases mem_cons.1 henter with rfl | hmem
      · cases hinto : id.tryInto with
        | error e => simp [ExtractWalk.step, hid, hinto, Except.map] at hstep
        | ok owner => exact ⟨owner, rfl⟩
      · exact ih h hmem

/-- What is reported for balanced events: the value of the last frame that writes the key. -/
theorem extractAlkaneStorage_eq {calls : PbForest}
    (hcalls : keptEvents bitcoin host events = calls.flatten)
    (howner : ∀ enter, .opening enter ∈ calls.flatten → ∃ id owner, enter.myself = some id ∧ id.tryInto = .ok owner) :
    ∃ out, extractAlkaneStorage txid bitcoin host events = .ok out ∧ ∀ alkane key,
      reported out alkane key
        = ((frameWrites alkane key (frameExits true calls)).getLast?).map fun w => (txid, w.2) := by
  refine ⟨(frameExits true calls).foldl (recordFrame txid) ∅, ?_, ?_⟩
  · rw [extractAlkaneStorage, hcalls, foldlM_step_flatten txid howner true]
    rfl
  · intro alkane key
    rw [reported_frames]
    exact Option.or_none

/-- The last frame of an alkane that writes a key is committed, or it wrote what the last committed one
did. -/
def LastWriteCommitted (calls : PbForest) (alkane : SchemaAlkaneId) (key : List UInt8) : Prop :=
  ∀ w, (frameWrites alkane key (frameExits true calls)).getLast? = some w →
    w.1 = true ∨ committedValue calls alkane key = some w.2

lemma committedValue_of_getLast? {calls : PbForest} {alkane : SchemaAlkaneId} {key value : List UInt8}
    (h : (frameWrites alkane key (frameExits true calls)).getLast? = some (true, value)) :
    committedValue calls alkane key = some value := by
  obtain ⟨ws, hws⟩ := getLast?_eq_some_iff.1 h
  rw [committedValue, hws]
  simp

/-- A trace whose enter events carry their context and that is balanced after cleaning: the storage
extracted for a key of an alkane is the one of its last committed write exactly when the last write is
committed or is of the same value. -/
theorem extractAlkaneStorage_committed_iff (events : List PbEvent)
    (hcontext : ∀ enter, .opening enter ∈ events → ∃ id, enter.myself = some id)
    (hbalanced : WellNested
      (without (removedIndices bitcoin host events) (events.map protobufEventView))) :
    ∃ calls : PbForest, keptEvents bitcoin host events = calls.flatten ∧
      ((∀ enter id, .opening enter ∈ events → enter.myself = some id →
          id.block.isSome = true ∧ id.tx.isSome = true) →
        ∃ out, extractAlkaneStorage txid bitcoin host events = .ok out) ∧
      ∀ out, extractAlkaneStorage txid bitcoin host events = .ok out → ∀ alkane key,
        (reported out alkane key = (committedValue calls alkane key).map (fun v => (txid, v)) ↔
          LastWriteCommitted calls alkane key) := by
  rw [← map_keptEvents] at hbalanced
  obtain ⟨calls, hcalls⟩ := exists_calls_of_wellNested hbalanced
  have hmem : ∀ ev, ev ∈ calls.flatten → ev ∈ events := by
    intro ev hev
    rw [← hcalls] at hev
    obtain ⟨⟨ev', i⟩, hzip, rfl⟩ := List.mem_map.1 hev
    exact mem_of_getElem? (mem_zipIdx_iff_getElem?.1 (mem_filter.1 hzip).1)
  refine ⟨calls, hcalls, ?_, ?_⟩
  · intro hids
    have howner : ∀ enter, .opening enter ∈ calls.flatten → ∃ id owner,
        enter.myself = some id ∧ id.tryInto = .ok owner := by
      intro enter henter
      obtain ⟨id, hid⟩ := hcontext enter (hmem _ henter)
      obtain ⟨hblock, htx⟩ := hids enter id (hmem _ henter) hid
      obtain ⟨block, hblock⟩ := Option.isSome_iff_exists.1 hblock
      obtain ⟨tx, htx⟩ := Option.isSome_iff_exists.1 htx
      exact ⟨id, _, hid, by rw [PbAlkaneId.tryInto, hblock, htx]⟩
    obtain ⟨out, hout, -⟩ := extractAlkaneStorage_eq bitcoin host txid hcalls howner
    exact ⟨out, hout⟩
  · intro out hout alkane key
    have howner : ∀ enter, .opening enter ∈ calls.flatten → ∃ id owner,
        enter.myself = some id ∧ id.tryInto = .ok owner := by
      intro enter henter
      obtain ⟨id, hid⟩ := hcontext enter (hmem _ henter)
      have hwalk : ∃ w, calls.flatten.foldlM (ExtractWalk.step txid) ⟨∅, []⟩ = .ok w := by
        rw [extractAlkaneStorage, hcalls] at hout
        cases hfold : calls.flatten.foldlM (ExtractWalk.step txid) ⟨∅, []⟩ with
        | error e =>
          rw [hfold] at hout
          cases hout
        | ok w => exact ⟨w, rfl⟩
      obtain ⟨w, hw⟩ := hwalk
      obtain ⟨owner, howner⟩ := tryInto_of_foldlM txid hw henter hid
      exact ⟨id, owner, hid, howner⟩
    obtain ⟨out', hout', hreported⟩ := extractAlkaneStorage_eq bitcoin host txid hcalls howner
    obtain rfl : out' = out := Except.ok.inj (hout'.symm.trans hout)
    rw [hreported]
    constructor
    · rintro heq ⟨committed, value⟩ hlast
      rw [hlast] at heq
      refine .inr ?_
      cases hvalue : committedValue calls alkane key with
      | none => simp [hvalue] at heq
      | some value' =>
        rw [hvalue] at heq
        simp only [Option.map_some, Option.some.injEq, Prod.mk.injEq, true_and] at heq
        rw [heq]
    · intro hcommitted
      cases hlast : (frameWrites alkane key (frameExits true calls)).getLast? with
      | none =>
        have hnone : frameWrites alkane key (frameExits true calls) = [] := getLast?_eq_none_iff.1 hlast
        rw [committedValue, hnone]
        rfl
      | some w =>
        obtain ⟨committed, value⟩ := w
        have hvalue : committedValue calls alkane key = some value := by
          rcases hcommitted _ hlast with rfl | hsame
          · exact committedValue_of_getLast? hlast
          · exact hsame
        rw [hvalue]
        rfl

end Balanced

/-! ## A write of a failed frame -/

/-- An enter event for the alkane `2:tx`. -/
def enterAlkane (tx : Fin (2 ^ 64)) : EnterContext := ⟨some ⟨some ⟨some ⟨some ⟨2, 0⟩, some ⟨tx, 0⟩⟩⟩⟩⟩

/-- A call of `2:1` that calls `2:2`, which writes under a key and ends with `status`. -/
def nestedCall (status : TraceStatus) : PbForest :=
  .node (enterAlkane 1)
    (.node (enterAlkane 2) .nil ⟨status, some ⟨[], [([1], [7])], []⟩⟩ .nil)
    ⟨.success, some ⟨[], [([2], [8])], []⟩⟩ .nil

/-- No host function, and nothing that decodes. -/
def noBitcoin : BitcoinDecode := ⟨fun _ => false, fun _ => false⟩

lemma nestedCall_context (status : TraceStatus) :
    ∀ enter, .opening enter ∈ (nestedCall status).flatten → ∃ id, enter.myself = some id := by
  intro enter henter
  simp only [nestedCall, Nest.flatten, nil_append, cons_append, mem_cons,
    Bracket.opening.injEq, reduceCtorEq, not_mem_nil, or_false] at henter
  rcases henter with rfl | rfl
  · exact ⟨_, rfl⟩
  · exact ⟨_, rfl⟩

/-- The write of a call that failed is reported, though no committed frame writes the key. -/
theorem extractAlkaneStorage_reports_failed :
    (∀ enter, .opening enter ∈ (nestedCall .failure).flatten → ∃ id, enter.myself = some id) ∧
    WellNested (without (removedIndices noBitcoin ⟨[], [], [], []⟩ (nestedCall .failure).flatten)
      ((nestedCall .failure).flatten.map protobufEventView)) ∧
    keptEvents noBitcoin ⟨[], [], [], []⟩ (nestedCall .failure).flatten = (nestedCall .failure).flatten ∧
    committedValue (nestedCall .failure) ⟨2, 2⟩ [1] = none ∧
    ∃ out, extractAlkaneStorage 0 noBitcoin ⟨[], [], [], []⟩ (nestedCall .failure).flatten = .ok out ∧
      reported out ⟨2, 2⟩ [1] = some (0, [7]) :=
  ⟨nestedCall_context .failure, wellNested_iff.2 ⟨by decide, by decide⟩, by decide, by decide +kernel,
    _, rfl, by decide +kernel⟩

theorem extractAlkaneStorage_committed_iff_success :
    ∃ calls : PbForest, keptEvents noBitcoin ⟨[], [], [], []⟩ (nestedCall .success).flatten = calls.flatten ∧
      ∀ out, extractAlkaneStorage 0 noBitcoin ⟨[], [], [], []⟩ (nestedCall .success).flatten = .ok out →
        ∀ alkane key, (reported out alkane key = (committedValue calls alkane key).map (fun v => (0, v)) ↔
          LastWriteCommitted calls alkane key) := by
  obtain ⟨calls, hcalls, -, hiff⟩ := extractAlkaneStorage_committed_iff noBitcoin ⟨[], [], [], []⟩ 0
    (nestedCall .success).flatten (nestedCall_context .success)
    (wellNested_iff.2 ⟨by decide, by decide⟩)
  exact ⟨calls, hcalls, hiff⟩

end Espo.Alkanes
