import Espo.Ammdata.Reserves
import Espo.Essentials.TraceDeltas

/-!
# Pools found in traces

`extract_new_pools_from_espo_transaction` finds the pools that a transaction creates: a contract of which
some trace has a create event, and one of whose calls returns a storage with the two tokens. The walk
keeps the open calls on a stack. The status of a call is not read.
-/

namespace Espo.Ammdata
open Lib Alkanes Essentials List

/-- `schema_id_from_storage_val_32b`: two numbers of 16 bytes, the lowest byte first. -/
def schemaIdFromStorageVal32b (value : Text) : Option SchemaAlkaneId :=
  let hex := (stripStart "0x".toList value).getD value
  if hex.length = 64 then
    (hexDecode hex).bind fun bytes =>
      let numbers := bytes.map UInt8.toFin
      schemaIdFromParts (ofLeBytes (numbers.take 16)) (ofLeBytes (numbers.drop 16))
  else none

/-- The last value that a storage lists under a key. -/
def storageValue (storage : List (Text × Text)) (key : String) : Option Text :=
  storage.foldl (fun value kv => if kv.1 = key.toList then some kv.2 else value) none

/-- The ids of the create events. -/
def createdIds (events : List TraceEvent) : List ShortId :=
  events.filterMap fun
    | .leaf id => some id
    | _ => none

section Walk
variable (created : List ShortId)

/-- What is done at the return from `leaving`. The pools in `results` are those of `seen_pools`. -/
def leaveCall (results : List PoolCandidate) (leaving : ShortId) (ret : ReturnData) :
    Except String (List PoolCandidate) :=
  if leaving ∉ created then .ok results
  else
    match storageValue ret.storage "/alkane/0", storageValue ret.storage "/alkane/1" with
    | some v0, some v1 =>
      match schemaIdFromStorageVal32b v0, schemaIdFromStorageVal32b v1, parseShortId leaving with
      | none, _, _ => .error "decode /alkane/0 failed"
      | some _, none, _ => .error "decode /alkane/1 failed"
      | some _, some _, none => .error "decode created pool id (leaving)"
      | some base, some quote, some pool =>
        if pool ∈ results.map fun c => c.defs.pool then .ok results
        else .ok (results ++ [⟨⟨pool, base, quote⟩,
          (storageValue ret.storage "/factory_id").bind schemaIdFromStorageVal32b⟩])
    | _, _ => .ok results

/-- One event, with the pools found and the stack of calls. -/
def newPoolStep (w : List PoolCandidate × List ShortId) :
    TraceEvent → Except String (List PoolCandidate × List ShortId)
  | .opening inv => .ok (w.1, inv.myself :: w.2)
  | .closing ret =>
    match w.2 with
    | [] => .ok w
    | leaving :: stack => (leaveCall created w.1 leaving ret).map fun results => (results, stack)
  | .leaf _ => .ok w

end Walk

/-- `extract_new_pools_from_espo_transaction`. The stack is not emptied between traces. -/
def extractNewPools (bitcoin : BitcoinDecode) (host : HostFunctionValues)
    (traces : Option (List Trace)) : Except String (List PoolCandidate) :=
  let cleaned := (traces.getD []).filterMap (cleanTrace bitcoin host)
  let created := cleaned.flatMap fun trace => createdIds trace.events
  if created = [] then .ok []
  else ((cleaned.flatMap Trace.events).foldlM (newPoolStep created) ([], [])).map Prod.fst

/-- The pool that a call defines, if any: it was created, and returns a storage with both tokens. -/
def definedPool (created : List ShortId) (call : InvokeData × ReturnData) : Option SchemaAlkaneId :=
  if call.1.myself ∈ created ∧ (storageValue call.2.storage "/alkane/0").isSome ∧
      (storageValue call.2.storage "/alkane/1").isSome then
    parseShortId call.1.myself
  else none

section Found
variable {created : List ShortId} {results pools : List PoolCandidate}

lemma mem_leaveCall {call : InvokeData × ReturnData}
    (h : leaveCall created results call.1.myself call.2 = .ok pools) (id : SchemaAlkaneId) :
    id ∈ pools.map (fun c => c.defs.pool) ↔
      id ∈ results.map (fun c => c.defs.pool) ∨ id ∈ definedPool created call := by
  unfold leaveCall at h
  unfold definedPool
  split_ifs at h with hcreated
  · split at h
    · rename_i v0 v1 h0 h1
      split at h <;> try cases h
      rename_i base quote pool hbase hquote hpool
      rw [if_pos ⟨hcreated, by simp [h0], by simp [h1]⟩, hpool, Option.mem_some_iff]
      split_ifs at h with hseen
      · cases h
        exact ⟨.inl, fun hid => hid.elim (fun hold => hold) fun heq => heq ▸ hseen⟩
      · cases h
        simp [eq_comm]
    · rename_i hnone
      cases h
      rw [if_neg]
      · simp
      · rintro ⟨-, h0, h1⟩
        obtain ⟨v0, hv0⟩ := Option.isSome_iff_exists.1 h0
        obtain ⟨v1, hv1⟩ := Option.isSome_iff_exists.1 h1
        exact hnone v0 v1 hv0 hv1
  · cases h
    simp [hcreated]

lemma mem_pools_iff {calls : List (InvokeData × ReturnData)}
    (h : calls.foldlM (fun results call => leaveCall created results call.1.myself call.2) results
      = .ok pools) (id : SchemaAlkaneId) :
    id ∈ pools.map (fun c => c.defs.pool) ↔
      id ∈ results.map (fun c => c.defs.pool) ∨ ∃ call ∈ calls, id ∈ definedPool created call := by
  induction calls generalizing results with
  | nil =>
    cases h
    simp
  | cons call calls ih =>
    rw [foldlM_cons] at h
    cases hleave : leaveCall created results call.1.myself call.2 with
    | error e =>
      rw [hleave] at h
      cases h
    | ok next =>
      rw [hleave] at h
      rw [ih h, mem_leaveCall hleave, or_assoc]
      simp

lemma foldlM_newPoolStep (traces : List (Text × CallForest)) (results : List PoolCandidate) :
    (traces.flatMap fun trace => trace.2.flatten).foldlM (newPoolStep created) (results, [])
      = (fun results => (results, [])) <$> (traces.flatMap fun trace => trace.2.exits).foldlM
          (fun results call => leaveCall created results call.1.myself call.2) results := by
  induction traces generalizing results with
  | nil => rfl
  | cons trace traces ih =>
    have hcalls : trace.2.flatten.foldlM (newPoolStep created) (results, [])
        = (fun results => (results, [])) <$> trace.2.exits.foldlM
            (fun results call => leaveCall created results call.1.myself call.2) results :=
      Nest.foldlM_flatten (fun _ _ _ => rfl) (fun _ _ _ _ => rfl) (fun _ _ => rfl) _ _ _
    simp only [flatMap_cons, foldlM_append, hcalls, bind_map_left, ih, map_bind]

end Found

section Committed
variable (bitcoin : BitcoinDecode) (host : HostFunctionValues) (traces : List (Text × CallForest))

/-- The alkanes of which a create event is inside no failed call. -/
def committedCreates : List SchemaAlkaneId :=
  traces.flatMap fun trace => (createdIds
    (trace.2.prune fun _ ret => decide (ret.status = .failure)).flatten).filterMap parseShortId

/-- The alkanes of which there is a create event. -/
def allCreates : List ShortId := traces.flatMap fun trace => createdIds trace.2.flatten

/-- All pools that are found were created outside failed calls, exactly when this holds of every created
alkane one of whose calls returns both tokens, whether the call has failed or not. -/
theorem newPools_committed_iff {pools : List PoolCandidate}
    (h : extractNewPools bitcoin host (some (traces.map fun trace => ⟨trace.1, trace.2.flatten⟩))
      = .ok pools) :
    (∀ pool ∈ pools, pool.defs.pool ∈ committedCreates traces) ↔
      ∀ call ∈ traces.flatMap fun trace => trace.2.exits,
        ∀ id ∈ definedPool (allCreates traces) call, id ∈ committedCreates traces := by
  have hcleaned : (traces.map fun trace => (⟨trace.1, trace.2.flatten⟩ : Trace)).filterMap
      (cleanTrace bitcoin host) = traces.map fun trace => ⟨trace.1, trace.2.flatten⟩ := by
    rw [filterMap_map]
    have hsome : cleanTrace bitcoin host ∘ (fun trace : Text × CallForest => (⟨trace.1, trace.2.flatten⟩ : Trace))
        = fun trace => some ⟨trace.1, trace.2.flatten⟩ :=
      funext fun trace => cleanTrace_of_nested bitcoin host rfl
    rw [hsome, filterMap_eq_map']
  have hfound : ∀ id, id ∈ pools.map (fun c => c.defs.pool) ↔
      ∃ call ∈ traces.flatMap fun trace => trace.2.exits, id ∈ definedPool (allCreates traces) call := by
    intro id
    simp only [extractNewPools, Option.getD_some, hcleaned, flatMap_map] at h
    change (if allCreates traces = [] then _ else _) = _ at h
    split_ifs at h with hnone
    · cases h
      simp [hnone, definedPool]
    · change Except.map _ (foldlM (newPoolStep (allCreates traces)) _ _) = _ at h
      rw [foldlM_newPoolStep] at h
      cases hcalls : (traces.flatMap fun trace => trace.2.exits).foldlM (fun results call =>
          leaveCall (allCreates traces) results call.1.myself call.2) [] with
      | error e =>
        rw [hcalls] at h
        cases h
      | ok found =>
        rw [hcalls] at h
        cases h
        rw [mem_pools_iff hcalls]
        simp
  constructor
  · intro hall call hcall id hid
    obtain ⟨pool, hpool, rfl⟩ := List.mem_map.1 ((hfound id).2 ⟨call, hcall, hid⟩)
    exact hall pool hpool
  · intro hall pool hpool
    obtain ⟨call, hcall, hid⟩ := (hfound _).1 (List.mem_map_of_mem hpool)
    exact hall call hcall _ hid

end Committed

/-- The factory 2:1 creates alkane 2:5 and calls it, and 2:5 returns the tokens 2:0 and 3:0. -/
def poolCreation (status : TraceStatus) : CallForest :=
  .node (callOf "call" (hexId '2' '1') (hexId '2' '7') '0')
    (.leaf (hexId '2' '5')
      (.node (callOf "call" (hexId '2' '5') (hexId '2' '7') '0') .nil
        { returnOf .success (hexId '2' '7') '0' with
          storage := [("/alkane/0".toList, '0' :: '2' :: replicate 62 '0'),
            ("/alkane/1".toList, '0' :: '3' :: replicate 62 '0')] }
        .nil))
    (returnOf status (hexId '2' '7') '0') .nil

theorem newPools_committed_created :
    extractNewPools noDecode noHost (some [⟨[], (poolCreation .success).flatten⟩])
        = .ok [⟨⟨⟨2, 5⟩, ⟨2, 0⟩, ⟨3, 0⟩⟩, none⟩] ∧
      ∀ pool ∈ ([⟨⟨⟨2, 5⟩, ⟨2, 0⟩, ⟨3, 0⟩⟩, none⟩] : List PoolCandidate),
        pool.defs.pool ∈ committedCreates [([], poolCreation .success)] :=
  ⟨rfl, (newPools_committed_iff noDecode noHost [([], poolCreation .success)] rfl).2 (by decide +kernel)⟩

/-- When the factory fails, the pool is found all the same. -/
theorem newPools_reverted :
    ((extractNewPools noDecode noHost (some [⟨[], (poolCreation .failure).flatten⟩])).toOption.map
        fun pools => pools.map fun c => c.defs.pool) = some [⟨2, 5⟩] ∧
      committedCreates [([], poolCreation .failure)] = [] := by
  decide +kernel

end Espo.Ammdata
