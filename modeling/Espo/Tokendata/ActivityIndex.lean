import Espo.Lists.Rows

/-!
# Token activity index lists

Lists of activity row ids kept for a token, an address or a pair of both. All lists share one space of
chunk ids. The appends of a block read the last chunks of all lists before the first append.
-/

namespace Espo.Tokendata
open Lib TreeDb Espo.Lists

/-- `ACTIVITY_INDEX_INLINE_CAP`. -/
def activityIndexInlineCap : ℕ := 8

/-- `activity_index_meta_key`. -/
def activityIndexMetaKey (activityRoot : Bytes) : Bytes := activityRoot ++ ascii "meta"

/-- The row of a list in the tree, with the prefix of the module. -/
def activityIndexRowKey (activityRoot : Bytes) : Bytes :=
  ascii "tokendata:" ++ activityIndexMetaKey activityRoot

/-- `token activity index chunk {chunk_id} is shorter than canonical length {rem}` -/
structure ShortChunk where
  chunkId : ℕ
  rem : ℕ

/-- What the list functions use of `TokenDataProvider`. -/
structure ActivityIndexProvider (V Id H : Type*) where
  tree : VersionedTreeDb Bytes V Id H
  chunks : ChunkStore Unit ℕ

/-- All lists share one space of chunk ids. -/
def oneSpace (_ : Bytes) : Unit := ()

section Defs
variable {V Id H : Type*} [DecidableEq Id] [DecidableEq H] (codec : StateCodec V)
  (p : ActivityIndexProvider V Id H)

/-- The state row of a list. -/
def ActivityIndexProvider.row (activityRoot : Bytes) (blockhash : Option H) : Option V :=
  rawGetAt p.tree (activityIndexRowKey activityRoot) blockhash

variable (read : ℕ → Option (List ℕ))

/-- `read_activity_index_row_id_range`. -/
def readActivityIndexRowIdRange (chunkIds : List ℕ) (chunkSize start stop : ℕ) : List ℕ :=
  if stop ≤ start ∨ chunkSize = 0 then []
  else ChunkedList.readChunks read chunkIds chunkSize start stop

/-- The rest of `get_activity_index_row_ids_range`, for a state that was found. -/
def activityIndexRange (state : ChunkedList ℕ) (start stop : ℕ) : List ℕ :=
  let total := state.total
  if total ≤ start then []
  else
    let start := min start total
    let stop := min stop total
    if stop ≤ start then []
    else
      match state with
      | .inline items => (items.drop start).take (stop - start)
      | .external chunkIds _ chunkSize =>
        readActivityIndexRowIdRange read chunkIds (max chunkSize 1) start stop

/-- `get_activity_index_row_ids_range`. -/
def getActivityIndexRowIdsRange (activityRoot : Bytes) (blockhash : Option H) (start stop : ℕ) :
    List ℕ :=
  if stop ≤ start then []
  else
    match (p.row activityRoot blockhash).bind codec.decode with
    | none => []
    | some state => activityIndexRange (p.chunks.read ()) state start stop

/-- `append_activity_index_values_with_state`. A preloaded last chunk is not read again. -/
def appendActivityIndexValuesWithState (chunkSize : ℕ) (activityRoot : Bytes) (values : List ℕ)
    (current : ChunkedList ℕ) (preloadedLastChunk : Option (Option (List ℕ)))
    (batch : ChunkBatch Bytes Unit ℕ) : Except ShortChunk (ℕ × ChunkBatch Bytes Unit ℕ) :=
  let read := fun id => preloadedLastChunk.getD (p.chunks.read () id)
  match batch.append oneSpace activityIndexInlineCap chunkSize read current activityRoot values with
  | .ok r => .ok r
  | .error (chunkId, rem) => .error ⟨chunkId, rem⟩

/-- The last chunk of a list, when it is not full. -/
def partialChunk : ChunkedList ℕ → Option ℕ
  | .inline _ => none
  | .external chunkIds len chunkSize =>
    if len % max chunkSize 1 = 0 then none else chunkIds.getLast?

/-- The append loop of `append_activity_index_values_batch`, with the states and chunks read before. -/
def appendPreloaded (chunkSize : ℕ) :
    List ((Bytes × List ℕ) × ChunkedList ℕ × Option (Option (List ℕ))) → ChunkBatch Bytes Unit ℕ →
    Except ShortChunk (ChunkBatch Bytes Unit ℕ)
  | [], batch => .ok batch
  | ((activityRoot, values), current, preloaded) :: entries, batch =>
    match appendActivityIndexValuesWithState p chunkSize activityRoot values current preloaded
      batch with
    | .error e => .error e
    | .ok (_, batch) => appendPreloaded chunkSize entries batch

/-- `append_activity_index_values_batch`. -/
def appendActivityIndexValuesBatch (chunkSize : ℕ) (entries : List (Bytes × List ℕ))
    (batch : ChunkBatch Bytes Unit ℕ) : Except ShortChunk (ChunkBatch Bytes Unit ℕ) :=
  let entries := entries.filter fun e => !e.2.isEmpty
  let states := entries.map fun e => codec.state (p.row e.1 none)
  let preloaded := states.map fun state => (partialChunk state).map (p.chunks.read ())
  appendPreloaded p chunkSize (entries.zip (states.zip preloaded)) batch

end Defs

/-! ## Keys -/

lemma activityIndexRowKey_injective : Function.Injective activityIndexRowKey := by
  intro activityRoot activityRoot' h
  exact List.append_cancel_right (List.append_cancel_left h)

/-! ## Reads and appends -/

section Spec
variable {V Id H : Type*} [DecidableEq Id] [DecidableEq H] {codec : StateCodec V}
  {p : ActivityIndexProvider V Id H}

lemma activityIndexRange_eq {read : ℕ → Option (List ℕ)} {state : ChunkedList ℕ} {l : List ℕ}
    (h : state.Represents read l) (start stop : ℕ) :
    activityIndexRange read state start stop = window l start stop := by
  rw [activityIndexRange, h.total_eq, ← window_min_length l start stop]
  simp only
  split_ifs with htotal hle
  · rw [window_eq_nil (by omega)]
  · rw [window_eq_nil hle]
  · cases state with
    | inline items =>
      obtain rfl : items = l := h
      rw [window, List.drop_take]
    | external chunkIds len size =>
      obtain ⟨-, hchunks⟩ := h
      have hpos := hchunks.pos
      simp only [max_eq_left (Nat.succ_le_of_lt hpos)]
      rw [readActivityIndexRowIdRange, if_neg (by omega)]
      exact hchunks.readChunks_eq (min_le_right _ _) (by omega)

lemma getActivityIndexRowIdsRange_eq {activityRoot : Bytes} {blockhash : Option H} {l : List ℕ}
    (h : (codec.state (p.row activityRoot blockhash)).Represents (p.chunks.read ()) l)
    (start stop : ℕ) :
    getActivityIndexRowIdsRange codec p activityRoot blockhash start stop = window l start stop := by
  rw [getActivityIndexRowIdsRange]
  split_ifs with hle
  · rw [window_eq_nil hle]
  · rw [StateCodec.state] at h
    cases hrow : (p.row activityRoot blockhash).bind codec.decode with
    | none =>
      rw [hrow] at h
      obtain rfl : [] = l := h
      simp [window]
    | some state =>
      rw [hrow] at h
      exact activityIndexRange_eq h start stop

/-- An append reads no chunk but the last one, and that only when it is not full. -/
theorem append_preloaded (cap size next : ℕ) (read : ℕ → Option (List ℕ)) (state : ChunkedList ℕ)
    (values : List ℕ) :
    state.append cap size (fun id => ((partialChunk state).map read).getD (read id)) next values
      = state.append cap size read next values := by
  cases state with
  | inline items => rfl
  | external chunkIds len chunkSize =>
    have hfill : ChunkedList.fillLast
        (fun id => ((partialChunk (.external chunkIds len chunkSize)).map read).getD (read id))
        chunkIds len (max chunkSize 1) values
        = ChunkedList.fillLast read chunkIds len (max chunkSize 1) values := by
      unfold ChunkedList.fillLast
      cases hlast : chunkIds.getLast? with
      | none => rfl
      | some last =>
        by_cases hrem : len % max chunkSize 1 = 0
        · simp only [if_pos hrem]
        · simp only [partialChunk, if_neg hrem, hlast, Option.map_some, Option.getD_some]
    simp only [ChunkedList.append, hfill]

variable {entries : List (Bytes × List ℕ)} {batch batch' : ChunkBatch Bytes Unit ℕ}

omit [DecidableEq Id] [DecidableEq H] in
lemma appendPreloaded_eq {chunkSize : ℕ} {current : Bytes → ChunkedList ℕ}
    (h : p.chunks.appendAll oneSpace activityIndexInlineCap chunkSize current entries batch = .ok batch') :
    appendPreloaded p chunkSize (entries.zip ((entries.map fun e => current e.1).zip
      ((entries.map fun e => current e.1).map fun st => (partialChunk st).map (p.chunks.read ()))))
      batch = .ok batch' := by
  induction entries generalizing batch with
  | nil => exact congrArg _ (Except.ok.inj h)
  | cons e entries ih =>
    obtain ⟨activityRoot, values⟩ := e
    have happend : batch.append oneSpace activityIndexInlineCap chunkSize
          (fun id => ((partialChunk (current activityRoot)).map (p.chunks.read ())).getD
            (p.chunks.read () id)) (current activityRoot) activityRoot values
        = batch.append oneSpace activityIndexInlineCap chunkSize (p.chunks.read ())
          (current activityRoot) activityRoot values := by
      simp only [ChunkBatch.append, append_preloaded]
    rw [ChunkStore.appendAll] at h
    simp only [List.map_cons, List.zip_cons_cons, appendPreloaded,
      appendActivityIndexValuesWithState, happend]
    cases hr : batch.append oneSpace activityIndexInlineCap chunkSize (p.chunks.read ())
      (current activityRoot) activityRoot values with
    | error err => simp [hr] at h
    | ok r =>
      simp only [hr] at h
      exact ih h

lemma appendActivityIndexValuesBatch_eq {chunkSize : ℕ}
    (h : p.chunks.appendAll oneSpace activityIndexInlineCap chunkSize (fun activityRoot => codec.state (p.row activityRoot none)) entries batch = .ok batch') :
    appendActivityIndexValuesBatch codec p chunkSize entries batch = .ok batch' := by
  rw [← ChunkStore.appendAll_filter] at h
  exact appendPreloaded_eq h

end Spec

end Espo.Tokendata
