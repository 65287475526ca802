import Espo.Lib.ChunkStore
import Espo.Tree.Run

/-!
# Lists with their state rows in the tree

The state of a list is a row of the tree, so every block has its own version of it; the chunks are in
a blob store that knows nothing of blocks. `Serves` says that the blob store serves the states of all
blocks of a chain. It holds along every run, because a block appends to the states of its parent and
a rewind only forgets versions.
-/

namespace Espo.Lists
open Lib TreeDb List

/-- Row keys are byte strings. -/
abbrev Bytes := List (Fin 256)

/-- A byte string literal. -/
def ascii (s : String) : Bytes := s.toList.map fun c => Fin.ofNat 256 c.toNat

/-- The encoding of `InlineOrExternalU64V1` in a row. -/
structure StateCodec (V : Type*) where
  encode : ChunkedList ℕ → V
  decode : V → Option (ChunkedList ℕ)
  decode_encode : ∀ st, decode (encode st) = some st

/-- The state in a row. A missing or unreadable row is the empty list. -/
def StateCodec.state {V : Type*} (c : StateCodec V) (row : Option V) : ChunkedList ℕ :=
  (row.bind c.decode).getD (.inline [])

section Reads
variable {K V Id H : Type*} [LinearOrder K] [DecidableEq Id] [DecidableEq H] [NodeHash K V Id]
  {t : VersionedTreeDb K V Id H} {chain : List (Commit K V H)}

/-- `raw_get_at`: the row at the root of a block, or at the active root. -/
def rawGetAt (t : VersionedTreeDb K V Id H) (key : K) : Option H → Option V
  | some blockhash =>
    match t.rootForBlockhash blockhash with
    | some root => getAtRoot t.db.nodes root key
    | none => none
  | none => t.get key

lemma rawGetAt_none (h : Indexed t chain) (key : K) : rawGetAt t key none = tipView chain key := by
  rw [rawGetAt, VersionedTreeDb.get, h.activeRoot_eq]
  exact congrFun h.stores_active.getAtRoot_eq key

lemma rawGetAt_some (h : Indexed t chain) {n : ℕ} {c : Commit K V H} (hc : chain[n]? = some c)
    (key : K) : rawGetAt t key (some c.hash) = tipView (chain.take (n + 1)) key := by
  obtain ⟨root, hroot, hstores⟩ := h.roots c (mem_of_getElem? hc)
  have hfor : t.rootForBlockhash c.hash = some root := by
    rw [VersionedTreeDb.rootForBlockhash, h.idle]
    exact hroot
  have htip : tipView (chain.take (n + 1)) = c.view := by
    rw [tipView, take_add_one, hc, getLast?_append]
    rfl
  rw [rawGetAt, hfor, htip]
  exact congrFun hstores.getAtRoot_eq key

/-- A block in flight does not show in reads at the active root. -/
theorem get_working {height : ℕ} {hash parent : H} {view : K → Option V}
    (h : Working t chain height hash parent view) (key : K) : t.get key = tipView chain key :=
  rawGetAt_none h.base key

end Reads

/-! ## Histories -/

section Serves
variable {K V H B L N : Type*} [DecidableEq L] [DecidableEq N]

/-- What the blocks of a chain append to a list. -/
def appended (appends : B → List (L × List ℕ)) (blocks : List B) (l : L) : List ℕ :=
  blocks.flatMap fun b => valuesFor (appends b) l

/-- The version of the lists at the tip of a chain. -/
def version (codec : StateCodec V) (key : L → K) (header : B → Header H)
    (appends : B → List (L × List ℕ)) (done : List (B × (K → Option V))) : ListVersion L ℕ where
  state l := codec.state (tipView (commits header done) (key l))
  items l := appended appends (done.map Prod.fst) l

/-- The chunks serve the lists at every block of the chain, and before its first block. -/
def Serves (codec : StateCodec V) (key : L → K) (header : B → Header H)
    (appends : B → List (L × List ℕ)) (space : L → N) (done : List (B × (K → Option V)))
    (s : ChunkStore N ℕ) : Prop :=
  Holds space s (done.inits.map (version codec key header appends))

variable {codec : StateCodec V} {key : L → K} {header : B → Header H}
  {appends : B → List (L × List ℕ)} {space : L → N} {done : List (B × (K → Option V))}
  {s : ChunkStore N ℕ}

lemma Serves.nil : Serves codec key header appends space [] (ChunkStore.empty : ChunkStore N ℕ) := by
  have hstate : ∀ l, (version codec key header appends []).state l = .inline [] := fun _ => rfl
  have hmem : ∀ v ∈ ([] : List (B × (K → Option V))).inits.map (version codec key header appends),
      v = version codec key header appends [] := by simp
  refine ⟨fun v hv l => ?_, fun v hv l id hid => ?_, fun v hv w hw l l' _ _ id hid => ?_, by simp⟩
  · rw [hmem v hv]
    rfl
  · rw [hmem v hv, hstate] at hid
    simp [ChunkedList.ids] at hid
  · rw [hmem v hv, hstate] at hid
    simp [ChunkedList.ids] at hid

lemma Serves.take (h : Serves codec key header appends space done s) (n : ℕ) :
    Serves codec key header appends space (done.take n) s := by
  refine h.sublist (List.Sublist.map _ ?_)
  conv_rhs => rw [← take_append_drop n done]
  rw [inits_append]
  exact sublist_append_left _ _

lemma map_version_snoc (d : B × (K → Option V)) :
    (done ++ [d]).inits.map (version codec key header appends)
      = done.inits.map (version codec key header appends)
        ++ [version codec key header appends (done ++ [d])] := by
  simp [inits_append]

lemma exists_inits_eq (done : List (B × (K → Option V))) : ∃ ds, done.inits = ds ++ [done] := by
  rcases eq_nil_or_concat done with rfl | ⟨ds, d, rfl⟩
  · exact ⟨[], rfl⟩
  · exact ⟨ds.inits, by simp [inits_append]⟩

section
variable (h : Serves codec key header appends space done s)
include h

lemma Serves.represents (n : ℕ) (l : L) :
    (codec.state (tipView (commits header (done.take n)) (key l))).Represents (s.read (space l))
      (appended appends ((done.map Prod.fst).take n) l) := by
  rw [← map_take]
  exact Holds.represents h _ (List.mem_map_of_mem ((mem_inits _ _).2 ( take_prefix n done))) l

lemma Serves.tip (l : L) :
    (codec.state (tipView (commits header done) (key l))).Represents (s.read (space l))
      (appended appends (done.map Prod.fst) l) := by
  have hlast := h.represents done.length l
  rwa [take_length, take_of_length_le (length_map _).le] at hlast

/-- A block appends to the lists: the chunks serve the longer chain as soon as the map of the block
has the new state rows. -/
theorem Serves.extend (cap size : ℕ) {current : L → ChunkedList ℕ} {b : B}
    (hcurrent : ∀ l, current l = codec.state (tipView (commits header done) (key l)))
    (hnodup : ((appends b).map Prod.fst).Nodup) :
    ∃ batch, s.appendAll space cap size current (appends b) s.batch = .ok batch ∧
      ∀ view : K → Option V,
        (∀ l, codec.state (view (key l))
          = writeAll (fun l => codec.state (tipView (commits header done) (key l))) batch.rows l) →
        Serves codec key header appends space (done ++ [(b, view)]) (s.commit batch) := by
  obtain ⟨ds, hds⟩ := exists_inits_eq done
  have hlast : Holds space s (ds.map (version codec key header appends)
      ++ [version codec key header appends done]) := by
    rw [Serves, hds, map_append] at h
    exact h
  obtain ⟨batch, hbatch, hcollects⟩ :=
    ChunkStore.appendAll_spec hlast.repeat_last cap size (fun a _ => hcurrent a.1) hnodup
  refine ⟨batch, hbatch, fun view hview => ?_⟩
  have hversion : (version codec key header appends done).extend batch.rows (appends b)
      = version codec key header appends (done ++ [(b, view)]) := by
    have htip : tipView (commits header (done ++ [(b, view)])) = view := by
      simp [tipView, commits]
    have hstate := funext hview
    simp only [ListVersion.extend, version, htip, hstate, appended, map_append,
      map_cons, map_nil, flatMap_append, flatMap_cons, flatMap_nil,
      append_nil]
  rw [Serves, map_version_snoc, ← hversion, hds, map_append]
  exact hcollects.holds

end

/-- The chunks that a failed block has written do no harm. -/
theorem Serves.of_snoc {d : B × (K → Option V)}
    (h : Serves codec key header appends space (done ++ [d]) s) :
    Serves codec key header appends space done s := by
  simpa using h.take done.length

end Serves

/-! ## State rows -/

section StateRows
variable {K V L : Type*} [DecidableEq K] [DecidableEq L]

/-- The tree changes for new states. -/
def stateRows (codec : StateCodec V) (key : L → K) (rows : List (L × ChunkedList ℕ)) :
    List (K × Option V) :=
  rows.map fun row => (key row.1, some (codec.encode row.2))

lemma state_writeAll_stateRows {codec : StateCodec V} {key : L → K} (hkey : Function.Injective key)
    (view : K → Option V) (rows : List (L × ChunkedList ℕ)) (l : L) :
    codec.state (writeAll view (stateRows codec key rows) (key l))
      = writeAll (fun l => codec.state (view (key l))) rows l := by
  induction rows generalizing view with
  | nil => rfl
  | cons row rows ih =>
    rw [writeAll_cons, stateRows, map_cons, writeAll_cons]
    refine (ih _).trans (congrFun (congrArg (fun m => writeAll m rows) (funext fun l' => ?_)) l)
    by_cases hl : l' = row.1
    · rw [hl]
      simp [StateCodec.state, codec.decode_encode]
    · rw [Function.update_of_ne hl, Function.update_of_ne fun heq => hl (hkey heq)]

omit [DecidableEq L] in
lemma state_writeAll_of_notMem {codec : StateCodec V} {key : L → K} {others : List (K × Option V)}
    (hothers : ∀ c ∈ others, ∀ l, c.1 ≠ key l) (view : K → Option V) (l : L) :
    codec.state (writeAll view others (key l)) = codec.state (view (key l)) := by
  rw [writeAll_of_notMem view others fun c hc => hothers c hc l]

end StateRows

end Espo.Lists
