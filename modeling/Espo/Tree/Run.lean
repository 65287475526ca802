import Espo.Tree.Chain

/-!
# Runs of an indexer over the tree

An indexer processes blocks one by one: a block is begun on the tip, its writes are computed from
the tree and from a store of the indexer's own that the tree does not version, and it is finished. A
block can fail after its writes to that store were made, a block can be aborted, and the tree can be
rewound to any block of its chain; the store is never rewound.
-/

namespace Espo.TreeDb
open Lib List

/-- The place of a block in a chain. -/
structure Header (H : Type*) where
  height : ℕ
  hash : H
  parent : H

/-- How an indexer processes blocks of type `B` with a store of type `σ`. The tree it is given has
the block in flight; `none` is an error of the indexer. -/
structure Processor (K V Id H B σ : Type*) where
  header : B → Header H
  process : VersionedTreeDb K V Id H → σ → B → Option (List (TreeWrite K V) × σ)

/-- A step of a run. -/
inductive Step (K V H B : Type*) where
  | index (b : B)
  /-- Process a block, but abort it in the tree. -/
  | fail (b : B)
  /-- Begin any block, write anything, abort it. -/
  | abort (header : Header H) (writes : List (TreeWrite K V))
  /-- Rewind to the last of the first `n` blocks, or to `None` when there is none. -/
  | rewind (n : ℕ)

section Defs
variable {K V Id H B σ : Type*}

/-- The blocks of the chain after the steps. -/
def chainAfter : List B → List (Step K V H B) → List B
  | blocks, [] => blocks
  | blocks, .index b :: steps => chainAfter (blocks ++ [b]) steps
  | blocks, .fail _ :: steps => chainAfter blocks steps
  | blocks, .abort _ _ :: steps => chainAfter blocks steps
  | blocks, .rewind n :: steps => chainAfter (blocks.take n) steps

/-- The blocks that are processed. -/
def stepBlocks : List (Step K V H B) → List B
  | [] => []
  | .index b :: steps => b :: stepBlocks steps
  | .fail b :: steps => b :: stepBlocks steps
  | .abort _ _ :: steps => stepBlocks steps
  | .rewind _ :: steps => stepBlocks steps

/-- Every processed block has a property, which may depend on the hashes of the blocks indexed before
it and on the chain it is processed on. -/
def AllBlocks (header : B → Header H) (Q : List H → List B → B → Prop) :
    List H → List B → List (Step K V H B) → Prop
  | _, _, [] => True
  | seen, blocks, .index b :: steps =>
    Q seen blocks b ∧ AllBlocks header Q ((header b).hash :: seen) (blocks ++ [b]) steps
  | seen, blocks, .fail b :: steps => Q seen blocks b ∧ AllBlocks header Q seen blocks steps
  | seen, blocks, .abort _ _ :: steps => AllBlocks header Q seen blocks steps
  | seen, blocks, .rewind n :: steps => AllBlocks header Q seen (blocks.take n) steps

/-- A block stands on the previous block of its chain, at the next height. -/
def Consecutive (header : B → Header H) (blocks : List B) (b : B) : Prop :=
  ∀ l ∈ blocks.getLast?,
    (header b).height = (header l).height + 1 ∧ (header b).parent = (header l).hash

/-- The hash of a block is not in its chain, and the first block of a chain does not stand on a block
indexed before. -/
def FreshHash (header : B → Header H) (seen : List H) (blocks : List B) (b : B) : Prop :=
  (header b).hash ∉ blocks.map (fun l => (header l).hash) ∧
    (blocks = [] → (header b).parent ∉ seen)

/-- The commits of processed blocks, each with the map it left behind. -/
def commits (header : B → Header H) (done : List (B × (K → Option V))) : List (Commit K V H) :=
  done.map fun d => ⟨(header d.1).height, (header d.1).hash, (header d.1).parent, d.2⟩

/-- The map after some writes. -/
def applyWrites [DecidableEq K] (view : K → Option V) (ws : List (TreeWrite K V)) : K → Option V :=
  ws.foldl (fun view w => writeAll view w.changes) view

variable [LinearOrder K] [DecidableEq V] [DecidableEq Id] [DecidableEq H] [NodeHash K V Id]

/-- Make writes one after the other. -/
def VersionedTreeDb.writeEach (t : VersionedTreeDb K V Id H) (ws : List (TreeWrite K V)) :
    VersionedTreeDb K V Id H :=
  ws.foldl VersionedTreeDb.write t

namespace Processor
variable (P : Processor K V Id H B σ)

/-- Begin a block in the tree. -/
def beginBlock (t : VersionedTreeDb K V Id H) (b : B) :
    Except (TreeError H) (VersionedTreeDb K V Id H) :=
  t.beginBlock (P.header b).height (P.header b).hash (P.header b).parent

/-- Begin a block, process it, write, finish it. -/
def indexBlock (t : VersionedTreeDb K V Id H) (s : σ) (b : B) :
    Option (VersionedTreeDb K V Id H × σ) :=
  match P.beginBlock t b with
  | .error _ => none
  | .ok t =>
    match P.process t s b with
    | none => none
    | some (ws, s) => some ((t.writeEach ws).finishBlock, s)

/-- Begin a block, process it, write, abort it. -/
def failedBlock (t : VersionedTreeDb K V Id H) (s : σ) (b : B) : VersionedTreeDb K V Id H × σ :=
  match P.beginBlock t b with
  | .error _ => (t, s)
  | .ok t =>
    match P.process t s b with
    | none => (t.abortBlock, s)
    | some (ws, s) => ((t.writeEach ws).abortBlock, s)

/-- Begin a block, write, abort it. A block that cannot be begun is not written to. -/
def abortedBlock (t : VersionedTreeDb K V Id H) (header : Header H) (ws : List (TreeWrite K V)) :
    VersionedTreeDb K V Id H :=
  match t.beginBlock header.height header.hash header.parent with
  | .error _ => t
  | .ok t => (t.writeEach ws).abortBlock

/-- Perform the steps on a tree whose chain has the given blocks. -/
def run : VersionedTreeDb K V Id H → σ → List B → List (Step K V H B) →
    Option (VersionedTreeDb K V Id H × σ)
  | t, s, _, [] => some (t, s)
  | t, s, blocks, .index b :: steps =>
    match P.indexBlock t s b with
    | none => none
    | some (t, s) => run t s (blocks ++ [b]) steps
  | t, s, blocks, .fail b :: steps =>
    run (P.failedBlock t s b).1 (P.failedBlock t s b).2 blocks steps
  | t, s, blocks, .abort header ws :: steps => run (abortedBlock t header ws) s blocks steps
  | t, s, blocks, .rewind n :: steps =>
    match t.rewindToHeight ((blocks.take n).getLast?.map fun b => (P.header b).height) with
    | .error _ => none
    | .ok t => run t s (blocks.take n) steps

end Processor

end Defs

/-! ## Blocks of a run -/

section AllBlocks
variable {K V H B : Type*} {header : B → Header H} {Q Q' Q'' : List H → List B → B → Prop}
  {seen : List H} {blocks : List B}

variable {steps : List (Step K V H B)}

lemma AllBlocks.both (h : AllBlocks header Q seen blocks steps)
    (h' : AllBlocks header Q' seen blocks steps)
    (himp : ∀ seen blocks b, Q seen blocks b → Q' seen blocks b → Q'' seen blocks b) :
    AllBlocks header Q'' seen blocks steps := by
  induction steps generalizing seen blocks with
  | nil => trivial
  | cons step steps ih =>
    cases step with
    | index b => exact ⟨himp _ _ _ h.1 h'.1, ih h.2 h'.2⟩
    | fail b => exact ⟨himp _ _ _ h.1 h'.1, ih h.2 h'.2⟩
    | abort header ws => exact ih h h'
    | rewind n => exact ih h h'

lemma AllBlocks.of_stepBlocks {Q : B → Prop} (h : ∀ b ∈ stepBlocks steps, Q b) :
    AllBlocks header (fun _ _ b => Q b) seen blocks steps := by
  induction steps generalizing seen blocks with
  | nil => trivial
  | cons step steps ih =>
    cases step with
    | index b => exact ⟨h b mem_cons_self, ih fun b' hb' => h b' (mem_cons_of_mem _ hb')⟩
    | fail b => exact ⟨h b mem_cons_self, ih fun b' hb' => h b' (mem_cons_of_mem _ hb')⟩
    | abort header ws => exact ih h
    | rewind n => exact ih h

lemma chainAfter_map_index (blocks bs : List B) :
    chainAfter blocks (bs.map (Step.index (K := K) (V := V) (H := H))) = blocks ++ bs := by
  induction bs generalizing blocks with
  | nil => simp [chainAfter]
  | cons b bs ih => simp [chainAfter, ih]

lemma map_hash_commits (done : List (B × (K → Option V))) :
    (commits header done).map Commit.hash = (done.map Prod.fst).map fun b => (header b).hash := by
  simp [commits]

lemma follows_commits {done : List (B × (K → Option V))} {b : B}
    (h : Consecutive header (done.map Prod.fst) b) :
    Follows (commits header done) (header b).height (header b).parent := by
  intro c hc
  rw [commits, getLast?_map] at hc
  obtain ⟨d, hd, rfl⟩ := Option.map_eq_some_iff.1 hc
  exact h d.1 (by rw [getLast?_map, hd]; rfl)

end AllBlocks

/-! ## The induction over runs -/

section Invariant
variable {K V Id H B σ : Type*} [LinearOrder K] [DecidableEq V] [DecidableEq Id] [DecidableEq H]
  [NodeHash K V Id] {t : VersionedTreeDb K V Id H} {chain : List (Commit K V H)} {seen : List H}

/-- Roots are stored for these hashes at most. -/
def RootsWithin (t : VersionedTreeDb K V Id H) (seen : List H) : Prop :=
  ∀ hash root, t.db.blockRoot.get hash = some root → hash ∈ seen

omit [DecidableEq H] in
lemma VersionedTreeDb.writeEach_blockRoot (t : VersionedTreeDb K V Id H)
    (ws : List (TreeWrite K V)) : (t.writeEach ws).db.blockRoot = t.db.blockRoot := by
  induction ws generalizing t with
  | nil => rfl
  | cons w ws ih =>
    rw [show t.writeEach (w :: ws) = (t.write w).writeEach ws from rfl, ih]
    rcases t.write_cases w with heq | ⟨root, nodes, heq⟩
    · rw [heq]
    · rw [heq, VersionedTreeDb.putRoot]
      split <;> rfl

lemma Working.writeEach {height : ℕ} {hash parent : H} {view : K → Option V}
    (h : Working t chain height hash parent view) (ws : List (TreeWrite K V)) :
    Working (t.writeEach ws) chain height hash parent (applyWrites view ws) := by
  induction ws generalizing t view with
  | nil => exact h
  | cons w ws ih => exact ih (h.write w)

lemma Working.abort_writeEach {height : ℕ} {hash parent : H} {view : K → Option V}
    (h : Working t chain height hash parent view) (hseen : RootsWithin t seen)
    (ws : List (TreeWrite K V)) :
    Indexed (t.writeEach ws).abortBlock chain ∧ RootsWithin (t.writeEach ws).abortBlock seen := by
  refine ⟨(h.writeEach ws).abortBlock, fun hash root hget => hseen hash root ?_⟩
  rwa [VersionedTreeDb.abortBlock, VersionedTreeDb.writeEach_blockRoot] at hget

/-- What a processor must guarantee about an invariant of the chain and its store: a block that the
condition `ok` admits is processed, and the invariant holds after it, whether the tree keeps the
block or not; and it survives rewinds. -/
structure Preserves (P : Processor K V Id H B σ) (ok : List B → B → Prop)
    (J : List (B × (K → Option V)) → σ → Prop) : Prop where
  process : ∀ {t : VersionedTreeDb K V Id H} {done : List (B × (K → Option V))} {s : σ} {b : B},
    J done s →
    Working t (commits P.header done) (P.header b).height (P.header b).hash (P.header b).parent
      (tipView (commits P.header done)) →
    (P.header b).hash ∉ (done.map Prod.fst).map (fun l => (P.header l).hash) →
    ok (done.map Prod.fst) b →
    ∃ ws s', P.process t s b = some (ws, s') ∧ J done s' ∧
      J (done ++ [(b, applyWrites (tipView (commits P.header done)) ws)]) s'
  rewind : ∀ {done : List (B × (K → Option V))} {s : σ} (n : ℕ), J done s → J (done.take n) s

/-- The condition on the blocks of a run. -/
def Admissible (header : B → Header H) (ok : List B → B → Prop) (seen : List H) (blocks : List B)
    (steps : List (Step K V H B)) : Prop :=
  AllBlocks header (fun seen blocks b => Consecutive header blocks b ∧
    FreshHash header seen blocks b ∧ ok blocks b) seen blocks steps

namespace Processor
variable {P : Processor K V Id H B σ} {ok : List B → B → Prop}
  {J : List (B × (K → Option V)) → σ → Prop} {done : List (B × (K → Option V))} {s : σ} {b : B}

omit [DecidableEq V] in
lemma beginBlock_working (h : Indexed t (commits P.header done)) (hseen : RootsWithin t seen)
    (hcons : Consecutive P.header (done.map Prod.fst) b)
    (hfresh : FreshHash P.header seen (done.map Prod.fst) b) :
    ∃ t', P.beginBlock t b = .ok t' ∧ RootsWithin t' seen ∧
      Working t' (commits P.header done) (P.header b).height (P.header b).hash (P.header b).parent
        (tipView (commits P.header done)) := by
  have hroot : commits P.header done = [] → t.db.blockRoot.get (P.header b).parent = none := by
    intro hnil
    by_contra hstored
    obtain ⟨root, hget⟩ := Option.ne_none_iff_exists'.1 hstored
    exact hfresh.2 (by simpa [commits] using hnil) (hseen _ _ hget)
  obtain ⟨t', hbegin, hdb, hwork⟩ :=
    h.beginBlock (P.header b).hash (follows_commits hcons) hroot
  refine ⟨t', hbegin, ?_, hwork⟩
  intro hash root hget
  rw [hdb] at hget
  exact hseen hash root hget

lemma processed (hP : Preserves P ok J) (hJ : J done s) (h : Indexed t (commits P.header done))
    (hseen : RootsWithin t seen) (hcons : Consecutive P.header (done.map Prod.fst) b)
    (hfresh : FreshHash P.header seen (done.map Prod.fst) b) (hok : ok (done.map Prod.fst) b) :
    ∃ ws s' t', P.indexBlock t s b = some (t', s') ∧
      Indexed t' (commits P.header (done ++ [(b, applyWrites (tipView (commits P.header done)) ws)])) ∧
      RootsWithin t' ((P.header b).hash :: seen) ∧
      J (done ++ [(b, applyWrites (tipView (commits P.header done)) ws)]) s' ∧
      Indexed (P.failedBlock t s b).1 (commits P.header done) ∧
      RootsWithin (P.failedBlock t s b).1 seen ∧ J done (P.failedBlock t s b).2 := by
  obtain ⟨t₁, hbegin, hseen₁, hwork⟩ := beginBlock_working h hseen hcons hfresh
  obtain ⟨ws, s', hprocess, hJ', hJ''⟩ := hP.process hJ hwork hfresh.1 hok
  have hwork' := hwork.writeEach ws
  have hnew : (P.header b).hash ∉ (commits P.header done).map Commit.hash := by
    rw [map_hash_commits]
    exact hfresh.1
  have hfailed : P.failedBlock t s b = ((t₁.writeEach ws).abortBlock, s') := by
    simp only [failedBlock, hbegin, hprocess]
  obtain ⟨habort, hrootsAbort⟩ := hwork.abort_writeEach hseen₁ ws
  refine ⟨ws, s', (t₁.writeEach ws).finishBlock, ?_, ?_, ?_, hJ'', ?_⟩
  · simp only [indexBlock, hbegin, hprocess]
  · have hfinish := hwork'.finishBlock (follows_commits hcons) hnew
    simpa [commits] using hfinish
  · intro hash root hget
    obtain ⟨root', hctx, -⟩ := hwork'.current
    simp only [VersionedTreeDb.finishBlock, hctx, VersionedTreeDb.finishRows,
      VersionedTreeDb.writeEach_blockRoot, Table.get_put] at hget
    split_ifs at hget with hhash
    · exact hhash ▸ mem_cons_self
    · exact mem_cons_of_mem _ (hseen₁ _ _ hget)
  · rw [hfailed]
    exact ⟨habort, hrootsAbort, hJ'⟩

omit [DecidableEq V] in
lemma rewind_indexed (h : Indexed t (commits P.header done)) (hseen : RootsWithin t seen) (n : ℕ) :
    ∃ t', t.rewindToHeight
        (((done.map Prod.fst).take n).getLast?.map fun b => (P.header b).height) = .ok t' ∧
      RootsWithin t' seen ∧ Indexed t' (commits P.header (done.take n)) := by
  obtain ⟨t', heq, hroots, h'⟩ := h.rewindToHeight n
  have htake : (commits P.header done).take n = commits P.header (done.take n) := by
    simp [commits]
  have htarget : ((commits P.header done).take n).getLast?.map Commit.height
      = ((done.map Prod.fst).take n).getLast?.map fun b => (P.header b).height := by
    rw [htake, ← map_take]
    simp only [commits, getLast?_map, Option.map_map]
    rfl
  rw [htarget] at heq
  rw [htake] at h'
  exact ⟨t', heq, fun hash root hget => hseen hash root (hroots ▸ hget), h'⟩

variable {steps : List (Step K V H B)}

/-- An invariant that the processor preserves holds at the end of every admissible run, and the tree
holds the chain of the run. -/
theorem run_invariant (hP : Preserves P ok J) (hJ : J done s)
    (h : Indexed t (commits P.header done)) (hseen : RootsWithin t seen)
    (hadm : Admissible P.header ok seen (done.map Prod.fst) steps) :
    ∃ t' s' done', P.run t s (done.map Prod.fst) steps = some (t', s') ∧
      done'.map Prod.fst = chainAfter (done.map Prod.fst) steps ∧
      Indexed t' (commits P.header done') ∧ J done' s' := by
  induction steps generalizing t s done seen with
  | nil => exact ⟨t, s, done, rfl, rfl, h, hJ⟩
  | cons step steps ih =>
    cases step with
    | index b =>
      obtain ⟨⟨hcons, hfresh, hok⟩, hadm'⟩ := hadm
      obtain ⟨ws, s₁, t₁, heq, h₁, hseen₁, hJ₁, -⟩ := processed hP hJ h hseen hcons hfresh hok
      obtain ⟨t', s', done', hrun, hrest⟩ := ih hJ₁ h₁ hseen₁ (by simpa [Admissible] using hadm')
      refine ⟨t', s', done', ?_, by simpa [chainAfter] using hrest⟩
      rw [run, heq]
      simpa using hrun
    | fail b =>
      obtain ⟨⟨hcons, hfresh, hok⟩, hadm'⟩ := hadm
      obtain ⟨-, -, -, -, -, -, -, h₁, hseen₁, hJ₁⟩ := processed hP hJ h hseen hcons hfresh hok
      exact ih hJ₁ h₁ hseen₁ hadm'
    | abort header ws =>
      have habort : Indexed (abortedBlock t header ws) (commits P.header done) ∧
          RootsWithin (abortedBlock t header ws) seen := by
        unfold abortedBlock
        split
        · exact ⟨h, hseen⟩
        · rename_i t' hbegin
          obtain ⟨view, hwork⟩ := h.begin_ok hbegin
          obtain ⟨ctx, rfl⟩ := VersionedTreeDb.beginBlock_ok hbegin
          exact hwork.abort_writeEach hseen ws
      exact ih hJ habort.1 habort.2 hadm
    | rewind n =>
      obtain ⟨t₁, heq, hseen₁, h₁⟩ := rewind_indexed h hseen n
      rw [Admissible, AllBlocks, ← map_take] at hadm
      obtain ⟨t', s', done', hrun, hrest⟩ := ih (hP.rewind n hJ) h₁ hseen₁ hadm
      refine ⟨t', s', done', ?_, by simpa [chainAfter] using hrest⟩
      rw [run, heq]
      simpa [← map_take] using hrun

lemma run_fresh (hP : Preserves P ok J) (hJ : J [] s) (hadm : Admissible P.header ok [] [] steps) :
    ∃ t s' done, P.run (.new (TreeRows.empty K V Id H)) s [] steps = some (t, s') ∧
      done.map Prod.fst = chainAfter [] steps ∧ Indexed t (commits P.header done) ∧ J done s' := by
  have hfresh : Indexed (.new (TreeRows.empty K V Id H)) (commits P.header []) := Indexed.fresh
  refine run_invariant hP hJ hfresh (fun hash root hget => ?_) hadm
  simp [VersionedTreeDb.new, TreeRows.empty] at hget

end Processor

end Invariant

end Espo.TreeDb
