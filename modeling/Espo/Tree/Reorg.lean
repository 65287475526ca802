import Espo.Tree.Run

/-!
# Reorgs equal fresh indexing

Here the writes of a block are given with it. The chain a run ends with is a matter of its steps
alone, and the database holds exactly that chain, so it cannot be told apart from one that indexed
the chain on an empty store.

The blocks of a chain must have different hashes, and a chain must not start on a block of the run:
rows are kept by hash, and the root of an orphaned block stays stored.
-/

namespace Espo.TreeDb
open Lib List

/-- A block with the writes made while it is in flight. -/
structure Block (K V H : Type*) where
  header : Header H
  writes : List (TreeWrite K V)

section Defs
variable {K V Id H : Type*}

/-- The processor that makes the writes of the block. -/
def writesProcessor : Processor K V Id H (Block K V H) Unit where
  header := Block.header
  process _ _ b := some (b.writes, ())

variable (steps : List (Step K V H (Block K V H)))

/-- Every block of the run stands on the previous block of its chain, at the next height. -/
def BlockByBlock : Prop :=
  AllBlocks Block.header (fun _ => Consecutive Block.header) [] [] steps

/-- No chain repeats a hash, and no chain starts on one of the blocks indexed before. -/
def DistinctHashes : Prop :=
  AllBlocks Block.header (FreshHash Block.header) [] [] steps

variable [LinearOrder K] [DecidableEq V] [DecidableEq Id] [DecidableEq H] [NodeHash K V Id]

/-- The database after the steps on an empty store; `none` if a step failed. -/
def runFresh (Id : Type*) [DecidableEq Id] [NodeHash K V Id]
    (steps : List (Step K V H (Block K V H))) : Option (VersionedTreeDb K V Id H) :=
  (writesProcessor.run (.new (TreeRows.empty K V Id H)) () [] steps).map Prod.fst

/-- The steps succeed on an empty store, and so does indexing their chain directly; the two databases
cannot be told apart. -/
def EqualsFresh (Id : Type*) [DecidableEq Id] [NodeHash K V Id]
    (steps : List (Step K V H (Block K V H))) : Prop :=
  ∃ t t' : VersionedTreeDb K V Id H, runFresh Id steps = some t ∧
    runFresh Id ((chainAfter [] steps).map .index) = some t' ∧
    ObservablyEq ((chainAfter [] steps).map fun b => b.header.hash) t t'

end Defs

section Replay
variable {K V H : Type*} [LinearOrder K]

/-- The blocks of a chain with the maps they leave behind. -/
def replay (blocks : List (Block K V H)) : List (Block K V H × (K → Option V)) :=
  blocks.foldl
    (fun done b => done ++ [(b, applyWrites (tipView (commits Block.header done)) b.writes)]) []

variable (blocks : List (Block K V H))

lemma replay_snoc (b : Block K V H) :
    replay (blocks ++ [b]) = replay blocks
      ++ [(b, applyWrites (tipView (commits Block.header (replay blocks))) b.writes)] := by
  simp [replay, foldl_append]

lemma map_fst_replay : (replay blocks).map Prod.fst = blocks := by
  induction blocks using List.reverseRecOn with
  | nil => rfl
  | append_singleton blocks b ih => simp [replay_snoc, ih]

lemma replay_take (n : ℕ) : replay (blocks.take n) = (replay blocks).take n := by
  have hlength : ∀ blocks : List (Block K V H), (replay blocks).length = blocks.length := by
    intro blocks
    rw [← length_map, map_fst_replay]
  induction blocks using List.reverseRecOn with
  | nil => simp [replay]
  | append_singleton blocks b ih =>
    rcases Nat.lt_or_ge blocks.length n with hlt | hle
    · rw [take_of_length_le (by simp; omega), take_of_length_le (by simp [hlength]; omega)]
    · rw [take_append_of_le_length hle, ih, replay_snoc,
        take_append_of_le_length (by rw [hlength]; exact hle)]

lemma admissible_of_linked {seen : List H} {blocks bs : List (Block K V H)}
    (h : Linked (commits Block.header (replay (blocks ++ bs)))) (hseen : blocks = [] → seen = []) :
    Admissible (K := K) (V := V) Block.header (fun _ _ => True) seen blocks (bs.map .index) := by
  induction bs generalizing blocks seen with
  | nil => trivial
  | cons b bs ih =>
    have hprefix : Linked (commits Block.header (replay (blocks ++ [b]))) := by
      have htake := h.take (blocks.length + 1)
      rwa [commits, ← map_take, ← replay_take, take_length_add_append] at htake
    refine ⟨⟨fun l hl => ?_, ⟨?_, fun hnil => by simp [hseen hnil]⟩, trivial⟩,
      ih (by simpa using h) (by simp)⟩
    · have hlink := hprefix.link
      rw [replay_snoc, commits, map_append, isChain_append] at hlink
      rw [← map_fst_replay blocks, getLast?_map] at hl
      obtain ⟨d, hd, rfl⟩ := Option.map_eq_some_iff.1 hl
      exact hlink.2.2 _ (by rw [getLast?_map, hd]; rfl) _ rfl
    · have hnodup := hprefix.nodup
      rw [map_hash_commits, map_fst_replay, map_append, nodup_append] at hnodup
      exact fun hmem => hnodup.2.2 _ hmem _ (by simp) rfl

end Replay

section Reorg
variable {K V Id H : Type*} [LinearOrder K] [DecidableEq V] [DecidableEq Id] [DecidableEq H]
  [NodeHash K V Id]

omit [DecidableEq V] in
/-- The maps of a run are those of its chain. -/
theorem preserves_replay : Preserves (writesProcessor : Processor K V Id H (Block K V H) Unit)
    (fun _ _ => True) (fun done _ => done = replay (done.map Prod.fst)) where
  process := by
    intro t done s b hJ hwork hfresh hok
    refine ⟨b.writes, (), rfl, hJ, ?_⟩
    rw [map_append, map_singleton, replay_snoc, ← hJ]
    rfl
  rewind := by
    intro done s n hJ
    rw [map_take, replay_take, ← hJ]

/-- A run of distinct hashes ends with a database that holds its chain. -/
theorem runFresh_indexed (Id : Type*) [DecidableEq Id] [NodeHash K V Id]
    {steps : List (Step K V H (Block K V H))}
    (h : Admissible Block.header (fun _ _ => True) [] [] steps) :
    ∃ t : VersionedTreeDb K V Id H, runFresh Id steps = some t ∧
      Indexed t (commits Block.header (replay (chainAfter [] steps))) := by
  have hP : Preserves (writesProcessor : Processor K V Id H (Block K V H) Unit) (fun _ _ => True)
      fun done _ => done = replay (done.map Prod.fst) := preserves_replay
  obtain ⟨t, s, done, hrun, hdone, hindexed, hJ⟩ := Processor.run_fresh hP rfl h
  refine ⟨t, by rw [runFresh, hrun]; rfl, ?_⟩
  rw [← hdone, ← hJ]
  exact hindexed

/-- Reorgs equal fresh indexing: whatever was indexed, aborted and rewound, the database cannot be
told apart from one that indexed the final chain on an empty store. -/
theorem equalsFresh_of_distinctHashes (steps : List (Step K V H (Block K V H)))
    (hblocks : BlockByBlock steps) (hdist : DistinctHashes steps) : EqualsFresh Id steps := by
  obtain ⟨t, hrun, h⟩ := runFresh_indexed Id
    (hblocks.both hdist fun _ _ _ hb hd => ⟨hb, hd, trivial⟩)
  have hadm : Admissible (K := K) (V := V) Block.header (fun _ _ => True) [] []
      ((chainAfter [] steps).map .index) := admissible_of_linked h.linked fun _ => rfl
  obtain ⟨t', hrun', h'⟩ := runFresh_indexed Id hadm
  rw [chainAfter_map_index, nil_append] at h'
  refine ⟨t, t', hrun, hrun', ?_⟩
  have hobs := h.observablyEq h'
  rwa [map_hash_commits, map_fst_replay] at hobs

end Reorg

/-- A two-block branch replaced by another block, with an aborted block in between. -/
theorem equalsFresh_replaced_branch :
    EqualsFresh ℕ (K := ℕ) (V := ℕ) (H := ℕ)
      [.index ⟨⟨5, 10, 0⟩, [.put 1 1]⟩,
        .index ⟨⟨6, 11, 10⟩, [.batch [(1, none), (2, some 2)]]⟩,
        .abort ⟨9, 12, 4⟩ [.delete 2], .fail ⟨⟨7, 12, 11⟩, [.delete 2]⟩, .rewind 1,
        .index ⟨⟨6, 13, 10⟩, [.put 3 3]⟩] :=
  equalsFresh_of_distinctHashes _ (by simp [BlockByBlock, AllBlocks, Consecutive])
    (by simp [DistinctHashes, AllBlocks, FreshHash])

/-- A chain that starts on an orphaned block. -/
def startsOnOrphan : List (Step ℕ ℕ ℕ (Block ℕ ℕ ℕ)) :=
  [.index ⟨⟨5, 1, 0⟩, [.put 7 7]⟩, .rewind 0, .index ⟨⟨6, 2, 1⟩, []⟩]

/-- A chain that repeats a hash. -/
def repeatsHash : List (Step ℕ ℕ ℕ (Block ℕ ℕ ℕ)) :=
  [.index ⟨⟨5, 1, 0⟩, []⟩, .index ⟨⟨6, 1, 1⟩, []⟩, .rewind 1]

/-- A chain that starts on an orphaned block inherits its rows, and a rewind deletes the height of a
kept block when a dropped block has its hash. -/
theorem reorg_ne_fresh :
    (BlockByBlock startsOnOrphan ∧ ¬EqualsFresh ℕ startsOnOrphan) ∧
      BlockByBlock repeatsHash ∧ ¬EqualsFresh ℕ repeatsHash := by
  refine ⟨⟨by simp [startsOnOrphan, BlockByBlock, AllBlocks, Consecutive], ?_⟩,
    by simp [repeatsHash, BlockByBlock, AllBlocks, Consecutive], ?_⟩
  · rintro ⟨t, t', hrun, hrun', hobs⟩
    have hread : (runFresh ℕ startsOnOrphan).map (fun t => t.get 7) = some (some 7) := by
      decide +kernel
    have hread' : (runFresh ℕ ((chainAfter [] startsOnOrphan).map .index)).map (fun t => t.get 7)
        = some none := by decide +kernel
    rw [hrun, Option.map_some, Option.some_inj] at hread
    rw [hrun', Option.map_some, Option.some_inj] at hread'
    have heq := hobs.get 7
    rw [hread, hread'] at heq
    simp at heq
  · rintro ⟨t, t', hrun, hrun', hobs⟩
    have hread : (runFresh ℕ repeatsHash).map (fun t => t.heightForBlockhash 1) = some none := by
      decide +kernel
    have hread' : (runFresh ℕ ((chainAfter [] repeatsHash).map .index)).map
        (fun t => t.heightForBlockhash 1) = some (some 5) := by decide +kernel
    rw [hrun, Option.map_some, Option.some_inj] at hread
    rw [hrun', Option.map_some, Option.some_inj] at hread'
    have heq := hobs.heightForBlockhash 1
    rw [hread, hread'] at heq
    simp at heq

end Espo.TreeDb
