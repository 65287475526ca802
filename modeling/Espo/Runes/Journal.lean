import Espo.Lib.Table
import Espo.Lib.WriteQueue

/-!
# The undo journal of the runes namespace

Runes rows bypass the versioned tree. Each block is written in one batch together with an undo record
of what the keys it touches held before; a rollback replays these records backward, one batch for
each block, until the index height is low enough. A preflight follows the chain of records first,
without writing.

Rows are typed by their key. The index height, the index block hash and the undo records are kept
apart from them because the rollback reads them; there a value may be malformed, and a change of an
undo record may name any of these keys.
-/

namespace Espo.Runes
open Lib

/-- `RunesBlockUndo`, for a type of changes. -/
structure BlockUndo (C H : Type) where
  height : ℕ
  blockHash : H
  prevIndexHeight : Option ℕ
  prevIndexBlockHash : Option H
  changes : List C

/-- `RuneUndoChange`: a key and what it held. The inner option of an undo record, a height or a hash
is empty for bytes that do not decode. -/
inductive RuneUndoChange {K : Type} (V : K → Type) (H : Type) where
  | row (key : K) (previous : Option (V key))
  | undo (height : ℕ) (previous : Option (Option (BlockUndo (RuneUndoChange V H) H)))
  | indexHeight (previous : Option (Option ℕ))
  | indexBlockHash (previous : Option (Option H))

/-- `RunesBlockUndo`. -/
abbrev RunesBlockUndo {K : Type} (V : K → Type) (H : Type) := BlockUndo (RuneUndoChange V H) H

/-- The runes namespace. -/
structure RunesStore {K : Type} (V : K → Type) (H : Type) where
  rows : Finmap V
  /-- `/undo/<height>`; `some none` does not decode. -/
  undo : Table ℕ (Option (RunesBlockUndo V H))
  /-- `/index_height` -/
  indexHeight : Option (Option ℕ)
  /-- `/index_block_hash` -/
  indexBlockHash : Option (Option H)

/-- Why a rollback refuses. -/
inductive RollbackError (H : Type) where
  /-- `runes rollback missing undo journal for height {current_height}` -/
  | missingUndo (currentHeight : ℕ)
  /-- `failed to decode runes undo journal at {current_height}` -/
  | undecodable (currentHeight : ℕ)
  /-- `runes rollback journal height mismatch: key height .., record height ..` -/
  | heightMismatch (currentHeight recordHeight : ℕ)
  /-- `runes rollback journal hash mismatch at height ..: index hash .., journal hash ..` -/
  | hashMismatch (currentHeight : ℕ) (indexHash journalHash : H)
  deriving DecidableEq

namespace RunesStore
variable {K : Type} [DecidableEq K] {V : K → Type} {H : Type}

/-- An empty namespace. -/
def empty : RunesStore V H := ⟨∅, ∅, none, none⟩

variable (s : RunesStore V H)

/-- `get_index_height`: malformed bytes read as no height. -/
def getIndexHeight : Option ℕ := s.indexHeight.join

/-- `get_index_block_hash`. -/
def getIndexBlockHash : Option H := s.indexBlockHash.join

/-- The record that `set_block_batch` stores. -/
def undoRecord (requires : K → Bool) (s : RunesStore V H) (puts : List (Sigma V)) (deletes : List K)
    (preimages : AList fun k => Option (V k)) (height : ℕ) (hash : H) : RunesBlockUndo V H where
  height := height
  blockHash := hash
  prevIndexHeight := s.getIndexHeight
  prevIndexBlockHash := s.getIndexBlockHash
  changes := (undoChanges requires s.rows deletes puts preimages).map fun c => .row c.1 c.2

/-- `set_block_batch`; `requires` is `runes_put_key_requires_preimage`. -/
def setBlockBatch (requires : K → Bool) (s : RunesStore V H) (puts : List (Sigma V))
    (deletes : List K) (preimages : AList fun k => Option (V k)) (height : ℕ) (hash : H) :
    RunesStore V H where
  rows := applyBatch s.rows deletes puts
  undo := s.undo.put height (some (s.undoRecord requires puts deletes preimages height hash))
  indexHeight := some (some height)
  indexBlockHash := some (some hash)

/-- Restore one change. -/
def applyChange : RuneUndoChange V H → RunesStore V H
  | .row key previous => { s with rows := setRow s.rows key previous }
  | .undo height previous => { s with undo := s.undo.set height previous }
  | .indexHeight previous => { s with indexHeight := previous }
  | .indexBlockHash previous => { s with indexBlockHash := previous }

/-- The batch of a rollback for one block: the changes, then the height and the hash before it, then
the deletion of the record. -/
def undoBlock (currentHeight : ℕ) (undo : RunesBlockUndo V H) : RunesStore V H :=
  let restored := undo.changes.foldl applyChange s
  { restored with
    indexHeight := undo.prevIndexHeight.map some
    indexBlockHash := undo.prevIndexBlockHash.map some
    undo := restored.undo.delete currentHeight }

variable [DecidableEq H]

/-- The record for a height, checked against the height and the hash at which the rollback stands. -/
def readUndo (currentHeight : ℕ) (currentHash : Option H) :
    Except (RollbackError H) (RunesBlockUndo V H) :=
  match s.undo.get currentHeight with
  | none => .error (.missingUndo currentHeight)
  | some none => .error (.undecodable currentHeight)
  | some (some undo) =>
    if undo.height ≠ currentHeight then .error (.heightMismatch currentHeight undo.height)
    else
      match currentHash with
      | none => .ok undo
      | some hash =>
        if hash ≠ undo.blockHash then .error (.hashMismatch currentHeight hash undo.blockHash)
        else .ok undo

/-- `next_height.checked_sub(1)`. -/
def targetHeight : ℕ → Option ℕ
  | 0 => none
  | n + 1 => some n

/-- A rollback to a target is done at a height at or below it. -/
def atTarget (target : Option ℕ) (currentHeight : ℕ) : Bool := target.any fun t => currentHeight ≤ t

/-- The loop of `preflight_rollback_before_height`, from a simulated height and hash; `none` when the
fuel runs out. -/
def preflightLoop (target : Option ℕ) :
    ℕ → Option ℕ → Option H → Option (Except (RollbackError H) Unit)
  | 0, _, _ => none
  | _ + 1, none, _ => some (.ok ())
  | fuel + 1, some currentHeight, hash =>
    if atTarget target currentHeight then some (.ok ())
    else
      match s.readUndo currentHeight hash with
      | .error e => some (.error e)
      | .ok undo => preflightLoop target fuel undo.prevIndexHeight undo.prevIndexBlockHash

/-- `preflight_rollback_before_height`. -/
def preflightRollbackBeforeHeight (nextHeight fuel : ℕ) :
    Option (Except (RollbackError H) Unit) :=
  preflightLoop s (targetHeight nextHeight) fuel s.getIndexHeight s.getIndexBlockHash

/-- The loop of `rollback_to_height`; `none` when the fuel runs out. -/
def rollbackToHeight (target : Option ℕ) :
    ℕ → RunesStore V H → Option (Except (RollbackError H) Unit × RunesStore V H)
  | 0, _ => none
  | fuel + 1, s =>
    match s.getIndexHeight with
    | none => some (.ok (), s)
    | some currentHeight =>
      if atTarget target currentHeight then some (.ok (), s)
      else
        match s.readUndo currentHeight s.getIndexBlockHash with
        | .error e => some (.error e, s)
        | .ok undo => rollbackToHeight target fuel (s.undoBlock currentHeight undo)

/-- `rollback_before_height`. -/
def rollbackBeforeHeight (nextHeight fuel : ℕ) :
    Option (Except (RollbackError H) Unit × RunesStore V H) :=
  rollbackToHeight (targetHeight nextHeight) fuel s

/-- The store part of `handle_reorg`: the preflight, then the rollback. -/
def handleReorg (nextHeight fuel : ℕ) :
    Option (Except (RollbackError H) Unit × RunesStore V H) :=
  match s.preflightRollbackBeforeHeight nextHeight fuel with
  | none => none
  | some (.error e) => some (.error e, s)
  | some (.ok ()) => s.rollbackBeforeHeight nextHeight fuel

/-! ## One block -/

omit [DecidableEq H] in
lemma foldl_applyChange_row (changes : List (Σ k, Option (V k))) :
    (changes.map fun c => RuneUndoChange.row c.1 c.2).foldl applyChange s =
      { s with rows := writeRows s.rows changes } := by
  induction changes generalizing s with
  | nil => rfl
  | cons c changes ih =>
    rw [List.map_cons, List.foldl_cons, ih]
    rfl

/-- Heights and hashes are stored as the indexer writes them. -/
structure WellFormed : Prop where
  height : s.indexHeight = s.getIndexHeight.map some
  hash : s.indexBlockHash = s.getIndexBlockHash.map some

omit [DecidableEq K] [DecidableEq H] in
lemma wellFormed_empty : WellFormed (empty : RunesStore V H) := ⟨rfl, rfl⟩

variable {requires : K → Bool} {s} {puts : List (Sigma V)} {deletes : List K}
  {preimages : AList fun k => Option (V k)} {height : ℕ} {hash : H}

omit [DecidableEq H] in
lemma wellFormed_setBlockBatch :
    WellFormed (s.setBlockBatch requires puts deletes preimages height hash) := ⟨rfl, rfl⟩

omit [DecidableEq H] in
lemma undoBlock_setBlockBatch (hwf : s.WellFormed) (hfresh : s.undo.get height = none)
    (hsound : JournalSound requires s.rows puts preimages) :
    (s.setBlockBatch requires puts deletes preimages height hash).undoBlock height
      (s.undoRecord requires puts deletes preimages height hash) = s := by
  have hundo : (s.undo.put height
      (some (s.undoRecord requires puts deletes preimages height hash))).delete height = s.undo := by
    ext1 h
    rw [Table.get_delete]
    split_ifs with heq
    · rw [heq, hfresh]
    · exact Table.get_put_of_ne _ _ heq
  unfold undoBlock undoRecord
  dsimp only
  rw [foldl_applyChange_row]
  unfold setBlockBatch
  dsimp only
  rw [writeRows_undoChanges hsound, ← hwf.height, ← hwf.hash, hundo]

lemma readUndo_setBlockBatch :
    (s.setBlockBatch requires puts deletes preimages height hash).readUndo height (some hash) =
      .ok (s.undoRecord requires puts deletes preimages height hash) := by
  unfold readUndo setBlockBatch
  simp [undoRecord]

variable {target : Option ℕ} {current nextHeight : ℕ} {undo : RunesBlockUndo V H}

/-- A rollback below a block first undoes it. -/
theorem rollbackToHeight_setBlockBatch (hwf : s.WellFormed) (hfresh : s.undo.get height = none)
    (hsound : JournalSound requires s.rows puts preimages)
    (htarget : atTarget target height = false) (fuel : ℕ) :
    rollbackToHeight target (fuel + 1)
        (s.setBlockBatch requires puts deletes preimages height hash) =
      rollbackToHeight target fuel s := by
  have hheight : (s.setBlockBatch requires puts deletes preimages height hash).getIndexHeight =
      some height := rfl
  have hhash : (s.setBlockBatch requires puts deletes preimages height hash).getIndexBlockHash =
      some hash := rfl
  rw [rollbackToHeight, hheight]
  dsimp only
  rw [htarget, if_neg (by simp), hhash, readUndo_setBlockBatch]
  dsimp only
  rw [undoBlock_setBlockBatch hwf hfresh hsound]

/-! ## The preflight -/

/-- The preflight from a height and a hash ends well after exactly `n` records. -/
inductive Preflighted (s : RunesStore V H) (target : Option ℕ) : ℕ → Option ℕ → Option H → Prop where
  | absent (hash : Option H) : Preflighted s target 0 none hash
  | reached {height : ℕ} (hash : Option H) : atTarget target height = true →
    Preflighted s target 0 (some height) hash
  | record {height n : ℕ} {hash : Option H} {undo : RunesBlockUndo V H} :
    atTarget target height = false → s.readUndo height hash = .ok undo →
    Preflighted s target n undo.prevIndexHeight undo.prevIndexBlockHash →
    Preflighted s target (n + 1) (some height) hash

omit [DecidableEq K] in
lemma preflighted_of_loop {fuel : ℕ} {current : Option ℕ} {hash : Option H}
    (hloop : preflightLoop s target fuel current hash = some (.ok ())) :
    ∃ n, Preflighted s target n current hash := by
  induction fuel generalizing current hash with
  | zero => exact absurd hloop (by simp [preflightLoop])
  | succ fuel ih =>
    cases current with
    | none => exact ⟨0, .absent hash⟩
    | some height =>
      cases htarget : atTarget target height with
      | true => exact ⟨0, .reached hash htarget⟩
      | false =>
        rw [preflightLoop, htarget] at hloop
        cases hread : s.readUndo height hash with
        | error e =>
          rw [hread] at hloop
          simp at hloop
        | ok undo =>
          rw [hread] at hloop
          obtain ⟨n, hn⟩ := ih hloop
          exact ⟨n + 1, .record htarget hread hn⟩

omit [DecidableEq K] in
lemma get_of_readUndo {hash : Option H} (hread : s.readUndo current hash = .ok undo) :
    s.undo.get current = some (some undo) := by
  unfold readUndo at hread
  split at hread
  · simp at hread
  · simp at hread
  · rename_i stored hget
    rw [hget]
    split_ifs at hread
    split at hread
    · rw [Except.ok.inj hread]
    · split_ifs at hread
      rw [Except.ok.inj hread]

omit [DecidableEq K] in
lemma readUndo_unique {hash hash' : Option H} {undo' : RunesBlockUndo V H}
    (hread : s.readUndo current hash = .ok undo) (hread' : s.readUndo current hash' = .ok undo') :
    undo = undo' := by
  have heq := (get_of_readUndo hread).symm.trans (get_of_readUndo hread')
  exact Option.some.inj (Option.some.inj heq)

omit [DecidableEq K] in
lemma Preflighted.unique {n m : ℕ} {hash hash' : Option H}
    (h : Preflighted s target n (some current) hash)
    (h' : Preflighted s target m (some current) hash') : n = m := by
  generalize hc : some current = c at h
  induction h generalizing m current hash' with
  | absent hash => simp at hc
  | reached hash htarget =>
    cases hc
    cases h' with
    | reached _ _ => rfl
    | record htarget' _ _ => exact absurd htarget (by simp [htarget'])
  | @record height n hash undo htarget hread hnext ih =>
    cases hc
    cases h' with
    | reached _ htarget' => exact absurd htarget' (by simp [htarget])
    | @record _ m _ undo' _ hread' hnext' =>
      obtain rfl := readUndo_unique hread hread'
      congr 1
      cases hprev : undo.prevIndexHeight with
      | none =>
        rw [hprev] at hnext hnext'
        cases hnext
        cases hnext'
        rfl
      | some prev =>
        rw [hprev] at hnext'
        exact ih hnext' hprev.symm

/-! ## The rollback after the preflight -/

/-- No record that a rollback before `nextHeight` may read changes another such record. -/
def UndoKeysKept (s : RunesStore V H) (nextHeight : ℕ) : Prop :=
  ∀ height undo, nextHeight ≤ height → s.undo.get height = some (some undo) →
    ∀ other previous, .undo other previous ∈ undo.changes → other < nextHeight

omit [DecidableEq H] in
lemma get_undo_foldl_applyChange {changes : List (RuneUndoChange V H)} (s : RunesStore V H)
    (h : ∀ other previous, .undo other previous ∈ changes → other ≠ height) :
    (changes.foldl applyChange s).undo.get height = s.undo.get height := by
  refine List.foldlRecOn (motive := fun t : RunesStore V H => t.undo.get height = _) _ _ rfl
    fun t ht c hc => ?_
  cases c with
  | undo other previous =>
    exact ((Table.get_set t.undo other height previous).trans (if_neg (h other previous hc).symm)).trans ht
  | row key previous => exact ht
  | indexHeight previous => exact ht
  | indexBlockHash previous => exact ht

lemma le_of_not_atTarget (h : atTarget (targetHeight nextHeight) height = false) :
    nextHeight ≤ height := by
  cases nextHeight with
  | zero => exact Nat.zero_le _
  | succ n =>
    simp only [atTarget, targetHeight, Option.any_some, decide_eq_false_iff_not] at h
    omega

lemma lt_of_atTarget (h : atTarget (targetHeight nextHeight) height = true) :
    height < nextHeight := by
  cases nextHeight with
  | zero => exact absurd h (by simp [atTarget, targetHeight])
  | succ n =>
    simp only [atTarget, targetHeight, Option.any_some, decide_eq_true_eq] at h
    omega

omit [DecidableEq K] in
lemma readUndo_congr {s s' : RunesStore V H} (h : s.undo.get height = s'.undo.get height)
    (hash : Option H) : s.readUndo height hash = s'.readUndo height hash := by
  unfold readUndo
  rw [h]

/-- The rollback follows the chain of records that the preflight found in `s`, from a store `t` that
holds the records of all heights but those already undone. -/
theorem rollbackToHeight_of_preflighted {n : ℕ} {current : Option ℕ} {hash : Option H}
    (hkept : s.UndoKeysKept nextHeight)
    (hpre : Preflighted s (targetHeight nextHeight) n current hash) (t : RunesStore V H)
    (undone : Finset ℕ) (hheight : t.getIndexHeight = current) (hhash : t.getIndexBlockHash = hash)
    (hundo : ∀ h, nextHeight ≤ h → h ∉ undone → t.undo.get h = s.undo.get h)
    (hlater : ∀ h ∈ undone, ∀ m hash', Preflighted s (targetHeight nextHeight) m (some h) hash' → n < m) :
    ∃ t', rollbackToHeight (targetHeight nextHeight) (n + 1) t = some (.ok (), t') ∧
      ∀ h, t'.getIndexHeight = some h → h < nextHeight := by
  induction hpre generalizing t undone with
  | absent hash =>
    refine ⟨t, ?_, fun h hh => absurd (hheight.symm.trans hh) (by simp)⟩
    rw [rollbackToHeight, hheight]
  | reached hash htarget =>
    refine ⟨t, ?_, fun h hh => ?_⟩
    · rw [rollbackToHeight, hheight]
      dsimp only
      rw [if_pos htarget]
    · cases hheight.symm.trans hh
      exact lt_of_atTarget htarget
  | @record height n hash undo htarget hread hnext ih =>
    have hle := le_of_not_atTarget htarget
    -- a height that was undone before would have more records left than there are
    have hnot : height ∉ undone := fun hmem =>
      absurd (hlater height hmem (n + 1) hash (.record htarget hread hnext)) (lt_irrefl _)
    have hread' : t.readUndo height hash = .ok undo :=
      (readUndo_congr (hundo height hle hnot) hash).trans hread
    have hchanges : ∀ other previous, .undo other previous ∈ undo.changes → other < nextHeight :=
      hkept height undo hle (get_of_readUndo hread)
    have hstep : rollbackToHeight (targetHeight nextHeight) (n + 1 + 1) t =
        rollbackToHeight (targetHeight nextHeight) (n + 1) (t.undoBlock height undo) := by
      rw [rollbackToHeight, hheight]
      dsimp only
      rw [htarget, if_neg (by simp), hhash, hread']
    rw [hstep]
    apply ih (t.undoBlock height undo) (insert height undone)
    · cases hprev : undo.prevIndexHeight <;> simp [undoBlock, getIndexHeight, hprev]
    · cases hprev : undo.prevIndexBlockHash <;> simp [undoBlock, getIndexBlockHash, hprev]
    · intro h hh hmem
      rw [Finset.mem_insert, not_or] at hmem
      rw [← hundo h hh hmem.2]
      have hfold : (undo.changes.foldl applyChange t).undo.get h = t.undo.get h := by
        apply get_undo_foldl_applyChange
        intro other previous hchange
        have hother := hchanges other previous hchange
        omega
      refine ((Table.get_delete _ _ _).trans (if_neg hmem.1)).trans hfold
    · intro h hmem m hash' hm
      rcases Finset.mem_insert.1 hmem with rfl | hmem
      · have := hm.unique (.record htarget hread hnext)
        omega
      · have := hlater h hmem m hash' hm
        omega

/-- A preflight that succeeds guards the rollback: it ends without an error and leaves the index
height below `nextHeight`, provided the records it reads do not change one another. A preflight that
fails leaves the store as it is. -/
theorem preflight_guards_rollback (s : RunesStore V H) (nextHeight : ℕ) :
    (s.UndoKeysKept nextHeight →
      ∀ fuel, s.preflightRollbackBeforeHeight nextHeight fuel = some (.ok ()) →
        ∃ fuel' s', s.rollbackBeforeHeight nextHeight fuel' = some (.ok (), s') ∧
          ∀ h, s'.getIndexHeight = some h → h < nextHeight) ∧
    ∀ fuel e, s.preflightRollbackBeforeHeight nextHeight fuel = some (.error e) →
      s.handleReorg nextHeight fuel = some (.error e, s) := by
  constructor
  · intro hkept fuel hpre
    obtain ⟨n, hn⟩ := preflighted_of_loop hpre
    obtain ⟨s', hs', hlt⟩ := rollbackToHeight_of_preflighted hkept hn s ∅ rfl rfl
      (fun _ _ _ => rfl) (by simp)
    exact ⟨n + 1, s', hs', hlt⟩
  · intro fuel e hpre
    rw [handleReorg, hpre]

/-- Two blocks, the record of the second of which has the given changes. -/
def twoBlocks (changes : List (RuneUndoChange (fun _ : Empty => Unit) ℕ)) :
    RunesStore (fun _ : Empty => Unit) ℕ where
  rows := ∅
  undo := ((∅ : Table ℕ _).put 1 (some ⟨1, 11, none, none, []⟩)).put 2
    (some ⟨2, 12, some 1, some 11, changes⟩)
  indexHeight := some (some 2)
  indexBlockHash := some (some 12)

theorem preflight_guards_rollback_twoBlocks :
    ∃ fuel s', (twoBlocks []).rollbackBeforeHeight 1 fuel = some (.ok (), s') ∧
      ∀ h, s'.getIndexHeight = some h → h < 1 := by
  have hkept : (twoBlocks []).UndoKeysKept 1 := by
    intro height undo _ hget other previous hmem
    have hundo : undo.changes = [] := by
      unfold twoBlocks at hget
      rw [Table.get_put, Table.get_put] at hget
      split_ifs at hget
      · rw [← Option.some.inj (Option.some.inj hget)]
      · rw [← Option.some.inj (Option.some.inj hget)]
      · simp at hget
    rw [hundo] at hmem
    simp at hmem
  exact (preflight_guards_rollback (twoBlocks []) 1).1 hkept 3 rfl

/-- The preflight passes, but the record of the second block deletes the record of the first, which
the rollback then misses. -/
theorem preflight_passes_rollback_fails :
    (twoBlocks [.undo 1 none]).preflightRollbackBeforeHeight 1 3 = some (.ok ()) ∧
      ((twoBlocks [.undo 1 none]).rollbackBeforeHeight 1 3).map Prod.fst =
        some (.error (.missingUndo 1)) :=
  ⟨rfl, rfl⟩

end RunesStore

end Espo.Runes
