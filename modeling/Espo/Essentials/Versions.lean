import Espo.Lib.Instances

/-!
# Version lists

Pointer blobs are not part of the versioned tree. A blob keeps one entry for every block that wrote
it, newest first, and readers pick the entry that their block can see. The height of a block is
determined by its hash; `heightOf` is that function.

`VersionList` carries what every list written by the module satisfies: the entries are strictly
sorted, newest first, and each carries the height of its block.
-/

namespace Espo.Essentials

open List

/-- `VersionedU64EntryV1` and `VersionedBytes32EntryV1`. -/
structure VersionedEntry (W H : Type*) where
  height : ℕ
  blockhash : H
  value : W
  deriving DecidableEq

section Writers
variable {W H : Type*} [LinearOrder H]

/-- The order of `sort_versioned_u64_entries_desc` and `sort_versioned_bytes32_entries_desc`: by
height, then by hash, both descending. -/
def NewerEq (a b : VersionedEntry W H) : Prop :=
  b.height < a.height ∨ (b.height = a.height ∧ b.blockhash ≤ a.blockhash)

/-- Strictly newer. -/
def Newer (a b : VersionedEntry W H) : Prop :=
  b.height < a.height ∨ (b.height = a.height ∧ b.blockhash < a.blockhash)

instance (a b : VersionedEntry W H) : Decidable (NewerEq a b) := inferInstanceAs (Decidable (_ ∨ _))

/-- Overwrite the entry of the block, or append one. -/
def setVersion (height : ℕ) (blockhash : H) (value : W) :
    List (VersionedEntry W H) → List (VersionedEntry W H)
  | [] => [⟨height, blockhash, value⟩]
  | e :: es =>
    if e.height = height ∧ e.blockhash = blockhash then { e with value := value } :: es
    else e :: setVersion height blockhash value es

/-- The new list of `build_outpoint_spent_versioned_puts` and its siblings: the entry of the block is
written and the list is sorted. -/
def putVersion (height : ℕ) (blockhash : H) (value : W) (entries : List (VersionedEntry W H)) :
    List (VersionedEntry W H) :=
  (setVersion height blockhash value entries).insertionSort NewerEq

/-- The new list of `build_new_outpoint_pos_versioned_puts` and its siblings, which do not read the
old one. -/
def newVersion (height : ℕ) (blockhash : H) (value : W) : List (VersionedEntry W H) :=
  [⟨height, blockhash, value⟩]

/-- A stored version list. -/
structure VersionList (heightOf : H → ℕ) (W : Type*) where
  entries : List (VersionedEntry W H)
  sorted : entries.Pairwise Newer
  heights : ∀ e ∈ entries, e.height = heightOf e.blockhash

instance : IsTrans (VersionedEntry W H) NewerEq where
  trans a b c hab hbc := by
    rcases hab with hab | ⟨hab, hab'⟩ <;> rcases hbc with hbc | ⟨hbc, hbc'⟩
    · exact .inl (hbc.trans hab)
    · exact .inl (by omega)
    · exact .inl (by omega)
    · exact .inr ⟨hbc.trans hab, hbc'.trans hab'⟩

instance : Std.Total (NewerEq (W := W) (H := H)) where
  total a b := by
    rcases lt_trichotomy a.height b.height with h | h | h
    · exact .inr (.inl h)
    · rcases le_total a.blockhash b.blockhash with h' | h'
      · exact .inr (.inr ⟨h, h'⟩)
      · exact .inl (.inr ⟨h.symm, h'⟩)
    · exact .inl (.inl h)

/-- The block of an entry. -/
def VersionedEntry.version (e : VersionedEntry W H) : ℕ × H := (e.height, e.blockhash)

lemma version_setVersion (height : ℕ) (blockhash : H) (value : W)
    (entries : List (VersionedEntry W H)) :
    (setVersion height blockhash value entries).map VersionedEntry.version
      = if (height, blockhash) ∈ entries.map VersionedEntry.version
        then entries.map VersionedEntry.version
        else entries.map VersionedEntry.version ++ [(height, blockhash)] := by
  induction entries with
  | nil => rfl
  | cons e es ih =>
    by_cases he : e.height = height ∧ e.blockhash = blockhash
    · have hversion : e.version = (height, blockhash) := Prod.ext he.1 he.2
      rw [setVersion, if_pos he, if_pos (by simp [hversion])]
      rfl
    · have hversion : ¬(height, blockhash) = e.version := fun h =>
        he ⟨(Prod.mk.inj h).1.symm, (Prod.mk.inj h).2.symm⟩
      rw [setVersion, if_neg he, map_cons, ih]
      simp only [map_cons, mem_cons, hversion, false_or]
      split_ifs <;> rfl

variable {entries : List (VersionedEntry W H)} {blockhash : H} {e : VersionedEntry W H}

lemma pairwise_putVersion {height : ℕ} {value : W} (h : entries.Pairwise Newer) :
    (putVersion height blockhash value entries).Pairwise Newer := by
  have hnodup : (entries.map VersionedEntry.version).Nodup := by
    refine pairwise_map.2 (h.imp fun {a b} hab heq => ?_)
    obtain ⟨hheight, hhash⟩ := Prod.mk.inj heq
    rcases hab with hlt | ⟨-, hlt⟩
    · omega
    · exact hlt.ne hhash.symm
  have hset : ((setVersion height blockhash value entries).map VersionedEntry.version).Nodup := by
    rw [version_setVersion]
    split_ifs with hmem
    · exact hnodup
    · exact nodup_append.2 ⟨hnodup, nodup_singleton _, fun a ha b hb heq =>
        hmem ((heq.trans (mem_singleton.1 hb)) ▸ ha)⟩
  have hput : ((putVersion height blockhash value entries).map VersionedEntry.version).Nodup :=
    ((perm_insertionSort _ _).map _).nodup_iff.2 hset
  -- sorted, and no block twice
  refine ((pairwise_insertionSort NewerEq _).and (pairwise_map.1 hput)).imp ?_
  rintro a b ⟨hlt | ⟨heq, hle⟩, hne⟩
  · exact .inl hlt
  · exact .inr ⟨heq, hle.lt_of_ne fun hhash => hne (Prod.ext heq.symm hhash.symm)⟩

lemma mem_putVersion {height : ℕ} {value : W} (he : e ∈ putVersion height blockhash value entries) :
    e ∈ entries ∨ e = ⟨height, blockhash, value⟩ := by
  rw [putVersion, mem_insertionSort] at he
  induction entries with
  | nil => exact .inr (mem_singleton.1 he)
  | cons e' es ih =>
    rw [setVersion] at he
    split_ifs at he with heq
    · rcases mem_cons.1 he with rfl | hmem
      · exact .inr (by rw [← heq.1, ← heq.2])
      · exact .inl (mem_cons_of_mem _ hmem)
    · rcases mem_cons.1 he with rfl | hmem
      · exact .inl mem_cons_self
      · exact (ih hmem).imp_left (mem_cons_of_mem _)

lemma mem_putVersion_of_ne {height : ℕ} (value : W) (he : e ∈ entries)
    (hne : e.blockhash ≠ blockhash) : e ∈ putVersion height blockhash value entries := by
  rw [putVersion, mem_insertionSort]
  induction entries with
  | nil => simp at he
  | cons e' es ih =>
    rw [setVersion]
    split_ifs with heq
    · rcases mem_cons.1 he with rfl | hmem
      · exact absurd heq.2 hne
      · exact mem_cons_of_mem _ hmem
    · rcases mem_cons.1 he with rfl | hmem
      · exact mem_cons_self
      · exact mem_cons_of_mem _ (ih hmem)

lemma exists_mem_putVersion (height : ℕ) (blockhash : H) (value : W)
    (entries : List (VersionedEntry W H)) :
    ∃ e ∈ putVersion height blockhash value entries, e.blockhash = blockhash := by
  simp only [putVersion, mem_insertionSort]
  induction entries with
  | nil => exact ⟨_, mem_singleton.2 rfl, rfl⟩
  | cons e' es ih =>
    rw [setVersion]
    split_ifs with heq
    · exact ⟨_, mem_cons_self, heq.2⟩
    · obtain ⟨e, he, hhash⟩ := ih
      exact ⟨e, mem_cons_of_mem _ he, hhash⟩

variable {heightOf : H → ℕ}

/-- The empty list. -/
def VersionList.empty : VersionList heightOf W := ⟨[], List.Pairwise.nil, by simp⟩

/-- Write the entry of a block. -/
def VersionList.put (l : VersionList heightOf W) (blockhash : H) (value : W) :
    VersionList heightOf W where
  entries := putVersion (heightOf blockhash) blockhash value l.entries
  sorted := pairwise_putVersion l.sorted
  heights e he := by
    rcases mem_putVersion he with hmem | rfl
    · exact l.heights e hmem
    · rfl

/-- Replace everything by the entry of a block. -/
def VersionList.new (blockhash : H) (value : W) : VersionList heightOf W where
  entries := newVersion (heightOf blockhash) blockhash value
  sorted := pairwise_singleton _ _
  heights e he := by rw [mem_singleton.1 he]

end Writers

end Espo.Essentials
