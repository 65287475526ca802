import Espo.Tree.History
import Espo.Tree.Range

/-!
# Range and prefix scans at a root of a history

Byte-string keys, with the scan of all keys that start with given bytes. Such a scan is a range scan from
the bytes themselves to their successor, and a filter.
-/

namespace Espo.TreeDb
open Lib List

/-- A byte. -/
abbrev Byte := Fin 256

/-- `saturating_add(1)` of a byte. -/
def byteSaturatingSucc (b : Byte) : Byte := if h : b.val + 1 < 256 then ⟨b.val + 1, h⟩ else 255

/-- The loop of `prefix_end_exclusive` over the first `n` bytes, from the last one on. -/
def prefixEndLoop (bytes : List Byte) : ℕ → Option (List Byte)
  | 0 => none
  | i + 1 =>
    match bytes[i]? with
    | some b =>
      if b ≠ 0xFF then some ((bytes.set i (byteSaturatingSucc b)).take (i + 1))
      else prefixEndLoop bytes i
    | none => none

/-- `prefix_end_exclusive`. -/
def prefixEndExclusive (bytes : List Byte) : Option (List Byte) := prefixEndLoop bytes bytes.length

lemma lt_byteSaturatingSucc {b : Byte} (h : b ≠ 0xFF) : b < byteSaturatingSucc b := by
  have hval : b.val ≠ 255 := fun hb => h (Fin.ext hb)
  have hsucc : b.val + 1 < 256 := by omega
  rw [byteSaturatingSucc, dif_pos hsucc]
  exact Fin.lt_def.2 (Nat.lt_succ_self _)

/-- The loop returns a cut of the bytes whose last byte is raised. -/
theorem prefixEndLoop_spec {bytes endBytes : List Byte} {n : ℕ}
    (h : prefixEndLoop bytes n = some endBytes) :
    ∃ l b r, bytes = l ++ b :: r ∧ b < byteSaturatingSucc b ∧ endBytes = l ++ [byteSaturatingSucc b] := by
  induction n with
  | zero => cases h
  | succ i ih =>
    rw [prefixEndLoop] at h
    cases hi : bytes[i]? with
    | none => simp [hi] at h
    | some b =>
      simp only [hi] at h
      by_cases hb : b = 0xFF
      · rw [if_neg (not_not.2 hb)] at h
        exact ih h
      · rw [if_pos hb] at h
        obtain ⟨hlt, hget⟩ := List.getElem?_eq_some_iff.1 hi
        refine ⟨bytes.take i, b, bytes.drop (i + 1), ?_, lt_byteSaturatingSucc hb, ?_⟩
        · rw [← hget, getElem_cons_drop, take_append_drop]
        · cases h
          have hlen : i < (bytes.set i (byteSaturatingSucc b)).length := by
            rw [length_set]
            exact hlt
          rw [take_succ_eq_append_getElem hlen, take_set_of_le le_rfl, getElem_set_self]

/-- Everything that starts with the bytes comes before their successor. -/
theorem lt_prefixEndExclusive {bytes endBytes key : List Byte}
    (h : prefixEndExclusive bytes = some endBytes) (hkey : bytes <+: key) : key < endBytes := by
  obtain ⟨l, b, r, rfl, hb, rfl⟩ := prefixEndLoop_spec h
  obtain ⟨t, rfl⟩ := hkey
  clear h
  induction l with
  | nil => exact cons_lt_cons_iff.2 (.inl hb)
  | cons a l ih =>
    exact cons_lt_cons_iff.2 (.inr ⟨rfl, ih⟩)

lemma le_of_isPrefix {bytes key : List Byte} (h : bytes <+: key) : bytes ≤ key := by
  obtain ⟨t, rfl⟩ := h
  induction bytes with
  | nil => exact not_lt.1 (not_lt_nil _)
  | cons a bytes ih => exact cons_le_cons a ih

section Scans
variable {K V Id : Type*} [LinearOrder K] [DecidableEq Id]

/-- `collect_prefixed_entries_at_root`. -/
def collectPrefixedEntriesAtRoot (disk : Table Id (BptreeNode (List Byte) V Id)) (root : Id)
    (bytes : List Byte) : List (List Byte × V) :=
  (rangeEntriesAtRoot disk root bytes (prefixEndExclusive bytes)).filter fun entry =>
    bytes.isPrefixOf entry.1

/-- A scan lists the pairs of a map whose keys are of some kind, once each, in key order. -/
structure Lists (out : List (K × V)) (map : K → Option V) (kind : K → Prop) : Prop where
  sorted : out.Pairwise fun a b => a.1 < b.1
  mem : ∀ key value, (key, value) ∈ out ↔ kind key ∧ map key = some value

variable {disk : Table Id (BptreeNode K V Id)} {root : Id} {m : List (LeafEntry K V)}

lemma pastEnd_eq_false_iff {endExclusive : Option K} {key : K} :
    pastEnd endExclusive key = false ↔ ∀ last ∈ endExclusive, key < last := by
  cases endExclusive <;> simp [pastEnd]

lemma RootDenotes.rangeEntries_lists (h : RootDenotes disk.get root m) (start : K)
    (endExclusive : Option K) :
    Lists (rangeEntriesAtRoot disk root start endExclusive) (getAtRoot disk root)
      fun key => start ≤ key ∧ ∀ last ∈ endExclusive, key < last := by
  obtain ⟨d, hd⟩ := id h
  have hsorted : SortedEntries m := hd.sorted
  rw [rangeEntriesAtRoot_eq h, rangeContents]
  refine ⟨(liveEntries_sorted hsorted).filter _, ?_⟩
  intro key value
  rw [mem_filter, mem_liveEntries hsorted, getAtRoot_eq h, Bool.and_eq_true, decide_eq_true_eq,
    Bool.not_eq_true', pastEnd_eq_false_iff]
  exact and_comm

lemma RootDenotes.prefixedEntries_lists {disk : Table Id (BptreeNode (List Byte) V Id)}
    {m : List (LeafEntry (List Byte) V)} (h : RootDenotes disk.get root m) (bytes : List Byte) :
    Lists (collectPrefixedEntriesAtRoot disk root bytes) (getAtRoot disk root) (bytes <+: ·) := by
  have hrange := h.rangeEntries_lists bytes (prefixEndExclusive bytes)
  refine ⟨hrange.sorted.filter _, ?_⟩
  intro key value
  rw [collectPrefixedEntriesAtRoot, mem_filter, hrange.mem, isPrefixOf_iff_prefix]
  constructor
  · rintro ⟨⟨-, hvalue⟩, hkey⟩
    exact ⟨hkey, hvalue⟩
  · rintro ⟨hkey, hvalue⟩
    -- the range from the bytes to their successor misses no extension
    exact ⟨⟨⟨le_of_isPrefix hkey, fun last hlast => lt_prefixEndExclusive hlast hkey⟩, hvalue⟩, hkey⟩

lemma flatMap_pages {α : Type*} (l : List α) (limit pages : ℕ) :
    (List.range pages).flatMap (fun i => (l.drop (i * limit)).take limit) = l.take (pages * limit) := by
  induction pages with
  | zero => simp
  | succ n ih => rw [range_succ, flatMap_append, ih, flatMap_singleton, Nat.succ_mul,
      take_add]

variable [DecidableEq V]

/-- Paged scans are slices of the full scan, so the pages at multiples of the limit list every entry of
the range once. -/
theorem History.pages_slice [NodeHash K V Id] {roots : List Id}
    (h : History (K := K) (V := V) disk roots) (hr : root ∈ roots) (start : K)
    (endExclusive : Option K) (limit : ℕ) (reverse : Bool) :
    let full := rangeEntriesAtRoot disk root start endExclusive
    let entries := if reverse then full.reverse else full
    (∀ offset, rangeEntriesPageAtRoot disk root start endExclusive offset limit reverse
      = (entries.drop offset).take limit) ∧
    (∀ pages, entries.length ≤ pages * limit → (List.range pages).flatMap (fun i =>
      rangeEntriesPageAtRoot disk root start endExclusive (i * limit) limit reverse) = entries) ∧
    (entries.map Prod.fst).Nodup := by
  obtain ⟨m, hm⟩ := h.holds.denotes root hr
  intro full entries
  have hpage : ∀ offset, rangeEntriesPageAtRoot disk root start endExclusive offset limit reverse
      = (entries.drop offset).take limit := by
    intro offset
    rw [rangeEntriesPageAtRoot_eq hm, ← rangeEntriesAtRoot_eq hm]
  refine ⟨hpage, fun pages hpages => ?_, ?_⟩
  · simp only [hpage]
    rw [flatMap_pages, take_of_length_le hpages]
  · have hnodup : (full.map Prod.fst).Nodup :=
      pairwise_map.2 ((hm.rangeEntries_lists start endExclusive).sorted.imp ne_of_lt)
    cases reverse with
    | true => exact map_reverse ▸ nodup_reverse.2 hnodup
    | false => exact hnodup

theorem History.pages_slice_written :
    ∃ (disk : Table ℕ (BptreeNode ℕ ℕ ℕ)) (root : ℕ), getAtRoot disk root 5 = some 7 ∧
      rangeEntriesPageAtRoot disk root 3 none 0 2 true
        = ((rangeEntriesAtRoot disk root 3 none).reverse.drop 0).take 2 := by
  obtain ⟨disk, root, hist, hget⟩ := History.exists_written
    (History.init : History (initDisk ℕ ℕ ℕ) _) mem_cons_self 5 (some 7)
  exact ⟨disk, root, hget, (hist.pages_slice mem_cons_self 3 none 2 true).1 0⟩

variable [NodeHash (List Byte) V Id]

/-- Range and prefix scans at every root of a history list exactly the pairs of the map it denotes. -/
theorem History.scans_exact {disk : Table Id (BptreeNode (List Byte) V Id)} {roots : List Id}
    (h : History (K := List Byte) (V := V) disk roots) {root : Id} (hr : root ∈ roots) :
    (∀ start endExclusive, Lists (rangeEntriesAtRoot disk root start endExclusive) (getAtRoot disk root)
      fun key => start ≤ key ∧ ∀ last ∈ endExclusive, key < last) ∧
    ∀ bytes, Lists (collectPrefixedEntriesAtRoot disk root bytes) (getAtRoot disk root) (bytes <+: ·) := by
  obtain ⟨m, hm⟩ := h.holds.denotes root hr
  exact ⟨hm.rangeEntries_lists, hm.prefixedEntries_lists⟩

theorem History.scans_exact_written :
    ∃ (disk : Table ℕ (BptreeNode (List Byte) ℕ ℕ)) (root : ℕ),
      getAtRoot disk root [0xFF, 0xFF] = some 7 ∧
      Lists (collectPrefixedEntriesAtRoot disk root [0xFF]) (getAtRoot disk root) ([0xFF] <+: ·) := by
  obtain ⟨disk, root, hist, hget⟩ := History.exists_written
    (History.init : History (initDisk (List Byte) ℕ ℕ) _) mem_cons_self [0xFF, 0xFF] (some 7)
  exact ⟨disk, root, hget, (hist.scans_exact mem_cons_self).2 [0xFF]⟩

end Scans
end Espo.TreeDb
