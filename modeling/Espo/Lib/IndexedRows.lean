import Espo.Lib.Positions
import Espo.Lib.Table

/-!
# A list in numbered rows

A list that is stored as a row for its length and a row for each position. It is appended to, or written
anew; rows past a shorter new list are deleted. `Holds` says which list the rows hold.
-/

namespace Lib

open List

/-- The rows of a list. -/
structure IndexedRows (V : Type*) where
  len : Option ℕ
  idx : Table ℕ V

namespace IndexedRows
variable {V : Type*}

/-- No rows. -/
def empty : IndexedRows V := ⟨none, ∅⟩

variable (rows : IndexedRows V)

/-- The length; no row counts as zero. -/
def length : ℕ := rows.len.getD 0

/-- The rows below the length; missing ones are skipped. -/
def read : List V := (List.range rows.length).filterMap rows.idx.get

/-- Write values at the end. -/
def append (vals : List V) : IndexedRows V :=
  if vals.isEmpty then rows
  else
    { len := some (rows.length + vals.length)
      idx := rows.idx.putAll (vals.zipIdx.map fun v => (rows.length + v.2, v.1)) }

/-- Write the whole list anew. -/
def rebuild (vals : List V) : IndexedRows V :=
  { len := some vals.length
    idx := ((List.range' vals.length (rows.length - vals.length)).foldl Table.delete rows.idx).putAll
      (vals.zipIdx.map fun v => (v.2, v.1)) }

/-- The rows hold a list. -/
structure Holds (rows : IndexedRows V) (l : List V) : Prop where
  length_eq : rows.length = l.length
  get_eq : ∀ i, rows.idx.get i = l[i]?

lemma holds_empty : (empty : IndexedRows V).Holds [] := ⟨rfl, fun _ => rfl⟩

variable {rows : IndexedRows V} {l : List V}

lemma Holds.read_eq (h : rows.Holds l) : rows.read = l := by
  have hget : rows.idx.get = fun i => l[i]? := funext h.get_eq
  rw [read, h.length_eq, hget]
  exact filterMap_getElem?_range l

lemma get_putAll_zipIdx (t : Table ℕ V) (vals : List V) (base i : ℕ) :
    (t.putAll (vals.zipIdx.map fun v => (base + v.2, v.1))).get i
      = if base ≤ i then (vals[i - base]?).or (t.get i) else t.get i := by
  induction vals using List.reverseRecOn with
  | nil => simp [Table.putAll]
  | append_singleton vals v ih =>
    rw [zipIdx_append, map_append]
    simp only [Nat.zero_add, zipIdx_singleton, map_cons, map_nil]
    rw [Table.putAll_concat, Table.get_put, ih]
    by_cases hi : i = base + vals.length
    · rw [if_pos hi, if_pos (by omega), hi, Nat.add_sub_cancel_left, getElem?_concat_length]
      rfl
    · rw [if_neg hi]
      split_ifs with hbase
      · have hlast : (vals ++ [v])[i - base]? = vals[i - base]? := by
          rcases Nat.lt_or_ge (i - base) vals.length with hlt | hge
          · exact getElem?_append_left hlt
          · rw [getElem?_eq_none hge, getElem?_eq_none]
            rw [length_append, length_singleton]
            omega
        rw [hlast]
      · rfl

lemma Holds.append (h : rows.Holds l) (vals : List V) : (rows.append vals).Holds (l ++ vals) := by
  rw [IndexedRows.append]
  split_ifs with hempty
  · rw [List.isEmpty_iff.1 hempty, append_nil]
    exact h
  · refine ⟨?_, fun i => ?_⟩
    · rw [length_append, ← h.length_eq]
      rfl
    · rw [get_putAll_zipIdx, h.length_eq, h.get_eq]
      split_ifs with hi
      · rw [getElem?_append_right hi, getElem?_eq_none hi, Option.or_none]
      · rw [getElem?_append_left (by omega)]

lemma get_foldl_delete (t : Table ℕ V) (keys : List ℕ) (i : ℕ) :
    (keys.foldl Table.delete t).get i = if i ∈ keys then none else t.get i := by
  induction keys generalizing t with
  | nil => simp
  | cons k keys ih =>
    rw [foldl_cons, ih, Table.get_delete]
    by_cases hi : i ∈ keys
    · simp [hi]
    · by_cases hk : i = k
      · simp [hk]
      · simp [hk]

lemma Holds.rebuild (h : rows.Holds l) (vals : List V) : (rows.rebuild vals).Holds vals := by
  refine ⟨rfl, fun i => ?_⟩
  have hput := get_putAll_zipIdx
    ((List.range' vals.length (rows.length - vals.length)).foldl Table.delete rows.idx) vals 0 i
  simp only [Nat.zero_add, Nat.zero_le, if_true, Nat.sub_zero] at hput
  rw [IndexedRows.rebuild, hput, get_foldl_delete, h.get_eq, h.length_eq]
  rcases Nat.lt_or_ge i vals.length with hlt | hge
  · rw [getElem?_eq_getElem hlt, Option.some_or]
  · rw [getElem?_eq_none hge]
    split_ifs with hmem
    · rfl
    · rw [mem_range'_1] at hmem
      exact getElem?_eq_none (by omega)

end IndexedRows
end Lib
