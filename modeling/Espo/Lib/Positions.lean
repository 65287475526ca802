import Espo.Lib.Instances

/-!
# Positions in a list and in its sublists

An element of a list that passes a test stands in the filtered list at the number of elements before it
that pass. Every position of the filtered list is of this kind.
-/

namespace Lib
variable {α : Type*} {l : List α}

lemma getElem?_filter_countP {p : α → Bool} {i : ℕ} {a : α} (hget : l[i]? = some a)
    (hp : p a = true) : (l.filter p)[(l.take i).countP p]? = some a := by
  induction l generalizing i with
  | nil => simp at hget
  | cons b l ih =>
    cases i with
    | zero =>
      obtain rfl : b = a := Option.some.inj hget
      simp [hp]
    | succ i =>
      have hrest := ih (i := i) (by simpa using hget)
      by_cases hb : p b = true
      · simpa [hb] using hrest
      · simpa [hb] using hrest

lemma exists_getElem?_of_filter {p : α → Bool} {j : ℕ} {a : α} (h : (l.filter p)[j]? = some a) :
    ∃ i, l[i]? = some a ∧ p a = true ∧ (l.take i).countP p = j := by
  induction l generalizing j with
  | nil => simp at h
  | cons b l ih =>
    by_cases hb : p b = true
    · rw [List.filter_cons_of_pos hb] at h
      cases j with
      | zero =>
        obtain rfl : b = a := Option.some.inj h
        exact ⟨0, rfl, hb, rfl⟩
      | succ j =>
        obtain ⟨i, hget, hp, hcount⟩ := ih (by simpa using h)
        exact ⟨i + 1, by simpa using hget, hp, by simp [hb, hcount]⟩
    · rw [List.filter_cons_of_neg hb] at h
      obtain ⟨i, hget, hp, hcount⟩ := ih h
      exact ⟨i + 1, by simpa using hget, hp, by simp [hb, hcount]⟩

lemma getElem?_append_of_some {i : ℕ} {a : α} (h : l[i]? = some a) (l' : List α) :
    (l ++ l')[i]? = some a := by
  have hlt : i < l.length := (List.getElem?_eq_some_iff.1 h).1
  rw [List.getElem?_append_left hlt, h]

lemma take_append_of_getElem? {i : ℕ} {a : α} (h : l[i]? = some a) (l' : List α) :
    (l ++ l').take i = l.take i :=
  List.take_append_of_le_length (List.getElem?_eq_some_iff.1 h).1.le

lemma getElem?_concat_eq_some {a b : α} {i : ℕ} :
    (l ++ [a])[i]? = some b ↔ l[i]? = some b ∨ i = l.length ∧ b = a := by
  rcases Nat.lt_trichotomy i l.length with hlt | heq | hgt
  · rw [List.getElem?_append_left hlt]
    constructor
    · exact .inl
    · rintro (h | ⟨rfl, -⟩)
      · exact h
      · omega
  · subst heq
    simp [eq_comm]
  · rw [List.getElem?_eq_none (by simp; omega)]
    constructor
    · simp
    · rintro (h | ⟨rfl, -⟩)
      · rw [List.getElem?_eq_none hgt.le] at h
        exact h
      · omega

lemma filterMap_getElem?_range (l : List α) : ((List.range l.length).filterMap fun i => l[i]?) = l := by
  induction l with
  | nil => rfl
  | cons a l ih =>
    rw [List.length_cons, List.range_succ_eq_map, List.filterMap_cons, List.filterMap_map]
    exact congrArg (a :: ·) ih

end Lib
