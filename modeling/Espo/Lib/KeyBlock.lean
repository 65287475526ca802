import Espo.Lib.Instances

/-!
# Keys with a common start

In the order of keys as lists, the keys that begin with the same list stand together. A page of a
sorted list that runs past such a block is the page of the block itself when the block comes first; when
something stands before the block, that holds only for some pages.
-/

namespace Lib

open List

section Order
variable {B : Type*} [LinearOrder B]

lemma append_lt_of_not_isStart {start s key : List B} (h : start ++ s ≤ key) (hkey : ¬ start <+: key)
    (t : List B) : start ++ t < key := by
  induction start generalizing key with
  | nil => exact absurd nil_prefix hkey
  | cons b start ih =>
    cases key with
    | nil => exact absurd h (not_le.2 (nil_lt_cons _ _))
    | cons c key =>
      rw [cons_append, cons_lt_cons_iff]
      rw [cons_append, ← not_lt, cons_lt_cons_iff, not_or, not_lt] at h
      rcases h.1.lt_or_eq with hlt | rfl
      · exact .inl hlt
      · have hle : start ++ s ≤ key := not_lt.1 fun hlt => h.2 ⟨rfl, hlt⟩
        refine .inr ⟨rfl, ih hle fun hstart => hkey ?_⟩
        exact cons_prefix_cons.2 ⟨rfl, hstart⟩

end Order

variable {α : Type*} {l : List α} {p : α → Bool}

section
variable (h : l.Pairwise fun a b => p b → p a)
include h

lemma takeWhile_eq_filter : l.takeWhile p = l.filter p := by
  induction l with
  | nil => rfl
  | cons a l ih =>
    rw [pairwise_cons] at h
    by_cases ha : p a
    · rw [takeWhile_cons_of_pos ha, filter_cons_of_pos ha, ih h.2]
    · have hnone : l.filter p = [] := filter_eq_nil_iff.2 fun b hb hpb => ha (h.1 b hb hpb)
      rw [takeWhile_cons_of_neg ha, filter_cons_of_neg ha, hnone]

lemma drop_takeWhile_eq_filter : l.drop (l.takeWhile p).length = l.filter fun a => !p a := by
  induction l with
  | nil => rfl
  | cons a l ih =>
    rw [pairwise_cons] at h
    by_cases ha : p a
    · rw [takeWhile_cons_of_pos ha, length_cons, drop_succ_cons,
        filter_cons_of_neg (by simpa using ha), ih h.2]
    · have hall : l.filter (fun a => !p a) = l :=
        filter_eq_self.2 fun b hb => by simpa using fun hpb => ha (h.1 b hb hpb)
      rw [takeWhile_cons_of_neg ha, length_nil, drop_zero,
        filter_cons_of_pos (by simpa using ha), hall]

lemma eq_filter_append_filter : l = l.filter p ++ l.filter fun a => !p a := by
  have htake : l.takeWhile p = l.take (l.takeWhile p).length :=
    prefix_iff_eq_take.1 ( takeWhile_prefix p)
  rw [← drop_takeWhile_eq_filter h, ← takeWhile_eq_filter h]
  calc l = l.take (l.takeWhile p).length ++ l.drop (l.takeWhile p).length :=
        (take_append_drop _ l).symm
    _ = l.takeWhile p ++ l.drop (l.takeWhile p).length := by rw [← htake]

end

/-- A page: `limit` elements after the first `offset`. -/
def page (offset limit : ℕ) (l : List α) : List α := (l.drop offset).take limit

@[simp]
lemma page_nil (offset limit : ℕ) : page offset limit ([] : List α) = [] := by simp [page]

lemma length_page (offset limit : ℕ) (l : List α) :
    (page offset limit l).length = min limit (l.length - offset) := by
  rw [page, length_take, length_drop]

lemma mem_of_mem_page {offset limit : ℕ} {a : α} (h : a ∈ page offset limit l) : a ∈ l :=
  mem_of_mem_drop (mem_of_mem_take h)

lemma page_append (offset limit : ℕ) (l₁ l₂ : List α) :
    page offset limit (l₁ ++ l₂)
      = page offset limit l₁ ++ page (offset - l₁.length) (limit - (l₁.length - offset)) l₂ := by
  rw [page, drop_append, take_append, length_drop]
  rfl

lemma page_map {β : Type*} (f : α → β) (offset limit : ℕ) (l : List α) :
    page offset limit (l.map f) = (page offset limit l).map f := by
  rw [page, page, map_take, map_drop]

/-- Two pages of a list without repetitions are equal when they are empty, or have the same start and the
same length. -/
theorem page_eq_page_iff (hl : l.Nodup) {o₁ n₁ o₂ n₂ : ℕ} :
    page o₁ n₁ l = page o₂ n₂ l ↔ min n₁ (l.length - o₁) = min n₂ (l.length - o₂) ∧
      (min n₂ (l.length - o₂) = 0 ∨ o₁ = o₂) := by
  constructor
  · intro heq
    have hlen := congrArg List.length heq
    rw [length_page, length_page] at hlen
    refine ⟨hlen, ?_⟩
    by_cases hzero : min n₂ (l.length - o₂) = 0
    · exact .inl hzero
    · -- the first elements of the pages are equal, hence their places
      have h₁ : o₁ < l.length := by omega
      have h₂ : o₂ < l.length := by omega
      have hfirst := congrArg List.head? heq
      rw [page, page, head?_take, head?_take, if_neg (by omega), if_neg (by omega),
        head?_drop, head?_drop, getElem?_eq_getElem h₁, getElem?_eq_getElem h₂] at hfirst
      exact .inr ((List.Nodup.getElem_inj_iff hl).1 (Option.some.inj hfirst))
  · rintro ⟨hlen, hzero | rfl⟩
    · have hnil : ∀ o n, min n (l.length - o) = 0 → page o n l = [] := by
        intro o n h
        exact length_eq_zero_iff.1 ((length_page o n l).trans h)
      rw [hnil o₁ n₁ (hlen.trans hzero), hnil o₂ n₂ hzero]
    · rw [page, page, take_eq_take_iff, length_drop]
      exact hlen

/-- When `m` elements stand before a list, the page of both has what the page of the list has in these
cases only. -/
theorem page_shifted_eq_iff (hl : l.Nodup) {m offset limit : ℕ} :
    page (offset - m) (limit - (m - offset)) l = page offset limit l ↔
      limit = 0 ∨ m = 0 ∨ l.length = 0 ∨ (offset = 0 ∧ m + l.length ≤ limit) ∨
        (l.length ≤ offset ∧ (m + l.length ≤ offset ∨ offset + limit ≤ m)) := by
  rw [page_eq_page_iff hl]
  omega

end Lib
