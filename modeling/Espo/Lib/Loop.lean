import Espo.Lib.Instances

/-!
# Loops over lists

Invariants of loops over a list, of two that run in step, and of loops that may fail.

A loop may also have a body that leaves it: the body returns the next state and whether to stop. A
loop over lists of lists whose body is such a loop is the loop over the concatenation.
-/

namespace Lib

open List

section Invariant
variable {σ τ α : Type*} {l : List α} {P : List α → σ → Prop}

variable {f : σ → α → σ} {done rest : List (α × ℕ)}

lemma foldl_invariant₂ {g : τ → α → τ} {P : List α → σ → τ → Prop} {s : σ} {t : τ}
    (hinit : P [] s t)
    (hstep : ∀ done a rest s t, l = done ++ a :: rest → P done s t → P (done ++ [a]) (f s a) (g t a)) :
    P l (l.foldl f s) (l.foldl g t) := by
  have hloop : ∀ rest done s t, l = done ++ rest → P done s t →
      P l (rest.foldl f s) (rest.foldl g t) := by
    intro rest
    induction rest with
    | nil =>
      intro done s t hl h
      rw [append_nil] at hl
      exact hl ▸ h
    | cons a rest ih =>
      intro done s t hl h
      exact ih (done ++ [a]) _ _ (by rw [hl, append_assoc]; rfl) (hstep done a rest s t hl h)
  exact hloop l [] s t rfl hinit

lemma foldl_invariant {s : σ} (hinit : P [] s)
    (hstep : ∀ done a rest s, l = done ++ a :: rest → P done s → P (done ++ [a]) (f s a)) :
    P l (l.foldl f s) :=
  foldl_invariant₂ (g := fun t _ => t) (P := fun done s _ => P done s) (t := ()) hinit
    fun done a rest s _ => hstep done a rest s

lemma foldlM_invariant {f : σ → α → Option σ} {s s' : σ} (h : l.foldlM f s = some s')
    (hinit : P [] s)
    (hstep : ∀ done a rest s s', l = done ++ a :: rest → f s a = some s' → P done s → P (done ++ [a]) s') :
    P l s' := by
  have hloop : ∀ rest done s, l = done ++ rest → P done s → rest.foldlM f s = some s' → P l s' := by
    intro rest
    induction rest with
    | nil =>
      intro done s hl hP hfold
      rw [append_nil] at hl
      cases hfold
      exact hl ▸ hP
    | cons a rest ih =>
      intro done s hl hP hfold
      rw [foldlM_cons, Option.bind_eq_bind, Option.bind_eq_some_iff] at hfold
      obtain ⟨s₁, hs₁, hrest⟩ := hfold
      exact ih (done ++ [a]) s₁ (by rw [hl, append_assoc]; rfl) (hstep done a rest s s₁ hl hs₁ hP) hrest
  exact hloop l [] s rfl hinit h

lemma foldlM_exists {f : σ → α → Option σ} {s : σ} (hinit : P [] s)
    (hstep : ∀ done a rest s, l = done ++ a :: rest → P done s → ∃ s', f s a = some s' ∧ P (done ++ [a]) s') :
    ∃ s', l.foldlM f s = some s' ∧ P l s' := by
  have hloop : ∀ rest done s, l = done ++ rest → P done s → ∃ s', rest.foldlM f s = some s' ∧ P l s' := by
    intro rest
    induction rest with
    | nil =>
      intro done s hl hP
      rw [append_nil] at hl
      exact ⟨s, rfl, hl ▸ hP⟩
    | cons a rest ih =>
      intro done s hl hP
      obtain ⟨s₁, hs₁, hP₁⟩ := hstep done a rest s hl hP
      rw [foldlM_cons, hs₁]
      exact ih (done ++ [a]) s₁ (by rw [hl, append_assoc]; rfl) hP₁
  exact hloop l [] s rfl hinit

lemma foldl_le_sum {m : σ → ℕ} {c : α → ℕ} (hturn : ∀ s a, m (f s a) ≤ m s + c a) (l : List α)
    (s : σ) : m (l.foldl f s) ≤ m s + (l.map c).sum := by
  induction l generalizing s with
  | nil => exact Nat.le_add_right _ _
  | cons a l ih =>
    have hhead := hturn s a
    have hrest := ih (f s a)
    rw [foldl_cons, map_cons, sum_cons]
    omega

lemma notMem_map_of_nodup {f : α → σ} {done rest : List α} {a : α} (hnodup : (l.map f).Nodup)
    (hsplit : l = done ++ a :: rest) : f a ∉ done.map f := by
  rw [hsplit, map_append, nodup_append] at hnodup
  exact fun hmem => hnodup.2.2 _ hmem _ mem_cons_self rfl

lemma eq_length_of_zipIdx_eq {a : α} {i : ℕ} (h : l.zipIdx = done ++ (a, i) :: rest) :
    i = done.length := by
  have hget : l.zipIdx[done.length]? = some (a, i) := by rw [h]; simp
  rw [getElem?_zipIdx] at hget
  obtain ⟨a', -, heq⟩ := Option.map_eq_some_iff.1 hget
  have hi := congrArg Prod.snd heq
  simpa using hi.symm

lemma eq_append_of_zipIdx_eq {a : α × ℕ} (h : l.zipIdx = done ++ a :: rest) :
    l = done.map Prod.fst ++ a.1 :: rest.map Prod.fst := by
  rw [← zipIdx_map_fst 0 l, h, map_append, map_cons]

end Invariant

section FoldUntil
variable {σ α β : Type*}

/-- Run `f` over a list until it asks to stop; the flag says whether it did. -/
def foldUntil (f : σ → α → σ × Bool) : σ → List α → σ × Bool
  | s, [] => (s, false)
  | s, a :: l => if (f s a).2 then f s a else foldUntil f (f s a).1 l

variable (f : σ → α → σ × Bool)

lemma foldUntil_append (s : σ) (l₁ l₂ : List α) :
    foldUntil f s (l₁ ++ l₂)
      = if (foldUntil f s l₁).2 then foldUntil f s l₁ else foldUntil f (foldUntil f s l₁).1 l₂ := by
  induction l₁ generalizing s with
  | nil => rfl
  | cons a l₁ ih =>
    rw [cons_append, foldUntil, foldUntil]
    by_cases h : (f s a).2
    · rw [if_pos h, if_pos h, if_pos h]
    · rw [if_neg h, if_neg h, ih]

lemma foldUntil_foldUntil (g : β → List α) (s : σ) (ls : List β) :
    foldUntil (fun s b => foldUntil f s (g b)) s ls = foldUntil f s (ls.map g).flatten := by
  induction ls generalizing s with
  | nil => rfl
  | cons b ls ih =>
    rw [map_cons, flatten_cons, foldUntil_append, foldUntil, ih]

/-- At most the first `limit` elements, or all. -/
def takeLimit : Option ℕ → List α → List α
  | none, l => l
  | some n, l => l.take n

@[simp]
lemma takeLimit_nil (limit : Option ℕ) : takeLimit limit ([] : List α) = [] := by
  cases limit <;> simp [takeLimit]

/-- A loop that collects a page: an element ends it or gives nothing, or what it gives is skipped or
collected. `left` is how many are still skipped. -/
structure Pages (f : σ → α → σ × Bool) (out : σ → List β) (left : σ → ℕ) (limit : Option ℕ)
    (stop : α → Bool) (give : α → Option β) : Prop where
  leave : ∀ s a, stop a = true → f s a = (s, true)
  pass : ∀ s a, stop a = false → give a = none → f s a = (s, false)
  skip : ∀ s a b, stop a = false → give a = some b → 0 < left s →
    (f s a).2 = false ∧ out (f s a).1 = out s ∧ left s = left (f s a).1 + 1
  collect : ∀ s a b, stop a = false → give a = some b → left s = 0 →
    (f s a).2 = limit.any (· ≤ (out s).length + 1) ∧ out (f s a).1 = out s ++ [b] ∧ left (f s a).1 = 0

variable {f} {out : σ → List β} {left : σ → ℕ} {limit : Option ℕ} {stop : α → Bool} {give : α → Option β}

/-- What is collected: what is given before the end, less what is skipped, as far as the page has room. -/
theorem Pages.out_foldUntil (h : Pages f out left limit stop give) (s : σ) (l : List α)
    (hroom : ∀ n, limit = some n → (out s).length < n) :
    out (foldUntil f s l).1 = out s ++ takeLimit (limit.map (· - (out s).length))
      (((l.takeWhile fun a => !stop a).filterMap give).drop (left s)) := by
  induction l generalizing s with
  | nil => simp [foldUntil]
  | cons a l ih =>
    rw [foldUntil]
    cases hstop : stop a with
    | true => simp [h.leave s a hstop, hstop]
    | false =>
      rw [takeWhile_cons_of_pos (by simp [hstop])]
      cases hgive : give a with
      | none =>
        rw [h.pass s a hstop hgive, filterMap_cons_none hgive]
        exact ih s hroom
      | some b =>
        rw [filterMap_cons_some hgive]
        rcases Nat.eq_zero_or_pos (left s) with hzero | hpos
        · obtain ⟨hdone, hout, hleft⟩ := h.collect s a b hstop hgive hzero
          rw [hdone, hzero, drop_zero]
          cases limit with
          | none => simp [ih (f s a).1 (by simp), hout, hleft, takeLimit]
          | some n =>
            -- there is room for this element, and maybe for more
            obtain ⟨k, rfl⟩ := Nat.exists_eq_add_of_lt (hroom n rfl)
            have hmore : (out s).length + k + 1 - (out s).length = k + 1 := by omega
            simp only [Option.map_some, hmore, takeLimit, take_succ_cons, Option.any_some, decide_eq_true_eq]
            split_ifs with hfull
            · obtain rfl : k = 0 := by omega
              rw [hout, take_zero]
            · have hlength : (out (f s a).1).length = (out s).length + 1 := by rw [hout, length_append]; rfl
              have hrest := ih (f s a).1 (by simp only [Option.some.injEq]; omega)
              rw [hrest, hlength, hout, hleft, append_assoc, Option.map_some,
                show (out s).length + k + 1 - ((out s).length + 1) = k by omega]
              rfl
        · obtain ⟨hgo, hout, hleft⟩ := h.skip s a b hstop hgive hpos
          rw [hgo, if_neg Bool.false_ne_true, ih (f s a).1 (by rwa [hout]), hout, hleft, drop_succ_cons]

end FoldUntil
end Lib
