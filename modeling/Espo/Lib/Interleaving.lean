import Espo.Lib.Instances

/-!
# Interleavings of threads

A program of threads is a state, a place in the code for each thread, and what a thread does when it is
its turn. An interleaving says whose turn it is; at some times nobody may have one. In a fair interleaving
every thread that is not at rest gets a turn again.
-/

namespace Lib

/-- A program of threads; a turn comes with what the environment decides (`Ch`). -/
structure Threads (S T Pc Ch : Type*) where
  next : S → T → Ch → S
  pc : S → T → Pc
  rest : Pc
  /-- A turn of another thread moves a thread only when it is at rest. -/
  frame : ∀ s t c u, u ≠ t → pc s u ≠ rest → pc (next s t c) u = pc s u

namespace Threads
variable {S T Pc Ch : Type*} (P : Threads S T Pc Ch) (s : S) (moves : ℕ → Option (T × Ch))

/-- The state at a time. -/
def run : ℕ → S
  | 0 => s
  | n + 1 =>
    match moves n with
    | none => run n
    | some (t, c) => P.next (run n) t c

/-- Every thread that is not at rest gets a turn. -/
def Fair : Prop :=
  ∀ t n, P.pc (P.run s moves n) t ≠ P.rest → ∃ m, n ≤ m ∧ ∃ c, moves m = some (t, c)

variable {P s moves}

lemma run_succ_of_none {n : ℕ} (h : moves n = none) : P.run s moves (n + 1) = P.run s moves n := by
  rw [run, h]

lemma run_succ_of_some {n : ℕ} {t : T} {c : Ch} (h : moves n = some (t, c)) :
    P.run s moves (n + 1) = P.next (P.run s moves n) t c := by
  rw [run, h]

/-- What holds at a time and is kept by every turn holds from then on. -/
theorem run_invariant {I : S → Prop} {n : ℕ} (hn : I (P.run s moves n))
    (hnext : ∀ m t c, n ≤ m → moves m = some (t, c) → I (P.run s moves m) →
      I (P.next (P.run s moves m) t c)) {m : ℕ} (hnm : n ≤ m) : I (P.run s moves m) := by
  induction m, hnm using Nat.le_induction with
  | base => exact hn
  | succ m hnm ih =>
    cases hmove : moves m with
    | none =>
      rw [run_succ_of_none hmove]
      exact ih
    | some move =>
      rw [run_succ_of_some hmove]
      exact hnext m move.1 move.2 hnm hmove ih

lemma pc_of_no_turn {n : ℕ} {t : T} (hpc : P.pc (P.run s moves n) t ≠ P.rest) {m : ℕ} (hnm : n ≤ m)
    (hno : ∀ k, n ≤ k → k < m → ∀ c, moves k ≠ some (t, c)) :
    P.pc (P.run s moves m) t = P.pc (P.run s moves n) t := by
  induction m, hnm using Nat.le_induction with
  | base => rfl
  | succ m hnm ih =>
    have hkeep := ih fun k hnk hkm => hno k hnk (by omega)
    cases hmove : moves m with
    | none => rw [run_succ_of_none hmove, hkeep]
    | some move =>
      obtain ⟨u, c⟩ := move
      have hne : t ≠ u := by
        rintro rfl
        exact hno m hnm (Nat.lt_succ_self m) c hmove
      rw [run_succ_of_some hmove, P.frame _ u c t hne (hkeep ▸ hpc), hkeep]

/-- In a fair interleaving a thread that is not at rest goes on from where it is. -/
theorem Fair.exists_turn (hfair : P.Fair s moves) {n : ℕ} {t : T}
    (hpc : P.pc (P.run s moves n) t ≠ P.rest) :
    ∃ m, n ≤ m ∧ (∃ c, moves m = some (t, c)) ∧
      P.pc (P.run s moves m) t = P.pc (P.run s moves n) t := by
  classical
  have hex := hfair t n hpc
  have hfirst := Nat.find_spec hex
  refine ⟨Nat.find hex, hfirst.1, hfirst.2, pc_of_no_turn hpc hfirst.1 ?_⟩
  intro k hnk hlt c hmove
  exact Nat.find_min hex hlt ⟨hnk, c, hmove⟩

lemma fair_of_rest {l : ℕ} (hmoves : ∀ n, l ≤ n → moves n = none)
    (hrest : ∀ t, P.pc (P.run s moves l) t = P.rest) : P.Fair s moves := by
  have hend : ∀ n, l ≤ n → P.run s moves n = P.run s moves l := by
    intro n hn
    induction n, hn using Nat.le_induction with
    | base => rfl
    | succ n hn ih => rw [run_succ_of_none (hmoves n hn), ih]
  intro t n hpc
  by_contra hno
  have hnone : ∀ k, n ≤ k → ∀ c, moves k ≠ some (t, c) := fun k hnk c hmove => hno ⟨k, hnk, c, hmove⟩
  rcases le_total l n with hn | hn
  · exact hpc (by rw [hend n hn, hrest])
  · exact hpc ((pc_of_no_turn hpc hn fun k hnk _ => hnone k hnk).symm.trans (hrest t))

end Threads

/-! ## At most one thread at some places -/

section Marks
variable {T Pc : Type*} {f : Pc → Bool} {pc : T → Pc} {o : Option T} {t : T} {p : Pc}

/-- The thread `o`, and no other, is at one of the places. -/
def Marks (f : Pc → Bool) (pc : T → Pc) (o : Option T) : Prop := ∀ t, f (pc t) = true ↔ o = some t

lemma Marks.unique (h : Marks f pc o) {u : T} (ht : f (pc t) = true) (hu : f (pc u) = true) : t = u :=
  Option.some.inj (((h t).1 ht).symm.trans ((h u).1 hu))

variable [DecidableEq T]

lemma Marks.keep (h : Marks f pc o) {q : Pc} (ht : pc t = q) (hp : f p = f q) :
    Marks f (Function.update pc t p) o := by
  intro u
  by_cases hu : u = t
  · rw [hu, Function.update_self, hp, ← ht]
    exact h t
  · rw [Function.update_of_ne hu]
    exact h u

lemma Marks.leave (h : Marks f pc o) {q : Pc} (ht : pc t = q) (hq : f q = true) (hp : f p = false) :
    Marks f (Function.update pc t p) none := by
  intro u
  by_cases hu : u = t
  · rw [hu, Function.update_self, hp]
    simp
  · rw [Function.update_of_ne hu]
    constructor
    · intro hmark
      exact absurd (h.unique hmark (ht ▸ hq)) hu
    · simp

lemma Marks.enter (h : Marks f pc none) (hp : f p = true) :
    Marks f (Function.update pc t p) (some t) := by
  intro u
  by_cases hu : u = t
  · rw [hu, Function.update_self, hp]
    simp
  · rw [Function.update_of_ne hu, h u]
    simp [Ne.symm hu]

end Marks

end Lib
