import Espo.Lib.Instances

/-!
# Loops with a bound

A `while` loop over a state: a turn gives the next state or leaves the loop, and it may fail. `loop` takes the
number of turns that it may make. A measure that goes down gives a bound that is enough, an invariant holds
at the end, and two loops whose turns agree end together.
-/

namespace Lib

/-- What a turn of a loop gives. -/
inductive Turn (σ : Type*) where
  | next (s : σ)
  | exit (s : σ)

/-- The state after a turn. -/
def Turn.state {σ : Type*} : Turn σ → σ
  | next s => s
  | exit s => s

/-- Make turns until one leaves the loop. -/
def loop {σ : Type*} (turn : σ → Option (Turn σ)) : ℕ → σ → Option σ
  | 0, _ => none
  | n + 1, s =>
    match turn s with
    | none => none
    | some (.next s') => loop turn n s'
    | some (.exit s') => some s'

section
variable {σ τ : Type*} {turn : σ → Option (Turn σ)} {turn' : τ → Option (Turn τ)}

lemma loop_mono {n n' : ℕ} (hn : n ≤ n') {s s' : σ} (h : loop turn n s = some s') : loop turn n' s = some s' := by
  induction n generalizing n' s with
  | zero => cases h
  | succ n ih =>
    obtain ⟨n', rfl⟩ : ∃ k, n' = k + 1 := ⟨n' - 1, by omega⟩
    rw [loop] at h ⊢
    cases hturn : turn s with
    | none =>
      rw [hturn] at h
      cases h
    | some result =>
      rw [hturn] at h
      cases result with
      | next s'' => exact ih (by omega) h
      | exit s'' => exact h

/-- An invariant and a measure: the loop ends, and what holds of the states it can end with is true at the
end. -/
theorem loop_spec {I Q : σ → Prop} {m : σ → ℕ}
    (hturn : ∀ s, I s → (∃ s', turn s = some (.next s') ∧ I s' ∧ m s' < m s) ∨
      ∃ s', turn s = some (.exit s') ∧ Q s')
    {n : ℕ} {s : σ} (hI : I s) (hn : m s < n) : ∃ s', loop turn n s = some s' ∧ Q s' := by
  induction n generalizing s with
  | zero => exact absurd hn (Nat.not_lt_zero _)
  | succ n ih =>
    rw [loop]
    rcases hturn s hI with ⟨s', hs', hI', hm⟩ | ⟨s', hs', hQ⟩
    · rw [hs']
      exact ih hI' (by omega)
    · rw [hs']
      exact ⟨s', rfl, hQ⟩

lemma loop_invariant {I Q : σ → Prop} (hnext : ∀ s s', I s → turn s = some (.next s') → I s')
    (hexit : ∀ s s', I s → turn s = some (.exit s') → Q s') {n : ℕ} {s s' : σ} (hI : I s)
    (h : loop turn n s = some s') : Q s' := by
  induction n generalizing s with
  | zero => cases h
  | succ n ih =>
    rw [loop] at h
    cases hresult : turn s with
    | none =>
      rw [hresult] at h
      cases h
    | some result =>
      rw [hresult] at h
      cases result with
      | next s'' => exact ih (hnext s s'' hI hresult) h
      | exit s'' => exact Option.some.inj h ▸ hexit s s'' hI hresult

/-- Turns that agree. -/
inductive TurnRel (R Q : σ → τ → Prop) : Turn σ → Turn τ → Prop
  | next {s : σ} {t : τ} : R s t → TurnRel R Q (.next s) (.next t)
  | exit {s : σ} {t : τ} : Q s t → TurnRel R Q (.exit s) (.exit t)

lemma loop_rel {R Q : σ → τ → Prop}
    (hturn : ∀ s t, R s t → Option.Rel (TurnRel R Q) (turn s) (turn' t)) (n : ℕ) {s : σ} {t : τ}
    (h : R s t) : Option.Rel Q (loop turn n s) (loop turn' n t) := by
  induction n generalizing s t with
  | zero => exact .none
  | succ n ih =>
    rw [loop, loop]
    have hboth := hturn s t h
    generalize turn s = a, turn' t = b at hboth ⊢
    cases hboth with
    | none => exact .none
    | some hrel =>
      cases hrel with
      | next hR => exact ih hR
      | exit hQ => exact .some hQ

lemma loop_rel_spec {I Q : σ → τ → Prop} {m : τ → ℕ}
    (hturn : ∀ s t, I s t →
      (∃ s' t', turn s = some (.next s') ∧ turn' t = some (.next t') ∧ I s' t' ∧ m t' < m t) ∨
      ∃ s' t', turn s = some (.exit s') ∧ turn' t = some (.exit t') ∧ Q s' t')
    {n : ℕ} {s : σ} {t : τ} (hI : I s t) (hn : m t < n) :
    ∃ s' t', loop turn n s = some s' ∧ loop turn' n t = some t' ∧ Q s' t' := by
  induction n generalizing s t with
  | zero => exact absurd hn (Nat.not_lt_zero _)
  | succ n ih =>
    rw [loop, loop]
    rcases hturn s t hI with ⟨s', t', hs', ht', hI', hm⟩ | ⟨s', t', hs', ht', hQ⟩
    · rw [hs', ht']
      exact ih hI' (by omega)
    · rw [hs', ht']
      exact ⟨s', t', rfl, rfl, hQ⟩

end
end Lib
