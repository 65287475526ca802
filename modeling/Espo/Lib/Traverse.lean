import Espo.Lib.Instances

/-!
# Worklist traversal of a finite graph

The usual stack loop: pop a vertex, skip it when it was visited, otherwise mark it and push its
successors. With `traverseBound` iterations, what is returned contains the start and is closed under
successors.
-/

namespace Lib

open List
variable {α : Type*} [DecidableEq α] (succ : α → List α)

/-- The vertices visited by at most `fuel` iterations of the stack loop. The head of the list is the
top of the stack, so pushing the successors in order puts the last one on top. -/
def traverse : ℕ → List α → Finset α → Finset α
  | 0, _, visited => visited
  | _ + 1, [], visited => visited
  | fuel + 1, a :: stack, visited =>
    if a ∈ visited then traverse fuel stack visited
    else traverse fuel ((succ a).reverse ++ stack) (insert a visited)

/-- The pushes a traversal can make: one for the start and one for each edge leaving a vertex of
`s`, where `s` holds every vertex that has a successor. -/
def traverseBound (s : Finset α) : ℕ := 1 + ∑ a ∈ s, (succ a).length

/-- Work left: what is on the stack and the edges that leave unvisited vertices. -/
private def workLeft (s : Finset α) (stack : List α) (visited : Finset α) : ℕ :=
  stack.length + ∑ a ∈ s \ visited, (succ a).length

/-- Marking a vertex trades its outgoing edges for its pushed successors. -/
private theorem sum_sdiff_insert {s visited : Finset α} (hs : ∀ a, a ∉ s → succ a = []) {a : α}
    (ha : a ∉ visited) :
    ∑ b ∈ s \ insert a visited, (succ b).length + (succ a).length
      = ∑ b ∈ s \ visited, (succ b).length := by
  rw [Finset.sdiff_insert]
  by_cases has : a ∈ s
  · exact Finset.sum_erase_add _ _ (Finset.mem_sdiff.2 ⟨has, ha⟩)
  · have hnot : a ∉ s \ visited := fun h => has (Finset.mem_sdiff.1 h).1
    rw [Finset.erase_eq_of_notMem hnot, hs a has, length_nil, Nat.add_zero]

lemma subset_traverse (fuel : ℕ) (stack : List α) (visited : Finset α) :
    visited ⊆ traverse succ fuel stack visited := by
  induction fuel generalizing stack visited with
  | zero => exact Finset.Subset.refl _
  | succ fuel ih =>
    cases stack with
    | nil => exact Finset.Subset.refl _
    | cons a stack =>
      rw [traverse]
      split_ifs with ha
      · exact ih stack visited
      · exact (Finset.subset_insert a visited).trans (ih _ _)

/-- With enough iterations the stack is used up: the result holds the stack, and it is closed under
successors when the successors of the visited vertices were visited or pushed. -/
private theorem traverse_spec {s : Finset α} (hs : ∀ a, a ∉ s → succ a = []) (fuel : ℕ) :
    ∀ (stack : List α) (visited : Finset α), workLeft succ s stack visited ≤ fuel →
      (∀ a ∈ visited, ∀ b ∈ succ a, b ∈ visited ∨ b ∈ stack) →
      (∀ a ∈ stack, a ∈ traverse succ fuel stack visited) ∧
        ∀ a ∈ traverse succ fuel stack visited, ∀ b ∈ succ a,
          b ∈ traverse succ fuel stack visited := by
  induction fuel with
  | zero =>
    intro stack visited hw hcl
    have hnil : stack = [] := length_eq_zero_iff.1 (by unfold workLeft at hw; omega)
    subst hnil
    exact ⟨fun a ha => absurd ha not_mem_nil,
      fun a ha b hb => (hcl a ha b hb).resolve_right not_mem_nil⟩
  | succ fuel ih =>
    intro stack visited hw hcl
    cases stack with
    | nil =>
      exact ⟨fun a ha => absurd ha not_mem_nil,
        fun a ha b hb => (hcl a ha b hb).resolve_right not_mem_nil⟩
    | cons a stack =>
      rw [traverse]
      unfold workLeft at hw
      rw [length_cons] at hw
      split_ifs with ha
      · -- a visited vertex is only popped
        have hcl' : ∀ c ∈ visited, ∀ b ∈ succ c, b ∈ visited ∨ b ∈ stack := by
          intro c hc b hb
          rcases hcl c hc b hb with h | h
          · exact .inl h
          · rcases mem_cons.1 h with rfl | h
            · exact .inl ha
            · exact .inr h
        obtain ⟨hstack, hclosed⟩ := ih stack visited (by unfold workLeft; omega) hcl'
        refine ⟨fun b hb => ?_, hclosed⟩
        rcases mem_cons.1 hb with rfl | hb
        · exact subset_traverse succ fuel stack visited ha
        · exact hstack b hb
      · have hsum := sum_sdiff_insert succ hs ha
        have hcl' : ∀ c ∈ insert a visited, ∀ b ∈ succ c,
            b ∈ insert a visited ∨ b ∈ (succ a).reverse ++ stack := by
          intro c hc b hb
          rcases Finset.mem_insert.1 hc with rfl | hc
          · exact .inr (mem_append_left _ (mem_reverse.2 hb))
          · rcases hcl c hc b hb with h | h
            · exact .inl (Finset.mem_insert_of_mem h)
            · rcases mem_cons.1 h with rfl | h
              · exact .inl (Finset.mem_insert_self _ _)
              · exact .inr (mem_append_right _ h)
        have hw' : workLeft succ s ((succ a).reverse ++ stack) (insert a visited) ≤ fuel := by
          unfold workLeft
          rw [length_append, length_reverse]
          omega
        obtain ⟨hstack, hclosed⟩ := ih _ _ hw' hcl'
        refine ⟨fun b hb => ?_, hclosed⟩
        rcases mem_cons.1 hb with rfl | hb
        · exact subset_traverse succ fuel _ _ (Finset.mem_insert_self _ _)
        · exact hstack b (mem_append_right _ hb)

/-- A traversal from `root` within its bound returns a set that holds `root` and is closed under
successors. -/
theorem traverse_closed {s : Finset α} (hs : ∀ a, a ∉ s → succ a = []) (root : α) :
    root ∈ traverse succ (traverseBound succ s) [root] ∅ ∧
      ∀ a ∈ traverse succ (traverseBound succ s) [root] ∅, ∀ b ∈ succ a,
        b ∈ traverse succ (traverseBound succ s) [root] ∅ := by
  have hwork : workLeft succ s [root] ∅ ≤ traverseBound succ s := by
    unfold workLeft traverseBound
    rw [Finset.sdiff_empty, length_singleton]
  obtain ⟨hroot, hclosed⟩ := traverse_spec succ hs _ [root] ∅ hwork
    (fun a ha => absurd ha (Finset.notMem_empty a))
  exact ⟨hroot root mem_cons_self, hclosed⟩

end Lib
