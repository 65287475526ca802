import Espo.Lib.Instances

/-!
# Nested sequences

A sequence of opening and closing brackets, with leaves between them, is well nested when it is the
listing of a forest. The forest is the inductive type `Nest`; what a program does that walks the
sequence with a stack is proved by induction over it.
-/

namespace Lib
variable {α β γ : Type*}

/-- A symbol of a nested sequence: the start of a group, its end, or something between. -/
inductive Bracket (α β γ : Type*) where
  | opening (a : α)
  | closing (b : β)
  | leaf (c : γ)
  deriving DecidableEq

/-- Does a symbol open a group? -/
def Bracket.isOpening : Bracket α β γ → Bool
  | opening _ => true
  | _ => false

/-- Does a symbol close a group? -/
def Bracket.isClosing : Bracket α β γ → Bool
  | closing _ => true
  | _ => false

/-- A forest whose groups have data at both ends. -/
inductive Nest (α β γ : Type*) where
  | nil
  | leaf (c : γ) (rest : Nest α β γ)
  | node (a : α) (body : Nest α β γ) (b : β) (rest : Nest α β γ)

namespace Nest

/-- The listing of a forest. -/
def flatten : Nest α β γ → List (Bracket α β γ)
  | nil => []
  | leaf c rest => .leaf c :: rest.flatten
  | node a body b rest => .opening a :: (body.flatten ++ .closing b :: rest.flatten)

/-- Delete every group whose ends satisfy `drop`, with all that is inside. -/
def prune (drop : α → β → Bool) : Nest α β γ → Nest α β γ
  | nil => nil
  | leaf c rest => leaf c (rest.prune drop)
  | node a body b rest =>
    if drop a b then rest.prune drop else node a (body.prune drop) b (rest.prune drop)

/-- The ends of the groups that are not inside another. -/
def roots : Nest α β γ → List (α × β)
  | nil => []
  | leaf _ rest => rest.roots
  | node a _ b rest => (a, b) :: rest.roots

/-- The ends of all groups, in the order in which they close. -/
def exits : Nest α β γ → List (α × β)
  | nil => []
  | leaf _ rest => rest.exits
  | node a body b rest => body.exits ++ (a, b) :: rest.exits

/-- The ends of all groups as in `exits`, each with whether a group around it or the group itself is dropped. -/
def exitsIn (drop : α → β → Bool) : Bool → Nest α β γ → List ((α × β) × Bool)
  | _, nil => []
  | inside, leaf _ rest => rest.exitsIn drop inside
  | inside, node a body b rest =>
    let dropped := inside || drop a b
    body.exitsIn drop dropped ++ ((a, b), dropped) :: rest.exitsIn drop inside

/-- What is inside the first group. -/
def body : Nest α β γ → Nest α β γ
  | nil => nil
  | leaf _ rest => rest.body
  | node _ body _ _ => body

/-- `p` holds of the ends of every group. -/
def All (p : α → β → Prop) : Nest α β γ → Prop
  | nil => True
  | leaf _ rest => rest.All p
  | node a body b rest => p a b ∧ body.All p ∧ rest.All p

variable {drop : α → β → Bool} {n : Nest α β γ} {p : α → β → Prop}

lemma prune_node_of_drop {a : α} {b : β} (h : drop a b = true) (body rest : Nest α β γ) :
    (node a body b rest).prune drop = rest.prune drop := by
  rw [prune, if_pos h]

lemma prune_node_of_keep {a : α} {b : β} (h : drop a b = false) (body rest : Nest α β γ) :
    (node a body b rest).prune drop = node a (body.prune drop) b (rest.prune drop) := by
  rw [prune, h]
  rfl

lemma All.prune (h : n.All p) : (n.prune drop).All p := by
  induction n with
  | nil => exact h
  | leaf c rest ih => exact ih h
  | node a body b rest ihBody ihRest =>
    obtain ⟨hends, hbody, hrest⟩ := h
    cases hdrop : drop a b with
    | true =>
      rw [prune_node_of_drop hdrop]
      exact ihRest hrest
    | false =>
      rw [prune_node_of_keep hdrop]
      exact ⟨hends, ihBody hbody, ihRest hrest⟩

lemma roots_prune (h : ∀ ends ∈ n.roots, drop ends.1 ends.2 = false) :
    (n.prune drop).roots = n.roots := by
  induction n with
  | nil => rfl
  | leaf c rest ih => exact ih h
  | node a body b rest ihBody ihRest =>
    rw [prune_node_of_keep (h (a, b) List.mem_cons_self), roots, roots,
      ihRest fun ends hends => h ends (List.mem_cons_of_mem _ hends)]

lemma body_prune (h : ∀ ends ∈ n.roots, drop ends.1 ends.2 = false) :
    (n.prune drop).body = n.body.prune drop := by
  induction n with
  | nil => rfl
  | leaf c rest ih => exact ih h
  | node a body b rest ihBody ihRest =>
    rw [prune_node_of_keep (h (a, b) List.mem_cons_self), Nest.body, Nest.body]

lemma All.body (h : n.All p) : n.body.All p := by
  induction n with
  | nil => exact h
  | leaf c rest ih => exact ih h
  | node a body b rest ihBody ihRest => exact h.2.1

lemma All.roots (h : n.All p) : ∀ ends ∈ n.roots, p ends.1 ends.2 := by
  induction n with
  | nil => simp [Nest.roots]
  | leaf c rest ih => exact ih h
  | node a body b rest ihBody ihRest =>
    intro ends hends
    rcases List.mem_cons.1 hends with rfl | hrest
    · exact h.1
    · exact ihRest h.2.2 ends hrest

lemma count_flatten (n : Nest α β γ) :
    n.flatten.countP Bracket.isOpening = n.flatten.countP Bracket.isClosing := by
  induction n with
  | nil => rfl
  | leaf c rest ih => simpa [flatten, Bracket.isOpening, Bracket.isClosing] using ih
  | node a body b rest ihBody ihRest =>
    simp only [flatten, List.countP_cons, List.countP_append, Bracket.isOpening, Bracket.isClosing]
    simp only [Bool.false_eq_true]
    omega

/-- A walk that keeps a label of every open group on a stack, and does something with it when the group
closes, goes through the groups in the order in which they close. -/
theorem foldlM_flatten {ε σ ι : Type} {step : σ × List ι → Bracket α β γ → Except ε (σ × List ι)}
    {label : α → ι} {leave : σ → ι → β → Except ε σ}
    (hopen : ∀ s stack a, step (s, stack) (.opening a) = pure (s, label a :: stack))
    (hclose : ∀ s i stack b, step (s, i :: stack) (.closing b) = (fun s => (s, stack)) <$> leave s i b)
    (hleaf : ∀ w c, step w (.leaf c) = pure w) (n : Nest α β γ) (s : σ) (stack : List ι) :
    n.flatten.foldlM step (s, stack) = (fun s => (s, stack)) <$>
      n.exits.foldlM (fun s ends => leave s (label ends.1) ends.2) s := by
  induction n generalizing s stack with
  | nil => rfl
  | leaf c rest ih => rw [flatten, List.foldlM_cons, hleaf, pure_bind, ih, exits]
  | node a body b rest ihBody ihRest =>
    simp only [flatten, exits, List.foldlM_cons, List.foldlM_append, hopen, hclose, pure_bind, ihBody,
      ihRest, bind_map_left, map_bind]

lemma foldl_flatten {σ ι : Type*} {step : σ × List ι → Bracket α β γ → σ × List ι} (label : α → ι)
    (leave : σ → ι → β → σ) (hopen : ∀ s stack a, step (s, stack) (.opening a) = (s, label a :: stack))
    (hclose : ∀ s i stack b, step (s, i :: stack) (.closing b) = (leave s i b, stack))
    (hleaf : ∀ w c, step w (.leaf c) = w) (n : Nest α β γ) (inside : Bool) (s : σ) (stack : List ι) :
    n.flatten.foldl step (s, stack)
      = ((n.exitsIn drop inside).foldl (fun s e => leave s (label e.1.1) e.1.2) s, stack) := by
  induction n generalizing inside s stack with
  | nil => rfl
  | leaf c rest ih => rw [flatten, List.foldl_cons, hleaf, ih, exitsIn]
  | node a body b rest ihBody ihRest =>
    simp only [flatten, exitsIn, List.foldl_cons, List.foldl_append, hopen, hclose, ihBody (inside || drop a b),
      ihRest inside]

/-- A listing with some groups open at its start: what is inside the innermost one, its end, and so on
outwards. -/
inductive Closes : ℕ → List (Bracket α β γ) → Prop
  | done (n : Nest α β γ) : Closes 0 n.flatten
  | close {d : ℕ} {l : List (Bracket α β γ)} (n : Nest α β γ) (b : β) :
      Closes d l → Closes (d + 1) (n.flatten ++ .closing b :: l)

variable {l : List (Bracket α β γ)}

/-- A sequence that never closes more groups than are open, and closes all, has this form. -/
theorem closes_of_count {d : ℕ}
    (h : ∀ p, p <+: l → p.countP Bracket.isClosing ≤ d + p.countP Bracket.isOpening)
    (htotal : l.countP Bracket.isClosing = d + l.countP Bracket.isOpening) : Closes d l := by
  induction l generalizing d with
  | nil =>
    obtain rfl : d = 0 := by simpa using htotal.symm
    exact Closes.done nil
  | cons s l ih =>
    have hcons : ∀ p, p <+: l → (s :: p).countP Bracket.isClosing
        ≤ d + (s :: p).countP Bracket.isOpening :=
      fun p hp => h _ (List.cons_prefix_cons.2 ⟨rfl, hp⟩)
    simp only [List.countP_cons] at hcons htotal
    cases s with
    | leaf c =>
      -- the leaf comes first inside the innermost group
      have hrest := ih hcons htotal
      cases hrest with
      | done n => exact Closes.done (leaf c n)
      | close n b hl => exact Closes.close (leaf c n) b hl
    | opening a =>
      simp only [Bracket.isClosing, Bracket.isOpening, Bool.false_eq_true, if_false, if_true] at hcons htotal
      have hrest : Closes (d + 1) l := by
        apply ih
        · intro p hp
          have hle := hcons p hp
          omega
        · omega
      -- the group that opens here ends where the innermost one of the rest ends
      cases hrest with
      | @close d l n b hl =>
        cases hl with
        | done n' => exact Closes.done (node a n b n')
        | @close d l n' b' hl =>
          have hclose := Closes.close (node a n b n') b' hl
          simpa [flatten] using hclose
    | closing b =>
      simp only [Bracket.isClosing, Bracket.isOpening, Bool.false_eq_true, if_false, if_true] at hcons htotal
      have hone := hcons [] List.nil_prefix
      simp only [List.countP_nil] at hone
      obtain ⟨d, rfl⟩ := Nat.exists_eq_succ_of_ne_zero (show d ≠ 0 by omega)
      have hrest : Closes d l := by
        apply ih
        · intro p hp
          have hle := hcons p hp
          omega
        · omega
      exact Closes.close nil b hrest

/-- A sequence that never closes more groups than are open, and closes all, is the listing of a forest. -/
theorem exists_flatten_of_count
    (h : ∀ p, p <+: l → p.countP Bracket.isClosing ≤ p.countP Bracket.isOpening)
    (htotal : l.countP Bracket.isClosing = l.countP Bracket.isOpening) :
    ∃ n : Nest α β γ, l = n.flatten := by
  have hcloses : Closes 0 l := by
    apply closes_of_count
    · intro p hp
      rw [Nat.zero_add]
      exact h p hp
    · rw [Nat.zero_add]
      exact htotal
  cases hcloses with
  | done n => exact ⟨n, rfl⟩

end Nest
end Lib
