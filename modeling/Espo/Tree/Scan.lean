import Espo.Lib.Loop
import Espo.Tree.Denote

/-!
# Range scans (`range_entries_at_root`, `range_entries_page_at_root`)

A scan descends to the leaf of its first key, remembering the path, and then moves from leaf to leaf
along the path, forwards or backwards. Leaves are visited by one loop with the direction and the
work at a leaf as parameters.
-/

namespace Espo.TreeDb
open Lib List

variable {K V Id : Type*}

/-- The direction of a scan. -/
inductive ScanDir where
  | forward
  | backward
deriving DecidableEq

namespace ScanDir
variable {α : Type*}

/-- The elements of a list in the order of the direction. -/
def order : ScanDir → List α → List α
  | forward, l => l
  | backward, l => l.reverse

/-- The index at which a direction enters a list of children. -/
def firstIdx : ScanDir → List α → ℕ
  | forward, _ => 0
  | backward, l => l.length - 1

/-- The index after `idx` in a direction. -/
def nextIdx : ScanDir → ℕ → Option ℕ
  | forward, idx => some (idx + 1)
  | backward, 0 => none
  | backward, idx + 1 => some idx

/-- The children that come after index `idx` in a direction. -/
def remaining : ScanDir → List α → ℕ → List α
  | forward, l, idx => l.drop (idx + 1)
  | backward, l, idx => (l.take idx).reverse

end ScanDir

/-- A path from a root: the internal nodes above the cursor with the index of the child taken, the
lowest first. -/
abbrev Path (Id : Type*) := List (Id × ℕ)

section Defs
variable [DecidableEq Id] (disk : Table Id (BptreeNode K V Id))

/-- `load_leaf`. -/
def loadLeaf (id : Id) : LeafNode K V Id :=
  match loadNode disk id with
  | .leaf node => node
  | .internal _ => ⟨[], none⟩

/-- `load_internal`. -/
def loadInternal (id : Id) : InternalNode K Id :=
  match loadNode disk id with
  | .leaf _ => ⟨[], []⟩
  | .internal node => node

/-- The loop from a node down to a leaf, taking the child `pick` chooses and pushing the nodes it
passes on the path; `some none` when a node has no such child. -/
def descend (pick : InternalNode K Id → ℕ) :
    ℕ → Id → Path Id → Option (Option (Id × Path Id))
  | 0, _, _ => none
  | fuel + 1, current, path =>
    match loadNode disk current with
    | .leaf _ => some (some (current, path))
    | .internal node =>
      match node.children[pick node]? with
      | none => some none
      | some next => descend pick fuel next ((current, pick node) :: path)

/-- The leaf after the cursor in a direction: climb to the first node with a further child, and
descend from there. -/
def leafFromPath (dir : ScanDir) (disk : Table Id (BptreeNode K V Id)) :
    Path Id → Option (Option (Id × Path Id))
  | [] => some none
  | (internalId, childIdx) :: path =>
    match dir.nextIdx childIdx with
    | none => leafFromPath dir disk path
    | some idx =>
      match (loadInternal disk internalId).children[idx]? with
      | none => leafFromPath dir disk path
      | some nodeId =>
        descend disk (fun node => dir.firstIdx node.children) (disk.card + 1) nodeId
          ((internalId, idx) :: path)

/-- `next_leaf_from_path`. -/
def nextLeafFromPath (path : Path Id) : Option (Option (Id × Path Id)) :=
  leafFromPath .forward disk path

/-- `prev_leaf_from_path`. -/
def prevLeafFromPath (path : Path Id) : Option (Option (Id × Path Id)) :=
  leafFromPath .backward disk path

/-- `rightmost_leaf_with_path`. -/
def rightmostLeafWithPath (root : Id) : Option (Option (Id × Path Id)) :=
  descend disk (fun node => ScanDir.backward.firstIdx node.children) (disk.card + 1) root []

/-- The loop over the leaves from a cursor on. `visit` does the work at a leaf, told whether it is
the first one, and says whether the scan returns there. -/
def scanLoop {σ : Type*} (step : Path Id → Option (Option (Id × Path Id)))
    (disk : Table Id (BptreeNode K V Id)) (visit : Bool → σ → List (LeafEntry K V) → σ × Bool) :
    ℕ → Id → Path Id → Bool → σ → Option σ
  | 0, _, _, _, _ => none
  | fuel + 1, cursor, path, firstLeaf, st =>
    let visited := visit firstLeaf st (loadLeaf disk cursor).entries
    if visited.2 then some visited.1
    else
      match step path with
      | none => none
      | some none => some visited.1
      | some (some (next, path)) => scanLoop step disk visit fuel next path false visited.1

/-- A number of iterations no scan exceeds: a tree has at most this many leaves. -/
def scanFuel : ℕ := (maxInternalKeys + 1) ^ disk.card + 1

variable [LinearOrder K]

/-- `find_leaf_with_path`. -/
def findLeafWithPath (root : Id) (key : K) : Option (Option (Id × Path Id)) :=
  descend disk (fun node => childIndexForKey node.keys key) (disk.card + 1) root []

end Defs

/-! ## The leaves of a subtree and of a path -/

section Visit
variable {dir : ScanDir} {look : Id → Option (BptreeNode K V Id)} {d : ℕ} {id : Id}

/-- The entries of the leaves of a subtree, leaf by leaf, in the order of a direction. -/
def Visit (dir : ScanDir) (look : Id → Option (BptreeNode K V Id)) :
    ℕ → Id → List (List (LeafEntry K V)) → Prop
  | 0, id, leaves => ∃ es next, look id = some (.leaf ⟨es, next⟩) ∧ leaves = [es]
  | d + 1, id, leaves =>
    ∃ keys children, look id = some (.internal ⟨keys, children⟩) ∧ children ≠ [] ∧
      ∃ below, List.Forall₂ (Visit dir look d) (dir.order children) below ∧
        leaves = below.flatten

/-- The entries of the leaves that come after the cursor of a path; the subtrees that hang off the
path are less than `bound` deep. -/
inductive PathRest (dir : ScanDir) (look : Id → Option (BptreeNode K V Id)) (bound : ℕ) :
    Path Id → List (List (LeafEntry K V)) → Prop
  | nil : PathRest dir look bound [] []
  | cons {id : Id} {idx d : ℕ} {path : Path Id} {keys : List K} {children : List Id}
      {below : List (List (List (LeafEntry K V)))} {leaves : List (List (LeafEntry K V))} :
      look id = some (.internal ⟨keys, children⟩) → idx < children.length → d < bound →
        List.Forall₂ (Visit dir look d) (dir.remaining children idx) below →
        PathRest dir look bound path leaves →
        PathRest dir look bound ((id, idx) :: path) (below.flatten ++ leaves)

lemma ScanDir.order_eq_cons {α : Type*} (dir : ScanDir) {l : List α} (h : l ≠ []) :
    ∃ a, l[dir.firstIdx l]? = some a ∧ dir.order l = a :: dir.remaining l (dir.firstIdx l) := by
  cases dir with
  | forward =>
    obtain ⟨a, l, rfl⟩ := exists_cons_of_ne_nil h
    exact ⟨a, rfl, rfl⟩
  | backward =>
    refine ⟨l.getLast h, ?_, ?_⟩
    · rw [ScanDir.firstIdx, ← getLast?_eq_getElem?, getLast?_eq_some_getLast h]
    · have hcut := dropLast_append_getLast h
      simp only [ScanDir.order, ScanDir.remaining, ScanDir.firstIdx]
      conv_lhs => rw [← hcut]
      rw [reverse_append, ← dropLast_eq_take]
      rfl

lemma ScanDir.remaining_cases {α : Type*} (dir : ScanDir) {l : List α} {idx : ℕ}
    (hidx : idx < l.length) :
    (dir.remaining l idx = [] ∧ ∀ i, dir.nextIdx idx = some i → l[i]? = none) ∨
      ∃ i a, dir.nextIdx idx = some i ∧ l[i]? = some a ∧
        dir.remaining l idx = a :: dir.remaining l i := by
  cases dir with
  | forward =>
    by_cases h : idx + 1 < l.length
    · exact .inr ⟨idx + 1, _, rfl, getElem?_eq_getElem h, drop_eq_getElem_cons h⟩
    · refine .inl ⟨drop_eq_nil_of_le (by omega), fun i hi => ?_⟩
      rw [← Option.some_inj.1 hi]
      exact getElem?_eq_none (by omega)
  | backward =>
    cases idx with
    | zero => exact .inl ⟨rfl, fun i hi => by simp [ScanDir.nextIdx] at hi⟩
    | succ idx =>
      have h : idx < l.length := by omega
      refine .inr ⟨idx, _, rfl, getElem?_eq_getElem h, ?_⟩
      simp only [ScanDir.remaining]
      rw [take_succ_eq_append_getElem h, reverse_append]
      rfl

end Visit

/-! ## The loop over the leaves -/

section Loop
variable [DecidableEq Id] {dir : ScanDir} {disk : Table Id (BptreeNode K V Id)} {d bound : ℕ}
  {id : Id} {path : Path Id} {rest leaves : List (List (LeafEntry K V))}

/-- The descent at the first index of a direction reaches the first leaf of a subtree; the other
leaves of the subtree come next on the path. -/
theorem descend_firstIdx {fuel : ℕ} (hfuel : d < fuel) (hbound : d ≤ bound)
    (h : Visit dir disk.get d id leaves) (hpath : PathRest dir disk.get bound path rest) :
    ∃ leafId es next path' leaves',
      descend disk (fun node => dir.firstIdx node.children) fuel id path
        = some (some (leafId, path')) ∧
      disk.get leafId = some (.leaf ⟨es, next⟩) ∧ leaves = es :: leaves' ∧
      PathRest dir disk.get bound path' (leaves' ++ rest) := by
  obtain ⟨k, rfl⟩ : ∃ k, fuel = k + d + 1 := ⟨fuel - d - 1, by omega⟩
  clear hfuel
  induction d generalizing id path rest leaves with
  | zero =>
    obtain ⟨es, next, hget, rfl⟩ := h
    refine ⟨id, es, next, path, [], ?_, hget, rfl, hpath⟩
    rw [descend, loadNode_of_get hget]
  | succ d ih =>
    obtain ⟨keys, children, hget, hne, below, hbelow, rfl⟩ := h
    obtain ⟨c, hc, horder⟩ := dir.order_eq_cons hne
    rw [horder, forall₂_cons_left_iff] at hbelow
    obtain ⟨first, below, hfirst, hbelow, rfl⟩ := hbelow
    have hidx : dir.firstIdx children < children.length := (List.getElem?_eq_some_iff.1 hc).1
    have hpath' := PathRest.cons hget hidx (by omega : d < bound) hbelow hpath
    obtain ⟨leafId, es, next, path', leaves', heq, hleaf, rfl, hrest⟩ :=
      ih (by omega) hfirst hpath'
    refine ⟨leafId, es, next, path', leaves' ++ below.flatten, ?_, hleaf, rfl, ?_⟩
    · rw [descend, loadNode_of_get hget]
      dsimp only
      rw [hc]
      exact heq
    · rw [append_assoc]
      exact hrest

lemma leafFromPath_eq (hbound : bound ≤ disk.card)
    (hpath : PathRest dir disk.get bound path rest) :
    (rest = [] ∧ leafFromPath dir disk path = some none) ∨
      ∃ leafId es next path' rest',
        leafFromPath dir disk path = some (some (leafId, path')) ∧
        disk.get leafId = some (.leaf ⟨es, next⟩) ∧ rest = es :: rest' ∧
        PathRest dir disk.get bound path' rest' := by
  induction hpath with
  | nil => exact .inl ⟨rfl, rfl⟩
  | @cons id idx d path keys children below leaves hget hidx hd hbelow hpath ih =>
    have hload : (loadInternal disk id).children = children := by
      rw [loadInternal, loadNode_of_get hget]
    rcases dir.remaining_cases hidx with ⟨hnil, hnone⟩ | ⟨i, c, hi, hc, hcons⟩
    · rw [hnil, forall₂_nil_left_iff] at hbelow
      subst hbelow
      have hstep : leafFromPath dir disk ((id, idx) :: path) = leafFromPath dir disk path := by
        rw [leafFromPath]
        cases hnext : dir.nextIdx idx with
        | none => rfl
        | some i =>
          dsimp only
          rw [hload, hnone i hnext]
      rw [hstep]
      exact ih
    · rw [hcons, forall₂_cons_left_iff] at hbelow
      obtain ⟨first, below, hfirst, hbelow, rfl⟩ := hbelow
      have hi' : i < children.length := (List.getElem?_eq_some_iff.1 hc).1
      obtain ⟨leafId, es, next, path', leaves', heq, hleaf, rfl, hrest⟩ :=
        descend_firstIdx (Nat.lt_succ_of_lt (lt_of_lt_of_le hd hbound)) hd.le hfirst
          (PathRest.cons hget hi' hd hbelow hpath)
      refine .inr ⟨leafId, es, next, path', leaves' ++ (below.flatten ++ leaves), ?_, hleaf, ?_,
        hrest⟩
      · rw [leafFromPath, hi]
        dsimp only
        rw [hload, hc]
        exact heq
      · rw [flatten_cons, cons_append, cons_append, append_assoc]

lemma scanLoop_eq {σ : Type*} (visit : Bool → σ → List (LeafEntry K V) → σ × Bool)
    (hbound : bound ≤ disk.card) {es : List (LeafEntry K V)} {next : Option Id}
    (hget : disk.get id = some (.leaf ⟨es, next⟩))
    (hpath : PathRest dir disk.get bound path rest) {fuel : ℕ} (hfuel : rest.length < fuel)
    (firstLeaf : Bool) (st : σ) :
    scanLoop (leafFromPath dir disk) disk visit fuel id path firstLeaf st
      = some (if (visit firstLeaf st es).2 then (visit firstLeaf st es).1
          else (foldUntil (visit false) (visit firstLeaf st es).1 rest).1) := by
  have hload : ∀ {id : Id} {es : List (LeafEntry K V)} {next : Option Id},
      disk.get id = some (.leaf ⟨es, next⟩) → (loadLeaf disk id).entries = es := by
    intro id es next hget
    rw [loadLeaf, loadNode_of_get hget]
  induction fuel generalizing id es next path rest firstLeaf st with
  | zero => omega
  | succ fuel ih =>
    rw [scanLoop, hload hget]
    split_ifs with hstop
    · rfl
    · rcases leafFromPath_eq hbound hpath with ⟨rfl, heq⟩ | ⟨leafId, es', next', path', rest', heq,
        hleaf, rfl, hrest⟩
      · rw [heq]
        rfl
      · rw [heq]
        dsimp only
        rw [ih hleaf hrest (by simpa using hfuel), foldUntil]
        split_ifs <;> rfl

end Loop

/-! ## The leaves of a stored root -/

section Root
variable [LinearOrder K] {dir : ScanDir} {look : Id → Option (BptreeNode K V Id)} {d : ℕ}
  {lo : WithBot K} {hi : WithTop K} {id : Id} {m : List (LeafEntry K V)}

/-- The entries of a list of leaves, in the order of a direction. -/
def scanEntries (dir : ScanDir) (leaves : List (List (LeafEntry K V))) : List (LeafEntry K V) :=
  (leaves.map dir.order).flatten

omit [LinearOrder K] in
lemma scanEntries_append (l₁ l₂ : List (List (LeafEntry K V))) :
    scanEntries dir (l₁ ++ l₂) = scanEntries dir l₁ ++ scanEntries dir l₂ := by
  rw [scanEntries, map_append, flatten_append]
  rfl

variable (dir : ScanDir)

/-- Neighbouring subtrees are visited one after the other. -/
theorem visit_segments {cs : List Id}
    (hvisit : ∀ lo hi id m, Denotes look d lo hi id m → ∃ leaves, Visit dir look d id leaves ∧ scanEntries dir leaves = dir.order m ∧ leaves.length ≤ (maxInternalKeys + 1) ^ d)
    (h : Segments (Denotes look d) cs m) :
    ∃ below, List.Forall₂ (Visit dir look d) (dir.order cs) below ∧
      scanEntries dir below.flatten = dir.order m ∧
      below.flatten.length ≤ cs.length * (maxInternalKeys + 1) ^ d := by
  induction h with
  | nil => cases dir <;> exact ⟨[], .nil, rfl, Nat.zero_le _⟩
  | @cons a b c cs m ms hp _ ih =>
    obtain ⟨below, hbelow, hentries, hlen⟩ := ih
    obtain ⟨leaves, hleaves, hentries', hlen'⟩ := hvisit _ _ _ _ hp
    have hcount : leaves.length + below.flatten.length
        ≤ (c :: cs).length * (maxInternalKeys + 1) ^ d := by
      rw [length_cons, Nat.add_one_mul]
      omega
    cases dir with
    | forward =>
      refine ⟨leaves :: below, .cons hleaves hbelow, ?_, ?_⟩
      · rw [flatten_cons, scanEntries_append, hentries, hentries']
        rfl
      · rw [flatten_cons, length_append]
        exact hcount
    | backward =>
      refine ⟨below ++ [leaves], ?_, ?_, ?_⟩
      · rw [ScanDir.order, reverse_cons]
        exact rel_append hbelow (.cons hleaves .nil)
      · rw [flatten_append, scanEntries_append, hentries, flatten_singleton, hentries']
        exact reverse_append.symm
      · rw [flatten_append, length_append, flatten_singleton]
        omega

lemma Denotes.visit (h : Denotes look d lo hi id m) :
    ∃ leaves, Visit dir look d id leaves ∧ scanEntries dir leaves = dir.order m ∧
      leaves.length ≤ (maxInternalKeys + 1) ^ d := by
  induction d generalizing lo hi id m with
  | zero =>
    obtain ⟨⟨next, hlook⟩, -⟩ := h
    exact ⟨[m], ⟨m, next, hlook, rfl⟩, by simp [scanEntries], by simp⟩
  | succ d ih =>
    obtain ⟨keys, children, hlook, hlen, hchain⟩ := h
    obtain ⟨below, hbelow, hentries, hcount⟩ :=
      visit_segments dir (fun _ _ _ _ => ih) hchain.segments
    have hlength := hchain.length_eq
    have hne : children ≠ [] := ne_nil_of_length_pos (by omega)
    refine ⟨below.flatten, ⟨keys, children, hlook, hne, below, hbelow, rfl⟩, hentries, ?_⟩
    calc below.flatten.length ≤ children.length * (maxInternalKeys + 1) ^ d := hcount
      _ ≤ (maxInternalKeys + 1) * (maxInternalKeys + 1) ^ d := Nat.mul_le_mul_right _ (by omega)
      _ = (maxInternalKeys + 1) ^ (d + 1) := by rw [pow_succ, Nat.mul_comm]

/-- The key `a` comes before the key `b` in a direction. -/
def ScanDir.Before : ScanDir → K → K → Prop
  | forward, a, b => a < b
  | backward, a, b => b < a

variable [DecidableEq Id] {disk : Table Id (BptreeNode K V Id)} {bound : ℕ} {path : Path Id}
  {rest : List (List (LeafEntry K V))}

/-- The descent to a key reaches a leaf such that all entries passed come before the key, and all
entries in later leaves after it. -/
theorem descend_key {fuel : ℕ} (hfuel : d < fuel) (hbound : d ≤ bound)
    (h : Denotes disk.get d lo hi id m) {key : K} (hk : InRange lo hi key)
    (hpath : PathRest dir disk.get bound path rest) :
    ∃ leafId es next path' passed leaves,
      descend disk (fun node => childIndexForKey node.keys key) fuel id path
        = some (some (leafId, path')) ∧
      disk.get leafId = some (.leaf ⟨es, next⟩) ∧
      PathRest dir disk.get bound path' (leaves ++ rest) ∧
      dir.order m = passed ++ (dir.order es ++ scanEntries dir leaves) ∧
      (∀ e ∈ passed, dir.Before e.key key) ∧
      (∀ e ∈ scanEntries dir leaves, dir.Before key e.key) ∧
      leaves.length + 1 ≤ (maxInternalKeys + 1) ^ d := by
  obtain ⟨k, rfl⟩ : ∃ k, fuel = k + d + 1 := ⟨fuel - d - 1, by omega⟩
  clear hfuel
  induction d generalizing lo hi id m path rest with
  | zero =>
    obtain ⟨⟨next, hget⟩, -⟩ := h
    refine ⟨id, m, next, path, [], [], ?_, hget, hpath, by simp [scanEntries], by simp,
      by simp [scanEntries], by simp⟩
    rw [descend, loadNode_of_get hget]
  | succ d ih =>
    obtain ⟨keys, children, hget, hlen, hchain⟩ := h
    obtain ⟨a, b, c, m₁, mc, m₂, hc, hden, hab, rfl, h₁, h₂, hseg₁, hseg₂, -⟩ :=
      hchain.route (fun _ _ _ _ => Denotes.inRange) hk
    have hlength := hchain.length_eq
    set idx := upperBound keys key with hidxdef
    have hidx : idx < children.length := (List.getElem?_eq_some_iff.1 hc).1
    -- the children after this one in the direction, and the entries before it
    obtain ⟨below, before, after, hbelow, hentries, hcount, horder, hbefore, hafter⟩ :
        ∃ below before after, List.Forall₂ (Visit dir disk.get d) (dir.remaining children idx) below ∧
          scanEntries dir below.flatten = after ∧
          below.flatten.length ≤ (children.length - 1) * (maxInternalKeys + 1) ^ d ∧
          dir.order (m₁ ++ (mc ++ m₂)) = before ++ (dir.order mc ++ after) ∧
          (∀ e ∈ before, dir.Before e.key key) ∧ ∀ e ∈ after, dir.Before key e.key := by
      cases dir with
      | forward =>
        obtain ⟨below, hbelow, hentries, hcount⟩ :=
          visit_segments .forward (fun _ _ _ _ => Denotes.visit .forward) hseg₂
        rw [length_drop] at hcount
        refine ⟨below, m₁, m₂, hbelow, hentries, hcount.trans (Nat.mul_le_mul_right _ (by omega)),
          rfl, h₁, h₂⟩
      | backward =>
        obtain ⟨below, hbelow, hentries, hcount⟩ :=
          visit_segments .backward (fun _ _ _ _ => Denotes.visit .backward) hseg₁
        rw [length_take] at hcount
        refine ⟨below, m₂.reverse, m₁.reverse, hbelow, hentries,
          hcount.trans (Nat.mul_le_mul_right _ (by omega)), ?_, ?_, ?_⟩
        · simp [ScanDir.order]
        · exact fun e he => h₂ e (mem_reverse.1 he)
        · exact fun e he => h₁ e (mem_reverse.1 he)
    obtain ⟨leafId, es, next, path', passed, leaves, heq, hleaf, hrest, horder', hpassed, hlater,
      hcount'⟩ := ih (by omega) hden hab
        (PathRest.cons hget hidx (by omega : d < bound) hbelow hpath)
    refine ⟨leafId, es, next, path', before ++ passed, leaves ++ below.flatten, ?_, hleaf, ?_, ?_,
      ?_, ?_, ?_⟩
    · rw [descend, loadNode_of_get hget]
      dsimp only
      rw [childIndexForKey_eq hchain.separators_sorted, hc]
      exact heq
    · rw [append_assoc]
      exact hrest
    · rw [horder, horder', scanEntries_append, hentries]
      simp only [append_assoc]
    · intro e he
      rcases mem_append.1 he with he | he
      · exact hbefore e he
      · exact hpassed e he
    · intro e he
      rw [scanEntries_append, hentries] at he
      rcases mem_append.1 he with he | he
      · exact hlater e he
      · exact hafter e he
    · have hmul : (maxInternalKeys + 1) ^ (d + 1)
          = maxInternalKeys * (maxInternalKeys + 1) ^ d + (maxInternalKeys + 1) ^ d := by
        rw [pow_succ, Nat.mul_comm, Nat.add_one_mul]
      have hle : (children.length - 1) * (maxInternalKeys + 1) ^ d
          ≤ maxInternalKeys * (maxInternalKeys + 1) ^ d := Nat.mul_le_mul_right _ (by omega)
      rw [length_append]
      omega

end Root

end Espo.TreeDb
