import Espo.Tree.Store

/-!
# The entries a root denotes, and reads of a key (`get_at_root`)

`Denotes look d lo hi id m` says that `id` roots a stored subtree of depth `d` that is responsible
for the keys from `lo` to `hi` and holds exactly the entries `m`. The depth makes the relation
a recursion, and bounds the levels a descent takes.
-/

namespace Espo.TreeDb
open Lib

variable {K V Id : Type*} [LinearOrder K]

/-- The subtree stored under an id, as a range of keys and a list of entries. -/
def Denotes (look : Id → Option (BptreeNode K V Id)) :
    ℕ → WithBot K → WithTop K → Id → List (LeafEntry K V) → Prop
  | 0, lo, hi, id, m =>
    (∃ next, look id = some (.leaf ⟨m, next⟩)) ∧ SortedEntries m ∧
      (∀ e ∈ m, InRange lo hi e.key) ∧ m.length ≤ maxLeafEntries
  | d + 1, lo, hi, id, m =>
    ∃ keys children, look id = some (.internal ⟨keys, children⟩) ∧
      keys.length ≤ maxInternalKeys ∧ Chain (Denotes look d) lo hi keys children m

variable {look look' : Id → Option (BptreeNode K V Id)} {d : ℕ} {lo : WithBot K} {hi : WithTop K}
  {id : Id} {m : List (LeafEntry K V)}

lemma Denotes.mono (hle : ∀ id n, look id = some n → look' id = some n)
    (h : Denotes look d lo hi id m) : Denotes look' d lo hi id m := by
  induction d generalizing lo hi id m with
  | zero =>
    obtain ⟨⟨next, hlook⟩, hrest⟩ := h
    exact ⟨⟨next, hle _ _ hlook⟩, hrest⟩
  | succ d ih =>
    obtain ⟨keys, children, hlook, hlen, hchain⟩ := h
    exact ⟨keys, children, hle _ _ hlook, hlen, hchain.mono fun _ _ _ _ => ih⟩

section
variable (h : Denotes look d lo hi id m)
include h

lemma Denotes.look_eq : ∃ n, look id = some n := by
  cases d with
  | zero =>
    obtain ⟨⟨next, hlook⟩, -⟩ := h
    exact ⟨_, hlook⟩
  | succ d =>
    obtain ⟨keys, children, hlook, -⟩ := h
    exact ⟨_, hlook⟩

lemma Denotes.inRange : ∀ e ∈ m, InRange lo hi e.key := by
  induction d generalizing lo hi id m with
  | zero => exact h.2.2.1
  | succ d ih =>
    obtain ⟨keys, children, -, -, hchain⟩ := h
    exact hchain.entries_inRange fun _ _ _ _ => ih

lemma Denotes.sorted : SortedEntries m := by
  induction d generalizing lo hi id m with
  | zero => exact h.2.1
  | succ d ih =>
    obtain ⟨keys, children, -, -, hchain⟩ := h
    exact hchain.entries_sorted (fun _ _ _ _ => Denotes.inRange) fun _ _ _ _ => ih

lemma Denotes.depth_unique {d' : ℕ} {lo' : WithBot K} {hi' : WithTop K}
    {m' : List (LeafEntry K V)} (h' : Denotes look d' lo' hi' id m') : d = d' := by
  induction d generalizing lo hi id m d' lo' hi' m' with
  | zero =>
    obtain ⟨⟨next, hlook⟩, -⟩ := h
    cases d' with
    | zero => rfl
    | succ d' =>
      obtain ⟨keys, children, hlook', -⟩ := h'
      simp [hlook] at hlook'
  | succ d ih =>
    obtain ⟨keys, children, hlook, -, hchain⟩ := h
    cases d' with
    | zero =>
      obtain ⟨⟨next, hlook'⟩, -⟩ := h'
      simp [hlook] at hlook'
    | succ d' =>
      obtain ⟨keys', children', hlook', -, hchain'⟩ := h'
      simp only [hlook] at hlook'
      obtain ⟨-, rfl⟩ := hlook'
      have hpos : 0 < children.length := by rw [hchain.length_eq]; omega
      have hmem : children[0] ∈ children := List.getElem_mem hpos
      obtain ⟨_, _, _, hc⟩ := hchain.exists_of_mem hmem
      obtain ⟨_, _, _, hc'⟩ := hchain'.exists_of_mem hmem
      rw [ih hc hc']

/-- The nodes on a path down are all different, so a subtree of depth `d` needs more than `d`. -/
theorem Denotes.exists_path [DecidableEq Id] :
    ∃ path : Finset Id, path.card = d + 1 ∧ ∀ i ∈ path, (∃ n, look i = some n) ∧
      ∃ d' ≤ d, ∃ lo' hi' m', Denotes look d' lo' hi' i m' := by
  induction d generalizing lo hi id m with
  | zero =>
    refine ⟨{id}, rfl, fun i hi => ?_⟩
    rw [Finset.mem_singleton.1 hi]
    exact ⟨h.look_eq, 0, le_rfl, _, _, _, h⟩
  | succ d ih =>
    have hroot := h
    obtain ⟨keys, children, -, -, hchain⟩ := h
    have hpos : 0 < children.length := by rw [hchain.length_eq]; omega
    obtain ⟨_, _, _, hc⟩ := hchain.exists_of_mem (List.getElem_mem hpos)
    obtain ⟨path, hcard, hpath⟩ := ih hc
    -- the root is deeper than everything below it
    have hnot : id ∉ path := by
      intro hmem
      obtain ⟨-, d', hd', _, _, _, h'⟩ := hpath id hmem
      have heq := hroot.depth_unique h'
      omega
    refine ⟨insert id path, by rw [Finset.card_insert_of_notMem hnot, hcard], fun i hi => ?_⟩
    rcases Finset.mem_insert.1 hi with rfl | hi
    · exact ⟨hroot.look_eq, d + 1, le_rfl, _, _, _, hroot⟩
    · obtain ⟨hlook, d', hd', hden⟩ := hpath i hi
      exact ⟨hlook, d', by omega, hden⟩

/-- A subtree is less deep than a table that holds its nodes is large. -/
theorem Denotes.depth_lt [DecidableEq Id] {ids : Finset Id}
    (hids : ∀ i n, look i = some n → i ∈ ids) : d < ids.card := by
  obtain ⟨path, hcard, hpath⟩ := h.exists_path
  have hsub : path ⊆ ids := by
    intro i hi
    obtain ⟨⟨n, hn⟩, -⟩ := hpath i hi
    exact hids i n hn
  have hle := Finset.card_le_card hsub
  omega

end

/-! ## Reads -/

/-- The node a root stands for, over the whole key space. -/
def RootDenotes (look : Id → Option (BptreeNode K V Id)) (root : Id) (m : List (LeafEntry K V)) :
    Prop :=
  ∃ d, Denotes look d ⊥ ⊤ root m

lemma inRange_bot_top (key : K) : InRange ⊥ ⊤ key := ⟨bot_le, WithTop.coe_lt_top key⟩

section Get
variable [DecidableEq Id]

/-- The loop of `get_at_root`, for a number of iterations. -/
def getLoop (disk : Table Id (BptreeNode K V Id)) (key : K) : ℕ → Id → Option (Option V)
  | 0, _ => none
  | fuel + 1, current =>
    match loadNode disk current with
    | .leaf leaf =>
      some (match searchEntries leaf.entries key with
        | .ok idx => leaf.entries[idx]?.bind LeafEntry.value
        | .error _ => none)
    | .internal node =>
      match node.children[childIndexForKey node.keys key]? with
      | none => some none
      | some next => getLoop disk key fuel next

/-- `get_at_root`: the loop takes at most one iteration for each stored node. -/
def getAtRoot (disk : Table Id (BptreeNode K V Id)) (root : Id) (key : K) : Option V :=
  (getLoop disk key (disk.card + 1) root).join

variable {disk : Table Id (BptreeNode K V Id)}

omit [LinearOrder K] in
lemma loadNode_of_get {n : BptreeNode K V Id} (h : disk.get id = some n) :
    loadNode disk id = n := by
  rw [loadNode, h, Option.getD_some]

lemma getLoop_eq {fuel : ℕ} (hfuel : d < fuel) (h : Denotes disk.get d lo hi id m) {key : K}
    (hk : InRange lo hi key) : getLoop disk key fuel id = some (contents m key) := by
  obtain ⟨k, rfl⟩ : ∃ k, fuel = k + d + 1 := ⟨fuel - d - 1, by omega⟩
  clear hfuel
  induction d generalizing lo hi id m with
  | zero =>
    obtain ⟨⟨next, hget⟩, hsorted, -⟩ := h
    rw [getLoop, loadNode_of_get hget]
    exact congrArg some (searchEntries_value hsorted key)
  | succ d ih =>
    obtain ⟨keys, children, hget, -, hchain⟩ := h
    obtain ⟨a, b, c, m₁, mc, m₂, hc, hden, hab, rfl, h₁, h₂, -⟩ :=
      hchain.route (fun _ _ _ _ => Denotes.inRange) hk
    rw [getLoop, loadNode_of_get hget]
    dsimp only
    rw [childIndexForKey_eq hchain.separators_sorted, hc]
    rw [contents_middle h₁ h₂]
    exact ih hden hab

lemma getLoop_root {root : Id} (h : RootDenotes disk.get root m) (key : K) {fuel : ℕ}
    (hfuel : disk.card ≤ fuel) : getLoop disk key fuel root = some (contents m key) := by
  obtain ⟨d, hd⟩ := h
  have hlt := hd.depth_lt fun _ _ => Table.mem_keys_of_get
  exact getLoop_eq (Nat.lt_of_lt_of_le hlt hfuel) hd (inRange_bot_top key)

lemma getAtRoot_eq {root : Id} (h : RootDenotes disk.get root m) (key : K) :
    getAtRoot disk root key = contents m key := by
  rw [getAtRoot, getLoop_root h key (Nat.le_succ _)]
  rfl

end Get
end Espo.TreeDb
