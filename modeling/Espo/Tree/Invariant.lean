import Espo.Tree.History

/-!
# The shape of the tree

The invariant that lookups and scans rely on, said about the stored nodes themselves: how many separators,
children and entries a node has, that all of them are in order, and that a separator bounds every key
below it, however deep. It holds at every root of a history.
-/

namespace Espo.TreeDb
open Lib

variable {K V Id : Type*}

/-- The nodes under a root, with the number of steps down to them. -/
inductive NodeBelow (look : Id → Option (BptreeNode K V Id)) (root : Id) :
    ℕ → Id → BptreeNode K V Id → Prop
  | root {n : BptreeNode K V Id} : look root = some n → NodeBelow look root 0 root n
  | child {depth : ℕ} {id c : Id} {n n' : BptreeNode K V Id} :
      NodeBelow look root depth id n → c ∈ n.children → look c = some n' →
        NodeBelow look root (depth + 1) c n'

/-- The keys that a node holds itself: of its entries, or its separators. -/
def BptreeNode.keys : BptreeNode K V Id → List K
  | .leaf node => node.entries.map LeafEntry.key
  | .internal node => node.keys

/-- The keys of a subtree. -/
def KeyBelow (look : Id → Option (BptreeNode K V Id)) (root : Id) (key : K) : Prop :=
  ∃ depth id n, NodeBelow look root depth id n ∧ key ∈ n.keys

section Invariant
variable [LinearOrder K]

/-- An internal node: one child more than separators, not too many of them, in order, and each child has
the keys between the separators beside it. -/
structure InternalInvariant (look : Id → Option (BptreeNode K V Id)) (node : InternalNode K Id) : Prop where
  children_length : node.children.length = node.keys.length + 1
  keys_length : node.keys.length ≤ 128
  keys_sorted : node.keys.Pairwise (· < ·)
  child_stored : ∀ c ∈ node.children, ∃ n, look c = some n
  separator_le : ∀ (i : ℕ) c key sep, node.children[i + 1]? = some c → KeyBelow look c key →
    node.keys[i]? = some sep → sep ≤ key
  lt_separator : ∀ (i : ℕ) c key sep, node.children[i]? = some c → KeyBelow look c key →
    node.keys[i]? = some sep → key < sep

/-- A leaf: not too many entries, in order of their keys. -/
structure LeafInvariant (node : LeafNode K V Id) : Prop where
  entries_length : node.entries.length ≤ 128
  entries_sorted : (node.entries.map LeafEntry.key).Pairwise (· < ·)

/-- The tree under a root: all leaves are at one depth. -/
def TreeInvariant (look : Id → Option (BptreeNode K V Id)) (root : Id) : Prop :=
  (∃ n, look root = some n) ∧ ∃ height, ∀ depth id n, NodeBelow look root depth id n →
    match n with
    | .leaf node => depth = height ∧ LeafInvariant node
    | .internal node => depth < height ∧ InternalInvariant look node

variable {look : Id → Option (BptreeNode K V Id)} {d : ℕ} {lo : WithBot K} {hi : WithTop K} {id : Id}
  {m : List (LeafEntry K V)}

/-- A node under the root of a subtree is the root of a subtree itself, with a smaller range. -/
theorem Denotes.below (h : Denotes look d lo hi id m) {depth : ℕ} {id' : Id} {n : BptreeNode K V Id}
    (hn : NodeBelow look id depth id' n) :
    look id' = some n ∧ ∃ d' lo' hi' m', d = depth + d' ∧ lo ≤ lo' ∧ hi' ≤ hi ∧
      Denotes look d' lo' hi' id' m' := by
  induction hn with
  | root hroot => exact ⟨hroot, d, lo, hi, m, (Nat.zero_add d).symm, le_rfl, le_rfl, h⟩
  | @child depth id₁ c n n' _ hc hlook ih =>
    obtain ⟨hlook₁, d', lo', hi', m', hd, hlo, hhi, hden⟩ := ih
    cases d' with
    | zero =>
      -- a leaf has no children
      obtain ⟨⟨next, hleaf⟩, -⟩ := hden
      cases hleaf.symm.trans hlook₁
      exact absurd hc List.not_mem_nil
    | succ d' =>
      obtain ⟨keys, children, hnode, -, hchain⟩ := hden
      cases hnode.symm.trans hlook₁
      obtain ⟨i, hi⟩ := List.getElem?_of_mem hc
      obtain ⟨lo₂, hi₂, m₂, hden₂, hlo₂, hhi₂, -⟩ := hchain.exists_of_getElem? hi
      exact ⟨hlook, d', lo₂, hi₂, m₂, by omega, hlo.trans hlo₂, hhi₂.trans hhi, hden₂⟩

lemma Denotes.keyBelow_inRange (h : Denotes look d lo hi id m) {key : K} (hkey : KeyBelow look id key) :
    InRange lo hi key := by
  obtain ⟨depth, id', n, hn, hmem⟩ := hkey
  obtain ⟨hlook, d', lo', hi', m', -, hlo, hhi, hden⟩ := h.below hn
  have hrange : InRange lo' hi' key := by
    cases d' with
    | zero =>
      obtain ⟨⟨next, hleaf⟩, -, hentries, -⟩ := hden
      cases hleaf.symm.trans hlook
      obtain ⟨e, he, rfl⟩ := List.mem_map.1 hmem
      exact hentries e he
    | succ d' =>
      obtain ⟨keys, children, hnode, -, hchain⟩ := hden
      cases hnode.symm.trans hlook
      have hsep := hchain.separator_mem key hmem
      exact ⟨hsep.1.le, hsep.2⟩
  exact ⟨hlo.trans hrange.1, hrange.2.trans_le hhi⟩

lemma Denotes.internalInvariant {keys : List K} {children : List Id}
    (hlen : keys.length ≤ maxInternalKeys) (hchain : Chain (Denotes look d) lo hi keys children m) :
    InternalInvariant look ⟨keys, children⟩ where
  children_length := hchain.length_eq
  keys_length := hlen
  keys_sorted := hchain.separators_sorted
  child_stored c hc := by
    obtain ⟨lo', hi', m', hden⟩ := hchain.exists_of_mem hc
    exact hden.look_eq
  separator_le i c key sep hc hkey hsep := by
    obtain ⟨lo', hi', m', hden, -, -, hleft, -⟩ := hchain.exists_of_getElem? hc
    have hle : (sep : WithBot K) ≤ key :=
      (hleft sep (Nat.succ_pos i) hsep).trans (hden.keyBelow_inRange hkey).1
    exact WithBot.coe_le_coe.1 hle
  lt_separator i c key sep hc hkey hsep := by
    obtain ⟨lo', hi', m', hden, -, -, -, hright⟩ := hchain.exists_of_getElem? hc
    have hlt : (key : WithTop K) < sep := (hden.keyBelow_inRange hkey).2.trans_le (hright sep hsep)
    exact WithTop.coe_lt_coe.1 hlt

lemma RootDenotes.toTreeInvariant (h : RootDenotes look id m) : TreeInvariant look id := by
  obtain ⟨height, hroot⟩ := h
  refine ⟨hroot.look_eq, height, ?_⟩
  intro depth id' n hn
  obtain ⟨hlook, d', lo', hi', m', hd, -, -, hden⟩ := hroot.below hn
  cases d' with
  | zero =>
    obtain ⟨⟨next, hleaf⟩, hsorted, -, hlen⟩ := hden
    cases hleaf.symm.trans hlook
    exact ⟨by omega, hlen, List.pairwise_map.2 hsorted⟩
  | succ d' =>
    obtain ⟨keys, children, hnode, hlen, hchain⟩ := hden
    cases hnode.symm.trans hlook
    exact ⟨by omega, Denotes.internalInvariant hlen hchain⟩

end Invariant

section History
variable [LinearOrder K] [DecidableEq V] [DecidableEq Id] [NodeHash K V Id]

/-- The tree under every root of a history has the shape. -/
theorem History.treeInvariant {disk : Table Id (BptreeNode K V Id)} {roots : List Id} {root : Id}
    (h : History (K := K) (V := V) disk roots) (hr : root ∈ roots) : TreeInvariant disk.get root := by
  obtain ⟨m, hm⟩ := h.holds.denotes root hr
  exact hm.toTreeInvariant

theorem History.treeInvariant_written :
    ∃ (disk : Table ℕ (BptreeNode ℕ ℕ ℕ)) (root : ℕ),
      getAtRoot disk root 3 = some 7 ∧ TreeInvariant disk.get root := by
  obtain ⟨disk, root, hist, hget⟩ := History.exists_written (K := ℕ) (V := ℕ)
    (History.init : History (initDisk ℕ ℕ ℕ) _) List.mem_cons_self 3 (some 7)
  exact ⟨disk, root, hget, hist.treeInvariant List.mem_cons_self⟩

end History
end Espo.TreeDb
