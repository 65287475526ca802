import Espo.Tree.Node

/-!
# Storing nodes and writing a key (`mutate_node`, `apply_single`)

Nodes live in RocksDB under their hash and, while a batch is applied, in a cache of pending nodes
that is consulted first. `NodeStore` is the pair of the two; `look` is what a load finds there.

Nothing in the source bounds the recursion of `mutate_node` along the path from a root to a leaf, so
the model gives it a number of levels, larger than the number of nodes. `none` stands for running
out of levels and for an index out of bounds, neither of which happens on a stored tree.
-/

namespace Espo.TreeDb
open Lib Option

variable {K V Id : Type*}

/-- `BatchWriteContext`: nodes not written yet, and the writes since the last collection. -/
structure BatchWriteContext (K V Id : Type*) where
  pendingNodes : Table Id (BptreeNode K V Id)
  opsSinceGc : ℕ

/-- The node rows of the database, with the context of the running batch if there is one. -/
structure NodeStore (K V Id : Type*) where
  disk : Table Id (BptreeNode K V Id)
  batch : Option (BatchWriteContext K V Id)

/-- `MutationOutcome`: the node that replaces a mutated node, or the two it was split into. -/
inductive MutationOutcome (K Id : Type*) where
  | node (id : Id)
  | split (left right : Id) (separator : K)

/-- `load_node`: a missing row reads as the empty leaf. -/
def loadNode [DecidableEq Id] (disk : Table Id (BptreeNode K V Id)) (id : Id) :
    BptreeNode K V Id :=
  (disk.get id).getD emptyLeaf

namespace NodeStore
variable [DecidableEq Id] (s : NodeStore K V Id)

/-- The pending nodes; none outside a batch. -/
def pending : Table Id (BptreeNode K V Id) :=
  (s.batch.map BatchWriteContext.pendingNodes).getD ∅

/-- The node found under an id: a pending one, else a stored one. -/
def look (id : Id) : Option (BptreeNode K V Id) :=
  (s.pending.get id).or (s.disk.get id)

/-- `load_node_with_ctx`. -/
def loadNodeWithCtx (id : Id) : BptreeNode K V Id :=
  (s.pending.get id).getD (loadNode s.disk id)

/-- `store_node_with_ctx`: into the batch when there is one, else to disk, unless it is there. -/
def storeNodeWithCtx [NodeHash K V Id] (s : NodeStore K V Id) (node : BptreeNode K V Id) :
    Id × NodeStore K V Id :=
  let id := hashNode node
  match s.batch with
  | some ctx =>
    (id, { s with batch := some { ctx with pendingNodes := ctx.pendingNodes.putNew id node } })
  | none => (id, { s with disk := s.disk.putNew id node })

/-- The end of `mutate_node` on a leaf: store the edited leaf, split exactly in half when it is too
large. -/
def storeLeaf [NodeHash K V Id] (s : NodeStore K V Id) (entries : List (LeafEntry K V))
    (next : Option Id) : Option (MutationOutcome K Id × NodeStore K V Id) :=
  if entries.length ≤ maxLeafEntries then
    let stored := s.storeNodeWithCtx (.leaf ⟨entries, next⟩)
    some (.node stored.1, stored.2)
  else
    let mid := entries.length / 2
    match entries[mid]? with
    | none => none
    | some first =>
      let right := s.storeNodeWithCtx (.leaf ⟨entries.drop mid, next⟩)
      let left := right.2.storeNodeWithCtx (.leaf ⟨entries.take mid, some right.1⟩)
      some (.split left.1 right.1 first.key, left.2)

/-- The end of `mutate_node` on an internal node: the middle separator of a split moves up. -/
def storeInternal [NodeHash K V Id] (s : NodeStore K V Id) (keys : List K) (children : List Id) :
    Option (MutationOutcome K Id × NodeStore K V Id) :=
  if keys.length ≤ maxInternalKeys then
    let stored := s.storeNodeWithCtx (.internal ⟨keys, children⟩)
    some (.node stored.1, stored.2)
  else
    let mid := keys.length / 2
    match keys[mid]? with
    | none => none
    | some separator =>
      let left := s.storeNodeWithCtx (.internal ⟨keys.take mid, children.take (mid + 1)⟩)
      let right := left.2.storeNodeWithCtx
        (.internal ⟨keys.drop (mid + 1), children.drop (mid + 1)⟩)
      some (.split left.1 right.1 separator, right.2)

section Mutate
variable [LinearOrder K] [DecidableEq V] [NodeHash K V Id]

/-- `mutate_node`: write one key below a node, copying the path to its leaf. -/
def mutateNode : ℕ → NodeStore K V Id → Id → K → Option V →
    Option (MutationOutcome K Id × NodeStore K V Id)
  | 0, _, _, _, _ => none
  | levels + 1, s, nodeId, key, value =>
    match s.loadNodeWithCtx nodeId with
    | .leaf leaf =>
      let edit := editEntries leaf.entries key value
      if edit.2 then s.storeLeaf edit.1 leaf.next else some (.node nodeId, s)
    | .internal node =>
      let idx := childIndexForKey node.keys key
      match node.children[idx]? with
      -- no child to descend to, in particular when there are no children
      | none => some (.node nodeId, s)
      | some childId =>
        match mutateNode levels s childId key value with
        | none => none
        | some (.node newChild, s) =>
          if newChild = childId then some (.node nodeId, s)
          else s.storeInternal node.keys (node.children.set idx newChild)
        | some (.split left right separator, s) =>
          s.storeInternal (node.keys.insertIdx idx separator)
            ((node.children.set idx left).insertIdx (idx + 1) right)

/-- A number of levels no path through the store exceeds. -/
def levels (s : NodeStore K V Id) : ℕ := s.disk.card + s.pending.card + 1

/-- `apply_single`: the root after one write; a split root gets a new root above it. -/
def applySingle (s : NodeStore K V Id) (root : Id) (key : K) (value : Option V) :
    Option (Id × NodeStore K V Id) :=
  match s.mutateNode s.levels root key value with
  | none => none
  | some (.node id, s) => some (id, s)
  | some (.split left right separator, s) =>
    some (s.storeNodeWithCtx (.internal ⟨[separator], [left, right]⟩))

end Mutate

/-! ## Well-formed stores -/

variable [NodeHash K V Id]

/-- The invariant of every store the tree builds. -/
structure WF (s : NodeStore K V Id) : Prop where
  disk_hash : ∀ id n, s.disk.get id = some n → hashNode n = id
  pending_hash : ∀ id n, s.pending.get id = some n → hashNode n = id
  disk_closed : ∀ id n, s.disk.get id = some n → ∀ c ∈ n.children, ∃ n', s.disk.get c = some n'
  look_closed : ∀ id n, s.look id = some n → ∀ c ∈ n.children, ∃ n', s.look c = some n'

/-- The store `t` comes from `s` by storing nodes: every node found in `s` is found in `t`, nothing
on disk is lost, and `t` is in a batch exactly when `s` is, in which case the disk is untouched. -/
structure Grows (s t : NodeStore K V Id) : Prop where
  look : ∀ id n, s.look id = some n → t.look id = some n
  disk : Table.Extends s.disk t.disk
  batch : t.batch.isSome = s.batch.isSome
  disk_eq : s.batch.isSome → t.disk = s.disk

omit [NodeHash K V Id] in
lemma Grows.refl : Grows s s :=
  ⟨fun _ _ h => h, Table.Extends.refl _, rfl, fun _ => rfl⟩

omit [NodeHash K V Id] in
lemma Grows.trans {s t u : NodeStore K V Id} (h₁ : Grows s t) (h₂ : Grows t u) : Grows s u where
  look id n h := h₂.look id n (h₁.look id n h)
  disk := h₁.disk.trans h₂.disk
  batch := h₂.batch.trans h₁.batch
  disk_eq h := (h₂.disk_eq (h₁.batch ▸ h)).trans (h₁.disk_eq h)

variable {s : NodeStore K V Id} {n : BptreeNode K V Id}

omit [NodeHash K V Id] in
lemma loadNodeWithCtx_of_look {id : Id} (h : s.look id = some n) : s.loadNodeWithCtx id = n := by
  unfold look at h
  unfold loadNodeWithCtx loadNode
  cases hp : s.pending.get id with
  | some m =>
    rw [hp, some_or, some_inj] at h
    rw [getD_some, h]
  | none =>
    rw [hp, none_or] at h
    rw [getD_none, h, getD_some]

lemma WF.look_hash (hs : s.WF) {id : Id} (h : s.look id = some n) : hashNode n = id := by
  unfold look at h
  cases hp : s.pending.get id with
  | some m =>
    rw [hp, some_or, some_inj] at h
    exact h ▸ hs.pending_hash id m hp
  | none =>
    rw [hp] at h
    exact hs.disk_hash id n h

lemma WF.look_of_disk (hs : s.WF) {id : Id} (h : s.disk.get id = some n) : s.look id = some n := by
  unfold look
  cases hp : s.pending.get id with
  | some m =>
    have hmn : hashNode m = hashNode n :=
      (hs.pending_hash id m hp).trans (hs.disk_hash id n h).symm
    rw [some_or, hashNode_injective hmn]
  | none => rw [none_or, h]

/-! ## Storing one node -/

/-- In a table of nodes under their hash, adding a node never meets a different one. -/
private theorem get_putNew_hashNode {t : Table Id (BptreeNode K V Id)}
    (ht : ∀ id n, t.get id = some n → hashNode n = id) (node : BptreeNode K V Id) (id : Id) :
    (t.putNew (hashNode node) node).get id
      = if id = hashNode node then some node else t.get id := by
  rw [Table.get_putNew]
  cases hget : t.get (hashNode node) with
  | none => rfl
  | some n => rw [hashNode_injective (ht _ n hget), getD_some]

lemma look_storeNodeWithCtx (hs : s.WF) (node : BptreeNode K V Id) (id : Id) :
    (s.storeNodeWithCtx node).2.look id
      = if id = (s.storeNodeWithCtx node).1 then some node else s.look id := by
  unfold storeNodeWithCtx
  cases hb : s.batch with
  | some ctx =>
    have hpend : s.pending = ctx.pendingNodes := by simp [pending, hb]
    have hget := get_putNew_hashNode (hpend ▸ hs.pending_hash) node id
    simp only [look, pending, map_some, getD_some, hget, hb]
    split_ifs <;> rfl
  | none =>
    have hget := get_putNew_hashNode hs.disk_hash node id
    simp only [look, pending, hb, map_none, getD_none, Table.get_empty,
      none_or, hget]

/-- The rows of a node store after a node is stored: each is an old row of its table or the node. -/
private theorem tables_storeNodeWithCtx (hs : s.WF) (node : BptreeNode K V Id) :
    (∀ id n, (s.storeNodeWithCtx node).2.pending.get id = some n →
        s.pending.get id = some n ∨ hashNode n = id) ∧
      (∀ id n, (s.storeNodeWithCtx node).2.disk.get id = some n →
        s.disk.get id = some n ∨ (s.batch = none ∧ n = node ∧ hashNode n = id)) := by
  unfold storeNodeWithCtx
  cases hb : s.batch with
  | some ctx =>
    have hpend : s.pending = ctx.pendingNodes := by simp [pending, hb]
    refine ⟨fun id n h => ?_, fun id n h => .inl h⟩
    simp only [pending, map_some, getD_some] at h
    rw [get_putNew_hashNode (hpend ▸ hs.pending_hash)] at h
    split_ifs at h with hid
    · exact .inr (by rw [hid, some_inj.1 h])
    · exact .inl (by rw [hpend, h])
  | none =>
    refine ⟨fun id n h => ?_, fun id n h => ?_⟩
    · simp [pending] at h
    · rw [get_putNew_hashNode hs.disk_hash] at h
      split_ifs at h with hid
      · have hn : node = n := some_inj.1 h
        exact .inr ⟨rfl, hn.symm, by rw [hid, hn]⟩
      · exact .inl h

lemma grows_storeNodeWithCtx (hs : s.WF) (node : BptreeNode K V Id) :
    Grows s (s.storeNodeWithCtx node).2 := by
  have hlook : ∀ id n, s.look id = some n → (s.storeNodeWithCtx node).2.look id = some n := by
    intro id n h
    rw [look_storeNodeWithCtx hs]
    split_ifs with hid
    · have hhash : (s.storeNodeWithCtx node).1 = hashNode node := by
        unfold storeNodeWithCtx
        cases s.batch <;> rfl
      have heq : hashNode node = hashNode n := by rw [hs.look_hash h, hid, hhash]
      rw [hashNode_injective heq]
    · exact h
  cases hb : s.batch with
  | some ctx =>
    refine ⟨hlook, ?_, ?_, ?_⟩ <;> simp [storeNodeWithCtx, hb, Table.Extends.refl]
  | none =>
    refine ⟨hlook, ?_, ?_, by simp [hb]⟩
    · simpa [storeNodeWithCtx, hb] using Table.extends_putNew s.disk (hashNode node) node
    · simp [storeNodeWithCtx, hb]

lemma WF.storeNodeWithCtx (hs : s.WF) {node : BptreeNode K V Id}
    (hc : ∀ c ∈ node.children, ∃ n, s.look c = some n) : (s.storeNodeWithCtx node).2.WF := by
  have hgrow := grows_storeNodeWithCtx hs node
  obtain ⟨hpend, hdisk⟩ := tables_storeNodeWithCtx hs node
  refine ⟨fun id n h => ?_, fun id n h => ?_, fun id n h c hcn => ?_, fun id n h c hcn => ?_⟩
  · rcases hdisk id n h with h | ⟨-, -, h⟩
    · exact hs.disk_hash id n h
    · exact h
  · rcases hpend id n h with h | h
    · exact hs.pending_hash id n h
    · exact h
  · rcases hdisk id n h with h | ⟨hb, rfl, -⟩
    · obtain ⟨n', hn'⟩ := hs.disk_closed id n h c hcn
      exact ⟨n', hgrow.disk c n' hn'⟩
    · obtain ⟨n', hn'⟩ := hc c hcn
      have hd : s.disk.get c = some n' := by simpa [look, pending, hb] using hn'
      exact ⟨n', hgrow.disk c n' hd⟩
  · have hold : ∃ n', s.look c = some n' := by
      rw [look_storeNodeWithCtx hs] at h
      split_ifs at h with hid
      · exact hc c (some_inj.1 h ▸ hcn)
      · exact hs.look_closed id n h c hcn
    obtain ⟨n', hn'⟩ := hold
    exact ⟨n', hgrow.look c n' hn'⟩

lemma look_storeNodeWithCtx_self (hs : s.WF) (node : BptreeNode K V Id) :
    (s.storeNodeWithCtx node).2.look (s.storeNodeWithCtx node).1 = some node := by
  rw [look_storeNodeWithCtx hs, if_pos rfl]

end NodeStore
end Espo.TreeDb
