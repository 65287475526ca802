import Espo.Lib.Traverse
import Espo.Lib.Writes
import Espo.Tree.Mutate

/-!
# Batched writes (`apply_batch_owned`)

A batch is sorted by key, reduced to the last write of each key, and applied with new nodes kept in
memory. Nodes that the current root no longer reaches are dropped now and then, a cache that grew
too large is written out, and what is left is written at the end.

The limits that trigger collection and write-out are a parameter: the results hold for every choice.
The argument is `Denotes.transfer`: in tables that hold nodes under their hash, a subtree whose root
is found is all there as soon as the children of every node found are found.
-/

namespace Espo.TreeDb
open Lib

variable {K V Id : Type*}

/-- When the pending nodes of a batch are collected and written out. -/
structure BatchLimits where
  gcInterval : ℕ
  softLimit : ℕ
  softGcInterval : ℕ
  hardLimit : ℕ

/-- `BATCH_PENDING_GC_INTERVAL`, `BATCH_PENDING_SOFT_LIMIT`, `BATCH_PENDING_SOFT_GC_INTERVAL` and
`BATCH_PENDING_HARD_LIMIT`. -/
def batchLimits : BatchLimits := ⟨8192, 25000, 4096, 50000⟩

section Defs
variable [DecidableEq Id]

variable (pending : Table Id (BptreeNode K V Id))

/-- The children a traversal of the pending nodes pushes at an id. -/
def pendingChildren (id : Id) : List Id :=
  ((pending.get id).map BptreeNode.children).getD []

/-- The ids visited from the root by the stack loop over pending nodes. It stops at ids that are not
pending. -/
def reachablePending (root : Id) : Finset Id :=
  traverse (pendingChildren pending) (traverseBound (pendingChildren pending) pending.keys) [root] ∅

/-- `retain_reachable_pending_nodes`, with its early return when the counts agree. -/
def retainReachablePendingNodes (root : Id) (ctx : BatchWriteContext K V Id) :
    BatchWriteContext K V Id :=
  let reachable := reachablePending ctx.pendingNodes root
  if ctx.pendingNodes.card = 0 ∨ reachable.card = ctx.pendingNodes.card then ctx
  else { ctx with pendingNodes := ctx.pendingNodes.filter fun id _ => id ∈ reachable }

/-- `flush_pending_batch_nodes`: write the pending nodes reached from the root. -/
def flushPendingBatchNodes (root : Id) (disk : Table Id (BptreeNode K V Id))
    (ctx : BatchWriteContext K V Id) : Table Id (BptreeNode K V Id) :=
  disk.overlay (ctx.pendingNodes.filter fun id _ => id ∈ reachablePending ctx.pendingNodes root)

/-- `maybe_compact_batch_nodes`, on the context of a running batch. -/
def compactBatch (limits : BatchLimits) (root : Id) (disk : Table Id (BptreeNode K V Id))
    (ctx : BatchWriteContext K V Id) : NodeStore K V Id :=
  if ctx.pendingNodes.card = 0 then ⟨disk, some ctx⟩
  else
    let ops := ctx.opsSinceGc + 1
    let overSoft := limits.softLimit ≤ ctx.pendingNodes.card
    let ctx : BatchWriteContext K V Id :=
      if limits.gcInterval ≤ ops ∨ (overSoft ∧ limits.softGcInterval ≤ ops) then
        { retainReachablePendingNodes root ctx with opsSinceGc := 0 }
      else { ctx with opsSinceGc := ops }
    if limits.hardLimit ≤ ctx.pendingNodes.card then
      -- spill what the root still reaches and start with an empty cache
      let ctx := retainReachablePendingNodes root ctx
      ⟨flushPendingBatchNodes root disk ctx, some ⟨∅, 0⟩⟩
    else ⟨disk, some ctx⟩

/-- `maybe_compact_batch_nodes`; outside a batch there is nothing to compact. -/
def NodeStore.maybeCompactBatchNodes (limits : BatchLimits) (root : Id) (s : NodeStore K V Id) :
    NodeStore K V Id :=
  match s.batch with
  | none => s
  | some ctx => compactBatch limits root s.disk ctx

variable [LinearOrder K] [DecidableEq V] [NodeHash K V Id]

/-- The changes of a batch in the order they are applied: sorted by key with a stable sort, and only
the last value of each key. -/
def canonicalChanges (changes : List (K × Option V)) : List (K × Option V) :=
  ((changes.insertionSort keyLE).foldl mergeWrite []).reverse

/-- The loop of `apply_batch_owned` over the canonical changes. -/
def applyChanges (limits : BatchLimits) :
    NodeStore K V Id → Id → List (K × Option V) → Option (Id × NodeStore K V Id)
  | s, root, [] => some (root, s)
  | s, root, (key, value) :: changes =>
    match s.applySingle root key value with
    | none => none
    | some (root, s) =>
      applyChanges limits (s.maybeCompactBatchNodes limits root) root changes

/-- `apply_batch_owned` on the node rows: the root after the batch and the rows after the final
write. -/
def applyBatchNodes (limits : BatchLimits) (disk : Table Id (BptreeNode K V Id)) (root : Id)
    (changes : List (K × Option V)) : Option (Id × Table Id (BptreeNode K V Id)) :=
  match applyChanges limits ⟨disk, some ⟨∅, 0⟩⟩ root (canonicalChanges changes) with
  | none => none
  | some (root, s) =>
    match s.batch with
    | none => some (root, s.disk)
    | some ctx => some (root, flushPendingBatchNodes root s.disk ctx)

end Defs

/-! ## Moving a tree between tables -/

section Transfer
variable [LinearOrder K] [NodeHash K V Id] {look look' : Id → Option (BptreeNode K V Id)}

/-- A subtree is carried over to any table of nodes under their hash that finds its root and the
children of all its own nodes. -/
theorem Denotes.transfer (hhash : ∀ id n, look id = some n → hashNode n = id)
    (hhash' : ∀ id n, look' id = some n → hashNode n = id)
    (hclosed' : ∀ id n, look' id = some n → ∀ c ∈ n.children, ∃ n', look' c = some n')
    {d : ℕ} {lo : WithBot K} {hi : WithTop K} {id : Id} {m : List (LeafEntry K V)}
    (h : Denotes look d lo hi id m) (hid : ∃ n, look' id = some n) : Denotes look' d lo hi id m := by
  have hsame : ∀ {id n}, (∃ n', look' id = some n') → look id = some n → look' id = some n := by
    rintro id n ⟨n', hn'⟩ hn
    have heq : hashNode n' = hashNode n := (hhash' id n' hn').trans (hhash id n hn).symm
    rw [hn', hashNode_injective heq]
  induction d generalizing lo hi id m with
  | zero =>
    obtain ⟨⟨next, hlook⟩, hrest⟩ := h
    exact ⟨⟨next, hsame hid hlook⟩, hrest⟩
  | succ d ih =>
    obtain ⟨keys, children, hlook, hlen, hchain⟩ := h
    have hlook' := hsame hid hlook
    exact ⟨keys, children, hlook', hlen,
      hchain.mono_of_mem fun lo hi c m hc hden => ih hden (hclosed' id _ hlook' c hc)⟩

end Transfer

/-! ## Collection and write-out -/

section Compact
variable [DecidableEq Id]

lemma reachablePending_closed (pending : Table Id (BptreeNode K V Id)) (root : Id) :
    root ∈ reachablePending pending root ∧
      ∀ id ∈ reachablePending pending root, ∀ n, pending.get id = some n →
        ∀ c ∈ n.children, c ∈ reachablePending pending root := by
  have hs : ∀ id, id ∉ pending.keys → pendingChildren pending id = [] := by
    intro id hid
    rw [pendingChildren, Table.notMem_keys.1 hid]
    rfl
  obtain ⟨hroot, hclosed⟩ := traverse_closed (pendingChildren pending) hs root
  refine ⟨hroot, fun id hid n hn c hc => hclosed id hid c ?_⟩
  rw [pendingChildren, hn]
  exact hc

variable [LinearOrder K] [NodeHash K V Id] {disk : Table Id (BptreeNode K V Id)}
  {ctx : BatchWriteContext K V Id} {root : Id} {m : List (LeafEntry K V)}

omit [LinearOrder K] in
/-- A store with nothing pending finds what is on disk. -/
private theorem wf_of_disk (hs : (⟨disk, none⟩ : NodeStore K V Id).WF) (ops : ℕ) :
    (⟨disk, some ⟨∅, ops⟩⟩ : NodeStore K V Id).WF :=
  ⟨hs.disk_hash, hs.pending_hash, hs.disk_closed, hs.look_closed⟩

section
variable (hs : (⟨disk, some ctx⟩ : NodeStore K V Id).WF)
  (h : RootDenotes (⟨disk, some ctx⟩ : NodeStore K V Id).look root m)
include hs h

lemma reachablePending_spec {look : Id → Option (BptreeNode K V Id)}
    (hlook : ∀ id, look id = ((ctx.pendingNodes.filter fun id _ =>
      decide (id ∈ reachablePending ctx.pendingNodes root)).get id).or (disk.get id)) :
    (∀ id n, disk.get id = some n → look id = some n) ∧ (∀ id n, look id = some n → hashNode n = id) ∧
      (∀ id n, look id = some n → ∀ c ∈ n.children, ∃ n', look c = some n') ∧
      RootDenotes look root m := by
  obtain ⟨hroot, hclosed⟩ := reachablePending_closed ctx.pendingNodes root
  set reachable := reachablePending ctx.pendingNodes root
  have hget : ∀ id, look id
      = (if id ∈ reachable then ctx.pendingNodes.get id else none).or (disk.get id) := by
    intro id
    rw [hlook, Table.get_filter]
    split_ifs with hid <;> cases ctx.pendingNodes.get id <;> simp [hid]
  have hcases : ∀ id n, look id = some n →
      (id ∈ reachable ∧ ctx.pendingNodes.get id = some n) ∨ disk.get id = some n := by
    intro id n hn
    rw [hget, Option.or_eq_some_iff] at hn
    rcases hn with hn | ⟨-, hn⟩
    · split_ifs at hn with hid
      exact .inl ⟨hid, hn⟩
    · exact .inr hn
  have hext : ∀ id n, disk.get id = some n → look id = some n := by
    intro id n hn
    have hold := hs.look_of_disk hn
    rw [hget, hn]
    split_ifs with hid
    · exact hn ▸ hold
    · rfl
  -- what the root reaches is still found
  have hfound : ∀ id ∈ reachable, (∃ n, (⟨disk, some ctx⟩ : NodeStore K V Id).look id = some n) →
      ∃ n, look id = some n := by
    rintro id hid ⟨n, hn⟩
    refine ⟨n, ?_⟩
    rw [hget, if_pos hid]
    exact hn
  have hhash : ∀ id n, look id = some n → hashNode n = id := by
    intro id n hn
    rcases hcases id n hn with ⟨-, hn⟩ | hn
    · exact hs.pending_hash id n hn
    · exact hs.disk_hash id n hn
  have hchildren : ∀ id n, look id = some n → ∀ c ∈ n.children, ∃ n', look c = some n' := by
    intro id n hn c hc
    rcases hcases id n hn with ⟨hid, hn⟩ | hn
    · have hold : (⟨disk, some ctx⟩ : NodeStore K V Id).look id = some n := by
        change (ctx.pendingNodes.get id).or (disk.get id) = some n
        rw [hn, Option.some_or]
      exact hfound c (hclosed id hid n hn c hc) (hs.look_closed id n hold c hc)
    · obtain ⟨n', hn'⟩ := hs.disk_closed id n hn c hc
      exact ⟨n', hext c n' hn'⟩
  obtain ⟨d, hd⟩ := h
  exact ⟨hext, hhash, hchildren, d,
    hd.transfer (fun _ _ => hs.look_hash) hhash hchildren (hfound root hroot hd.look_eq)⟩

lemma retainReachablePendingNodes_spec (ops : ℕ) :
    (⟨disk, some ⟨(retainReachablePendingNodes root ctx).pendingNodes, ops⟩⟩ :
        NodeStore K V Id).WF ∧
      RootDenotes (⟨disk, some ⟨(retainReachablePendingNodes root ctx).pendingNodes, ops⟩⟩ :
        NodeStore K V Id).look root m := by
  unfold retainReachablePendingNodes
  dsimp only
  split_ifs with hkeep
  · exact ⟨⟨hs.disk_hash, hs.pending_hash, hs.disk_closed, hs.look_closed⟩, h⟩
  · obtain ⟨-, -, hclosed, hroot⟩ := reachablePending_spec hs h fun _ => rfl
    refine ⟨⟨hs.disk_hash, fun id n hn => hs.pending_hash id n ?_, hs.disk_closed, hclosed⟩, hroot⟩
    simp only [NodeStore.pending, Option.map_some, Option.getD_some, Table.get_filter] at hn
    exact (Option.filter_eq_some_iff.1 hn).1

lemma flushPendingBatchNodes_spec :
    (⟨flushPendingBatchNodes root disk ctx, none⟩ : NodeStore K V Id).WF ∧
      Table.Extends disk (flushPendingBatchNodes root disk ctx) ∧
      RootDenotes (flushPendingBatchNodes root disk ctx).get root m := by
  obtain ⟨hext, hhash, hclosed, hroot⟩ := reachablePending_spec hs h fun id => Table.get_overlay disk _ id
  exact ⟨⟨hhash, fun id n hn => absurd hn (by simp [NodeStore.pending]), hclosed, hclosed⟩, hext, hroot⟩

/-- Compaction keeps the tree of the root, whatever the limits. -/
theorem compactBatch_spec (limits : BatchLimits) :
    (compactBatch limits root disk ctx).WF ∧
      (∃ ctx', (compactBatch limits root disk ctx).batch = some ctx') ∧
      Table.Extends disk (compactBatch limits root disk ctx).disk ∧
      RootDenotes (compactBatch limits root disk ctx).look root m := by
  unfold compactBatch
  split_ifs with hempty
  · exact ⟨hs, ⟨ctx, rfl⟩, Table.Extends.refl _, h⟩
  · -- the collection, then the spill
    dsimp only
    set ctx' : BatchWriteContext K V Id :=
      if limits.gcInterval ≤ ctx.opsSinceGc + 1 ∨
          limits.softLimit ≤ ctx.pendingNodes.card ∧ limits.softGcInterval ≤ ctx.opsSinceGc + 1 then
        { retainReachablePendingNodes root ctx with opsSinceGc := 0 }
      else { ctx with opsSinceGc := ctx.opsSinceGc + 1 } with hctx'
    have hgc : (⟨disk, some ctx'⟩ : NodeStore K V Id).WF ∧
        RootDenotes (⟨disk, some ctx'⟩ : NodeStore K V Id).look root m := by
      rw [hctx']
      split_ifs
      · exact retainReachablePendingNodes_spec hs h 0
      · exact ⟨⟨hs.disk_hash, hs.pending_hash, hs.disk_closed, hs.look_closed⟩, h⟩
    split_ifs with hhard
    · obtain ⟨hwf, hden⟩ := retainReachablePendingNodes_spec hgc.1 hgc.2 0
      have hwf' : (⟨disk, some (retainReachablePendingNodes root ctx')⟩ : NodeStore K V Id).WF :=
        ⟨hwf.disk_hash, hwf.pending_hash, hwf.disk_closed, hwf.look_closed⟩
      obtain ⟨hdisk, hext, hroot⟩ := flushPendingBatchNodes_spec hwf' hden
      refine ⟨wf_of_disk hdisk 0, ⟨_, rfl⟩, hext, ?_⟩
      obtain ⟨d, hd⟩ := hroot
      exact ⟨d, hd.mono fun id n hn => by simpa [NodeStore.look, NodeStore.pending] using hn⟩
    · exact ⟨hgc.1, ⟨_, rfl⟩, Table.Extends.refl _, hgc.2⟩

end

variable (limits : BatchLimits) [DecidableEq V]

/-- The loop of a batch: by induction over the changes, the root denotes the changes applied so far
and the store stays well-formed. -/
theorem applyChanges_spec {s : NodeStore K V Id} (hs : s.WF) (hb : ∃ ctx, s.batch = some ctx)
    (h : RootDenotes s.look root m) (changes : List (K × Option V)) :
    ∃ root' t ctx m', applyChanges limits s root changes = some (root', t) ∧ t.WF ∧
      t.batch = some ctx ∧ Table.Extends s.disk t.disk ∧ RootDenotes t.look root' m' ∧
      contents m' = writeAll (contents m) changes := by
  induction changes generalizing s root m with
  | nil =>
    obtain ⟨ctx, hctx⟩ := hb
    exact ⟨root, s, ctx, m, rfl, hs, hctx, Table.Extends.refl _, h, rfl⟩
  | cons change changes ih =>
    obtain ⟨key, value⟩ := change
    obtain ⟨root₁, s₁, m₁, heq, hwf, hgrow, hden, hcont⟩ := NodeStore.applySingle_spec hs h key value
    obtain ⟨ctx, hctx⟩ := hb
    have hsome : s₁.batch.isSome := by rw [hgrow.batch, hctx]; rfl
    obtain ⟨ctx₁, hctx₁⟩ := Option.isSome_iff_exists.1 hsome
    have hs₁ : s₁ = ⟨s₁.disk, some ctx₁⟩ := by rw [← hctx₁]
    rw [hs₁] at hwf hden
    obtain ⟨hwf', hb', hext, hden'⟩ := compactBatch_spec hwf hden limits
    have hcompact : s₁.maybeCompactBatchNodes limits root₁
        = compactBatch limits root₁ s₁.disk ctx₁ := by
      rw [NodeStore.maybeCompactBatchNodes, hctx₁]
    rw [← hcompact] at hwf' hb' hext hden'
    obtain ⟨root', t, ctx', m', heq', hwf'', hctx', hext', hden'', hcont'⟩ := ih hwf' hb' hden'
    refine ⟨root', t, ctx', m', ?_, hwf'', hctx', (hgrow.disk.trans hext).trans hext', hden'', ?_⟩
    · rw [applyChanges, heq]
      exact heq'
    · rw [hcont', hcont, writeAll_cons]

omit [DecidableEq V] in
lemma writeAll_canonicalChanges (f : K → Option V) (changes : List (K × Option V)) :
    writeAll f (canonicalChanges changes) = writeAll f changes := by
  rw [canonicalChanges, writeAll_foldl_mergeWrite, List.reverse_nil, writeAll_nil,
    writeAll_insertionSort]

/-- A batch at a stored root returns a root that is stored as well and denotes the changes applied
in order; nothing on disk is lost. -/
theorem applyBatchNodes_spec (hs : (⟨disk, none⟩ : NodeStore K V Id).WF)
    (h : RootDenotes disk.get root m) (changes : List (K × Option V)) :
    ∃ root' disk' m', applyBatchNodes limits disk root changes = some (root', disk') ∧
      (⟨disk', none⟩ : NodeStore K V Id).WF ∧ Table.Extends disk disk' ∧
      RootDenotes disk'.get root' m' ∧ contents m' = writeAll (contents m) changes := by
  have hstart : RootDenotes (⟨disk, some ⟨∅, 0⟩⟩ : NodeStore K V Id).look root m := by
    obtain ⟨d, hd⟩ := h
    exact ⟨d, hd.mono fun id n hn => by simpa [NodeStore.look, NodeStore.pending] using hn⟩
  obtain ⟨root', t, ctx, m', heq, hwf, hctx, hext, hden, hcont⟩ :=
    applyChanges_spec limits (wf_of_disk hs 0) ⟨_, rfl⟩ hstart (canonicalChanges changes)
  have ht : t = ⟨t.disk, some ctx⟩ := by rw [← hctx]
  rw [ht] at hwf hden
  obtain ⟨hdisk, hext', hroot⟩ := flushPendingBatchNodes_spec hwf hden
  refine ⟨root', _, m', ?_, hdisk, hext.trans hext', hroot, ?_⟩
  · simp only [applyBatchNodes, heq, hctx]
  · rw [hcont, writeAll_canonicalChanges]

end Compact

end Espo.TreeDb
