import Espo.Tree.Batch

/-!
# The tree refines a persistent map

A history is any sequence of single and batched writes, each at any root produced before, starting
from the empty root. Every root of a history stays readable, and a write at one of them is an update
of the map it denotes.
-/

namespace Espo.TreeDb
open Lib

variable {K V Id : Type*} [LinearOrder K] [DecidableEq V] [DecidableEq Id] [NodeHash K V Id]

/-- The node rows of a fresh store (`VersionedTreeDb::new`): the empty leaf. -/
def initDisk (K V Id : Type*) [DecidableEq Id] [NodeHash K V Id] : Table Id (BptreeNode K V Id) :=
  (∅ : Table Id (BptreeNode K V Id)).put (emptyRootId K V Id) emptyLeaf

/-- The node rows and the roots produced by a sequence of `put`, `delete` and `apply_batch_owned`,
newest root first. A `put` writes a value and a `delete` none. -/
inductive History : Table Id (BptreeNode K V Id) → List Id → Prop
  | init : History (initDisk K V Id) [emptyRootId K V Id]
  | single {disk : Table Id (BptreeNode K V Id)} {roots : List Id} {root root' : Id} {key : K}
      {value : Option V} {s : NodeStore K V Id} :
      History disk roots → root ∈ roots →
        (⟨disk, none⟩ : NodeStore K V Id).applySingle root key value = some (root', s) →
        History s.disk (root' :: roots)
  | batch {disk disk' : Table Id (BptreeNode K V Id)} {roots : List Id} {root root' : Id}
      {limits : BatchLimits} {changes : List (K × Option V)} :
      History disk roots → root ∈ roots →
        applyBatchNodes limits disk root changes = some (root', disk') →
        History disk' (root' :: roots)

/-- Node rows that hold every root of a list. -/
structure Holds (disk : Table Id (BptreeNode K V Id)) (roots : List Id) : Prop where
  wf : (⟨disk, none⟩ : NodeStore K V Id).WF
  denotes : ∀ root ∈ roots, ∃ m, RootDenotes disk.get root m

variable {disk disk' : Table Id (BptreeNode K V Id)} {roots : List Id} {root : Id}

omit [LinearOrder K] [DecidableEq V] in
lemma initDisk_wf : (⟨initDisk K V Id, none⟩ : NodeStore K V Id).WF := by
  have hget : ∀ id n, (initDisk K V Id).get id = some n →
      id = emptyRootId K V Id ∧ n = emptyLeaf := by
    intro id n hn
    rw [initDisk, Table.get_put] at hn
    split_ifs at hn with hid
    · exact ⟨hid, (Option.some_inj.1 hn).symm⟩
    · simp at hn
  have hchildren : ∀ id n, (initDisk K V Id).get id = some n → n.children = [] := by
    intro id n hn
    rw [(hget id n hn).2]
    rfl
  refine ⟨fun id n hn => ?_, fun id n hn => absurd hn (by simp [NodeStore.pending]),
    fun id n hn c hc => ?_, fun id n hn c hc => ?_⟩
  · obtain ⟨rfl, rfl⟩ := hget id n hn
    rfl
  · simp [hchildren id n hn] at hc
  · have hdisk : (initDisk K V Id).get id = some n := by
      simpa [NodeStore.look, NodeStore.pending] using hn
    simp [hchildren id n hdisk] at hc

omit [DecidableEq V] in
lemma initDisk_denotes : RootDenotes (initDisk K V Id).get (emptyRootId K V Id) [] := by
  refine ⟨0, ⟨none, ?_⟩, List.Pairwise.nil, by simp, by simp⟩
  rw [initDisk, Table.get_put_self]
  rfl

omit [DecidableEq V] in
lemma Holds.extend (h : Holds disk roots) (hwf : (⟨disk', none⟩ : NodeStore K V Id).WF)
    (hext : Table.Extends disk disk') {root' : Id}
    (hroot : ∃ m, RootDenotes disk'.get root' m) : Holds disk' (root' :: roots) := by
  refine ⟨hwf, fun r hr => ?_⟩
  rcases List.mem_cons.1 hr with rfl | hr
  · exact hroot
  · obtain ⟨m, d, hd⟩ := h.denotes r hr
    exact ⟨m, d, hd.mono hext⟩

omit [LinearOrder K] [DecidableEq V] [NodeHash K V Id] in
lemma look_of_batch_none {s : NodeStore K V Id} (hs : s.batch = none) :
    s.look = s.disk.get := by
  funext id
  simp [NodeStore.look, NodeStore.pending, hs]

lemma applySingle_disk_spec (hwf : (⟨disk, none⟩ : NodeStore K V Id).WF)
    {m : List (LeafEntry K V)} (h : RootDenotes disk.get root m) (key : K) (value : Option V) :
    ∃ root' s m', (⟨disk, none⟩ : NodeStore K V Id).applySingle root key value = some (root', s) ∧
      s.batch = none ∧ (⟨s.disk, none⟩ : NodeStore K V Id).WF ∧ Table.Extends disk s.disk ∧
      RootDenotes s.disk.get root' m' ∧ contents m' = Function.update (contents m) key value := by
  have hlook : RootDenotes (⟨disk, none⟩ : NodeStore K V Id).look root m := by
    exact h
  obtain ⟨root', s, m', heq, hwf', hgrow, hden, hcont⟩ :=
    NodeStore.applySingle_spec hwf hlook key value
  have hnone : s.batch = none := by
    have hbatch := hgrow.batch
    simpa using hbatch
  have hs : s = ⟨s.disk, none⟩ := by rw [← hnone]
  rw [look_of_batch_none hnone] at hden
  refine ⟨root', s, m', heq, hnone, ?_, hgrow.disk, hden, hcont⟩
  rw [← hs]
  exact hwf'

lemma History.holds (h : History (K := K) (V := V) disk roots) : Holds disk roots := by
  induction h with
  | init => exact ⟨initDisk_wf, fun r hr => ⟨[], by rw [List.mem_singleton.1 hr]; exact initDisk_denotes⟩⟩
  | single _ hroot heq ih =>
    obtain ⟨m, hm⟩ := ih.denotes _ hroot
    obtain ⟨r, s, m', heq', -, hwf, hext, hden, -⟩ := applySingle_disk_spec ih.wf hm _ _
    rw [heq] at heq'
    cases heq'
    exact ih.extend hwf hext ⟨m', hden⟩
  | batch _ hroot heq ih =>
    obtain ⟨m, hm⟩ := ih.denotes _ hroot
    obtain ⟨r, disk', m', heq', hwf, hext, hden, -⟩ := applyBatchNodes_spec _ ih.wf hm _
    rw [heq] at heq'
    cases heq'
    exact ih.extend hwf hext ⟨m', hden⟩

omit [DecidableEq V] in
lemma getAtRoot_extends (h : Holds disk roots) (hr : root ∈ roots)
    (hext : Table.Extends disk disk') (key : K) :
    getAtRoot disk' root key = getAtRoot disk root key := by
  obtain ⟨m, d, hd⟩ := h.denotes root hr
  rw [getAtRoot_eq ⟨d, hd⟩, getAtRoot_eq ⟨d, hd.mono hext⟩]

/-- A write at any root of a history returns a root at which the written key reads as the written
value and every other key reads as before; reads at the roots of the history do not change. -/
theorem applySingle_refines_update (h : History (K := K) (V := V) disk roots) (hr : root ∈ roots)
    (key : K) (value : Option V) :
    ∃ root' s, (⟨disk, none⟩ : NodeStore K V Id).applySingle root key value = some (root', s) ∧
      (∀ key', getAtRoot s.disk root' key'
        = if key' = key then value else getAtRoot disk root key') ∧
      ∀ r ∈ roots, ∀ key', getAtRoot s.disk r key' = getAtRoot disk r key' := by
  have hholds := h.holds
  obtain ⟨m, hm⟩ := hholds.denotes root hr
  obtain ⟨root', s, m', heq, -, -, hext, hden, hcont⟩ :=
    applySingle_disk_spec hholds.wf hm key value
  refine ⟨root', s, heq, fun key' => ?_, fun r hr' => getAtRoot_extends hholds hr' hext⟩
  rw [getAtRoot_eq hden, getAtRoot_eq hm, hcont, Function.update_apply]

theorem applySingle_refines_update_fresh :
    ∃ root' s, (⟨initDisk ℕ ℕ ℕ, none⟩ : NodeStore ℕ ℕ ℕ).applySingle (emptyRootId ℕ ℕ ℕ) 3 (some 7)
        = some (root', s) ∧
      (∀ key', getAtRoot s.disk root' key'
        = if key' = 3 then some 7 else getAtRoot (initDisk ℕ ℕ ℕ) (emptyRootId ℕ ℕ ℕ) key') ∧
      ∀ r ∈ [emptyRootId ℕ ℕ ℕ], ∀ key', getAtRoot s.disk r key' = getAtRoot (initDisk ℕ ℕ ℕ) r key' :=
  applySingle_refines_update History.init List.mem_cons_self 3 (some 7)

/-- Every write at a root of a history extends the history. -/
theorem History.exists_written (h : History (K := K) (V := V) disk roots) (hr : root ∈ roots) (key : K)
    (value : Option V) :
    ∃ (disk' : Table Id (BptreeNode K V Id)) (root' : Id),
      History disk' (root' :: roots) ∧ getAtRoot disk' root' key = value := by
  obtain ⟨m, hm⟩ := h.holds.denotes root hr
  obtain ⟨root', s, m', heq, -, -, -, hden, hcont⟩ := applySingle_disk_spec h.holds.wf hm key value
  refine ⟨s.disk, root', History.single h hr heq, ?_⟩
  rw [getAtRoot_eq hden, hcont, Function.update_self]

/-! ## Batches -/

/-- The changes of a list written one by one, in list order. -/
def applyEach : NodeStore K V Id → Id → List (K × Option V) → Option (Id × NodeStore K V Id)
  | s, root, [] => some (root, s)
  | s, root, (key, value) :: changes =>
    match s.applySingle root key value with
    | none => none
    | some (root, s) => applyEach s root changes

/-- The nodes below a root: the root and the children of stored nodes. -/
inductive ReachableNode (disk : Table Id (BptreeNode K V Id)) (root : Id) : Id → Prop
  | root : ReachableNode disk root root
  | child {id c : Id} {n : BptreeNode K V Id} :
      ReachableNode disk root id → disk.get id = some n → c ∈ n.children →
        ReachableNode disk root c

lemma applyEach_spec (hwf : (⟨disk, none⟩ : NodeStore K V Id).WF) {m : List (LeafEntry K V)}
    (h : RootDenotes disk.get root m) (changes : List (K × Option V)) :
    ∃ root' s m', applyEach (⟨disk, none⟩ : NodeStore K V Id) root changes = some (root', s) ∧
      RootDenotes s.disk.get root' m' ∧ contents m' = writeAll (contents m) changes := by
  induction changes generalizing disk root m with
  | nil => exact ⟨root, _, m, rfl, h, rfl⟩
  | cons change changes ih =>
    obtain ⟨key, value⟩ := change
    obtain ⟨root₁, s₁, m₁, heq, hnone, hwf₁, -, hden₁, hcont₁⟩ :=
      applySingle_disk_spec hwf h key value
    obtain ⟨root', s, m', heq', hden', hcont'⟩ := ih hwf₁ hden₁
    have hs₁ : s₁ = ⟨s₁.disk, none⟩ := by rw [← hnone]
    refine ⟨root', s, m', ?_, hden', by rw [hcont', hcont₁, writeAll_cons]⟩
    rw [applyEach, heq]
    rw [hs₁]
    exact heq'

/-- A batch at any root of a history, for any limits, reads like its changes written one by one in
list order, the last write of a key winning, and everything below the new root is on disk. -/
theorem applyBatchNodes_eq_applyEach (limits : BatchLimits)
    (h : History (K := K) (V := V) disk roots) (hr : root ∈ roots)
    (changes : List (K × Option V)) :
    ∃ root' disk', applyBatchNodes limits disk root changes = some (root', disk') ∧
      (∃ root'' s, applyEach (⟨disk, none⟩ : NodeStore K V Id) root changes = some (root'', s) ∧
        ∀ key, getAtRoot disk' root' key = getAtRoot s.disk root'' key) ∧
      (∀ key, getAtRoot disk' root' key = writeAll (getAtRoot disk root) changes key) ∧
      ∀ id, ReachableNode disk' root' id → ∃ n, disk'.get id = some n := by
  have hholds := h.holds
  obtain ⟨m, hm⟩ := hholds.denotes root hr
  obtain ⟨root', disk', m', heq, hwf, -, hden, hcont⟩ :=
    applyBatchNodes_spec limits hholds.wf hm changes
  obtain ⟨root'', s, m'', heq', hden', hcont'⟩ := applyEach_spec hholds.wf hm changes
  have hbase : getAtRoot disk root = contents m := funext fun key => getAtRoot_eq hm key
  refine ⟨root', disk', heq, ⟨root'', s, heq', fun key => ?_⟩, fun key => ?_, fun id hid => ?_⟩
  · rw [getAtRoot_eq hden, getAtRoot_eq hden', hcont, hcont']
  · rw [getAtRoot_eq hden, hcont, hbase]
  · induction hid with
    | root =>
      obtain ⟨d, hd⟩ := hden
      exact hd.look_eq
    | child _ hn hc _ => exact hwf.disk_closed _ _ hn _ hc

theorem applyBatchNodes_eq_applyEach_fresh :
    ∃ root' disk', applyBatchNodes batchLimits (initDisk ℕ ℕ ℕ) (emptyRootId ℕ ℕ ℕ)
        [(3, some 7), (1, some 2), (3, none)] = some (root', disk') ∧
      (∃ root'' s, applyEach (⟨initDisk ℕ ℕ ℕ, none⟩ : NodeStore ℕ ℕ ℕ) (emptyRootId ℕ ℕ ℕ)
          [(3, some 7), (1, some 2), (3, none)] = some (root'', s) ∧
        ∀ key, getAtRoot disk' root' key = getAtRoot s.disk root'' key) ∧
      (∀ key, getAtRoot disk' root' key = writeAll (getAtRoot (initDisk ℕ ℕ ℕ) (emptyRootId ℕ ℕ ℕ))
        [(3, some 7), (1, some 2), (3, none)] key) ∧
      ∀ id, ReachableNode disk' root' id → ∃ n, disk'.get id = some n :=
  applyBatchNodes_eq_applyEach batchLimits History.init List.mem_cons_self _

end Espo.TreeDb
