import Espo.Tree.History
import Espo.Tree.Range

/-!
# The tree database (`VersionedTreeDb`)

The rows the tree keeps in RocksDB, one table per key family, and the state it keeps in memory. A
block is begun on the root stored for its parent, written to through a working root, and finished by
one write batch; a rewind moves the active pointers back and deletes the height rows above its
target. Node rows, block roots and parent rows are never deleted.

Rows are typed, so the length checks on stored values have no counterpart here. A fallible operation
returns `Except`; the error carries what its message prints.
-/

namespace Espo.TreeDb
open Lib

/-- The rows of the tree. -/
structure TreeRows (K V Id H : Type*) where
  nodes : Table Id (BptreeNode K V Id)
  blockRoot : Table H Id
  heightBlock : Table ℕ H
  blockHeight : Table H ℕ
  blockParent : Table H H
  metaActiveRoot : Option Id
  metaActiveBlock : Option H
  metaPinnedRoot : Option Id
  metaPinUntilHeight : Option ℕ

/-- `BlockContext`: the block in flight. -/
structure BlockContext (Id H : Type*) where
  height : ℕ
  blockHash : H
  parentHash : H
  workingRoot : Id
  deriving DecidableEq

/-- `TreeState`: what the tree holds in memory. -/
structure TreeState (Id H : Type*) where
  activeRoot : Id
  activeBlock : Option H
  pinnedRoot : Option Id
  pinUntilHeight : Option ℕ
  currentBlock : Option (BlockContext Id H)
  deriving DecidableEq

/-- `VersionedTreeDb`. -/
structure VersionedTreeDb (K V Id H : Type*) where
  db : TreeRows K V Id H
  state : TreeState Id H

/-- Why `begin_block` or `rewind_to_height` refuses. -/
inductive TreeError (H : Type*) where
  /-- `missing parent root for block {height}: parent_hash={parent_hash}` -/
  | missingParentRoot (height : ℕ) (parentHash : H)
  /-- `cannot rewind tree: missing block hash at height {height}` -/
  | missingBlockHash (height : ℕ)
  /-- `cannot rewind tree: missing root for height {height} ({block_hash})` -/
  | missingRoot (height : ℕ) (blockHash : H)
  deriving DecidableEq

/-- No rows at all. -/
def TreeRows.empty (K V Id H : Type*) : TreeRows K V Id H where
  nodes := ∅
  blockRoot := ∅
  heightBlock := ∅
  blockHeight := ∅
  blockParent := ∅
  metaActiveRoot := none
  metaActiveBlock := none
  metaPinnedRoot := none
  metaPinUntilHeight := none

namespace VersionedTreeDb
variable {K V Id H : Type*} [LinearOrder K] [DecidableEq V] [DecidableEq Id] [DecidableEq H]
  [NodeHash K V Id] (db : TreeRows K V Id H)

/-- `VersionedTreeDb::new`: store the empty leaf if it is missing and read the pointers. -/
def new : VersionedTreeDb K V Id H where
  db := { db with nodes := db.nodes.putNew (emptyRootId K V Id) emptyLeaf }
  state :=
    { activeRoot := db.metaActiveRoot.getD (emptyRootId K V Id)
      activeBlock := db.metaActiveBlock
      pinnedRoot := db.metaPinnedRoot
      pinUntilHeight := db.metaPinUntilHeight
      currentBlock := none }

/-! ## Lookups -/

section Lookups
variable (t : VersionedTreeDb K V Id H)

/-- `blockhash_for_height`. -/
def blockhashForHeight (height : ℕ) : Option H := t.db.heightBlock.get height

/-- `height_for_blockhash`. -/
def heightForBlockhash (hash : H) : Option ℕ := t.db.blockHeight.get hash

/-- `parent_for_blockhash`. -/
def parentForBlockhash (hash : H) : Option H := t.db.blockParent.get hash

/-- `active_blockhash`. -/
def activeBlockhash : Option H := t.state.activeBlock

/-- `active_root`: a pinned root comes first. -/
def activeRoot : Id := t.state.pinnedRoot.getD t.state.activeRoot

/-- `root_for_blockhash`: the working root of the block in flight, else the stored root. -/
def rootForBlockhash (hash : H) : Option Id :=
  match t.state.currentBlock with
  | some ctx => if ctx.blockHash = hash then some ctx.workingRoot else t.db.blockRoot.get hash
  | none => t.db.blockRoot.get hash

/-- `has_committed_blocks`. -/
def hasCommittedBlocks : Bool := decide (0 < t.db.heightBlock.card)

/-- The loop of `is_ancestor`: follow so many parent rows. -/
def ancestorAt : ℕ → H → Option H
  | 0, cursor => some cursor
  | steps + 1, cursor =>
    match t.parentForBlockhash cursor with
    | none => none
    | some parent => ancestorAt steps parent

/-- `is_ancestor`. -/
def isAncestor (ancestor descendant : H) : Bool :=
  match t.heightForBlockhash ancestor, t.heightForBlockhash descendant with
  | some ancestorHeight, some descendantHeight =>
    if descendantHeight < ancestorHeight then false
    else decide (t.ancestorAt (descendantHeight - ancestorHeight) descendant = some ancestor)
  | _, _ => false

/-- `indexed_height_bounds`: the first and the last height row. -/
def indexedHeightBounds : Option (ℕ × ℕ) :=
  if h : t.db.heightBlock.keys.Nonempty then
    some (t.db.heightBlock.keys.min' h, t.db.heightBlock.keys.max' h)
  else none

/-- `get`: a read at the active root. -/
def get (key : K) : Option V := getAtRoot t.db.nodes t.activeRoot key

/-- `range_entries`: a scan at the active root. -/
def rangeEntries (start : K) (endExclusive : Option K) : List (K × V) :=
  rangeEntriesAtRoot t.db.nodes t.activeRoot start endExclusive

end Lookups

/-! ## Blocks -/

variable (t : VersionedTreeDb K V Id H)

/-- A block goes in flight. -/
def withCurrentBlock (ctx : BlockContext Id H) : VersionedTreeDb K V Id H :=
  { t with state := { t.state with currentBlock := some ctx } }

/-- `begin_block`: work on the root of the parent. A parent without a root is accepted only before
anything was committed. -/
def beginBlock (height : ℕ) (blockHash parentHash : H) :
    Except (TreeError H) (VersionedTreeDb K V Id H) :=
  match t.rootForBlockhash parentHash with
  | some root => .ok (t.withCurrentBlock ⟨height, blockHash, parentHash, root⟩)
  | none =>
    if t.state.activeBlock = none ∧
        (t.state.activeRoot = emptyRootId K V Id ∨ t.hasCommittedBlocks = false) then
      .ok (t.withCurrentBlock ⟨height, blockHash, parentHash, emptyRootId K V Id⟩)
    else .error (.missingParentRoot height parentHash)

omit [LinearOrder K] [DecidableEq V] in
lemma beginBlock_ok {t t' : VersionedTreeDb K V Id H} {height : ℕ} {blockHash parentHash : H}
    (h : t.beginBlock height blockHash parentHash = .ok t') :
    ∃ ctx, t' = t.withCurrentBlock ctx := by
  unfold beginBlock at h
  split at h
  · exact ⟨_, (Except.ok.inj h).symm⟩
  · split_ifs at h
    exact ⟨_, (Except.ok.inj h).symm⟩

/-- `abort_block`. -/
def abortBlock : VersionedTreeDb K V Id H :=
  { t with state := { t.state with currentBlock := none } }

/-- What `finish_block` leaves in memory: a pin keeps the active pointers up to its height. -/
def finishState (st : TreeState Id H) (ctx : BlockContext Id H) : TreeState Id H :=
  let switched : TreeState Id H :=
    { st with
      currentBlock := none, activeRoot := ctx.workingRoot, activeBlock := some ctx.blockHash }
  match st.pinUntilHeight with
  | none => switched
  | some untilHeight =>
    if ctx.height ≤ untilHeight then { st with currentBlock := none }
    else { switched with pinUntilHeight := none, pinnedRoot := none }

/-- The write batch of `finish_block`. -/
def finishRows (st : TreeState Id H) (ctx : BlockContext Id H) : TreeRows K V Id H :=
  let finished := finishState st ctx
  let unpinned := st.pinUntilHeight.any (· < ctx.height)
  { db with
    blockRoot := db.blockRoot.put ctx.blockHash ctx.workingRoot
    heightBlock := db.heightBlock.put ctx.height ctx.blockHash
    blockHeight := db.blockHeight.put ctx.blockHash ctx.height
    blockParent := db.blockParent.put ctx.blockHash ctx.parentHash
    metaActiveRoot := some finished.activeRoot
    metaActiveBlock := finished.activeBlock.or db.metaActiveBlock
    metaPinnedRoot := if unpinned then none else db.metaPinnedRoot
    metaPinUntilHeight := if unpinned then none else db.metaPinUntilHeight }

/-- `finish_block`. -/
def finishBlock : VersionedTreeDb K V Id H :=
  match t.state.currentBlock with
  | none => t
  | some ctx => ⟨finishRows t.db t.state ctx, finishState t.state ctx⟩

variable (target : Option ℕ)

/-- The height rows that a rewind deletes. -/
def staleHeight (height : ℕ) : Bool :=
  (target.map fun t => decide (t < height)).getD true

/-- The write batch of `rewind_to_height`. -/
def rewindRows (root : Id) (block : Option H) : TreeRows K V Id H :=
  let staleHashes := (db.heightBlock.filter fun height _ => staleHeight target height).values
  { db with
    heightBlock := db.heightBlock.filter fun height _ => !staleHeight target height
    blockHeight := db.blockHeight.filter fun hash _ => decide (hash ∉ staleHashes)
    metaActiveRoot := some root
    metaActiveBlock := block
    metaPinnedRoot := none
    metaPinUntilHeight := none }

/-- Where a rewind puts the active pointers. -/
def rewindPointers :
    Option ℕ → Except (TreeError H) (Id × Option H)
  | none => .ok (emptyRootId K V Id, none)
  | some height =>
    match t.blockhashForHeight height with
    | none => .error (.missingBlockHash height)
    | some hash =>
      match t.rootForBlockhash hash with
      | none => .error (.missingRoot height hash)
      | some root => .ok (root, some hash)

/-- `rewind_to_height`. -/
def rewindToHeight : Except (TreeError H) (VersionedTreeDb K V Id H) :=
  match t.rewindPointers target with
  | .error e => .error e
  | .ok (root, block) => .ok ⟨rewindRows t.db target root block, ⟨root, block, none, none, none⟩⟩

/-! ## Writes -/

/-- The root a write starts from: the working root in a block, else the active root. -/
def baseRoot : Id :=
  (t.state.currentBlock.map BlockContext.workingRoot).getD t.state.activeRoot

/-- The end of a write: new node rows, and the new root where the old one was. Outside a block the
active pointers are written out. -/
def putRoot (root : Id) (nodes : Table Id (BptreeNode K V Id)) : VersionedTreeDb K V Id H :=
  match t.state.currentBlock with
  | some ctx =>
    ⟨{ t.db with nodes := nodes },
      { t.state with currentBlock := some { ctx with workingRoot := root } }⟩
  | none =>
    ⟨{ t.db with
        nodes := nodes
        metaActiveRoot := some root
        metaActiveBlock := t.state.activeBlock.or t.db.metaActiveBlock },
      { t.state with activeRoot := root }⟩

/-- `apply_mutation`. -/
def applyMutation (key : K) (value : Option V) : VersionedTreeDb K V Id H :=
  match (⟨t.db.nodes, none⟩ : NodeStore K V Id).applySingle t.baseRoot key value with
  | none => t
  | some (root, store) => t.putRoot root store.disk

/-- `put`. -/
def put (key : K) (value : V) : VersionedTreeDb K V Id H :=
  t.applyMutation key (some value)

/-- `delete`. -/
def delete (key : K) : VersionedTreeDb K V Id H :=
  t.applyMutation key none

/-- `apply_batch_owned`. -/
def applyBatchOwned (changes : List (K × Option V)) : VersionedTreeDb K V Id H :=
  if changes.isEmpty then t
  else
    match applyBatchNodes batchLimits t.db.nodes t.baseRoot changes with
    | none => t
    | some (root, nodes) => t.putRoot root nodes

end VersionedTreeDb

/-- One write call. -/
inductive TreeWrite (K V : Type*) where
  | put (key : K) (value : V)
  | delete (key : K)
  | batch (changes : List (K × Option V))

/-- The changes of a write call, in order. -/
def TreeWrite.changes {K V : Type*} : TreeWrite K V → List (K × Option V)
  | .put key value => [(key, some value)]
  | .delete key => [(key, none)]
  | .batch changes => changes

/-- Perform a write call. -/
def VersionedTreeDb.write {K V Id H : Type*} [LinearOrder K] [DecidableEq V] [DecidableEq Id]
    [NodeHash K V Id] (t : VersionedTreeDb K V Id H) : TreeWrite K V → VersionedTreeDb K V Id H
  | .put key value => t.put key value
  | .delete key => t.delete key
  | .batch changes => t.applyBatchOwned changes

/-! ## Stored maps -/

section Stores
variable {K V Id : Type*} [LinearOrder K] [DecidableEq Id]
  {nodes nodes' : Table Id (BptreeNode K V Id)} {root root' : Id} {view : K → Option V}

/-- The node rows hold a tree for the map `view` at `root`. -/
def Stores (nodes : Table Id (BptreeNode K V Id)) (root : Id) (view : K → Option V) : Prop :=
  ∃ m, RootDenotes nodes.get root m ∧ contents m = view

section
variable (h : Stores nodes root view)
include h

lemma Stores.mono (hext : Table.Extends nodes nodes') : Stores nodes' root view := by
  obtain ⟨m, ⟨d, hd⟩, hm⟩ := h
  exact ⟨m, ⟨d, hd.mono hext⟩, hm⟩

lemma Stores.getAtRoot_eq : getAtRoot nodes root = view := by
  obtain ⟨m, hden, rfl⟩ := h
  exact funext fun key => TreeDb.getAtRoot_eq hden key

lemma Stores.rangeEntriesAtRoot_eq (h' : Stores nodes' root' view) (start : K)
    (endExclusive : Option K) :
    rangeEntriesAtRoot nodes root start endExclusive
      = rangeEntriesAtRoot nodes' root' start endExclusive := by
  obtain ⟨m, hden, hm⟩ := h
  obtain ⟨m', hden', hm'⟩ := h'
  obtain ⟨⟨d, hd⟩, ⟨d', hd'⟩⟩ := hden, hden'
  rw [TreeDb.rangeEntriesAtRoot_eq ⟨d, hd⟩, TreeDb.rangeEntriesAtRoot_eq ⟨d', hd'⟩,
    rangeContents_congr hd.sorted hd'.sorted (hm.trans hm'.symm)]

lemma Stores.rangeEntriesPageAtRoot_eq (h' : Stores nodes' root' view) (start : K)
    (endExclusive : Option K) (offset limit : ℕ) (reverse : Bool) :
    rangeEntriesPageAtRoot nodes root start endExclusive offset limit reverse
      = rangeEntriesPageAtRoot nodes' root' start endExclusive offset limit reverse := by
  obtain ⟨m, hden, hm⟩ := h
  obtain ⟨m', hden', hm'⟩ := h'
  obtain ⟨⟨d, hd⟩, ⟨d', hd'⟩⟩ := hden, hden'
  rw [TreeDb.rangeEntriesPageAtRoot_eq ⟨d, hd⟩, TreeDb.rangeEntriesPageAtRoot_eq ⟨d', hd'⟩,
    rangeContents_congr hd.sorted hd'.sorted (hm.trans hm'.symm)]

end

end Stores

section Writes
variable {K V Id H : Type*} [LinearOrder K] [DecidableEq V] [DecidableEq Id] [NodeHash K V Id]
  {t : VersionedTreeDb K V Id H}

lemma VersionedTreeDb.write_cases (t : VersionedTreeDb K V Id H) (w : TreeWrite K V) :
    t.write w = t ∨ ∃ root nodes, t.write w = t.putRoot root nodes := by
  have hmutation : ∀ key value, t.applyMutation key value = t ∨
      ∃ root nodes, t.applyMutation key value = t.putRoot root nodes := by
    intro key value
    unfold applyMutation
    split
    · exact .inl rfl
    · exact .inr ⟨_, _, rfl⟩
  cases w with
  | put key value => exact hmutation key (some value)
  | delete key => exact hmutation key none
  | batch changes =>
    show t.applyBatchOwned changes = t ∨ ∃ root nodes, t.applyBatchOwned changes = _
    unfold applyBatchOwned
    split
    · exact .inl rfl
    · split
      · exact .inl rfl
      · exact .inr ⟨_, _, rfl⟩

/-- A write in a block moves the working root to a tree for the written map. -/
theorem VersionedTreeDb.write_spec {ctx : BlockContext Id H} {view : K → Option V}
    (hwf : (⟨t.db.nodes, none⟩ : NodeStore K V Id).WF) (hctx : t.state.currentBlock = some ctx)
    (hbase : Stores t.db.nodes ctx.workingRoot view) (w : TreeWrite K V) :
    ∃ root nodes, t.write w = ⟨{ t.db with nodes := nodes },
        { t.state with currentBlock := some { ctx with workingRoot := root } }⟩ ∧
      (⟨nodes, none⟩ : NodeStore K V Id).WF ∧ Table.Extends t.db.nodes nodes ∧
      Stores nodes root (writeAll view w.changes) := by
  obtain ⟨m, hden, rfl⟩ := hbase
  have hroot : t.baseRoot = ctx.workingRoot := by simp [baseRoot, hctx]
  have hput : ∀ root nodes, t.putRoot root nodes = ⟨{ t.db with nodes := nodes },
      { t.state with currentBlock := some { ctx with workingRoot := root } }⟩ := by
    simp [putRoot, hctx]
  simp only [← hput]
  have hmutation : ∀ key value, ∃ root nodes, t.applyMutation key value = t.putRoot root nodes ∧
      (⟨nodes, none⟩ : NodeStore K V Id).WF ∧ Table.Extends t.db.nodes nodes ∧
      Stores nodes root (writeAll (contents m) [(key, value)]) := by
    intro key value
    obtain ⟨root, s, m', heq, -, hwf', hext, hden', hcont⟩ :=
      applySingle_disk_spec hwf hden key value
    refine ⟨root, s.disk, ?_, hwf', hext, m', hden', hcont⟩
    rw [applyMutation, hroot, heq]
  cases w with
  | put key value => exact hmutation key (some value)
  | delete key => exact hmutation key none
  | batch changes =>
    by_cases hnil : changes = []
    · -- an empty batch returns at once
      subst hnil
      refine ⟨ctx.workingRoot, t.db.nodes, ?_, hwf, fun _ _ h => h, m, hden, rfl⟩
      have hstate : { t.state with currentBlock := some ctx } = t.state := by rw [← hctx]
      rw [hput, hstate]
      rfl
    · obtain ⟨root, nodes, m', heq, hwf', hext, hden', hcont⟩ :=
        applyBatchNodes_spec batchLimits hwf hden changes
      refine ⟨root, nodes, ?_, hwf', hext, m', hden', hcont⟩
      show t.applyBatchOwned changes = _
      rw [applyBatchOwned, if_neg (by simpa using hnil), hroot, heq]

end Writes

end Espo.TreeDb
