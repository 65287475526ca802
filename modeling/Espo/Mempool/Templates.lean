import Espo.Lib.Float64
import Espo.Lib.Iterate
import Espo.Lib.Table

/-!
# Block templates

`calculate_block_templates` packs the transactions of the mempool into the next blocks, by fee rate. A
transaction comes with its unconfirmed ancestors, and when a package has been placed, the scores of what
depends on it change. The version before it is kept as a reference. They differ in how they find the ancestors
and in the queue of modified transactions: a heap in which entries go stale, and a vector that is sorted in
every turn. The loop itself is the same text in both, so it is one definition over the operations of the queue.

The order of hash sets (`SetOrder`) is the same for both versions.
-/

namespace Espo.Mempool
open Lib

/-! ## Transactions -/

/-- The hash sets and maps that are iterated over. -/
inductive SetName (T : Type) where
  | pool
  | ancestors (txid : T)
  | children (txid : T)

/-- The order in which a hash set gives its elements. -/
structure SetOrder (T : Type) where
  toList : SetName T → Finset T → List T
  nodup : ∀ name s, (toList name s).Nodup
  mem_toList : ∀ name s t, t ∈ toList name s ↔ t ∈ s

/-- `u64::saturating_add`. -/
def addU64 (a b : ℕ) : ℕ := min (a + b) (2 ^ 64 - 1)

/-- `u64::saturating_mul`. -/
def mulU64 (a b : ℕ) : ℕ := min (a * b) (2 ^ 64 - 1)

/-- `MempoolTransactionStruct`, as far as the templates read it. `inputs` has one entry for each input. -/
structure MempoolTransactionStruct (T O : Type) where
  feeSat : ℕ
  weight : ℕ
  vsize : ℕ
  feeRate : F64
  inputs : List T
  spentOutpoints : List O

/-- `MinerTx`. -/
structure MinerTx (T O : Type) where
  fee : ℕ
  weight : ℕ
  adjustedVsize : ℕ
  feeRate : F64
  dependencyRate : F64
  inputs : List T
  spentOutpoints : List O
  ancestors : Finset T
  children : Finset T
  ancestorFee : ℕ
  ancestorVsize : ℕ
  score : F64
  used : Bool
  modified : Bool

section
variable {T O : Type} [LinearOrder T] [DecidableEq O]

/-- The mempool. -/
abbrev MempoolTxs (T O : Type) := Table T (MempoolTransactionStruct T O)

/-- The transactions that are worked on. -/
abbrev Pool (T O : Type) := Table T (MinerTx T O)

/-- A transaction before its relatives are known. -/
def minerTx (tx : MempoolTransactionStruct T O) (inputs : List T) : MinerTx T O :=
  let adjustedVsize := max tx.vsize 1
  { fee := tx.feeSat
    weight := max tx.weight (adjustedVsize * 4 % 2 ^ 64)
    adjustedVsize := adjustedVsize
    feeRate := tx.feeRate
    dependencyRate := tx.feeRate
    inputs := inputs
    spentOutpoints := tx.spentOutpoints
    ancestors := ∅
    children := ∅
    ancestorFee := tx.feeSat
    ancestorVsize := adjustedVsize
    score := tx.feeRate
    used := false
    modified := false }

/-- The parents in the pool, each once. -/
def poolParents (txs : MempoolTxs T O) : List T → Finset T → List T
  | [], _ => []
  | parent :: inputs, seen =>
    if (txs.get parent).isSome && decide (parent ∉ seen) then
      parent :: poolParents txs inputs (insert parent seen)
    else poolParents txs inputs seen

variable (arith : F64.Arith) (order : SetOrder T)

/-- Collect the transactions of a mempool. -/
def collectPool (txs : MempoolTxs T O) (inputs : MempoolTransactionStruct T O → List T) :
    Pool T O :=
  (order.toList .pool txs.keys).foldl (fun pool txid =>
    match txs.get txid with
    | some tx => pool.put txid (minerTx tx (inputs tx))
    | none => pool) ∅

/-- The pool of `calculate_block_templates`. -/
def startPool (txs : MempoolTxs T O) : Pool T O :=
  collectPool order txs fun tx => poolParents txs tx.inputs ∅

/-- The pool of `old_calculate_block_templates`. -/
def oldStartPool (txs : MempoolTxs T O) : Pool T O :=
  collectPool order txs fun tx => tx.inputs.filter fun parent => (txs.get parent).isSome

/-! ## Relatives -/

variable (pool : Pool T O) (txid : T)

/-- The inputs of a transaction. -/
def inputsOf : List T := ((pool.get txid).map MinerTx.inputs).getD []

/-- `ancestor_fee` and `ancestor_vsize`. -/
def ancestorTotals (ancestors : Finset T) : ℕ × ℕ :=
  (order.toList (.ancestors txid) ancestors).foldl (fun totals ancestor =>
    match pool.get ancestor with
    | some parent => (addU64 totals.1 parent.fee, addU64 totals.2 parent.adjustedVsize)
    | none => totals)
    (((pool.get txid).map MinerTx.fee).getD 0, ((pool.get txid).map MinerTx.adjustedVsize).getD 1)

/-- Store the ancestors of a transaction. -/
def setAncestors (ancestors : Finset T) : Pool T O :=
  let totals := ancestorTotals order pool txid ancestors
  pool.modify txid fun tx =>
    { tx with
      ancestors := ancestors
      ancestorFee := totals.1
      ancestorVsize := max totals.2 1
      score := arith.ratio totals.1 (max totals.2 1) }

/-- Put a transaction among the children of a parent. -/
def addChild (parent txid : T) : Pool T O :=
  pool.modify parent fun tx => { tx with children := insert txid tx.children }

/-- One parent of a transaction that is finalised, in `compute_relatives`. -/
def linkParent (acc : Pool T O × Finset T) (parent : T) : Pool T O × Finset T :=
  match acc.1.get parent with
  | none => acc
  | some parentTx => (addChild acc.1 parent txid, insert parent acc.2 ∪ parentTx.ancestors)

/-- A transaction is finalised in `compute_relatives`. -/
def finalise : Pool T O :=
  let linked := (inputsOf pool txid).foldl (linkParent txid) (pool, ∅)
  setAncestors arith order linked.1 txid linked.2

/-- The variables of `compute_relatives`; the first element of the stack is its top. -/
structure RelState (T O : Type) where
  pool : Pool T O
  done : Finset T
  inProgress : Finset T
  stack : List (T × Bool)

/-- One turn of the loop over the stack. -/
def relTurn (st : RelState T O) : Turn (RelState T O) :=
  match st.stack with
  | [] => .exit st
  | (txid, expanded) :: stack =>
    if txid ∈ st.done then .next { st with stack := stack }
    else if !expanded then
      if txid ∈ st.inProgress then .next { st with stack := stack }
      else
        let inProgress := insert txid st.inProgress
        let parents := (inputsOf st.pool txid).filter fun parent =>
          decide (parent ∉ st.done) && decide (parent ∉ inProgress)
        .next
          { st with
            inProgress := inProgress
            stack := (parents.map fun parent => (parent, false)).reverse ++ (txid, true) :: stack }
    else
      .next
        { pool := finalise arith order st.pool txid
          done := insert txid st.done
          inProgress := st.inProgress.erase txid
          stack := stack }

/-- Enough turns for one root. -/
def relBound : ℕ := 2 + ∑ txid ∈ pool.keys, ((inputsOf pool txid).length + 1)

/-- `compute_relatives`. -/
def computeRelatives : Option (Pool T O) :=
  ((order.toList .pool pool.keys).foldlM (fun st root =>
    if root ∈ st.done then some st
    else loop (fun st => some (relTurn arith order st)) (relBound pool) { st with stack := [(root, false)] })
    (⟨pool, ∅, ∅, []⟩ : RelState T O)).map RelState.pool

/-- One parent in `old_set_relatives`; `visit` is the recursive call. The loop has the pool, `visiting` and the
ancestors. -/
def visitParent (visit : T → Pool T O → Finset T → Option (Pool T O × Finset T)) (txid : T)
    (acc : (Pool T O × Finset T) × Finset T) (parent : T) : Option ((Pool T O × Finset T) × Finset T) :=
  if (acc.1.1.get parent).isNone then some acc
  else
    (visit parent acc.1.1 acc.1.2).map fun visited =>
      let ancestors := ((visited.1.get parent).map MinerTx.ancestors).getD ∅
      ((addChild visited.1 parent txid, visited.2), insert parent acc.2 ∪ ancestors)

/-- `old_set_relatives`, with a bound on the depth: the pool and `visiting`. -/
def oldSetRelatives : ℕ → T → Pool T O → Finset T → Option (Pool T O × Finset T)
  | 0, _, _, _ => none
  | depth + 1, txid, pool, visiting =>
    if txid ∈ visiting then some (pool, visiting)
    else
      ((inputsOf pool txid).foldlM (visitParent (oldSetRelatives depth) txid)
        ((pool, insert txid visiting), ∅)).map fun acc =>
          (setAncestors arith order acc.1.1 txid acc.2, acc.1.2.erase txid)

/-- The relatives in `old_calculate_block_templates`. -/
def oldRelatives : Option (Pool T O) :=
  (order.toList .pool pool.keys).foldlM (fun pool' txid =>
    (oldSetRelatives arith order (pool.card + 1) txid pool' ∅).map Prod.fst) pool

/-! ## The order of transactions -/

/-- The score of a transaction. -/
def scoreOf : F64 := ((pool.get txid).map MinerTx.score).getD .zero

/-- How `mempool_array` and the vector of modified transactions are sorted. -/
def scoreCmp (a b : T) : Ordering :=
  (((scoreOf pool b).partialCmp (scoreOf pool a)).getD .eq).then (compare a b)

/-- `sort_by`. -/
def sortByScore (txids : List T) : List T :=
  txids.insertionSort fun a b => scoreCmp pool a b ≠ .gt

/-! ## The queue of modified transactions -/

/-- `ModifiedEntry`. -/
structure ModifiedEntry (T : Type) where
  score : F64
  txid : T
  deriving DecidableEq

/-- `cmp`: the higher score is greater, then the smaller txid. -/
def ModifiedEntry.cmp (a b : ModifiedEntry T) : Ordering :=
  (a.score.totalCmp b.score).then (compare b.txid a.txid)

/-- `ModifiedQueue`. The heap is its entries from the greatest to the smallest. -/
structure ModifiedQueue (T : Type) [DecidableEq T] where
  heap : List (ModifiedEntry T)
  count : Table T ℕ

namespace ModifiedQueue

/-- `new`. -/
def empty : ModifiedQueue T := ⟨[], ∅⟩

variable (q : ModifiedQueue T) (txid : T)

/-- How many times a transaction is queued. -/
def countOf : ℕ := (q.count.get txid).getD 0

variable (pool : Pool T O)

/-- `push_entry`. -/
def pushEntry : ModifiedQueue T :=
  match pool.get txid with
  | some tx => { q with heap := q.heap.orderedInsert (fun a b => a.cmp b ≠ .lt) ⟨tx.score, txid⟩ }
  | none => q

/-- `enqueue`. -/
def enqueue : ModifiedQueue T :=
  pushEntry { q with count := q.count.put txid (q.countOf txid + 1) } txid pool

/-- `rekey`. -/
def rekey : ModifiedQueue T :=
  if 0 < q.countOf txid then q.pushEntry txid pool else q

/-- `is_valid`. -/
def isValid (entry : ModifiedEntry T) (pool : Pool T O) : Bool :=
  decide (0 < q.countOf entry.txid) && ((pool.get entry.txid).map fun tx => decide (tx.score = entry.score)).getD false

/-- `clean`. -/
def clean : ModifiedQueue T :=
  { q with heap := q.heap.dropWhile fun entry => !q.isValid entry pool }

/-- `peek`. -/
def peek : Option T × ModifiedQueue T :=
  let q := q.clean pool
  (q.heap.head?.map ModifiedEntry.txid, q)

/-- `pop`, when the transaction is not needed. -/
def pop : ModifiedQueue T :=
  let q := q.clean pool
  match q.heap with
  | [] => q
  | entry :: heap =>
    let remaining := q.countOf entry.txid - 1
    let q := { heap := heap.dropWhile fun top => decide (top.cmp entry = .eq)
               count := q.count.put entry.txid remaining : ModifiedQueue T }
    if 0 < remaining then q.pushEntry entry.txid pool else q

/-- `is_empty`. -/
def isEmpty : Bool × ModifiedQueue T :=
  let q := q.clean pool
  (q.heap.isEmpty, q)

end ModifiedQueue

/-! ## Descendants -/

/-- The children of a transaction, as they are pushed to a stack: the last one is on top. -/
def childrenOf : List T :=
  (((pool.get txid).map fun tx => order.toList (.children txid) tx.children).getD []).reverse

variable (root : T)

/-- A descendant without a root that has been placed. -/
def withoutAncestor (rootFee rootVsize : ℕ) (clusterRate : F64) (tx : MinerTx T O) : MinerTx T O :=
  let ancestorFee := tx.ancestorFee - rootFee
  let ancestorVsize := max (tx.ancestorVsize - rootVsize) 1
  { tx with
    ancestors := tx.ancestors.erase root
    ancestorFee := ancestorFee
    ancestorVsize := ancestorVsize
    score := arith.ratio ancestorFee ancestorVsize
    dependencyRate := arith.min tx.dependencyRate clusterRate }

/-- The variables of `update_descendants`, for a queue `Q`. -/
structure DescState (T O Q : Type) where
  pool : Pool T O
  modified : Q
  stack : List T
  seen : Finset T

/-- One turn of the loop in `update_descendants`. -/
def descTurn (rootFee rootVsize : ℕ) (clusterRate : F64) (st : DescState T O (ModifiedQueue T)) :
    Turn (DescState T O (ModifiedQueue T)) :=
  match st.stack with
  | [] => .exit st
  | child :: stack =>
    if child ∈ st.seen then .next { st with stack := stack }
    else
      let seen := insert child st.seen
      match st.pool.get child with
      | none => .next { st with stack := stack, seen := seen }
      | some childTx =>
        let stack := childrenOf order st.pool child ++ stack
        if root ∈ childTx.ancestors then
          let changed := withoutAncestor arith root rootFee rootVsize clusterRate childTx
          let pool := st.pool.put child { changed with modified := true }
          let modified := if !childTx.modified then st.modified.enqueue child pool else st.modified.rekey child pool
          .next { pool := pool, modified := modified, stack := stack, seen := seen }
        else .next { st with stack := stack, seen := seen }

/-- Enough turns to visit all descendants. -/
def descBound : ℕ :=
  1 + (childrenOf order pool root).length + ∑ txid ∈ pool.keys, (childrenOf order pool txid).length

/-- `update_descendants`. -/
def updateDescendants (pool : Pool T O) (modified : ModifiedQueue T) (clusterRate : F64) :
    Option (Pool T O × ModifiedQueue T) :=
  match pool.get root with
  | none => some (pool, modified)
  | some rootTx =>
    (loop (fun st => some (descTurn arith order root rootTx.fee rootTx.adjustedVsize clusterRate st))
      (descBound order pool root) ⟨pool, modified, childrenOf order pool root, ∅⟩).map fun st =>
        (st.pool, st.modified)

/-- One turn of the loop in `old_update_descendants`. -/
def oldDescTurn (clusterRate : F64) (st : DescState T O (List T)) : Turn (DescState T O (List T)) :=
  match st.stack with
  | [] => .exit st
  | child :: stack =>
    if child ∈ st.seen then .next { st with stack := stack }
    else
      let seen := insert child st.seen
      let stack := childrenOf order st.pool child ++ stack
      match st.pool.get root, st.pool.get child with
      | some rootTx, some childTx =>
        if root ∈ childTx.ancestors then
          let changed := withoutAncestor arith root rootTx.fee rootTx.adjustedVsize clusterRate childTx
          let pool := st.pool.put child changed
          if !changed.modified then
            .next
              { pool := pool.put child { changed with modified := true }
                modified := st.modified ++ [child]
                stack := stack
                seen := seen }
          else .next { st with pool := pool, stack := stack, seen := seen }
        else .next { st with stack := stack, seen := seen }
      | _, _ => .next { st with stack := stack, seen := seen }

/-- `old_update_descendants`. -/
def oldUpdateDescendants (pool : Pool T O) (modified : List T) (clusterRate : F64) :
    Option (Pool T O × List T) :=
  (loop (fun st => some (oldDescTurn arith order root clusterRate st)) (descBound order pool root)
    ⟨pool, modified, childrenOf order pool root, ∅⟩).map fun st => (st.pool, st.modified)

/-! ## Templates -/

/-- What the loop does with its queue of modified transactions. -/
structure QueueOps (T O Q : Type) where
  /-- `modified.sort_by`, in the reference. -/
  sort : Q → Pool T O → Q
  isEmpty : Q → Pool T O → Bool × Q
  peek : Q → Pool T O → Option T × Q
  pop : Q → Pool T O → Q
  push : Q → T → Pool T O → Q
  updateDescendants : T → Pool T O → Q → F64 → Option (Pool T O × Q)

/-- The operations of `ModifiedQueue`. -/
def queueOps : QueueOps T O (ModifiedQueue T) where
  sort q _ := q
  isEmpty := ModifiedQueue.isEmpty
  peek := ModifiedQueue.peek
  pop := ModifiedQueue.pop
  push := ModifiedQueue.enqueue
  updateDescendants := updateDescendants arith order

/-- The operations of the vector in the reference. -/
def oldQueueOps : QueueOps T O (List T) where
  sort modified pool := sortByScore pool modified
  isEmpty modified _ := (modified.isEmpty, modified)
  peek modified _ := (modified.head?, modified)
  pop modified _ := modified.tail
  push modified txid _ := modified ++ [txid]
  updateDescendants := oldUpdateDescendants arith order

/-- The variables of the loop. -/
structure TemplateState (T O Q : Type) [DecidableEq T] where
  pool : Pool T O
  mempoolArray : List T
  blocks : List (List T)
  block : List T
  blockWeight : ℕ
  modified : Q
  overflow : List T
  failures : ℕ
  top : ℕ
  spentOutpoints : Finset O
  effectiveRates : Table T F64

section
variable {Q : Type} (ops : QueueOps T O Q) (arith : F64.Arith) (order : SetOrder T) (pool : Pool T O)

/-- The position of the next transaction that is neither used nor modified. -/
def skipTop (mempoolArray : List T) (top : ℕ) : ℕ :=
  top + ((mempoolArray.drop top).takeWhile fun txid =>
    ((pool.get txid).map fun tx => tx.used || tx.modified).getD true).length

variable (st : TemplateState T O Q)

/-- The next transaction, from the array or from the queue. -/
def takeNext : Option T × TemplateState T O Q :=
  let nextPool := st.mempoolArray[st.top]?
  let (nextModified, modified) := ops.peek st.modified st.pool
  let st := { st with modified := modified }
  match nextPool, nextModified with
  | some poolTx, some modTx =>
    if (scoreOf st.pool poolTx).partialCmp (scoreOf st.pool modTx) = some .gt then
      (some poolTx, { st with top := st.top + 1 })
    else (some modTx, { st with modified := ops.pop st.modified st.pool })
  | some poolTx, none => (some poolTx, { st with top := st.top + 1 })
  | none, some modTx => (some modTx, { st with modified := ops.pop st.modified st.pool })
  | none, none => (none, st)

/-- The ancestors of a transaction by the number of theirs, and the transaction. -/
def packageOf (txid : T) (tx : MinerTx T O) : List T :=
  (order.toList (.ancestors txid) tx.ancestors).insertionSort (fun a b =>
    ((pool.get a).map fun tx => tx.ancestors.card).getD 0 ≤ ((pool.get b).map fun tx => tx.ancestors.card).getD 0)
    ++ [txid]

/-- A transaction of the package spends an outpoint that is spent. -/
def packageConflicts (spentOutpoints : Finset O) (package : List T) : Bool :=
  package.any fun txid =>
    ((pool.get txid).map fun tx => tx.spentOutpoints.any fun o => decide (o ∈ spentOutpoints)).getD false

/-- Place one transaction of a package; those that were placed are collected. -/
def placeTx (effectiveRate : F64) (acc : TemplateState T O Q × List T) (txid : T) :
    TemplateState T O Q × List T :=
  match acc.1.pool.get txid with
  | none => acc
  | some tx =>
    if tx.used then acc
    else
      ({ acc.1 with
          pool := acc.1.pool.put txid { tx with used := true, feeRate := effectiveRate }
          spentOutpoints := acc.1.spentOutpoints ∪ tx.spentOutpoints.toFinset
          effectiveRates := acc.1.effectiveRates.put txid effectiveRate
          blockWeight := addU64 acc.1.blockWeight tx.weight
          block := acc.1.block ++ [txid] }, acc.2 ++ [txid])

/-- Place a package. -/
def placePackage (package : List T) (effectiveRate : F64) : Option (TemplateState T O Q) :=
  let (st, used) := package.foldl (placeTx effectiveRate) (st, [])
  (used.foldlM (fun (acc : Pool T O × Q) txid => ops.updateDescendants txid acc.1 acc.2 effectiveRate)
    (st.pool, st.modified)).map fun acc => { st with pool := acc.1, modified := acc.2, failures := 0 }

/-- Put one transaction back that did not fit. -/
def returnOverflow (txid : T) : TemplateState T O Q :=
  if ((st.pool.get txid).map MinerTx.modified).getD false then
    { st with modified := ops.push st.modified txid st.pool }
  else
    let top := st.top - 1
    { st with
      top := top
      mempoolArray := if top < st.mempoolArray.length then st.mempoolArray.set top txid else st.mempoolArray }

/-- The end of a turn: whether the block is closed. -/
def closeBlock (maxBlocks weightLimit : ℕ) (st : TemplateState T O Q) : Turn (TemplateState T O Q) :=
  let exceededTries := decide (1000 < st.failures) && decide (weightLimit - 4000 < st.blockWeight)
  let (queueEmpty, st) :=
    if st.mempoolArray.length ≤ st.top then
      let (empty, modified) := ops.isEmpty st.modified st.pool
      (empty, { st with modified := modified })
    else (false, st)
  if (exceededTries || queueEmpty) && decide (st.blocks.length < maxBlocks - 1) then
    if st.block.isEmpty then .exit st
    else
      let st' := { st with
        blocks := st.blocks ++ [st.block]
        block := []
        blockWeight := 4000
        overflow := [] }
      .next (st.overflow.reverse.foldl (returnOverflow ops) st')
  else .next st

/-- What is done with the next transaction. The flag says that the end of the turn is skipped. -/
def handleNext (maxBlocks weightLimit : ℕ) (st : TemplateState T O Q) (nextTxid : T) :
    Option (TemplateState T O Q × Bool) :=
  match st.pool.get nextTxid with
  | none => some (st, true)
  | some nextTx =>
    if nextTx.used then some (st, true)
    else if maxBlocks - 1 ≤ st.blocks.length ∨
        addU64 st.blockWeight (mulU64 nextTx.ancestorVsize 4) < weightLimit then
      let package := packageOf order st.pool nextTxid nextTx
      if packageConflicts st.pool st.spentOutpoints package then
        some ({ st with
          pool := st.pool.put nextTxid { nextTx with used := true }
          failures := st.failures + 1 }, true)
      else
        let effectiveRate :=
          arith.min nextTx.dependencyRate (arith.ratio nextTx.ancestorFee (max nextTx.ancestorVsize 1))
        (placePackage ops st package effectiveRate).map fun st => (st, false)
    else some ({ st with overflow := st.overflow ++ [nextTxid], failures := st.failures + 1 }, false)

/-- The condition of the loop. -/
def hasNext : Bool × TemplateState T O Q :=
  if st.top < st.mempoolArray.length then (true, st)
  else
    let (empty, modified) := ops.isEmpty st.modified st.pool
    (!empty, { st with modified := modified })

/-- One turn of the loop. -/
def templateTurn (maxBlocks weightLimit : ℕ) (st : TemplateState T O Q) :
    Option (Turn (TemplateState T O Q)) :=
  let (more, st) := hasNext ops st
  if !more then some (.exit st)
  else
    let st := { st with top := skipTop st.pool st.mempoolArray st.top }
    let st := { st with modified := ops.sort st.modified st.pool }
    let (next, st) := takeNext ops st
    match next with
    | none => some (closeBlock ops maxBlocks weightLimit st)
    | some nextTxid =>
      (handleNext ops arith order maxBlocks weightLimit st nextTxid).map fun (st, skip) =>
        if skip then .next st else closeBlock ops maxBlocks weightLimit st

/-- Enough turns: between two closed blocks every transaction is taken at most twice. -/
def templateBound (maxBlocks : ℕ) : ℕ := (maxBlocks + 1) * (2 * pool.card + 1)

/-- The variables before the loop. -/
def templateStart (order : SetOrder T) (empty : Q) (pool : Pool T O) : TemplateState T O Q where
  pool := pool
  mempoolArray := sortByScore pool (order.toList .pool pool.keys)
  blocks := []
  block := []
  blockWeight := 4000
  modified := empty
  overflow := []
  failures := 0
  top := 0
  spentOutpoints := ∅
  effectiveRates := ∅

/-- The templates of a pool with its relatives. -/
def templatesOf (empty : Q) (pool : Pool T O) (maxBlocks weightLimit : ℕ) :
    Option (List (List T) × Table T F64) :=
  (loop (templateTurn ops arith order maxBlocks weightLimit) (templateBound pool maxBlocks)
    (templateStart order empty pool)).map fun st =>
      (if st.block.isEmpty then st.blocks else st.blocks ++ [st.block], st.effectiveRates)

end

/-- `calculate_block_templates`. -/
def calculateBlockTemplates (txs : MempoolTxs T O) (maxBlocks weightLimit : ℕ) :
    Option (List (List T) × Table T F64) :=
  (computeRelatives arith order (startPool order txs)).bind fun pool =>
    templatesOf (queueOps arith order) arith order .empty pool maxBlocks weightLimit

/-- `old_calculate_block_templates`. -/
def oldCalculateBlockTemplates (txs : MempoolTxs T O) (maxBlocks weightLimit : ℕ) :
    Option (List (List T) × Table T F64) :=
  (oldRelatives arith order (oldStartPool order txs)).bind fun pool =>
    templatesOf (oldQueueOps arith order) arith order [] pool maxBlocks weightLimit

end
end Espo.Mempool
