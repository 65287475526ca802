import Espo.Mempool.Queues

/-!
# Descendants

`update_descendants` and `old_update_descendants` visit the same transactions in the same order and change them in
the same way, and their queues stay related. The walk ends because every transaction is visited once. It does
not add work to the main loop: a transaction that is queued here was not modified before.
-/

namespace Espo.Mempool
open Lib List

variable {T O : Type} [LinearOrder T]

/-! ## A transaction changes -/

section
variable {pool : Pool T O} {q : ModifiedQueue T} {l : List T} {child : T} (tx : MinerTx T O)

lemma entryOf_put_of_ne {t : T} (h : t ≠ child) : entryOf (pool.put child tx) t = entryOf pool t := by
  rw [entryOf, entryOf, scoreOf, scoreOf, Table.get_put_of_ne pool tx h]

section
variable (h : QueueRel pool q l)
include h

lemma QueueRel.inPool_put : ∀ t ∈ l, ∃ tx', (pool.put child tx).get t = some tx' := by
  intro t ht
  rw [Table.get_put]
  split_ifs
  · exact ⟨tx, rfl⟩
  · exact h.inPool t ht

lemma QueueRel.rekey : QueueRel (pool.put child tx) (q.rekey child (pool.put child tx)) l := by
  unfold ModifiedQueue.rekey
  split_ifs with hqueued
  · obtain ⟨hcount, hmem, hkeep⟩ := heap_pushEntry (Table.get_put_self pool child tx) q
    refine ⟨fun t => ?_, h.inPool_put tx, fun t ht => (hmem _).2 ?_, hkeep h.sorted⟩
    · rw [ModifiedQueue.countOf, hcount]
      exact h.count t
    · by_cases hne : t = child
      · exact .inl (by rw [hne])
      · exact .inr (by rw [entryOf_put_of_ne tx hne]; exact h.entry t ht)
  · refine ⟨h.count, h.inPool_put tx, fun t ht => ?_, h.sorted⟩
    have hne : t ≠ child := by
      rintro rfl
      rw [h.count] at hqueued
      exact hqueued (count_pos_iff.2 ht)
    rw [entryOf_put_of_ne tx hne]
    exact h.entry t ht

lemma QueueRel.enqueue_put :
    QueueRel (pool.put child tx) (q.enqueue child (pool.put child tx)) (l ++ [child]) := by
  obtain ⟨hcount, hmem, hkeep⟩ := heap_pushEntry (Table.get_put_self pool child tx)
    { q with count := q.count.put child (q.countOf child + 1) }
  refine ⟨fun t => ?_, fun t ht => ?_, fun t ht => (hmem _).2 ?_, hkeep h.sorted⟩
  · rw [ModifiedQueue.enqueue, ModifiedQueue.countOf, hcount, Table.get_put, count_append, ← h.count]
    split_ifs with heq
    · subst heq
      simp
    · simp [Ne.symm heq, ModifiedQueue.countOf]
  · rcases mem_append.1 ht with ht | ht
    · exact h.inPool_put tx t ht
    · rw [mem_singleton.1 ht]
      exact ⟨tx, Table.get_put_self pool child tx⟩
  · by_cases hne : t = child
    · exact .inl (by rw [hne])
    · rcases mem_append.1 ht with ht | ht
      · exact .inr (by rw [entryOf_put_of_ne tx hne]; exact h.entry t ht)
      · exact absurd (mem_singleton.1 ht) hne

lemma QueueRel.enqueue {tx : MinerTx T O} (htx : pool.get child = some tx) :
    QueueRel pool (q.enqueue child pool) (l ++ [child]) := by
  have hself : pool.put child tx = pool := by
    refine Table.ext_get fun t => ?_
    rw [Table.get_put]
    split_ifs with heq
    · rw [heq, htx]
    · rfl
  have hput : QueueRel (pool.put child tx) (q.enqueue child (pool.put child tx)) (l ++ [child]) :=
    h.enqueue_put tx
  rw [hself] at hput
  exact hput

end

end

/-! ## The walk -/

section
variable {arith : F64.Arith} {order : SetOrder T} {p₁ p₂ : Pool T O}

lemma SamePool.childrenOf_eq (h : SamePool p₁ p₂) (t : T) : childrenOf order p₁ t = childrenOf order p₂ t := by
  rw [childrenOf, childrenOf,
    h.map_eq (fun tx => order.toList (.children t) tx.children) fun _ _ => rfl]

lemma SamePool.descBound_eq (h : SamePool p₁ p₂) (root : T) : descBound order p₁ root = descBound order p₂ root := by
  unfold descBound
  rw [h.keys_eq, h.childrenOf_eq]
  congr 1
  exact Finset.sum_congr rfl fun t _ => by rw [h.childrenOf_eq]

/-- The two walks. -/
structure DescRel (root : T) (rootFee rootVsize : ℕ) (st₁ : DescState T O (ModifiedQueue T))
    (st₂ : DescState T O (List T)) : Prop where
  pool : SamePool st₁.pool st₂.pool
  plain : PlainScores st₁.pool
  queue : QueueRel st₁.pool st₁.modified st₂.modified
  stack : st₁.stack = st₂.stack
  seen : st₁.seen = st₂.seen
  /-- What the walk takes from the root stays. -/
  root : ∃ tx, st₂.pool.get root = some tx ∧ tx.fee = rootFee ∧ tx.adjustedVsize = rootVsize

lemma PlainScores.put {pool : Pool T O} (h : PlainScores pool) (t : T) {tx : MinerTx T O} (htx : tx.score.Plain) :
    PlainScores (pool.put t tx) := by
  intro t' tx' hget
  rw [Table.get_put] at hget
  split_ifs at hget
  · exact Option.some.inj hget ▸ htx
  · exact h t' tx' hget

lemma withoutAncestor_plain (root : T) (rootFee rootVsize : ℕ) (rate : F64) (tx : MinerTx T O) :
    (withoutAncestor arith root rootFee rootVsize rate tx).score.Plain :=
  arith.ratio_plain _ _ (by omega)

/-- A descendant after a turn that changes it. -/
def changedTx (arith : F64.Arith) (root : T) (rootFee rootVsize : ℕ) (rate : F64) (tx : MinerTx T O) :
    MinerTx T O :=
  { withoutAncestor arith root rootFee rootVsize rate tx with modified := true }

lemma descTurn_cons {root child : T} {rootFee rootVsize : ℕ} {rate : F64}
    {st : DescState T O (ModifiedQueue T)} {stack : List T} (hstack : st.stack = child :: stack)
    (hseen : child ∉ st.seen) {tx : MinerTx T O} (htx : st.pool.get child = some tx) :
    descTurn arith order root rootFee rootVsize rate st = .next
      (if root ∈ tx.ancestors then
        let pool := st.pool.put child (changedTx arith root rootFee rootVsize rate tx)
        { pool := pool
          modified := if tx.modified then st.modified.rekey child pool else st.modified.enqueue child pool
          stack := childrenOf order st.pool child ++ stack
          seen := insert child st.seen }
      else { st with stack := childrenOf order st.pool child ++ stack, seen := insert child st.seen }) := by
  simp only [descTurn, hstack, if_neg hseen, htx]
  by_cases hmem : root ∈ tx.ancestors
  · simp only [if_pos hmem]
    cases hmodified : tx.modified <;> rfl
  · simp only [if_neg hmem]

lemma oldDescTurn_cons {root child : T} {rate : F64} {st : DescState T O (List T)} {stack : List T}
    (hstack : st.stack = child :: stack) (hseen : child ∉ st.seen) {rootTx tx : MinerTx T O}
    (hroot : st.pool.get root = some rootTx) (htx : st.pool.get child = some tx) :
    oldDescTurn arith order root rate st = .next
      (if root ∈ tx.ancestors then
        { pool := st.pool.put child (changedTx arith root rootTx.fee rootTx.adjustedVsize rate tx)
          modified := if tx.modified then st.modified else st.modified ++ [child]
          stack := childrenOf order st.pool child ++ stack
          seen := insert child st.seen }
      else { st with stack := childrenOf order st.pool child ++ stack, seen := insert child st.seen }) := by
  simp only [oldDescTurn, hstack, if_neg hseen, hroot, htx]
  by_cases hmem : root ∈ tx.ancestors
  · simp only [if_pos hmem]
    generalize hchanged : withoutAncestor arith root rootTx.fee rootTx.adjustedVsize rate tx = changed
    have hsame : changed.modified = tx.modified := hchanged ▸ rfl
    have hfinal : changedTx arith root rootTx.fee rootTx.adjustedVsize rate tx = { changed with modified := true } := by
      rw [changedTx, hchanged]
    rw [hsame, hfinal]
    cases hmodified : tx.modified with
    | false =>
      have hput : (st.pool.put child changed).put child { changed with modified := true }
          = st.pool.put child { changed with modified := true } := by
        refine Table.ext_get fun t => ?_
        simp only [Table.get_put]
        split_ifs <;> rfl
      simp only [hput]
      rfl
    | true =>
      have hself : changed = { changed with modified := true } := by
        rw [hmodified] at hsame
        rw [← hsame]
      simp only [Bool.not_true, Bool.false_eq_true, if_false, if_true, ← hself]
  · simp only [if_neg hmem]

variable (arith order) in
lemma DescRel.turn {root : T} {rootFee rootVsize : ℕ} {st₁ : DescState T O (ModifiedQueue T)}
    {st₂ : DescState T O (List T)} (rate : F64) (h : DescRel root rootFee rootVsize st₁ st₂) :
    TurnRel (DescRel root rootFee rootVsize) (DescRel root rootFee rootVsize)
      (descTurn arith order root rootFee rootVsize rate st₁) (oldDescTurn arith order root rate st₂) := by
  have hstack := h.stack
  obtain ⟨rootTx, hroot, rfl, rfl⟩ := h.root
  cases hst₂ : st₂.stack with
  | nil =>
    rw [hst₂] at hstack
    simp only [descTurn, oldDescTurn, hstack, hst₂]
    exact .exit h
  | cons child stack =>
    rw [hst₂] at hstack
    by_cases hseen : child ∈ st₂.seen
    · simp only [descTurn, oldDescTurn, hstack, hst₂, h.seen, if_pos hseen]
      exact .next ⟨h.pool, h.plain, h.queue, rfl, rfl, h.root⟩
    · have hseen₁ : child ∉ st₁.seen := by rwa [h.seen]
      rcases h.pool.cases child with ⟨h₁, h₂⟩ | ⟨tx, i, j, h₁, h₂⟩
      · have hnone : childrenOf order st₂.pool child = [] := by
          rw [childrenOf, h₂]
          rfl
        simp only [descTurn, oldDescTurn, hstack, hst₂, if_neg hseen, if_neg hseen₁, h₁, h₂, hroot, hnone]
        exact .next ⟨h.pool, h.plain, h.queue, rfl, by rw [h.seen], h.root⟩
      · rw [descTurn_cons hstack hseen₁ h₁, oldDescTurn_cons hst₂ hseen hroot h₂, h.pool.childrenOf_eq, h.seen]
        have hancestors : (MinerTx.withInputs tx i).ancestors = (MinerTx.withInputs tx j).ancestors := rfl
        rw [hancestors]
        by_cases hmem : root ∈ (MinerTx.withInputs tx j).ancestors
        · have hpool : SamePool
              (st₁.pool.put child (changedTx arith root rootTx.fee rootTx.adjustedVsize rate (MinerTx.withInputs tx i)))
              (st₂.pool.put child (changedTx arith root rootTx.fee rootTx.adjustedVsize rate (MinerTx.withInputs tx j))) :=
            h.pool.put child (changedTx arith root rootTx.fee rootTx.adjustedVsize rate tx) i j
          simp only [if_pos hmem]
          refine .next ⟨hpool, h.plain.put child (withoutAncestor_plain root _ _ rate _), ?_, rfl, rfl, ?_⟩
          · have hmodified : (MinerTx.withInputs tx i).modified = (MinerTx.withInputs tx j).modified := rfl
            dsimp only
            rw [hmodified]
            split_ifs
            · exact h.queue.rekey _
            · exact h.queue.enqueue_put _
          · dsimp only
            rw [Table.get_put]
            split_ifs with heq
            · subst heq
              rw [h₂] at hroot
              cases hroot
              exact ⟨_, rfl, rfl, rfl⟩
            · exact ⟨rootTx, hroot, rfl, rfl⟩
        · simp only [if_neg hmem]
          exact .next ⟨h.pool, h.plain, h.queue, rfl, rfl, h.root⟩

end

/-! ## The end of the walk -/

/-- The transactions that were not modified. -/
def unmodified (pool : Pool T O) : Finset T :=
  pool.keys.filter fun t => ((pool.get t).map MinerTx.modified).getD true = false

section
variable {pool : Pool T O}

lemma mem_unmodified {t : T} : t ∈ unmodified pool ↔ ∃ tx, pool.get t = some tx ∧ tx.modified = false := by
  rw [unmodified, Finset.mem_filter, Table.mem_keys]
  constructor
  · rintro ⟨⟨tx, htx⟩, hfalse⟩
    rw [htx] at hfalse
    exact ⟨tx, htx, hfalse⟩
  · rintro ⟨tx, htx, hfalse⟩
    rw [htx]
    exact ⟨⟨tx, rfl⟩, hfalse⟩

lemma unmodified_put {child : T} {tx : MinerTx T O} (htx : tx.modified = true) :
    unmodified (pool.put child tx) = (unmodified pool).erase child := by
  ext t
  rw [Finset.mem_erase, mem_unmodified, mem_unmodified, Table.get_put]
  split_ifs with heq
  · simp [heq, htx]
  · simp [heq]

lemma keys_put_of_get {child : T} {tx tx' : MinerTx T O} (htx : pool.get child = some tx) :
    (pool.put child tx').keys = pool.keys := by
  ext t
  rw [Table.mem_keys, Table.mem_keys, Table.get_put]
  split_ifs with heq
  · rw [heq, htx]
    simp
  · rfl

end

section
variable {arith : F64.Arith} {order : SetOrder T} {base : Pool T O} {root : T} {rate : F64}

/-- What the walk of the reference keeps. -/
structure WalkInv (order : SetOrder T) (base : Pool T O) (root : T) (total : ℕ) (st : DescState T O (List T)) :
    Prop where
  keys : st.pool.keys = base.keys
  children : ∀ t, childrenOf order st.pool t = childrenOf order base t
  /-- A transaction that is queued was not modified before. -/
  total : st.modified.length + (unmodified st.pool).card = total
  root : ∃ tx, st.pool.get root = some tx

/-- Work left: the entries of the stack, and the children of what was not seen yet. -/
def walkMeasure (order : SetOrder T) (base : Pool T O) (st : DescState T O (List T)) : ℕ :=
  st.stack.length + ∑ t ∈ base.keys \ st.seen, (childrenOf order base t).length

variable (order base) in
lemma walkMeasure_visit {seen : Finset T} {child : T} (hseen : child ∉ seen) :
    ∑ t ∈ base.keys \ insert child seen, (childrenOf order base t).length + (childrenOf order base child).length
      = ∑ t ∈ base.keys \ seen, (childrenOf order base t).length := by
  rw [Finset.sdiff_insert]
  by_cases hkey : child ∈ base.keys
  · exact Finset.sum_erase_add _ _ (Finset.mem_sdiff.2 ⟨hkey, hseen⟩)
  · have hnone : childrenOf order base child = [] := by
      rw [childrenOf, Table.notMem_keys.1 hkey]
      rfl
    have hnot : child ∉ base.keys \ seen := fun h => hkey (Finset.mem_sdiff.1 h).1
    rw [Finset.erase_eq_of_notMem hnot, hnone, length_nil, Nat.add_zero]

lemma WalkInv.put {total : ℕ} {st : DescState T O (List T)} (h : WalkInv order base root total st) {child : T}
    {tx tx' : MinerTx T O} (htx : st.pool.get child = some tx) (hchildren : tx'.children = tx.children)
    (hmodified : tx'.modified = true) (stack : List T) (seen : Finset T) :
    WalkInv order base root total
      { pool := st.pool.put child tx'
        modified := if tx.modified then st.modified else st.modified ++ [child]
        stack := stack
        seen := seen } := by
  refine ⟨(keys_put_of_get htx).trans h.keys, fun t => ?_, ?_, ?_⟩
  · rw [← h.children t, childrenOf, childrenOf, Table.get_put]
    split_ifs with heq
    · rw [heq, htx, Option.map_some, Option.map_some, hchildren]
    · rfl
  · rw [← h.total]
    rw [unmodified_put hmodified]
    split_ifs with hold
    · have hnot : child ∉ unmodified st.pool := by
        rw [mem_unmodified, htx]
        rintro ⟨tx'', heq, hfalse⟩
        rw [← Option.some.inj heq, hold] at hfalse
        cases hfalse
      rw [Finset.erase_eq_of_notMem hnot]
    · have hmem : child ∈ unmodified st.pool := mem_unmodified.2 ⟨tx, htx, Bool.eq_false_iff.2 hold⟩
      have hcard := Finset.card_erase_add_one hmem
      rw [length_append, length_singleton]
      omega
  · rw [Table.get_put]
    split_ifs
    · exact ⟨tx', rfl⟩
    · exact h.root

lemma WalkInv.turn {total : ℕ} {st : DescState T O (List T)} (h : WalkInv order base root total st) :
    (∃ st', some (oldDescTurn arith order root rate st) = some (.next st') ∧ WalkInv order base root total st' ∧
      walkMeasure order base st' < walkMeasure order base st) ∨
    ∃ st', some (oldDescTurn arith order root rate st) = some (.exit st') ∧ WalkInv order base root total st' := by
  cases hstack : st.stack with
  | nil => exact .inr ⟨st, by simp only [oldDescTurn, hstack], h⟩
  | cons child stack =>
    left
    have hlength : st.stack.length = stack.length + 1 := by rw [hstack]; rfl
    by_cases hseen : child ∈ st.seen
    · refine ⟨{ st with stack := stack }, by simp only [oldDescTurn, hstack, if_pos hseen],
        ⟨h.keys, h.children, h.total, h.root⟩, ?_⟩
      unfold walkMeasure
      dsimp only
      omega
    · have hless : ∀ st' : DescState T O (List T), st'.stack = childrenOf order st.pool child ++ stack →
          st'.seen = insert child st.seen → walkMeasure order base st' < walkMeasure order base st := by
        intro st' hstack' hseen'
        have hvisit := walkMeasure_visit order base hseen
        unfold walkMeasure
        rw [hstack', hseen', h.children, length_append]
        omega
      obtain ⟨rootTx, hroot⟩ := h.root
      cases hchild : st.pool.get child with
      | none =>
        refine ⟨{ st with stack := childrenOf order st.pool child ++ stack, seen := insert child st.seen },
          by simp only [oldDescTurn, hstack, if_neg hseen, hroot, hchild],
          ⟨h.keys, h.children, h.total, h.root⟩, hless _ rfl rfl⟩
      | some tx =>
        refine ⟨_, congrArg some (oldDescTurn_cons hstack hseen hroot hchild), ?_⟩
        have hsame : (changedTx arith root rootTx.fee rootTx.adjustedVsize rate tx).children = tx.children := rfl
        split
        · exact ⟨h.put hchild hsame rfl _ _, hless _ rfl rfl⟩
        · exact ⟨⟨h.keys, h.children, h.total, h.root⟩, hless _ rfl rfl⟩

variable (arith order rate) in
lemma oldUpdateDescendants_spec (hroot : ∃ tx, base.get root = some tx) (l : List T) :
    ∃ pool' l', oldUpdateDescendants arith order root base l rate = some (pool', l') ∧ pool'.keys = base.keys ∧
      l'.length + (unmodified pool').card = l.length + (unmodified base).card := by
  have hstart : WalkInv order base root (l.length + (unmodified base).card)
      ⟨base, l, childrenOf order base root, ∅⟩ := ⟨rfl, fun _ => rfl, rfl, hroot⟩
  have hbound : walkMeasure order base ⟨base, l, childrenOf order base root, ∅⟩ < descBound order base root := by
    unfold walkMeasure descBound
    dsimp only
    rw [Finset.sdiff_empty]
    omega
  obtain ⟨st, hst, hinv⟩ := loop_spec (fun _ h => h.turn) hstart hbound
  exact ⟨st.pool, st.modified, by rw [oldUpdateDescendants, hst]; rfl, hinv.keys, hinv.total⟩

variable (arith order) in
lemma updateDescendants_rel {p₁ p₂ : Pool T O} {q : ModifiedQueue T} {l : List T} (hpool : SamePool p₁ p₂)
    (hplain : PlainScores p₁) (hqueue : QueueRel p₁ q l) (root : T) (rate : F64) :
    ∃ p₁' q' p₂' l', updateDescendants arith order root p₁ q rate = some (p₁', q') ∧
      oldUpdateDescendants arith order root p₂ l rate = some (p₂', l') ∧ SamePool p₁' p₂' ∧ PlainScores p₁' ∧
      QueueRel p₁' q' l' ∧ p₂'.keys = p₂.keys ∧
      l'.length + (unmodified p₂').card = l.length + (unmodified p₂).card := by
  rcases hpool.cases root with ⟨h₁, h₂⟩ | ⟨tx, i, j, h₁, h₂⟩
  · have hchildren : childrenOf order p₂ root = [] := by
      rw [childrenOf, h₂]
      rfl
    refine ⟨p₁, q, p₂, l, by simp only [updateDescendants, h₁], ?_, hpool, hplain, hqueue, rfl, rfl⟩
    rw [oldUpdateDescendants, hchildren, descBound, Nat.add_assoc, Nat.add_comm 1, loop]
    rfl
  · obtain ⟨p₂', l', hold, hkeys, htotal⟩ := oldUpdateDescendants_spec arith order rate ⟨_, h₂⟩ l
    have hrel := loop_rel (fun st₁ st₂ h => .some (DescRel.turn arith order rate h))
      (descBound order p₂ root)
      (⟨hpool, hplain, hqueue, hpool.childrenOf_eq root, rfl, _, h₂, rfl, rfl⟩ :
        DescRel root tx.fee tx.adjustedVsize ⟨p₁, q, childrenOf order p₁ root, ∅⟩
          ⟨p₂, l, childrenOf order p₂ root, ∅⟩)
    obtain ⟨st₂, hst₂, heq⟩ := Option.map_eq_some_iff.1 hold
    obtain ⟨rfl, rfl⟩ := Prod.mk.inj heq
    rw [hst₂] at hrel
    generalize hst₁ : loop _ _ _ = r at hrel
    cases hrel with
    | some h =>
      rename_i st₁
      refine ⟨st₁.pool, st₁.modified, st₂.pool, st₂.modified, ?_, hold, h.pool, h.plain, h.queue, hkeys, htotal⟩
      have hfee : (MinerTx.withInputs tx i).fee = tx.fee := rfl
      have hvsize : (MinerTx.withInputs tx i).adjustedVsize = tx.adjustedVsize := rfl
      simp only [updateDescendants, h₁, hfee, hvsize, hpool.descBound_eq, hst₁]
      rfl

end

/-! ## What the walk changes -/

section
variable {arith : F64.Arith} {order : SetOrder T} {pool : Pool T O} {root : T} {rate : F64}

/-- The pool after the transactions of `V` were visited. -/
def Walked (arith : F64.Arith) (root : T) (rootTx : MinerTx T O) (rate : F64) (pool : Pool T O) (V : Finset T)
    (pool' : Pool T O) : Prop :=
  ∀ t, pool'.get t = (pool.get t).map fun tx => if t ∈ V ∧ root ∈ tx.ancestors then
    changedTx arith root rootTx.fee rootTx.adjustedVsize rate tx else tx

variable {rootTx : MinerTx T O} {pool' : Pool T O}

lemma Walked.childrenOf_eq {V : Finset T} (h : Walked arith root rootTx rate pool V pool') (t : T) :
    childrenOf order pool' t = childrenOf order pool t := by
  rw [childrenOf, h t, Option.map_map]
  refine congrArg (fun o => (Option.getD o []).reverse) (Option.map_congr fun tx _ => ?_)
  rw [Function.comp_apply]
  split_ifs <;> rfl

lemma Walked.visit {V : Finset T} (h : Walked arith root rootTx rate pool V pool') {child : T}
    (hnew : child ∉ V) {tx : MinerTx T O} (htx : pool'.get child = some tx) :
    Walked arith root rootTx rate pool (insert child V) (if root ∈ tx.ancestors then
      pool'.put child (changedTx arith root rootTx.fee rootTx.adjustedVsize rate tx) else pool') := by
  have hold : pool.get child = some tx := by
    have hget := h child
    simp only [hnew, false_and, if_false, Option.map_id'] at hget
    rw [← hget, htx]
  intro t
  by_cases heq : t = child
  · subst heq
    simp only [hold, Option.map_some, Finset.mem_insert_self, true_and]
    split_ifs
    · exact Table.get_put_self _ _ _
    · exact htx
  · simp only [Finset.mem_insert, heq, false_or]
    split_ifs
    · rw [Table.get_put_of_ne _ _ heq, h t]
    · exact h t

lemma descTurn_exit {rootFee rootVsize : ℕ} {st st' : DescState T O (ModifiedQueue T)}
    (h : descTurn arith order root rootFee rootVsize rate st = .exit st') : st.stack = [] ∧ st = st' := by
  unfold descTurn at h
  cases hstack : st.stack with
  | nil =>
    rw [hstack] at h
    exact ⟨rfl, Turn.exit.inj h⟩
  | cons child stack =>
    rw [hstack] at h
    dsimp only at h
    split_ifs at h
    cases htx : st.pool.get child with
    | none =>
      rw [htx] at h
      cases h
    | some tx =>
      rw [htx] at h
      dsimp only at h
      split_ifs at h

/-- `update_descendants` visits a set that is closed under children, and changes in it what has the root as an
ancestor. -/
theorem updateDescendants_walked {q q' : ModifiedQueue T} (hroot : pool.get root = some rootTx)
    (h : updateDescendants arith order root pool q rate = some (pool', q')) :
    ∃ V, Walked arith root rootTx rate pool V pool' ∧
      ∀ s, s = root ∨ s ∈ V → ∀ child ∈ childrenOf order pool s, child ∈ V := by
  simp only [updateDescendants, hroot] at h
  obtain ⟨st, hst, heq⟩ := Option.map_eq_some_iff.1 h
  obtain ⟨rfl, -⟩ := Prod.mk.inj heq
  refine loop_invariant
    (I := fun st : DescState T O (ModifiedQueue T) => Walked arith root rootTx rate pool st.seen st.pool ∧
      ∀ s, s = root ∨ s ∈ st.seen → ∀ child ∈ childrenOf order pool s, child ∈ st.seen ∨ child ∈ st.stack)
    (Q := fun st => ∃ V, Walked arith root rootTx rate pool V st.pool ∧
      ∀ s, s = root ∨ s ∈ V → ∀ child ∈ childrenOf order pool s, child ∈ V) ?_ ?_ ⟨?_, ?_⟩ hst
  · rintro st st' ⟨hwalked, hclosed⟩ hturn
    cases hstack : st.stack with
    | nil => simp [descTurn, hstack] at hturn
    | cons child stack =>
      rw [hstack] at hclosed
      -- The children of what is met now are on the stack.
      have hnext : ∀ above, (∀ c ∈ childrenOf order pool child, c ∈ above) → ∀ s, s = root ∨ s ∈ insert child st.seen →
          ∀ c ∈ childrenOf order pool s, c ∈ insert child st.seen ∨ c ∈ above ++ stack := by
        intro above habove s hs c hc
        have hcases : (s = root ∨ s ∈ st.seen) ∨ s = child := by
          rw [Finset.mem_insert] at hs
          tauto
        rcases hcases with hs | rfl
        · rcases hclosed s hs c hc with hseen | hmem
          · exact .inl (Finset.mem_insert_of_mem hseen)
          · exact (mem_cons.1 hmem).imp (fun heq => Finset.mem_insert.2 (.inl heq)) (mem_append_right _)
        · exact .inr (mem_append_left _ (habove c hc))
      by_cases hseen : child ∈ st.seen
      · simp only [descTurn, hstack, if_pos hseen] at hturn
        cases hturn
        refine ⟨hwalked, fun s hs c hc => ?_⟩
        rcases hclosed s hs c hc with hin | hmem
        · exact .inl hin
        · exact (mem_cons.1 hmem).imp (fun heq : c = child => heq ▸ hseen) id
      · cases htx : st.pool.get child with
        | none =>
          simp only [descTurn, hstack, if_neg hseen, htx] at hturn
          cases hturn
          have hnone : pool.get child = none := by
            have hget := hwalked child
            rwa [htx, eq_comm, Option.map_eq_none_iff] at hget
          refine ⟨fun t => ?_, hnext [] fun c hc => ?_⟩
          · rw [hwalked t]
            by_cases heq : t = child
            · rw [heq, hnone]
              rfl
            · simp only [Finset.mem_insert, heq, false_or]
          · rw [childrenOf, hnone] at hc
            exact hc
        | some tx =>
          rw [descTurn_cons hstack hseen htx, hwalked.childrenOf_eq] at hturn
          have hvisit := hwalked.visit hseen htx
          have hnext' := hnext (childrenOf order pool child) fun _ hc => hc
          split_ifs at hturn hvisit <;> cases hturn <;> exact ⟨hvisit, hnext'⟩
  · rintro st st' ⟨hwalked, hclosed⟩ hturn
    obtain ⟨hstack, rfl⟩ := descTurn_exit (Option.some.inj hturn)
    refine ⟨st.seen, hwalked, fun s hs c hc => (hclosed s hs c hc).resolve_right ?_⟩
    rw [hstack]
    exact not_mem_nil
  · intro t
    simp
  · rintro s (rfl | hs) c hc
    · exact .inr hc
    · exact absurd hs (Finset.notMem_empty s)

end
end Espo.Mempool
