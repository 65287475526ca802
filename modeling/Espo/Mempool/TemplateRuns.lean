import Espo.Mempool.Descendants
import Espo.Mempool.Totals

/-!
# Both versions give the same templates

The main loops of `calculate_block_templates` and `old_calculate_block_templates` run in step. Their states
differ in the pool, where the inputs are not the same, and in the queue of modified transactions (`QueuesRel`);
all other variables are equal. Every function of the loop keeps that.

The loop ends: `work` counts what can still be taken without a transaction being put back. A turn takes one,
and what is put back when a block is closed was taken since the last one was. The number of blocks is bounded.
-/

namespace Espo.Mempool
open Lib List

variable {T O : Type} [LinearOrder T]

/-! ## Related states -/

/-- Pools and queues of the two versions. -/
structure QueuesRel (p₁ : Pool T O) (q : ModifiedQueue T) (p₂ : Pool T O) (l : List T) : Prop where
  pool : SamePool p₁ p₂
  plain : PlainScores p₁
  queue : QueueRel p₁ q l

/-- The variables with a pool and a queue put in. -/
def TemplateState.fill {Q : Type} (c : TemplateState T O Unit) (pool : Pool T O) (modified : Q) :
    TemplateState T O Q :=
  { c with pool := pool, modified := modified }

/-- The variables of the two versions. -/
inductive TemplateRel : TemplateState T O (ModifiedQueue T) → TemplateState T O (List T) → Prop
  | mk (c : TemplateState T O Unit) {p₁ p₂ : Pool T O} {q : ModifiedQueue T} {l : List T}
      (h : QueuesRel p₁ q p₂ l) : TemplateRel (c.fill p₁ q) (c.fill p₂ l)

variable (st : TemplateState T O (List T))

/-- What can still be taken: the rest of the array, the queue, and what may be queued. -/
def work : ℕ :=
  (st.mempoolArray.length - st.top) + st.modified.length + (unmodified st.pool).card

variable (arith : F64.Arith) (order : SetOrder T) {p₁ p₂ : Pool T O} {q : ModifiedQueue T} {l : List T}
  {st₁ : TemplateState T O (ModifiedQueue T)} {st₂ : TemplateState T O (List T)}

lemma QueueRel.put_of_score (h : QueueRel p₁ q l) {t : T} {tx tx' : MinerTx T O} (htx : p₁.get t = some tx)
    (hscore : tx'.score = tx.score) : QueueRel (p₁.put t tx') q l := by
  refine ⟨h.count, h.inPool_put tx', fun t' ht' => ?_, h.sorted⟩
  have hsame : entryOf (p₁.put t tx') t' = entryOf p₁ t' := by
    by_cases heq : t' = t
    · rw [entryOf, entryOf, heq, scoreOf_of_get htx, scoreOf_of_get (Table.get_put_self p₁ t tx'), hscore]
    · exact entryOf_put_of_ne tx' heq
  rw [hsame]
  exact h.entry t' ht'

lemma QueuesRel.put (h : QueuesRel p₁ q p₂ l) {t : T} {tx : MinerTx T O} (tx' : MinerTx T O) {i : List T}
    (j : List T) (h₁ : p₁.get t = some (tx.withInputs i)) (hscore : tx'.score = tx.score) :
    QueuesRel (p₁.put t (tx'.withInputs i)) q (p₂.put t (tx'.withInputs j)) l where
  pool := h.pool.put t tx' i j
  plain := h.plain.put t (by
    have hplain := h.plain t _ h₁
    show tx'.score.Plain
    rw [hscore]
    exact hplain)
  queue := h.queue.put_of_score h₁ hscore

lemma unmodified_put_of_eq {pool : Pool T O} {t : T} {tx : MinerTx T O} (tx' : MinerTx T O)
    (htx : pool.get t = some tx) (hsame : tx'.modified = tx.modified) : unmodified (pool.put t tx') = unmodified pool := by
  ext t'
  rw [mem_unmodified, mem_unmodified, Table.get_put]
  split_ifs with heq
  · rw [heq, htx]
    simp [hsame]
  · rfl

/-! ## Taking the next transaction -/

lemma QueuesRel.isEmpty (h : QueuesRel p₁ q p₂ l) :
    (q.isEmpty p₁).1 = l.isEmpty ∧ QueuesRel p₁ (q.isEmpty p₁).2 p₂ l :=
  ⟨h.queue.isEmpty.1, h.pool, h.plain, h.queue.isEmpty.2⟩

lemma QueuesRel.sort (h : QueuesRel p₁ q p₂ l) : QueuesRel p₁ q p₂ (sortByScore p₂ l) ∧
    (sortByScore p₂ l).Pairwise (fun a b => (entryOf p₁ a).Before (entryOf p₁ b)) := by
  rw [← h.pool.sortByScore_eq]
  exact ⟨⟨h.pool, h.plain, h.queue.perm (perm_insertionSort _ l)⟩, h.plain.pairwise_sortByScore l⟩

lemma SamePool.skipTop_eq (h : SamePool p₁ p₂) (mempoolArray : List T) (top : ℕ) :
    skipTop p₁ mempoolArray top = skipTop p₂ mempoolArray top := by
  have hmap : ∀ t, (p₁.get t).map (fun tx => tx.used || tx.modified) = (p₂.get t).map fun tx => tx.used || tx.modified :=
    h.map_eq _ fun _ _ => rfl
  unfold skipTop
  simp only [hmap]

lemma le_skipTop (pool : Pool T O) (mempoolArray : List T) (top : ℕ) :
    top ≤ skipTop pool mempoolArray top := Nat.le_add_right _ _

lemma hasNext_rel (h : TemplateRel st₁ st₂) :
    ∃ more st₁', hasNext (queueOps arith order) st₁ = (more, st₁') ∧
      hasNext (oldQueueOps arith order) st₂ = (more, st₂) ∧ TemplateRel st₁' st₂ ∧
      more = (decide (st₂.top < st₂.mempoolArray.length) || !st₂.modified.isEmpty) := by
  obtain ⟨c, h⟩ := h
  rename_i p₁ p₂ q l
  by_cases htop : c.top < c.mempoolArray.length
  · refine ⟨true, _, if_pos htop, if_pos htop, .mk c h, ?_⟩
    simp [TemplateState.fill, htop]
  · refine ⟨!l.isEmpty, _, (if_neg htop).trans ?_, if_neg htop, .mk c h.isEmpty.2, ?_⟩
    · exact Prod.ext (congrArg (!·) h.isEmpty.1) rfl
    · simp [TemplateState.fill, htop]

/-- The next transaction is the same. It is gone from the array or the queue. -/
theorem takeNext_rel (h : TemplateRel st₁ st₂)
    (hsorted : st₂.modified.Pairwise fun a b => (entryOf st₁.pool a).Before (entryOf st₁.pool b)) :
    ∃ next st₁' st₂', takeNext (queueOps arith order) st₁ = (next, st₁') ∧
      takeNext (oldQueueOps arith order) st₂ = (next, st₂') ∧ TemplateRel st₁' st₂' ∧
      st₂'.blocks = st₂.blocks ∧ st₂'.overflow = st₂.overflow ∧
      ((next = none ∧ st₂' = st₂ ∧ st₂.modified = [] ∧ st₂.mempoolArray.length ≤ st₂.top) ∨
        (next ≠ none ∧ work st₂' + 1 ≤ work st₂)) := by
  obtain ⟨c, h⟩ := h
  rename_i p₁ p₂ q l
  obtain ⟨hhead, hpeek⟩ := h.queue.peek hsorted
  have hpeeked : QueuesRel p₁ (q.peek p₁).2 p₂ l := ⟨h.pool, h.plain, hpeek⟩
  have hpopped : QueuesRel p₁ ((q.peek p₁).2.pop p₁) p₂ l.tail := ⟨h.pool, h.plain, hpeek.pop hsorted⟩
  -- What is left when the array gives the transaction, and when the queue does.
  have harray : ∀ poolTx, c.mempoolArray[c.top]? = some poolTx →
      work ({ c with top := c.top + 1 }.fill p₂ l) + 1 ≤ work (c.fill p₂ l) := by
    intro poolTx hpool
    have hlt := (List.getElem?_eq_some_iff.1 hpool).1
    simp only [work, TemplateState.fill]
    omega
  have hqueue : ∀ modTx, l.head? = some modTx → work (c.fill p₂ l.tail) + 1 ≤ work (c.fill p₂ l) := by
    intro modTx hmod
    have hpos : 0 < l.length := length_pos_iff.2 fun hnil => by rw [hnil] at hmod; cases hmod
    simp only [work, TemplateState.fill, length_tail]
    omega
  have hscore := h.pool.scoreOf_eq
  have htaken := TemplateRel.mk { c with top := c.top + 1 } hpeeked
  cases hpool : c.mempoolArray[c.top]? <;> cases hmod : l.head? <;>
    simp only [takeNext, TemplateState.fill, queueOps, oldQueueOps, hpool, hhead, hmod, hscore]
  case none.none =>
    exact ⟨none, _, _, rfl, rfl, .mk c hpeeked, rfl, rfl,
      .inl ⟨rfl, rfl, head?_eq_none_iff.1 hmod, List.getElem?_eq_none_iff.1 hpool⟩⟩
  case none.some modTx =>
    exact ⟨some modTx, _, _, rfl, rfl, .mk c hpopped, rfl, rfl, .inr ⟨nofun, hqueue modTx hmod⟩⟩
  case some.none poolTx =>
    exact ⟨some poolTx, _, _, rfl, rfl, htaken, rfl, rfl, .inr ⟨nofun, harray poolTx hpool⟩⟩
  case some.some poolTx modTx =>
    split_ifs with hcmp
    · exact ⟨some poolTx, _, _, rfl, rfl, htaken, rfl, rfl, .inr ⟨nofun, harray poolTx hpool⟩⟩
    · exact ⟨some modTx, _, _, rfl, rfl, .mk c hpopped, rfl, rfl, .inr ⟨nofun, hqueue modTx hmod⟩⟩

/-! ## Placing a package -/

/-- The work, the transactions that did not fit and the closed blocks are the same. -/
structure Kept (st st' : TemplateState T O (List T)) : Prop where
  work : work st' = work st
  overflow : st'.overflow = st.overflow
  blocks : st'.blocks = st.blocks

lemma Kept.refl : Kept st st := ⟨rfl, rfl, rfl⟩

lemma Kept.trans {st₁ st₂ st₃ : TemplateState T O (List T)} (h : Kept st₁ st₂) (h' : Kept st₂ st₃) :
    Kept st₁ st₃ :=
  ⟨h'.work.trans h.work, h'.overflow.trans h.overflow, h'.blocks.trans h.blocks⟩

/-- The variables and what was placed, in the two versions, since `st`. -/
def PlacedRel (acc₁ : TemplateState T O (ModifiedQueue T) × List T)
    (acc₂ : TemplateState T O (List T) × List T) : Prop :=
  TemplateRel acc₁.1 acc₂.1 ∧ acc₁.2 = acc₂.2 ∧ Kept st acc₂.1

section
variable [DecidableEq O]

lemma PlacedRel.placeTx {acc₁ : TemplateState T O (ModifiedQueue T) × List T}
    {acc₂ : TemplateState T O (List T) × List T} (h : PlacedRel st₂ acc₁ acc₂) (rate : F64) (t : T) :
    PlacedRel st₂ (placeTx rate acc₁ t) (placeTx rate acc₂ t) := by
  obtain ⟨st₁, used⟩ := acc₁
  obtain ⟨st₂, used₂⟩ := acc₂
  obtain ⟨⟨c, h⟩, rfl, hkept⟩ := h
  rcases h.pool.cases t with ⟨h₁, h₂⟩ | ⟨tx, i, j, h₁, h₂⟩
  · simp only [Mempool.placeTx, h₁, h₂]
    exact ⟨.mk c h, rfl, hkept⟩
  · by_cases hused : tx.used = true
    · simp only [Mempool.placeTx, h₁, h₂, MinerTx.withInputs, if_pos hused]
      exact ⟨.mk c h, rfl, hkept⟩
    · have hput := h.put { tx with used := true, feeRate := rate } j h₁ rfl
      have hsame := unmodified_put_of_eq (({ tx with used := true, feeRate := rate } : MinerTx T O).withInputs j) h₂ rfl
      simp only [Mempool.placeTx, h₁, h₂, MinerTx.withInputs, if_neg hused]
      refine ⟨.mk { c with
        spentOutpoints := c.spentOutpoints ∪ tx.spentOutpoints.toFinset
        effectiveRates := c.effectiveRates.put t rate
        blockWeight := addU64 c.blockWeight tx.weight
        block := c.block ++ [t] } hput, rfl, hkept.trans ⟨?_, rfl, rfl⟩⟩
      exact congrArg (fun s : Finset T => _ + s.card) hsame

omit [DecidableEq O] in
lemma foldlM_updateDescendants_rel (h : QueuesRel p₁ q p₂ l) (rate : F64) (used : List T) :
    ∃ p₁' q' p₂' l',
      used.foldlM (fun (acc : Pool T O × ModifiedQueue T) t =>
        updateDescendants arith order t acc.1 acc.2 rate) (p₁, q) = some (p₁', q') ∧
      used.foldlM (fun (acc : Pool T O × List T) t =>
        oldUpdateDescendants arith order t acc.1 acc.2 rate) (p₂, l) = some (p₂', l') ∧
      QueuesRel p₁' q' p₂' l' ∧ l'.length + (unmodified p₂').card = l.length + (unmodified p₂).card := by
  induction used generalizing p₁ q p₂ l with
  | nil => exact ⟨p₁, q, p₂, l, rfl, rfl, h, rfl⟩
  | cons t used ih =>
    obtain ⟨p₁', q', p₂', l', heq₁, heq₂, hpool, hplain, hqueue, -, htotal⟩ :=
      updateDescendants_rel arith order h.pool h.plain h.queue t rate
    obtain ⟨p₁'', q'', p₂'', l'', heq₁', heq₂', h'', htotal'⟩ := ih ⟨hpool, hplain, hqueue⟩
    refine ⟨p₁'', q'', p₂'', l'', ?_, ?_, h'', htotal'.trans htotal⟩
    · rw [foldlM_cons, heq₁]
      exact heq₁'
    · rw [foldlM_cons, heq₂]
      exact heq₂'

lemma placePackage_rel (h : TemplateRel st₁ st₂) (package : List T) (rate : F64) :
    ∃ st₁' st₂', placePackage (queueOps arith order) st₁ package rate = some st₁' ∧
      placePackage (oldQueueOps arith order) st₂ package rate = some st₂' ∧ TemplateRel st₁' st₂' ∧ Kept st₂ st₂' := by
  have hplaced : PlacedRel st₂ (package.foldl (placeTx rate) (st₁, [])) (package.foldl (placeTx rate) (st₂, [])) :=
    foldl_rel ⟨h, rfl, Kept.refl _⟩ fun t _ _ _ hacc => hacc.placeTx rate t
  unfold placePackage
  generalize package.foldl (placeTx rate) (st₁, []) = acc₁ at hplaced ⊢
  generalize package.foldl (placeTx rate) (st₂, []) = acc₂ at hplaced ⊢
  obtain ⟨st₁', used⟩ := acc₁
  obtain ⟨st₂', used₂⟩ := acc₂
  obtain ⟨⟨c, h'⟩, rfl, hkept⟩ := hplaced
  obtain ⟨p₁', q', p₂', l', hdesc₁, hdesc₂, h'', htotal⟩ := foldlM_updateDescendants_rel arith order h' rate used
  refine ⟨_, _, congrArg (Option.map _) hdesc₁, congrArg (Option.map _) hdesc₂, .mk { c with failures := 0 } h'',
    hkept.trans ⟨?_, rfl, rfl⟩⟩
  simp only [work]
  omega

/-! ## One transaction -/

omit [DecidableEq O] in
lemma SamePool.packageOf_eq (h : SamePool p₁ p₂) (t : T) (tx : MinerTx T O) (i j : List T) :
    packageOf order p₁ t (tx.withInputs i) = packageOf order p₂ t (tx.withInputs j) := by
  have hmap : ∀ t, (p₁.get t).map (fun tx => tx.ancestors.card) = (p₂.get t).map fun tx => tx.ancestors.card :=
    h.map_eq _ fun _ _ => rfl
  unfold packageOf
  simp only [hmap, MinerTx.withInputs]

lemma SamePool.packageConflicts_eq (h : SamePool p₁ p₂) (spentOutpoints : Finset O) (package : List T) :
    packageConflicts p₁ spentOutpoints package = packageConflicts p₂ spentOutpoints package := by
  have hmap : ∀ t, (p₁.get t).map (fun tx => tx.spentOutpoints.any fun o => decide (o ∈ spentOutpoints))
      = (p₂.get t).map fun tx => tx.spentOutpoints.any fun o => decide (o ∈ spentOutpoints) :=
    h.map_eq _ fun _ _ => rfl
  unfold packageConflicts
  simp only [hmap]

section
variable {Q : Type} {ops : QueueOps T O Q} {st : TemplateState T O Q} {maxBlocks weightLimit : ℕ} {t : T}
  {tx : MinerTx T O}

/-- The rate of a package. -/
def packageRate (arith : F64.Arith) (tx : MinerTx T O) : F64 :=
  arith.min tx.dependencyRate (arith.ratio tx.ancestorFee (max tx.ancestorVsize 1))

/-- The package may go into the block. -/
def Fits (maxBlocks weightLimit : ℕ) (st : TemplateState T O Q) (tx : MinerTx T O) : Prop :=
  maxBlocks - 1 ≤ st.blocks.length ∨ addU64 st.blockWeight (mulU64 tx.ancestorVsize 4) < weightLimit

instance : Decidable (Fits maxBlocks weightLimit st tx) := inferInstanceAs (Decidable (_ ∨ _))

lemma handleNext_none (htx : st.pool.get t = none) :
    handleNext ops arith order maxBlocks weightLimit st t = some (st, true) := by
  unfold handleNext
  rw [htx]

variable (ops maxBlocks weightLimit st) in
lemma handleNext_of_get (htx : st.pool.get t = some tx) :
    handleNext ops arith order maxBlocks weightLimit st t =
      if tx.used then some (st, true)
      else if Fits maxBlocks weightLimit st tx then
        if packageConflicts st.pool st.spentOutpoints (packageOf order st.pool t tx) then
          some ({ st with pool := st.pool.put t { tx with used := true }, failures := st.failures + 1 }, true)
        else (placePackage ops st (packageOf order st.pool t tx) (packageRate arith tx)).map fun st => (st, false)
      else some ({ st with overflow := st.overflow ++ [t], failures := st.failures + 1 }, false) := by
  unfold handleNext
  rw [htx]
  rfl

end

lemma handleNext_rel (h : TemplateRel st₁ st₂) (maxBlocks weightLimit : ℕ) (t : T) :
    ∃ st₁' st₂' skip,
      handleNext (queueOps arith order) arith order maxBlocks weightLimit st₁ t = some (st₁', skip) ∧
      handleNext (oldQueueOps arith order) arith order maxBlocks weightLimit st₂ t = some (st₂', skip) ∧
      TemplateRel st₁' st₂' ∧ work st₂' = work st₂ ∧ st₂'.blocks = st₂.blocks ∧
      st₂'.overflow.length ≤ st₂.overflow.length + 1 := by
  obtain ⟨c, h⟩ := h
  rename_i p₁ p₂ q l
  rcases h.pool.cases t with ⟨h₁, h₂⟩ | ⟨tx, i, j, h₁, h₂⟩
  · exact ⟨_, _, true, handleNext_none _ _ h₁, handleNext_none _ _ h₂, .mk c h, rfl, rfl, Nat.le_succ _⟩
  have heq₁ := handleNext_of_get arith order (queueOps arith order) (c.fill p₁ q) maxBlocks weightLimit h₁
  have heq₂ := handleNext_of_get arith order (oldQueueOps arith order) (c.fill p₂ l) maxBlocks weightLimit h₂
  by_cases hused : tx.used = true
  · exact ⟨_, _, true, heq₁.trans (if_pos hused), heq₂.trans (if_pos hused), .mk c h, rfl, rfl, Nat.le_succ _⟩
  replace heq₁ := heq₁.trans (if_neg hused)
  replace heq₂ := heq₂.trans (if_neg hused)
  by_cases hfits : Fits maxBlocks weightLimit c tx
  · replace heq₁ := heq₁.trans (if_pos hfits)
    replace heq₂ := heq₂.trans (if_pos hfits)
    have hpackage := h.pool.packageOf_eq order t tx i j
    have hconflicts : packageConflicts p₁ c.spentOutpoints (packageOf order p₁ t (tx.withInputs i))
        = packageConflicts p₂ c.spentOutpoints (packageOf order p₂ t (tx.withInputs j)) := by
      rw [hpackage, h.pool.packageConflicts_eq]
    cases hconflict : packageConflicts p₂ c.spentOutpoints (packageOf order p₂ t (tx.withInputs j)) with
    | true =>
      refine ⟨_, _, true, heq₁.trans (if_pos (hconflicts.trans hconflict)), heq₂.trans (if_pos hconflict),
        .mk { c with failures := c.failures + 1 } (h.put { tx with used := true } j h₁ rfl), ?_, rfl, Nat.le_succ _⟩
      have hsame := unmodified_put_of_eq (({ tx with used := true } : MinerTx T O).withInputs j) h₂ rfl
      exact congrArg (fun s : Finset T => _ + s.card) hsame
    | false =>
      obtain ⟨st₁', st₂', hplace₁, hplace₂, h', hkept⟩ := placePackage_rel arith order (.mk c h)
        (packageOf order p₂ t (tx.withInputs j)) (packageRate arith tx)
      rw [← hpackage] at hplace₁
      have hfree : ∀ {b : Bool}, b = false → ¬b = true := fun hb => hb ▸ Bool.false_ne_true
      refine ⟨st₁', st₂', false, ?_, ?_, h', hkept.work, hkept.blocks, ?_⟩
      · exact heq₁.trans ((if_neg (hfree (hconflicts.trans hconflict))).trans (congrArg (Option.map _) hplace₁))
      · exact heq₂.trans ((if_neg (hfree hconflict)).trans (congrArg (Option.map _) hplace₂))
      · rw [hkept.overflow]
        omega
  · refine ⟨_, _, false, heq₁.trans (if_neg hfits), heq₂.trans (if_neg hfits),
      .mk { c with overflow := c.overflow ++ [t], failures := c.failures + 1 } h, rfl, rfl, ?_⟩
    exact (length_append).le

end

/-! ## Closing a block -/

/-- The variables of the two versions after `n` transactions were put back in `st`. -/
structure ReturnedRel (st : TemplateState T O (List T)) (n : ℕ) (st₁ : TemplateState T O (ModifiedQueue T))
    (st₂ : TemplateState T O (List T)) : Prop where
  rel : TemplateRel st₁ st₂
  work : work st₂ ≤ work st + n
  blocks : st₂.blocks = st.blocks
  overflow : st₂.overflow = st.overflow

variable {st}

lemma ReturnedRel.returnOverflow {n : ℕ} (h : ReturnedRel st n st₁ st₂) (t : T) :
    ReturnedRel st (n + 1) (returnOverflow (queueOps arith order) st₁ t)
      (returnOverflow (oldQueueOps arith order) st₂ t) := by
  obtain ⟨⟨c, h⟩, hwork, hblocks, hoverflow⟩ := h
  rename_i p₁ p₂ q l
  have hflag : ((c.fill p₁ q).pool.get t).map MinerTx.modified = ((c.fill p₂ l).pool.get t).map MinerTx.modified :=
    h.pool.map_eq _ (fun _ _ => rfl) t
  unfold Mempool.returnOverflow
  rw [hflag]
  split_ifs with hmodified
  · rcases h.pool.cases t with ⟨-, h₂⟩ | ⟨tx, i, j, h₁, -⟩
    · rw [TemplateState.fill, h₂] at hmodified
      cases hmodified
    · refine ⟨.mk c ⟨h.pool, h.plain, h.queue.enqueue h₁⟩, ?_, hblocks, hoverflow⟩
      simp only [Mempool.work, oldQueueOps, length_append, length_singleton] at hwork ⊢
      omega
  · let array := if c.top - 1 < c.mempoolArray.length then c.mempoolArray.set (c.top - 1) t else c.mempoolArray
    have hlength : array.length = c.mempoolArray.length := by
      simp only [array, apply_ite List.length, length_set, ite_self]
    refine ⟨.mk { c with top := c.top - 1, mempoolArray := array } h, ?_, hblocks, hoverflow⟩
    change c.mempoolArray.length - c.top + l.length + (unmodified p₂).card ≤ _ at hwork
    change array.length - (c.top - 1) + l.length + (unmodified p₂).card ≤ _
    omega

/-- The states after a turn: the loop goes on, maybe with a closed block, or it ends. -/
inductive Closed (maxBlocks : ℕ) (st : TemplateState T O (List T)) :
    Turn (TemplateState T O (ModifiedQueue T)) → Turn (TemplateState T O (List T)) → Prop
  | kept {st₁ : TemplateState T O (ModifiedQueue T)} (h : TemplateRel st₁ st) :
      Closed maxBlocks st (.next st₁) (.next st)
  | exit {st₁ : TemplateState T O (ModifiedQueue T)} (h : TemplateRel st₁ st) :
      Closed maxBlocks st (.exit st₁) (.exit st)
  | closed {st₁ : TemplateState T O (ModifiedQueue T)} {st₂ : TemplateState T O (List T)} (h : TemplateRel st₁ st₂)
      (hmore : st.blocks.length < maxBlocks - 1) (hblocks : st₂.blocks.length = st.blocks.length + 1)
      (hoverflow : st₂.overflow = []) (hwork : work st₂ ≤ work st + st.overflow.length) :
      Closed maxBlocks st (.next st₁) (.next st₂)

section
variable {Q : Type} (ops : QueueOps T O Q) (maxBlocks weightLimit : ℕ) (st : TemplateState T O Q)

/-- Whether the queue is found empty at the end of a turn; it is asked when the array is. -/
def queueEmpty : Bool :=
  if st.mempoolArray.length ≤ st.top then (ops.isEmpty st.modified st.pool).1 else false

/-- The queue after that. -/
def queueAsked : Q :=
  if st.mempoolArray.length ≤ st.top then (ops.isEmpty st.modified st.pool).2 else st.modified

/-- Whether a block is closed. -/
def closes (empty : Bool) : Bool :=
  (decide (1000 < st.failures) && decide (weightLimit - 4000 < st.blockWeight) || empty) &&
    decide (st.blocks.length < maxBlocks - 1)

lemma closeBlock_eq : closeBlock ops maxBlocks weightLimit st =
    if closes maxBlocks weightLimit st (queueEmpty ops st) then
      if st.block.isEmpty then .exit { st with modified := queueAsked ops st }
      else .next (st.overflow.reverse.foldl (returnOverflow ops)
        { st with
          modified := queueAsked ops st
          blocks := st.blocks ++ [st.block]
          block := []
          blockWeight := 4000
          overflow := [] })
    else .next { st with modified := queueAsked ops st } := by
  unfold closeBlock queueEmpty queueAsked closes
  by_cases htop : st.mempoolArray.length ≤ st.top
  · simp only [if_pos htop]
  · simp only [if_neg htop]

end

lemma closeBlock_rel (maxBlocks weightLimit : ℕ) (h : TemplateRel st₁ st₂) :
    Closed maxBlocks st₂ (closeBlock (queueOps arith order) maxBlocks weightLimit st₁)
      (closeBlock (oldQueueOps arith order) maxBlocks weightLimit st₂) := by
  obtain ⟨c, h⟩ := h
  rename_i p₁ p₂ q l
  have hempty : queueEmpty (queueOps arith order) (c.fill p₁ q) = queueEmpty (oldQueueOps arith order) (c.fill p₂ l) := by
    exact if_congr Iff.rfl h.isEmpty.1 rfl
  have hasked₁ : QueuesRel p₁ (queueAsked (queueOps arith order) (c.fill p₁ q)) p₂ l := by
    unfold queueAsked
    split_ifs
    · exact h.isEmpty.2
    · exact h
  have hasked₂ : queueAsked (oldQueueOps arith order) (c.fill p₂ l) = l := ite_self _
  rw [closeBlock_eq, closeBlock_eq, hempty, hasked₂]
  generalize queueAsked (queueOps arith order) (c.fill p₁ q) = q' at hasked₁ ⊢
  generalize queueEmpty (oldQueueOps arith order) (c.fill p₂ l) = empty
  have hcloses : closes maxBlocks weightLimit (c.fill p₁ q) empty = closes maxBlocks weightLimit (c.fill p₂ l) empty := rfl
  rw [hcloses]
  cases hclose : closes maxBlocks weightLimit (c.fill p₂ l) empty with
  | false => exact .kept (.mk c hasked₁)
  | true =>
    have hmore : c.blocks.length < maxBlocks - 1 := of_decide_eq_true (Bool.and_eq_true_iff.1 hclose).2
    by_cases hblock : c.block.isEmpty = true
    · rw [TemplateState.fill, TemplateState.fill, if_pos hblock, if_pos hblock]
      exact .exit (.mk c hasked₁)
    · rw [TemplateState.fill, TemplateState.fill, if_neg hblock, if_neg hblock]
      let c₀ : TemplateState T O Unit :=
        { c with blocks := c.blocks ++ [c.block], block := [], blockWeight := 4000, overflow := [] }
      have hreturned : ReturnedRel (c₀.fill p₂ l) c.overflow.reverse.length
          (c.overflow.reverse.foldl (returnOverflow (queueOps arith order)) (c₀.fill p₁ q'))
          (c.overflow.reverse.foldl (returnOverflow (oldQueueOps arith order)) (c₀.fill p₂ l)) :=
        foldl_invariant₂ (P := fun done => ReturnedRel (c₀.fill p₂ l) done.length)
          ⟨.mk c₀ hasked₁, Nat.le_refl _, rfl, rfl⟩ fun done t _ _ _ _ hdone => by
            rw [length_append]
            exact hdone.returnOverflow arith order t
      rw [length_reverse] at hreturned
      exact .closed hreturned.rel hmore ((congrArg List.length hreturned.blocks).trans length_append)
        hreturned.overflow hreturned.work

/-! ## The loop -/

/-- What holds of the two states between two turns. -/
def TemplateInv (bound : ℕ) (st₁ : TemplateState T O (ModifiedQueue T)) (st₂ : TemplateState T O (List T)) : Prop :=
  TemplateRel st₁ st₂ ∧ work st₂ + st₂.overflow.length ≤ bound

/-- The blocks that may still be closed, and the work before the next one is. -/
def templateMeasure (maxBlocks bound : ℕ) (st : TemplateState T O (List T)) : ℕ :=
  (maxBlocks - 1 - st.blocks.length) * (bound + 1) + work st

lemma Closed.turn {maxBlocks bound : ℕ} {st₀ : TemplateState T O (List T)}
    {turn₁ : Turn (TemplateState T O (ModifiedQueue T))} {turn₂ : Turn (TemplateState T O (List T))}
    (h : Closed maxBlocks st turn₁ turn₂) (hblocks : st.blocks = st₀.blocks) (hwork : work st + 1 ≤ work st₀)
    (hbound : work st + st.overflow.length ≤ bound) :
    (∃ st₁ st₂, turn₁ = .next st₁ ∧ turn₂ = .next st₂ ∧ TemplateInv bound st₁ st₂ ∧
      templateMeasure maxBlocks bound st₂ < templateMeasure maxBlocks bound st₀) ∨
    ∃ st₁ st₂, turn₁ = .exit st₁ ∧ turn₂ = .exit st₂ ∧ TemplateRel st₁ st₂ := by
  cases h with
  | kept h =>
    refine .inl ⟨_, _, rfl, rfl, ⟨h, hbound⟩, ?_⟩
    rw [templateMeasure, templateMeasure, hblocks]
    omega
  | exit h => exact .inr ⟨_, _, rfl, rfl, h⟩
  | closed h hmore hnew hoverflow hless =>
    refine .inl ⟨_, _, rfl, rfl, ⟨h, ?_⟩, ?_⟩
    · rw [hoverflow, length_nil]
      omega
    · have hsplit : maxBlocks - 1 - st.blocks.length = maxBlocks - 1 - (st.blocks.length + 1) + 1 := by omega
      rw [templateMeasure, templateMeasure, ← hblocks, hnew, hsplit, Nat.succ_mul]
      omega

section
variable [DecidableEq O] {arith : F64.Arith} {order : SetOrder T}

section
variable {Q : Type} {ops : QueueOps T O Q} {maxBlocks weightLimit : ℕ} {st st' st'' : TemplateState T O Q}

/-- The state in which the next transaction is taken. -/
def prepared (ops : QueueOps T O Q) (st : TemplateState T O Q) : TemplateState T O Q :=
  { st with top := skipTop st.pool st.mempoolArray st.top, modified := ops.sort st.modified st.pool }

lemma templateTurn_exit (hnext : hasNext ops st = (false, st')) :
    templateTurn ops arith order maxBlocks weightLimit st = some (.exit st') := by
  unfold templateTurn
  rw [hnext]
  rfl

section
variable (hnext : hasNext ops st = (true, st'))
include hnext

lemma templateTurn_none (htake : takeNext ops (prepared ops st') = (none, st'')) :
    templateTurn ops arith order maxBlocks weightLimit st = some (closeBlock ops maxBlocks weightLimit st'') := by
  unfold prepared at htake
  simp only [templateTurn, hnext, htake]
  rfl

lemma templateTurn_some {t : T} (htake : takeNext ops (prepared ops st') = (some t, st'')) :
    templateTurn ops arith order maxBlocks weightLimit st
      = (handleNext ops arith order maxBlocks weightLimit st'' t).map fun handled =>
        if handled.2 then .next handled.1 else closeBlock ops maxBlocks weightLimit handled.1 := by
  unfold prepared at htake
  simp only [templateTurn, hnext, htake]
  cases handleNext ops arith order maxBlocks weightLimit st'' t <;> rfl

end

end

lemma TemplateInv.turn {maxBlocks weightLimit bound : ℕ} (h : TemplateInv bound st₁ st₂) :
    (∃ st₁' st₂', templateTurn (queueOps arith order) arith order maxBlocks weightLimit st₁ = some (.next st₁') ∧
      templateTurn (oldQueueOps arith order) arith order maxBlocks weightLimit st₂ = some (.next st₂') ∧
      TemplateInv bound st₁' st₂' ∧
      templateMeasure maxBlocks bound st₂' < templateMeasure maxBlocks bound st₂) ∨
    ∃ st₁' st₂', templateTurn (queueOps arith order) arith order maxBlocks weightLimit st₁ = some (.exit st₁') ∧
      templateTurn (oldQueueOps arith order) arith order maxBlocks weightLimit st₂ = some (.exit st₂') ∧
      TemplateRel st₁' st₂' := by
  obtain ⟨hrel, hbound⟩ := h
  obtain ⟨more, st₁', hnext₁, hnext₂, hrel₁, hmore⟩ := hasNext_rel arith order hrel
  cases more with
  | false => exact .inr ⟨_, _, templateTurn_exit hnext₁, templateTurn_exit hnext₂, hrel₁⟩
  | true =>
    obtain ⟨c, hrel₁⟩ := hrel₁
    rename_i p₁ p₂ q l
    obtain ⟨hrel₂, hsorted⟩ := hrel₁.sort
    have hlength := length_sortByScore p₂ l
    have hskip := le_skipTop p₂ c.mempoolArray c.top
    let c₁ : TemplateState T O Unit := { c with top := skipTop p₂ c.mempoolArray c.top }
    have hprep₁ : prepared (queueOps arith order) (c.fill p₁ q) = c₁.fill p₁ q := by
      unfold prepared
      simp only [TemplateState.fill, hrel₁.pool.skipTop_eq]
      rfl
    have hwork : work (c₁.fill p₂ (sortByScore p₂ l)) ≤ work (c.fill p₂ l) := by
      simp only [work, TemplateState.fill, c₁]
      omega
    have hoverflow : (c.fill p₂ l).overflow = (c₁.fill p₂ (sortByScore p₂ l)).overflow := rfl
    rw [hoverflow] at hbound
    obtain ⟨next, st₁'', st₂'', htake₁, htake₂, hrel₃, hblocks, hover, hcases⟩ :=
      takeNext_rel arith order (.mk c₁ hrel₂) hsorted
    rw [← hprep₁] at htake₁
    rcases hcases with ⟨rfl, rfl, hnil, htop⟩ | ⟨hsome, hless⟩
    · -- Nothing is left: the array was not at its end before.
      have hstrict : work (c₁.fill p₂ (sortByScore p₂ l)) + 1 ≤ work (c.fill p₂ l) := by
        have hl : l = [] := eq_nil_of_length_eq_zero (hlength ▸ congrArg List.length hnil)
        have hlt : c.top < c.mempoolArray.length := by simpa [TemplateState.fill, hl] using hmore
        have htop' : c.mempoolArray.length ≤ skipTop p₂ c.mempoolArray c.top := htop
        simp only [work, TemplateState.fill, c₁]
        omega
      rw [templateTurn_none hnext₁ htake₁, templateTurn_none hnext₂ htake₂]
      simp only [Option.some.injEq]
      exact (closeBlock_rel arith order maxBlocks weightLimit hrel₃).turn rfl hstrict (by omega)
    · obtain ⟨t, rfl⟩ := Option.ne_none_iff_exists'.1 hsome
      obtain ⟨st₃, st₄, skip, hhandle₁, hhandle₂, hrel₄, hkept, hblocks', hover'⟩ :=
        handleNext_rel arith order hrel₃ maxBlocks weightLimit t
      have hsame : st₄.blocks = (c.fill p₂ l).blocks := hblocks'.trans hblocks
      have hstrict : work st₄ + 1 ≤ work (c.fill p₂ l) := by omega
      rw [← hover] at hbound
      have hbound' : work st₄ + st₄.overflow.length ≤ bound := by omega
      rw [templateTurn_some hnext₁ htake₁, templateTurn_some hnext₂ htake₂, hhandle₁, hhandle₂]
      simp only [Option.map_some, Option.some.injEq]
      cases skip with
      | true => exact (Closed.kept hrel₄).turn hsame hstrict hbound'
      | false => exact (closeBlock_rel arith order maxBlocks weightLimit hrel₄).turn hsame hstrict hbound'

omit [DecidableEq O] in
variable (order) in
lemma templateStart_inv (hpool : SamePool p₁ p₂) (hplain : PlainScores p₁) :
    TemplateInv (2 * p₂.card) (templateStart order .empty p₁) (templateStart order [] p₂) := by
  have harray : sortByScore p₁ (order.toList .pool p₁.keys) = sortByScore p₂ (order.toList .pool p₂.keys) := by
    rw [hpool.keys_eq, hpool.sortByScore_eq]
  have hstart₁ : templateStart order .empty p₁
      = (templateStart order () p₂).fill p₁ (.empty : ModifiedQueue T) := by
    unfold templateStart
    rw [harray]
    rfl
  constructor
  · rw [hstart₁]
    exact .mk _ ⟨hpool, hplain, QueueRel.empty p₁⟩
  · have hlength : (sortByScore p₂ (order.toList .pool p₂.keys)).length = p₂.keys.card := by
      rw [length_sortByScore, ← toFinset_card_of_nodup (order.nodup _ _)]
      congr 1
      ext t
      rw [List.mem_toFinset, order.mem_toList]
    have hcard : (unmodified p₂).card ≤ p₂.keys.card := Finset.card_filter_le _ _
    simp only [work, templateStart, length_nil, Table.card]
    omega

variable (arith order) in
/-- Both loops end with equal variables, when they may make a turn more than the measure. -/
theorem templateLoop_rel (hpool : SamePool p₁ p₂) (hplain : PlainScores p₁) {maxBlocks : ℕ}
    (weightLimit : ℕ) {n : ℕ} (hn : max 1 maxBlocks * (2 * p₂.card + 1) ≤ n) :
    ∃ st₁ st₂, loop (templateTurn (queueOps arith order) arith order maxBlocks weightLimit) n
        (templateStart order .empty p₁) = some st₁ ∧
      loop (templateTurn (oldQueueOps arith order) arith order maxBlocks weightLimit) n
        (templateStart order [] p₂) = some st₂ ∧ TemplateRel st₁ st₂ := by
  have hstart := templateStart_inv order hpool hplain
  have hless : templateMeasure maxBlocks (2 * p₂.card) (templateStart order [] p₂) < n := by
    have hwork : work (templateStart order [] p₂) ≤ 2 * p₂.card := by
      have hbound := hstart.2
      omega
    have hsplit : max 1 maxBlocks = maxBlocks - 1 + 1 := by omega
    rw [hsplit, Nat.succ_mul] at hn
    have hnone : maxBlocks - 1 - (templateStart order [] p₂ : TemplateState T O (List T)).blocks.length
        = maxBlocks - 1 := Nat.sub_zero _
    rw [templateMeasure, hnone]
    omega
  exact loop_rel_spec (fun st₁ st₂ h => TemplateInv.turn h) hstart hless

/-! ## The templates -/

omit [LinearOrder T] [DecidableEq O] in
lemma templateBound_le (pool : Pool T O) (maxBlocks : ℕ) :
    max 1 maxBlocks * (2 * pool.card + 1) ≤ templateBound pool maxBlocks :=
  Nat.mul_le_mul_right _ (by omega)

variable (arith order) in
/-- Both versions give the same templates for pools that differ in the inputs. -/
theorem templatesOf_eq (hpool : SamePool p₁ p₂) (hplain : PlainScores p₁) (maxBlocks weightLimit : ℕ) :
    ∃ templates, templatesOf (queueOps arith order) arith order .empty p₁ maxBlocks weightLimit = some templates ∧
      templatesOf (oldQueueOps arith order) arith order [] p₂ maxBlocks weightLimit = some templates := by
  have hcard : p₁.card = p₂.card := congrArg Finset.card hpool.keys_eq
  have hbound : templateBound p₁ maxBlocks = templateBound p₂ maxBlocks := by
    rw [templateBound, templateBound, hcard]
  obtain ⟨st₁, st₂, hst₁, hst₂, hrel⟩ := templateLoop_rel arith order hpool hplain weightLimit
    (templateBound_le p₂ maxBlocks)
  cases hrel with
  | mk c h => exact ⟨_, by rw [templatesOf, hbound, hst₁]; rfl, by rw [templatesOf, hst₂]; rfl⟩

variable (arith order) in
/-- `calculate_block_templates` and the version before it return the same blocks and the same effective rates,
for a mempool in which no transaction depends on itself. -/
theorem calculateBlockTemplates_eq_old (txs : MempoolTxs T O)
    (hacyclic : ∀ t, ¬ Relation.TransGen (InPoolParent txs) t t) (maxBlocks weightLimit : ℕ) :
    ∃ templates, calculateBlockTemplates arith order txs maxBlocks weightLimit = some templates ∧
      oldCalculateBlockTemplates arith order txs maxBlocks weightLimit = some templates := by
  have hparent₁ := parent_startPool order txs
  have hparent₂ := parent_oldStartPool order txs
  have hstored₁ : ∃ pool, computeRelatives arith order (startPool order txs) = some pool ∧
      AllRelated arith order (startPool order txs) pool :=
    computeRelatives_spec (fun t tx h => (fresh_collectPool _ t tx h).1)
      (inputsClosed_of_parent (keys_collectPool _) hparent₁) (acyclic_of_parent hparent₁ hacyclic)
  have hstored₂ : ∃ pool, oldRelatives arith order (oldStartPool order txs) = some pool ∧
      AllRelated arith order (oldStartPool order txs) pool :=
    oldRelatives_spec (fun t tx h => (fresh_collectPool _ t tx h).1)
      (inputsClosed_of_parent (keys_collectPool _) hparent₂) (acyclic_of_parent hparent₂ hacyclic)
  obtain ⟨pool₁, hpool₁, hrelated₁⟩ := hstored₁
  obtain ⟨pool₂, hpool₂, hrelated₂⟩ := hstored₂
  have hsame : SamePool pool₁ pool₂ := hrelated₁.samePool hrelated₂ (samePool_start txs) fun t parent =>
    (hparent₁ t parent).trans (hparent₂ t parent).symm
  obtain ⟨templates, hnew, hold⟩ := templatesOf_eq arith order hsame hrelated₁.plainScores maxBlocks weightLimit
  refine ⟨templates, ?_, ?_⟩
  · rw [calculateBlockTemplates]
    exact Option.bind_eq_some_iff.2 ⟨pool₁, hpool₁, hnew⟩
  · rw [oldCalculateBlockTemplates]
    exact Option.bind_eq_some_iff.2 ⟨pool₂, hpool₂, hold⟩

/-- A mempool of two transactions. -/
theorem calculateBlockTemplates_eq_old_small :
    ∃ templates, calculateBlockTemplates zeroArith sortedOrder smallMempool 8 4000000 = some templates ∧
      oldCalculateBlockTemplates zeroArith sortedOrder smallMempool 8 4000000 = some templates :=
  calculateBlockTemplates_eq_old zeroArith sortedOrder smallMempool smallMempool_acyclic 8 4000000

variable (arith order) in
/-- The loop ends for any parents: the reference on the same pool is in step, and its measure bounds the turns of
both. -/
theorem templateLoop_ends (txs : MempoolTxs T O) (maxBlocks weightLimit : ℕ) :
    ∃ pool st, computeRelatives arith order (startPool order txs) = some pool ∧
      Visited arith order (startPool order txs) (startPool order txs).keys pool ∧
      loop (templateTurn (queueOps arith order) arith order maxBlocks weightLimit)
        (max 1 maxBlocks * (2 * txs.card + 1)) (templateStart order .empty pool) = some st ∧
      calculateBlockTemplates arith order txs maxBlocks weightLimit
        = some (if st.block.isEmpty then st.blocks else st.blocks ++ [st.block], st.effectiveRates) := by
  obtain ⟨pool, hpool, hvisited⟩ := computeRelatives_startPool arith order txs
  have hcard : pool.card = txs.card := by
    rw [Table.card, Table.card, hvisited.keys_eq, startPool, keys_collectPool]
  obtain ⟨st, -, hst, -, -⟩ := templateLoop_rel arith order (fun _ => rfl : SamePool pool pool) hvisited.plainScores
    weightLimit (Nat.le_refl (max 1 maxBlocks * (2 * pool.card + 1)))
  have hbound := loop_mono (templateBound_le pool maxBlocks) hst
  rw [hcard] at hst
  refine ⟨pool, st, hpool, hvisited, hst, ?_⟩
  rw [calculateBlockTemplates, hpool, Option.bind_some, templatesOf, hbound]
  rfl

/-- Whatever the parents are, the loop of `calculate_block_templates` ends within a number of turns that is
linear in the number of transactions, and its variables give the templates. -/
theorem calculateBlockTemplates_turns (txs : MempoolTxs T O) (maxBlocks weightLimit : ℕ) :
    ∃ pool st, computeRelatives arith order (startPool order txs) = some pool ∧
      loop (templateTurn (queueOps arith order) arith order maxBlocks weightLimit)
        (max 1 maxBlocks * (4 * txs.card + 4)) (templateStart order .empty pool) = some st ∧
      calculateBlockTemplates arith order txs maxBlocks weightLimit
        = some (if st.block.isEmpty then st.blocks else st.blocks ++ [st.block], st.effectiveRates) := by
  obtain ⟨pool, st, hpool, -, hst, htemplates⟩ := templateLoop_ends arith order txs maxBlocks weightLimit
  refine ⟨pool, st, hpool, loop_mono ?_ hst, htemplates⟩
  exact Nat.mul_le_mul_left _ (by omega)

end
end Espo.Mempool
