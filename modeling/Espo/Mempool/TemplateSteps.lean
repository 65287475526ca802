import Espo.Mempool.TemplateRuns

/-!
# What the loop does to the blocks

Most of a turn of `calculate_block_templates` decides which transaction comes next. What it does to the pool and
the blocks is one of three things: a package is placed, a transaction is marked because its package conflicts,
or a block is closed. An invariant that is kept by these (`TemplateSteps`) holds of the result.
-/

namespace Espo.Mempool
open Lib List

variable {T O : Type} [LinearOrder T] [DecidableEq O]

/-- The pool, and what is in the blocks. -/
structure Contents (T O : Type) [DecidableEq T] where
  pool : Pool T O
  blocks : List (List T)
  block : List T
  blockWeight : ℕ
  spentOutpoints : Finset O

/-- What a turn works on. -/
def TemplateState.contents {Q : Type} (st : TemplateState T O Q) : Contents T O :=
  ⟨st.pool, st.blocks, st.block, st.blockWeight, st.spentOutpoints⟩

/-- The pool after the descendants of what was placed are updated. -/
inductive Updated (arith : F64.Arith) (order : SetOrder T) (rate : F64) : List T → Pool T O → Pool T O → Prop
  | nil (pool : Pool T O) : Updated arith order rate [] pool pool
  | cons {t : T} {used : List T} {pool pool' pool'' : Pool T O} {q q' : ModifiedQueue T}
      (hupdate : updateDescendants arith order t pool q rate = some (pool', q'))
      (hrest : Updated arith order rate used pool' pool'') : Updated arith order rate (t :: used) pool pool''

/-! ## Placing a package -/

/-- What the loop over a package does. -/
structure Placement (rate : F64) (c : Contents T O) (package : List T) (c' : Contents T O) (used : List T) :
    Prop where
  sublist : used.Sublist package
  unused : ∀ t ∈ used, ∃ tx, c.pool.get t = some tx ∧ tx.used = false
  complete : ∀ t ∈ package, ∀ tx, c.pool.get t = some tx → tx.used = false → t ∈ used
  pool : ∀ t, c'.pool.get t = if t ∈ used then
    (c.pool.get t).map fun tx => { tx with used := true, feeRate := rate } else c.pool.get t
  block : c'.block = c.block ++ used
  blocks : c'.blocks = c.blocks
  spent : ∀ o, o ∈ c'.spentOutpoints ↔ o ∈ c.spentOutpoints ∨
    ∃ t ∈ used, ∃ tx, c.pool.get t = some tx ∧ o ∈ tx.spentOutpoints
  weight : c'.blockWeight = used.foldl
    (fun weight t => addU64 weight (((c.pool.get t).map MinerTx.weight).getD 0)) c.blockWeight

lemma Placement.concat {rate : F64} {c c' : Contents T O} {package used : List T}
    (h : Placement rate c package c' used) {t : T} {tx : MinerTx T O} (htx : c.pool.get t = some tx)
    (hunused : tx.used = false) (hnew : t ∉ used) :
    Placement rate c (package ++ [t])
      { c' with
        pool := c'.pool.put t { tx with used := true, feeRate := rate }
        spentOutpoints := c'.spentOutpoints ∪ tx.spentOutpoints.toFinset
        blockWeight := addU64 c'.blockWeight tx.weight
        block := c'.block ++ [t] } (used ++ [t]) where
  sublist := h.sublist.append (List.Sublist.refl _)
  unused t' ht' := by
    rcases mem_append.1 ht' with ht' | ht'
    · exact h.unused t' ht'
    · rw [mem_singleton.1 ht']
      exact ⟨tx, htx, hunused⟩
  complete t' ht' tx' htx' hunused' := by
    rcases mem_append.1 ht' with ht' | ht'
    · exact mem_append_left _ (h.complete t' ht' tx' htx' hunused')
    · exact mem_append_right _ ht'
  pool t' := by
    simp only [Table.get_put, h.pool t']
    by_cases heq : t' = t
    · subst heq
      simp [htx]
    · simp [heq]
  block := by rw [h.block, append_assoc]
  blocks := h.blocks
  spent o := by
    simp only [Finset.mem_union, h.spent o, List.mem_toFinset, mem_append, mem_singleton]
    constructor
    · rintro ((ho | ⟨t', ht', hspent⟩) | ho)
      · exact .inl ho
      · exact .inr ⟨t', .inl ht', hspent⟩
      · exact .inr ⟨t, .inr rfl, tx, htx, ho⟩
    · rintro (ho | ⟨t', ht' | rfl, tx', htx', ho⟩)
      · exact .inl (.inl ho)
      · exact .inl (.inr ⟨t', ht', tx', htx', ho⟩)
      · rw [htx] at htx'
        exact .inr (Option.some.inj htx' ▸ ho)
  weight := by
    rw [foldl_append, ← h.weight, foldl_cons, htx]
    rfl

section
variable {Q : Type} (ops : QueueOps T O Q) (st : TemplateState T O Q)

lemma foldl_placeTx (rate : F64) (package : List T) :
    Placement rate st.contents package (package.foldl (placeTx rate) (st, [])).1.contents
      (package.foldl (placeTx rate) (st, [])).2 := by
  refine foldl_invariant (P := fun done (acc : TemplateState T O Q × List T) =>
    Placement rate st.contents done acc.1.contents acc.2) ?_ ?_
  · exact ⟨List.Sublist.refl _, by simp, by simp, by simp, by simp, rfl, by simp, rfl⟩
  rintro done t rest acc - h
  have hget : acc.1.pool.get t = _ := h.pool t
  -- What is left out is not in the pool, was used before, or has been placed.
  have hskip : (∀ tx, st.contents.pool.get t = some tx → tx.used = false → t ∈ acc.2) →
      Placement rate st.contents (done ++ [t]) acc.1.contents acc.2 := fun hdone =>
    { h with
      sublist := h.sublist.trans (sublist_append_left _ _)
      complete := fun t' ht' tx htx hunused => by
        rcases mem_append.1 ht' with ht' | ht'
        · exact h.complete t' ht' tx htx hunused
        · rw [mem_singleton.1 ht'] at htx ⊢
          exact hdone tx htx hunused }
  unfold placeTx
  by_cases hplaced : t ∈ acc.2
  · obtain ⟨tx, htx, -⟩ := h.unused t hplaced
    rw [if_pos hplaced, htx] at hget
    rw [hget]
    exact hskip fun _ _ _ => hplaced
  · rw [if_neg hplaced] at hget
    rw [hget]
    cases htx : st.contents.pool.get t with
    | none => exact hskip fun tx htx' => by rw [htx] at htx'; cases htx'
    | some tx =>
      cases hunused : tx.used with
      | true =>
        dsimp only
        rw [if_pos hunused]
        refine hskip fun tx' htx' hunused' => ?_
        rw [← Option.some.inj (htx.symm.trans htx'), hunused] at hunused'
        cases hunused'
      | false =>
        dsimp only
        rw [hunused]
        exact h.concat htx hunused hplaced

omit [DecidableEq O] in
lemma contents_hasNext : (hasNext ops st).2.contents = st.contents := by
  unfold hasNext
  split_ifs <;> rfl

omit [DecidableEq O] in
lemma contents_takeNext : (takeNext ops st).2.contents = st.contents := by
  unfold takeNext
  dsimp only
  split
  · split_ifs <;> rfl
  · rfl
  · rfl
  · rfl

omit [DecidableEq O] in
lemma contents_returnOverflow (t : T) : (returnOverflow ops st t).contents = st.contents := by
  unfold returnOverflow
  split_ifs <;> rfl

end

section
variable {arith : F64.Arith} {order : SetOrder T}

omit [DecidableEq O] in
lemma updated_of_foldlM {rate : F64} {used : List T} {pool pool' : Pool T O} {q q' : ModifiedQueue T}
    (h : used.foldlM (fun (acc : Pool T O × ModifiedQueue T) t =>
      updateDescendants arith order t acc.1 acc.2 rate) (pool, q) = some (pool', q')) :
    Updated arith order rate used pool pool' := by
  induction used generalizing pool q with
  | nil =>
    obtain ⟨rfl, -⟩ := Prod.mk.inj (Option.some.inj h)
    exact .nil pool
  | cons t used ih =>
    obtain ⟨⟨pool₁, q₁⟩, hupdate, hrest⟩ := Option.bind_eq_some_iff.1 h
    exact .cons hupdate (ih hrest)

lemma contents_placePackage {st st' : TemplateState T O (ModifiedQueue T)} {package : List T} {rate : F64}
    (h : placePackage (queueOps arith order) st package rate = some st') :
    ∃ c used pool', Placement rate st.contents package c used ∧ Updated arith order rate used c.pool pool' ∧
      st'.contents = { c with pool := pool' } := by
  obtain ⟨⟨pool', q'⟩, hfold, rfl⟩ := Option.map_eq_some_iff.1 h
  exact ⟨_, _, pool', foldl_placeTx st rate package, updated_of_foldlM hfold, rfl⟩

end

/-! ## The steps -/

section
variable (arith : F64.Arith) (order : SetOrder T) (maxBlocks weightLimit : ℕ)

/-- What an invariant of the contents has to be kept by. -/
structure TemplateSteps (I : Contents T O → Prop) : Prop where
  conflict : ∀ {c : Contents T O} {t tx}, I c → c.pool.get t = some tx → tx.used = false →
    packageConflicts c.pool c.spentOutpoints (packageOf order c.pool t tx) = true →
    I { c with pool := c.pool.put t { tx with used := true } }
  place : ∀ {c c' : Contents T O} {t tx used pool'}, I c → c.pool.get t = some tx → tx.used = false →
    (maxBlocks - 1 ≤ c.blocks.length ∨ addU64 c.blockWeight (mulU64 tx.ancestorVsize 4) < weightLimit) →
    packageConflicts c.pool c.spentOutpoints (packageOf order c.pool t tx) = false →
    Placement (packageRate arith tx) c (packageOf order c.pool t tx) c' used →
    Updated arith order (packageRate arith tx) used c'.pool pool' → I { c' with pool := pool' }
  close : ∀ {c : Contents T O}, I c → c.blocks.length < maxBlocks - 1 → c.block ≠ [] →
    I { c with blocks := c.blocks ++ [c.block], block := [], blockWeight := 4000 }

variable {arith order maxBlocks weightLimit} {I : Contents T O → Prop}
  {st st' : TemplateState T O (ModifiedQueue T)}

section
variable (hsteps : TemplateSteps arith order maxBlocks weightLimit I)
include hsteps

lemma TemplateSteps.closeBlock (hI : I st.contents) :
    I (closeBlock (queueOps arith order) maxBlocks weightLimit st).state.contents := by
  rw [closeBlock_eq]
  cases hclose : closes maxBlocks weightLimit st (queueEmpty (queueOps arith order) st) with
  | false => exact hI
  | true =>
    by_cases hblock : st.block.isEmpty = true
    · rw [if_pos hblock]
      exact hI
    · rw [if_neg hblock]
      have hmore : st.blocks.length < maxBlocks - 1 := of_decide_eq_true (Bool.and_eq_true_iff.1 hclose).2
      have hclosed := hsteps.close hI hmore fun hnil => hblock (List.isEmpty_iff.2 hnil)
      -- What did not fit goes back to the array and the queue.
      refine foldlRecOn (motive := fun st : TemplateState T O (ModifiedQueue T) => I st.contents) _ _ hclosed ?_
      intro st hst t _
      rw [contents_returnOverflow]
      exact hst

lemma TemplateSteps.handleNext (hI : I st.contents) {t : T} {skip : Bool}
    (h : handleNext (queueOps arith order) arith order maxBlocks weightLimit st t = some (st', skip)) :
    I st'.contents := by
  cases htx : st.pool.get t with
  | none =>
    rw [handleNext_none _ _ htx] at h
    cases h
    exact hI
  | some tx =>
    rw [handleNext_of_get _ _ _ _ _ _ htx] at h
    split_ifs at h with hused hfits hconflict
    · cases h
      exact hI
    · cases h
      exact hsteps.conflict hI htx (Bool.eq_false_of_not_eq_true hused) hconflict
    · obtain ⟨st₁, hplace, heq⟩ := Option.map_eq_some_iff.1 h
      obtain ⟨rfl, -⟩ := Prod.mk.inj heq
      obtain ⟨c, used, pool', hplacement, hupdated, hcontents⟩ := contents_placePackage hplace
      rw [hcontents]
      exact hsteps.place hI htx (Bool.eq_false_of_not_eq_true hused) hfits
        (Bool.eq_false_of_not_eq_true hconflict) hplacement hupdated
    · cases h
      exact hI

lemma TemplateSteps.turn {result : Turn (TemplateState T O (ModifiedQueue T))} (hI : I st.contents)
    (h : templateTurn (queueOps arith order) arith order maxBlocks weightLimit st = some result) :
    I result.state.contents := by
  have hnext : I (hasNext (queueOps arith order) st).2.contents := by
    rw [contents_hasNext]
    exact hI
  cases hmore : hasNext (queueOps arith order) st with
  | mk more st₁ =>
  rw [hmore] at hnext
  cases more with
  | false =>
    rw [templateTurn_exit hmore] at h
    cases h
    exact hnext
  | true =>
    have htaken : I (takeNext (queueOps arith order) (prepared (queueOps arith order) st₁)).2.contents := by
      rw [contents_takeNext]
      exact hnext
    cases htake : takeNext (queueOps arith order) (prepared (queueOps arith order) st₁) with
    | mk next st₂ =>
    rw [htake] at htaken
    cases next with
    | none =>
      rw [templateTurn_none hmore htake] at h
      cases h
      exact hsteps.closeBlock htaken
    | some t =>
      rw [templateTurn_some hmore htake] at h
      obtain ⟨⟨st₃, skip⟩, hhandle, rfl⟩ := Option.map_eq_some_iff.1 h
      have hhandled := hsteps.handleNext htaken hhandle
      cases skip with
      | true => exact hhandled
      | false => exact hsteps.closeBlock hhandled

end

/-- The contents before the loop. -/
def startContents (pool : Pool T O) : Contents T O := ⟨pool, [], [], 4000, ∅⟩

/-- The blocks that are returned. -/
def Contents.templates (c : Contents T O) : List (List T) :=
  if c.block.isEmpty then c.blocks else c.blocks ++ [c.block]

/-- An invariant that holds of the pool with its relatives holds of the templates. -/
theorem TemplateSteps.templates {txs : MempoolTxs T O} (hsteps : TemplateSteps arith order maxBlocks weightLimit I)
    (hstart : ∀ pool, computeRelatives arith order (startPool order txs) = some pool → I (startContents pool)) :
    ∃ c rates, I c ∧ calculateBlockTemplates arith order txs maxBlocks weightLimit = some (c.templates, rates) := by
  obtain ⟨pool, st, hpool, -, hst, htemplates⟩ := templateLoop_ends arith order txs maxBlocks weightLimit
  have hfirst : I (templateStart order (.empty : ModifiedQueue T) pool).contents := hstart pool hpool
  have hI : I st.contents := loop_invariant (I := fun st => I st.contents) (Q := fun st => I st.contents)
    (fun _ _ hst hturn => hsteps.turn hst hturn) (fun _ _ hst hturn => hsteps.turn hst hturn) hfirst hst
  exact ⟨st.contents, st.effectiveRates, hI, htemplates⟩

end
end Espo.Mempool
