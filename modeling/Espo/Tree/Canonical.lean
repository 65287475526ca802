import Espo.Tree.Db

/-!
# The canonical chain of heights and hashes

`begin_block` asks for nothing but a stored root of the parent, so a block can be committed below,
beside or far above the tip. The height rows form a parent-linked chain with the active block on top
exactly as long as every block that is finished fits on it.
-/

namespace Espo.TreeDb
open Lib Option

/-- A call of the block interface. -/
inductive TreeOp (K V H : Type*) where
  | beginBlock (height : ℕ) (blockHash parentHash : H)
  | write (w : TreeWrite K V)
  | finishBlock
  | abortBlock
  | rewindToHeight (target : Option ℕ)

section Defs
variable {K V Id H : Type*} [DecidableEq Id] [DecidableEq H]

/-- The height rows are a parent-linked chain, inverse to the hash rows, and the active block is the
highest. -/
structure Canonical (t : VersionedTreeDb K V Id H) : Prop where
  linked : ∀ height hash next, t.blockhashForHeight height = some hash →
    t.blockhashForHeight (height + 1) = some next → t.parentForBlockhash next = some hash
  inverse : ∀ height hash, t.blockhashForHeight height = some hash ↔
    t.heightForBlockhash hash = some height
  active : t.activeBlockhash = t.indexedHeightBounds.bind fun bounds => t.blockhashForHeight bounds.2

/-- The block fits on the height rows: nothing is above it, its height is free or its own, its hash
is at no other height, and a block right below it is its parent. -/
structure Fits (t : VersionedTreeDb K V Id H) (ctx : BlockContext Id H) : Prop where
  top : ∀ height hash, t.blockhashForHeight height = some hash → height ≤ ctx.height
  free : ∀ hash, t.blockhashForHeight ctx.height = some hash → hash = ctx.blockHash
  once : ∀ height, t.blockhashForHeight height = some ctx.blockHash → height = ctx.height
  parent : ∀ height hash, height + 1 = ctx.height → t.blockhashForHeight height = some hash →
    hash = ctx.parentHash

variable [LinearOrder K] [DecidableEq V] [NodeHash K V Id]

/-- Perform a call. -/
def VersionedTreeDb.perform (t : VersionedTreeDb K V Id H) :
    TreeOp K V H → Except (TreeError H) (VersionedTreeDb K V Id H)
  | .beginBlock height blockHash parentHash => t.beginBlock height blockHash parentHash
  | .write w => .ok (t.write w)
  | .finishBlock => .ok t.finishBlock
  | .abortBlock => .ok t.abortBlock
  | .rewindToHeight target => t.rewindToHeight target

/-- Perform calls on an empty store; a call that fails changes nothing. -/
def runOps (Id : Type*) [DecidableEq Id] [NodeHash K V Id] (ops : List (TreeOp K V H)) :
    VersionedTreeDb K V Id H :=
  ops.foldl (fun t op => (t.perform op).toOption.getD t) (.new (TreeRows.empty K V Id H))

end Defs

section Bounds
variable {K V Id H : Type*} {t : VersionedTreeDb K V Id H}

lemma highest_of_le (height : ℕ) {hash : H} (hget : t.blockhashForHeight height = some hash)
    (hle : ∀ n h, t.blockhashForHeight n = some h → n ≤ height) :
    (t.indexedHeightBounds.bind fun bounds => t.blockhashForHeight bounds.2) = some hash := by
  have hmem : height ∈ t.db.heightBlock.keys := Table.mem_keys_of_get hget
  have hmax : t.db.heightBlock.keys.max' ⟨height, hmem⟩ = height := by
    refine le_antisymm (Finset.max'_le _ _ _ fun n hn => ?_) (Finset.le_max' _ _ hmem)
    obtain ⟨h, hh⟩ := Table.mem_keys.1 hn
    exact hle n h hh
  rw [VersionedTreeDb.indexedHeightBounds, dif_pos ⟨height, hmem⟩]
  simp only [bind_some]
  rw [hmax, hget]

lemma highest_of_empty (h : ∀ n, t.blockhashForHeight n = none) :
    (t.indexedHeightBounds.bind fun bounds => t.blockhashForHeight bounds.2) = none := by
  rw [VersionedTreeDb.indexedHeightBounds, dif_neg]
  · rfl
  · rintro ⟨n, hn⟩
    obtain ⟨hash, hget⟩ := Table.mem_keys.1 hn
    have hnone := h n
    rw [VersionedTreeDb.blockhashForHeight, hget] at hnone
    simp at hnone

lemma highest_spec {hash : H}
    (h : (t.indexedHeightBounds.bind fun bounds => t.blockhashForHeight bounds.2) = some hash) :
    ∃ height, t.blockhashForHeight height = some hash ∧
      ∀ n h, t.blockhashForHeight n = some h → n ≤ height := by
  obtain ⟨bounds, hbounds, hget⟩ := bind_eq_some_iff.1 h
  unfold VersionedTreeDb.indexedHeightBounds at hbounds
  split_ifs at hbounds
  cases hbounds
  exact ⟨_, hget, fun n _ hn => Finset.le_max' _ _ (Table.mem_keys_of_get hn)⟩

end Bounds

/-! ## Steps -/

section Steps
variable {K V Id H : Type*} [DecidableEq H] {t : VersionedTreeDb K V Id H}
  {ctx : BlockContext Id H}

lemma Canonical.congr {t' : VersionedTreeDb K V Id H} (h : Canonical t)
    (hheight : t'.db.heightBlock = t.db.heightBlock) (hhash : t'.db.blockHeight = t.db.blockHeight)
    (hparent : t'.db.blockParent = t.db.blockParent)
    (hactive : t'.state.activeBlock = t.state.activeBlock) : Canonical t' where
  linked := by
    simp only [VersionedTreeDb.blockhashForHeight, VersionedTreeDb.parentForBlockhash, hheight,
      hparent]
    exact h.linked
  inverse := by
    simp only [VersionedTreeDb.blockhashForHeight, VersionedTreeDb.heightForBlockhash, hheight,
      hhash]
    exact h.inverse
  active := by
    simp only [VersionedTreeDb.activeBlockhash, VersionedTreeDb.indexedHeightBounds,
      VersionedTreeDb.blockhashForHeight, hactive, hheight]
    exact h.active

lemma VersionedTreeDb.finishBlock_rows (hctx : t.state.currentBlock = some ctx)
    (hpin : t.state.pinUntilHeight = none) :
    t.finishBlock.db.heightBlock = t.db.heightBlock.put ctx.height ctx.blockHash ∧
      t.finishBlock.db.blockHeight = t.db.blockHeight.put ctx.blockHash ctx.height ∧
      t.finishBlock.db.blockParent = t.db.blockParent.put ctx.blockHash ctx.parentHash ∧
      t.finishBlock.state.activeBlock = some ctx.blockHash := by
  simp [finishBlock, finishRows, finishState, hctx, hpin]

lemma Canonical.finishBlock (h : Canonical t) (hctx : t.state.currentBlock = some ctx)
    (hpin : t.state.pinUntilHeight = none) (hfits : Fits t ctx) : Canonical t.finishBlock := by
  obtain ⟨hheight, hhash, hparent, hactive⟩ := VersionedTreeDb.finishBlock_rows hctx hpin
  have hget : ∀ n, t.finishBlock.blockhashForHeight n
      = if n = ctx.height then some ctx.blockHash else t.blockhashForHeight n := by
    intro n
    rw [VersionedTreeDb.blockhashForHeight, hheight, Table.get_put]
    rfl
  refine ⟨fun n hash next hn hnext => ?_, fun n hash => ?_, ?_⟩
  · rw [VersionedTreeDb.parentForBlockhash, hparent, Table.get_put]
    rw [hget] at hn hnext
    split_ifs at hnext with hnextEq
    · rw [if_neg (by omega)] at hn
      rw [← some_inj.1 hnext, if_pos rfl, hfits.parent n hash hnextEq hn]
    · have hlt := hfits.top _ _ hnext
      have hne : next ≠ ctx.blockHash := fun heq => hnextEq (hfits.once _ (heq ▸ hnext))
      rw [if_neg (by omega)] at hn
      rw [if_neg hne]
      exact h.linked n hash next hn hnext
  · rw [hget, VersionedTreeDb.heightForBlockhash, hhash, Table.get_put]
    have hinv := h.inverse n hash
    rw [VersionedTreeDb.heightForBlockhash] at hinv
    by_cases hn : n = ctx.height <;> by_cases hh : hash = ctx.blockHash
    · simp [hn, hh]
    · rw [if_pos hn, if_neg hh, ← hinv, hn]
      constructor
      · exact fun heq => absurd (some_inj.1 heq).symm hh
      · exact fun hget' => absurd (hfits.free _ hget') hh
    · rw [if_neg hn, if_pos hh, hh]
      constructor
      · exact fun hget' => absurd (hfits.once _ hget') hn
      · exact fun heq => absurd (some_inj.1 heq).symm hn
    · rw [if_neg hn, if_neg hh, hinv]
  · refine hactive.trans (highest_of_le ctx.height ?_ fun n hash hn => ?_).symm
    · rw [hget, if_pos rfl]
    · rw [hget] at hn
      split_ifs at hn with heq
      · exact heq.le
      · exact hfits.top n hash hn

/-- Conversely, a block that leaves the rows canonical fits. -/
theorem Canonical.fits (h : Canonical t) (hctx : t.state.currentBlock = some ctx)
    (hpin : t.state.pinUntilHeight = none) (h' : Canonical t.finishBlock) : Fits t ctx := by
  obtain ⟨hheight, hhash, hparent, hactive⟩ := VersionedTreeDb.finishBlock_rows hctx hpin
  have hget : ∀ n, n ≠ ctx.height →
      t.finishBlock.blockhashForHeight n = t.blockhashForHeight n := by
    intro n hn
    rw [VersionedTreeDb.blockhashForHeight, hheight, Table.get_put_of_ne _ _ hn]
    rfl
  have hself : t.finishBlock.blockhashForHeight ctx.height = some ctx.blockHash := by
    rw [VersionedTreeDb.blockhashForHeight, hheight, Table.get_put_self]
  -- the block is at one height only
  have honce : ∀ n, t.finishBlock.blockhashForHeight n = some ctx.blockHash → n = ctx.height := by
    intro n hn
    have hn' := (h'.inverse n _).1 hn
    rw [(h'.inverse _ _).1 hself] at hn'
    exact (some_inj.1 hn').symm
  refine ⟨fun n hash hn => ?_, fun hash hn => ?_, fun n hn => ?_, fun n hash hn hgetn => ?_⟩
  · have hhighest := h'.active
    rw [VersionedTreeDb.activeBlockhash, hactive] at hhighest
    obtain ⟨top, htop, hle⟩ := highest_spec hhighest.symm
    rw [honce top htop] at hle
    by_cases heq : n = ctx.height
    · exact heq.le
    · exact hle n hash ((hget n heq).trans hn)
  · by_contra hne
    have hold := (h.inverse _ _).1 hn
    have hnew : t.finishBlock.heightForBlockhash hash = some ctx.height := by
      rw [VersionedTreeDb.heightForBlockhash, hhash, Table.get_put_of_ne _ _ hne]
      exact hold
    rw [← h'.inverse, hself] at hnew
    exact hne (some_inj.1 hnew).symm
  · by_contra hne
    exact hne (honce n ((hget n hne).trans hn))
  · have hlink := h'.linked n hash ctx.blockHash ((hget n (by omega)).trans hgetn)
      (by rw [hn]; exact hself)
    rw [VersionedTreeDb.parentForBlockhash, hparent, Table.get_put_self] at hlink
    exact (some_inj.1 hlink).symm

lemma VersionedTreeDb.rewindToHeight_ok [NodeHash K V Id] {t' : VersionedTreeDb K V Id H}
    {target : Option ℕ} (hrewind : t.rewindToHeight target = .ok t') :
    ∃ root block, t' = ⟨rewindRows t.db target root block, ⟨root, block, none, none, none⟩⟩ ∧
      block = target.bind t.blockhashForHeight ∧ (target.isSome → block.isSome) := by
  unfold rewindToHeight at hrewind
  cases target with
  | none =>
    obtain rfl := Except.ok.inj hrewind
    exact ⟨emptyRootId K V Id, none, rfl, rfl, by simp⟩
  | some height =>
    simp only [rewindPointers] at hrewind
    cases hhash : t.blockhashForHeight height with
    | none => simp [hhash] at hrewind
    | some hash =>
      cases hroot : t.rootForBlockhash hash with
      | none => simp [hhash, hroot] at hrewind
      | some root =>
        simp only [hhash, hroot, Except.ok.injEq] at hrewind
        exact ⟨root, some hash, hrewind.symm, by simp [hhash], by simp⟩

lemma Canonical.rewindToHeight [NodeHash K V Id] {t' : VersionedTreeDb K V Id H}
    {target : Option ℕ} (h : Canonical t) (hrewind : t.rewindToHeight target = .ok t') :
    Canonical t' := by
  obtain ⟨root, block, rfl, hblock, hsome⟩ := VersionedTreeDb.rewindToHeight_ok hrewind
  have hget : ∀ n hash, (⟨VersionedTreeDb.rewindRows t.db target root block,
      ⟨root, block, none, none, none⟩⟩ : VersionedTreeDb K V Id H).blockhashForHeight n = some hash ↔
      t.blockhashForHeight n = some hash ∧ VersionedTreeDb.staleHeight target n = false := by
    simp [VersionedTreeDb.blockhashForHeight, VersionedTreeDb.rewindRows, Table.get_filter]
  refine ⟨fun n hash next hn hnext => ?_, fun n hash => ?_, ?_⟩
  · exact h.linked n hash next ((hget n hash).1 hn).1 ((hget _ next).1 hnext).1
  · rw [hget]
    simp only [VersionedTreeDb.heightForBlockhash, VersionedTreeDb.rewindRows, Table.get_filter,
      filter_eq_some_iff, Table.mem_values, decide_eq_true_eq]
    have hinv := h.inverse n hash
    rw [VersionedTreeDb.heightForBlockhash] at hinv
    rw [← hinv]
    refine and_congr_right fun hn => ?_
    -- the hash of a kept height is the hash of no deleted one
    constructor
    · rintro hkept ⟨m, hm, hstale⟩
      have hm' := (h.inverse m hash).1 hm
      rw [(h.inverse n hash).1 hn] at hm'
      rw [← some_inj.1 hm', hkept] at hstale
      simp at hstale
    · intro hnone
      by_contra hstale
      exact hnone ⟨n, hn, by simpa using hstale⟩
  · cases target with
    | none =>
      refine hblock.trans (highest_of_empty fun n => ?_).symm
      refine eq_none_iff_forall_ne_some.2 fun hash hn => ?_
      exact absurd ((hget n hash).1 hn).2 (by simp [VersionedTreeDb.staleHeight])
    | some height =>
      obtain ⟨hash, hhash⟩ := isSome_iff_exists.1 (hsome rfl)
      rw [hhash] at hblock
      refine hhash.trans (highest_of_le height ?_ fun n h hn => ?_).symm
      · exact (hget height hash).2 ⟨hblock.symm, by simp [VersionedTreeDb.staleHeight]⟩
      · have hkept := ((hget n h).1 hn).2
        simpa [VersionedTreeDb.staleHeight] using hkept

end Steps

/-! ## Runs -/

section Runs
variable {K V Id H : Type*} [LinearOrder K] [DecidableEq V] [DecidableEq Id] [DecidableEq H]
  [NodeHash K V Id] {t t' : VersionedTreeDb K V Id H}

lemma VersionedTreeDb.perform_pin {op : TreeOp K V H} (hpin : t.state.pinUntilHeight = none)
    (hok : t.perform op = .ok t') : t'.state.pinUntilHeight = none := by
  cases op with
  | beginBlock height blockHash parentHash =>
    obtain ⟨ctx, rfl⟩ := beginBlock_ok hok
    exact hpin
  | write w =>
    obtain rfl := Except.ok.inj hok
    rcases t.write_cases w with heq | ⟨root, nodes, heq⟩
    · rwa [heq]
    · rw [heq, putRoot]
      split <;> exact hpin
  | finishBlock =>
    obtain rfl := Except.ok.inj hok
    unfold finishBlock finishState
    split
    · exact hpin
    · simp [hpin]
  | abortBlock =>
    obtain rfl := Except.ok.inj hok
    exact hpin
  | rewindToHeight target =>
    obtain ⟨root, block, rfl, -⟩ := rewindToHeight_ok hok
    rfl

/-- A call other than `finish_block` keeps the rows canonical. -/
theorem Canonical.perform {op : TreeOp K V H} (h : Canonical t) (hop : op ≠ .finishBlock)
    (hok : t.perform op = .ok t') : Canonical t' := by
  cases op with
  | beginBlock height blockHash parentHash =>
    obtain ⟨ctx, rfl⟩ := VersionedTreeDb.beginBlock_ok hok
    exact h.congr rfl rfl rfl rfl
  | write w =>
    obtain rfl := Except.ok.inj hok
    rcases t.write_cases w with heq | ⟨root, nodes, heq⟩
    · rwa [heq]
    · rw [heq, VersionedTreeDb.putRoot]
      split <;> exact h.congr rfl rfl rfl rfl
  | finishBlock => exact absurd rfl hop
  | abortBlock =>
    obtain rfl := Except.ok.inj hok
    exact h.congr rfl rfl rfl rfl
  | rewindToHeight target => exact h.rewindToHeight hok

omit [LinearOrder K] [DecidableEq V] in
lemma canonical_fresh : Canonical (.new (TreeRows.empty K V Id H) : VersionedTreeDb K V Id H) := by
  refine ⟨fun _ _ _ hn => absurd hn ?_, fun n hash => ?_, ?_⟩
  · simp [VersionedTreeDb.blockhashForHeight, VersionedTreeDb.new, TreeRows.empty]
  · simp [VersionedTreeDb.blockhashForHeight, VersionedTreeDb.heightForBlockhash,
      VersionedTreeDb.new, TreeRows.empty]
  · exact (highest_of_empty fun n => rfl).symm

/-- The last call of a run either failed and changed nothing or succeeded. -/
theorem runOps_snoc (Id : Type*) [DecidableEq Id] [NodeHash K V Id] (ops : List (TreeOp K V H))
    (op : TreeOp K V H) :
    runOps Id (ops ++ [op]) = runOps Id ops ∨
      (runOps Id ops).perform op = .ok (runOps Id (ops ++ [op])) := by
  have hlast : runOps Id (ops ++ [op])
      = ((runOps Id ops).perform op).toOption.getD (runOps Id ops) := by
    simp [runOps]
  rw [hlast]
  cases (runOps Id ops).perform op with
  | error e => exact .inl rfl
  | ok t => exact .inr rfl

lemma runOps_pin (ops : List (TreeOp K V H)) : (runOps Id ops).state.pinUntilHeight = none := by
  induction ops using List.reverseRecOn with
  | nil => rfl
  | append_singleton ops op ih =>
    rcases runOps_snoc Id ops op with heq | hok
    · rwa [heq]
    · exact VersionedTreeDb.perform_pin ih hok

/-- In every run, all states are canonical if and only if every block fits when it is finished. -/
theorem canonical_iff_fits (ops : List (TreeOp K V H)) :
    (∀ pre, pre <+: ops → Canonical (runOps Id pre)) ↔
      ∀ pre, pre ++ [.finishBlock] <+: ops → ∀ ctx, (runOps Id pre).state.currentBlock = some ctx →
        Fits (runOps Id pre) ctx := by
  constructor
  · intro h pre hpre ctx hctx
    have hbefore := h pre ((List.prefix_append pre _).trans hpre)
    have hafter := h _ hpre
    have hfinish : runOps Id (pre ++ [.finishBlock]) = (runOps Id pre).finishBlock := by
      rw [runOps, List.foldl_append]
      rfl
    rw [hfinish] at hafter
    exact hbefore.fits hctx (runOps_pin pre) hafter
  · intro hfits pre
    -- along the run; only a finished block can break the chain
    induction pre using List.reverseRecOn with
    | nil => exact fun _ => canonical_fresh
    | append_singleton pre op ih =>
      intro hpre
      have hbefore := ih ((List.prefix_append pre _).trans hpre)
      rcases runOps_snoc Id pre op with heq | hok
      · rwa [heq]
      · by_cases hop : op = .finishBlock
        · subst hop
          rw [← Except.ok.inj hok]
          cases hctx : (runOps Id pre).state.currentBlock with
          | none =>
            rw [VersionedTreeDb.finishBlock, hctx]
            exact hbefore
          | some ctx => exact hbefore.finishBlock hctx (runOps_pin pre) (hfits pre hpre ctx hctx)
        · exact hbefore.perform hop hok

end Runs

/-- Blocks 1 and 5, then a second block at height 5, then a block at height 2 on the replaced one. -/
def unfittingBlocks : List (TreeOp ℕ ℕ ℕ) :=
  [.beginBlock 1 1 0, .finishBlock, .beginBlock 5 5 1, .finishBlock, .beginBlock 5 6 1, .finishBlock,
    .beginBlock 2 2 5, .finishBlock]

/-- All calls succeed, and no part of the chain property is left. -/
theorem unfittingBlocks_not_canonical :
    let t := runOps ℕ unfittingBlocks
    (t.blockhashForHeight 1 = some 1 ∧ t.blockhashForHeight 2 = some 2 ∧
      t.parentForBlockhash 2 = some 5) ∧
    (t.heightForBlockhash 5 = some 5 ∧ t.blockhashForHeight 5 = some 6) ∧
    (t.indexedHeightBounds = some (1, 5) ∧ t.activeBlockhash = some 2) ∧ ¬Canonical t := by
  refine ⟨by decide +kernel, by decide +kernel, by decide +kernel, fun h => ?_⟩
  have hlink := h.linked 1 1 2 (by decide +kernel) (by decide +kernel)
  exact absurd hlink (by decide +kernel)

end Espo.TreeDb
