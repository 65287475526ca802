import Espo.Runes.Outpoints

/-!
# The set of live outpoints

The module may keep the set of live outpoints in memory, or look each input up in the database. Two
indexers, one of each kind, go through a block in step: they take the same rows and collect the same
writes, and the set stays the set of outpoints that have a row.
-/

namespace Espo.Runes
open Lib

namespace BlockRunesIndexer
variable {T A H : Type} [LinearOrder T] [LinearOrder A] {db : RuneRows T A}
  {ix ix' : BlockRunesIndexer T A} {spent spent' : Set (T × ℕ)} {on off : LiveOutpoints T A}

/-! ## One block, both ways -/

/-- The lookups with a set and those without one, for the same indexer. -/
structure InStep (db : RuneRows T A) (spent : Set (T × ℕ)) (ix : BlockRunesIndexer T A)
    (on off : LiveOutpoints T A) : Prop where
  tracked : Tracked db spent ix
  set : ∃ live, on.set = some live ∧ ∀ o, o ∈ live ↔ (ix.view db).outpoint o ≠ none
  bare : off.set = none
  cached : off.Cached db

lemma Touches.inStep {classes : List KeyClass} (htouches : Touches db classes ix ix')
    (hclasses : .outpoints ∉ classes) (h : InStep db spent ix on off) :
    InStep db spent ix' on off where
  tracked := htouches.tracked hclasses h.tracked
  set := by
    obtain ⟨live, hset, hlive⟩ := h.set
    refine ⟨live, hset, fun o => ?_⟩
    have hrow : (ix'.view db).outpoint o = (ix.view db).outpoint o :=
      htouches.rows (.outpoint o) hclasses
    rw [hlive o, hrow]
  bare := h.bare
  cached := h.cached

section
variable (h : InStep db spent ix on off)
include h

lemma InStep.mono (hsub : spent ⊆ spent') : InStep db spent' ix on off :=
  { h with tracked := h.tracked.mono hsub }

/-- An outpoint that is not yet spent is found both ways or neither way. -/
theorem InStep.hasRuneOutpoint {o : T × ℕ} (ho : o ∉ spent) :
    (off.hasRuneOutpoint db ix.ephem o).1 = (on.hasRuneOutpoint db ix.ephem o).1 ∧
      (on.hasRuneOutpoint db ix.ephem o).2 = on ∧
      InStep db spent ix on (off.hasRuneOutpoint db ix.ephem o).2 := by
  obtain ⟨live, hset, hlive⟩ := h.set
  obtain ⟨hcached, hoff⟩ := LiveOutpoints.cached_hasRuneOutpoint h.cached ix.ephem o
  obtain ⟨hlooked, -, -⟩ := LiveOutpoints.getPointLookupOutpoint_spec h.cached o
  refine ⟨?_, ?_, { h with bare := hoff.trans h.bare, cached := hcached }⟩
  · unfold LiveOutpoints.hasRuneOutpoint LiveOutpoints.contains
    rw [hset, h.bare]
    cases hephem : ix.ephem.get o with
    | some row => simp
    | none =>
      have hstored := h.tracked.stored o hephem ho
      have hmem := hlive o
      rw [hstored] at hmem
      simp only [hlooked]
      cases hrow : db.outpoint o with
      | none =>
        rw [hrow] at hmem
        simp [show o ∉ live by simpa using hmem]
      | some row =>
        rw [hrow] at hmem
        simp [show o ∈ live by simpa using hmem]
  · unfold LiveOutpoints.hasRuneOutpoint
    split_ifs with hfound hsome
    · rfl
    · rfl
    · exact absurd hset (by simp [Option.not_isSome_iff_eq_none.1 hsome])

lemma InStep.hasRuneInput {inputs : List (TxIn T)}
    (hinputs : ∀ input ∈ inputs, input.previousOutput ∉ spent) :
    (off.hasRuneInput db ix.ephem inputs).1 = (on.hasRuneInput db ix.ephem inputs).1 ∧
      (on.hasRuneInput db ix.ephem inputs).2 = on ∧
      InStep db spent ix on (off.hasRuneInput db ix.ephem inputs).2 := by
  induction inputs generalizing off with
  | nil => exact ⟨rfl, rfl, h⟩
  | cons input inputs ih =>
    obtain ⟨hfound, hon, hstep⟩ := h.hasRuneOutpoint (hinputs input List.mem_cons_self)
    have hrest := ih hstep fun input' hmem => hinputs input' (List.mem_cons_of_mem _ hmem)
    rw [LiveOutpoints.hasRuneInput, LiveOutpoints.hasRuneInput, hfound, hon]
    split_ifs with hhas
    · exact ⟨rfl, rfl, hstep⟩
    · exact hrest

lemma InStep.takeOutpoint {o : T × ℕ} (ho : o ∉ spent) :
    (off.takeOutpoint db ix.ephem o).1 = (on.takeOutpoint db ix.ephem o).1 ∧
      (on.takeOutpoint db ix.ephem o).2 = on ∧
      InStep db spent ix on (off.takeOutpoint db ix.ephem o).2 := by
  obtain ⟨live, hset, hlive⟩ := h.set
  obtain ⟨htaken, hcached, hoff⟩ := LiveOutpoints.takePointLookupOutpoint_spec h.cached o
  unfold LiveOutpoints.takeOutpoint
  rw [hset, h.bare]
  cases hephem : ix.ephem.get o with
  | some row => exact ⟨rfl, rfl, h⟩
  | none =>
    have hstored := h.tracked.stored o hephem ho
    have hmem := hlive o
    rw [hstored] at hmem
    dsimp only
    rw [htaken]
    refine ⟨?_, ?_, { h with bare := hoff.trans h.bare, cached := hcached }⟩
    · split_ifs with ho'
      · rfl
      · rw [not_not.1 (mt hmem.2 ho')]
        rfl
    · split_ifs
      · rfl
      · rfl

lemma InStep.spendRow (o : T × ℕ) (row : OutpointRuneBalances A)
    (previous : Option (OutpointRuneBalances A)) :
    InStep db (insert o spent) (ix.spendRow db o row previous) (on.remove o) (off.remove o) where
  tracked := h.tracked.spendRow o row previous
  set := by
    obtain ⟨live, hset, hlive⟩ := h.set
    refine ⟨live.erase o, by rw [LiveOutpoints.remove, hset]; rfl, fun o' => ?_⟩
    rw [Finset.mem_erase, hlive o', outpoint_spendRow]
    split_ifs with heq
    · simp [heq]
    · simp [heq]
  bare := by rw [LiveOutpoints.remove, h.bare]; rfl
  cached := LiveOutpoints.cached_delete h.cached o _

lemma InStep.createRow (o : T × ℕ) (row : OutpointRuneBalances A) :
    InStep db spent (ix.createRow db o row) (on.insert o) (off.insert o) where
  tracked := h.tracked.createRow o row
  set := by
    obtain ⟨live, hset, hlive⟩ := h.set
    refine ⟨insert o live, by rw [LiveOutpoints.insert, hset]; rfl, fun o' => ?_⟩
    rw [Finset.mem_insert, hlive o', outpoint_createRow]
    split_ifs with heq
    · simp [heq]
    · simp [heq]
  bare := by rw [LiveOutpoints.insert, h.bare]; rfl
  cached := LiveOutpoints.cached_delete h.cached o _

end

lemma inStep_spendInput {st : Spending T A} (h : InStep db spent st.ix st.live off)
    {input : TxIn T × ℕ} (ho : input.1.previousOutput ∉ spent) :
    ∃ off', spendInput db { st with live := off } input =
        { spendInput db st input with live := off' } ∧
      InStep db (insert input.1.previousOutput spent) (spendInput db st input).ix
        (spendInput db st input).live off' := by
  obtain ⟨htake, hon, hstep⟩ := h.takeOutpoint ho
  unfold spendInput
  dsimp only
  rw [htake, hon]
  cases (st.live.takeOutpoint db st.ix.ephem input.1.previousOutput).1 with
  | none => exact ⟨_, rfl, hstep.mono (Set.subset_insert _ _)⟩
  | some taken => exact ⟨_, rfl, hstep.spendRow _ _ _⟩

lemma inStep_unallocated (h : InStep db spent ix on off) {tx : RuneTx T A}
    (hspends : ∀ o ∈ tx.spends, o ∉ spent) (hnodup : tx.spends.Nodup) :
    ∃ off', unallocated db off ix tx = { unallocated db on ix tx with live := off' } ∧
      InStep db (spent ∪ passed tx.inputs.zipIdx) (unallocated db on ix tx).ix
        (unallocated db on ix tx).live off' := by
  apply foldl_invariant₂ (P := fun done (st st' : Spending T A) => ∃ off',
    st' = { st with live := off' } ∧ InStep db (spent ∪ passed done) st.ix st.live off')
  · refine ⟨off, rfl, ?_⟩
    rwa [passed_nil, Set.union_empty]
  · rintro done input rest st _ hinputs ⟨off', rfl, hstep⟩
    rw [passed_snoc, Set.union_insert]
    exact inStep_spendInput hstep (notMem_passed hspends hnodup hinputs)

lemma inStep_createOutput (tx : RuneTx T A) {st : Creating T A}
    (h : InStep db spent st.ix st.live off) (output : ℕ × RuneSheet SchemaRuneId) :
    ∃ off', createOutput db tx { st with live := off } output =
        { createOutput db tx st output with live := off' } ∧
      InStep db spent (createOutput db tx st output).ix (createOutput db tx st output).live off' := by
  unfold createOutput
  split
  · exact ⟨_, rfl, h⟩
  · split_ifs
    · exact ⟨_, rfl, h⟩
    · exact ⟨_, rfl, (touches_burns _ _).inStep (by decide) h⟩
    · exact ⟨_, rfl, h.createRow _ _⟩

lemma inStep_createOutputs (tx : RuneTx T A) (h : InStep db spent ix on off) (acc : TxAcc A)
    (outputs : List (ℕ × RuneSheet SchemaRuneId)) :
    ∃ off', outputs.foldl (createOutput db tx) ⟨off, ix, acc⟩ =
        { outputs.foldl (createOutput db tx) ⟨on, ix, acc⟩ with live := off' } ∧
      InStep db spent (outputs.foldl (createOutput db tx) ⟨on, ix, acc⟩).ix
        (outputs.foldl (createOutput db tx) ⟨on, ix, acc⟩).live off' := by
  apply foldl_invariant₂ (P := fun _ (st st' : Creating T A) => ∃ off',
    st' = { st with live := off' } ∧ InStep db spent st.ix st.live off')
  · exact ⟨off, rfl, h⟩
  · rintro done output rest st _ _ ⟨off', rfl, hstep⟩
    exact inStep_createOutput tx hstep output

section Block
variable (env : RunesEnv) (order : Essentials.HashOrder) (b : RuneBlock T A H)

lemma inStep_settleTx (txIndex : ℕ) (tx : RuneTx T A) {issued : Issued T A}
    (h : InStep db spent issued.ix on off) (acc : TxAcc A) (allocation : Allocation SchemaRuneId) :
    (settleTx db b order off txIndex tx issued acc allocation).2 =
        (settleTx db b order on txIndex tx issued acc allocation).2 ∧
      InStep db spent (settleTx db b order on txIndex tx issued acc allocation).2
        (settleTx db b order on txIndex tx issued acc allocation).1
        (settleTx db b order off txIndex tx issued acc allocation).1 := by
  have hnoted : InStep db spent (issued.ix.noteOverflow issued.unallocated allocation) on off :=
    ⟨⟨h.tracked.own, h.tracked.stored⟩, h.set, h.bare, h.cached⟩
  have hburned : InStep db spent ((balancesFromSheet allocation.unallocated).foldl (burn db)
      (issued.ix.noteOverflow issued.unallocated allocation)) on off :=
    (touches_burns _ _).inStep (by decide) hnoted
  obtain ⟨off', heq, hcreated⟩ := inStep_createOutputs tx hburned
    (issuedIo acc issued (balancesFromSheet allocation.unallocated)) allocation.allocated.toList
  unfold settleTx
  dsimp only
  rw [heq]
  exact ⟨rfl, (touches_afterOutputs b txIndex tx _ order issued _).inStep (by decide) hcreated⟩

lemma inStep_indexTx (h : InStep db spent ix on off) {entry : RuneTx T A × ℕ}
    (hspends : ∀ o ∈ entry.1.spends, o ∉ spent) (hnodup : entry.1.spends.Nodup) :
    (indexTx db b env order (off, ix) entry).2 = (indexTx db b env order (on, ix) entry).2 ∧
      InStep db (spent ∪ passed entry.1.inputs.zipIdx) (indexTx db b env order (on, ix) entry).2
        (indexTx db b env order (on, ix) entry).1 (indexTx db b env order (off, ix) entry).1 := by
  have hstart := (touches_startTx env b ix entry.2 entry.1).inStep (by decide) h
  have hinputs : ∀ input ∈ entry.1.inputs, input.previousOutput ∉ spent := fun input hinput =>
    hspends _ (List.mem_map_of_mem hinput)
  obtain ⟨hfound, hon, hlooked⟩ := hstart.hasRuneInput hinputs
  obtain ⟨off', heq, hspent⟩ := inStep_unallocated hlooked hspends hnodup
  have hissued : ∀ artifact sheet, InStep db (spent ∪ passed entry.1.inputs.zipIdx)
      (mintArtifact db b ((unallocated db on (ix.startTx db b env entry.2 entry.1) entry.1).ix.etch
        db env b entry.2 entry.1 artifact sheet) entry.2 artifact).ix
      (unallocated db on (ix.startTx db b env entry.2 entry.1) entry.1).live off' :=
    fun artifact sheet => (touches_mintArtifact b _ _ _).inStep (by decide)
      ((touches_etch env b _ _ _ _ _).inStep (by decide) hspent)
  have hskipped := hlooked.mono (Set.subset_union_left (t := passed entry.1.inputs.zipIdx))
  unfold indexTx
  dsimp only
  rw [hfound, hon, heq]
  split_ifs
  · exact ⟨rfl, hskipped⟩
  · exact ⟨rfl, hspent⟩
  · exact inStep_settleTx order b _ _ (hissued _ _) _ _
  · exact ⟨rfl, hspent⟩
  · exact inStep_settleTx order b _ _ (hissued _ _) _ _

variable {live : Finset (T × ℕ)}

lemma inStep_indexTxs (hspends : b.SpendsOnce) (hlive : ∀ o, o ∈ live ↔ db.outpoint o ≠ none) :
    (indexTxs db b env order ⟨none, ∅⟩).2 = (indexTxs db b env order ⟨some live, ∅⟩).2 ∧
      InStep db (spentBy b.txs.zipIdx) (indexTxs db b env order ⟨some live, ∅⟩).2
        (indexTxs db b env order ⟨some live, ∅⟩).1 (indexTxs db b env order ⟨none, ∅⟩).1 := by
  apply foldl_invariant₂ (P := fun done (st st' : LiveOutpoints T A × BlockRunesIndexer T A) =>
    st'.2 = st.2 ∧ InStep db (spentBy done) st.2 st.1 st'.1)
  · refine ⟨rfl, (tracked_new db).mono (Set.empty_subset _), ⟨live, rfl, hlive⟩, rfl, ?_⟩
    intro o row hrow
    exact absurd (show none = some row from hrow) (by simp)
  · rintro done entry rest ⟨on, ix⟩ ⟨off, ix'⟩ htxs ⟨heq, hstep⟩
    obtain rfl : ix' = ix := heq
    obtain ⟨hnew, hnodup⟩ := spendsOnce_turn hspends htxs
    rw [spentBy_snoc]
    exact inStep_indexTx env order b hstep hnew hnodup

/-- Both ways collect the same writes, and the set is then the set of outpoints of the view. -/
theorem inStep_collectBlock (hspends : b.SpendsOnce) (hlive : ∀ o, o ∈ live ↔ db.outpoint o ≠ none) :
    (collectBlock env order db none b).2 = (collectBlock env order db (some live) b).2 ∧
      ∃ live', (collectBlock env order db (some live) b).1.set = some live' ∧
        ∀ o, o ∈ live' ↔ ((collectBlock env order db (some live) b).2.view db).outpoint o ≠ none := by
  obtain ⟨heq, hstep⟩ := inStep_indexTxs env order b hspends hlive
  rw [collectBlock_snd, collectBlock_snd, heq]
  exact ⟨rfl, ((touches_flush b env _).inStep (by decide) hstep).set⟩

end Block

end BlockRunesIndexer

end Espo.Runes
