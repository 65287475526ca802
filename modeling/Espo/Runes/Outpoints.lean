import Espo.Runes.View

/-!
# The outpoints of a block

While a block is indexed, an outpoint that no earlier input of the block spent is one of the block's
own rows, or reads as in the database. So when each outpoint is spent at most once, the row an input
takes is the row of the view, whichever way it is looked up.
-/

namespace Espo.Runes
open Lib List

/-! ## Lookups -/

namespace LiveOutpoints
variable {T A : Type} [LinearOrder T] [LinearOrder A] {db : RuneRows T A} {live : LiveOutpoints T A}

/-- The cache of lookups holds what the database holds. -/
def Cached (db : RuneRows T A) (live : LiveOutpoints T A) : Prop :=
  ∀ o row, live.cache.get o = some row → row = db.outpoint o

section
variable (h : Cached db live)
include h

lemma cached_delete (o : T × ℕ) (set : Option (Finset (T × ℕ))) :
    Cached db ⟨set, live.cache.delete o⟩ := by
  intro o' row hget
  rw [Table.get_delete] at hget
  split_ifs at hget
  exact h o' row hget

lemma getPointLookupOutpoint_spec (o : T × ℕ) :
    (live.getPointLookupOutpoint db o).1 = db.outpoint o ∧
      Cached db (live.getPointLookupOutpoint db o).2 ∧
      (live.getPointLookupOutpoint db o).2.set = live.set := by
  unfold getPointLookupOutpoint
  split
  · rename_i row hrow
    exact ⟨h o row hrow, h, rfl⟩
  · refine ⟨rfl, fun o' row hget => ?_, rfl⟩
    rw [Table.get_put] at hget
    split_ifs at hget with heq
    · rw [heq, Option.some.inj hget]
    · exact h o' row hget

lemma takePointLookupOutpoint_spec (o : T × ℕ) :
    (live.takePointLookupOutpoint db o).1 = db.outpoint o ∧
      Cached db (live.takePointLookupOutpoint db o).2 ∧
      (live.takePointLookupOutpoint db o).2.set = live.set := by
  unfold takePointLookupOutpoint
  split
  · rename_i row hrow
    exact ⟨h o row hrow, cached_delete h o _, rfl⟩
  · exact ⟨rfl, h, rfl⟩

variable (ephem : Table (T × ℕ) (OutpointRuneBalances A))

lemma cached_hasRuneOutpoint (o : T × ℕ) :
    Cached db (live.hasRuneOutpoint db ephem o).2 ∧
      (live.hasRuneOutpoint db ephem o).2.set = live.set := by
  unfold hasRuneOutpoint
  split_ifs
  · exact ⟨h, rfl⟩
  · exact ⟨h, rfl⟩
  · exact (getPointLookupOutpoint_spec h o).2

lemma cached_hasRuneInput (inputs : List (TxIn T)) :
    Cached db (live.hasRuneInput db ephem inputs).2 ∧
      (live.hasRuneInput db ephem inputs).2.set = live.set := by
  induction inputs generalizing live with
  | nil => exact ⟨h, rfl⟩
  | cons input inputs ih =>
    obtain ⟨hcached, hset⟩ := cached_hasRuneOutpoint h ephem input.previousOutput
    rw [hasRuneInput]
    split_ifs
    · exact ⟨hcached, hset⟩
    · exact ⟨(ih hcached).1, (ih hcached).2.trans hset⟩

/-- A row that is spent is one of the block's own, or the database has it. -/
theorem takeOutpoint_spec {ephem : Table (T × ℕ) (OutpointRuneBalances A)} {o : T × ℕ}
    {row : OutpointRuneBalances A} {previous : Option (OutpointRuneBalances A)}
    (htake : (live.takeOutpoint db ephem o).1 = some (row, previous)) :
    ephem.get o = some row ∧ previous = none ∨ db.outpoint o = some row ∧ previous = some row := by
  unfold takeOutpoint at htake
  split at htake
  · rename_i row' hrow
    obtain ⟨rfl, rfl⟩ : row' = row ∧ none = previous := by simpa using htake
    exact .inl ⟨hrow, rfl⟩
  · split at htake
    · split_ifs at htake
      · obtain ⟨row', hrow, heq⟩ := Option.map_eq_some_iff.1 htake
        obtain ⟨rfl, rfl⟩ : row' = row ∧ some row' = previous := by simpa using heq
        exact .inr ⟨hrow, rfl⟩
    · obtain ⟨row', hrow, heq⟩ := Option.map_eq_some_iff.1 htake
      obtain ⟨rfl, rfl⟩ : row' = row ∧ some row' = previous := by simpa using heq
      rw [(takePointLookupOutpoint_spec h o).1] at hrow
      exact .inr ⟨hrow, rfl⟩

lemma cached_takeOutpoint (o : T × ℕ) : Cached db (live.takeOutpoint db ephem o).2 := by
  unfold takeOutpoint
  split
  · exact h
  · split
    · split_ifs
      · exact h
      · exact h
    · exact (takePointLookupOutpoint_spec h o).2.1

end

end LiveOutpoints

section Blocks
variable {T A H : Type}

/-- The outpoints that a transaction spends. -/
def RuneTx.spends (tx : RuneTx T A) : List (T × ℕ) := tx.inputs.map TxIn.previousOutput

/-- The block spends each outpoint at most once. -/
def RuneBlock.SpendsOnce (b : RuneBlock T A H) : Prop := (b.txs.flatMap RuneTx.spends).Nodup

end Blocks

section Rows
variable {T A : Type} [LinearOrder T] [LinearOrder A]

/-- `get_live_outpoints`. -/
def RuneRows.getLiveOutpoints (rows : RuneRows T A) : Finset (T × ℕ) :=
  rows.keys.biUnion fun
    | .outpoint o => {o}
    | _ => ∅

lemma mem_getLiveOutpoints {rows : RuneRows T A} {o : T × ℕ} :
    o ∈ rows.getLiveOutpoints ↔ rows.outpoint o ≠ none := by
  have hkey : o ∈ rows.getLiveOutpoints ↔ RuneKey.outpoint o ∈ rows := by
    unfold RuneRows.getLiveOutpoints
    rw [Finset.mem_biUnion]
    constructor
    · rintro ⟨k, hk, ho⟩
      cases k with
      | outpoint o' =>
        obtain rfl := Finset.mem_singleton.1 ho
        exact Finmap.mem_keys.1 hk
      | _ => exact absurd ho (Finset.notMem_empty o)
    · intro hmem
      exact ⟨.outpoint o, Finmap.mem_keys.2 hmem, Finset.mem_singleton_self o⟩
  have hnone : rows.outpoint o = none ↔ RuneKey.outpoint o ∉ rows := Finmap.lookup_eq_none
  rw [hkey, Ne, hnone, not_not]

end Rows

namespace BlockRunesIndexer
variable {T A H : Type} [LinearOrder T] [LinearOrder A] {db : RuneRows T A}
  {ix ix' : BlockRunesIndexer T A} {spent spent' : Set (T × ℕ)}

/-- How the outpoints of the view are known: the block's own rows are in `ephem`, and of the others
only those in `spent` differ from the database. -/
structure Tracked (db : RuneRows T A) (spent : Set (T × ℕ)) (ix : BlockRunesIndexer T A) : Prop where
  own : ∀ o row, ix.ephem.get o = some row → (ix.view db).outpoint o = some row
  stored : ∀ o, ix.ephem.get o = none → o ∉ spent → (ix.view db).outpoint o = db.outpoint o

lemma tracked_new (db : RuneRows T A) : Tracked db ∅ new where
  own o row h := absurd (show none = some row from h) (by simp)
  stored _ _ _ := rfl

lemma Tracked.mono (h : Tracked db spent ix) (hsub : spent ⊆ spent') : Tracked db spent' ix where
  own := h.own
  stored o ho hspent := h.stored o ho fun hmem => hspent (hsub hmem)

lemma Touches.tracked {classes : List KeyClass} (htouches : Touches db classes ix ix')
    (hclasses : .outpoints ∉ classes) (h : Tracked db spent ix) : Tracked db spent ix' where
  own o row ho := by
    rw [htouches.ephem] at ho
    exact (htouches.rows (.outpoint o) hclasses).trans (h.own o row ho)
  stored o ho hspent := by
    rw [htouches.ephem] at ho
    exact (htouches.rows (.outpoint o) hclasses).trans (h.stored o ho hspent)

lemma ephem_spendRow (ix : BlockRunesIndexer T A) (o : T × ℕ) (row : OutpointRuneBalances A)
    (previous : Option (OutpointRuneBalances A)) :
    (ix.spendRow db o row previous).ephem = ix.ephem.delete o :=
  (touches_spendRow ix o row previous).ephem

lemma ephem_createRow (ix : BlockRunesIndexer T A) (o : T × ℕ) (row : OutpointRuneBalances A) :
    (ix.createRow db o row).ephem = ix.ephem.put o row :=
  (touches_createRow ix o row).ephem

lemma Tracked.spendRow (h : Tracked db spent ix) (o : T × ℕ) (row : OutpointRuneBalances A)
    (previous : Option (OutpointRuneBalances A)) :
    Tracked db (insert o spent) (ix.spendRow db o row previous) where
  own o' row' ho := by
    rw [ephem_spendRow, Table.get_delete] at ho
    split_ifs at ho with heq
    rw [outpoint_spendRow, if_neg heq]
    exact h.own o' row' ho
  stored o' ho hspent := by
    rw [Set.mem_insert_iff, not_or] at hspent
    rw [ephem_spendRow, Table.get_delete, if_neg hspent.1] at ho
    rw [outpoint_spendRow, if_neg hspent.1]
    exact h.stored o' ho hspent.2

lemma Tracked.createRow (h : Tracked db spent ix) (o : T × ℕ) (row : OutpointRuneBalances A) :
    Tracked db spent (ix.createRow db o row) where
  own o' row' ho := by
    rw [ephem_createRow, Table.get_put] at ho
    rw [outpoint_createRow]
    split_ifs at ho ⊢ with heq
    · exact ho
    · exact h.own o' row' ho
  stored o' ho hspent := by
    rw [ephem_createRow, Table.get_put] at ho
    rw [outpoint_createRow]
    split_ifs at ho ⊢ with heq
    exact h.stored o' ho hspent

/-- The outpoints of inputs that have been passed. -/
def passed (done : List (TxIn T × ℕ)) : Set (T × ℕ) :=
  {o | o ∈ done.map fun input => input.1.previousOutput}

omit [LinearOrder T] in
lemma passed_nil : passed ([] : List (TxIn T × ℕ)) = ∅ := by simp [passed]

omit [LinearOrder T] in
lemma passed_snoc (done : List (TxIn T × ℕ)) (input : TxIn T × ℕ) :
    passed (done ++ [input]) = insert input.1.previousOutput (passed done) := by
  ext o
  simp [passed, or_comm]

omit [LinearOrder T] [LinearOrder A] in
lemma map_zipIdx_inputs (tx : RuneTx T A) :
    tx.inputs.zipIdx.map (fun input => input.1.previousOutput) = tx.spends := by
  have hfst : tx.inputs.zipIdx.map Prod.fst = tx.inputs := zipIdx_map_fst 0 tx.inputs
  rw [RuneTx.spends, ← hfst, map_map, hfst]
  rfl

omit [LinearOrder T] [LinearOrder A] in
lemma notMem_passed {tx : RuneTx T A} (hspends : ∀ o ∈ tx.spends, o ∉ spent)
    (hnodup : tx.spends.Nodup) {done rest : List (TxIn T × ℕ)} {input : TxIn T × ℕ}
    (hinputs : tx.inputs.zipIdx = done ++ input :: rest) :
    input.1.previousOutput ∉ spent ∪ passed done := by
  have hmap := map_zipIdx_inputs tx
  rw [hinputs, map_append] at hmap
  rw [← hmap] at hspends hnodup
  intro hmem
  rcases hmem with hold | hdone
  · exact hspends _ (by simp) hold
  · exact disjoint_of_nodup_append hnodup hdone mem_cons_self

variable (done : List (RuneTx T A × ℕ))

/-- The outpoints that transactions spend. -/
def spentBy : Set (T × ℕ) :=
  {o | o ∈ done.flatMap fun entry => entry.1.spends}

omit [LinearOrder T] [LinearOrder A] in
lemma spentBy_snoc (entry : RuneTx T A × ℕ) :
    spentBy (done ++ [entry]) = spentBy done ∪ passed entry.1.inputs.zipIdx := by
  ext o
  rw [passed, map_zipIdx_inputs]
  simp [spentBy]

omit [LinearOrder T] [LinearOrder A] in
lemma spendsOnce_turn {b : RuneBlock T A H} (h : b.SpendsOnce)
    {done rest : List (RuneTx T A × ℕ)} {entry : RuneTx T A × ℕ}
    (htxs : b.txs.zipIdx = done ++ entry :: rest) :
    (∀ o ∈ entry.1.spends, o ∉ spentBy done) ∧ entry.1.spends.Nodup := by
  unfold RuneBlock.SpendsOnce at h
  rw [eq_append_of_zipIdx_eq htxs, flatMap_append, flatMap_map] at h
  constructor
  · intro o ho hdone
    exact disjoint_of_nodup_append h hdone (mem_append_left _ ho)
  · exact (nodup_append.1 (nodup_append.1 h).2.1).1

lemma Tracked.outpoint_of_take (h : Tracked db spent ix) {live : LiveOutpoints T A}
    (hlive : live.Cached db) {o : T × ℕ} (ho : o ∉ spent) {row : OutpointRuneBalances A}
    {previous : Option (OutpointRuneBalances A)}
    (htake : (live.takeOutpoint db ix.ephem o).1 = some (row, previous)) :
    (ix.view db).outpoint o = some row := by
  rcases LiveOutpoints.takeOutpoint_spec hlive htake with ⟨hown, -⟩ | ⟨hstored, -⟩
  · exact h.own o row hown
  · cases hephem : ix.ephem.get o with
    | none => rw [h.stored o hephem ho, hstored]
    | some row' =>
      -- the row of the block goes first
      unfold LiveOutpoints.takeOutpoint at htake
      rw [hephem] at htake
      obtain ⟨rfl, -⟩ : row' = row ∧ none = previous := by simpa using htake
      exact h.own o row' hephem

/-! ## Invariants of a block -/

/-- A property of the indexer that every part of a transaction and the flushes keep. -/
structure BlockInvariant (db : RuneRows T A) (env : RunesEnv) (b : RuneBlock T A H)
    (P : BlockRunesIndexer T A → Prop) : Prop where
  startTx : ∀ {ix : BlockRunesIndexer T A} txIndex tx, P ix → P (ix.startTx db b env txIndex tx)
  spendRow : ∀ {ix : BlockRunesIndexer T A} {o row previous},
    (ix.ephem.get o = some row ∧ previous = none ∨ db.outpoint o = some row ∧ previous = some row) →
      P ix → P (ix.spendRow db o row previous)
  etch : ∀ {ix : BlockRunesIndexer T A} txIndex tx artifact sheet, P ix →
    P (ix.etch db env b txIndex tx artifact sheet).ix
  mintArtifact : ∀ {st : Issued T A} txIndex artifact, P st.ix → P (mintArtifact db b st txIndex artifact).ix
  noteOverflow : ∀ {ix : BlockRunesIndexer T A} sheet allocation, P ix → P (ix.noteOverflow sheet allocation)
  burns : ∀ {ix} balances, P ix → P (List.foldl (burn db) ix balances)
  createRow : ∀ {ix : BlockRunesIndexer T A} {o} row, o.1 ∈ b.txids → P ix → P (ix.createRow db o row)
  afterOutputs : ∀ {ix : BlockRunesIndexer T A} {tx} order txIndex issued acc, tx.txid ∈ b.txids → P ix →
    P (((ix.transferVolumes db order acc).recordActivities db b txIndex tx issued).finishTx db b txIndex tx acc)
  flush : ∀ {ix : BlockRunesIndexer T A}, P ix → P (ix.flush db b env)

namespace BlockInvariant
variable {P : BlockRunesIndexer T A → Prop} {live : LiveOutpoints T A} {env : RunesEnv}
  {b : RuneBlock T A H} (h : BlockInvariant db env b P)
include h

lemma afterInputs (hlive : live.Cached db) (hix : P ix) (tx : RuneTx T A) :
    P (unallocated db live ix tx).ix ∧
      (unallocated db live ix tx).live.Cached db := by
  refine foldlRecOn (motive := fun st : Spending T A => P st.ix ∧ st.live.Cached db) _ _ ⟨hix, hlive⟩ ?_
  rintro st ⟨hst, hcached⟩ input -
  have htaken := LiveOutpoints.cached_takeOutpoint hcached st.ix.ephem input.1.previousOutput
  unfold spendInput
  dsimp only
  split
  · exact ⟨hst, htaken⟩
  · rename_i row previous htake
    exact ⟨h.spendRow (LiveOutpoints.takeOutpoint_spec hcached htake) hst,
      LiveOutpoints.cached_delete htaken _ _⟩

lemma createOutputs (hlive : live.Cached db) (hix : P ix) {tx : RuneTx T A} (htx : tx.txid ∈ b.txids)
    (acc : TxAcc A) (outputs : List (ℕ × RuneSheet SchemaRuneId)) :
    P (outputs.foldl (createOutput db tx) ⟨live, ix, acc⟩).ix ∧
      (outputs.foldl (createOutput db tx) ⟨live, ix, acc⟩).live.Cached db := by
  refine foldlRecOn (motive := fun st : Creating T A => P st.ix ∧ st.live.Cached db) _ _ ⟨hix, hlive⟩ ?_
  rintro st ⟨hst, hcached⟩ output -
  unfold createOutput
  split
  · exact ⟨hst, hcached⟩
  · split_ifs
    · exact ⟨hst, hcached⟩
    · exact ⟨h.burns _ hst, hcached⟩
    · exact ⟨h.createRow _ htx hst, LiveOutpoints.cached_delete hcached _ _⟩

variable (order : Essentials.HashOrder)

lemma afterSettle (hlive : live.Cached db) (txIndex : ℕ) {tx : RuneTx T A} (htx : tx.txid ∈ b.txids)
    {issued : Issued T A} (hix : P issued.ix) (acc : TxAcc A) (allocation : Allocation SchemaRuneId) :
    P (settleTx db b order live txIndex tx issued acc allocation).2 ∧
      (settleTx db b order live txIndex tx issued acc allocation).1.Cached db := by
  have hburned := h.burns (balancesFromSheet allocation.unallocated)
    (h.noteOverflow issued.unallocated allocation hix)
  obtain ⟨hcreated, hcached⟩ := h.createOutputs hlive hburned htx
    (issuedIo acc issued (balancesFromSheet allocation.unallocated)) allocation.allocated.toList
  exact ⟨h.afterOutputs order txIndex issued _ htx hcreated, hcached⟩

lemma afterTx (hlive : live.Cached db) (hix : P ix) {entry : RuneTx T A × ℕ}
    (htx : entry.1.txid ∈ b.txids) :
    P (indexTx db b env order (live, ix) entry).2 ∧
      (indexTx db b env order (live, ix) entry).1.Cached db := by
  have hstart := h.startTx entry.2 entry.1 hix
  have hfound := (LiveOutpoints.cached_hasRuneInput hlive
    (ix.startTx db b env entry.2 entry.1).ephem entry.1.inputs).1
  have hspent := h.afterInputs hfound hstart entry.1
  have hissued := fun artifact sheet =>
    h.mintArtifact entry.2 artifact (h.etch entry.2 entry.1 artifact sheet hspent.1)
  unfold indexTx
  dsimp only
  split_ifs
  · exact ⟨hstart, hfound⟩
  · exact hspent
  · exact h.afterSettle order hspent.2 _ htx (hissued _ _) _ _
  · exact hspent
  · exact h.afterSettle order hspent.2 _ htx (hissued _ _) _ _

/-- What every part of a block keeps holds at its end. -/
theorem collectBlock (hnew : P new) (live : Option (Finset (T × ℕ))) :
    P (Runes.collectBlock env order db live b).2 := by
  have hscanned : P (indexTxs db b env order ⟨live, ∅⟩).2 ∧
      (indexTxs db b env order ⟨live, ∅⟩).1.Cached db := by
    exact foldlRecOn (motive := fun st : LiveOutpoints T A × BlockRunesIndexer T A =>
      P st.2 ∧ st.1.Cached db) _ _ ⟨hnew, fun _ _ hrow => nomatch hrow⟩ fun _ hst _ hentry =>
        h.afterTx order hst.2 hst.1 (mem_map_of_mem (fst_mem_of_mem_zipIdx hentry))
  rw [collectBlock_snd]
  exact h.flush hscanned.1

end BlockInvariant

/-- A property of the indexer that depends on its outpoints and that both kinds of changes to them
keep. -/
structure OutpointInvariant (db : RuneRows T A) (P : BlockRunesIndexer T A → Prop) : Prop where
  touches : ∀ {classes ix ix'}, Touches db classes ix ix' → .outpoints ∉ classes → P ix → P ix'
  noteOverflow : ∀ ix issued allocation, P ix → P (ix.noteOverflow issued allocation)
  spendRow : ∀ ix o row previous,
    (ix.ephem.get o = some row ∧ previous = none ∨ db.outpoint o = some row ∧ previous = some row) →
      P ix → P (ix.spendRow db o row previous)
  createRow : ∀ ix o row, P ix → P (ix.createRow db o row)

lemma OutpointInvariant.block {P : BlockRunesIndexer T A → Prop} (h : OutpointInvariant db P)
    (env : RunesEnv) (b : RuneBlock T A H) : BlockInvariant db env b P where
  startTx _ _ := h.touches (touches_startTx env b _ _ _) (by decide)
  spendRow := h.spendRow _ _ _ _
  etch _ _ _ _ := h.touches (touches_etch env b _ _ _ _ _) (by decide)
  mintArtifact _ _ := h.touches (touches_mintArtifact b _ _ _) (by decide)
  noteOverflow := h.noteOverflow _
  burns _ := h.touches (touches_burns _ _) (by decide)
  createRow _ _ := h.createRow _ _ _
  afterOutputs _ _ _ _ _ := h.touches (touches_afterOutputs b _ _ _ _ _ _) (by decide)
  flush := h.touches (touches_flush b env _) (by decide)

end BlockRunesIndexer

end Espo.Runes
