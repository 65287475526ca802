import Espo.Runes.LiveSet

/-!
# The runes module

The module keeps the height it has indexed and, if it is configured to, the set of live outpoints. It
skips blocks it has indexed; after a rollback, which also follows a block that failed half way, it
reads both from the namespace again.

Its runs with the set and without it write the same. A rollback to no
height at all clears the set, so there must be no outpoint left then. The undo records may restore
less than there was, when a transaction id comes back, but never an outpoint that was not there
before the block.
-/

namespace Espo.Runes
open Lib

/-- `Runes` with its namespace. -/
structure RunesModule (T A H : Type) where
  store : RunesDb T A H
  indexHeight : Option ℕ
  liveOutpoints : Finset (T × ℕ)

namespace RunesModule
variable {T A H : Type} [LinearOrder T] [LinearOrder A]

/-- The module on an empty namespace. -/
def new : RunesModule T A H := ⟨.empty, none, ∅⟩

variable (load : Bool) (m : RunesModule T A H)

/-- `reload_live_outpoints`; `load` is `load_live_outpoints`. -/
def reloadLiveOutpoints (height : Option ℕ) : RunesModule T A H :=
  { m with
    liveOutpoints := if height.isNone || !load then ∅ else RuneRows.getLiveOutpoints m.store.rows }

/-- The set that the indexer of a block works with. -/
def indexerSet : Option (Finset (T × ℕ)) :=
  if load then some m.liveOutpoints else none

variable (env : RunesEnv) (order : Essentials.HashOrder)

/-- The puts, deletes and known values that the indexer of a block passes to `set_block_batch`. -/
def batch (m : RunesModule T A H) (b : RuneBlock T A H) :
    WriteQueue (RuneKey.Value (T := T) (A := A)) :=
  (collectBlock env order m.store.rows (m.indexerSet load) b).2.writes

/-- `index_block` of the module. -/
def indexBlock (m : RunesModule T A H) (b : RuneBlock T A H) : RunesModule T A H :=
  if m.indexHeight.any fun prev => b.height ≤ prev then m
  else
    let indexed := Runes.indexBlock env order (m.indexerSet load) m.store b
    { store := indexed.2
      indexHeight := some b.height
      liveOutpoints := indexed.1.getD m.liveOutpoints }

variable [DecidableEq H]

/-- `handle_reorg` of the module; `none` when the fuel runs out. -/
def handleReorg (nextHeight fuel : ℕ) :
    Option (Except (RollbackError H) Unit × RunesModule T A H) :=
  match m.store.handleReorg nextHeight fuel with
  | none => none
  | some (.error e, s) => some (.error e, { m with store := s })
  | some (.ok (), s) =>
    let height := s.getIndexHeight
    let m := { m with store := s }.reloadLiveOutpoints load height
    some (.ok (), { m with indexHeight := height })

/-- What happens to the module. -/
inductive Event (T A H : Type) where
  /-- A block is indexed. -/
  | block (order : Essentials.HashOrder) (b : RuneBlock T A H)
  /-- The blocks from a height on are rolled back. -/
  | reorg (nextHeight fuel : ℕ)
  /-- A block fails after it has changed the set to `live`, and is rolled back. -/
  | failedBlock (live : Finset (T × ℕ)) (nextHeight fuel : ℕ)

/-- The blocks of an event spend each outpoint at most once. -/
def Event.SpendsOnce {T A H : Type} : Event T A H → Prop
  | .block _ b => b.SpendsOnce
  | _ => True

/-- The module after a rollback that succeeds; when one fails, the process stops. -/
def rollBack (nextHeight fuel : ℕ) : Option (RunesModule T A H) :=
  match m.handleReorg load nextHeight fuel with
  | some (.ok (), m') => some m'
  | _ => none

/-- One event. -/
def step :
    Event T A H → Option (RunesModule T A H)
  | .block order b => some (m.indexBlock load env order b)
  | .reorg nextHeight fuel => m.rollBack load nextHeight fuel
  | .failedBlock live nextHeight fuel => { m with liveOutpoints := live }.rollBack load nextHeight fuel

/-- A run of the module. -/
def run (events : List (Event T A H)) : Option (RunesModule T A H) :=
  events.foldl (fun m event => m.bind fun m => m.step load env event) (some new)

end RunesModule

/-! ## The undo records never bring an outpoint back -/

section Grounded
variable {T A H : Type} [LinearOrder T] [LinearOrder A] {s s' : RunesDb T A H}
  {b : RuneBlock T A H}
open BlockRunesIndexer RunesStore

/-- The outpoints whose old rows a block has noted had that row, or are noted to have had none. -/
def NotedOutpoints (db : RuneRows T A) (ix : BlockRunesIndexer T A) : Prop :=
  ∀ o (raw : Option (OutpointRuneBalances A)), ⟨.outpoint o, raw⟩ ∈ ix.writes.preimages.entries →
    raw = none ∨ raw = db.outpoint o

variable {ix : BlockRunesIndexer T A}

lemma notedOutpoints_spent {db : RuneRows T A} {o : T × ℕ}
    {previous : Option (OutpointRuneBalances A)}
    (hprevious : previous = none ∨ previous = db.outpoint o) (hnoted : NotedOutpoints db ix) :
    NotedOutpoints db ((ix.remember (.outpoint o) previous).queueDelete (.outpoint o)) := by
  intro o' raw hmem
  rcases WriteQueue.of_mem_preimages_remember hmem with hold | heq
  · exact hnoted o' raw hold
  · cases heq
    exact hprevious

lemma outpointInvariant_noted (db : RuneRows T A) :
    OutpointInvariant db (NotedOutpoints db) where
  touches htouches hclasses hnoted o raw hmem :=
    hnoted o raw (htouches.noted hclasses _ hmem rfl)
  noteOverflow _ _ _ hnoted := hnoted
  spendRow ix o row previous htake hnoted := by
    have hprevious : previous = none ∨ previous = db.outpoint o := by
      rcases htake with ⟨-, rfl⟩ | ⟨hrow, rfl⟩
      · exact .inl rfl
      · exact .inr hrow.symm
    have hspent : NotedOutpoints db
        ((({ ix with ephem := ix.ephem.delete o }).remember (.outpoint o) previous).queueDelete
          (.outpoint o)) := notedOutpoints_spent hprevious hnoted
    unfold spendRow
    split
    · exact hspent
    · intro o' raw hmem
      have hnoted' := (touches_applyAddressDeltas _ _ _ _).noted (by decide) _ hmem rfl
      rcases WriteQueue.of_mem_preimages_remember hnoted' with hold | heq
      · exact hspent o' raw hold
      · cases heq
  createRow ix o row hnoted := by
    unfold createRow
    split
    · exact hnoted
    · intro o' raw hmem
      have hnoted' := (touches_receiveBalances _ _ _).noted (by decide) _ hmem rfl
      exact hnoted o' raw hnoted'

/-- The height and the undo records of `s`, and outpoints that `s` has. -/
structure Shrunk (s' s : RunesDb T A H) : Prop where
  height : s'.getIndexHeight = s.getIndexHeight
  undo : s'.undo = s.undo
  outpoints : ∀ o, RuneRows.outpoint s'.rows o = none ∨
    RuneRows.outpoint s'.rows o = RuneRows.outpoint s.rows o

/-- The undo records are those of heights up to the indexed one. -/
def UndoBelow (s : RunesDb T A H) : Prop :=
  ∀ h, s.undo.get h ≠ none → ∃ top, s.getIndexHeight = some top ∧ h ≤ top

/-- Undoing block after block ends in a namespace without a height and without outpoints. -/
inductive Grounded : RunesDb T A H → Prop where
  | ground {s : RunesDb T A H} : s.getIndexHeight = none → UndoBelow s →
    (∀ o, RuneRows.outpoint s.rows o = none) → Grounded s
  | block {s : RunesDb T A H} {height : ℕ} {undo : RunesBlockUndo (RuneKey.Value (T := T) (A := A)) H} :
    s.getIndexHeight = some height → UndoBelow s → s.undo.get height = some (some undo) →
    Grounded (s.undoBlock height undo) → Grounded s

lemma Shrunk.applyChange (h : Shrunk s' s)
    (change : RuneUndoChange (RuneKey.Value (T := T) (A := A)) H) :
    Shrunk (s'.applyChange change) (s.applyChange change) := by
  cases change with
  | row key previous =>
    refine ⟨h.height, h.undo, fun o => ?_⟩
    by_cases hkey : RuneKey.outpoint o = key
    · subst hkey
      right
      exact (lookup_setRow_self s'.rows _ previous).trans (lookup_setRow_self s.rows _ previous).symm
    · have hrow' := lookup_setRow_of_ne s'.rows previous hkey
      have hrow := lookup_setRow_of_ne s.rows previous hkey
      exact (h.outpoints o).imp hrow'.trans fun heq => (hrow'.trans heq).trans hrow.symm
  | undo height previous =>
    refine ⟨h.height, ?_, h.outpoints⟩
    show s'.undo.set height previous = s.undo.set height previous
    rw [h.undo]
  | indexHeight previous => exact ⟨rfl, h.undo, h.outpoints⟩
  | indexBlockHash previous => exact ⟨h.height, h.undo, h.outpoints⟩

lemma Shrunk.undoBlock (h : Shrunk s' s) (height : ℕ)
    (undo : RunesBlockUndo (RuneKey.Value (T := T) (A := A)) H) :
    Shrunk (s'.undoBlock height undo) (s.undoBlock height undo) := by
  have hchanges : Shrunk (undo.changes.foldl RunesStore.applyChange s')
      (undo.changes.foldl RunesStore.applyChange s) := by
    apply foldl_invariant₂ (P := fun _ t' t => Shrunk t' t)
    · exact h
    · exact fun _ change _ _ _ _ ht => ht.applyChange change
  refine ⟨rfl, ?_, hchanges.outpoints⟩
  show Table.delete _ height = Table.delete _ height
  rw [hchanges.undo]

lemma UndoBelow.shrunk (h : UndoBelow s) (hshrunk : Shrunk s' s) : UndoBelow s' := by
  intro height hget
  rw [hshrunk.height]
  exact h height (hshrunk.undo ▸ hget)

lemma Grounded.shrunk (h : Grounded s) (hshrunk : Shrunk s' s) : Grounded s' := by
  induction h generalizing s' with
  | ground hheight hundo hrows =>
    refine .ground (hshrunk.height.trans hheight) (hundo.shrunk hshrunk) fun o => ?_
    exact (hshrunk.outpoints o).elim id fun heq => heq.trans (hrows o)
  | block hheight hundo hget _ ih =>
    exact .block (hshrunk.height.trans hheight) (hundo.shrunk hshrunk) (hshrunk.undo ▸ hget)
      (ih (hshrunk.undoBlock _ _))

lemma Grounded.undoBelow (h : Grounded s) : UndoBelow s := by
  cases h with
  | ground _ hundo _ => exact hundo
  | block _ hundo _ _ => exact hundo

lemma Grounded.outpoint_eq_none (h : Grounded s) (hheight : s.getIndexHeight = none) (o : T × ℕ) :
    RuneRows.outpoint s.rows o = none := by
  cases h with
  | ground _ _ hrows => exact hrows o
  | block hsome _ _ _ => exact absurd (hheight.symm.trans hsome) (by simp)

lemma grounded_empty : Grounded (RunesStore.empty : RunesDb T A H) :=
  .ground rfl (fun _ hget => absurd rfl hget) fun _ => rfl

/-- Undoing a block gives outpoints that were there before it. -/
theorem shrunk_undoBlock (hfresh : s.undo.get b.height = none) (hnoted : NotedOutpoints s.rows ix) :
    Shrunk ((writeBlock s b ix).undoBlock b.height (s.undoRecord RuneKey.requiresPreimage
      ix.writes.retained ix.writes.deletes ix.writes.preimages b.height b.hash)) s := by
  have hchanges := foldl_applyChange_row (writeBlock s b ix) (undoChanges RuneKey.requiresPreimage
    s.rows ix.writes.deletes ix.writes.retained ix.writes.preimages)
  unfold RunesStore.undoBlock undoRecord
  rw [hchanges]
  refine ⟨?_, ?_, fun o => ?_⟩
  · cases s.getIndexHeight <;> rfl
  · ext1 h
    rw [Table.get_delete]
    split_ifs with heq
    · rw [heq, hfresh]
    · exact Table.get_put_of_ne _ _ heq
  · rcases lookup_undo_cases RuneKey.requiresPreimage s.rows ix.writes.retained ix.writes.preimages
      ix.writes.deletes (.outpoint o) with heq | hnone | hknown
    · exact .inr heq
    · exact .inl hnone
    · exact hnoted o _ hknown

lemma Grounded.indexBlock (h : Grounded s) (env : RunesEnv) (order : Essentials.HashOrder)
    (live : Option (Finset (T × ℕ))) (hheight : ∀ top, s.getIndexHeight = some top → top < b.height) :
    Grounded (Runes.indexBlock env order live s b).2 := by
  have hfresh : s.undo.get b.height = none := by
    by_contra hget
    obtain ⟨top, htop, hle⟩ := h.undoBelow b.height hget
    have hlt := hheight top htop
    omega
  have hnoted := ((outpointInvariant_noted s.rows).block env b).collectBlock order
    (fun o raw hmem => absurd hmem (List.not_mem_nil)) live
  refine .block rfl ?_ (Table.get_put_self _ _ _) (h.shrunk (shrunk_undoBlock hfresh hnoted))
  intro height hget
  refine ⟨b.height, rfl, ?_⟩
  by_cases heq : height = b.height
  · exact heq.le
  · obtain ⟨top, htop, hle⟩ := h.undoBelow height
      (ne_of_eq_of_ne (Table.get_put_of_ne s.undo _ heq).symm hget)
    exact hle.trans (hheight top htop).le

lemma Grounded.rollbackToHeight [DecidableEq H] (h : Grounded s) {target : Option ℕ} {fuel : ℕ}
    {result : Except (RollbackError H) Unit}
    (hroll : RunesStore.rollbackToHeight target fuel s = some (result, s')) : Grounded s' := by
  induction fuel generalizing s with
  | zero => exact absurd hroll (by simp [RunesStore.rollbackToHeight])
  | succ fuel ih =>
    rw [RunesStore.rollbackToHeight] at hroll
    split at hroll
    · obtain ⟨-, rfl⟩ : _ ∧ s = s' := by simpa using hroll
      exact h
    · rename_i height hheight
      split_ifs at hroll
      · obtain ⟨-, rfl⟩ : _ ∧ s = s' := by simpa using hroll
        exact h
      · split at hroll
        · obtain ⟨-, rfl⟩ : _ ∧ s = s' := by simpa using hroll
          exact h
        · rename_i undo hread
          refine ih ?_ hroll
          cases h with
          | ground hnone _ _ => exact absurd (hheight.symm.trans hnone) (by simp)
          | block hsome _ hget hundone =>
            cases hheight.symm.trans hsome
            obtain rfl := Option.some.inj (Option.some.inj ((get_of_readUndo hread).symm.trans hget))
            exact hundone

end Grounded

/-! ## Runs -/

namespace RunesModule
variable {T A H : Type} [LinearOrder T] [LinearOrder A] {on off : RunesModule T A H}
open BlockRunesIndexer

/-- The module with the set and the module without it, at the same point of a run. -/
structure SameRun (on off : RunesModule T A H) : Prop where
  store : on.store = off.store
  indexHeight : on.indexHeight = off.indexHeight
  cached : on.indexHeight = on.store.getIndexHeight
  live : on.liveOutpoints = RuneRows.getLiveOutpoints on.store.rows
  grounded : Grounded on.store

lemma sameRun_new : SameRun (new : RunesModule T A H) new where
  store := rfl
  indexHeight := rfl
  cached := rfl
  live := rfl
  grounded := grounded_empty

lemma SameRun.mem_live (h : SameRun on off) (o : T × ℕ) :
    o ∈ on.liveOutpoints ↔ RuneRows.outpoint on.store.rows o ≠ none := by
  rw [h.live, mem_getLiveOutpoints]

lemma indexBlock_eq (load : Bool) (env : RunesEnv) (order : Essentials.HashOrder)
    {m : RunesModule T A H} {b : RuneBlock T A H}
    (hskip : ¬ (m.indexHeight.any fun prev => b.height ≤ prev) = true) :
    m.indexBlock load env order b =
      ⟨writeBlock m.store b (Runes.collectBlock env order m.store.rows (m.indexerSet load) b).2,
        some b.height,
        (Runes.collectBlock env order m.store.rows (m.indexerSet load) b).1.set.getD m.liveOutpoints⟩ := by
  rw [RunesModule.indexBlock, if_neg hskip, ← indexBlock_fst, ← indexBlock_snd]

lemma SameRun.indexBlock (h : SameRun on off) (env : RunesEnv) (order : Essentials.HashOrder)
    {b : RuneBlock T A H} (hspends : b.SpendsOnce) :
    SameRun (on.indexBlock true env order b) (off.indexBlock false env order b) := by
  by_cases hskip : (on.indexHeight.any fun prev => b.height ≤ prev) = true
  · rw [RunesModule.indexBlock, RunesModule.indexBlock, ← h.indexHeight, if_pos hskip, if_pos hskip]
    exact h
  · have hheight : ∀ top, on.store.getIndexHeight = some top → top < b.height := by
      intro top htop
      rw [h.cached, htop] at hskip
      simpa using hskip
    have hgrounded := h.grounded.indexBlock env order (some on.liveOutpoints) hheight
    obtain ⟨hwrites, live', hset, hlive⟩ := inStep_collectBlock env order b hspends h.mem_live
    rw [indexBlock_snd] at hgrounded
    rw [indexBlock_eq true env order hskip, indexBlock_eq false env order (h.indexHeight ▸ hskip)]
    simp only [indexerSet, if_true, Bool.false_eq_true, if_false]
    rw [← h.store, hwrites, hset]
    generalize (Runes.collectBlock env order on.store.rows (some on.liveOutpoints) b).2 = ix
      at hgrounded hlive ⊢
    refine ⟨rfl, rfl, rfl, ?_, hgrounded⟩
    ext o
    rw [mem_getLiveOutpoints]
    exact hlive o

variable [DecidableEq H]

lemma SameRun.rollBack (h : SameRun on off) (live live' : Finset (T × ℕ)) (nextHeight fuel : ℕ) :
    Option.Rel SameRun ({ on with liveOutpoints := live }.rollBack true nextHeight fuel)
      ({ off with liveOutpoints := live' }.rollBack false nextHeight fuel) := by
  unfold RunesModule.rollBack handleReorg
  rw [← h.store]
  cases hreorg : on.store.handleReorg nextHeight fuel with
  | none => exact .none
  | some result =>
    obtain ⟨result, s⟩ := result
    cases result with
    | error e => exact .none
    | ok _ =>
      have hgrounded : Grounded s := by
        unfold RunesStore.handleReorg at hreorg
        split at hreorg
        · simp at hreorg
        · simp at hreorg
        · exact h.grounded.rollbackToHeight hreorg
      refine .some ⟨rfl, rfl, rfl, ?_, hgrounded⟩
      show (if s.getIndexHeight.isNone || !true then ∅ else RuneRows.getLiveOutpoints s.rows) =
        RuneRows.getLiveOutpoints s.rows
      split_ifs with hnone
      · -- without a height there is no outpoint
        have hheight : s.getIndexHeight = none := by simpa using hnone
        ext o
        rw [mem_getLiveOutpoints]
        simp [hgrounded.outpoint_eq_none hheight o]
      · rfl

lemma SameRun.step (h : SameRun on off) (env : RunesEnv) {event : Event T A H}
    (hspends : event.SpendsOnce) :
    Option.Rel SameRun (on.step true env event) (off.step false env event) := by
  cases event with
  | block order b => exact .some (h.indexBlock env order hspends)
  | reorg nextHeight fuel => exact h.rollBack on.liveOutpoints off.liveOutpoints nextHeight fuel
  | failedBlock live nextHeight fuel => exact h.rollBack live live nextHeight fuel

lemma sameRun_run (env : RunesEnv) {events : List (Event T A H)}
    (hspends : ∀ event ∈ events, event.SpendsOnce) :
    Option.Rel SameRun (run true env events) (run false env events) := by
  apply foldl_invariant₂ (P := fun _ (on off : Option (RunesModule T A H)) => Option.Rel SameRun on off)
  · exact .some sameRun_new
  · intro done event rest on off hevents h
    have hevent : event.SpendsOnce := hspends event (by rw [hevents]; simp)
    cases h with
    | none => exact .none
    | some h => exact h.step env hevent

/-- With the set and without it the namespace and its undo records are the same, and so is what each
further block writes; and the set is the set of the outpoints that have a row. -/
structure Transparent (env : RunesEnv) (on off : RunesModule T A H) : Prop where
  store : on.store = off.store
  indexHeight : on.indexHeight = off.indexHeight
  live : on.liveOutpoints = RuneRows.getLiveOutpoints on.store.rows
  batch : ∀ order (b : RuneBlock T A H), b.SpendsOnce →
    on.batch true env order b = off.batch false env order b

/-- The set of live outpoints is transparent over every run; the same rollbacks succeed. -/
theorem liveOutpoints_transparent (env : RunesEnv) (events : List (Event T A H))
    (hspends : ∀ event ∈ events, event.SpendsOnce) :
    Option.Rel (Transparent env) (run true env events) (run false env events) := by
  have hbatch : ∀ on off : RunesModule T A H, SameRun on off → ∀ order b, b.SpendsOnce →
      on.batch true env order b = off.batch false env order b := by
    intro on off h order b hb
    show (Runes.collectBlock env order on.store.rows (some on.liveOutpoints) b).2.writes =
      (Runes.collectBlock env order off.store.rows none b).2.writes
    rw [← h.store, (inStep_collectBlock env order b hb h.mem_live).1]
  have hsame := sameRun_run env hspends
  generalize run true env events = on at hsame ⊢
  generalize run false env events = off at hsame ⊢
  cases hsame with
  | none => exact .none
  | some h => exact .some ⟨h.store, h.indexHeight, h.live, hbatch _ _ h⟩

/-- An etching, a block that fails after it, and a rollback of both. -/
def etchingEvents : List (Event ℕ ℕ ℕ) :=
  [.block ⟨id, .refl⟩ (etchingBlock 3 1 5), .failedBlock ∅ 4 2, .reorg 3 3]

theorem liveOutpoints_transparent_etching :
    Option.Rel (Transparent (.unary 3)) (run true (.unary 3) etchingEvents)
      (run false (.unary 3) etchingEvents) := by
  apply liveOutpoints_transparent
  intro event hevent
  simp only [etchingEvents, List.mem_cons, List.not_mem_nil, or_false] at hevent
  rcases hevent with rfl | rfl | rfl
  · exact List.nodup_nil
  · trivial
  · trivial

end RunesModule

end Espo.Runes
