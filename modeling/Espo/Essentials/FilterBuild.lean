import Espo.Essentials.BalanceIndex

/-!
# Building the transaction filter

The filter that spares `resolve_tx_pointer_ids_batch_v2` its misses is built by a thread of its own.
The thread scans a snapshot of the pointer rows, adds the transactions noted meanwhile, and installs
the filter; until a build is marked as started, notes are dropped. The indexing thread notes the
transactions of a block before it writes their rows.

The threads are steps of one system, in any order. An installed filter reports every stored
transaction provided no snapshot is taken while a transaction whose note was dropped still waits for
its row. Starting builds only while nothing waits, as the indexing thread does, is enough.
-/

namespace Espo.Essentials
open Lib TreeDb

/-! ## The filter's state -/

/-- `tx_pointer_filter_hash`. -/
def txPointerFilterHash (txid : List UInt8) (seed : UInt64) : UInt64 :=
  let h := txid.foldl (fun h byte => (h ^^^ byte.toUInt64) * 0x100000001b3) seed
  h ^^^ (h >>> 32)

/-- The bits `insert` sets and `might_contain` reads: `TX_POINTER_FILTER_HASHES` of the
`TX_POINTER_FILTER_BITS`. -/
def txPointerFilterBits (txid : List UInt8) : List ℕ :=
  let h1 := txPointerFilterHash txid 0xcbf29ce484222325
  let h2 := txPointerFilterHash txid 0x9e3779b185ebca87 ||| 1
  [0, 1, 2, 3].map fun i => ((h1 + i * h2) &&& (2 ^ 29 - 1)).toNat

/-- `TxPointerFilterState`. -/
structure TxPointerFilterState (T : Type) where
  filter : Option TxPointerFilter
  buildStarted : Bool
  pending : List T

/-- `TxPointerFilterState::new`. -/
def TxPointerFilterState.new {T : Type} : TxPointerFilterState T := ⟨none, false, []⟩

variable {T : Type} (probe : T → List ℕ)

/-- `note_tx_pointer_filter_updates`; the lock is `none` until a first call needs it. -/
def noteTxPointerFilterUpdates (lock : Option (TxPointerFilterState T)) (txids : List T) :
    Option (TxPointerFilterState T) :=
  lock.map fun guard =>
    match guard.filter with
    | some filter => { guard with filter := some (filter.insertAll probe txids) }
    | none =>
      if guard.buildStarted then { guard with pending := guard.pending ++ txids } else guard

/-- What `ensure_tx_pointer_filter` does under the write lock. -/
structure EnsureOutcome (T : Type) where
  /-- The filter may be used. -/
  ready : Bool
  /-- A builder thread is spawned. -/
  spawns : Bool
  lock : Option (TxPointerFilterState T)

/-- `ensure_tx_pointer_filter`; `disabled` is `ESPO_DISABLE_TX_POINTER_FILTER`. The check under the
read lock is repeated under the write lock. -/
def ensureTxPointerFilter (disabled : Bool) (lock : Option (TxPointerFilterState T)) :
    EnsureOutcome T :=
  if disabled then ⟨false, false, lock⟩
  else
    let guard := lock.getD .new
    if guard.filter.isSome then ⟨true, false, some guard⟩
    else if guard.buildStarted then ⟨false, false, some guard⟩
    else ⟨false, true, some { guard with buildStarted := true }⟩

/-- The builder's `Ok` branch: add the pending transactions and install. -/
def installFilter (filter : TxPointerFilter) (guard : TxPointerFilterState T) :
    TxPointerFilterState T :=
  { guard with filter := some (filter.insertAll probe guard.pending), pending := [] }

/-- The builder's `Err` branch: the pending transactions stay. -/
def buildFailed (guard : TxPointerFilterState T) : TxPointerFilterState T :=
  { guard with buildStarted := false }

/-- The test that limits the lookups of `resolve_tx_pointer_ids_batch_v2`. -/
def lookupFilter (disabled : Bool) (lock : Option (TxPointerFilterState T)) : Option (T → Bool) :=
  if (ensureTxPointerFilter disabled lock).ready then
    some fun txid => (lock.bind TxPointerFilterState.filter).any fun f => f.mightContain probe txid
  else none

/-! ## The threads -/

/-- Where a builder thread stands. -/
inductive Builder (T : Type) where
  | spawned
  | scanning (snapshot : Finset T)

/-- The pointer rows, the threads and the state they share. -/
structure FilterSystem (T : Type) where
  /-- The transactions that have a pointer row. -/
  stored : Finset T
  /-- What the indexing thread has noted and not yet written. -/
  unwritten : List T
  lock : Option (TxPointerFilterState T)
  builder : Option (Builder T)

/-- A process that has just started over the stored rows. -/
def FilterSystem.init (stored : Finset T) : FilterSystem T := ⟨stored, [], none, none⟩

/-- The steps of the threads between two lock operations or database calls. -/
inductive FilterAction (T : Type) where
  /-- The indexing thread: `build_new_tx_pos_versioned_puts`. -/
  | note (txids : List T)
  /-- The indexing thread: the write batch of the block. -/
  | write
  /-- The indexing thread: the block failed before its write. -/
  | abandon
  /-- Any thread: `ensure_tx_pointer_filter`. -/
  | ensure
  /-- The builder: the iterator of `build_tx_pointer_filter` takes its snapshot. -/
  | snapshot
  | install
  | fail

namespace FilterSystem
variable (disabled : Bool)

/-- One step. -/
def step [DecidableEq T] (s : FilterSystem T) : FilterAction T → Option (FilterSystem T)
  | .note txids => some
    { s with
      unwritten := s.unwritten ++ txids
      lock := noteTxPointerFilterUpdates probe s.lock txids }
  | .write => some { s with stored := s.stored ∪ s.unwritten.toFinset, unwritten := [] }
  | .abandon => some { s with unwritten := [] }
  | .ensure =>
    let outcome := ensureTxPointerFilter disabled s.lock
    some
      { s with
        lock := outcome.lock
        builder := if outcome.spawns then some .spawned else s.builder }
  | .snapshot =>
    match s.builder with
    | some .spawned => some { s with builder := some (.scanning s.stored) }
    | _ => none
  | .install =>
    match s.builder with
    | some (.scanning snapshot) => some
      { s with
        lock := some (installFilter probe (.scan probe snapshot) (s.lock.getD .new))
        builder := none }
    | _ => none
  | .fail =>
    match s.builder with
    | some _ => some { s with lock := s.lock.map buildFailed, builder := none }
    | none => none

/-- The states reached by steps that meet a condition. -/
inductive Reaches [DecidableEq T] (ok : FilterSystem T → FilterAction T → Prop) (s : FilterSystem T) :
    FilterSystem T → Prop where
  | refl : Reaches ok s s
  | tail {t u : FilterSystem T} {a : FilterAction T} : Reaches ok s t → ok t a →
    t.step probe disabled a = some u → Reaches ok s u

variable (s : FilterSystem T)

/-- The transactions of the pending list. -/
def pending : List T := (s.lock.map TxPointerFilterState.pending).getD []

/-- A snapshot is taken only when all that waits for its row is pending. -/
def SnapshotCovered (a : FilterAction T) : Prop :=
  a = .snapshot → s.unwritten ⊆ s.pending

/-- A build is started only when nothing waits for its row. -/
def StartsIdle (a : FilterAction T) : Prop :=
  a = .ensure → (ensureTxPointerFilter disabled s.lock).spawns = true → s.unwritten = []

variable {probe} {disabled} {s t u : FilterSystem T} {guard : TxPointerFilterState T}

/-! ## What each step does to the shared state -/

lemma pending_of_lock (hlock : s.lock = some guard) : s.pending = guard.pending := by
  simp [pending, hlock]

variable {lock : Option (TxPointerFilterState T)}

lemma filter_of_note {txids : List T} {f : TxPointerFilter}
    (hlock : noteTxPointerFilterUpdates probe lock txids = some guard) (hf : guard.filter = some f) :
    ∃ guard₀ f₀, lock = some guard₀ ∧ guard₀.filter = some f₀ ∧ f = f₀.insertAll probe txids := by
  obtain ⟨guard₀, hguard, rfl⟩ := Option.map_eq_some_iff.1 hlock
  cases hf₀ : guard₀.filter with
  | some f₀ =>
    rw [hf₀] at hf
    exact ⟨guard₀, f₀, hguard, hf₀, (Option.some.inj hf).symm⟩
  | none =>
    split_ifs at hf
    all_goals simp [hf₀] at hf

lemma note_of_building (probe : T → List ℕ) (txids : List T) (hfilter : guard.filter = none)
    (hstarted : guard.buildStarted = true) :
    noteTxPointerFilterUpdates probe (some guard) txids =
      some { guard with pending := guard.pending ++ txids } := by
  unfold noteTxPointerFilterUpdates
  rw [Option.map_some, hfilter]
  rw [if_pos hstarted]

/-- `ensure_tx_pointer_filter` spawns a builder only when no build is marked as started and no filter
is in place, and marks the build. -/
theorem ensure_of_spawns (hspawns : (ensureTxPointerFilter disabled lock).spawns = true) :
    (lock.getD .new).filter = none ∧ (lock.getD .new).buildStarted = false ∧
      (ensureTxPointerFilter disabled lock).lock =
        some { lock.getD .new with buildStarted := true } := by
  unfold ensureTxPointerFilter at hspawns ⊢
  dsimp only at hspawns ⊢
  split_ifs at hspawns ⊢ with hdis hfilter hstarted
  exact ⟨by simpa using hfilter, by simpa using hstarted, rfl⟩

lemma ensure_of_not_spawns (hspawns : (ensureTxPointerFilter disabled lock).spawns = false) :
    (ensureTxPointerFilter disabled lock).lock = lock ∨
      (ensureTxPointerFilter disabled lock).lock = some (lock.getD .new) := by
  unfold ensureTxPointerFilter at hspawns ⊢
  dsimp only at hspawns ⊢
  split_ifs at hspawns ⊢ <;> simp

/-! ## The invariant -/

/-- A transaction is stored or about to be. -/
def Known (s : FilterSystem T) (txid : T) : Prop := txid ∈ s.stored ∨ txid ∈ s.unwritten

/-- The rows that a builder scans: those of its snapshot, or of the one it would take now. -/
def scannedBy (s : FilterSystem T) : Builder T → Finset T
  | .spawned => s.stored
  | .scanning snapshot => snapshot

/-- What holds between any two steps: an installed filter knows all that is stored or about to be; a
builder has a build to finish; and what its scan misses is pending, if it is `idle` that builds start or the
snapshot has been taken. -/
structure FilterInv (probe : T → List ℕ) (idle : Prop) (s : FilterSystem T) : Prop where
  installed : ∀ guard f, s.lock = some guard → guard.filter = some f →
    ∀ txid, s.Known txid → f.mightContain probe txid = true
  building : s.builder ≠ none →
    ∃ guard, s.lock = some guard ∧ guard.filter = none ∧ guard.buildStarted = true
  scanned : ∀ b, s.builder = some b → (b = .spawned → idle) →
    ∀ txid, s.Known txid → txid ∈ s.scannedBy b ∨ txid ∈ s.pending

variable {idle : Prop}

lemma filterInv_init (idle : Prop) (stored : Finset T) : FilterInv probe idle (init stored) where
  installed guard f hlock := absurd hlock (by simp [init])
  building hbuilder := absurd rfl hbuilder
  scanned b hbuilder := absurd hbuilder (by simp [init])

lemma lock_of_getD_filter {f : TxPointerFilter} (hf : (lock.getD .new).filter = some f) :
    lock = some (lock.getD .new) := by
  cases lock with
  | none => exact absurd hf (by simp [TxPointerFilterState.new])
  | some guard => rfl

namespace FilterInv
variable (h : FilterInv probe idle s)
include h

lemma note (txids : List T) : FilterInv probe idle
    { s with
      unwritten := s.unwritten ++ txids
      lock := noteTxPointerFilterUpdates probe s.lock txids } := by
  have hcases : ∀ txid, txid ∈ s.stored ∨ txid ∈ s.unwritten ++ txids → s.Known txid ∨ txid ∈ txids := by
    simp [Known, or_assoc]
  have hbuilding : s.builder ≠ none → ∃ guard, s.lock = some guard ∧ guard.filter = none ∧
      guard.buildStarted = true ∧ noteTxPointerFilterUpdates probe s.lock txids
        = some { guard with pending := guard.pending ++ txids } := by
    intro hbuilder
    obtain ⟨guard, hlock, hfilter, hstarted⟩ := h.building hbuilder
    exact ⟨guard, hlock, hfilter, hstarted, hlock ▸ note_of_building probe txids hfilter hstarted⟩
  refine ⟨fun guard f hlock hf txid htx => ?_, fun hbuilder => ?_, fun b hbuilder hidle txid htx => ?_⟩
  · obtain ⟨guard₀, f₀, hlock₀, hf₀, rfl⟩ := filter_of_note hlock hf
    rcases hcases txid htx with hold | hnew
    · exact TxPointerFilter.mightContain_insertAll_of_old (h.installed _ _ hlock₀ hf₀ txid hold) _
    · exact TxPointerFilter.mightContain_insertAll_of_mem probe f₀ hnew
  · obtain ⟨guard, -, hfilter, hstarted, hnote⟩ := hbuilding hbuilder
    exact ⟨_, hnote, hfilter, hstarted⟩
  · have hbuilder : s.builder = some b := hbuilder
    obtain ⟨guard, hlock, -, -, hnote⟩ := hbuilding (by simp [hbuilder])
    rw [pending_of_lock hnote]
    rcases hcases txid htx with hold | hnew
    · rw [← pending_of_lock hlock]
      exact (h.scanned b hbuilder hidle txid hold).imp id (List.mem_append_left _)
    · exact .inr (List.mem_append_right _ hnew)

lemma settle {stored : Finset T} (hsub : s.stored ⊆ stored) (hstored : ∀ txid ∈ stored, s.Known txid) :
    FilterInv probe idle { s with stored := stored, unwritten := [] } where
  installed guard f hlock hf txid htx := by
    exact h.installed guard f hlock hf txid (hstored txid (by simpa [Known] using htx))
  building := h.building
  scanned b hbuilder hidle txid htx := by
    refine (h.scanned b hbuilder hidle txid (hstored txid (by simpa [Known] using htx))).imp_left fun hmem => ?_
    cases b with
    | spawned => exact hsub hmem
    | scanning snapshot => exact hmem

lemma ensure (disabled : Bool) (hidle : idle → StartsIdle disabled s .ensure) :
    FilterInv probe idle
      { s with
        lock := (ensureTxPointerFilter disabled s.lock).lock
        builder := if (ensureTxPointerFilter disabled s.lock).spawns then some .spawned
          else s.builder } := by
  cases hspawns : (ensureTxPointerFilter disabled s.lock).spawns with
  | true =>
    obtain ⟨hfilter, -, hlock⟩ := ensure_of_spawns hspawns
    rw [hlock]
    refine ⟨fun guard f hguard hf => ?_, fun _ => ⟨_, rfl, hfilter, rfl⟩, fun b hbuilder hspawned txid htx => ?_⟩
    · rw [← Option.some.inj hguard, hfilter] at hf
      simp at hf
    · cases hbuilder
      have hnone := hidle (hspawned rfl) rfl hspawns
      exact htx.imp id fun hmem => absurd (hnone ▸ hmem) List.not_mem_nil
  | false =>
    rcases ensure_of_not_spawns hspawns with hlock | hlock
    · rw [hlock]
      exact h
    · -- the lock may be new, but then there is neither a filter nor a builder
      rw [hlock]
      refine ⟨fun guard f hguard hf => ?_, fun hbuilder => ?_, fun b hbuilder hspawned txid htx => ?_⟩
      · cases hguard
        exact h.installed _ f (lock_of_getD_filter hf) hf
      · obtain ⟨guard, hguard, hfacts⟩ := h.building hbuilder
        exact ⟨guard, by rw [hguard]; rfl, hfacts⟩
      · have hbuilder : s.builder = some b := hbuilder
        obtain ⟨guard, hguard, -⟩ := h.building (by simp [hbuilder])
        have hsame : some (s.lock.getD .new) = s.lock := by
          rw [hguard]
          rfl
        have hold := h.scanned b hbuilder hspawned txid htx
        rwa [hsame]

lemma snapshot (hbuilder : s.builder = some .spawned) (hcovered : idle ∨ s.unwritten ⊆ s.pending) :
    FilterInv probe idle { s with builder := some (.scanning s.stored) } where
  installed := h.installed
  building _ := h.building (by simp [hbuilder])
  scanned b hsnapshot _ txid htx := by
    cases hsnapshot
    rcases hcovered with hidle | hcovered
    · exact h.scanned .spawned hbuilder (fun _ => hidle) txid htx
    · exact htx.imp id (hcovered ·)

omit h in
lemma finish {lock : Option (TxPointerFilterState T)}
    (hlock : ∀ guard f, lock = some guard → guard.filter = some f →
      ∀ txid, s.Known txid → f.mightContain probe txid = true) :
    FilterInv probe idle { s with lock := lock, builder := none } :=
  ⟨hlock, fun hbuilder => absurd rfl hbuilder, nofun⟩

lemma install {snapshot : Finset T} (hbuilder : s.builder = some (.scanning snapshot)) :
    FilterInv probe idle
      { s with
        lock := some (installFilter probe (.scan probe snapshot) (s.lock.getD .new))
        builder := none } := by
  refine .finish fun guard f hguard hf txid htx => ?_
  obtain ⟨guard₀, hlock, -⟩ := h.building (by simp [hbuilder])
  have hcases := h.scanned _ hbuilder nofun txid htx
  rw [pending_of_lock hlock] at hcases
  rw [hlock] at hguard
  cases hguard
  cases hf
  rcases hcases with hsnapshot | hpending
  · exact TxPointerFilter.mightContain_insertAll_of_old (TxPointerFilter.mightContain_scan probe hsnapshot) _
  · exact TxPointerFilter.mightContain_insertAll_of_mem probe _ hpending

lemma fail : FilterInv probe idle { s with lock := s.lock.map buildFailed, builder := none } := by
  refine .finish fun guard f hguard hf => ?_
  obtain ⟨guard₀, hguard₀, rfl⟩ := Option.map_eq_some_iff.1 hguard
  exact h.installed guard₀ f hguard₀ hf

variable [DecidableEq T]

/-- Every step keeps the invariant that takes no uncovered snapshot, or that starts no build while something
waits for its row. -/
theorem step {a : FilterAction T} (hcovered : idle ∨ SnapshotCovered s a)
    (hidle : idle → StartsIdle disabled s a) (hstep : s.step probe disabled a = some u) :
    FilterInv probe idle u := by
  cases a with
  | note txids =>
    cases hstep
    exact h.note txids
  | write =>
    cases hstep
    exact h.settle Finset.subset_union_left fun txid htx => by simpa [Known] using htx
  | abandon =>
    cases hstep
    exact h.settle subset_rfl fun txid htx => .inl htx
  | ensure =>
    cases hstep
    exact h.ensure disabled hidle
  | snapshot =>
    simp only [FilterSystem.step] at hstep
    split at hstep <;> cases hstep
    exact h.snapshot ‹_› (hcovered.imp_right fun hok => hok rfl)
  | install =>
    simp only [FilterSystem.step] at hstep
    split at hstep <;> cases hstep
    exact h.install ‹_›
  | fail =>
    simp only [FilterSystem.step] at hstep
    split at hstep <;> cases hstep
    exact h.fail

lemma reaches {ok : FilterSystem T → FilterAction T → Prop}
    (hok : ∀ s a, ok s a → (idle ∨ SnapshotCovered s a) ∧ (idle → StartsIdle disabled s a))
    (hrun : Reaches probe disabled ok s t) : FilterInv probe idle t := by
  induction hrun with
  | refl => exact h
  | tail _ ha hstep ih => exact ih.step (hok _ _ ha).1 (hok _ _ ha).2 hstep

end FilterInv
end FilterSystem

/-! ## What the resolver returns -/

section Resolve
variable {K V Id H : Type*} [LinearOrder H] [DecidableEq T] {heightOf : H → ℕ}
  {p : EssentialsProvider K V Id T heightOf}

/-- Lookups without a pointer row may be left out. -/
theorem resolveTxPointerLoop_filter (target : Option H) (keep : T × ℕ → Bool)
    (cache : Memo p.tree.blockhashForHeight) (out : List (Option ℕ)) (lookups : List (T × ℕ))
    (hkeep : ∀ entry ∈ lookups, p.blobs.txPackedOutflowPos.get entry.1 ≠ none → keep entry = true) :
    resolveTxPointerLoop p target cache out (lookups.filter keep) =
      resolveTxPointerLoop p target cache out lookups := by
  induction lookups generalizing cache out with
  | nil => rfl
  | cons entry lookups ih =>
    have hrest : ∀ e ∈ lookups, p.blobs.txPackedOutflowPos.get e.1 ≠ none → keep e = true :=
      fun e he => hkeep e (List.mem_cons_of_mem _ he)
    cases hblob : p.blobs.txPackedOutflowPos.get entry.1 with
    | none =>
      have hskip : resolveTxPointerLoop p target cache out (entry :: lookups) =
          resolveTxPointerLoop p target cache out lookups := by
        rw [resolveTxPointerLoop, hblob]
      rw [hskip]
      by_cases hentry : keep entry = true
      · rw [List.filter_cons_of_pos hentry, resolveTxPointerLoop, hblob]
        exact ih cache out hrest
      · rw [List.filter_cons_of_neg hentry]
        exact ih cache out hrest
    | some l =>
      have hentry : keep entry = true := hkeep entry List.mem_cons_self (by simp [hblob])
      rw [List.filter_cons_of_pos hentry, resolveTxPointerLoop, resolveTxPointerLoop, hblob]
      exact ih _ _ hrest

/-- A test that every stored transaction passes does not change what the batch resolver returns. -/
theorem resolveTxPointerIdsBatchV2_of_complete {mightContain : Option (T → Bool)}
    (hcomplete : ∀ f, mightContain = some f → ∀ txid,
      p.blobs.txPackedOutflowPos.get txid ≠ none → f txid = true)
    (stateAt : StateAt H) (txids : List T) :
    resolveTxPointerIdsBatchV2 p mightContain stateAt txids =
      resolveTxPointerIdsBatchV2 p none stateAt txids := by
  unfold resolveTxPointerIdsBatchV2
  have hall : txids.zipIdx.filter (fun entry => (none : Option (T → Bool)).all fun f => f entry.1)
      = txids.zipIdx := by simp
  rw [hall]
  apply resolveTxPointerLoop_filter
  intro entry _ hstored
  cases mightContain with
  | none => rfl
  | some f => exact hcomplete f rfl entry.1 hstored

omit [DecidableEq T] in
/-- A test is used only when a filter is installed, and it is that filter's. -/
theorem filter_of_lookupFilter {probe : T → List ℕ} {disabled : Bool}
    {lock : Option (TxPointerFilterState T)} {test : T → Bool}
    (htest : lookupFilter probe disabled lock = some test) :
    ∃ guard f, lock = some guard ∧ guard.filter = some f ∧ test = f.mightContain probe := by
  unfold lookupFilter at htest
  split_ifs at htest with hready
  have hsome : (lock.getD .new).filter.isSome = true := by
    unfold ensureTxPointerFilter at hready
    dsimp only at hready
    split_ifs at hready with hdis hfilter
    exact hfilter
  obtain ⟨f, hf⟩ := Option.isSome_iff_exists.1 hsome
  have hlock := FilterSystem.lock_of_getD_filter hf
  refine ⟨_, f, hlock, hf, ?_⟩
  rw [← Option.some.inj htest, hlock]
  simp [hf]

/-- In every run whose snapshots are covered, or that starts builds only while nothing waits for its
row, an installed filter reports every stored transaction, and the batch resolver returns what it
returns without a filter. -/
theorem txPointerFilter_complete (probe : T → List ℕ) (disabled : Bool) (stored : Finset T)
    (s : FilterSystem T)
    (hrun : FilterSystem.Reaches probe disabled FilterSystem.SnapshotCovered (.init stored) s ∨
      FilterSystem.Reaches probe disabled (FilterSystem.StartsIdle disabled) (.init stored) s) :
    (∀ guard f, s.lock = some guard → guard.filter = some f →
      ∀ txid ∈ s.stored, f.mightContain probe txid = true) ∧
    ∀ p : EssentialsProvider K V Id T heightOf, p.blobs.txPackedOutflowPos.keys = s.stored →
      ∀ stateAt txids,
        resolveTxPointerIdsBatchV2 p (lookupFilter probe disabled s.lock) stateAt txids =
          resolveTxPointerIdsBatchV2 p none stateAt txids := by
  have hreports : ∀ guard f, s.lock = some guard → guard.filter = some f →
      ∀ txid ∈ s.stored, f.mightContain probe txid = true := by
    intro guard f hlock hf txid htx
    rcases hrun with hrun | hrun
    · exact ((FilterSystem.filterInv_init False stored).reaches (fun _ _ hok => ⟨.inr hok, False.elim⟩)
        hrun).installed guard f hlock hf txid (.inl htx)
    · exact ((FilterSystem.filterInv_init True stored).reaches (fun _ _ hok => ⟨.inl trivial, fun _ => hok⟩)
        hrun).installed guard f hlock hf txid (.inl htx)
  refine ⟨hreports, fun p hkeys stateAt txids => ?_⟩
  apply resolveTxPointerIdsBatchV2_of_complete
  intro test htest txid hstored
  obtain ⟨l, hl⟩ := Option.ne_none_iff_exists'.1 hstored
  have hmem : txid ∈ s.stored := hkeys ▸ Table.mem_keys_of_get hl
  obtain ⟨guard, f, hlock, hf, rfl⟩ := filter_of_lookupFilter htest
  exact hreports guard f hlock hf txid hmem

/-- The provider over a chain of one block, with a pointer of that block for each transaction. -/
def pointerProvider (txids : List (List UInt8)) :
    EssentialsProvider ℕ ℕ ℕ (List UInt8) (fun _ : ℕ => 5) where
  tree :=
    { db := { TreeRows.empty ℕ ℕ ℕ ℕ with heightBlock := (∅ : Table ℕ ℕ).put 5 1 }
      state := ⟨0, some 1, none, none, none⟩ }
  blobs := ⟨∅, ∅, Table.putAll ∅ (txids.map fun txid => (txid, VersionList.new 1 70))⟩
  viewBlockhash := none

/-- One transaction is stored before the process starts, another is noted while the filter is
built. -/
theorem txPointerFilter_complete_pending :
    ∃ s : FilterSystem (List UInt8), FilterSystem.Reaches txPointerFilterBits false
        FilterSystem.SnapshotCovered (.init {[7]}) s ∧
      (lookupFilter txPointerFilterBits false s.lock).isSome ∧
      resolveTxPointerIdsBatchV2 (pointerProvider [[7], [8]])
          (lookupFilter txPointerFilterBits false s.lock) .latest [[8], [9]] =
        resolveTxPointerIdsBatchV2 (pointerProvider [[7], [8]]) none .latest [[8], [9]] := by
  have hstart : FilterSystem.Reaches txPointerFilterBits false FilterSystem.SnapshotCovered
      (.init {[7]}) (.init {[7]}) := .refl
  have hsnapshot := (hstart.tail (a := .ensure) (by simp [FilterSystem.SnapshotCovered]) rfl).tail
    (a := .snapshot) (by simp [FilterSystem.SnapshotCovered, FilterSystem.init]) rfl
  have hwrite := (hsnapshot.tail (a := .note [[8]]) (by simp [FilterSystem.SnapshotCovered])
    rfl).tail (a := .write) (by simp [FilterSystem.SnapshotCovered]) rfl
  have hinstall := hwrite.tail (a := .install) (by simp [FilterSystem.SnapshotCovered]) rfl
  refine ⟨_, hinstall, rfl, ?_⟩
  exact (txPointerFilter_complete txPointerFilterBits false {[7]} _ (.inl hinstall)).2
    (pointerProvider [[7], [8]]) (by decide) .latest [[8], [9]]

/-- A transaction noted before a reader starts the build, and written after the builder's snapshot,
is stored and not found. -/
theorem txPointerFilter_misses :
    ∃ s : FilterSystem (List UInt8), FilterSystem.Reaches txPointerFilterBits false
        (fun _ _ => True) (.init ∅) s ∧
      [7] ∈ s.stored ∧
      (∃ guard f, s.lock = some guard ∧ guard.filter = some f ∧
        f.mightContain txPointerFilterBits [7] = false) ∧
      (pointerProvider [[7]]).blobs.txPackedOutflowPos.keys = s.stored ∧
      resolveTxPointerIdsBatchV2 (pointerProvider [[7]])
        (lookupFilter txPointerFilterBits false s.lock) .latest [[7]] = [none] ∧
      resolveTxPointerIdsBatchV2 (pointerProvider [[7]]) none .latest [[7]] = [some 70] := by
  have hstart : FilterSystem.Reaches txPointerFilterBits false (fun _ _ => True) (.init ∅)
      (.init ∅) := .refl
  have hsnapshot := ((hstart.tail (a := .note [[7]]) trivial rfl).tail (a := .ensure) trivial
    rfl).tail (a := .snapshot) trivial rfl
  have hinstall := (hsnapshot.tail (a := .write) trivial rfl).tail (a := .install) trivial rfl
  exact ⟨_, hinstall, by decide, ⟨_, _, rfl, rfl, by decide⟩, by decide, by decide, by decide⟩

end Resolve

end Espo.Essentials
