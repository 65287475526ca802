import Espo.Lib.Interleaving

/-!
# Requests to recalculate the block templates

A caller of `recalculate_memory_templates` sets a flag and, unless a worker is running, spawns one. The
worker takes the flag and recalculates, until it finds the flag not set. When the thread cannot be
spawned, the caller recalculates by itself. A recalculation that finds the template lock held does nothing.

No two workers run at once. A request can get lost, but only when a thread finds the lock held and
nobody else will see the request.
-/

namespace Espo.Mempool
open Lib

/-- What a thread does next. -/
inductive Pc where
  /-- Nothing; it may call `recalculate_memory_templates`, or be spawned. -/
  | idle
  /-- `TEMPLATE_RECALC_RUNNING.swap(true)` of a caller. -/
  | claim
  /-- `spawn` of the worker. -/
  | spawn
  /-- `TEMPLATE_RECALC_RUNNING.store(false)` after a failed spawn. -/
  | unclaim
  /-- `TEMPLATE_RECALC_PENDING.store(false)` after a failed spawn. -/
  | withdraw
  /-- `try_acquire_template_lock` after a failed spawn. -/
  | tryInline
  /-- The recalculation after a failed spawn. -/
  | runInline
  /-- `TEMPLATE_RECALC_PENDING.swap(false)` of the worker. -/
  | take
  /-- `try_acquire_template_lock` of the worker. -/
  | tryWorker
  /-- The recalculation of the worker. -/
  | runWorker
  /-- `TEMPLATE_RECALC_RUNNING.store(false)` of the worker. -/
  | release
  /-- `TEMPLATE_RECALC_PENDING.load()` of the worker. -/
  | recheck
  /-- `TEMPLATE_RECALC_RUNNING.swap(true)` of the worker. -/
  | reclaim
  deriving DecidableEq

/-- The shared variables, the thread that holds the template lock, and where the threads are. `waiting`
is not in the code: there was a request since the last recalculation began. -/
structure Recalc (T : Type*) where
  pending : Bool
  running : Bool
  lock : Option T
  waiting : Bool
  pc : T → Pc

namespace Recalc
variable {T : Type*} [DecidableEq T]

/-- The start of the process. -/
def init : Recalc T := ⟨false, false, none, false, fun _ => .idle⟩

variable (s : Recalc T)

/-- A thread goes on. -/
def goto (t : T) (p : Pc) : Recalc T := { s with pc := Function.update s.pc t p }

/-- `recalculate_memory_templates_blocking` begins, unless the lock is held. -/
def tryRun (t : T) (run skip : Pc) : Recalc T :=
  if s.lock.isSome then s.goto t skip
  else { s with lock := some t, waiting := false }.goto t run

/-- The turn of a thread. `spawned` is the thread that a spawn starts, if it does not fail. A
recalculation ends alike when it panics: the guard of the lock is dropped, and the panic is caught by the
worker or ends the call. -/
def next (t : T) (spawned : Option T) : Recalc T :=
  match s.pc t with
  | .idle => { s with pending := true, waiting := true }.goto t .claim
  | .claim => if s.running then s.goto t .idle else { s with running := true }.goto t .spawn
  | .spawn =>
    match spawned with
    | some u => if s.pc u = .idle then (s.goto t .idle).goto u .take else s.goto t .unclaim
    | none => s.goto t .unclaim
  | .unclaim => { s with running := false }.goto t .withdraw
  | .withdraw => { s with pending := false }.goto t .tryInline
  | .tryInline => s.tryRun t .runInline .idle
  | .runInline => { s with lock := none }.goto t .idle
  | .take => if s.pending then { s with pending := false }.goto t .tryWorker else s.goto t .release
  | .tryWorker => s.tryRun t .runWorker .take
  | .runWorker => { s with lock := none }.goto t .take
  | .release => { s with running := false }.goto t .recheck
  | .recheck => if s.pending then s.goto t .reclaim else s.goto t .idle
  | .reclaim => if s.running then s.goto t .idle else { s with running := true }.goto t .take

lemma goto_pc_of_ne {t u : T} (h : u ≠ t) (p : Pc) : (s.goto t p).pc u = s.pc u :=
  Function.update_of_ne h _ _

@[simp]
lemma goto_pc_self (t : T) (p : Pc) : (s.goto t p).pc t = p := Function.update_self _ _ _

/-- A thread goes on from one place to another; the rest of the state is as in the last one. -/
inductive Goes (s : Recalc T) (t : T) : Pc → Pc → Recalc T → Prop
  | request : Goes s t .idle .claim { s with pending := true, waiting := true }
  | leave (h : s.running = true) : Goes s t .claim .idle s
  | claim (h : s.running = false) : Goes s t .claim .spawn { s with running := true }
  | failed : Goes s t .spawn .unclaim s
  | unclaim : Goes s t .unclaim .withdraw { s with running := false }
  | withdraw : Goes s t .withdraw .tryInline { s with pending := false }
  | skipInline (h : s.lock ≠ none) : Goes s t .tryInline .idle s
  | runInline (h : s.lock = none) :
    Goes s t .tryInline .runInline { s with lock := some t, waiting := false }
  | endInline : Goes s t .runInline .idle { s with lock := none }
  | take (h : s.pending = true) : Goes s t .take .tryWorker { s with pending := false }
  | finish (h : s.pending = false) : Goes s t .take .release s
  | skipWorker (h : s.lock ≠ none) : Goes s t .tryWorker .take s
  | runWorker (h : s.lock = none) :
    Goes s t .tryWorker .runWorker { s with lock := some t, waiting := false }
  | endWorker : Goes s t .runWorker .take { s with lock := none }
  | release : Goes s t .release .recheck { s with running := false }
  | recheck (h : s.pending = true) : Goes s t .recheck .reclaim s
  | rest (h : s.pending = false) : Goes s t .recheck .idle s
  | yield (h : s.running = true) : Goes s t .reclaim .idle s
  | reclaim (h : s.running = false) : Goes s t .reclaim .take { s with running := true }

variable (s : Recalc T) (t : T) (spawned : Option T)

/-- What a turn can do: a thread starts another one, or goes on by itself. -/
theorem next_cases :
    (∃ u, s.pc t = .spawn ∧ s.pc u = .idle ∧ s.next t spawned = (s.goto t .idle).goto u .take) ∨
      ∃ q p s', s.pc t = q ∧ Goes s t q p s' ∧ s.next t spawned = s'.goto t p := by
  unfold next tryRun
  split <;> rename_i hpc
  case h_3 =>
    cases spawned with
    | none => exact .inr ⟨_, _, _, hpc, .failed, rfl⟩
    | some u =>
      dsimp only
      split_ifs with hu
      · exact .inl ⟨u, hpc, hu, rfl⟩
      · exact .inr ⟨_, _, _, hpc, .failed, rfl⟩
  all_goals first
    | exact .inr ⟨_, _, _, hpc, by constructor, rfl⟩
    | (split_ifs with h <;> exact .inr ⟨_, _, _, hpc, by
      constructor; simpa [Option.isSome_iff_ne_none] using h, rfl⟩)

omit [DecidableEq T] in
lemma Goes.pc_eq {s s' : Recalc T} {t : T} {q p : Pc} (h : Goes s t q p s') : s'.pc = s.pc := by
  cases h <;> rfl

/-- The turn of a thread moves no other thread, but for the one it spawns. -/
theorem next_pc_of_ne {u : T} (h : u ≠ t) (hu : s.pc u ≠ .idle) : (s.next t spawned).pc u = s.pc u := by
  obtain ⟨v, -, hv, heq⟩ | ⟨q, p, s', -, hgoes, heq⟩ := next_cases s t spawned
  · have hne : u ≠ v := by
      rintro rfl
      exact hu hv
    rw [heq, goto_pc_of_ne _ hne, goto_pc_of_ne _ h]
  · rw [heq, goto_pc_of_ne _ h, hgoes.pc_eq]

/-- The threads as a program. -/
def threads : Threads (Recalc T) T Pc (Option T) where
  next := next
  pc := pc
  rest := .idle
  frame := next_pc_of_ne

/-! ## The flags and the lock -/

/-- The thread has set `TEMPLATE_RECALC_RUNNING`. -/
def owns : Pc → Bool
  | .spawn | .unclaim | .take | .tryWorker | .runWorker | .release => true
  | _ => false

/-- The thread holds the template lock. -/
def holds : Pc → Bool
  | .runInline | .runWorker => true
  | _ => false

/-- The thread is about to recalculate if the lock is free. -/
def tries : Pc → Bool
  | .tryInline | .tryWorker => true
  | _ => false

/-- The thread will see `TEMPLATE_RECALC_PENDING`, or leave it to one that will. -/
def sees : Pc → Bool
  | .idle | .tryInline | .runInline => false
  | _ => true

/-- The thread is a worker in its loop. -/
def works : Pc → Bool
  | .take | .tryWorker | .runWorker | .release => true
  | _ => false

/-- One thread has set `TEMPLATE_RECALC_RUNNING`, if it is set. -/
def Owned (pc : T → Pc) (running : Bool) : Prop := ∃ o, Marks owns pc o ∧ running = o.isSome

/-- What always holds: `TEMPLATE_RECALC_RUNNING` is set by one thread, the lock is held by one thread, and a
pending request is seen. -/
structure Inv (s : Recalc T) : Prop where
  owner : Owned s.pc s.running
  lock : Marks holds s.pc s.lock
  seen : s.pending = true → ∃ t, sees (s.pc t) = true

omit [DecidableEq T] in
lemma inv_init : Inv (init : Recalc T) := by
  refine ⟨⟨none, fun t => ?_, rfl⟩, fun t => ?_, fun h => ?_⟩
  · simp [init, owns]
  · simp [init, holds]
  · simp [init] at h

section Owned
variable {pc : T → Pc} {running : Bool} {t : T} {p q : Pc} (h : Owned pc running)
include h

lemma Owned.keep (ht : pc t = q) (hp : owns p = owns q) : Owned (Function.update pc t p) running := by
  obtain ⟨o, hmarks, hrunning⟩ := h
  exact ⟨o, hmarks.keep ht hp, hrunning⟩

lemma Owned.leave (ht : pc t = q) (hq : owns q = true) (hp : owns p = false) :
    Owned (Function.update pc t p) false := by
  obtain ⟨o, hmarks, -⟩ := h
  exact ⟨none, hmarks.leave ht hq hp, rfl⟩

lemma Owned.enter (hfree : running = false) (hp : owns p = true) :
    Owned (Function.update pc t p) true := by
  obtain ⟨o, hmarks, hrunning⟩ := h
  have hnone : o = none := by
    cases o with
    | none => rfl
    | some u => simp [hfree] at hrunning
  subst hnone
  exact ⟨some t, hmarks.enter hp, rfl⟩

lemma Owned.pass (ht : pc t = q) (hq : owns q = true) {r : Pc} (hp : owns p = false)
    (hr : owns r = true) (u : T) : Owned (Function.update (Function.update pc t p) u r) running := by
  obtain ⟨o, hmarks, hrunning⟩ := h
  have ho : o = some t := (hmarks t).1 (ht ▸ hq)
  rw [ho] at hrunning
  exact ⟨some u, (hmarks.leave ht hq hp).enter hr, hrunning⟩

omit [DecidableEq T] in
lemma Owned.exists_of_running (hrunning : running = true) : ∃ u, owns (pc u) = true := by
  obtain ⟨o, hmarks, ho⟩ := h
  rw [hrunning] at ho
  obtain ⟨u, hu⟩ := Option.isSome_iff_exists.1 ho.symm
  exact ⟨u, (hmarks u).2 hu⟩

end Owned

lemma seen_goto {p : Pc} (hp : sees p = true) :
    ∃ u, sees ((s.goto t p).pc u) = true := ⟨t, by rw [goto_pc_self, hp]⟩

variable {s} in
lemma seen_goto_of_not {t : T} (h : ∃ u, sees (s.pc u) = true) (ht : sees (s.pc t) = false) (p : Pc) :
    ∃ u, sees ((s.goto t p).pc u) = true := by
  obtain ⟨u, hu⟩ := h
  have hne : u ≠ t := by
    rintro rfl
    simp [ht] at hu
  exact ⟨u, by rw [goto_pc_of_ne _ hne, hu]⟩

section
variable {s} (h : Inv s)
include h

/-- A thread leaves the flag to the one that has set `TEMPLATE_RECALC_RUNNING`. -/
theorem seen_goto_of_running (hrunning : s.running = true) {t : T} (ht : owns (s.pc t) = false)
    (p : Pc) : ∃ u, sees ((s.goto t p).pc u) = true := by
  obtain ⟨u, hu⟩ := h.owner.exists_of_running hrunning
  have hne : u ≠ t := by
    rintro rfl
    simp [ht] at hu
  refine ⟨u, ?_⟩
  rw [goto_pc_of_ne _ hne]
  cases hpc : s.pc u <;> simp_all [owns, sees]

lemma Inv.next_owner :
    Owned (s.next t spawned).pc (s.next t spawned).running := by
  obtain ⟨u, hpc, -, heq⟩ | ⟨q, p, s', hpc, hgoes, heq⟩ := next_cases s t spawned <;> rw [heq]
  · exact h.owner.pass hpc rfl rfl rfl u
  · cases hgoes with
    | claim hfree | reclaim hfree => exact h.owner.enter hfree rfl
    | unclaim | release => exact h.owner.leave hpc rfl rfl
    | _ => exact h.owner.keep hpc rfl

lemma Inv.next_lock : Marks holds (s.next t spawned).pc (s.next t spawned).lock := by
  obtain ⟨u, hpc, hu, heq⟩ | ⟨q, p, s', hpc, hgoes, heq⟩ := next_cases s t spawned <;> rw [heq]
  · have hidle : Marks holds (s.goto t .idle).pc s.lock := h.lock.keep hpc rfl
    have hne : u ≠ t := by
      rintro rfl
      simp [hpc] at hu
    exact hidle.keep ((goto_pc_of_ne _ hne _).trans hu) rfl
  · cases hgoes with
    | runInline hfree | runWorker hfree => exact (hfree ▸ h.lock : Marks holds s.pc none).enter rfl
    | endInline | endWorker => exact h.lock.leave hpc rfl rfl
    | _ => exact h.lock.keep hpc rfl

lemma Inv.next_seen (hpending : (s.next t spawned).pending = true) :
    ∃ u, sees ((s.next t spawned).pc u) = true := by
  obtain ⟨u, -, -, heq⟩ | ⟨q, p, s', hpc, hgoes, heq⟩ := next_cases s t spawned <;> rw [heq] at hpending ⊢
  · exact seen_goto _ u rfl
  · cases hgoes with
    | leave hrunning | yield hrunning => exact seen_goto_of_running h hrunning (by rw [hpc]; rfl) _
    | withdraw | take => cases hpending
    | skipInline | runInline | endInline =>
      exact seen_goto_of_not (h.seen hpending) (by rw [hpc]; rfl) _
    | finish hnone | rest hnone => exact absurd (hnone.symm.trans hpending) (by decide)
    | _ => exact seen_goto _ t rfl

lemma Inv.next : Inv (s.next t spawned) :=
  ⟨h.next_owner t spawned, h.next_lock t spawned, h.next_seen t spawned⟩

end

/-! ## Requests that wait -/

/-- A request that waits is pending, or a thread is about to recalculate. -/
def Served : Prop :=
  s.waiting = true → s.pending = true ∨ ∃ u, tries (s.pc u) = true

/-- A thread that finds the lock held leaves no request behind. -/
def SkipsNothing (t : T) : Prop :=
  tries (s.pc t) = true → s.lock.isSome = true → s.waiting = true →
    s.pending = true ∨ ∃ u, u ≠ t ∧ tries (s.pc u) = true

variable {s}

lemma Served.goto (h : Served s) {t : T} {q : Pc} (ht : s.pc t = q) (hq : tries q = false)
    {s' : Recalc T} (hpending : s'.pending = s.pending) (hwaiting : s'.waiting = s.waiting)
    (hpc : s'.pc = s.pc) (p : Pc) : Served (s'.goto t p) := by
  intro hwait
  have hwait' : s.waiting = true := hwaiting ▸ hwait
  rcases h hwait' with hflag | ⟨u, hu⟩
  · exact .inl (hpending.trans hflag)
  · have hne : u ≠ t := by
      rintro rfl
      simp [ht, hq] at hu
    exact .inr ⟨u, by rw [goto_pc_of_ne _ hne, hpc, hu]⟩

lemma served_skip {t : T} (ht : tries (s.pc t) = true) (hskip : SkipsNothing s t) (hlock : s.lock ≠ none)
    (p : Pc) : Served (s.goto t p) := by
  intro hwait
  rcases hskip ht (Option.isSome_iff_ne_none.2 hlock) hwait with hflag | ⟨u, hne, hu⟩
  · exact .inl hflag
  · exact .inr ⟨u, by rw [goto_pc_of_ne _ hne, hu]⟩

lemma Served.next (h : Served s) (hskip : SkipsNothing s t) :
    Served (s.next t spawned) := by
  obtain ⟨u, hpc, hu, heq⟩ | ⟨q, p, s', hpc, hgoes, heq⟩ := next_cases s t spawned <;> rw [heq]
  · have hne : u ≠ t := by
      rintro rfl
      simp [hpc] at hu
    have hidle : Served (s.goto t .idle) := h.goto hpc rfl rfl rfl rfl _
    exact hidle.goto ((goto_pc_of_ne _ hne _).trans hu) rfl rfl rfl rfl _
  · cases hgoes with
    | request => exact fun _ => .inl rfl
    | withdraw | take => exact fun _ => .inr ⟨t, by rw [goto_pc_self]; rfl⟩
    | skipInline hlock | skipWorker hlock => exact served_skip (by rw [hpc]; rfl) hskip hlock _
    | runInline | runWorker =>
      intro hwait
      cases hwait
    | _ => exact h.goto hpc rfl rfl rfl rfl _

variable (s)

lemma next_waiting (hwaiting : s.waiting = true)
    (hno : tries (s.pc t) = true → s.lock ≠ none) : (s.next t spawned).waiting = true := by
  obtain ⟨u, -, -, heq⟩ | ⟨q, p, s', hpc, hgoes, heq⟩ := next_cases s t spawned <;> rw [heq]
  · exact hwaiting
  · cases hgoes with
    | request => rfl
    | runInline hfree | runWorker hfree => exact absurd hfree (hno (by rw [hpc]; rfl))
    | _ => exact hwaiting

lemma next_lock_of_none (hlock : s.lock = none) (hno : tries (s.pc t) = false) :
    (s.next t spawned).lock = none := by
  obtain ⟨u, -, -, heq⟩ | ⟨q, p, s', hpc, hgoes, heq⟩ := next_cases s t spawned <;> rw [heq]
  · exact hlock
  · cases hgoes with
    | runInline | runWorker => simp [hpc, tries] at hno
    | endInline | endWorker => rfl
    | _ => exact hlock

lemma next_lock_of_holds (h : holds (s.pc t) = true) : (s.next t spawned).lock = none := by
  obtain ⟨u, hpc, -, heq⟩ | ⟨q, p, s', hpc, hgoes, heq⟩ := next_cases s t spawned <;>
    rw [hpc] at h <;> rw [heq]
  · cases h
  · cases hgoes with
    | endInline | endWorker => rfl
    | _ => cases h

lemma next_running (hfree : s.running = false) (hset : (s.next t spawned).running = true) :
    (s.next t spawned).pc t = .spawn ∨ (s.next t spawned).pc t = .take := by
  obtain ⟨u, -, -, heq⟩ | ⟨q, p, s', -, hgoes, heq⟩ := next_cases s t spawned <;> rw [heq] at hset ⊢
  · exact absurd (hfree.symm.trans hset) (by decide)
  · cases hgoes with
    | claim => exact .inl (goto_pc_self _ t _)
    | reclaim => exact .inr (goto_pc_self _ t _)
    | unclaim | release => cases hset
    | _ => exact absurd (hfree.symm.trans hset) (by decide)

end Recalc

/-! ## Whole interleavings -/

section Interleavings
open Recalc

variable {T : Type*} [DecidableEq T] (moves : ℕ → Option (T × Option T))

/-- The state at a time of an interleaving. -/
def stateAt (n : ℕ) : Recalc T := Threads.run threads init moves n

/-- A thread calls `recalculate_memory_templates`. -/
def RequestAt (n : ℕ) : Prop := ∃ t c, moves n = some (t, c) ∧ (stateAt moves n).pc t = .idle

/-- A recalculation begins. -/
def RunStartsAt (n : ℕ) : Prop :=
  ∃ t c, moves n = some (t, c) ∧ tries ((stateAt moves n).pc t) = true ∧ (stateAt moves n).lock = none

/-- Threads that are not idle go on, and recalculations end. -/
def Fair : Prop := Threads.Fair threads init moves

variable {moves}

lemma inv_stateAt (n : ℕ) : Inv (stateAt moves n) :=
  Threads.run_invariant (P := threads) (s := init) (n := 0) inv_init (fun _ t c _ _ h => h.next t c)
    (Nat.zero_le n)

lemma stateAt_succ_of_some {n : ℕ} {t : T} {c : Option T} (h : moves n = some (t, c)) :
    stateAt moves (n + 1) = (stateAt moves n).next t c :=
  Threads.run_succ_of_some h

lemma Fair.exists_turn (hfair : Fair moves) {n : ℕ} {t : T} {p : Pc} (hpc : (stateAt moves n).pc t = p)
    (hp : p ≠ .idle) :
    ∃ m c, n ≤ m ∧ moves m = some (t, c) ∧ (stateAt moves m).pc t = p ∧
      stateAt moves (m + 1) = (stateAt moves m).next t c := by
  obtain ⟨m, hnm, ⟨c, hmove⟩, hsame⟩ :=
    Threads.Fair.exists_turn (t := t) (n := n) hfair (by rw [← hpc] at hp; exact hp)
  exact ⟨m, c, hnm, hmove, hsame.trans hpc, stateAt_succ_of_some hmove⟩

lemma served_stateAt (hskips : ∀ n t c, moves n = some (t, c) → SkipsNothing (stateAt moves n) t) (n : ℕ) :
    Served (stateAt moves n) :=
  Threads.run_invariant (I := Served) (fun hwait => by cases hwait)
    (fun m t c _ hmove h => h.next t c (hskips m t c hmove)) (Nat.zero_le n)

lemma waiting_of_no_run {n : ℕ} (hwaiting : (stateAt moves n).waiting = true)
    (hno : ∀ m, n ≤ m → ¬ RunStartsAt moves m) {m : ℕ} (hnm : n ≤ m) :
    (stateAt moves m).waiting = true :=
  Threads.run_invariant (I := fun s : Recalc T => s.waiting = true) hwaiting
    (fun m t c hnm hmove h => next_waiting _ t c h fun htries hlock =>
      hno m hnm ⟨t, c, hmove, htries, hlock⟩) hnm

lemma lock_of_no_run {n : ℕ} (hlock : (stateAt moves n).lock = none)
    (hno : ∀ m, n ≤ m → ¬ RunStartsAt moves m) {m : ℕ} (hnm : n ≤ m) : (stateAt moves m).lock = none := by
  refine Threads.run_invariant (I := fun s : Recalc T => s.lock = none) hlock
    (fun m t c hnm hmove h => next_lock_of_none _ t c h ?_) hnm
  cases htries : tries ((stateAt moves m).pc t) with
  | false => exact htries
  | true => exact absurd ⟨t, c, hmove, htries, h⟩ (hno m hnm)

/-- The lock is free again and again. -/
theorem exists_lock_free (hfair : Fair moves) (n : ℕ) : ∃ m, n ≤ m ∧ (stateAt moves m).lock = none := by
  cases hlock : (stateAt moves n).lock with
  | none => exact ⟨n, le_rfl, hlock⟩
  | some t =>
    have hholds : holds ((stateAt moves n).pc t) = true := ((inv_stateAt n).lock t).2 hlock
    obtain ⟨m, c, hnm, hmove, hpc, hnext⟩ := hfair.exists_turn (t := t) rfl (by
      intro hidle
      rw [hidle] at hholds
      cases hholds)
    refine ⟨m + 1, Nat.le_succ_of_le hnm, ?_⟩
    rw [hnext]
    exact next_lock_of_holds _ t c (by rw [hpc, hholds])

/-- A time from which requests wait forever and no recalculation begins. -/
structure Stuck (moves : ℕ → Option (T × Option T)) (n : ℕ) : Prop where
  lock : ∀ m, n ≤ m → (stateAt moves m).lock = none
  tries : ∀ m, n ≤ m → ∀ t, Recalc.tries ((stateAt moves m).pc t) = false
  pending : ∀ m, n ≤ m → (stateAt moves m).pending = true

/-- From a time on no thread is at a place. -/
def Never (moves : ℕ → Option (T × Option T)) (n : ℕ) (p : Pc) : Prop :=
  ∀ m, n ≤ m → ∀ t, (stateAt moves m).pc t ≠ p

section Stuck
variable {n : ℕ} (hfair : Fair moves)
include hfair

lemma Never.of_next {p q : Pc} (hq : Never moves n q) (hp : p ≠ .idle)
    (hnext : ∀ k, n ≤ k → ∀ t c, (stateAt moves k).pc t = p → ((stateAt moves k).next t c).pc t = q) :
    Never moves n p := by
  intro m hnm t hpc
  obtain ⟨k, c, hmk, -, hpc, hturn⟩ := hfair.exists_turn hpc hp
  exact hq (k + 1) (by omega) t (hturn ▸ hnext k (by omega) t c hpc)

variable (h : Stuck moves n)
include h

omit hfair in
lemma Stuck.not_tries {p : Pc} (hp : Recalc.tries p = true) : Never moves n p := by
  rintro m hnm t rfl
  exact absurd (h.tries m hnm t) (by rw [hp]; decide)

lemma Stuck.not_withdraw : Never moves n .withdraw :=
  (h.not_tries (p := .tryInline) rfl).of_next hfair (by decide) fun k hk t c hpc => by
    simp [Recalc.next, hpc]

lemma Stuck.not_take : Never moves n .take :=
  (h.not_tries (p := .tryWorker) rfl).of_next hfair (by decide) fun k hk t c hpc => by
    simp [Recalc.next, hpc, h.pending k hk]

lemma Stuck.not_unclaim : Never moves n .unclaim :=
  (h.not_withdraw hfair).of_next hfair (by decide) fun k hk t c hpc => by simp [Recalc.next, hpc]

lemma Stuck.not_spawn : Never moves n .spawn := by
  intro m hnm t hpc
  obtain ⟨k, c, hmk, hmove, hpc, hnext⟩ := hfair.exists_turn hpc (by decide)
  have hunclaim := h.not_unclaim hfair (k + 1) (by omega) t
  rw [hnext] at hunclaim
  cases c with
  | none => simp [Recalc.next, hpc] at hunclaim
  | some u =>
    by_cases hu : (stateAt moves k).pc u = .idle
    · apply h.not_take hfair (k + 1) (by omega) u
      rw [hnext]
      simp [Recalc.next, hpc, hu]
    · simp [Recalc.next, hpc, hu] at hunclaim

lemma Stuck.running {m : ℕ} (hnm : n ≤ m) (hfree : (stateAt moves m).running = false) {k : ℕ}
    (hmk : m ≤ k) : (stateAt moves k).running = false := by
  refine Threads.run_invariant (I := fun s : Recalc T => s.running = false) hfree
    (fun k t c hmk hmove hk => ?_) hmk
  have hturn : stateAt moves (k + 1) = (stateAt moves k).next t c := stateAt_succ_of_some hmove
  cases hset : ((stateAt moves k).next t c).running with
  | false => exact hset
  | true =>
    rcases next_running _ t c hk hset with hspawn | htake
    · exact absurd (hturn ▸ hspawn) (h.not_spawn hfair (k + 1) (by omega) t)
    · exact absurd (hturn ▸ htake) (h.not_take hfair (k + 1) (by omega) t)

lemma Stuck.not_release : Never moves n .release := by
  intro m hnm t hpc
  -- the worker gives the flag up, sees the request, and has the flag again
  obtain ⟨k, c, hmk, hmove, hpc, hnext⟩ := hfair.exists_turn hpc (by decide)
  have hfree : (stateAt moves (k + 1)).running = false := by
    rw [hnext]
    simp [Recalc.next, hpc, goto]
  have hrecheck : (stateAt moves (k + 1)).pc t = .recheck := by
    rw [hnext]
    simp [Recalc.next, hpc]
  obtain ⟨k₁, c₁, hk₁, -, hpc₁, hnext₁⟩ := hfair.exists_turn hrecheck (by decide)
  have hreclaim : (stateAt moves (k₁ + 1)).pc t = .reclaim := by
    rw [hnext₁]
    simp [Recalc.next, hpc₁, h.pending k₁ (by omega)]
  obtain ⟨k₂, c₂, hk₂, -, hpc₂, hnext₂⟩ := hfair.exists_turn hreclaim (by decide)
  apply h.not_take hfair (k₂ + 1) (by omega) t
  rw [hnext₂]
  simp [Recalc.next, hpc₂, h.running hfair (by omega) hfree (k := k₂) (by omega)]

lemma Stuck.not_owns {m : ℕ} (hnm : n ≤ m) (t : T) : owns ((stateAt moves m).pc t) = false := by
  cases hpc : (stateAt moves m).pc t with
  | spawn => exact absurd hpc (h.not_spawn hfair m hnm t)
  | unclaim => exact absurd hpc (h.not_unclaim hfair m hnm t)
  | take => exact absurd hpc (h.not_take hfair m hnm t)
  | release => exact absurd hpc (h.not_release hfair m hnm t)
  | tryWorker => exact absurd hpc (h.not_tries rfl m hnm t)
  | runWorker =>
    have hlock := ((inv_stateAt m).lock t).1 (by rw [hpc]; rfl)
    rw [h.lock m hnm] at hlock
    cases hlock
  | _ => rfl

lemma Stuck.not_running {m : ℕ} (hnm : n ≤ m) : (stateAt moves m).running = false := by
  cases hrunning : (stateAt moves m).running with
  | false => rfl
  | true =>
    obtain ⟨u, hu⟩ := (inv_stateAt m).owner.exists_of_running hrunning
    exact hu.symm.trans (h.not_owns hfair hnm u)

lemma Stuck.not_claim : Never moves n .claim :=
  (h.not_spawn hfair).of_next hfair (by decide) fun k hk t c hpc => by
    simp [Recalc.next, hpc, h.not_running hfair hk]

lemma Stuck.not_reclaim : Never moves n .reclaim :=
  (h.not_take hfair).of_next hfair (by decide) fun k hk t c hpc => by
    simp [Recalc.next, hpc, h.not_running hfair hk]

lemma Stuck.not_recheck : Never moves n .recheck :=
  (h.not_reclaim hfair).of_next hfair (by decide) fun k hk t c hpc => by
    simp [Recalc.next, hpc, h.pending k hk]

end Stuck

/-- Requests do not wait forever. -/
theorem not_stuck (hfair : Fair moves) (n : ℕ) : ¬ Stuck moves n := by
  intro h
  obtain ⟨t, ht⟩ := (inv_stateAt n).seen (h.pending n le_rfl)
  have howns := h.not_owns hfair le_rfl t
  cases hpc : (stateAt moves n).pc t with
  | claim => exact h.not_claim hfair n le_rfl t hpc
  | withdraw => exact h.not_withdraw hfair n le_rfl t hpc
  | recheck => exact h.not_recheck hfair n le_rfl t hpc
  | reclaim => exact h.not_reclaim hfair n le_rfl t hpc
  | _ =>
    -- nobody sees the flag there, or it is a place of the owner
    simp [hpc, sees, owns] at ht howns

/-- A request that waits is followed by a recalculation. -/
theorem exists_run_of_waiting (hfair : Fair moves)
    (hskips : ∀ n t c, moves n = some (t, c) → SkipsNothing (stateAt moves n) t) {n : ℕ}
    (hwaiting : (stateAt moves n).waiting = true) : ∃ m, n ≤ m ∧ RunStartsAt moves m := by
  by_contra hnone
  have hno : ∀ m, n ≤ m → ¬ RunStartsAt moves m := fun m hnm hrun => hnone ⟨m, hnm, hrun⟩
  -- once the lock is free, an attempt would be a recalculation, so there is none
  obtain ⟨k, hnk, hfree⟩ := exists_lock_free hfair n
  have hlock : ∀ m, k ≤ m → (stateAt moves m).lock = none :=
    fun m hkm => lock_of_no_run hfree (fun m hkm => hno m (Nat.le_trans hnk hkm)) hkm
  have htries : ∀ m, k ≤ m → ∀ t, tries ((stateAt moves m).pc t) = false := by
    intro m hkm t
    by_contra hne
    have ht : tries ((stateAt moves m).pc t) = true := by simpa using hne
    obtain ⟨j, c, hmj, hmove, hpc, -⟩ := hfair.exists_turn (t := t) (n := m) rfl (by
      intro hidle
      rw [hidle] at ht
      cases ht)
    exact hno j (by omega) ⟨t, c, hmove, by rw [hpc, ht], hlock j (by omega)⟩
  apply not_stuck hfair k
  refine ⟨hlock, htries, fun m hkm => ?_⟩
  rcases served_stateAt hskips m (waiting_of_no_run hwaiting hno (by omega)) with hpending | ⟨t, ht⟩
  · exact hpending
  · rw [htries m hkm t] at ht
    cases ht

/-- In every interleaving at most one worker is in its loop and at most one recalculation runs. Every
request is followed by a recalculation, if a thread that finds the lock held never leaves a request that
nobody else will see. -/
theorem recalculateMemoryTemplates_requests (moves : ℕ → Option (T × Option T)) :
    (∀ n t u, works ((stateAt moves n).pc t) = true → works ((stateAt moves n).pc u) = true → t = u) ∧
    (∀ n t u, holds ((stateAt moves n).pc t) = true → holds ((stateAt moves n).pc u) = true → t = u) ∧
    (Fair moves → (∀ n t c, moves n = some (t, c) → SkipsNothing (stateAt moves n) t) →
      ∀ n, RequestAt moves n → ∃ m, n < m ∧ RunStartsAt moves m) := by
  have howns : ∀ p, works p = true → owns p = true := by
    intro p
    cases p <;> simp [works, owns]
  refine ⟨fun n t u ht hu => ?_, fun n t u ht hu => (inv_stateAt n).lock.unique ht hu, ?_⟩
  · have hinv : Inv (stateAt moves n) := inv_stateAt n
    obtain ⟨o, hmarks, -⟩ := hinv.owner
    exact hmarks.unique (howns _ ht) (howns _ hu)
  · rintro hfair hskips n ⟨t, c, hmove, hidle⟩
    have hwaiting : (stateAt moves (n + 1)).waiting = true := by
      rw [stateAt_succ_of_some hmove]
      simp [Recalc.next, hidle, goto]
    exact exists_run_of_waiting hfair hskips hwaiting

/-- The interleaving of a list of turns. -/
def interleavingOf (turns : List (T × Option T)) : ℕ → Option (T × Option T) := fun n => turns[n]?

lemma fair_interleavingOf {turns : List (T × Option T)}
    (hrest : ∀ t, (stateAt (interleavingOf turns) turns.length).pc t = .idle) :
    Fair (interleavingOf turns) :=
  Threads.fair_of_rest (fun _ hn => List.getElem?_eq_none hn) hrest

end Interleavings

/-- A caller requests, and spawns thread 1, which recalculates once. -/
def oneRequest : List (Fin 2 × Option (Fin 2)) :=
  [(0, none), (0, none), (0, some 1), (1, none), (1, none), (1, none), (1, none), (1, none), (1, none)]

theorem recalculateMemoryTemplates_requests_oneRequest :
    RequestAt (interleavingOf oneRequest) 0 ∧ ∃ m, 0 < m ∧ RunStartsAt (interleavingOf oneRequest) m := by
  have hrequest : RequestAt (interleavingOf oneRequest) 0 := ⟨0, none, rfl, rfl⟩
  refine ⟨hrequest, (recalculateMemoryTemplates_requests (interleavingOf oneRequest)).2.2
    (fair_interleavingOf (by decide)) ?_ 0 hrequest⟩
  intro n t c hmove htries hlock hwaiting
  have hn : n < 9 := (List.getElem?_eq_some_iff.1 hmove).1
  -- the lock is always free when it is tried
  have hfree : ∀ k < 9, ∀ u : Fin 2, Recalc.tries ((stateAt (interleavingOf oneRequest) k).pc u) = true →
      (stateAt (interleavingOf oneRequest) k).lock.isSome = false := by
    decide
  rw [hfree n hn t htries] at hlock
  cases hlock

/-- Callers 0, 1 and 3, and worker 2. The spawn of 0 fails, and 0 gives up the claim. 1 claims and spawns 2,
which takes the flag and recalculates. 3 requests and leaves the request to 2. Then 0 withdraws the
flag and finds the lock held; 2 ends and finds no request. -/
def lostRequest : List (Fin 4 × Option (Fin 4)) :=
  [(0, none), (0, none), (0, none), (0, none), (1, none), (1, none), (1, some 2), (2, none), (2, none),
    (3, none), (3, none), (0, none), (0, none), (2, none), (2, none), (2, none), (2, none)]

/-- The request of 3 is lost. -/
theorem lostRequest_lost :
    Fair (interleavingOf lostRequest) ∧ RequestAt (interleavingOf lostRequest) 9 ∧
      ∀ m, 9 < m → ¬ RunStartsAt (interleavingOf lostRequest) m := by
  refine ⟨fair_interleavingOf (by decide), ⟨3, none, rfl, rfl⟩, ?_⟩
  rintro m hm ⟨t, c, hmove, htries, hlock⟩
  have hlt : m < 17 := (List.getElem?_eq_some_iff.1 hmove).1
  have hheld : ∀ k < 17, 9 < k → ∀ u : Fin 4,
      Recalc.tries ((stateAt (interleavingOf lostRequest) k).pc u) = true →
        (stateAt (interleavingOf lostRequest) k).lock.isSome = true := by
    decide
  have hsome := hheld m hlt hm t htries
  rw [hlock] at hsome
  cases hsome

end Espo.Mempool
