import Espo.Mempool.Relatives

/-!
# Relatives by a stack

`compute_relatives` finalises every transaction once. On its stack an entry with the flag is a transaction whose
parents are being visited. `StackInv` says how the stack, `done` and `in_progress` go together. It holds for any
parents, also when a transaction depends on itself, and the loop ends because of it.

When no transaction depends on itself, the stack is also `Chained` and `Pending`. So when a flagged entry comes
to the top, its parents are done.
-/

namespace Espo.Mempool
open Lib Relation List

variable {T O : Type} [LinearOrder T]

/-! ## One transaction -/

section
variable {arith : F64.Arith} {order : SetOrder T} {base pool : Pool T O} {S : Set T} {E : T → T → Prop}

lemma Related.linkParents (h : Related arith order base S E pool) {txid : T} (htxid : txid ∈ base.keys)
    {parents : List T} (hparents : ∀ parent ∈ parents, parent ∈ S ∧ parent ∈ base.keys) :
    Related arith order base S (fun c p => E c p ∨ c = txid ∧ p ∈ parents)
      (parents.foldl (linkParent txid) (pool, ∅)).1 ∧
    ∀ a, a ∈ (parents.foldl (linkParent txid) (pool, ∅)).2 ↔
      ∃ parent ∈ parents, a = parent ∨ a ∈ ancestorsOf base parent := by
  refine foldl_invariant (P := fun done (acc : Pool T O × Finset T) =>
    Related arith order base S (fun c p => E c p ∨ c = txid ∧ p ∈ done) acc.1 ∧
    ∀ a, a ∈ acc.2 ↔ ∃ parent ∈ done, a = parent ∨ a ∈ ancestorsOf base parent) ⟨?_, by simp⟩ ?_
  · exact h.congr (fun _ _ => Iff.rfl) fun c _ p => by simp
  · rintro done parent rest acc hsplit ⟨hrelated, hancestors⟩
    obtain ⟨hS, hkey⟩ := hparents parent (hsplit ▸ mem_append_right done mem_cons_self)
    obtain ⟨tx, htx⟩ := Table.mem_keys.1 hkey
    have hget : acc.1.get parent = some (relate arith order base S
        (fun c p => E c p ∨ c = txid ∧ p ∈ done) parent tx) := by
      rw [hrelated parent, htx, Option.map_some]
    have hlink : linkParent txid acc parent
        = (Mempool.addChild acc.1 parent txid, insert parent acc.2 ∪ ancestorsOf base parent) := by
      simp only [linkParent, hget, ancestors_relate hS]
    rw [hlink]
    refine ⟨(hrelated.addChild htxid parent).congr (fun _ _ => Iff.rfl) fun c _ p => ?_,
      fun a => mem_ancestors_snoc (hancestors a) parent⟩
    rw [mem_append, mem_singleton, and_or_left, or_assoc]

lemma Related.finalise (h : Related arith order base S E pool) (hclosed : InputsClosed base) {txid : T}
    (htxid : txid ∈ base.keys) (hparents : ∀ parent, Parent base txid parent → parent ∈ S) :
    Related arith order base (insert txid S) (fun c p => E c p ∨ c = txid ∧ Parent base txid p)
      (finalise arith order pool txid) := by
  have hlinked := h.linkParents htxid fun parent (hparent : parent ∈ inputsOf base txid) =>
    ⟨hparents parent hparent, hclosed txid parent hparent⟩
  have hancestors : ((inputsOf base txid).foldl (linkParent txid) (pool, ∅)).2 = ancestorsOf base txid := by
    ext a
    rw [hlinked.2, mem_ancestorsOf_iff hclosed]
  unfold Mempool.finalise
  dsimp only
  rw [h.inputsOf_eq, hancestors]
  exact hlinked.1.setAncestors txid

end

/-! ## The stack -/

section
variable (base : Pool T O)

/-- The parents of the flagged entries stand above them or pass a test. -/
def Pending (ok : T → Prop) : List (T × Bool) → Prop
  | [] => True
  | e :: below => (e.2 = true → ∀ parent, Parent base e.1 parent → ok parent) ∧
      Pending (fun t => ok t ∨ t = e.1) below

/-- What stands above a flagged entry is an ancestor of it. -/
def Chained (stack : List (T × Bool)) : Prop :=
  stack.Pairwise fun a b => b.2 = true → TransGen (Parent base) b.1 a.1

variable {base} {ok ok' : T → Prop} {stack : List (T × Bool)}

lemma Pending.mono (h : Pending base ok stack) (hok : ∀ t, ok t → ok' t) : Pending base ok' stack := by
  induction stack generalizing ok ok' with
  | nil => trivial
  | cons e below ih =>
    refine ⟨fun he parent hparent => hok parent (h.1 he parent hparent), ih h.2 fun t ht => ?_⟩
    exact ht.imp (hok t) id

lemma Pending.of_flagged (hacyclic : Acyclic base) {txid : T}
    (h : Pending base (fun t => ok t ∨ t = txid) stack) (hmem : (txid, true) ∈ stack)
    (hchained : Chained base stack) : Pending base ok stack := by
  induction stack generalizing ok with
  | nil => trivial
  | cons e below ih =>
    obtain ⟨hhead, hbelow⟩ := h
    obtain ⟨habove, hchained⟩ := pairwise_cons.1 hchained
    -- The head is the transaction itself or one of its ancestors, so it is not a child of the transaction.
    have hnot : ¬ Parent base e.1 txid := by
      intro hparent
      rcases mem_cons.1 hmem with rfl | hmem
      · exact hacyclic txid (TransGen.single hparent)
      · exact hacyclic txid ((habove _ hmem rfl).tail hparent)
    refine ⟨fun he parent hparent => ?_, ?_⟩
    · rcases hhead he parent hparent with hok | rfl
      · exact hok
      · exact absurd hparent hnot
    · rcases mem_cons.1 hmem with rfl | hmem
      · exact hbelow.mono fun t ht => ht.elim id .inr
      · refine ih (hbelow.mono fun t ht => ?_) hmem hchained
        rcases ht with (hok | rfl) | rfl
        · exact .inl (.inl hok)
        · exact .inr rfl
        · exact .inl (.inr rfl)

lemma Pending.append_unflagged {above : List (T × Bool)} (habove : ∀ e ∈ above, e.2 = false)
    (h : Pending base (fun t => ok t ∨ ∃ e ∈ above, e.1 = t) stack) : Pending base ok (above ++ stack) := by
  induction above generalizing ok with
  | nil => exact h.mono fun t ht => ht.resolve_right (by simp)
  | cons e above ih =>
    refine ⟨fun he => ?_, ih (fun e' he' => habove e' (mem_cons_of_mem e he')) (h.mono fun t ht => ?_)⟩
    · rw [habove e mem_cons_self] at he
      cases he
    · rcases ht with hok | ⟨e', he', rfl⟩
      · exact .inl (.inl hok)
      · rcases mem_cons.1 he' with rfl | he'
        · exact .inl (.inr rfl)
        · exact .inr ⟨e', he', rfl⟩

end

/-! ## The loop, for any parents -/

section
variable {arith : F64.Arith} {order : SetOrder T}

lemma inputsOf_modify (pool : Pool T O) (txid : T) {f : MinerTx T O → MinerTx T O}
    (hf : ∀ tx, (f tx).inputs = tx.inputs) (t : T) : inputsOf (pool.modify txid f) t = inputsOf pool t := by
  rw [inputsOf, Table.map_get_modify _ hf, inputsOf]

lemma inputsOf_finalise (pool : Pool T O) (txid t : T) :
    inputsOf (finalise arith order pool txid) t = inputsOf pool t := by
  refine (inputsOf_modify _ txid ?_ t).trans ?_
  · exact fun _ => rfl
  refine foldlRecOn (motive := fun acc : Pool T O × Finset T => inputsOf acc.1 t = inputsOf pool t) _ _ rfl
    fun acc hacc parent _ => ?_
  unfold linkParent
  cases acc.1.get parent with
  | none => exact hacc
  | some tx =>
    have hkeeps : ∀ tx : MinerTx T O, ({ tx with children := insert txid tx.children } : MinerTx T O).inputs
        = tx.inputs := fun _ => rfl
    exact (inputsOf_modify acc.1 parent hkeeps t).trans hacc

/-- The stack of `compute_relatives`; the roots are done or on the stack. -/
structure StackInv (base : Pool T O) (roots : List T) (st : RelState T O) : Prop where
  inputs : ∀ t, inputsOf st.pool t = inputsOf base t
  keys : ∀ e ∈ st.stack, e.1 ∈ base.keys
  inProgress : ∀ t, t ∈ st.inProgress ↔ (t, true) ∈ st.stack
  notDone : ∀ t, (t, true) ∈ st.stack → t ∉ st.done
  once : st.stack.Pairwise fun a b => a.2 = true → b.2 = true → a.1 ≠ b.1
  covered : ∀ root ∈ roots, root ∈ st.done ∨ ∃ e ∈ st.stack, e.1 = root

/-- Work left: the entries of the stack, and the parents of what was not visited yet. -/
def relMeasure (base : Pool T O) (st : RelState T O) : ℕ :=
  st.stack.length + ∑ t ∈ base.keys \ (st.done ∪ st.inProgress), ((inputsOf base t).length + 1)

/-- The parents that are put on the stack. -/
def newEntries (st : RelState T O) (txid : T) : List (T × Bool) :=
  (((inputsOf st.pool txid).filter fun parent => decide (parent ∉ st.done) &&
    decide (parent ∉ insert txid st.inProgress)).map fun parent => (parent, false)).reverse

lemma mem_newEntries {st : RelState T O} {txid : T} {e : T × Bool} : e ∈ newEntries st txid ↔
    ∃ parent, (parent, false) = e ∧ parent ∈ inputsOf st.pool txid ∧ parent ∉ st.done ∧
      parent ∉ insert txid st.inProgress := by
  rw [newEntries, mem_reverse, List.mem_map]
  simp only [mem_filter, Bool.and_eq_true, decide_eq_true_eq]
  constructor
  · rintro ⟨parent, ⟨hin, hnot⟩, heq⟩
    exact ⟨parent, heq, hin, hnot⟩
  · rintro ⟨parent, heq, hin, hnot⟩
    exact ⟨parent, ⟨hin, hnot⟩, heq⟩

lemma flag_of_mem_newEntries {st : RelState T O} {txid : T} {e : T × Bool} (h : e ∈ newEntries st txid) :
    e.2 = false := by
  obtain ⟨parent, rfl, -⟩ := mem_newEntries.1 h
  rfl

lemma length_newEntries_le (st : RelState T O) (txid : T) :
    (newEntries st txid).length ≤ (inputsOf st.pool txid).length := by
  rw [newEntries, length_reverse, length_map]
  exact length_filter_le _ _

variable {base : Pool T O} {roots : List T} {st : RelState T O} {txid : T} {flag : Bool} {below : List (T × Bool)}

section
variable (h : StackInv base roots st) (hstack : st.stack = (txid, flag) :: below)
  (hskip : txid ∈ st.done ∨ flag = false ∧ txid ∈ st.inProgress)
include h hstack hskip

/-- An entry is skipped: its transaction is done, or its parents are being visited. The flagged entries stay. -/
theorem StackInv.flagged_of_skip {t : T} (ht : (t, true) ∈ st.stack) : (t, true) ∈ below := by
  have hnot := h.notDone t ht
  rw [hstack] at ht
  rcases mem_cons.1 ht with heq | ht
  · obtain ⟨rfl, rfl⟩ := Prod.mk.inj heq
    rcases hskip with hdone | ⟨hflag, -⟩
    · exact absurd hdone hnot
    · cases hflag
  · exact ht

lemma StackInv.skip : StackInv base roots { st with stack := below } := by
  have hflagged := fun t => h.flagged_of_skip hstack hskip (t := t)
  obtain ⟨pool, done, inProgress, _⟩ := st
  subst hstack
  refine ⟨h.inputs, fun e he => h.keys e (mem_cons_of_mem _ he), fun t => ?_,
    fun t ht => h.notDone t (mem_cons_of_mem _ ht), (pairwise_cons.1 h.once).2, fun root hroot => ?_⟩
  · rw [h.inProgress]
    exact ⟨hflagged t, mem_cons_of_mem _⟩
  · rcases h.covered root hroot with hdone | ⟨e, he, rfl⟩
    · exact .inl hdone
    · rcases mem_cons.1 he with rfl | he
      · rcases hskip with hdone | ⟨-, hprogress⟩
        · exact .inl hdone
        · exact .inr ⟨_, hflagged _ ((h.inProgress _).1 hprogress), rfl⟩
      · exact .inr ⟨e, he, rfl⟩

end

lemma StackInv.expand (hclosed : InputsClosed base) (h : StackInv base roots st)
    (hstack : st.stack = (txid, false) :: below) (hdone : txid ∉ st.done) (hprogress : txid ∉ st.inProgress) :
    StackInv base roots
      { st with
        inProgress := insert txid st.inProgress
        stack := newEntries st txid ++ (txid, true) :: below } := by
  obtain ⟨pool, done, inProgress, _⟩ := st
  subst hstack
  set st : RelState T O := ⟨pool, done, inProgress, (txid, false) :: below⟩
  have hflagged : ∀ t, (t, true) ∈ newEntries st txid ++ (txid, true) :: below ↔ t = txid ∨ (t, true) ∈ st.stack := by
    intro t
    have hnot : (t, true) ∉ newEntries st txid := fun ht => nomatch flag_of_mem_newEntries ht
    rw [mem_append, mem_cons, mem_cons]
    simp [hnot]
  refine ⟨h.inputs, ?_, fun t => ?_, fun t ht => ?_, ?_, fun root hroot => ?_⟩
  · intro e he
    rcases mem_append.1 he with he | he
    · obtain ⟨parent, rfl, hparent, -⟩ := mem_newEntries.1 he
      rw [h.inputs] at hparent
      exact hclosed txid parent hparent
    · rcases mem_cons.1 he with rfl | he
      · exact h.keys (txid, false) mem_cons_self
      · exact h.keys e (mem_cons_of_mem _ he)
  · rw [Finset.mem_insert, hflagged, h.inProgress]
  · rcases (hflagged t).1 ht with rfl | ht
    · exact hdone
    · exact h.notDone t ht
  · rw [pairwise_append]
    refine ⟨?_, pairwise_cons.2 ⟨fun b hb _ hflag heq => ?_, (pairwise_cons.1 h.once).2⟩, ?_⟩
    · refine List.Pairwise.imp_of_mem (fun {a b} ha _ _ hflag => ?_) (pairwise_of_forall fun _ _ => trivial)
      rw [flag_of_mem_newEntries ha] at hflag
      cases hflag
    · obtain rfl : (txid, true) = b := Prod.ext heq hflag.symm
      exact hprogress ((h.inProgress txid).2 (mem_cons_of_mem _ hb))
    · intro a ha b hb hflag
      rw [flag_of_mem_newEntries ha] at hflag
      cases hflag
  · rcases h.covered root hroot with hdone | ⟨e, he, rfl⟩
    · exact .inl hdone
    · rcases mem_cons.1 he with rfl | he
      · exact .inr ⟨(txid, true), mem_append_right _ mem_cons_self, rfl⟩
      · exact .inr ⟨e, mem_append_right _ (mem_cons_of_mem _ he), rfl⟩

lemma StackInv.finalise (h : StackInv base roots st) (hstack : st.stack = (txid, true) :: below) :
    StackInv base roots
      { pool := finalise arith order st.pool txid
        done := insert txid st.done
        inProgress := st.inProgress.erase txid
        stack := below } := by
  obtain ⟨pool, done, inProgress, _⟩ := st
  subst hstack
  obtain ⟨honce, hbelow⟩ := pairwise_cons.1 h.once
  have hother : ∀ t, (t, true) ∈ below → t ≠ txid := fun t ht heq => honce (t, true) ht rfl rfl heq.symm
  refine ⟨fun t => ?_, fun e he => h.keys e (mem_cons_of_mem _ he), fun t => ?_, fun t ht => ?_, hbelow,
    fun root hroot => ?_⟩
  · rw [inputsOf_finalise]
    exact h.inputs t
  · rw [Finset.mem_erase, h.inProgress, mem_cons]
    constructor
    · rintro ⟨hne, heq | hmem⟩
      · exact absurd (Prod.mk.inj heq).1 hne
      · exact hmem
    · exact fun hmem => ⟨hother t hmem, .inr hmem⟩
  · rw [Finset.mem_insert, not_or]
    exact ⟨hother t ht, h.notDone t (mem_cons_of_mem _ ht)⟩
  · rcases h.covered root hroot with hdone | ⟨e, he, rfl⟩
    · exact .inl (Finset.mem_insert_of_mem hdone)
    · rcases mem_cons.1 he with rfl | he
      · exact .inl (Finset.mem_insert_self txid done)
      · exact .inr ⟨e, he, rfl⟩

/-- What an invariant has to be kept by. -/
structure RelSteps (arith : F64.Arith) (order : SetOrder T) (base : Pool T O) (P : RelState T O → Prop) : Prop where
  push : ∀ {st root}, P st → st.stack = [] → P { st with stack := [(root, false)] }
  skip : ∀ {roots st txid flag below}, StackInv base roots st → P st → st.stack = (txid, flag) :: below →
    (txid ∈ st.done ∨ flag = false ∧ txid ∈ st.inProgress) → P { st with stack := below }
  expand : ∀ {roots st txid below}, StackInv base roots st → P st → st.stack = (txid, false) :: below →
    txid ∉ st.done → txid ∉ st.inProgress → P
      { st with
        inProgress := insert txid st.inProgress
        stack := newEntries st txid ++ (txid, true) :: below }
  finalise : ∀ {roots st txid below}, StackInv base roots st → P st → st.stack = (txid, true) :: below → P
    { pool := Mempool.finalise arith order st.pool txid
      done := insert txid st.done
      inProgress := st.inProgress.erase txid
      stack := below }

variable {P : RelState T O → Prop}

lemma StackInv.turn (hclosed : InputsClosed base) (hsteps : RelSteps arith order base P)
    (h : StackInv base roots st) (hP : P st) :
    (∃ st', some (relTurn arith order st) = some (.next st') ∧ (StackInv base roots st' ∧ P st') ∧
      relMeasure base st' < relMeasure base st) ∨
    ∃ st', some (relTurn arith order st) = some (.exit st') ∧ (StackInv base roots st' ∧ P st') ∧ st'.stack = [] := by
  cases hstack : st.stack with
  | nil => exact .inr ⟨st, by simp only [relTurn, hstack], ⟨h, hP⟩, hstack⟩
  | cons e below =>
    obtain ⟨txid, flag⟩ := e
    left
    have hlength : st.stack.length = below.length + 1 := by rw [hstack]; rfl
    by_cases hdone : txid ∈ st.done
    · refine ⟨_, by simp only [relTurn, hstack, if_pos hdone],
        ⟨h.skip hstack (.inl hdone), hsteps.skip h hP hstack (.inl hdone)⟩, ?_⟩
      unfold relMeasure
      dsimp only
      omega
    · cases flag with
      | true =>
        refine ⟨_, by simp only [relTurn, hstack, if_neg hdone, Bool.not_true, Bool.false_eq_true, if_false],
          ⟨h.finalise hstack, hsteps.finalise h hP hstack⟩, ?_⟩
        have hprogress : txid ∈ st.inProgress := (h.inProgress txid).2 (hstack ▸ mem_cons_self)
        have hsame : insert txid st.done ∪ st.inProgress.erase txid = st.done ∪ st.inProgress := by
          rw [Finset.insert_union, ← Finset.union_insert, Finset.insert_erase hprogress]
        unfold relMeasure
        dsimp only
        rw [hsame]
        omega
      | false =>
        by_cases hprogress : txid ∈ st.inProgress
        · refine ⟨_, by simp only [relTurn, hstack, if_neg hdone, Bool.not_false, if_true, if_pos hprogress],
            ⟨h.skip hstack (.inr ⟨rfl, hprogress⟩), hsteps.skip h hP hstack (.inr ⟨rfl, hprogress⟩)⟩, ?_⟩
          unfold relMeasure
          dsimp only
          omega
        · refine ⟨_, by simp only [relTurn, hstack, if_neg hdone, if_neg hprogress]; rfl,
            ⟨h.expand hclosed hstack hdone hprogress, hsteps.expand h hP hstack hdone hprogress⟩, ?_⟩
          -- At most the parents come onto the stack, and they are counted for the transaction before.
          have hkey : txid ∈ base.keys \ (st.done ∪ st.inProgress) := by
            rw [Finset.mem_sdiff, Finset.mem_union, not_or]
            exact ⟨h.keys (txid, false) (hstack ▸ mem_cons_self), hdone, hprogress⟩
          have hsum := Finset.sum_erase_add _ (fun t => (inputsOf base t).length + 1) hkey
          rw [← Finset.sdiff_insert, ← Finset.union_insert] at hsum
          have hnew := length_newEntries_le st txid
          rw [h.inputs] at hnew
          unfold relMeasure
          dsimp only
          rw [length_append, length_cons]
          omega

lemma StackInv.push (h : StackInv base roots st) (hempty : st.stack = []) {root : T} (hroot : root ∈ base.keys) :
    StackInv base (roots ++ [root]) { st with stack := [(root, false)] } := by
  have hprogress : st.inProgress = ∅ := by
    rw [Finset.eq_empty_iff_forall_notMem]
    intro t ht
    have hon := (h.inProgress t).1 ht
    rw [hempty] at hon
    exact not_mem_nil hon
  refine ⟨h.inputs, ?_, fun t => ?_, fun t ht => ?_, pairwise_singleton _ _, ?_⟩
  · intro e he
    obtain rfl := mem_singleton.1 he
    exact hroot
  · rw [hprogress]
    simp
  · simp at ht
  · intro r hr
    rcases mem_append.1 hr with hr | hr
    · rcases h.covered r hr with hdone | ⟨e, he, -⟩
      · exact .inl hdone
      · rw [hempty] at he
        exact absurd he not_mem_nil
    · obtain rfl := mem_singleton.1 hr
      exact .inr ⟨_, mem_singleton_self _, rfl⟩

/-- `compute_relatives` ends with everything done, and it keeps what its steps keep. -/
theorem computeRelatives_rule (hclosed : InputsClosed base) (hstart : P ⟨base, ∅, ∅, []⟩)
    (hsteps : RelSteps arith order base P) :
    ∃ st, computeRelatives arith order base = some st.pool ∧ P st ∧ ∀ txid ∈ base.keys, txid ∈ st.done := by
  have hfirst : StackInv base [] (⟨base, ∅, ∅, []⟩ : RelState T O) := by
    refine ⟨fun _ => rfl, ?_, ?_, ?_, List.Pairwise.nil, ?_⟩ <;> simp
  have hloop : ∃ st, (order.toList .pool base.keys).foldlM (fun st root =>
      if root ∈ st.done then some st
      else loop (fun st => some (relTurn arith order st)) (relBound base) { st with stack := [(root, false)] })
      (⟨base, ∅, ∅, []⟩ : RelState T O) = some st ∧
      (StackInv base (order.toList .pool base.keys) st ∧ P st) ∧ st.stack = [] := by
    refine foldlM_exists (P := fun done st => (StackInv base done st ∧ P st) ∧ st.stack = [])
      ⟨⟨hfirst, hstart⟩, rfl⟩ ?_
    rintro done root rest st hsplit ⟨⟨hst, hP⟩, hempty⟩
    have hroot : root ∈ base.keys := by
      rw [← order.mem_toList .pool, hsplit]
      exact mem_append_right done mem_cons_self
    split_ifs with hdone
    · refine ⟨st, rfl, ⟨{ hst with covered := fun r hr => ?_ }, hP⟩, hempty⟩
      rcases mem_append.1 hr with hr | hr
      · exact hst.covered r hr
      · exact .inl (mem_singleton.1 hr ▸ hdone)
    · refine loop_spec (I := fun st => StackInv base (done ++ [root]) st ∧ P st) (m := relMeasure base)
        (fun st hst => hst.1.turn hclosed hsteps hst.2) ⟨hst.push hempty hroot, hsteps.push hP hempty⟩ ?_
      unfold relMeasure relBound
      dsimp only
      have hle : ∑ t ∈ base.keys \ (st.done ∪ st.inProgress), ((inputsOf base t).length + 1)
          ≤ ∑ t ∈ base.keys, ((inputsOf base t).length + 1) :=
        Finset.sum_le_sum_of_subset Finset.sdiff_subset
      rw [length_singleton]
      omega
  obtain ⟨st, hst, ⟨hinv, hP⟩, hempty⟩ := hloop
  refine ⟨st, by rw [computeRelatives, hst]; rfl, hP, fun txid htxid => ?_⟩
  rcases hinv.covered txid ((order.mem_toList _ _ _).2 htxid) with hdone | ⟨e, he, -⟩
  · exact hdone
  · rw [hempty] at he
    exact absurd he not_mem_nil

end

/-! ## The loop, when no transaction depends on itself -/

section
variable {arith : F64.Arith} {order : SetOrder T} {base : Pool T O} {st : RelState T O} {txid : T} {flag : Bool}
  {below : List (T × Bool)} {roots : List T}

/-- What `done` says about the pool, and the order of the stack. -/
structure RelInv (arith : F64.Arith) (order : SetOrder T) (base : Pool T O) (st : RelState T O) : Prop where
  related : Related arith order base {t | t ∈ st.done} (fun c p => c ∈ st.done ∧ Parent base c p) st.pool
  chained : Chained base st.stack
  pending : Pending base (· ∈ st.done) st.stack

section
variable (h : RelInv arith order base st) (hstackInv : StackInv base roots st)
include h hstackInv

lemma RelInv.skip (hacyclic : Acyclic base) (hstack : st.stack = (txid, flag) :: below)
    (hskip : txid ∈ st.done ∨ flag = false ∧ txid ∈ st.inProgress) :
    RelInv arith order base { st with stack := below } := by
  have hflagged := hstackInv.flagged_of_skip hstack hskip (t := txid)
  obtain ⟨pool, done, inProgress, _⟩ := st
  subst hstack
  have hchained := (pairwise_cons.1 h.chained).2
  refine ⟨h.related, hchained, ?_⟩
  rcases hskip with hdone | ⟨-, hprogress⟩
  · exact h.pending.2.mono fun t ht => ht.elim id fun heq => heq ▸ hdone
  · exact h.pending.2.of_flagged hacyclic (hflagged ((hstackInv.inProgress txid).1 hprogress)) hchained

lemma RelInv.expand (hacyclic : Acyclic base) (hstack : st.stack = (txid, false) :: below) :
    RelInv arith order base
      { st with
        inProgress := insert txid st.inProgress
        stack := newEntries st txid ++ (txid, true) :: below } := by
  obtain ⟨pool, done, inProgress, _⟩ := st
  subst hstack
  set st : RelState T O := ⟨pool, done, inProgress, (txid, false) :: below⟩
  obtain ⟨hhead, hchained⟩ := pairwise_cons.1 h.chained
  have hinputs : ∀ parent, parent ∈ inputsOf st.pool txid ↔ Parent base txid parent := fun parent => by
    rw [hstackInv.inputs, Parent]
  refine ⟨h.related, ?_, ?_⟩
  · unfold Chained
    rw [pairwise_append]
    refine ⟨?_, pairwise_cons.2 ⟨hhead, hchained⟩, ?_⟩
    · refine List.Pairwise.imp_of_mem (fun {a b} _ hb _ hflag => ?_) (pairwise_of_forall fun _ _ => trivial)
      rw [flag_of_mem_newEntries hb] at hflag
      cases hflag
    · intro a ha b hb hflag
      obtain ⟨parent, rfl, hparent, -⟩ := mem_newEntries.1 ha
      rcases mem_cons.1 hb with rfl | hb
      · exact TransGen.single ((hinputs parent).1 hparent)
      · exact (hhead b hb hflag).tail ((hinputs parent).1 hparent)
  · refine Pending.append_unflagged (fun e he => flag_of_mem_newEntries he)
      ⟨fun _ parent hparent => ?_, h.pending.2.mono fun t ht => ?_⟩
    · -- A parent that is not put on the stack is done: one that is being visited has the transaction above it.
      by_cases hparentDone : parent ∈ st.done
      · exact .inl hparentDone
      · refine .inr ⟨(parent, false), mem_newEntries.2 ⟨parent, rfl, (hinputs parent).2 hparent, hparentDone,
          fun hprogress => ?_⟩, rfl⟩
        rcases Finset.mem_insert.1 hprogress with rfl | hprogress
        · exact hacyclic parent (TransGen.single hparent)
        · rcases mem_cons.1 ((hstackInv.inProgress parent).1 hprogress) with heq | hon
          · cases heq
          · exact hacyclic parent ((hhead _ hon rfl).tail hparent)
    · exact ht.elim (fun hdone => .inl (.inl hdone)) .inr

lemma RelInv.finalise (hclosed : InputsClosed base) (hstack : st.stack = (txid, true) :: below) :
    RelInv arith order base
      { pool := finalise arith order st.pool txid
        done := insert txid st.done
        inProgress := st.inProgress.erase txid
        stack := below } := by
  obtain ⟨pool, done, inProgress, _⟩ := st
  subst hstack
  have hkey : txid ∈ base.keys := hstackInv.keys (txid, true) mem_cons_self
  refine ⟨?_, (pairwise_cons.1 h.chained).2, h.pending.2.mono fun t ht => Finset.mem_insert.2 ht.symm⟩
  refine (h.related.finalise hclosed hkey (h.pending.1 rfl)).congr ?_ ?_
  · intro t _
    simp only [Set.mem_insert_iff, Set.mem_ofPred_eq, Finset.mem_insert]
  · intro c _ p
    simp only [Finset.mem_insert]
    constructor
    · rintro (⟨hc, hparent⟩ | ⟨rfl, hparent⟩)
      · exact ⟨.inr hc, hparent⟩
      · exact ⟨.inl rfl, hparent⟩
    · rintro ⟨rfl | hc, hparent⟩
      · exact .inr ⟨rfl, hparent⟩
      · exact .inl ⟨hc, hparent⟩

end

lemma computeRelatives_spec (hfresh : ∀ txid tx, base.get txid = some tx → tx.children = ∅)
    (hclosed : InputsClosed base) (hacyclic : Acyclic base) :
    ∃ pool, computeRelatives arith order base = some pool ∧ AllRelated arith order base pool := by
  have hstart : RelInv arith order base ⟨base, ∅, ∅, []⟩ :=
    ⟨(related_base hfresh).congr (by simp) (by simp), List.Pairwise.nil, trivial⟩
  have hsteps : RelSteps arith order base (RelInv arith order base) := by
    refine ⟨fun hst hempty => ⟨hst.related, pairwise_singleton _ _, fun hflag => ?_, trivial⟩,
      fun hinv hst => hst.skip hinv hacyclic, fun hinv hst hstack _ _ => hst.expand hinv hacyclic hstack,
      fun hinv hst => hst.finalise hinv hclosed⟩
    cases hflag
  obtain ⟨st, hst, hinv, hall⟩ := computeRelatives_rule hclosed hstart hsteps
  refine ⟨st.pool, hst, hinv.related.allRelated hall ?_⟩
  exact fun txid htxid parent => ⟨fun h => h.2, fun h => ⟨hall txid htxid, h⟩⟩

end
end Espo.Mempool
