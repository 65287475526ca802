import Espo.Alkanes.Clean
import Espo.Lib.Positions

/-!
# The repair of orphan returns is sound and complete

`orphan_return_removals` walks over the events and drops, whenever a return comes with no frame open, the
latest return that looks like one of a host function.

* What is removed later can only raise the depth of a prefix, so a walk that ends has a well-nested rest.
* A set of candidates whose removal leaves a well-nested trace has, in every prefix, as many elements as
  the walk has removed there. So the walk never lacks a candidate.
-/

namespace Espo.Alkanes
open Lib List

/-! ## Well-nested events -/

@[simp]
lemma invokes_append (l r : List CleanEventView) : invokes (l ++ r) = invokes l + invokes r :=
  countP_append

@[simp]
lemma returns_append (l r : List CleanEventView) : returns (l ++ r) = returns l + returns r :=
  countP_append

/-- No beginning of the events has more returns than invokes, and all of them have as many. -/
structure WellNested (views : List CleanEventView) : Prop where
  returns_le : ∀ l, l <+: views → returns l ≤ invokes l
  total : returns views = invokes views

variable {removed : Finset ℕ} {views : List CleanEventView}

/-- A depth is reached when no beginning has too many returns. -/
theorem cleanedDepth_eq_some_iff {depth last : ℕ} :
    cleanedDepth depth views = some last ↔
      (∀ l, l <+: views → returns l ≤ depth + invokes l) ∧
        last + returns views = depth + invokes views := by
  induction views generalizing depth with
  | nil => simp [cleanedDepth, returns, invokes, eq_comm]
  | cons v views ih =>
    have hstart : ∀ P : List CleanEventView → Prop,
        (∀ l, l <+: v :: views → P l) ↔ P [] ∧ ∀ l, l <+: views → P (v :: l) := by
      intro P
      constructor
      · intro h
        exact ⟨h [] nil_prefix, fun l hl => h _ ((cons_prefix_cons).2 ⟨rfl, hl⟩)⟩
      · rintro ⟨hnil, hcons⟩ l hl
        rcases prefix_cons_iff.1 hl with rfl | ⟨t, rfl, ht⟩
        · exact hnil
        · exact hcons t ht
    rw [hstart]
    cases v with
    | invoke =>
      rw [cleanedDepth, ih]
      simp [returns, invokes, Nat.add_right_comm depth 1, ← Nat.add_assoc]
    | other =>
      rw [cleanedDepth, ih]
      simp [returns, invokes]
    | ret data =>
      cases depth with
      | zero =>
        -- the return alone is a beginning with too many returns
        simp only [cleanedDepth, reduceCtorEq, false_iff]
        rintro ⟨⟨-, hle⟩, -⟩
        have hone := hle [] nil_prefix
        simp [returns, invokes] at hone
      | succ depth =>
        rw [cleanedDepth, ih]
        simp [returns, invokes, Nat.add_right_comm depth 1, ← Nat.add_assoc]

/-- The last check of `attempt`. -/
theorem wellNested_iff :
    WellNested views ↔ invokes views = returns views ∧ cleanedDepth 0 views = some 0 := by
  rw [cleanedDepth_eq_some_iff]
  simp only [Nat.zero_add]
  constructor
  · intro h
    exact ⟨h.total.symm, h.returns_le, h.total⟩
  · rintro ⟨-, hle, htotal⟩
    exact ⟨hle, htotal⟩

/-! ## Events without some of the returns -/

/-- The events at the other positions. -/
def without (removed : Finset ℕ) (views : List CleanEventView) : List CleanEventView :=
  (views.zipIdx.filter fun v => v.2 ∉ removed).map Prod.fst

lemma without_concat (removed : Finset ℕ) (l : List CleanEventView) (v : CleanEventView) :
    without removed (l ++ [v]) = without removed l ++ if l.length ∈ removed then [] else [v] := by
  rw [without, zipIdx_append, filter_append, map_append, ← without]
  by_cases h : l.length ∈ removed <;> simp [h]

lemma without_isPrefix (removed : Finset ℕ) (l r : List CleanEventView) :
    without removed l <+: without removed (l ++ r) := by
  rw [without, without, zipIdx_append, filter_append, map_append]
  exact prefix_append _ _

lemma exists_of_isPrefix_without {p : List CleanEventView} (h : p <+: without removed views) :
    ∃ l r, views = l ++ r ∧ p = without removed l := by
  induction views using List.reverseRecOn with
  | nil => exact ⟨[], [], rfl, prefix_nil.1 h⟩
  | append_singleton views v ih =>
    have hshorter : p <+: without removed views → ∃ l r, views ++ [v] = l ++ r ∧ p = without removed l := by
      intro hp
      obtain ⟨l, r, rfl, rfl⟩ := ih hp
      exact ⟨l, r ++ [v], append_assoc _ _ _, rfl⟩
    by_cases hmem : views.length ∈ removed
    · rw [without_concat, if_pos hmem, append_nil] at h
      exact hshorter h
    · have hall := without_concat removed views v
      rw [if_neg hmem] at hall
      rw [hall, prefix_concat_iff] at h
      rcases h with rfl | hp
      · exact ⟨views ++ [v], [], (append_nil _).symm, hall.symm⟩
      · exact hshorter hp

lemma count_eq_card {n : ℕ} (h : ∀ i ∈ removed, i < n) : Nat.count (· ∈ removed) n = removed.card := by
  rw [Nat.count_eq_card_filter_range, Finset.filter_mem_eq_inter, Finset.inter_eq_right.2]
  exact fun i hi => Finset.mem_range.2 (h i hi)

lemma count_without {l : List CleanEventView}
    (h : ∀ i ∈ removed, ∀ v, l[i]? = some v → ∃ data, v = .ret data) :
    invokes (without removed l) = invokes l ∧
      returns (without removed l) + Nat.count (· ∈ removed) l.length = returns l := by
  induction l using List.reverseRecOn with
  | nil => simp [without]
  | append_singleton l v ih =>
    obtain ⟨hinv, hret⟩ := ih fun i hi v' hv' => h i hi v' (getElem?_append_of_some hv' _)
    rw [without_concat, length_append, length_singleton, Nat.count_succ]
    by_cases hmem : l.length ∈ removed
    · obtain ⟨data, rfl⟩ := h _ hmem v (by simp)
      rw [if_pos hmem, if_pos hmem, append_nil, invokes_append, returns_append]
      have hone : returns [.ret data] = 1 := rfl
      have hzero : invokes [.ret data] = 0 := rfl
      omega
    · rw [if_neg hmem, if_neg hmem, invokes_append, invokes_append, returns_append, returns_append]
      omega

/-! ## The walk -/

section Walk
variable (bitcoin : BitcoinDecode) (host : HostFunctionValues) (allowFuzzy : Bool)

/-- A position that holds a candidate return. -/
def CandidateAt (views : List CleanEventView) (i : ℕ) : Prop :=
  ∃ data, views[i]? = some (.ret data) ∧ isCandidate bitcoin host allowFuzzy data = true

/-- The walk of `attempt` over all events. -/
def removalWalk (views : List CleanEventView) : Option RemovalWalk :=
  views.zipIdx.foldlM (RemovalWalk.step bitcoin host allowFuzzy) ⟨∅, [], 0, 0⟩

variable (w : RemovalWalk) (data : Option (List UInt8))

/-- A return puts itself on the stack if it is a candidate. -/
def RemovalWalk.note (i : ℕ) : RemovalWalk :=
  if isCandidate bitcoin host allowFuzzy data then
    { w with totalCandidates := w.totalCandidates + 1, candidateStack := i :: w.candidateStack }
  else w

/-- The latest candidate is removed. -/
def RemovalWalk.remove (idx : ℕ) (stack : List ℕ) : RemovalWalk :=
  { w with removeIndices := insert idx w.removeIndices, candidateStack := stack }

variable {bitcoin host allowFuzzy} {l r views : List CleanEventView} {w w' : RemovalWalk} {removed : Finset ℕ}
  {v : CleanEventView}

lemma candidateAt_concat {i : ℕ} :
    CandidateAt bitcoin host allowFuzzy (l ++ [v]) i ↔
      CandidateAt bitcoin host allowFuzzy l i ∨
        i = l.length ∧ ∃ data, v = .ret data ∧ isCandidate bitcoin host allowFuzzy data = true := by
  simp only [CandidateAt, getElem?_concat_eq_some, or_and_right, exists_or]
  refine or_congr_right ?_
  constructor
  · rintro ⟨data, ⟨hi, hv⟩, hcand⟩
    exact ⟨hi, data, hv.symm, hcand⟩
  · rintro ⟨hi, data, hv, hcand⟩
    exact ⟨data, ⟨hi, hv.symm⟩, hcand⟩

lemma CandidateAt.lt_length {i : ℕ} (h : CandidateAt bitcoin host allowFuzzy l i) :
    i < l.length := by
  obtain ⟨data, hget, -⟩ := h
  exact (List.getElem?_eq_some_iff.1 hget).1

lemma CandidateAt.weaken {i : ℕ} (h : CandidateAt bitcoin host false l i) :
    CandidateAt bitcoin host true l i := by
  obtain ⟨data, hget, hcand⟩ := h
  refine ⟨data, hget, ?_⟩
  cases data with
  | none => cases hcand
  | some data =>
    have hmatch : hostMatch host data = true := by simpa [isCandidate] using hcand
    simp [isCandidate, hmatch]

lemma removalWalk_concat (l : List CleanEventView) (v : CleanEventView) :
    removalWalk bitcoin host allowFuzzy (l ++ [v])
      = (removalWalk bitcoin host allowFuzzy l).bind fun w =>
          w.step bitcoin host allowFuzzy (v, l.length) := by
  rw [removalWalk, zipIdx_append, foldlM_append]
  simp only [Nat.zero_add]
  exact bind_congr fun w => bind_pure _

@[simp]
lemma RemovalWalk.note_depth (i : ℕ) : (w.note bitcoin host allowFuzzy data i).depth = w.depth := by
  unfold note
  split_ifs <;> rfl

@[simp]
lemma RemovalWalk.note_removeIndices (i : ℕ) :
    (w.note bitcoin host allowFuzzy data i).removeIndices = w.removeIndices := by
  unfold note
  split_ifs <;> rfl

lemma RemovalWalk.step_ret_pos (h : 0 < w.depth) (data : Option (List UInt8)) (i : ℕ) :
    w.step bitcoin host allowFuzzy (.ret data, i)
      = some { w.note bitcoin host allowFuzzy data i with depth := w.depth - 1 } := by
  have hdepth : (w.note bitcoin host allowFuzzy data i).depth ≠ 0 := by
    rw [note_depth]
    omega
  show (if (w.note bitcoin host allowFuzzy data i).depth = 0 then _ else _) = _
  rw [if_neg hdepth]
  show some { w.note bitcoin host allowFuzzy data i with
    depth := (w.note bitcoin host allowFuzzy data i).depth - 1 } = _
  rw [note_depth]

lemma RemovalWalk.step_ret_zero (h : w.depth = 0) (data : Option (List UInt8)) (i : ℕ) :
    w.step bitcoin host allowFuzzy (.ret data, i)
      = match (w.note bitcoin host allowFuzzy data i).candidateStack with
        | [] => none
        | idx :: stack => some ((w.note bitcoin host allowFuzzy data i).remove idx stack) := by
  have hdepth : (w.note bitcoin host allowFuzzy data i).depth = 0 := by
    rw [note_depth, h]
  show (if (w.note bitcoin host allowFuzzy data i).depth = 0 then _ else _) = _
  rw [if_pos hdepth]
  rfl

lemma RemovalWalk.step_cases {i : ℕ} (h : w.step bitcoin host allowFuzzy (v, i) = some w') :
    v = .invoke ∧ w' = { w with depth := w.depth + 1 } ∨ v = .other ∧ w' = w ∨
    ∃ data, v = .ret data ∧
      (0 < w.depth ∧ w' = { w.note bitcoin host allowFuzzy data i with depth := w.depth - 1 } ∨
        w.depth = 0 ∧ ∃ idx stack, (w.note bitcoin host allowFuzzy data i).candidateStack = idx :: stack ∧
          w' = (w.note bitcoin host allowFuzzy data i).remove idx stack) := by
  cases v with
  | invoke => exact .inl ⟨rfl, (Option.some.inj h).symm⟩
  | other => exact .inr (.inl ⟨rfl, (Option.some.inj h).symm⟩)
  | ret data =>
    refine .inr (.inr ⟨data, rfl, ?_⟩)
    rcases Nat.eq_zero_or_pos w.depth with hzero | hpos
    · rw [step_ret_zero hzero] at h
      cases hstack : (w.note bitcoin host allowFuzzy data i).candidateStack with
      | nil => simp [hstack] at h
      | cons idx stack =>
        simp only [hstack, Option.some.injEq] at h
        exact .inr ⟨hzero, idx, stack, rfl, h.symm⟩
    · rw [step_ret_pos hpos] at h
      exact .inl ⟨hpos, (Option.some.inj h).symm⟩

/-- The candidates met so far are on the stack or removed. -/
structure StackInv (cand : ℕ → Prop) (w : RemovalWalk) : Prop where
  mem_iff : ∀ i, i ∈ w.removeIndices ∨ i ∈ w.candidateStack ↔ cand i
  disjoint : ∀ i ∈ w.candidateStack, i ∉ w.removeIndices
  nodup : w.candidateStack.Nodup
  total : w.totalCandidates = w.candidateStack.length + w.removeIndices.card

section
variable (h : StackInv (CandidateAt bitcoin host allowFuzzy l) w)
include h

lemma StackInv.skip (hv : ∀ data, v = .ret data → isCandidate bitcoin host allowFuzzy data = false) :
    StackInv (CandidateAt bitcoin host allowFuzzy (l ++ [v])) w := by
  refine ⟨fun i => ?_, h.disjoint, h.nodup, h.total⟩
  rw [candidateAt_concat, ← h.mem_iff]
  grind

lemma StackInv.note (data : Option (List UInt8)) :
    StackInv (CandidateAt bitcoin host allowFuzzy (l ++ [.ret data]))
      (w.note bitcoin host allowFuzzy data l.length) := by
  have hfresh : ∀ i, i ∈ w.removeIndices ∨ i ∈ w.candidateStack → i ≠ l.length :=
    fun i hi => ((h.mem_iff i).1 hi).lt_length.ne
  unfold RemovalWalk.note
  by_cases hcand : isCandidate bitcoin host allowFuzzy data = true
  · rw [if_pos hcand]
    refine ⟨fun i => ?_, fun i hi => ?_, ?_, ?_⟩
    · rw [candidateAt_concat, ← h.mem_iff]
      simp [hcand, or_assoc, or_comm (a := i = l.length)]
    · rcases mem_cons.1 hi with rfl | hi
      · exact fun hmem => hfresh _ (.inl hmem) rfl
      · exact h.disjoint i hi
    · exact nodup_cons.2 ⟨fun hmem => hfresh _ (.inr hmem) rfl, h.nodup⟩
    · show w.totalCandidates + 1 = w.candidateStack.length + 1 + w.removeIndices.card
      rw [h.total]
      omega
  · rw [if_neg hcand]
    exact h.skip fun _ heq => by simpa [← CleanEventView.ret.inj heq] using hcand

end

lemma StackInv.remove {cand : ℕ → Prop} (h : StackInv cand w) {idx : ℕ} {stack : List ℕ}
    (hstack : w.candidateStack = idx :: stack) :
    StackInv cand (w.remove idx stack) ∧
      (w.remove idx stack).removeIndices.card = w.removeIndices.card + 1 := by
  have hidx : idx ∉ w.removeIndices := h.disjoint idx (by simp [hstack])
  have hnodup := h.nodup
  rw [hstack, nodup_cons] at hnodup
  have hcard : (w.remove idx stack).removeIndices.card = w.removeIndices.card + 1 :=
    Finset.card_insert_of_notMem hidx
  refine ⟨⟨fun i => ?_, fun i hi => ?_, hnodup.2, ?_⟩, hcard⟩
  · rw [← h.mem_iff, hstack]
    simp only [RemovalWalk.remove, Finset.mem_insert, mem_cons]
    tauto
  · have hne : i ≠ idx := fun heq => hnodup.1 (heq ▸ hi)
    have hold : i ∉ w.removeIndices := h.disjoint i (hstack ▸ mem_cons_of_mem idx hi)
    simp [RemovalWalk.remove, hne, hold]
  · rw [hcard]
    show w.totalCandidates = stack.length + (w.removeIndices.card + 1)
    rw [h.total, hstack, length_cons]
    omega

/-- The invariant of the walk. -/
structure WalkInv (bitcoin : BitcoinDecode) (host : HostFunctionValues) (allowFuzzy : Bool)
    (l : List CleanEventView) (w : RemovalWalk) : Prop where
  stack : StackInv (CandidateAt bitcoin host allowFuzzy l) w
  depth_eq : w.depth + returns l = invokes l + w.removeIndices.card

lemma WalkInv.step (h : WalkInv bitcoin host allowFuzzy l w)
    (hstep : w.step bitcoin host allowFuzzy (v, l.length) = some w') :
    WalkInv bitcoin host allowFuzzy (l ++ [v]) w' := by
  have hdepth := h.depth_eq
  rcases RemovalWalk.step_cases hstep with ⟨rfl, rfl⟩ | ⟨rfl, rfl⟩ | ⟨data, rfl, hret⟩
  · obtain ⟨hmem, hdisj, hnodup, htotal⟩ := h.stack.skip (v := .invoke) nofun
    refine ⟨⟨hmem, hdisj, hnodup, htotal⟩, ?_⟩
    rw [invokes_append, returns_append]
    show w.depth + 1 + (returns l + 0) = invokes l + 1 + w.removeIndices.card
    omega
  · refine ⟨h.stack.skip nofun, ?_⟩
    rw [invokes_append, returns_append]
    exact hdepth
  · have hnote := h.stack.note data
    rcases hret with ⟨hpos, rfl⟩ | ⟨hzero, idx, stack, hstack, rfl⟩
    · refine ⟨⟨hnote.mem_iff, hnote.disjoint, hnote.nodup, hnote.total⟩, ?_⟩
      rw [invokes_append, returns_append, RemovalWalk.note_removeIndices]
      show w.depth - 1 + (returns l + 1) = invokes l + 0 + w.removeIndices.card
      omega
    · obtain ⟨hinv, hcard⟩ := hnote.remove hstack
      refine ⟨hinv, ?_⟩
      rw [hcard, invokes_append, returns_append, RemovalWalk.note_removeIndices]
      show (w.note bitcoin host allowFuzzy data l.length).depth + (returns l + 1)
        = invokes l + 0 + (w.removeIndices.card + 1)
      rw [RemovalWalk.note_depth]
      omega

lemma walkInv_of_removalWalk (h : removalWalk bitcoin host allowFuzzy l = some w) :
    WalkInv bitcoin host allowFuzzy l w := by
  induction l using List.reverseRecOn generalizing w with
  | nil =>
    cases h
    refine ⟨⟨fun i => ?_, ?_, nodup_nil, rfl⟩, rfl⟩
    · simp [CandidateAt]
    · exact fun i hi => absurd hi not_mem_nil
  | append_singleton l v ih =>
    rw [removalWalk_concat, Option.bind_eq_some_iff] at h
    obtain ⟨w₀, hw₀, hstep⟩ := h
    exact (ih hw₀).step hstep

lemma RemovalWalk.removeIndices_subset_step {i : ℕ}
    (h : w.step bitcoin host allowFuzzy (v, i) = some w') : w.removeIndices ⊆ w'.removeIndices := by
  rcases step_cases h with ⟨rfl, rfl⟩ | ⟨rfl, rfl⟩ | ⟨data, rfl, ⟨-, rfl⟩ | ⟨-, idx, stack, -, rfl⟩⟩
  · exact subset_rfl
  · exact subset_rfl
  · rw [note_removeIndices]
  · simp [remove]

section
variable (h : removalWalk bitcoin host allowFuzzy (l ++ r) = some w)
include h

lemma removalWalk_of_append :
    ∃ w₀, removalWalk bitcoin host allowFuzzy l = some w₀ ∧ w₀.removeIndices ⊆ w.removeIndices := by
  induction r using List.reverseRecOn generalizing w with
  | nil => exact ⟨w, by simpa using h, subset_rfl⟩
  | append_singleton r v ih =>
    rw [← append_assoc, removalWalk_concat, Option.bind_eq_some_iff] at h
    obtain ⟨w₁, hw₁, hstep⟩ := h
    obtain ⟨w₀, hw₀, hsub⟩ := ih hw₁
    exact ⟨w₀, hw₀, hsub.trans (RemovalWalk.removeIndices_subset_step hstep)⟩

lemma returns_le_of_removalWalk :
    returns l ≤ invokes l + Nat.count (· ∈ w.removeIndices) l.length := by
  obtain ⟨w₀, hw₀, hsub⟩ := removalWalk_of_append h
  have hinv := walkInv_of_removalWalk hw₀
  have hdepth := hinv.depth_eq
  have hcard : Nat.count (· ∈ w₀.removeIndices) l.length = w₀.removeIndices.card :=
    count_eq_card fun i hi => ((hinv.stack.mem_iff i).1 (.inl hi)).lt_length
  have hmono : Nat.count (· ∈ w₀.removeIndices) l.length ≤ Nat.count (· ∈ w.removeIndices) l.length :=
    Nat.count_mono_left fun _ _ hi => hsub hi
  omega

end

/-! ## Repairs -/

/-- A set of positions whose removal repairs the events: as many candidates as there are surplus returns,
and what is left is well nested. -/
structure Repairs (bitcoin : BitcoinDecode) (host : HostFunctionValues) (allowFuzzy : Bool)
    (views : List CleanEventView) (removed : Finset ℕ) : Prop where
  card : removed.card = returns views - invokes views
  candidate : ∀ i ∈ removed, CandidateAt bitcoin host allowFuzzy views i
  wellNested : WellNested (without removed views)

lemma isReturn_of_candidateAt (h : ∀ i ∈ removed, CandidateAt bitcoin host allowFuzzy (l ++ r) i) :
    ∀ i ∈ removed, ∀ v, l[i]? = some v → ∃ data, v = .ret data := by
  intro i hi v hv
  obtain ⟨data, hget, -⟩ := h i hi
  have hsame := (getElem?_append_of_some hv r).symm.trans hget
  exact ⟨data, Option.some.inj hsame⟩

lemma Repairs.returns_le (h : Repairs bitcoin host allowFuzzy (l ++ r) removed) :
    returns l ≤ invokes l + Nat.count (· ∈ removed) l.length := by
  obtain ⟨hinv, hret⟩ := count_without (isReturn_of_candidateAt h.candidate)
  have hle := h.wellNested.returns_le _ (without_isPrefix removed l r)
  omega

lemma repairs_of_removalWalk (h : removalWalk bitcoin host allowFuzzy views = some w)
    (hmore : invokes views < returns views)
    (hcard : w.removeIndices.card = returns views - invokes views) :
    Repairs bitcoin host allowFuzzy views w.removeIndices := by
  have hinv := walkInv_of_removalWalk h
  have hcand : ∀ i ∈ w.removeIndices, CandidateAt bitcoin host allowFuzzy views i :=
    fun i hi => (hinv.stack.mem_iff i).1 (.inl hi)
  refine ⟨hcard, hcand, ?_, ?_⟩
  · intro p hp
    obtain ⟨l, r, rfl, rfl⟩ := exists_of_isPrefix_without hp
    obtain ⟨hcount, hret⟩ := count_without (isReturn_of_candidateAt hcand)
    have hle := returns_le_of_removalWalk h
    omega
  · obtain ⟨hcount, hret⟩ := count_without (l := views)
      (isReturn_of_candidateAt (r := []) (by simpa using hcand))
    have hall : Nat.count (· ∈ w.removeIndices) views.length = w.removeIndices.card :=
      count_eq_card fun i hi => (hcand i hi).lt_length
    omega

/-- When a repair exists, the walk goes through and has removed, after every beginning, at most as many
returns as the repair. -/
theorem removalWalk_of_repairs (h : Repairs bitcoin host allowFuzzy views removed)
    (hviews : views = l ++ r) :
    ∃ w, removalWalk bitcoin host allowFuzzy l = some w ∧
      w.removeIndices.card ≤ Nat.count (· ∈ removed) l.length := by
  induction l using List.reverseRecOn generalizing r with
  | nil => exact ⟨_, rfl, Nat.zero_le _⟩
  | append_singleton l v ih =>
    obtain ⟨w, hw, hcard⟩ := ih (r := v :: r) (by simpa using hviews)
    rw [removalWalk_concat, hw, Option.bind_some]
    have hmono := Nat.count_monotone (· ∈ removed) (show l.length ≤ (l ++ [v]).length by simp)
    cases v with
    | invoke => exact ⟨_, rfl, hcard.trans hmono⟩
    | other => exact ⟨_, rfl, hcard.trans hmono⟩
    | ret data =>
      rcases Nat.eq_zero_or_pos w.depth with hzero | hpos
      · have hinv := walkInv_of_removalWalk hw
        have hdepth := hinv.depth_eq
        have hneed : w.removeIndices.card + 1 ≤ Nat.count (· ∈ removed) (l ++ [CleanEventView.ret data]).length := by
          have hle := Repairs.returns_le (l := l ++ [CleanEventView.ret data]) (r := r) (hviews ▸ h)
          rw [returns_append, invokes_append] at hle
          have hone : returns [CleanEventView.ret data] = 1 := rfl
          have hnone : invokes [CleanEventView.ret data] = 0 := rfl
          omega
        have hnote := hinv.stack.note data
        cases hstack : (w.note bitcoin host allowFuzzy data l.length).candidateStack with
        | nil =>
          -- with an empty stack all candidates are removed already, and the repair has more
          have hsub : (Finset.range (l ++ [CleanEventView.ret data]).length).filter (· ∈ removed)
              ⊆ w.removeIndices := by
            intro i hi
            obtain ⟨hlt, hmem⟩ := Finset.mem_filter.1 hi
            obtain ⟨d, hget, hd⟩ := h.candidate i hmem
            rw [hviews, getElem?_append_left (Finset.mem_range.1 hlt)] at hget
            have hin := (hnote.mem_iff i).2 ⟨d, hget, hd⟩
            rw [hstack] at hin
            simpa using hin
          have hle := (Nat.count_eq_card_filter_range (· ∈ removed) _).trans_le (Finset.card_le_card hsub)
          omega
        | cons idx stack =>
          rw [RemovalWalk.step_ret_zero hzero]
          simp only [hstack]
          refine ⟨_, rfl, ?_⟩
          rw [(hnote.remove hstack).2, RemovalWalk.note_removeIndices]
          exact hneed
      · refine ⟨_, RemovalWalk.step_ret_pos hpos data l.length, ?_⟩
        rw [RemovalWalk.note_removeIndices]
        exact hcard.trans hmono

lemma repairs_of_attempt (hmore : invokes views < returns views)
    (h : attempt bitcoin host views allowFuzzy = some removed) :
    Repairs bitcoin host allowFuzzy views removed := by
  rw [attempt, Option.bind_eq_some_iff] at h
  obtain ⟨w, hw, hchecks⟩ := h
  dsimp only at hchecks
  split_ifs at hchecks with hcount
  cases hchecks
  exact repairs_of_removalWalk hw hmore (by_contra fun hne => hcount (.inr hne))

lemma exists_attempt_of_repairs (hmore : invokes views < returns views)
    (h : Repairs bitcoin host allowFuzzy views removed) :
    ∃ found, attempt bitcoin host views allowFuzzy = some found := by
  obtain ⟨w, hw, hle⟩ := removalWalk_of_repairs h (append_nil views).symm
  have hinv := walkInv_of_removalWalk hw
  have hdepth := hinv.depth_eq
  have htotal := hinv.stack.total
  have hcard : w.removeIndices.card = returns views - invokes views := by
    rw [count_eq_card fun i hi => (h.candidate i hi).lt_length, h.card] at hle
    omega
  have hnested := wellNested_iff.1 (repairs_of_removalWalk hw hmore hcard).wellNested
  refine ⟨w.removeIndices, ?_⟩
  rw [attempt, Option.bind_eq_some_iff]
  refine ⟨w, hw, ?_⟩
  rw [if_neg (by omega)]
  exact if_neg (by rw [not_or, not_not, not_not]; exact hnested)

/-- Events with surplus returns: every set that `orphan_return_removals` finds is a repair, and the
attempt with exact matches finds one when there is one. -/
theorem orphanReturnRemovals_sound_complete (views : List CleanEventView)
    (hmore : invokes views < returns views) :
    (∀ removed, orphanReturnRemovals bitcoin host views = some removed →
      Repairs bitcoin host true views removed) ∧
    ((∃ removed, Repairs bitcoin host false views removed) →
      ∃ found, attempt bitcoin host views false = some found ∧
        orphanReturnRemovals bitcoin host views = some found ∧
        Repairs bitcoin host false views found) := by
  have heq : orphanReturnRemovals bitcoin host views
      = (attempt bitcoin host views false).or (attempt bitcoin host views true) := by
    rw [orphanReturnRemovals, if_neg (by omega), if_neg (by omega)]
  constructor
  · intro removed hremoved
    rw [heq, Option.or_eq_some_iff] at hremoved
    rcases hremoved with hexact | ⟨-, hfuzzy⟩
    · obtain ⟨hcard, hcand, hnested⟩ := repairs_of_attempt hmore hexact
      exact ⟨hcard, fun i hi => (hcand i hi).weaken, hnested⟩
    · exact repairs_of_attempt hmore hfuzzy
  · rintro ⟨removed, hrepairs⟩
    obtain ⟨found, hfound⟩ := exists_attempt_of_repairs hmore hrepairs
    refine ⟨found, hfound, ?_, repairs_of_attempt hmore hfound⟩
    rw [heq, hfound, Option.some_or]

/-- The return of a host function inside a call. -/
theorem orphanReturnRemovals_sound_complete_fee :
    orphanReturnRemovals ⟨fun _ => false, fun _ => false⟩ ⟨[], [], [], [7]⟩
        [.invoke, .ret (some [7]), .ret none] = some {1} ∧
      Repairs ⟨fun _ => false, fun _ => false⟩ ⟨[], [], [], [7]⟩ true
        [.invoke, .ret (some [7]), .ret none] {1} :=
  ⟨by decide, (orphanReturnRemovals_sound_complete _ (by decide)).1 {1} (by decide)⟩

end Walk
end Espo.Alkanes
