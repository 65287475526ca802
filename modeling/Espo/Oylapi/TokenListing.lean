import Espo.Lib.Iterate
import Espo.Tree.Mdb
import Espo.Tree.PrefixScan

/-!
# Sorted token listing

Tokens are listed by a metric. Those with a metric row come in the order of the metric index, the others in
the order of their creation: behind them when the order is descending, before them when it is ascending. The
others are found by walking through all creations and passing over those with a row.
-/

namespace Espo.Oylapi
open Lib List TreeDb

/-- What is stored: the alkanes in the order of their creation, the metric rows, and the ids of the metric
index of each field in the order of its keys. -/
structure TokenListing (A M F : Type) [DecidableEq A] where
  created : List A
  metrics : Table A M
  index : F → List A
  /-- The stored count. -/
  metricsCount : ℕ
  nodup_created : created.Nodup
  nodup_index : ∀ field, (index field).Nodup
  mem_index : ∀ field a, a ∈ index field ↔ (metrics.get a).isSome = true
  count_eq : ∀ field, metricsCount = (index field).length
  subset : ∀ a, (metrics.get a).isSome = true → a ∈ created

section Pages
variable {A : Type}

/-- `creation_seq_bounds`. -/
def creationSeqBounds (total offset limit : ℕ) (desc : Bool) : ℕ × ℕ × Bool :=
  if limit = 0 ∨ total ≤ offset then (0, 0, false)
  else if !desc then (min offset total, min (min offset total + limit) total, false)
  else (total - offset - limit, total - offset, true)

/-- `get_creation_records_ordered_page`. -/
def getCreationRecordsOrderedPage (created : List A) (offset limit : ℕ) (desc : Bool) : List A :=
  let bounds := creationSeqBounds created.length offset limit desc
  directed bounds.2.2 ((created.take bounds.2.1).drop bounds.1)

/-- The variables of a loop that collects a page. -/
structure PageAcc (A : Type) where
  skipped : ℕ
  out : List A

/-- One element of such a loop. -/
def PageAcc.turn (wanted : A → Bool) (offset limit : ℕ) (acc : PageAcc A) (a : A) : PageAcc A × Bool :=
  if !wanted a then (acc, false)
  else if acc.skipped < offset then ({ acc with skipped := acc.skipped + 1 }, false)
  else ({ acc with out := acc.out ++ [a] }, decide (limit ≤ acc.out.length + 1))

end Pages

section Defs
variable {A M F : Type} [DecidableEq A] (t : TokenListing A M F)

/-- `metrics_page`, with `get_token_metrics_index_page`. -/
def metricsPage (field : F) (desc : Bool) (offset limit : ℕ) : List A :=
  if limit = 0 then []
  else (foldUntil (PageAcc.turn (fun _ => true) offset limit) ⟨0, []⟩ (directed desc (t.index field))).1.out

/-- One turn of the loop in `collect_missing_tokens`, with `creation_offset`. -/
def missingTurn (offset limit : ℕ) (desc : Bool) (st : PageAcc A × ℕ) : Option (Turn (PageAcc A × ℕ)) :=
  let page := getCreationRecordsOrderedPage t.created st.2 (max 200 limit) desc
  if page.isEmpty then some (.exit st)
  else
    let acc := foldUntil (PageAcc.turn (fun a => (t.metrics.get a).isNone) offset limit) st.1 page
    if acc.2 then some (.exit (acc.1, st.2)) else some (.next (acc.1, st.2 + page.length))

/-- `collect_missing_tokens`. -/
def collectMissingTokens (offset limit : ℕ) (desc : Bool) : Option (List A) :=
  if limit = 0 then some []
  else (loop (missingTurn t offset limit desc) (t.created.length + 1) (⟨0, []⟩, 0)).map fun st => st.1.out

/-- `fetch_sorted_alkane_ids_no_query` for a metric field. -/
def fetchSortedAlkaneIdsNoQuery (field : F) (desc : Bool) (offset limit total : ℕ) : Option (List A) :=
  let metricsPage := metricsPage t field desc
  let missingCount := total - t.metricsCount
  let fallback := getCreationRecordsOrderedPage t.created offset limit desc
  if limit = 0 then some []
  else if t.metricsCount = 0 ∧ 0 < total ∧ metricsPage offset limit ≠ [] then some (metricsPage offset limit)
  else if t.metricsCount = 0 ∧ 0 < total ∧ fallback ≠ [] then some fallback
  else if desc then
    if offset < t.metricsCount then
      let ids := metricsPage offset (min limit (t.metricsCount - offset))
      if 0 < limit - ids.length ∧ 0 < missingCount then
        (collectMissingTokens t 0 (limit - ids.length) true).map (ids ++ ·)
      else some ids
    else if 0 < missingCount then collectMissingTokens t (offset - t.metricsCount) limit true
    else some []
  else if 0 < missingCount ∧ offset < missingCount then
    (collectMissingTokens t offset (min limit (missingCount - offset)) false).map fun ids =>
      ids ++ metricsPage 0 (limit - ids.length)
  else some (metricsPage (offset - missingCount) limit)

end Defs

section Spec
variable {A M F : Type}

lemma getCreationRecordsOrderedPage_eq (created : List A) (offset limit : ℕ) (desc : Bool) :
    getCreationRecordsOrderedPage created offset limit desc = page offset limit (directed desc created) := by
  unfold getCreationRecordsOrderedPage creationSeqBounds
  by_cases hnone : limit = 0 ∨ created.length ≤ offset
  · have hempty : page offset limit (directed desc created) = [] := by
      apply length_eq_zero_iff.1
      rw [length_page]
      cases desc <;> simp [directed] <;> omega
    rw [if_pos hnone, hempty]
    rfl
  · rw [if_neg hnone]
    cases desc with
    | false =>
      simp only [directed, Bool.not_false, if_true, Bool.false_eq_true, if_false, page]
      rw [min_eq_left (by omega), ← take_eq_take_min, drop_take, Nat.add_sub_cancel_left]
    | true =>
      simp only [directed, page, Bool.not_true, Bool.false_eq_true, if_false, if_true, drop_reverse, take_reverse,
        length_take]
      rw [min_eq_left (by omega)]

lemma pages_turn (wanted : A → Bool) (offset limit : ℕ) :
    Pages (PageAcc.turn wanted offset limit) PageAcc.out (offset - ·.skipped) (some limit) (fun _ => false)
      (Option.guard wanted ·) := by
  constructor
  case leave => simp
  case pass =>
    intro acc a _ hnone
    simp_all [PageAcc.turn, Option.guard]
  case skip =>
    intro acc a b _ hsome hpos
    obtain ⟨rfl, hwanted⟩ := Option.guard_eq_some_iff.1 hsome
    rw [PageAcc.turn, if_neg (by simp [hwanted]), if_pos (by omega)]
    exact ⟨rfl, rfl, by dsimp only; omega⟩
  case collect =>
    intro acc a b _ hsome hzero
    obtain ⟨rfl, hwanted⟩ := Option.guard_eq_some_iff.1 hsome
    rw [PageAcc.turn, if_neg (by simp [hwanted]), if_neg (by omega)]
    exact ⟨rfl, rfl, hzero⟩

lemma out_foldUntil_turn (wanted : A → Bool) (offset : ℕ) {limit : ℕ} (hlimit : limit ≠ 0) (l : List A) :
    (foldUntil (PageAcc.turn wanted offset limit) ⟨0, []⟩ l).1.out = page offset limit (l.filter wanted) := by
  have htrue : l.takeWhile (fun _ => true) = l := takeWhile_eq_self_iff.2 fun _ _ => rfl
  have hout := (pages_turn wanted offset limit).out_foldUntil ⟨0, []⟩ l (by simp; omega)
  simpa [takeLimit, page, htrue] using hout

variable [DecidableEq A] (t : TokenListing A M F) (desc : Bool) (offset limit : ℕ)

lemma metricsPage_eq (field : F) :
    metricsPage t field desc offset limit = page offset limit (directed desc (t.index field)) := by
  rw [metricsPage]
  split_ifs with hlimit
  · rw [hlimit, page, take_zero]
  · rw [out_foldUntil_turn _ _ hlimit, filter_true]

/-- The alkanes without a metric row. -/
def missing : List A := (directed desc t.created).filter fun a => (t.metrics.get a).isNone

lemma collectMissingTokens_eq :
    collectMissingTokens t offset limit desc = some (page offset limit (missing t desc)) := by
  rw [collectMissingTokens]
  split_ifs with hlimit
  · rw [hlimit, page, take_zero]
  · let turn := PageAcc.turn (fun a => (t.metrics.get a).isNone) offset limit
    let order := directed desc t.created
    have hlength : order.length = t.created.length := by cases desc <;> simp [order, directed]
    obtain ⟨st, hst, hout⟩ : ∃ st,
        loop (missingTurn t offset limit desc) (t.created.length + 1) (⟨0, []⟩, 0) = some st ∧
          st.1.out = (foldUntil turn ⟨0, []⟩ order).1.out := by
      refine loop_spec (m := fun st => order.length - st.2)
        (I := fun st => foldUntil turn ⟨0, []⟩ (order.take st.2) = (st.1, false) ∧ st.2 ≤ order.length)
        ?_ ⟨rfl, Nat.zero_le _⟩ (by simp [hlength])
      rintro ⟨acc, n⟩ ⟨hdone, hn⟩
      simp only [missingTurn, getCreationRecordsOrderedPage_eq]
      generalize hnext : page n (max 200 limit) (directed desc t.created) = next
      have hlen : next.length = min (max 200 limit) (order.length - n) := hnext ▸ length_page _ _ _
      have hrun : foldUntil turn ⟨0, []⟩ (order.take (n + next.length)) = foldUntil turn acc next := by
        rw [take_add, foldUntil_append, hdone, if_neg Bool.false_ne_true]
        rw [← hnext, page, length_take, ← take_eq_take_min]
      split_ifs with hempty hfull
      · have hnil : next = [] := isEmpty_iff.1 hempty
        rw [hnil, length_nil] at hlen
        rw [take_of_length_le (by omega)] at hdone
        exact .inr ⟨_, rfl, by rw [hdone]⟩
      · refine .inr ⟨_, rfl, ?_⟩
        rw [← take_append_drop (n + next.length) order, foldUntil_append, hrun, if_pos hfull]
      · have hpos : next.length ≠ 0 := fun hzero => hempty (isEmpty_iff.2 (length_eq_zero_iff.1 hzero))
        refine .inl ⟨_, rfl, ⟨?_, ?_⟩, ?_⟩
        · exact hrun.trans (Prod.ext rfl (by simpa using hfull))
        · dsimp only
          omega
        · dsimp only
          omega
    rw [hst, Option.map_some, hout, out_foldUntil_turn _ _ hlimit]
    rfl

/-- All alkanes in the order of the listing. -/
def listed (field : F) : List A :=
  if desc then directed desc (t.index field) ++ missing t desc else missing t desc ++ directed desc (t.index field)

section
variable (field : F)

lemma perm_index : (t.created.filter fun a => (t.metrics.get a).isSome).Perm (t.index field) := by
  refine (perm_ext_iff_of_nodup (t.nodup_created.filter _) (t.nodup_index field)).2 fun a => ?_
  rw [mem_filter, t.mem_index]
  exact ⟨And.right, fun h => ⟨t.subset a h, h⟩⟩

lemma perm_directed {α : Type*} (l : List α) : (directed desc l).Perm l := by
  cases desc
  · exact .refl _
  · exact reverse_perm l

lemma perm_listed : (listed t desc field).Perm t.created := by
  have hmissing : (missing t desc).Perm (t.created.filter fun a => !(t.metrics.get a).isSome) := by
    simpa [missing] using (perm_directed desc t.created).filter _
  have hboth : (directed desc (t.index field) ++ missing t desc).Perm t.created :=
    (((perm_directed desc _).trans (perm_index t field).symm).append hmissing).trans (filter_append_perm _ _)
  unfold listed
  split_ifs
  · exact hboth
  · exact perm_append_comm.trans hboth

end

/-- A page lies in the first part, in the second, or across the border. -/
theorem page_append_cases {α : Type*} (l₁ l₂ : List α) :
    page offset limit (l₁ ++ l₂)
      = if offset < l₁.length then
          page offset (min limit (l₁.length - offset)) l₁
            ++ page 0 (limit - min limit (l₁.length - offset)) l₂
        else page (offset - l₁.length) limit l₂ := by
  rw [page_append]
  split_ifs with h
  · rw [page, take_eq_take_min, length_drop, show offset - l₁.length = 0 by omega,
      show limit - (l₁.length - offset) = limit - min limit (l₁.length - offset) by omega]
    rfl
  · rw [page, drop_of_length_le (by omega), take_nil, show l₁.length - offset = 0 by omega]
    rfl

theorem fetchSorted_eq (field : F) :
    fetchSortedAlkaneIdsNoQuery t field desc offset limit t.created.length
      = some (page offset limit (listed t desc field)) := by
  have hindex : (directed desc (t.index field)).length = t.metricsCount :=
    (perm_directed desc _).length_eq.trans (t.count_eq field).symm
  have hmissing : (missing t desc).length = t.created.length - t.metricsCount := by
    have hlength := (perm_listed t desc field).length_eq
    unfold listed at hlength
    split_ifs at hlength <;> rw [length_append] at hlength <;> omega
  have hcreated : t.metricsCount = 0 → listed t desc field = directed desc t.created := by
    intro hzero
    have hnil : directed desc (t.index field) = [] := length_eq_zero_iff.1 (hindex.trans hzero)
    have hnone : missing t desc = directed desc t.created := by
      refine filter_eq_self.2 fun a _ => ?_
      have hmem : a ∉ t.index field := fun ha => not_mem_nil (hnil ▸ (perm_directed desc _).mem_iff.2 ha)
      rw [t.mem_index, Bool.not_eq_true, Option.isSome_eq_false_iff] at hmem
      exact hmem
    rw [listed, hnil, hnone, append_nil, nil_append, ite_self]
  unfold fetchSortedAlkaneIdsNoQuery
  simp only [metricsPage_eq, collectMissingTokens_eq, getCreationRecordsOrderedPage_eq, Option.map_some,
    length_page, hindex, min_assoc, min_self]
  split_ifs with hlimit hprobe hfallback hdesc hoffset hmore hrest hrest
  · rw [hlimit, page, take_zero]
  · have hnil : directed desc (t.index field) = [] := length_eq_zero_iff.1 (hindex.trans hprobe.1)
    rw [hnil, page_nil] at hprobe
    exact absurd rfl hprobe.2.2
  · rw [hcreated hfallback.1]
  · subst hdesc
    rw [listed, if_pos rfl, page_append_cases, hindex, if_pos hoffset]
  · subst hdesc
    have hnil : page 0 (limit - min limit (t.metricsCount - offset)) (missing t true) = [] :=
      length_eq_zero_iff.1 (by rw [length_page]; omega)
    rw [listed, if_pos rfl, page_append_cases, hindex, if_pos hoffset, hnil, append_nil]
  · subst hdesc
    rw [listed, if_pos rfl, page_append_cases, hindex, if_neg hoffset]
  · subst hdesc
    have hnil : missing t true = [] := length_eq_zero_iff.1 (hmissing.trans (by omega))
    rw [listed, if_pos rfl, page_append_cases, hindex, if_neg hoffset, hnil, page_nil]
  · obtain rfl : desc = false := by simpa using hdesc
    rw [listed, if_neg Bool.false_ne_true, page_append_cases, hmissing, if_pos hrest.2, min_self]
  · obtain rfl : desc = false := by simpa using hdesc
    rw [listed, if_neg Bool.false_ne_true, page_append_cases, hmissing, if_neg (by omega)]

end Spec

end Espo.Oylapi
