import Espo.Lib.KeyBlock
import Espo.Tree.Scan

/-!
# What range scans return

The work of a scan at a leaf is to skip the entries before the range, skip tombstones and the
entries before the requested page, and collect until the range or the page ends. The whole scan
returns the live entries of the range in the order of its direction, cut to the page, and depends on
nothing but the map the root denotes.
-/

namespace Espo.TreeDb
open Lib List Option

variable {K V Id : Type*} [LinearOrder K]

/-- The variables of a scan: how many live entries it still skips, and what it collected. -/
structure ScanState (K V : Type*) where
  remainingOffset : ℕ
  out : List (K × V)

/-- One entry of a leaf. The scan returns at a key past the range (`stop`) and when the page is
full. -/
def pageEntry (stop : K → Bool) (limit : Option ℕ) (st : ScanState K V) (e : LeafEntry K V) :
    ScanState K V × Bool :=
  if stop e.key then (st, true)
  else
    match e.value with
    | none => (st, false)
    | some value =>
      if 0 < st.remainingOffset then ({ st with remainingOffset := st.remainingOffset - 1 }, false)
      else
        let out := st.out ++ [(e.key, value)]
        ({ st with out := out }, limit.any (· ≤ out.length))

/-- The key is at or past the end of a range. -/
def pastEnd (endExclusive : Option K) (key : K) : Bool := endExclusive.any (· ≤ key)

/-- The work of a forward scan at a leaf. -/
def visitForward (start : K) (endExclusive : Option K) (limit : Option ℕ) (firstLeaf : Bool)
    (st : ScanState K V) (entries : List (LeafEntry K V)) : ScanState K V × Bool :=
  let startIdx := if firstLeaf then (entries.takeWhile fun e => e.key < start).length else 0
  foldUntil (pageEntry (pastEnd endExclusive) limit) st (entries.drop startIdx)

variable (entries : List (LeafEntry K V))

/-- The number of entries of the first leaf of a backward scan that are not past the end. -/
def upperIdx : Option K → ℕ
  | some last => (entries.takeWhile fun e => e.key < last).length
  | none => entries.length

/-- The work of a backward scan at a leaf. -/
def visitBackward (start : K) (endExclusive : Option K) (limit : Option ℕ) (firstLeaf : Bool)
    (st : ScanState K V) (entries : List (LeafEntry K V)) : ScanState K V × Bool :=
  let upper := if firstLeaf then upperIdx entries endExclusive else entries.length
  foldUntil (pageEntry (fun key => key < start) limit) st (entries.take upper).reverse

section Defs
variable [DecidableEq Id]

variable (disk : Table Id (BptreeNode K V Id))

variable (root : Id) (start : K) (endExclusive : Option K)

/-- `range_entries_at_root`. -/
def rangeEntriesAtRoot : List (K × V) :=
  match (findLeafWithPath disk root start).join with
  | none => []
  | some (cursor, path) =>
    ((scanLoop (nextLeafFromPath disk) disk (visitForward start endExclusive none) (scanFuel disk)
      cursor path true ⟨0, []⟩).map ScanState.out).getD []

/-- `range_entries_page_at_root_forward`. -/
def rangeEntriesPageAtRootForward (offset limit : ℕ) : List (K × V) :=
  match (findLeafWithPath disk root start).join with
  | none => []
  | some (cursor, path) =>
    ((scanLoop (nextLeafFromPath disk) disk (visitForward start endExclusive (some limit))
      (scanFuel disk) cursor path true ⟨offset, []⟩).map ScanState.out).getD []

/-- The leaf at which a backward scan starts. -/
def endLeafWithPath :
    Option K → Option (Option (Id × Path Id))
  | some last => findLeafWithPath disk root last
  | none => rightmostLeafWithPath disk root

/-- `range_entries_page_at_root_reverse`. -/
def rangeEntriesPageAtRootReverse (offset limit : ℕ) : List (K × V) :=
  match (endLeafWithPath disk root endExclusive).join with
  | none => []
  | some (cursor, path) =>
    ((scanLoop (prevLeafFromPath disk) disk (visitBackward start endExclusive (some limit))
      (scanFuel disk) cursor path true ⟨offset, []⟩).map ScanState.out).getD []

/-- `range_entries_page_at_root`. -/
def rangeEntriesPageAtRoot (offset limit : ℕ) (reverse : Bool) : List (K × V) :=
  if limit = 0 then []
  else if reverse then rangeEntriesPageAtRootReverse disk root start endExclusive offset limit
  else rangeEntriesPageAtRootForward disk root start endExclusive offset limit

end Defs

/-! ## The work at the leaves -/

/-- The live pairs of a list of entries. -/
def liveEntries : List (K × V) :=
  entries.filterMap fun e => e.value.map (e.key, ·)

omit [LinearOrder K] in
lemma pages_pageEntry (stop : K → Bool) (limit : Option ℕ) :
    Pages (pageEntry stop limit) ScanState.out ScanState.remainingOffset limit (fun e => stop e.key)
      fun e : LeafEntry K V => e.value.map (e.key, ·) where
  leave st e h := by rw [pageEntry, if_pos h]
  pass st e h hnone := by
    rw [pageEntry, if_neg (by simp [h]), map_eq_none_iff.1 hnone]
  skip st e r h hsome hpos := by
    obtain ⟨value, hv, rfl⟩ := map_eq_some_iff.1 hsome
    rw [pageEntry, if_neg (by simp [h]), hv]
    dsimp only
    rw [if_pos hpos]
    exact ⟨rfl, rfl, by dsimp only; omega⟩
  collect st e r h hsome hzero := by
    obtain ⟨value, hv, rfl⟩ := map_eq_some_iff.1 hsome
    simp [pageEntry, h, hv, hzero]

/-! ## The entries of a range -/

/-- The live pairs of a range, in increasing key order. -/
def rangeContents (m : List (LeafEntry K V)) (start : K) (endExclusive : Option K) :
    List (K × V) :=
  (liveEntries m).filter fun r => decide (start ≤ r.1) && !pastEnd endExclusive r.1

omit [LinearOrder K] in
lemma liveEntries_filter (p : K → Bool) (m : List (LeafEntry K V)) :
    liveEntries (m.filter fun e => p e.key) = (liveEntries m).filter fun r => p r.1 := by
  induction m with
  | nil => rfl
  | cons e m ih =>
    unfold liveEntries at ih ⊢
    cases hv : e.value with
    | none => by_cases hp : p e.key <;> simp [hp, hv, ih]
    | some v => by_cases hp : p e.key <;> simp [hp, hv, ih]

lemma pastEnd_mono {endExclusive : Option K} {a b : K} (hab : a ≤ b)
    (h : pastEnd endExclusive a) : pastEnd endExclusive b := by
  cases endExclusive with
  | none => simp [pastEnd] at h
  | some last =>
    simp only [pastEnd, any_some, decide_eq_true_eq] at h ⊢
    exact h.trans hab

variable {m : List (LeafEntry K V)}

section
variable (hm : SortedEntries m)
include hm

lemma forward_out {passed es later : List (LeafEntry K V)} {start : K}
    (hsplit : m = passed ++ (es ++ later)) (hpassed : ∀ e ∈ passed, e.key < start)
    (hlater : ∀ e ∈ later, start < e.key) (endExclusive : Option K) :
    liveEntries ((es.drop (es.takeWhile fun e => e.key < start).length ++ later).takeWhile
        fun e => !pastEnd endExclusive e.key)
      = rangeContents m start endExclusive := by
  have hes : SortedEntries es := by
    rw [hsplit] at hm
    exact (pairwise_append.1 (pairwise_append.1 hm).2.1).1
  have hmet : es.drop (es.takeWhile fun e => e.key < start).length ++ later
      = m.filter fun e => decide (start ≤ e.key) := by
    have hdrop := drop_takeWhile_eq_filter (p := fun e : LeafEntry K V => decide (e.key < start))
      (hes.imp fun {a b} hab hb => decide_eq_true (hab.trans (of_decide_eq_true hb)))
    have hnone : passed.filter (fun e => decide (start ≤ e.key)) = [] :=
      filter_eq_nil_iff.2 fun e he => by simpa using hpassed e he
    have hall : later.filter (fun e => decide (start ≤ e.key)) = later :=
      filter_eq_self.2 fun e he => by simpa using (hlater e he).le
    rw [hdrop, hsplit, filter_append, filter_append, hnone, hall, nil_append]
    simp only [← decide_not, not_lt]
  have hmet_sorted : SortedEntries (m.filter fun e => decide (start ≤ e.key)) :=
    hm.sublist filter_sublist
  rw [hmet, takeWhile_eq_filter (hmet_sorted.imp fun {a b} hab hb => ?_), List.filter_filter]
  · rw [rangeContents, ← liveEntries_filter (fun key => decide (start ≤ key) && !pastEnd endExclusive key)]
    simp only [Bool.and_comm]
  · simp only [Bool.not_eq_true'] at hb ⊢
    exact Bool.eq_false_of_not_eq_true fun ha => by
      simp [pastEnd_mono hab.le ha] at hb

lemma backward_out {met : List (LeafEntry K V)} (start : K) (endExclusive : Option K)
    (hmet : met = (m.filter fun e => !pastEnd endExclusive e.key).reverse) :
    liveEntries (met.takeWhile fun e => !decide (e.key < start))
      = (rangeContents m start endExclusive).reverse := by
  have hsorted : met.Pairwise fun a b => b.key < a.key := by
    rw [hmet, pairwise_reverse]
    exact hm.sublist filter_sublist
  have htake : met.takeWhile (fun e => !decide (e.key < start))
      = met.filter fun e => !decide (e.key < start) := by
    refine takeWhile_eq_filter (hsorted.imp fun {a b} hab hb => ?_)
    simp only [← decide_not, not_lt, decide_eq_true_eq] at hb ⊢
    exact hb.trans hab.le
  have hrev : ∀ l : List (LeafEntry K V), liveEntries l.reverse = (liveEntries l).reverse :=
    fun l => filterMap_reverse
  rw [htake, hmet, filter_reverse, hrev, List.filter_filter, rangeContents,
    ← liveEntries_filter fun key => decide (start ≤ key) && !pastEnd endExclusive key]
  simp only [← decide_not, not_lt]

/-! ## Scans depend on the denoted map only -/

lemma mem_liveEntries {key : K} {value : V} :
    (key, value) ∈ liveEntries m ↔ contents m key = some value := by
  induction m with
  | nil => simp [liveEntries]
  | cons e m ih =>
    obtain ⟨hlt, hm'⟩ := pairwise_cons.1 hm
    have hcons : liveEntries (e :: m) = (e.value.map (e.key, ·)).toList ++ liveEntries m := by
      unfold liveEntries
      cases hv : e.value <;> simp [hv]
    rw [hcons, contents_cons, mem_append, ih hm']
    by_cases hk : e.key = key
    · have hnone : contents m key = none :=
        contents_eq_none fun f hf => (hk ▸ hlt f hf).ne'
      rw [hnone, ← hk]
      cases e.value <;> simp [eq_comm]
    · rw [if_neg hk]
      cases e.value <;> simp [Ne.symm hk]

lemma liveEntries_sorted : (liveEntries m).Pairwise fun a b => a.1 < b.1 := by
  unfold liveEntries
  rw [pairwise_filterMap]
  refine hm.imp fun {e f} hef a ha b hb => ?_
  obtain ⟨v, -, rfl⟩ := map_eq_some_iff.1 ha
  obtain ⟨w, -, rfl⟩ := map_eq_some_iff.1 hb
  exact hef

lemma rangeContents_congr {m' : List (LeafEntry K V)} (hm' : SortedEntries m')
    (h : contents m = contents m') (start : K) (endExclusive : Option K) :
    rangeContents m start endExclusive = rangeContents m' start endExclusive := by
  have hs := liveEntries_sorted hm
  have hs' := liveEntries_sorted hm'
  have hnodup : ∀ {l : List (K × V)}, (l.Pairwise fun a b => a.1 < b.1) → l.Nodup :=
    fun hl => hl.imp fun {a b} hab heq => (heq ▸ hab).ne rfl
  have hperm : (liveEntries m).Perm (liveEntries m') := by
    rw [perm_ext_iff_of_nodup (hnodup hs) (hnodup hs')]
    rintro ⟨key, value⟩
    rw [mem_liveEntries hm, mem_liveEntries hm', h]
  have heq : liveEntries m = liveEntries m' :=
    hperm.eq_of_pairwise (fun a b _ _ hab hba => absurd (hab.trans hba) (lt_irrefl _)) hs hs'
  rw [rangeContents, rangeContents, heq]

end

/-! ## The scans -/

section Scans
variable [DecidableEq Id] {disk : Table Id (BptreeNode K V Id)} {root : Id}

omit [LinearOrder K] in
lemma foldUntil_first {f : ScanState K V → LeafEntry K V → ScanState K V × Bool}
    (st : ScanState K V) (l : List (LeafEntry K V)) (g : List (LeafEntry K V) → List (LeafEntry K V))
    (leaves : List (List (LeafEntry K V))) :
    (if (foldUntil f st l).2 then (foldUntil f st l).1
      else (foldUntil (fun st es => foldUntil f st (g es)) (foldUntil f st l).1 leaves).1)
      = (foldUntil f st (l ++ (leaves.map g).flatten)).1 := by
  rw [foldUntil_foldUntil, foldUntil_append]
  split_ifs <;> rfl

omit [LinearOrder K] [DecidableEq Id] in
lemma lt_scanFuel {d n : ℕ} (hd : d < disk.card) (hn : n ≤ (maxInternalKeys + 1) ^ d) :
    n < scanFuel disk := by
  have hpow : (maxInternalKeys + 1) ^ d ≤ (maxInternalKeys + 1) ^ disk.card :=
    Nat.pow_le_pow_right (Nat.succ_pos _) hd.le
  unfold scanFuel
  omega

variable (h : RootDenotes disk.get root m) (start : K) (endExclusive : Option K)
include h

lemma scanLoop_forward (offset : ℕ) (limit : Option ℕ) (hlimit : ∀ n, limit = some n → 0 < n) :
    ∃ cursor path st, findLeafWithPath disk root start = some (some (cursor, path)) ∧
      scanLoop (nextLeafFromPath disk) disk (visitForward start endExclusive limit) (scanFuel disk)
        cursor path true ⟨offset, []⟩ = some st ∧
      st.out = takeLimit limit ((rangeContents m start endExclusive).drop offset) := by
  obtain ⟨d, hd⟩ := h
  have hlt : d < disk.card := hd.depth_lt fun _ _ => Table.mem_keys_of_get
  have hnil : PathRest .forward disk.get disk.card ([] : Path Id) [] := .nil
  obtain ⟨leafId, es, next, path, passed, leaves, heq, hleaf, hrest, hsplit, hpassed, hlater,
    hcount⟩ := descend_key .forward (Nat.lt_succ_of_lt hlt) hlt.le hd (inRange_bot_top start) hnil
  rw [append_nil] at hrest
  have hloop := scanLoop_eq (visitForward start endExclusive limit) le_rfl hleaf hrest
    (lt_scanFuel hlt (Nat.le_of_succ_le hcount)) true ⟨offset, []⟩
  have hvisit : visitForward start endExclusive limit false
      = fun (st : ScanState K V) es => foldUntil (pageEntry (pastEnd endExclusive) limit) st es := rfl
  have hlater' : (leaves.map fun es => es).flatten = scanEntries .forward leaves := rfl
  have hsplit' : m = passed ++ (es ++ scanEntries .forward leaves) := hsplit
  refine ⟨leafId, path, _, heq, hloop, ?_⟩
  rw [hvisit]
  simp only [visitForward, if_true]
  rw [foldUntil_first _ _ fun es => es, (pages_pageEntry _ _).out_foldUntil _ _ hlimit, hlater', ← liveEntries,
    forward_out hd.sorted hsplit' hpassed hlater]
  simp

omit h in
/-- Where a backward scan starts: its first leaf and the leaves still to come hold, from the right,
the entries that are not past the end. -/
theorem endLeafWithPath_spec {d : ℕ} (hd : Denotes disk.get d ⊥ ⊤ root m) :
    ∃ leafId es next path leaves,
      endLeafWithPath disk root endExclusive = some (some (leafId, path)) ∧
      disk.get leafId = some (.leaf ⟨es, next⟩) ∧
      PathRest .backward disk.get disk.card path leaves ∧
      leaves.length ≤ (maxInternalKeys + 1) ^ d ∧
      (es.take (upperIdx es endExclusive)).reverse ++ (leaves.map List.reverse).flatten
        = (m.filter fun e => !pastEnd endExclusive e.key).reverse := by
  have hlt : d < disk.card := hd.depth_lt fun _ _ => Table.mem_keys_of_get
  have hnil : PathRest .backward disk.get disk.card ([] : Path Id) [] := .nil
  cases endExclusive with
  | none =>
    obtain ⟨leaves, hvisits, hentries, hcount⟩ := hd.visit .backward
    obtain ⟨leafId, es, next, path, leaves', heq, hleaf, rfl, hrest⟩ :=
      descend_firstIdx (Nat.lt_succ_of_lt hlt) hlt.le hvisits hnil
    rw [append_nil] at hrest
    refine ⟨leafId, es, next, path, leaves', heq, hleaf, hrest, Nat.le_of_succ_le hcount, ?_⟩
    have hall : m.filter (fun e => !pastEnd none e.key) = m :=
      filter_eq_self.2 fun e _ => rfl
    rw [hall, upperIdx, take_length]
    exact hentries
  | some last =>
    obtain ⟨leafId, es, next, path, passed, leaves, heq, hleaf, hrest, hsplit, hpassed, hlater,
      hcount⟩ := descend_key .backward (Nat.lt_succ_of_lt hlt) hlt.le hd (inRange_bot_top last) hnil
    rw [append_nil] at hrest
    refine ⟨leafId, es, next, path, leaves, heq, hleaf, hrest, Nat.le_of_succ_le hcount, ?_⟩
    have hsplit' : m.reverse = passed ++ (es.reverse ++ scanEntries .backward leaves) := hsplit
    have hes : SortedEntries es := by
      have hsub : es.reverse.Sublist m.reverse := by
        rw [hsplit']
        exact (sublist_append_left _ _).trans (sublist_append_right _ _)
      exact hd.sorted.sublist (reverse_sublist.1 hsub)
    have htake : es.take (es.takeWhile fun e => e.key < last).length
        = es.filter fun e => decide (e.key < last) := by
      rw [← takeWhile_eq_filter (p := fun e : LeafEntry K V => decide (e.key < last))
        (hes.imp fun {a b} hab hb => decide_eq_true (hab.trans (of_decide_eq_true hb)))]
      exact (prefix_iff_eq_take.1 ( takeWhile_prefix _)).symm
    have hnone : passed.filter (fun e => decide (e.key < last)) = [] :=
      filter_eq_nil_iff.2 fun e he => by simpa using (hpassed e he).le
    have hall : (scanEntries .backward leaves).filter (fun e => decide (e.key < last))
        = scanEntries .backward leaves :=
      filter_eq_self.2 fun e he => decide_eq_true (hlater e he)
    have hpast : (fun e : LeafEntry K V => !pastEnd (some last) e.key)
        = fun e => decide (e.key < last) := by
      simp [pastEnd, ← decide_not]
    rw [upperIdx, htake, hpast, ← filter_reverse, ← filter_reverse, hsplit',
      filter_append, filter_append, hnone, hall]
    rfl

lemma scanLoop_backward (offset : ℕ) (limit : Option ℕ) (hlimit : ∀ n, limit = some n → 0 < n) :
    ∃ cursor path st, endLeafWithPath disk root endExclusive = some (some (cursor, path)) ∧
      scanLoop (prevLeafFromPath disk) disk (visitBackward start endExclusive limit) (scanFuel disk)
        cursor path true ⟨offset, []⟩ = some st ∧
      st.out = takeLimit limit ((rangeContents m start endExclusive).reverse.drop offset) := by
  obtain ⟨d, hd⟩ := h
  have hlt : d < disk.card := hd.depth_lt fun _ _ => Table.mem_keys_of_get
  obtain ⟨leafId, es, next, path, leaves, heq, hleaf, hrest, hcount, hmet⟩ :=
    endLeafWithPath_spec endExclusive hd
  have hloop := scanLoop_eq (visitBackward start endExclusive limit) le_rfl hleaf hrest
    (lt_scanFuel hlt hcount) true ⟨offset, []⟩
  have hvisit : visitBackward start endExclusive limit false = fun (st : ScanState K V) es =>
      foldUntil (pageEntry (fun key => decide (key < start)) limit) st es.reverse := by
    funext st es
    simp [visitBackward]
  refine ⟨leafId, path, _, heq, hloop, ?_⟩
  rw [hvisit]
  simp only [visitBackward, if_true]
  rw [foldUntil_first _ _ List.reverse, (pages_pageEntry _ _).out_foldUntil _ _ hlimit, ← liveEntries, hmet,
    backward_out hd.sorted start endExclusive rfl]
  simp

lemma rangeEntriesAtRoot_eq :
    rangeEntriesAtRoot disk root start endExclusive = rangeContents m start endExclusive := by
  obtain ⟨cursor, path, st, hfind, hloop, hout⟩ :=
    scanLoop_forward h start endExclusive 0 none (by simp)
  rw [rangeEntriesAtRoot, hfind, join_some]
  dsimp only
  rw [hloop, map_some, hout]
  rfl

/-- `range_entries_page_at_root` returns a page of the range, from either end. -/
theorem rangeEntriesPageAtRoot_eq (offset limit : ℕ) (reverse : Bool) :
    rangeEntriesPageAtRoot disk root start endExclusive offset limit reverse
      = ((if reverse then (rangeContents m start endExclusive).reverse
          else rangeContents m start endExclusive).drop offset).take limit := by
  rw [rangeEntriesPageAtRoot]
  by_cases hlimit : limit = 0
  · rw [if_pos hlimit, hlimit, take_zero]
  · have hpos : ∀ n, some limit = some n → 0 < n :=
      fun n hn => some_inj.1 hn ▸ Nat.pos_of_ne_zero hlimit
    rw [if_neg hlimit]
    cases reverse with
    | true =>
      obtain ⟨cursor, path, st, hfind, hloop, hout⟩ :=
        scanLoop_backward h start endExclusive offset (some limit) hpos
      rw [rangeEntriesPageAtRootReverse, hfind, join_some]
      dsimp only
      rw [hloop, map_some, hout]
      rfl
    | false =>
      obtain ⟨cursor, path, st, hfind, hloop, hout⟩ :=
        scanLoop_forward h start endExclusive offset (some limit) hpos
      rw [rangeEntriesPageAtRootForward, hfind,
        join_some]
      dsimp only
      rw [hloop, map_some, hout]
      rfl

end Scans

end Espo.TreeDb
