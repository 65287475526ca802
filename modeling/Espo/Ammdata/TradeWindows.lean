import Espo.Ammdata.Activity

/-!
# Trade windows

The volume of a pool over the last day, week and month, and over all time. With the whole history every row of
the trade index is read; otherwise the rows of the last month, page by page. Only the second way has the time of
the block as its end, so the two agree where no trade is dated after that time.
-/

namespace Espo.Ammdata
open Lib Essentials List

/-- The spans of `PoolTradeWindows`. -/
inductive TradeSpan where
  | day
  | week
  | month
  | all
  deriving DecidableEq

/-- `start_1d`, `start_7d` and `start_30d`. -/
def TradeSpan.start (now : ℕ) : TradeSpan → ℕ
  | day => now - 24 * 60 * 60
  | week => now - 7 * 24 * 60 * 60
  | month => now - 30 * 24 * 60 * 60
  | all => 0

/-- The volumes of base and quote in each span. -/
abbrev TradeAmounts := TradeSpan → ℕ × ℕ

/-- A volume is added to the spans that its time lies in. -/
def TradeAmounts.add (now : ℕ) (fullHistory : Bool) (amounts : TradeAmounts) (ts : ℕ) (v : ℕ × ℕ) : TradeAmounts :=
  fun span =>
    if span.start now ≤ ts ∧ (span = .all → fullHistory = true) then
      (saturatingAdd (amounts span).1 v.1, saturatingAdd (amounts span).2 v.2)
    else amounts span

/-- `PoolTradeWindows`. -/
structure PoolTradeWindows where
  amounts : TradeAmounts
  hasAllTime : Bool

/-- The rows of a pool that are read: the trade index, by time and sequence number with the newest row first,
and the primary rows. -/
structure TradeHistory where
  index : List (ℕ ×ₗ ℕ)
  sorted : index.Pairwise (· > ·)
  ts_lt : ∀ k ∈ index, (ofLex k).1 < 2 ^ 64
  primary : Table (ℕ ×ₗ ℕ) SchemaActivityV1

/-- `TRADE_WINDOW_RANGE_PAGE_LIMIT`. -/
def tradeWindowRangePageLimit : ℕ := 4096

namespace TradeHistory
variable (h : TradeHistory) (now : ℕ) (fullHistory : Bool)

/-- The volumes of the trade that an index row names. -/
def volume (k : ℕ ×ₗ ℕ) : Option (ℕ × ℕ) :=
  ((h.primary.get k).filter fun a => groupForKind a.kind = .trades).map fun a =>
    (a.baseDelta.natAbs, a.quoteDelta.natAbs)

/-- The rows in a range. -/
def range (start : ℕ ×ₗ ℕ) (stop : Option (ℕ ×ₗ ℕ)) : List (ℕ ×ₗ ℕ) :=
  h.index.filter fun k => start ≤ k && stop.all (k < ·)

/-- The loop of `recent_trade_index_entries`; an empty page is a short one. -/
def recentPages (start : ℕ ×ₗ ℕ) : ℕ → Option (ℕ ×ₗ ℕ) → List (ℕ ×ₗ ℕ)
  | 0, _ => []
  | n + 1, stop =>
    let page := (h.range start stop).take tradeWindowRangePageLimit
    if page.length < tradeWindowRangePageLimit then page else page ++ recentPages start n page.getLast?

/-- `recent_trade_index_entries`; every page but the last has a row, so the turns are bounded by the rows. -/
def recentTradeIndexEntries (startTs endTs : ℕ) : List (ℕ ×ₗ ℕ) :=
  h.recentPages (toLex (startTs, 0)) (h.index.length + 1)
    (if endTs = 2 ^ 64 - 1 then none else some (toLex (endTs + 1, 0)))

/-- `activity_refs`. -/
def activityRefs : List (ℕ ×ₗ ℕ) :=
  if fullHistory then h.index
  else (h.recentTradeIndexEntries (TradeSpan.start now .month) now).takeWhile fun k =>
    TradeSpan.start now .month ≤ (ofLex k).1

/-- The trade of a row is added. -/
def addRef (amounts : TradeAmounts) (k : ℕ ×ₗ ℕ) : TradeAmounts :=
  match h.volume k with
  | none => amounts
  | some v => amounts.add now fullHistory (ofLex k).1 v

/-- The windows of a pool that is not in the cache. -/
def windows (inBlock : Option (ℕ × ℕ)) : PoolTradeWindows :=
  let stored := (h.activityRefs now fullHistory).foldl (h.addRef now fullHistory) 0
  { amounts := match inBlock with
      | none => stored
      | some v => stored.add now fullHistory now v
    hasAllTime := fullHistory }

/-- The volumes of the stored trades in a span that ends now. -/
def volumeIn (span : TradeSpan) : ℕ × ℕ :=
  ((h.index.filter fun k => span.start now ≤ (ofLex k).1 ∧ (ofLex k).1 ≤ now).map fun k => (h.volume k).getD 0).sum

end TradeHistory

section Calls
variable (histories : SchemaAlkaneId → TradeHistory) (now : ℕ) (inBlock : SchemaAlkaneId → Option (ℕ × ℕ))

/-- `pool_trade_windows`, with the cache. -/
def poolTradeWindows (cache : Table SchemaAlkaneId PoolTradeWindows) (pool : SchemaAlkaneId)
    (fullHistory : Bool) : PoolTradeWindows × Table SchemaAlkaneId PoolTradeWindows :=
  match (cache.get pool).filter fun cached => !fullHistory || cached.hasAllTime with
  | some cached => (cached, cache)
  | none =>
    let out := (histories pool).windows now fullHistory (inBlock pool)
    (out, cache.put pool out)

/-- The cache after some calls in a block. -/
def tradeWindowCache (calls : List (SchemaAlkaneId × Bool)) : Table SchemaAlkaneId PoolTradeWindows :=
  calls.foldl (fun cache call => (poolTradeWindows histories now inBlock cache call.1 call.2).2) ∅

end Calls

/-- Volumes as far as they fit. -/
def capped (v : ℕ × ℕ) : ℕ × ℕ := (min v.1 u128Max, min v.2 u128Max)

lemma TradeAmounts.add_capped {now : ℕ} {fullHistory : Bool} {amounts : TradeAmounts} {span : TradeSpan}
    {total : ℕ × ℕ} (h : amounts span = capped total) (hspan : span ≠ .all) (ts : ℕ) (v : ℕ × ℕ) :
    amounts.add now fullHistory ts v span = capped (total + if span.start now ≤ ts then v else 0) := by
  rw [add, h]
  by_cases hts : span.start now ≤ ts
  · simp only [hts, hspan, capped, saturatingAdd, Prod.fst_add, Prod.snd_add, false_implies, and_true, if_true,
      Prod.mk.injEq]
    omega
  · simp [hts]

namespace TradeHistory
variable {h : TradeHistory} {now : ℕ} {span : TradeSpan} {stop : Option (ℕ ×ₗ ℕ)} {fullHistory : Bool}

lemma range_getLast {start k : ℕ ×ₗ ℕ} {n : ℕ}
    (hk : ((h.range start stop).take n).getLast? = some k) :
    h.range start (some k) = (h.range start stop).drop n := by
  have hmem := mem_of_getLast? hk
  have hbelow : h.range start (some k) = (h.range start stop).filter (· < k) := by
    have hstop := (mem_filter.1 (mem_of_mem_take hmem)).2
    rw [range, range, filter_filter]
    refine filter_congr fun k' _ => ?_
    cases stop with
    | none => simp [Bool.and_comm]
    | some s =>
      simp at hstop ⊢
      grind
  have hsorted : ((h.range start stop).take n ++ (h.range start stop).drop n).Pairwise (· > ·) := by
    rw [take_append_drop]
    exact h.sorted.sublist filter_sublist
  obtain ⟨hpage, -, hrest⟩ := pairwise_append.1 hsorted
  rw [hbelow]
  conv_lhs => rw [← take_append_drop n (h.range start stop)]
  rw [filter_append, filter_eq_nil_iff.2, filter_eq_self.2 fun k' hk' => decide_eq_true (hrest k hmem k' hk'),
    nil_append]
  obtain ⟨init, hinit⟩ := getLast?_eq_some_iff.1 hk
  rw [hinit, pairwise_append] at hpage
  rw [hinit]
  intro k' hk'
  rcases mem_append.1 hk' with hk' | hk'
  · simpa using (hpage.2.2 k' hk' k mem_cons_self).le
  · simp [mem_singleton.1 hk']

lemma recentPages_eq {start : ℕ ×ₗ ℕ} {n : ℕ} (hn : (h.range start stop).length < n) :
    h.recentPages start n stop = h.range start stop := by
  induction n generalizing stop with
  | zero => cases hn
  | succ n ih =>
    rw [recentPages]
    split_ifs with hshort
    · rw [length_take] at hshort
      exact take_of_length_le (by omega)
    · cases hlast : ((h.range start stop).take tradeWindowRangePageLimit).getLast? with
      | none =>
        rw [getLast?_eq_none_iff.1 hlast] at hshort
        exact absurd (by decide) hshort
      | some k =>
        have hrest := range_getLast hlast
        have hpos : 0 < tradeWindowRangePageLimit := by decide
        rw [length_take] at hshort
        rw [ih (by rw [hrest, length_drop]; omega), hrest, take_append_drop]

lemma filter_activityRefs (hspan : span ≠ .all)
    (hpast : fullHistory = true → ∀ k ∈ h.index, (ofLex k).1 ≤ now) :
    ((h.activityRefs now fullHistory).filter fun k => span.start now ≤ (ofLex k).1)
      = h.index.filter fun k => span.start now ≤ (ofLex k).1 ∧ (ofLex k).1 ≤ now := by
  cases fullHistory with
  | true => exact filter_congr fun k hk => by simp [hpast rfl k hk]
  | false =>
    have hstart : TradeSpan.start now .month ≤ span.start now := by
      cases span with
      | all => exact absurd rfl hspan
      | _ => exact Nat.sub_le_sub_left (by decide) _
    have hentries : h.recentTradeIndexEntries (TradeSpan.start now .month) now
        = h.index.filter fun k => TradeSpan.start now .month ≤ (ofLex k).1 ∧ (ofLex k).1 ≤ now := by
      rw [recentTradeIndexEntries, recentPages_eq (Nat.lt_succ_of_le (length_filter_le _ _))]
      refine filter_congr fun k hk => ?_
      have hlt := h.ts_lt k hk
      rw [Bool.eq_iff_iff, Bool.and_eq_true, decide_eq_true_eq, decide_eq_true_eq, Prod.Lex.le_iff]
      dsimp only [ofLex_toLex]
      refine and_congr (by omega) ?_
      split_ifs with hend
      · exact iff_of_true rfl (by omega)
      · rw [Option.all_some, decide_eq_true_eq, Prod.Lex.lt_iff]
        dsimp only [ofLex_toLex]
        omega
    rw [activityRefs, if_neg Bool.false_ne_true, hentries, takeWhile_eq_self_iff.2, filter_filter]
    · refine filter_congr fun k _ => ?_
      grind
    · intro k hk
      exact decide_eq_true (of_decide_eq_true (mem_filter.1 hk).2).1

lemma windows_eq (hspan : span ≠ .all)
    (hpast : fullHistory = true → ∀ k ∈ h.index, (ofLex k).1 ≤ now) (inBlock : Option (ℕ × ℕ)) :
    (h.windows now fullHistory inBlock).amounts span = capped (h.volumeIn now span + inBlock.getD 0) := by
  have hstored : (h.activityRefs now fullHistory).foldl (h.addRef now fullHistory) 0 span
      = capped (h.volumeIn now span) := by
    rw [volumeIn, ← filter_activityRefs hspan hpast]
    generalize h.activityRefs now fullHistory = refs
    induction refs using List.reverseRecOn with
    | nil => rfl
    | append_singleton refs k ih =>
      rw [foldl_append, filter_append, map_append, foldl_cons, addRef]
      cases hv : h.volume k with
      | none => by_cases hk : span.start now ≤ (ofLex k).1 <;> simp [hk, hv, ih]
      | some v =>
        refine (TradeAmounts.add_capped ih hspan _ v).trans ?_
        by_cases hk : span.start now ≤ (ofLex k).1 <;> simp [hk, hv]
  cases inBlock with
  | none => exact hstored
  | some v =>
    have hnow : span.start now ≤ now := by
      cases span with
      | all => exact absurd rfl hspan
      | _ => exact Nat.sub_le _ _
    exact (TradeAmounts.add_capped hstored hspan now v).trans (by rw [if_pos hnow]; rfl)

end TradeHistory

/-- A history with one trade, of 5 of base for 7 of quote. -/
def oneTrade (ts : Fin (2 ^ 64)) : TradeHistory where
  index := [toLex (ts, 0)]
  sorted := pairwise_singleton _ _
  ts_lt := by simp
  primary := Table.put ∅ (toLex (ts, 0)) ⟨ts, [], .tradeBuy, none, 5, -7, [], true⟩

end Espo.Ammdata
