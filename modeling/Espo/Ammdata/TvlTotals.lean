import Espo.Ammdata.Reserves

/-!
# TVL totals

The value locked in all pools, and in the pools of each token, is never summed up by the indexer. A block moves
the stored totals by the differences between the new anchors of the pools it touches and their old ones.
`Sound` says that the newest totals are the sums of the stored anchors, and every block keeps it.
-/

namespace Espo.Ammdata
open Lib Essentials

/-- The fields of `SchemaTvlPointV1` and of `TvlDelta`. -/
inductive TvlField
  | canonical
  | derived
  | unanchored
  deriving DecidableEq

instance : Fintype TvlField := ⟨{.canonical, .derived, .unanchored}, by rintro ⟨⟩ <;> simp⟩

/-- `SchemaTvlPointV1`. -/
abbrev TvlPoint := TvlField → ℕ

/-- `TvlDelta`. -/
abbrev TvlDelta := TvlField → ℤ

/-- What a total is of: of all pools, or of the pools with a token. -/
inductive TvlTotal
  | amm
  | token (id : SchemaAlkaneId)

/-- A pool counts towards a total. -/
def TvlTotal.counts (total : TvlTotal) (defs : Option SchemaMarketDefs) : Bool :=
  match total with
  | .amm => true
  | .token id => defs.any fun d => id = d.base || id = d.quote

/-- The stored rows: `pools_map`, the anchors, and the totals by height. -/
structure TvlState where
  pools : Table SchemaAlkaneId SchemaMarketDefs
  anchors : Table SchemaAlkaneId TvlPoint
  totals : TvlTotal → Table ℕ TvlPoint

/-- What a block brings: the pools it registers and the anchors of the pools it touches, in hash order. -/
structure TvlBlock where
  height : ℕ
  registered : List SchemaMarketDefs
  touched : List (SchemaAlkaneId × TvlPoint)
  nodup : (touched.map Prod.fst).Nodup

/-- Saturation of `i128`. -/
def saturateI128 (x : ℤ) : ℤ := max (-2 ^ 127) (min x (2 ^ 127 - 1))

/-- `diff` and `TvlDelta::add`. The saturation is a parameter, to compare with exact differences. -/
def TvlDelta.add (saturate : ℤ → ℤ) (delta : TvlDelta) (prev next : TvlPoint) : TvlDelta := fun field =>
  saturate (delta field + saturate (saturate (next field) - saturate (prev field)))

/-- `apply_point`. -/
def applyPoint (base : TvlPoint) (delta : TvlDelta) : TvlPoint := fun field =>
  applyDeltaU128 (base field) (delta field)

/-- The newest row of a total at or before a height, or the default. -/
def atOrBefore (rows : Table ℕ TvlPoint) (height : ℕ) : TvlPoint :=
  (rows.get (Nat.findGreatest (fun n => (rows.get n).isSome) height)).getD 0

namespace TvlState
variable (s : TvlState) (b : TvlBlock)

/-- `get_pool_tvl_anchor`, or the default. -/
def anchor (pool : SchemaAlkaneId) : TvlPoint := (s.anchors.get pool).getD 0

variable (total : TvlTotal)

/-- `get_amm_tvl_total_at_or_before_height` and `get_token_tvl_total_at_or_before_height`. -/
def totalAt (height : ℕ) : TvlPoint := atOrBefore (s.totals total) height

/-- The pools that a block registers: those that are known stay as they are. -/
def register : TvlState :=
  { s with pools := b.registered.foldl (fun pools d => pools.putNew d.pool d) s.pools }

/-- The anchors of known pools that a block changes. -/
def changed : List (SchemaAlkaneId × TvlPoint) :=
  b.touched.filter fun e => (s.pools.get e.1).isSome && decide (s.anchor e.1 ≠ e.2)

/-- `global_delta` and `token_deltas`. -/
def deltas (saturate : ℤ → ℤ) : TvlTotal → TvlDelta :=
  (s.changed b).foldl (fun deltas e total =>
    if total.counts (s.pools.get e.1) then (deltas total).add saturate (s.anchor e.1) e.2
    else deltas total) fun _ => 0

/-- `prepare_tvl_lines`, but for the lines. -/
def prepareTvlLines : TvlState :=
  { s with
    anchors := s.anchors.putAll (s.changed b)
    totals := fun total =>
      let delta := s.deltas b saturateI128 total
      if delta = 0 then s.totals total
      else (s.totals total).put b.height (applyPoint (s.totalAt total (b.height - 1)) delta) }

/-- What the anchor of a pool contributes to a total. -/
def contribution (field : TvlField) (pool : SchemaAlkaneId) (point : TvlPoint) : ℤ :=
  if total.counts (s.pools.get pool) then point field else 0

/-- The contributions of the stored anchors to a total, summed up. -/
def anchorSum (field : TvlField) : ℤ := s.anchors.rowSum (s.contribution total field)

/-- No saturation changes what a block computes. -/
structure Unsaturated : Prop where
  deltas : s.deltas b saturateI128 = s.deltas b id
  totals : ∀ total field, s.totalAt total (b.height - 1) field + s.deltas b id total field ≤ (u128Max : ℤ)

/-- The rows before the next height: known pools have the anchors, and the newest totals are their sums. -/
structure Sound (next : ℕ) : Prop where
  known : ∀ pool point, s.anchors.get pool = some point → ∃ defs, s.pools.get pool = some defs
  unwritten : ∀ total n, next ≤ n → (s.totals total).get n = none
  sums : ∀ total field height, next ≤ height + 1 → s.totalAt total height field = s.anchorSum total field

end TvlState

/-- A block. -/
def TvlState.indexBlock (s : TvlState) (b : TvlBlock) : TvlState := (s.register b).prepareTvlLines b

/-- The rows after some blocks. -/
def tvlRun (blocks : List TvlBlock) : TvlState := blocks.foldl TvlState.indexBlock ⟨∅, ∅, fun _ => ∅⟩

lemma atOrBefore_put {rows : Table ℕ TvlPoint} {n height : ℕ} (hrows : ∀ m, n < m → rows.get m = none)
    (hn : n ≤ height) (point : TvlPoint) : atOrBefore (rows.put n point) height = point := by
  have hlast : Nat.findGreatest (fun m => ((rows.put n point).get m).isSome) height = n := by
    refine Nat.findGreatest_eq_iff.2 ⟨hn, fun _ => by simp, fun m hm _ => ?_⟩
    simp [Table.get_put_of_ne _ _ hm.ne', hrows m hm]
  rw [atOrBefore, hlast, Table.get_put_self, Option.getD_some]

namespace TvlState
variable {s : TvlState} {b : TvlBlock} {next : ℕ}

lemma extends_register : Table.Extends s.pools (s.register b).pools :=
  foldl_invariant (P := fun _ pools => Table.Extends s.pools pools) (Table.Extends.refl _)
    fun _ _ _ _ _ h => h.trans (Table.extends_putNew _ _ _)

lemma Sound.register (h : s.Sound next) : (s.register b).Sound next where
  known pool point hget := by
    obtain ⟨defs, hdefs⟩ := h.known pool point hget
    exact ⟨defs, extends_register _ _ hdefs⟩
  unwritten := h.unwritten
  sums total field height hheight := by
    refine (h.sums total field height hheight).trans (Finset.sum_congr rfl fun pool _ => ?_)
    change _ = (s.anchors.get pool).elim _ _
    cases hget : s.anchors.get pool with
    | none => rfl
    | some point =>
      obtain ⟨defs, hdefs⟩ := h.known pool point hget
      simp only [Option.elim_some, contribution, hdefs, extends_register _ _ hdefs]

variable (total : TvlTotal) (field : TvlField)

lemma deltas_id :
    s.deltas b id total field = ((s.changed b).map fun e => s.contribution total field e.1 e.2
      - (s.anchors.get e.1).elim 0 (s.contribution total field e.1)).sum := by
  unfold deltas
  induction s.changed b using List.reverseRecOn with
  | nil => rfl
  | append_singleton l e ih =>
    rw [List.foldl_append, List.map_append, List.sum_append, ← ih]
    simp only [List.foldl_cons, List.foldl_nil, List.map_singleton, List.sum_singleton]
    unfold contribution anchor
    split_ifs <;> cases s.anchors.get e.1 <;> simp [TvlDelta.add]

lemma anchorSum_prepareTvlLines :
    (s.prepareTvlLines b).anchorSum total field
      = s.anchorSum total field + s.deltas b id total field := by
  have hnodup : ((s.changed b).map Prod.fst).Nodup := b.nodup.sublist (List.filter_sublist.map _)
  rw [deltas_id]
  exact Table.rowSum_putAll _ _ hnodup

lemma anchorSum_nonneg : 0 ≤ s.anchorSum total field := by
  apply Finset.sum_nonneg
  intro pool _
  cases s.anchors.get pool with
  | none => exact le_rfl
  | some point =>
    rw [Option.elim_some, contribution]
    split_ifs <;> simp

lemma Sound.prepareTvlLines (h : s.Sound next) (hnext : next ≤ b.height) (hb : s.Unsaturated b) :
    (s.prepareTvlLines b).Sound (b.height + 1) where
  known pool point hget := by
    by_cases hmem : pool ∈ (s.changed b).map Prod.fst
    · obtain ⟨e, he, rfl⟩ := List.mem_map.1 hmem
      exact Option.isSome_iff_exists.1 (Bool.and_eq_true_iff.1 (List.mem_filter.1 he).2).1
    · exact h.known pool point ((Table.get_putAll_of_notMem _ hmem).symm.trans hget)
  unwritten total n hn := by
    have hold := h.unwritten total n (hnext.trans (by omega))
    simp only [TvlState.prepareTvlLines]
    split_ifs
    · exact hold
    · rwa [Table.get_put_of_ne _ _ (by omega)]
  sums total field height hheight := by
    have hsum := h.sums total field
    have hnew := anchorSum_prepareTvlLines (s := s) (b := b) total field
    rw [hnew, totalAt]
    simp only [TvlState.prepareTvlLines, hb.deltas]
    split_ifs with hzero
    · rw [hzero, Pi.zero_apply, add_zero]
      exact hsum height (by omega)
    · have hprev := hsum (b.height - 1) (by omega)
      have hpos := anchorSum_nonneg (s := s.prepareTvlLines b) total field
      rw [atOrBefore_put (fun m hm => h.unwritten total m (by omega)) (by omega), applyPoint,
        applyDeltaU128_eq _ (hb.totals total field), hprev]
      rwa [hprev, ← hnew]

lemma Sound.mono {next' : ℕ} (h : s.Sound next) (hle : next ≤ next') : s.Sound next' where
  known := h.known
  unwritten total n hn := h.unwritten total n (hle.trans hn)
  sums total field height hheight := h.sums total field height (hle.trans hheight)

end TvlState

variable {blocks : List TvlBlock} (hheights : blocks.Pairwise (·.height < ·.height))
  (hexact : ∀ done b later, blocks = done ++ b :: later → ((tvlRun done).register b).Unsaturated b)
include hheights hexact

lemma sound_tvlRun {next : ℕ} (hnext : ∀ b ∈ blocks, b.height < next) : (tvlRun blocks).Sound next := by
  induction blocks using List.reverseRecOn generalizing next with
  | nil =>
    refine ⟨fun pool point hget => ?_, fun _ _ _ => rfl, fun total field height _ => rfl⟩
    simp [tvlRun] at hget
  | append_singleton blocks b ih =>
    obtain ⟨hold, -, hlast⟩ := List.pairwise_append.1 hheights
    have hdone := ih hold (fun done b' later heq => hexact done b' (later ++ [b]) (by simp [heq]))
      fun b' hb' => hlast b' hb' b List.mem_cons_self
    have hb := hexact blocks b [] rfl
    rw [tvlRun, List.foldl_append]
    exact (hdone.register.prepareTvlLines le_rfl hb).mono (hnext b (by simp))

/-- After blocks at increasing heights whose arithmetic does not saturate, the total of all pools and that of
each token, as read at any height from the last block on, are the sums over the stored anchors of the pools
they are of. -/
theorem tvlTotals_eq_anchorSums {height : ℕ} (hheight : ∀ b ∈ blocks, b.height ≤ height)
    (total : TvlTotal) (field : TvlField) :
    (tvlRun blocks).totalAt total height field = (tvlRun blocks).anchorSum total field := by
  refine (sound_tvlRun hheights hexact ?_).sums total field height le_rfl
  exact fun b hb => Nat.lt_succ_of_le (hheight b hb)

omit hheights hexact

/-- A block that registers a pool and anchors it. -/
def anchoring (n : Fin (2 ^ 64)) (value : ℕ) : TvlBlock :=
  ⟨n, [⟨⟨2, n⟩, ⟨2, 0⟩, ⟨32, 0⟩⟩], [(⟨2, n⟩, fun field => if field = .canonical then value else 0)],
    List.nodup_singleton _⟩

/-- The total of the base token of one pool. -/
theorem tvlTotals_eq_anchorSums_pool : (tvlRun [anchoring 1 6]).totalAt (.token ⟨2, 0⟩) 1 .canonical
    = (tvlRun [anchoring 1 6]).anchorSum (.token ⟨2, 0⟩) .canonical := by
  refine tvlTotals_eq_anchorSums (List.pairwise_singleton _ _) (fun done b later heq => ?_) (by decide) _ _
  obtain ⟨rfl, hcons⟩ := (List.append_eq_singleton_iff.1 heq.symm).resolve_right (by simp)
  cases hcons
  set s := (tvlRun []).register (anchoring 1 6)
  have hchanged : s.changed (anchoring 1 6) = (anchoring 1 6).touched := by decide +kernel
  have hdeltas : ∀ saturate total, s.deltas (anchoring 1 6) saturate total
      = if total.counts (s.pools.get ⟨2, 1⟩) then
          TvlDelta.add saturate 0 0 fun field => if field = .canonical then 6 else 0
        else 0 := by
    intro saturate total
    rw [TvlState.deltas, hchanged]
    rfl
  constructor
  · funext total
    rw [hdeltas, hdeltas]
    split_ifs
    · decide +kernel
    · rfl
  · intro total field
    rw [hdeltas]
    change (0 : ℤ) + _ ≤ _
    split_ifs <;> decide +kernel +revert

/-- No operation on `i128` saturates here, but the total of three pools does. -/
theorem tvlTotals_saturate :
    let blocks := [anchoring 1 (2 ^ 127 - 2), anchoring 2 (2 ^ 127 - 2), anchoring 3 (2 ^ 127 - 2)]
    (tvlRun blocks).totalAt .amm 3 .canonical = 2 ^ 128 - 1 ∧
      (tvlRun blocks).anchorSum .amm .canonical = 3 * (2 ^ 127 - 2) := by
  decide +kernel

end Espo.Ammdata
