import Espo.Ammdata.Quotes

/-!
# Paths through the pools

The graph of the path finder, what a path gives for an amount, and the search for the amount with the most
profit. A turn of the search takes a third off the range and there are at most forty of them; what is then left
is scanned amount by amount, however wide it is.
-/

namespace Espo.Ammdata
open Espo.Essentials

/-! ## The graph -/

/-- `Edge`, and `EdgeKey`. -/
structure Edge where
  pool : SchemaAlkaneId
  tokenIn : SchemaAlkaneId
  tokenOut : SchemaAlkaneId
  deriving DecidableEq

/-- `Graph`; a token without an entry in a map of neighbors has none. -/
structure Graph where
  neighbors : SchemaAlkaneId → List (SchemaAlkaneId × Edge)
  inNeighbors : SchemaAlkaneId → List (SchemaAlkaneId × Edge)
  pools : AList fun _ : SchemaAlkaneId => SchemaPoolSnapshot

/-- The two edges of a pool; pools without liquidity have none. -/
def poolEdges (pool : SchemaAlkaneId) (snap : SchemaPoolSnapshot) : List Edge :=
  if snap.baseReserve = 0 ∨ snap.quoteReserve = 0 then []
  else [⟨pool, snap.baseId, snap.quoteId⟩, ⟨pool, snap.quoteId, snap.baseId⟩]

/-- `Graph::from_snapshot`. -/
def Graph.fromSnapshot (snapshot : AList fun _ : SchemaAlkaneId => SchemaPoolSnapshot) : Graph :=
  let edges := snapshot.entries.flatMap fun e => poolEdges e.1 e.2
  { neighbors := fun token => (edges.filter (·.tokenIn = token)).map fun e => (e.tokenOut, e)
    inNeighbors := fun token => (edges.filter (·.tokenOut = token)).map fun e => (e.tokenIn, e)
    pools := snapshot }

/-- `reserves_for`. -/
def Graph.reservesFor (g : Graph) (e : Edge) : Option (ℕ × ℕ) := do
  let snap ← g.pools.lookup e.pool
  if e.tokenIn = snap.baseId ∧ e.tokenOut = snap.quoteId then some (snap.baseReserve, snap.quoteReserve)
  else if e.tokenIn = snap.quoteId ∧ e.tokenOut = snap.baseId then some (snap.quoteReserve, snap.baseReserve)
  else none

/-! ## Quotes of a path -/

/-- `Hop`. -/
structure Hop extends Edge where
  amountIn : ℕ
  amountOut : ℕ
  deriving DecidableEq

/-- `PathQuote`. -/
structure PathQuote where
  hops : List Hop
  amountIn : ℕ
  amountOut : ℕ
  deriving DecidableEq

/-- The quote of a list of hops. -/
def PathQuote.ofHops (hops : List Hop) : PathQuote :=
  ⟨hops, (hops.head?.map Hop.amountIn).getD 0, (hops.getLast?.map Hop.amountOut).getD 0⟩

section
variable (g : Graph) (feeBps : ℕ)

/-- The hops of a path for an amount that goes in. -/
def hopsExactIn : List Edge → ℕ → Option (List Hop)
  | [], _ => some []
  | e :: edges, amountIn => do
    let (rIn, rOut) ← g.reservesFor e
    let out ← xykOutExactIn rIn rOut amountIn feeBps
    let hops ← hopsExactIn edges out
    return ⟨e, amountIn, out⟩ :: hops

/-- `pathquote_from_edges_exact_in`. -/
def pathquoteFromEdgesExactIn (edges : List Edge) (amountIn : ℕ) : Option PathQuote :=
  if edges = [] then none else (hopsExactIn g feeBps edges amountIn).map .ofHops

end

/-! ## The search for the best amount -/

/-- The search: its bounds, the best quote so far, and how many quotes it has evaluated. -/
structure Search (Q : Type) where
  lo : ℕ
  hi : ℕ
  bestLocal : Option Q
  bestProfit : ℤ
  evaluated : ℕ

section
variable {Q : Type} (quote : ℕ → Option Q) (profit : Q → ℤ)

/-- The search before its first turn. -/
def Search.start (cap : ℕ) : Search Q := ⟨1, cap, none, -2 ^ 127, 0⟩

/-- Keep a quote that is better. -/
def Search.track (s : Search Q) (q : Q) : Search Q :=
  if s.bestProfit < profit q then { s with bestProfit := profit q, bestLocal := some q } else s

/-- Evaluate every amount from `first` to `last`. -/
def Search.scan (s : Search Q) (first last : ℕ) : Search Q :=
  (List.range' first (last + 1 - first)).foldl (fun s x =>
    let s := { s with evaluated := s.evaluated + 1 }
    ((quote x).map (s.track profit)).getD s) s

/-- Cut a third off the range, above the lower quote or below the upper one. -/
def Search.turn (s : Search Q) (q1 q2 : Q) : Search Q :=
  let third := (s.hi - s.lo) / 3
  let s := { (s.track profit q1).track profit q2 with evaluated := s.evaluated + 2 }
  if profit q1 < profit q2 then { s with lo := s.lo + third + 1 } else { s with hi := s.hi - third - 1 }

/-- The turns of the search. Without a quote the whole function returns, and the error is the number of quotes
that it has evaluated. -/
def ternarySearch : ℕ → Search Q → Except ℕ (Search Q)
  | 0, s => .ok s
  | n + 1, s =>
    match quote (s.lo + (s.hi - s.lo) / 3) with
    | none => .error (s.evaluated + 1)
    | some q1 =>
      match quote (s.hi - (s.hi - s.lo) / 3) with
      | none => .error (s.evaluated + 2)
      | some q2 =>
        let s := s.turn profit q1 q2
        if s.hi ≤ s.lo then .ok s else ternarySearch n s

/-- The search for the amount with the most profit, and the number of quotes that it evaluates. -/
def searchBest (cap : ℕ) : Option Q × ℕ :=
  if cap = 0 then (none, 0)
  else if cap ≤ 64 then
    let s := (Search.start cap).scan quote profit 1 cap
    (s.bestLocal, s.evaluated)
  else
    match ternarySearch quote profit 40 (.start cap) with
    | .error evaluated => (none, evaluated)
    | .ok s =>
      -- `hi + 16` wraps
      let s := s.scan quote profit (max (s.lo - 16) 1) (min ((s.hi + 16) % 2 ^ 128) cap)
      (s.bestLocal, s.evaluated)

end

section
variable (g : Graph) (edges : List Edge) (feeBps : ℕ)

/-- The profit of a quote, in `i128`. -/
def PathQuote.profit (q : PathQuote) : ℤ :=
  Int.bmod (Int.bmod q.amountOut (2 ^ 128) - Int.bmod q.amountIn (2 ^ 128)) (2 ^ 128)

/-- `cap_for_path`, from the smallest third so far. -/
def capForPath : List Edge → ℕ → ℕ
  | [], cap => cap
  | e :: edges, cap =>
    match g.reservesFor e with
    | none => 0
    | some (rIn, _) => if rIn = 0 then 0 else capForPath edges (min (rIn / 3) cap)

/-- `optimize_exact_in_on_path`, with the number of quotes that it evaluates. -/
def optimizeExactInOnPath (cap : ℕ) : Option PathQuote × ℕ :=
  searchBest (pathquoteFromEdgesExactIn g feeBps edges) PathQuote.profit cap

/-- Every pool of the path has reserves in the direction of its edge. -/
def Quotable : Prop := edges ≠ [] ∧ ∀ e ∈ edges, ∃ r, g.reservesFor e = some r ∧ r.1 ≠ 0 ∧ r.2 ≠ 0

end

/-! ## What it evaluates -/

section
variable {g : Graph} {edges : List Edge}

lemma isSome_xykOutExactIn (feeBps rIn rOut x : ℕ) :
    (xykOutExactIn rIn rOut x feeBps).isSome ↔ rIn ≠ 0 ∧ rOut ≠ 0 := by
  unfold xykOutExactIn
  by_cases hzero : rIn = 0 ∨ rOut = 0
  · simp [← not_or, hzero]
  · have hdenom : saturatingAdd rIn (applyFee x feeBps) ≠ 0 := by
      have : 0 < u128Max := by decide
      unfold saturatingAdd
      omega
    dsimp only
    rw [if_neg hdenom, ← not_or, ← apply_ite some]
    simp [hzero]

/-- Whether a path has a quote does not depend on the amount. -/
theorem isSome_pathquote (feeBps x : ℕ) : (pathquoteFromEdgesExactIn g feeBps edges x).isSome ↔ Quotable g edges := by
  have hhops : ∀ edges x, (hopsExactIn g feeBps edges x).isSome ↔
      ∀ e ∈ edges, ∃ r, g.reservesFor e = some r ∧ r.1 ≠ 0 ∧ r.2 ≠ 0 := by
    intro edges
    induction edges with
    | nil => simp [hopsExactIn]
    | cons e edges ih =>
      intro x
      rw [hopsExactIn, List.forall_mem_cons]
      cases hr : g.reservesFor e with
      | none => simp
      | some r =>
        obtain ⟨rIn, rOut⟩ := r
        have hsome := isSome_xykOutExactIn feeBps rIn rOut x
        cases ho : xykOutExactIn rIn rOut x feeBps with
        | none => simp_all
        | some out =>
          rw [ho] at hsome
          rw [and_iff_right ⟨_, rfl, hsome.1 rfl⟩, ← ih out]
          cases hrest : hopsExactIn g feeBps edges out <;> simp [ho, hrest]
  unfold pathquoteFromEdgesExactIn Quotable
  by_cases hnil : edges = [] <;> simp [hnil, hhops]

end

section
variable {Q : Type} {quote : ℕ → Option Q} (profit : Q → ℤ)

/-- What is left of a range after a turn. -/
def leftover (w : ℕ) : ℕ := w - w / 3 - 1

/-- The search `s'` that `n` turns make of `s`. -/
structure Narrowed (n : ℕ) (s s' : Search Q) : Prop where
  lo_le : s.lo ≤ s'.lo
  le_hi : s'.hi ≤ s.hi
  le : s'.lo ≤ s'.hi
  width : s'.hi - s'.lo = leftover^[n] (s.hi - s.lo)
  lo_moves : s'.lo = s.lo ∨ s.lo + (s'.hi - s'.lo) / 3 < s'.lo
  hi_moves : s'.hi = s.hi ∨ s'.hi + (s'.hi - s'.lo) / 3 < s.hi
  evaluated_le : s'.evaluated ≤ s.evaluated + 2 * n
  evaluated_eq : s'.lo < s'.hi → s'.evaluated = s.evaluated + 2 * n

lemma track_eq (s : Search Q) (q : Q) : (s.track profit q).lo = s.lo ∧ (s.track profit q).hi = s.hi ∧
    (s.track profit q).evaluated = s.evaluated := by
  unfold Search.track
  split_ifs <;> exact ⟨rfl, rfl, rfl⟩

/-- A turn takes a third off the range, and one more. -/
theorem narrowed_turn {s : Search Q} (hlt : s.lo < s.hi) (q1 q2 : Q) :
    Narrowed 1 s (s.turn profit q1 q2) := by
  obtain ⟨hlo1, hhi1, -⟩ := track_eq profit s q1
  obtain ⟨hlo, hhi, -⟩ := track_eq profit (s.track profit q1) q2
  have hmoved : (s.turn profit q1 q2).evaluated = s.evaluated + 2 ∧
      ((s.turn profit q1 q2).lo = s.lo + (s.hi - s.lo) / 3 + 1 ∧ (s.turn profit q1 q2).hi = s.hi ∨
      (s.turn profit q1 q2).lo = s.lo ∧ (s.turn profit q1 q2).hi = s.hi - (s.hi - s.lo) / 3 - 1) := by
    unfold Search.turn
    split_ifs <;> simp [*]
  have hwidth : (s.turn profit q1 q2).hi - (s.turn profit q1 q2).lo = leftover (s.hi - s.lo) := by
    unfold leftover
    omega
  constructor
  case width => exact hwidth
  all_goals omega

lemma iterate_leftover_le (n w : ℕ) : leftover^[n] w ≤ w :=
  Function.iterate_le_id_of_le_id (fun _ => (Nat.sub_le _ _).trans (Nat.sub_le _ _)) n w

theorem Narrowed.trans {n : ℕ} {s s' s'' : Search Q} (h : Narrowed 1 s s') (h' : Narrowed n s' s'') :
    Narrowed (n + 1) s s'' := by
  obtain ⟨hlo, hhi, hle, hwidth, hmlo, hmhi, heval, hevaleq⟩ := h
  obtain ⟨hlo', hhi', hle', hwidth', hmlo', hmhi', heval', hevaleq'⟩ := h'
  constructor
  case width => rw [Function.iterate_succ_apply, hwidth', hwidth, Function.iterate_one]
  all_goals omega

lemma ternarySearch_narrowed (hq : ∀ x, (quote x).isSome) (n : ℕ) {s : Search Q} (hlt : s.lo < s.hi) :
    ∃ s', ternarySearch quote profit n s = .ok s' ∧ Narrowed n s s' := by
  induction n generalizing s with
  | zero => exact ⟨s, rfl, le_rfl, le_rfl, hlt.le, rfl, .inl rfl, .inl rfl, le_rfl, fun _ => rfl⟩
  | succ n ih =>
    obtain ⟨q1, hq1⟩ := Option.isSome_iff_exists.1 (hq (s.lo + (s.hi - s.lo) / 3))
    obtain ⟨q2, hq2⟩ := Option.isSome_iff_exists.1 (hq (s.hi - (s.hi - s.lo) / 3))
    have hturn := narrowed_turn profit hlt q1 q2
    rw [ternarySearch, hq1, hq2]
    dsimp only
    split_ifs with hdone
    · refine ⟨_, rfl, hturn.trans ⟨le_rfl, le_rfl, hturn.le, ?_, .inl rfl, .inl rfl, by omega, by omega⟩⟩
      rw [Nat.sub_eq_zero_of_le hdone]
      exact (Nat.le_zero.1 (iterate_leftover_le n 0)).symm
    · obtain ⟨s', hs', hrest⟩ := ih (not_le.1 hdone)
      exact ⟨s', hs', hturn.trans hrest⟩

lemma evaluated_scan (s : Search Q) (first last : ℕ) :
    (s.scan quote profit first last).evaluated = s.evaluated + (last + 1 - first) := by
  unfold Search.scan
  generalize last + 1 - first = n
  induction n generalizing s first with
  | zero => rfl
  | succ n ih =>
    rw [List.range'_succ, List.foldl_cons, ih]
    cases quote first with
    | none => exact Nat.add_right_comm _ _ _
    | some q => exact (congrArg (· + n) (track_eq _ _ q).2.2).trans (Nat.add_right_comm _ _ _)

lemma iterate_leftover_le_iff {cap w bound : ℕ} (hw : leftover^[40] bound = w)
    (hnext : leftover^[40] (bound + 1) = w + 1) : leftover^[40] (cap - 1) ≤ w ↔ cap ≤ bound + 1 := by
  have hmono : Monotone leftover := fun a b h => by unfold leftover; omega
  constructor
  · intro h
    by_contra hcap
    have := hmono.iterate 40 (show bound + 1 ≤ cap - 1 by omega)
    omega
  · intro h
    exact (hmono.iterate 40 (show cap - 1 ≤ bound by omega)).trans hw.le

lemma evaluated_eq (hq : ∀ x, (quote x).isSome) {cap : ℕ} (hcap : 64 < cap) :
    ∃ s, ternarySearch quote profit 40 (.start cap) = .ok s ∧ Narrowed 40 (.start cap) s ∧
      (searchBest quote profit cap).2 =
        s.evaluated + (min ((s.hi + 16) % 2 ^ 128) cap + 1 - max (s.lo - 16) 1) := by
  obtain ⟨s, hs, hn⟩ := ternarySearch_narrowed profit hq 40 (s := .start cap) (by
    show 1 < cap
    omega)
  refine ⟨s, hs, hn, ?_⟩
  rw [searchBest, if_neg (by omega), if_neg (by omega), hs]
  exact evaluated_scan _ _ _ _

end

/-- The search leaves little to scan: the path has no quote, or the range is small, or it is a little larger and
one of the bounds never moved, or the bound of the scan wraps. -/
def ScansLittle (g : Graph) (edges : List Edge) (feeBps cap : ℕ) : Prop :=
  ¬ Quotable g edges ∨ cap ≤ 9836886185 ∨
    ∃ s, ternarySearch (pathquoteFromEdgesExactIn g feeBps edges) PathQuote.profit 40 (.start cap) = .ok s ∧
      ((s.lo = 1 ∨ s.hi = cap) ∧ cap ≤ 10012792219 ∨ s.hi = cap ∧ u128Max < cap + 16)

/-- Two pools of one pair, with reserves of eighteen digits. -/
def twinPools : Graph :=
  .fromSnapshot (AList.insert ⟨2, 9⟩ ⟨3 * 10 ^ 17, 3 * 10 ^ 17, ⟨2, 0⟩, ⟨32, 0⟩⟩
    (AList.insert ⟨2, 8⟩ ⟨3 * 10 ^ 17, 6 * 10 ^ 17, ⟨2, 0⟩, ⟨32, 0⟩⟩ ∅))

/-- There and back through the two pools. -/
def twinCycle : List Edge := [⟨⟨2, 8⟩, ⟨2, 0⟩, ⟨32, 0⟩⟩, ⟨⟨2, 9⟩, ⟨32, 0⟩, ⟨2, 0⟩⟩]

end Espo.Ammdata
