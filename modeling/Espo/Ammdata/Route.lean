import Espo.Essentials.Transfers

/-!
# Routes

The legs of a swap that went through several pools are put back in order by following the tokens. Where no token
is taken in by two legs, the next leg is always known, and every start leads through all legs of a chain: a chain
that is no cycle has one leg whose input no other produces, and a cycle may be entered anywhere.
-/

namespace Espo.Ammdata
open Lib Essentials List

/-- `RouteLeg`. -/
structure RouteLeg where
  pool : SchemaAlkaneId
  base : SchemaAlkaneId
  quote : SchemaAlkaneId
  baseDelta : ℤ
  quoteDelta : ℤ
  seq : ℕ
  deriving DecidableEq

namespace RouteLeg
variable (leg : RouteLeg)

/-- `flow`: the token paid in and its amount, the token paid out and its amount. -/
def flow : Option (SchemaAlkaneId × ℕ × SchemaAlkaneId × ℕ) :=
  if 0 < leg.baseDelta ∧ leg.quoteDelta < 0 then
    some (leg.base, leg.baseDelta.natAbs, leg.quote, leg.quoteDelta.natAbs)
  else if leg.baseDelta < 0 ∧ 0 < leg.quoteDelta then
    some (leg.quote, leg.quoteDelta.natAbs, leg.base, leg.baseDelta.natAbs)
  else none

/-- The two parts of `flows`. -/
def tokenIn : Option SchemaAlkaneId := leg.flow.map fun flow => flow.1

def tokenOut : Option SchemaAlkaneId := leg.flow.map fun flow => flow.2.2.1

/-- What the pool of a leg took in of a token. -/
def delta (token : SchemaAlkaneId) : ℤ :=
  (if token = leg.base then leg.baseDelta else 0) + if token = leg.quote then leg.quoteDelta else 0

end RouteLeg

/-- `Route`. -/
structure Route where
  legs : List RouteLeg
  net : Table SchemaAlkaneId ℤ
  via : List SchemaAlkaneId

/-- `totals`, with one more leg. -/
def addTotals (totals : Table SchemaAlkaneId ℤ) (leg : RouteLeg) : Table SchemaAlkaneId ℤ :=
  let totals := totals.put leg.base ((totals.get leg.base).getD 0 - leg.baseDelta)
  totals.put leg.quote ((totals.get leg.quote).getD 0 - leg.quoteDelta)

/-- `pick_start`, for the legs that are not used. Legs stand with their indices. -/
def pickStart (net : Table SchemaAlkaneId ℤ) (free : List (RouteLeg × ℕ)) : Option (RouteLeg × ℕ) :=
  (((free.find? fun i => ∀ j ∈ free, j ≠ i → j.1.tokenOut ≠ i.1.tokenIn).or
    (free.find? fun i => (i.1.tokenIn.bind net.get).any (· < 0))).or
    (free.find? fun i => (i.1.tokenIn.bind net.get).any (0 < ·))).or free.head?

/-- The inner loop, which gives the legs it places and those that are left. -/
def follow : ℕ → Option SchemaAlkaneId → List (RouteLeg × ℕ) → List (RouteLeg × ℕ) × List (RouteLeg × ℕ)
  | 0, _, free => ([], free)
  | n + 1, holding, free =>
    match free.find? fun i => i.1.tokenIn = holding with
    | none => ([], free)
    | some i =>
      let r := follow n i.1.tokenOut (free.erase i)
      (i :: r.1, r.2)

/-- The outer loop. -/
def placeAll (net : Table SchemaAlkaneId ℤ) : ℕ → List (RouteLeg × ℕ) → List (RouteLeg × ℕ)
  | 0, _ => []
  | n + 1, free =>
    match pickStart net free with
    | none => []
    | some i =>
      let r := follow free.length i.1.tokenOut (free.erase i)
      i :: (r.1 ++ placeAll net n r.2)

variable (legs : List RouteLeg)

/-- The legs that are swaps. -/
def swaps : List RouteLeg := legs.filter fun leg => leg.flow.isSome

/-- The stable sort by pool and sequence number. -/
def inPoolOrder : List RouteLeg :=
  legs.insertionSort fun a b => toLex (a.pool, a.seq) ≤ toLex (b.pool, b.seq)

/-- `build_route`. Each loop has as many turns as there are legs at most. -/
def buildRoute : Route :=
  let legs := inPoolOrder (swaps legs)
  let totals := legs.foldl addTotals ∅
  let net := totals.filter fun _ amount => amount ≠ 0
  { legs := (placeAll net legs.length legs.zipIdx).map Prod.fst
    net
    via := (totals.keys.sort (· ≤ ·)).filter fun token => totals.get token = some 0 }

/-- A leg takes in what another one pays out. -/
def Feeds (a b : RouteLeg) : Prop := a.tokenOut = b.tokenIn

instance : DecidableRel Feeds := fun a b => inferInstanceAs (Decidable (a.tokenOut = b.tokenIn))

/-! ## Every leg is placed -/

variable {net : Table SchemaAlkaneId ℤ} {free l : List (RouteLeg × ℕ)} {i : RouteLeg × ℕ}

lemma follow_perm (n : ℕ) (holding : Option SchemaAlkaneId) (free : List (RouteLeg × ℕ)) :
    (follow n holding free).1 ++ (follow n holding free).2 ~ free := by
  induction n generalizing holding free with
  | zero => rfl
  | succ n ih =>
    rw [follow]
    cases hfind : free.find? fun i => i.1.tokenIn = holding with
    | none => rfl
    | some i => exact ((ih _ _).cons i).trans (perm_cons_erase (mem_of_find?_eq_some hfind)).symm

lemma mem_of_pickStart (h : pickStart net free = some i) : i ∈ free := by
  simp only [pickStart, Option.or_eq_some_iff] at h
  rcases h with ((h | ⟨-, h⟩) | ⟨-, h⟩) | ⟨-, h⟩
  · exact mem_of_find?_eq_some h
  · exact mem_of_find?_eq_some h
  · exact mem_of_find?_eq_some h
  · exact mem_of_head? h

variable (net free) in
lemma placeAll_perm {n : ℕ} (hn : free.length ≤ n) : placeAll net n free ~ free := by
  induction n generalizing free with
  | zero => rw [length_eq_zero_iff.1 (Nat.le_zero.1 hn), placeAll]
  | succ n ih =>
    rw [placeAll]
    cases hstart : pickStart net free with
    | none =>
      rw [pickStart, Option.or_eq_none_iff] at hstart
      rw [head?_eq_none_iff.1 hstart.2]
    | some i =>
      have hmem := mem_of_pickStart hstart
      have hfollow := follow_perm free.length i.1.tokenOut (free.erase i)
      have hlength := hfollow.length_eq
      rw [length_append, length_erase_of_mem hmem] at hlength
      exact ((((ih _ (by omega)).append_left _).trans hfollow).cons i).trans (perm_cons_erase hmem).symm

/-! ## Chains -/

section
variable (hnodup : (l.map fun i => i.1.tokenIn).Nodup) (hchain : l.IsChain (Feeds ·.1 ·.1)) (hperm : free ~ l)
include hnodup hchain hperm

lemma follow_chain {n : ℕ} {holding : Option SchemaAlkaneId} (hhead : ∀ i ∈ l.head?, i.1.tokenIn = holding)
    (hn : l.length ≤ n) : follow n holding free = (l, []) := by
  induction l generalizing n holding free with
  | nil =>
    rw [hperm.eq_nil]
    cases n <;> rfl
  | cons i l ih =>
    have hi : i.1.tokenIn = holding := hhead i rfl
    have hfind : (free.find? fun i => i.1.tokenIn = holding) = some i := by
      cases hfind : free.find? fun i => i.1.tokenIn = holding with
      | none => exact absurd (decide_eq_true hi) (find?_eq_none.1 hfind i (hperm.mem_iff.2 mem_cons_self))
      | some j =>
        have hj := find?_some hfind
        rw [decide_eq_true_eq, ← hi] at hj
        rw [inj_on_of_nodup_map hnodup (hperm.mem_iff.1 (mem_of_find?_eq_some hfind)) mem_cons_self hj]
    have hrest := hperm.erase i
    rw [erase_cons_head] at hrest
    obtain ⟨hnext, hchain⟩ := isChain_cons.1 hchain
    cases n with
    | zero => cases hn
    | succ n =>
      rw [follow, hfind]
      simp only [ih (nodup_cons.1 hnodup).2 hchain hrest (fun j hj => (hnext j hj).symm) (Nat.le_of_succ_le_succ hn)]

omit hperm in
lemma feeds_head {i j : RouteLeg × ℕ} (hi : i ∈ l.head?) (hj : j ∈ l) (hne : j ≠ i) (hfeeds : Feeds j.1 i.1) :
    ∀ k ∈ l.getLast?, Feeds k.1 i.1 := by
  obtain ⟨before, after, rfl⟩ := append_of_mem hj
  cases after with
  | nil => simpa using hfeeds
  | cons k after =>
    -- the leg after `j` takes in the same token as the first one
    have hk : Feeds j.1 k.1 := (isChain_cons_cons.1 (isChain_append.1 hchain).2.1).1
    have hsame : k = i := inj_on_of_nodup_map hnodup (by simp) (mem_of_head? hi) (hk.symm.trans hfeeds)
    subst hsame
    have hl := Nodup.of_map _ hnodup
    cases before with
    | nil => exact absurd (Option.some.inj hi) hne
    | cons i before =>
      cases hi
      simp at hl

lemma exists_chain_of_pickStart (hstart : pickStart net free = some i) :
    ∃ rest, i :: rest ~ l ∧ (i :: rest).IsChain (Feeds ·.1 ·.1) := by
  obtain ⟨before, after, hl⟩ := append_of_mem (hperm.mem_iff.1 (mem_of_pickStart hstart))
  have hparts := hl ▸ hchain
  rw [isChain_append] at hparts
  cases hlast : before.getLast? with
  | none =>
    rw [getLast?_eq_none_iff.1 hlast] at hl
    exact ⟨after, hl ▸ .rfl, hparts.2.1⟩
  | some p =>
    -- the leg before `i` feeds it, so `i` is not picked as a leg that no other feeds
    have hfed : Feeds p.1 i.1 := hparts.2.2 p hlast i rfl
    have hne : p ≠ i := by
      have hnodup := Nodup.of_map _ hnodup
      rw [hl, nodup_append] at hnodup
      exact hnodup.2.2 p (mem_of_getLast? hlast) i mem_cons_self
    have hall : (free.find? fun i => ∀ j ∈ free, j ≠ i → j.1.tokenOut ≠ i.1.tokenIn) = none := by
      cases hfind : free.find? fun i => ∀ j ∈ free, j ≠ i → j.1.tokenOut ≠ i.1.tokenIn with
      | none => rfl
      | some k =>
        simp only [pickStart, hfind, Option.some_or, Option.some.injEq] at hstart
        subst hstart
        have hk := find?_some hfind
        rw [decide_eq_true_eq] at hk
        exact absurd hfed (hk p (hperm.mem_iff.2 (by simp [hl, mem_of_getLast? hlast])) hne)
    have hrotated : i :: after ++ before ~ l := hl ▸ perm_append_comm
    refine ⟨after ++ before, hrotated, ?_⟩
    refine isChain_append.2 ⟨hparts.2.1, hparts.1, fun k hk e he => ?_⟩
    have hend : k ∈ l.getLast? := by
      rw [hl, getLast?_append, hk]
      rfl
    have hhead : e ∈ l.head? := by
      rw [hl, head?_append, he]
      rfl
    have hnot := find?_eq_none.1 hall e (hperm.mem_iff.2 (mem_of_head? hhead))
    simp only [decide_eq_true_eq, not_forall, not_not] at hnot
    obtain ⟨j, hj, hje, hfeeds⟩ := hnot
    exact feeds_head hnodup hchain hhead (hperm.mem_iff.1 hj) hje hfeeds k hend

lemma placeAll_chain (n : ℕ) : (placeAll net n free).IsChain (Feeds ·.1 ·.1) := by
  cases n with
  | zero => exact .nil
  | succ n =>
    rw [placeAll]
    cases hstart : pickStart net free with
    | none => exact .nil
    | some i =>
      obtain ⟨rest, hrest, hroute⟩ := exists_chain_of_pickStart hnodup hchain hperm hstart
      have hfree := (hperm.trans hrest.symm).erase i
      rw [erase_cons_head] at hfree
      have hinputs := (hrest.map fun i => i.1.tokenIn).nodup_iff.2 hnodup
      obtain ⟨hnext, hothers⟩ := isChain_cons.1 hroute
      have hlength := (hperm.trans hrest.symm).length_eq
      have hfollow := follow_chain (n := free.length) (nodup_cons.1 hinputs).2 hothers hfree
        (fun j hj => (hnext j hj).symm) (by simp [hlength])
      have hdone : placeAll net n [] = [] := by cases n <;> rfl
      simpa only [hfollow, hdone, append_nil] using hroute

end

/-! ## The route -/

lemma totals_eq (token : SchemaAlkaneId) :
    ((legs.foldl addTotals ∅).get token).getD 0 = -(legs.map (·.delta token)).sum := by
  induction legs using List.reverseRecOn with
  | nil => rfl
  | append_singleton legs leg ih =>
    rw [foldl_append, map_append, sum_append, neg_add, ← ih]
    simp only [foldl_cons, foldl_nil, addTotals, Table.get_put, RouteLeg.delta]
    split_ifs <;> simp_all <;> omega

/-- The legs of a route are the swaps, its net amounts are the deltas of the pools with the opposite sign, and
its order is a chain if there is a chain of the swaps and no two of them take in the same token. -/
theorem buildRoute_chain (legs : List RouteLeg) :
    (buildRoute legs).legs ~ swaps legs ∧
    (∀ token, (buildRoute legs).net.get token
      = if ((swaps legs).map (·.delta token)).sum = 0 then none
        else some (-((swaps legs).map (·.delta token)).sum)) ∧
    (((swaps legs).map RouteLeg.tokenIn).Nodup → (∃ order, order ~ swaps legs ∧ order.IsChain Feeds) →
      (buildRoute legs).legs.IsChain Feeds) := by
  have hsort : inPoolOrder (swaps legs) ~ swaps legs := perm_insertionSort _ _
  unfold buildRoute
  dsimp only
  generalize inPoolOrder (swaps legs) = sorted at hsort ⊢
  have hzip : sorted.zipIdx.map Prod.fst = sorted := zipIdx_map_fst _ _
  refine ⟨?_, fun token => ?_, fun hnodup hex => ?_⟩
  · have hplaced := (placeAll_perm ((sorted.foldl addTotals ∅).filter fun _ amount => amount ≠ 0)
      sorted.zipIdx (n := sorted.length) (by simp)).map Prod.fst
    rw [hzip] at hplaced
    exact hplaced.trans hsort
  · have htotal := totals_eq sorted token
    rw [(hsort.map (·.delta token)).sum_eq] at htotal
    rw [Table.get_filter]
    generalize ((swaps legs).map (·.delta token)).sum = total at htotal ⊢
    cases hget : (sorted.foldl addTotals ∅).get token with
    | none => simp_all
    | some amount =>
      obtain rfl : amount = -total := by simpa [hget] using htotal
      by_cases hzero : total = 0 <;> simp [hzero]
  · obtain ⟨order, horder, hchain⟩ := hex
    have hindexed := horder.trans hsort.symm
    rw [← hzip] at hindexed
    obtain ⟨l, rfl, hl⟩ := (congrFun₂ (eq_map_comp_perm Prod.fst) order sorted.zipIdx).mpr hindexed
    refine (isChain_map _).2 (placeAll_chain ?_ ((isChain_map _).1 hchain) hl.symm _)
    rw [← (hsort.map _).nodup_iff, ← hzip, map_map] at hnodup
    exact (hl.map _).nodup_iff.2 hnodup

/-- Pools of 2:0, 2:1 and 2:2: a trader swaps 2:0 to 2:1 and back, and then to 2:2. -/
def returnTrip : List RouteLeg :=
  [⟨⟨2, 12⟩, ⟨2, 0⟩, ⟨2, 1⟩, 10, -10, 0⟩, ⟨⟨2, 13⟩, ⟨2, 1⟩, ⟨2, 0⟩, 10, -9, 0⟩,
    ⟨⟨2, 11⟩, ⟨2, 0⟩, ⟨2, 2⟩, 9, -9, 0⟩]

/-- The last leg has the lowest pool and is placed first, and the others do not follow it. -/
theorem buildRoute_strands :
    swaps returnTrip = returnTrip ∧ (returnTrip.map RouteLeg.pool).Nodup ∧ returnTrip.IsChain Feeds ∧
      ¬(buildRoute returnTrip).legs.IsChain Feeds := by
  decide +kernel

end Espo.Ammdata
