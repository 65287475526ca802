import Espo.Lib.Loop
import Espo.Mempool.Templates

/-!
# Relatives

What `compute_relatives` and `old_set_relatives` store when no transaction is its own ancestor: the ancestors of
a transaction are all that its parents lead to, and its children are those it is a parent of.

`Related base S E pool` says that `pool` is `base` with the ancestors of the transactions in `S` and the children
along the edges `E`. Both algorithms add to `S` and `E` until they have all transactions and all edges.
-/

namespace Espo.Mempool
open Lib Relation Option

variable {T O : Type} [LinearOrder T]

/-! ## Ancestors -/

variable (pool : Pool T O)

/-- A transaction has a parent. -/
def Parent (txid parent : T) : Prop := parent ∈ inputsOf pool txid

/-- All parents are in the pool. -/
def InputsClosed : Prop := ∀ txid parent, Parent pool txid parent → parent ∈ pool.keys

/-- No transaction is its own ancestor. -/
def Acyclic : Prop := ∀ txid, ¬ TransGen (Parent pool) txid txid

open Classical in
/-- The ancestors of a transaction. -/
noncomputable def ancestorsOf (base : Pool T O) (txid : T) : Finset T :=
  base.keys.filter (TransGen (Parent base) txid)

open Classical in
/-- The transactions that have an edge to a parent. -/
noncomputable def edgesTo (base : Pool T O) (E : T → T → Prop) (parent : T) : Finset T :=
  base.keys.filter fun txid => E txid parent

variable {base : Pool T O}

omit [LinearOrder T] in
lemma mem_edgesTo {E : T → T → Prop} {txid parent : T} :
    txid ∈ edgesTo base E parent ↔ txid ∈ base.keys ∧ E txid parent := by
  simp only [edgesTo, Finset.mem_filter]

lemma mem_keys_of_parent {txid parent : T} (h : Parent base txid parent) : txid ∈ base.keys := by
  unfold Parent inputsOf at h
  by_contra hnot
  rw [Table.notMem_keys.1 hnot] at h
  exact List.not_mem_nil h

lemma mem_ancestorsOf (hclosed : InputsClosed base) {txid a : T} :
    a ∈ ancestorsOf base txid ↔ TransGen (Parent base) txid a := by
  simp only [ancestorsOf, Finset.mem_filter]
  refine ⟨fun h => h.2, fun h => ⟨?_, h⟩⟩
  cases h with
  | single hparent => exact hclosed _ _ hparent
  | tail _ hparent => exact hclosed _ _ hparent

lemma mem_ancestorsOf_iff (hclosed : InputsClosed base) {txid a : T} :
    a ∈ ancestorsOf base txid ↔
      ∃ parent ∈ inputsOf base txid, a = parent ∨ a ∈ ancestorsOf base parent := by
  rw [mem_ancestorsOf hclosed, TransGen.head'_iff]
  constructor
  · rintro ⟨parent, hparent, hrest⟩
    refine ⟨parent, hparent, ?_⟩
    rw [mem_ancestorsOf hclosed]
    exact (reflTransGen_iff_eq_or_transGen.1 hrest)
  · rintro ⟨parent, hparent, hrest⟩
    rw [mem_ancestorsOf hclosed] at hrest
    exact ⟨parent, hparent, reflTransGen_iff_eq_or_transGen.2 hrest⟩

lemma ancestorTotals_congr {order : SetOrder T} {p₁ p₂ : Pool T O}
    (hfee : ∀ t, (p₁.get t).map MinerTx.fee = (p₂.get t).map MinerTx.fee)
    (hvsize : ∀ t, (p₁.get t).map MinerTx.adjustedVsize = (p₂.get t).map MinerTx.adjustedVsize)
    (txid : T) (ancestors : Finset T) :
    ancestorTotals order p₁ txid ancestors = ancestorTotals order p₂ txid ancestors := by
  unfold ancestorTotals
  rw [hfee, hvsize]
  congr 1
  funext totals ancestor
  have hfee := hfee ancestor
  have hvsize := hvsize ancestor
  cases h₁ : p₁.get ancestor with
  | none =>
    rw [h₁, map_none, eq_comm, map_eq_none_iff] at hfee
    rw [hfee]
  | some tx₁ =>
    rw [h₁, map_some, eq_comm, map_eq_some_iff] at hfee hvsize
    obtain ⟨tx₂, h₂, hfee⟩ := hfee
    obtain ⟨tx₂', h₂', hvsize⟩ := hvsize
    rw [h₂] at h₂'
    cases h₂'
    rw [h₂]
    dsimp only
    rw [hfee, hvsize]

/-! ## Pools with some relatives -/

section
variable (arith : F64.Arith) (order : SetOrder T) (base : Pool T O)

open Classical in
/-- A transaction with the children along `E` and, when it is in `S`, its ancestors. -/
noncomputable def relate (S : Set T) (E : T → T → Prop) (txid : T) (tx : MinerTx T O) : MinerTx T O :=
  let totals := ancestorTotals order base txid (ancestorsOf base txid)
  if txid ∈ S then
    { tx with
      children := edgesTo base E txid
      ancestors := ancestorsOf base txid
      ancestorFee := totals.1
      ancestorVsize := max totals.2 1
      score := arith.ratio totals.1 (max totals.2 1) }
  else { tx with children := edgesTo base E txid }

/-- The pool has the ancestors of `S` and the edges `E`. -/
def Related (S : Set T) (E : T → T → Prop) (pool : Pool T O) : Prop :=
  ∀ txid, pool.get txid = (base.get txid).map (relate arith order base S E txid)

variable {arith order base} {S : Set T} {E : T → T → Prop} {pool : Pool T O}

lemma relate_keeps (txid : T) (tx : MinerTx T O) :
    (relate arith order base S E txid tx).inputs = tx.inputs ∧
    (relate arith order base S E txid tx).fee = tx.fee ∧
    (relate arith order base S E txid tx).adjustedVsize = tx.adjustedVsize := by
  unfold relate
  split_ifs <;> exact ⟨rfl, rfl, rfl⟩

lemma ancestors_relate {txid : T} (h : txid ∈ S) (tx : MinerTx T O) :
    (relate arith order base S E txid tx).ancestors = ancestorsOf base txid := by
  rw [relate, if_pos h]

lemma Related.congr (h : Related arith order base S E pool) {S' : Set T} {E' : T → T → Prop}
    (hS : ∀ txid ∈ base.keys, (txid ∈ S ↔ txid ∈ S'))
    (hE : ∀ txid ∈ base.keys, ∀ parent, (E txid parent ↔ E' txid parent)) :
    Related arith order base S' E' pool := by
  intro txid
  rw [h txid]
  cases hget : base.get txid with
  | none => rfl
  | some tx =>
    have hedges : edgesTo base E txid = edgesTo base E' txid := by
      ext c
      rw [mem_edgesTo, mem_edgesTo]
      exact and_congr_right fun hc => hE c hc txid
    have hmem := hS txid (Table.mem_keys_of_get hget)
    rw [map_some, map_some, relate, hedges]
    classical exact congrArg some (if_congr hmem rfl rfl)

lemma related_base (hfresh : ∀ txid tx, base.get txid = some tx → tx.children = ∅) :
    Related arith order base ∅ (fun _ _ => False) base := by
  intro txid
  cases hget : base.get txid with
  | none => rfl
  | some tx =>
    have hedges : edgesTo base (fun _ _ => False) txid = tx.children := by
      rw [hfresh txid tx hget, Finset.eq_empty_iff_forall_notMem]
      intro c hc
      exact (mem_edgesTo.1 hc).2
    rw [map_some, relate, if_neg (Set.notMem_empty txid), hedges]

section
variable (h : Related arith order base S E pool)
include h

lemma Related.keys_eq : pool.keys = base.keys := by
  ext txid
  rw [← not_iff_not, Table.notMem_keys, Table.notMem_keys, h txid, map_eq_none_iff]

lemma Related.inputsOf_eq (txid : T) : inputsOf pool txid = inputsOf base txid := by
  unfold inputsOf
  rw [h txid, Option.map_map]
  congr 1
  exact Option.map_congr fun tx _ => (relate_keeps txid tx).1

lemma Related.ancestorTotals_eq (txid : T) (ancestors : Finset T) :
    ancestorTotals order pool txid ancestors = ancestorTotals order base txid ancestors := by
  have hfee : ∀ t, (pool.get t).map MinerTx.fee = (base.get t).map MinerTx.fee := by
    intro t
    rw [h t, Option.map_map]
    exact Option.map_congr fun tx _ => (relate_keeps t tx).2.1
  have hvsize : ∀ t, (pool.get t).map MinerTx.adjustedVsize = (base.get t).map MinerTx.adjustedVsize := by
    intro t
    rw [h t, Option.map_map]
    exact Option.map_congr fun tx _ => (relate_keeps t tx).2.2
  exact ancestorTotals_congr hfee hvsize txid ancestors

lemma Related.addChild {txid : T} (htxid : txid ∈ base.keys) (parent : T) :
    Related arith order base S (fun c p => E c p ∨ c = txid ∧ p = parent) (addChild pool parent txid) := by
  intro t
  rw [Mempool.addChild, Table.get_modify, h t]
  have hedges : edgesTo base (fun c p => E c p ∨ c = txid ∧ p = parent) t
      = if t = parent then insert txid (edgesTo base E t) else edgesTo base E t := by
    ext c
    split_ifs with ht
    · subst ht
      simp only [Finset.mem_insert, mem_edgesTo, and_true]
      constructor
      · rintro ⟨hc, hedge | rfl⟩
        · exact .inr ⟨hc, hedge⟩
        · exact .inl rfl
      · rintro (rfl | ⟨hc, hedge⟩)
        · exact ⟨htxid, .inr rfl⟩
        · exact ⟨hc, .inl hedge⟩
    · simp only [mem_edgesTo, ht, and_false, or_false]
  cases base.get t with
  | none => simp
  | some tx =>
    simp only [map_some, relate, hedges]
    split_ifs <;> rfl

lemma Related.setAncestors (txid : T) :
    Related arith order base (insert txid S) E
      (setAncestors arith order pool txid (ancestorsOf base txid)) := by
  intro t
  rw [Mempool.setAncestors, Table.get_modify, h.ancestorTotals_eq, h t]
  split_ifs with ht
  · subst ht
    cases base.get t with
    | none => rfl
    | some tx =>
      simp only [map_some, relate, Set.mem_insert]
      split_ifs <;> rfl
  · cases base.get t with
    | none => rfl
    | some tx =>
      rw [map_some, map_some, relate, relate]
      by_cases hS : t ∈ S
      · rw [if_pos hS, if_pos (.inr hS)]
      · rw [if_neg hS, if_neg fun h => h.elim ht hS]

end

/-! ## The recursion of the reference -/

/-- More ancestors and more edges, all of them to parents. -/
structure Grown (base : Pool T O) (S : Set T) (E : T → T → Prop) (S' : Set T) (E' : T → T → Prop) : Prop where
  subset : S ⊆ S'
  edges : ∀ c p, E c p → E' c p
  parents : ∀ c p, E' c p → E c p ∨ Parent base c p

lemma Grown.refl (S : Set T) (E : T → T → Prop) : Grown base S E S E :=
  ⟨subset_rfl, fun _ _ h => h, fun _ _ h => .inl h⟩

lemma Grown.trans {S' S'' : Set T} {E' E'' : T → T → Prop} (h₁ : Grown base S E S' E')
    (h₂ : Grown base S' E' S'' E'') : Grown base S E S'' E'' where
  subset := h₁.subset.trans h₂.subset
  edges c p h := h₂.edges c p (h₁.edges c p h)
  parents c p h := (h₂.parents c p h).elim (h₁.parents c p) .inr

/-- What the body of the loop over the parents has done, after some of them. -/
structure ParentsDone (arith : F64.Arith) (order : SetOrder T) (base : Pool T O) (S : Set T) (E : T → T → Prop)
    (txid : T) (visiting : Finset T) (done : List T) (acc : (Pool T O × Finset T) × Finset T) (S' : Set T)
    (E' : T → T → Prop) : Prop where
  related : Related arith order base S' E' acc.1.1
  visiting_eq : acc.1.2 = insert txid visiting
  grown : Grown base S E S' E'
  ancestors : ∀ a, a ∈ acc.2 ↔ ∃ parent ∈ done, a = parent ∨ a ∈ ancestorsOf base parent
  edges : ∀ parent ∈ done, E' txid parent

lemma mem_ancestors_snoc {acc : Finset T} {done : List T} {a : T}
    (h : a ∈ acc ↔ ∃ parent ∈ done, a = parent ∨ a ∈ ancestorsOf base parent) (parent : T) :
    a ∈ insert parent acc ∪ ancestorsOf base parent ↔
      ∃ p ∈ done ++ [parent], a = p ∨ a ∈ ancestorsOf base p := by
  simp only [Finset.mem_union, Finset.mem_insert, h, List.mem_append, List.mem_singleton]
  constructor
  · rintro ((rfl | ⟨p, hp, ha⟩) | ha)
    · exact ⟨a, .inr rfl, .inl rfl⟩
    · exact ⟨p, .inl hp, ha⟩
    · exact ⟨parent, .inr rfl, .inr ha⟩
  · rintro ⟨p, hp | rfl, ha⟩
    · exact .inl (.inr ⟨p, hp, ha⟩)
    · exact ha.elim (fun heq => .inl (.inl heq)) .inr

lemma ParentsDone.visitParent {txid parent : T} {visiting : Finset T} {done : List T}
    {acc : (Pool T O × Finset T) × Finset T} {S₁ S₂ : Set T} {E₁ E₂ : T → T → Prop} {pool₂ : Pool T O}
    {visit : T → Pool T O → Finset T → Option (Pool T O × Finset T)}
    (h : ParentsDone arith order base S E txid visiting done acc S₁ E₁) (hparent : Parent base txid parent)
    (hkey : parent ∈ base.keys)
    (hvisit : visit parent acc.1.1 acc.1.2 = some (pool₂, acc.1.2))
    (hrelated : Related arith order base S₂ E₂ pool₂) (hgrown : Grown base S₁ E₁ S₂ E₂) (hmem : parent ∈ S₂) :
    ∃ acc', Mempool.visitParent visit txid acc parent = some acc' ∧ ∃ S' E',
      ParentsDone arith order base S E txid visiting (done ++ [parent]) acc' S' E' := by
  have hsome : (acc.1.1.get parent).isNone = false := by
    obtain ⟨tx, htx⟩ := Table.mem_keys.1 (h.related.keys_eq ▸ hkey)
    rw [htx]
    rfl
  have hancestors : ((pool₂.get parent).map MinerTx.ancestors).getD ∅ = ancestorsOf base parent := by
    obtain ⟨tx, htx⟩ := Table.mem_keys.1 hkey
    rw [hrelated parent, htx, map_some, map_some, getD_some, ancestors_relate hmem]
  have hvisited : Mempool.visitParent visit txid acc parent
      = some ((addChild pool₂ parent txid, acc.1.2), insert parent acc.2 ∪ ancestorsOf base parent) := by
    rw [Mempool.visitParent, hsome, hvisit, ← hancestors]
    rfl
  refine ⟨_, hvisited, S₂, _, hrelated.addChild (mem_keys_of_parent hparent) parent, h.visiting_eq, ?_, ?_, ?_⟩
  · refine h.grown.trans (hgrown.trans ⟨subset_rfl, fun c p hcp => .inl hcp, ?_⟩)
    rintro c p (hcp | ⟨rfl, rfl⟩)
    · exact .inl hcp
    · exact .inr hparent
  · exact fun a => mem_ancestors_snoc (h.ancestors a) parent
  · intro p hp
    rcases List.mem_append.1 hp with hp | hp
    · exact .inl (hgrown.edges txid p (h.edges p hp))
    · exact .inr ⟨rfl, List.mem_singleton.1 hp⟩

/-- After `old_set_relatives` the relatives of the transaction are stored. `visiting` has transactions that
the recursion came from, so it never stops there. -/
theorem oldSetRelatives_spec (hclosed : InputsClosed base) (hacyclic : Acyclic base) (depth : ℕ) {txid : T}
    {visiting : Finset T} (h : Related arith order base S E pool) (htxid : txid ∈ base.keys)
    (hvisiting : ∀ v ∈ visiting, TransGen (Parent base) v txid)
    (hdepth : (base.keys \ visiting).card < depth) :
    ∃ pool' S' E', oldSetRelatives arith order depth txid pool visiting = some (pool', visiting) ∧
      Related arith order base S' E' pool' ∧ Grown base S E S' E' ∧ txid ∈ S' ∧
      ∀ parent, Parent base txid parent → E' txid parent := by
  induction depth generalizing txid visiting pool S E with
  | zero => exact absurd hdepth (Nat.not_lt_zero _)
  | succ depth ih =>
    have hnot : txid ∉ visiting := fun hmem => hacyclic txid (hvisiting txid hmem)
    have hcard : (base.keys \ insert txid visiting).card < depth := by
      have hmem : txid ∈ base.keys \ visiting := Finset.mem_sdiff.2 ⟨htxid, hnot⟩
      have herase := Finset.card_erase_lt_of_mem hmem
      rw [← Finset.sdiff_insert] at herase
      omega
    have hloop : ∃ acc, (inputsOf base txid).foldlM (visitParent (oldSetRelatives arith order depth) txid)
        ((pool, insert txid visiting), ∅) = some acc ∧
        ∃ S' E', ParentsDone arith order base S E txid visiting (inputsOf base txid) acc S' E' := by
      refine foldlM_exists (P := fun done acc =>
        ∃ S' E', ParentsDone arith order base S E txid visiting done acc S' E')
        ⟨S, E, h, rfl, Grown.refl S E, by simp, by simp⟩ ?_
      rintro done parent rest acc hsplit ⟨S₁, E₁, hdone⟩
      have hparent : Parent base txid parent := by
        unfold Parent
        rw [hsplit]
        exact List.mem_append_right done List.mem_cons_self
      have hkey : parent ∈ base.keys := hclosed txid parent hparent
      have hfrom : ∀ v ∈ acc.1.2, TransGen (Parent base) v parent := by
        intro v hv
        rw [hdone.visiting_eq] at hv
        rcases Finset.mem_insert.1 hv with rfl | hv
        · exact TransGen.single hparent
        · exact (hvisiting v hv).tail hparent
      rw [← hdone.visiting_eq] at hcard
      obtain ⟨pool₂, S₂, E₂, hvisit, hrelated, hgrown, hmem, -⟩ := ih hdone.related hkey hfrom hcard
      exact hdone.visitParent hparent hkey hvisit hrelated hgrown hmem
    obtain ⟨acc, hacc, S', E', hdone⟩ := hloop
    have hancestors : acc.2 = ancestorsOf base txid := by
      ext a
      rw [hdone.ancestors, mem_ancestorsOf_iff hclosed]
    refine ⟨setAncestors arith order acc.1.1 txid acc.2, insert txid S', E', ?_, ?_, ?_, Set.mem_insert txid S', ?_⟩
    · rw [oldSetRelatives, if_neg hnot, h.inputsOf_eq, hacc, map_some, hdone.visiting_eq,
        Finset.erase_insert hnot]
    · rw [hancestors]
      exact hdone.related.setAncestors txid
    · exact hdone.grown.trans ⟨Set.subset_insert txid S', fun _ _ h => h, fun _ _ h => .inl h⟩
    · exact fun parent hparent => hdone.edges parent hparent

/-- All relatives. -/
def AllRelated (arith : F64.Arith) (order : SetOrder T) (base pool : Pool T O) : Prop :=
  Related arith order base Set.univ (Parent base) pool

lemma Related.allRelated (h : Related arith order base S E pool) (hS : ∀ txid ∈ base.keys, txid ∈ S)
    (hE : ∀ txid ∈ base.keys, ∀ parent, E txid parent ↔ Parent base txid parent) :
    AllRelated arith order base pool :=
  h.congr (fun txid htxid => iff_of_true (hS txid htxid) (Set.mem_univ txid)) hE

lemma oldRelatives_spec (hfresh : ∀ txid tx, base.get txid = some tx → tx.children = ∅)
    (hclosed : InputsClosed base) (hacyclic : Acyclic base) :
    ∃ pool, oldRelatives arith order base = some pool ∧ AllRelated arith order base pool := by
  have hloop : ∃ pool, oldRelatives arith order base = some pool ∧ ∃ S E, Related arith order base S E pool ∧
      Grown base ∅ (fun _ _ => False) S E ∧ ∀ txid ∈ order.toList .pool base.keys, txid ∈ S ∧
        ∀ parent, Parent base txid parent → E txid parent := by
    refine foldlM_exists (P := fun done pool => ∃ S E, Related arith order base S E pool ∧
      Grown base ∅ (fun _ _ => False) S E ∧ ∀ txid ∈ done, txid ∈ S ∧
        ∀ parent, Parent base txid parent → E txid parent)
      ⟨∅, _, related_base hfresh, Grown.refl ∅ _, by simp⟩ ?_
    rintro done txid rest pool hsplit ⟨S, E, hrelated, hgrown, hdone⟩
    have htxid : txid ∈ base.keys := by
      rw [← order.mem_toList .pool, hsplit]
      exact List.mem_append_right done List.mem_cons_self
    have hdepth : (base.keys \ ∅).card < base.card + 1 := by
      rw [Finset.sdiff_empty]
      exact Nat.lt_succ_self _
    obtain ⟨pool', S', E', hset, hrelated', hgrown', hmem, hedges⟩ :=
      oldSetRelatives_spec hclosed hacyclic (base.card + 1) hrelated htxid (by simp) hdepth
    refine ⟨pool', by rw [hset]; rfl, S', E', hrelated', hgrown.trans hgrown', ?_⟩
    intro t ht
    rcases List.mem_append.1 ht with ht | ht
    · exact ⟨hgrown'.subset (hdone t ht).1, fun p hp => hgrown'.edges t p ((hdone t ht).2 p hp)⟩
    · obtain rfl := List.mem_singleton.1 ht
      exact ⟨hmem, hedges⟩
  obtain ⟨pool, hpool, S, E, hrelated, hgrown, hall⟩ := hloop
  refine ⟨pool, hpool, hrelated.allRelated ?_ ?_⟩
  · exact fun txid htxid => (hall txid ((order.mem_toList _ _ _).2 htxid)).1
  · intro txid htxid parent
    refine ⟨fun hedge => ?_, (hall txid ((order.mem_toList _ _ _).2 htxid)).2 parent⟩
    exact (hgrown.parents txid parent hedge).resolve_left id

end
end Espo.Mempool
