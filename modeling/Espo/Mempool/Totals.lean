import Espo.Mempool.StartPools

/-!
# The totals of a transaction, for any parents

Whatever the parents are, also when a transaction depends on itself, `compute_relatives` ends. In the pool it
leaves, the fee, the size and the score of a transaction with its ancestors are those of the ancestors that are
stored with it, and everything it does not compute is as before.
-/

namespace Espo.Mempool
open Lib

variable {T O : Type} [LinearOrder T]

/-- A transaction without what `compute_relatives` stores. -/
def MinerTx.bare (tx : MinerTx T O) : MinerTx T O :=
  { tx with ancestors := ∅, children := ∅, ancestorFee := 0, ancestorVsize := 0, score := .zero }

/-- The totals of a transaction are those of its ancestors. -/
structure Totalled (arith : F64.Arith) (order : SetOrder T) (base : Pool T O) (txid : T) (tx : MinerTx T O) :
    Prop where
  ancestorFee : tx.ancestorFee = (ancestorTotals order base txid tx.ancestors).1
  ancestorVsize : tx.ancestorVsize = max (ancestorTotals order base txid tx.ancestors).2 1
  score : tx.score = arith.ratio tx.ancestorFee tx.ancestorVsize

/-- A pool in which some transactions have their totals. -/
structure Visited (arith : F64.Arith) (order : SetOrder T) (base : Pool T O) (done : Finset T) (pool : Pool T O) :
    Prop where
  bare : ∀ t, (pool.get t).map MinerTx.bare = (base.get t).map MinerTx.bare
  ancestors : ∀ t tx, pool.get t = some tx → tx.ancestors ⊆ base.keys
  totalled : ∀ t ∈ done, ∀ tx, pool.get t = some tx → Totalled arith order base t tx

section
variable {arith : F64.Arith} {order : SetOrder T} {base pool : Pool T O} {done : Finset T}

section
variable (h : Visited arith order base done pool)
include h

lemma Visited.map_eq {α : Type} (f : MinerTx T O → α) (hf : ∀ tx, f tx.bare = f tx) (t : T) :
    (pool.get t).map f = (base.get t).map f := by
  have hcomp : ∀ o : Option (MinerTx T O), (o.map MinerTx.bare).map f = o.map f := fun o => by
    rw [Option.map_map]
    exact Option.map_congr fun tx _ => hf tx
  rw [← hcomp, h.bare t, hcomp]

lemma Visited.keys_eq : pool.keys = base.keys := by
  ext t
  rw [← not_iff_not, Table.notMem_keys, Table.notMem_keys, ← Option.map_eq_none_iff (f := MinerTx.bare), h.bare t,
    Option.map_eq_none_iff]

lemma Visited.ancestorTotals_eq (t : T) (ancestors : Finset T) :
    ancestorTotals order pool t ancestors = ancestorTotals order base t ancestors :=
  ancestorTotals_congr (h.map_eq MinerTx.fee fun _ => rfl) (h.map_eq MinerTx.adjustedVsize fun _ => rfl) t ancestors

lemma Visited.addChild (parent txid : T) :
    Visited arith order base done (addChild pool parent txid) := by
  have hget : ∀ t tx, (Mempool.addChild pool parent txid).get t = some tx →
      ∃ tx' children, pool.get t = some tx' ∧ tx = { tx' with children := children } := by
    intro t tx htx
    rw [Mempool.addChild, Table.get_modify] at htx
    split_ifs at htx
    · obtain ⟨tx', htx', rfl⟩ := Option.map_eq_some_iff.1 htx
      exact ⟨tx', _, htx', rfl⟩
    · exact ⟨tx, _, htx, rfl⟩
  refine ⟨fun t => ?_, fun t tx htx => ?_, fun t ht tx htx => ?_⟩
  · rw [← h.bare t]
    exact Table.map_get_modify pool (fun _ => by rfl) _ t
  · obtain ⟨tx', _, htx', rfl⟩ := hget t tx htx
    exact h.ancestors t tx' htx'
  · obtain ⟨tx', _, htx', rfl⟩ := hget t tx htx
    have htotalled := h.totalled t ht tx' htx'
    exact ⟨htotalled.ancestorFee, htotalled.ancestorVsize, htotalled.score⟩

lemma Visited.linkParents (txid : T) (parents : List T) :
    Visited arith order base done (parents.foldl (linkParent txid) (pool, ∅)).1 ∧
    (parents.foldl (linkParent txid) (pool, ∅)).2 ⊆ base.keys := by
  refine List.foldlRecOn (motive := fun acc : Pool T O × Finset T =>
    Visited arith order base done acc.1 ∧ acc.2 ⊆ base.keys) _ _ ⟨h, Finset.empty_subset _⟩ ?_
  rintro acc ⟨hvisited, hsub⟩ parent -
  unfold linkParent
  cases hget : acc.1.get parent with
  | none => exact ⟨hvisited, hsub⟩
  | some parentTx =>
    refine ⟨hvisited.addChild parent txid, Finset.union_subset (Finset.insert_subset ?_ hsub)
      (hvisited.ancestors parent parentTx hget)⟩
    rw [← hvisited.keys_eq]
    exact Table.mem_keys_of_get hget

lemma Visited.setAncestors (txid : T) {ancestors : Finset T} (hsub : ancestors ⊆ base.keys) :
    Visited arith order base (insert txid done) (setAncestors arith order pool txid ancestors) := by
  unfold Mempool.setAncestors
  rw [h.ancestorTotals_eq]
  refine ⟨fun t => ?_, fun t tx htx => ?_, fun t ht tx htx => ?_⟩
  · rw [← h.bare t]
    exact Table.map_get_modify pool (fun _ => by rfl) _ t
  · rw [Table.get_modify] at htx
    split_ifs at htx
    · obtain ⟨tx', -, rfl⟩ := Option.map_eq_some_iff.1 htx
      exact hsub
    · exact h.ancestors t tx htx
  · rw [Table.get_modify] at htx
    split_ifs at htx with heq
    · obtain ⟨tx', -, rfl⟩ := Option.map_eq_some_iff.1 htx
      subst heq
      exact ⟨rfl, rfl, rfl⟩
    · exact h.totalled t ((Finset.mem_insert.1 ht).resolve_left heq) tx htx

lemma Visited.finalise (txid : T) :
    Visited arith order base (insert txid done) (finalise arith order pool txid) := by
  have hlinked := h.linkParents txid (inputsOf pool txid)
  exact hlinked.1.setAncestors txid hlinked.2

end

lemma computeRelatives_visited (hclosed : InputsClosed base)
    (hfresh : ∀ t tx, base.get t = some tx → tx.ancestors = ∅) :
    ∃ pool, computeRelatives arith order base = some pool ∧ Visited arith order base base.keys pool := by
  have hstart : Visited arith order base ∅ base :=
    ⟨fun _ => rfl, fun t tx htx => by rw [hfresh t tx htx]; exact Finset.empty_subset _, by simp⟩
  have hsteps : RelSteps arith order base fun st => Visited arith order base st.done st.pool :=
    ⟨fun hst _ => hst, fun _ hst _ _ => hst, fun _ hst _ _ _ => hst, fun _ hst _ => hst.finalise _⟩
  obtain ⟨st, hst, hvisited, hall⟩ := computeRelatives_rule hclosed hstart hsteps
  exact ⟨st.pool, hst, hvisited.bare, hvisited.ancestors, fun t ht => hvisited.totalled t (hall t ht)⟩

lemma Visited.plainScores (h : Visited arith order base base.keys pool) : PlainScores pool := by
  intro t tx htx
  have hkey : t ∈ base.keys := by
    rw [← h.keys_eq]
    exact Table.mem_keys_of_get htx
  have htotalled := h.totalled t hkey tx htx
  have hpos : 0 < tx.ancestorVsize := by
    rw [htotalled.ancestorVsize]
    omega
  rw [htotalled.score]
  exact arith.ratio_plain _ _ hpos

end

lemma computeRelatives_startPool (arith : F64.Arith) (order : SetOrder T) (txs : MempoolTxs T O) :
    ∃ pool, computeRelatives arith order (startPool order txs) = some pool ∧
      Visited arith order (startPool order txs) (startPool order txs).keys pool := by
  refine computeRelatives_visited (inputsClosed_of_parent (keys_collectPool _) (parent_startPool order txs)) ?_
  exact fun t tx htx => (fresh_collectPool _ t tx htx).2

end Espo.Mempool
