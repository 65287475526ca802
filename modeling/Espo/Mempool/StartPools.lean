import Espo.Mempool.Queues
import Espo.Mempool.RelativesStack

/-!
# The pools the templates start from

Both versions collect the transactions of the mempool with their parents in it. The one in use lists a parent
once, the reference once for each input. What a parent is in the mempool is `InPoolParent`: the pools have it as
their `Parent`, so the relatives of the two versions agree in everything but the lists of inputs.
-/

namespace Espo.Mempool
open Lib Relation

variable {T O : Type} [LinearOrder T]

/-- A parent that is in the mempool too. -/
def InPoolParent (txs : MempoolTxs T O) (txid parent : T) : Prop :=
  ∃ tx, txs.get txid = some tx ∧ parent ∈ tx.inputs ∧ parent ∈ txs.keys

section
variable {order : SetOrder T} {txs : MempoolTxs T O}

lemma get_collectPool (inputs : MempoolTransactionStruct T O → List T) (t : T) :
    (collectPool order txs inputs).get t = (txs.get t).map fun tx => minerTx tx (inputs tx) := by
  have hloop : ∀ step : Pool T O → T → Pool T O, (∀ pool a, (step pool a).get t
      = if t = a then ((txs.get t).map fun tx => minerTx tx (inputs tx)).or (pool.get t) else pool.get t) →
      ∀ (l : List T) (pool : Pool T O), (l.foldl step pool).get t
      = if t ∈ l then ((txs.get t).map fun tx => minerTx tx (inputs tx)).or (pool.get t) else pool.get t := by
    intro step hstep l
    induction l with
    | nil => simp
    | cons a l ih =>
      intro pool
      rw [List.foldl_cons, ih, hstep]
      by_cases heq : t = a
      · subst heq
        cases txs.get t <;> simp
      · simp [heq]
  refine (hloop _ (fun pool a => ?_) (order.toList .pool txs.keys) ∅).trans ?_
  · by_cases heq : t = a
    · subst heq
      cases txs.get t <;> simp
    · cases txs.get a <;> simp [heq, Table.get_put]
  by_cases hkey : t ∈ txs.keys
  · rw [if_pos ((order.mem_toList _ _ _).2 hkey), Table.get_empty, Option.or_none]
  · rw [if_neg fun h => hkey ((order.mem_toList _ _ _).1 h), Table.notMem_keys.1 hkey]
    rfl

lemma mem_poolParents {inputs : List T} {seen : Finset T} {parent : T} :
    parent ∈ poolParents txs inputs seen ↔ parent ∈ inputs ∧ parent ∈ txs.keys ∧ parent ∉ seen := by
  induction inputs generalizing seen with
  | nil => simp [poolParents]
  | cons a inputs ih =>
    have hkeys : (txs.get a).isSome = true ↔ a ∈ txs.keys := by
      rw [Option.isSome_iff_exists, Table.mem_keys]
    rw [poolParents]
    split_ifs with htake <;> rw [Bool.and_eq_true, hkeys, decide_eq_true_eq] at htake
    · rw [List.mem_cons, ih, Finset.mem_insert]
      by_cases heq : parent = a
      · subst heq
        simp [htake]
      · simp [heq]
    · rw [ih]
      by_cases heq : parent = a
      · subst heq
        simp [htake]
      · simp [heq]

lemma parent_collectPool {inputs : MempoolTransactionStruct T O → List T}
    (hinputs : ∀ tx parent, parent ∈ inputs tx ↔ parent ∈ tx.inputs ∧ parent ∈ txs.keys) (t parent : T) :
    Parent (collectPool order txs inputs) t parent ↔ InPoolParent txs t parent := by
  unfold Parent inputsOf InPoolParent
  rw [get_collectPool]
  cases txs.get t with
  | none => simp
  | some tx => simp [minerTx, hinputs]

variable (order txs) in
lemma parent_startPool (t parent : T) : Parent (startPool order txs) t parent ↔ InPoolParent txs t parent :=
  parent_collectPool (fun tx parent => by rw [mem_poolParents]; simp) t parent

variable (order txs) in
lemma parent_oldStartPool (t parent : T) :
    Parent (oldStartPool order txs) t parent ↔ InPoolParent txs t parent :=
  parent_collectPool (fun tx parent => by
    rw [List.mem_filter, Option.isSome_iff_exists, Table.mem_keys]) t parent

variable (inputs : MempoolTransactionStruct T O → List T)

lemma keys_collectPool : (collectPool order txs inputs).keys = txs.keys := by
  ext t
  rw [Table.mem_keys, Table.mem_keys, get_collectPool]
  simp

lemma fresh_collectPool (t : T) (tx : MinerTx T O)
    (h : (collectPool order txs inputs).get t = some tx) : tx.children = ∅ ∧ tx.ancestors = ∅ := by
  rw [get_collectPool, Option.map_eq_some_iff] at h
  obtain ⟨_, -, rfl⟩ := h
  exact ⟨rfl, rfl⟩

lemma inputsClosed_of_parent {base : Pool T O} (hkeys : base.keys = txs.keys)
    (hparent : ∀ t parent, Parent base t parent ↔ InPoolParent txs t parent) : InputsClosed base := by
  intro t parent h
  obtain ⟨_, -, -, hkey⟩ := (hparent t parent).1 h
  rw [hkeys]
  exact hkey

lemma acyclic_of_parent {base : Pool T O} (hparent : ∀ t parent, Parent base t parent ↔ InPoolParent txs t parent)
    (hacyclic : ∀ t, ¬ TransGen (InPoolParent txs) t t) : Acyclic base := by
  have heq : Parent base = InPoolParent txs := funext₂ fun t parent => propext (hparent t parent)
  unfold Acyclic
  rw [heq]
  exact hacyclic

end

/-! ## The relatives of both pools -/

section
variable {arith : F64.Arith} {order : SetOrder T}

lemma AllRelated.plainScores {base pool : Pool T O} (h : AllRelated arith order base pool) : PlainScores pool := by
  intro t tx htx
  rw [h t, Option.map_eq_some_iff] at htx
  obtain ⟨tx', -, rfl⟩ := htx
  rw [relate, if_pos (Set.mem_univ t)]
  exact arith.ratio_plain _ _ (by omega)

lemma AllRelated.samePool {base₁ base₂ pool₁ pool₂ : Pool T O} (h₁ : AllRelated arith order base₁ pool₁)
    (h₂ : AllRelated arith order base₂ pool₂) (hbase : SamePool base₁ base₂)
    (hparent : ∀ t parent, Parent base₁ t parent ↔ Parent base₂ t parent) : SamePool pool₁ pool₂ := by
  have heq : Parent base₁ = Parent base₂ := funext₂ fun t parent => propext (hparent t parent)
  have hancestors : ancestorsOf base₁ = ancestorsOf base₂ := by
    funext t
    rw [ancestorsOf, ancestorsOf, heq, hbase.keys_eq]
  have hedges : edgesTo base₁ (Parent base₁) = edgesTo base₂ (Parent base₂) := by
    funext t
    rw [edgesTo, edgesTo, heq, hbase.keys_eq]
  have hfee := hbase.map_eq MinerTx.fee fun _ _ => rfl
  have hvsize := hbase.map_eq MinerTx.adjustedVsize fun _ _ => rfl
  have htotals : ∀ t A, ancestorTotals order base₁ t A = ancestorTotals order base₂ t A :=
    ancestorTotals_congr hfee hvsize
  intro t
  rw [h₁ t, h₂ t]
  rcases hbase.cases t with ⟨ht₁, ht₂⟩ | ⟨tx, i, j, ht₁, ht₂⟩
  · rw [ht₁, ht₂]
    rfl
  · rw [ht₁, ht₂]
    simp only [Option.map_some, relate, Set.mem_univ, hancestors, hedges, htotals]
    rfl

lemma samePool_start (txs : MempoolTxs T O) : SamePool (startPool order txs) (oldStartPool order txs) := by
  intro t
  rw [startPool, oldStartPool, get_collectPool, get_collectPool]
  cases txs.get t with
  | none => rfl
  | some tx => rfl

end

/-! ## A small mempool -/

/-- Sorted sets. -/
def sortedOrder : SetOrder ℕ where
  toList _ s := s.sort (· ≤ ·)
  nodup _ s := s.sort_nodup (· ≤ ·)
  mem_toList _ _ _ := Finset.mem_sort _

/-- An arithmetic in which all scores are zero. -/
def zeroArith : F64.Arith where
  ratio _ _ := .zero
  min a _ := a
  ratio_plain _ _ _ := F64.zero_plain

/-- A transaction and one that spends its output. -/
def smallMempool : MempoolTxs ℕ ℕ :=
  ((∅ : MempoolTxs ℕ ℕ).put 1 ⟨500, 400, 100, .zero, [0], [10]⟩).put 2 ⟨900, 800, 200, .zero, [1], [20]⟩

lemma inPoolParent_smallMempool {t parent : ℕ} (h : InPoolParent smallMempool t parent) : parent < t := by
  obtain ⟨tx, hget, hinput, hkey⟩ := h
  rw [Table.mem_keys] at hkey
  obtain ⟨tx', hget'⟩ := hkey
  simp only [smallMempool, Table.get_put] at hget hget'
  split_ifs at hget with h₁ h₂ <;> split_ifs at hget' with h₃ h₄ <;> simp_all <;> subst_vars <;> simp_all

lemma smallMempool_acyclic (t : ℕ) : ¬ TransGen (InPoolParent smallMempool) t t := by
  intro h
  have hlt : ∀ {a b : ℕ}, TransGen (InPoolParent smallMempool) a b → b < a := by
    intro a b hab
    induction hab with
    | single hab => exact inPoolParent_smallMempool hab
    | tail _ hbc ih => exact (inPoolParent_smallMempool hbc).trans ih
  exact lt_irrefl t (hlt h)

/-- The stack of `compute_relatives` finds the ancestors and the children of every transaction of the mempool. -/
theorem computeRelatives_exact (arith : F64.Arith) (order : SetOrder T) (txs : MempoolTxs T O)
    (hacyclic : ∀ t, ¬ TransGen (InPoolParent txs) t t) :
    ∃ pool, computeRelatives arith order (startPool order txs) = some pool ∧
      ∀ t ∈ txs.keys, ∃ tx, pool.get t = some tx ∧
        ∀ a, (a ∈ tx.ancestors ↔ TransGen (InPoolParent txs) t a) ∧ (a ∈ tx.children ↔ InPoolParent txs a t) := by
  have hparent := parent_startPool order txs
  have heq : Parent (startPool order txs) = InPoolParent txs := funext₂ fun t p => propext (hparent t p)
  have hclosed := inputsClosed_of_parent (keys_collectPool _) hparent
  obtain ⟨pool, hpool, hrelated⟩ := computeRelatives_spec
    (fun t tx h => (fresh_collectPool _ t tx h).1) hclosed (acyclic_of_parent hparent hacyclic)
  rw [startPool] at heq
  refine ⟨pool, hpool, fun t ht => ?_⟩
  rw [← keys_collectPool, Table.mem_keys] at ht
  obtain ⟨tx, htx⟩ := ht
  refine ⟨_, (hrelated t).trans (congrArg _ htx), fun a => ?_⟩
  rw [relate, if_pos (Set.mem_univ t), mem_ancestorsOf hclosed, mem_edgesTo, heq]
  exact ⟨.rfl, and_iff_right_of_imp fun h => mem_keys_of_parent ((hparent a t).2 h)⟩

theorem computeRelatives_exact_small :
    ∃ pool, computeRelatives zeroArith sortedOrder (startPool sortedOrder smallMempool) = some pool ∧
      ∃ tx, pool.get 2 = some tx ∧ 1 ∈ tx.ancestors := by
  obtain ⟨pool, hpool, h⟩ := computeRelatives_exact zeroArith sortedOrder smallMempool smallMempool_acyclic
  obtain ⟨tx, htx, hrel⟩ := h 2 (by decide +kernel)
  exact ⟨pool, hpool, tx, htx, (hrel 1).1.2 (.single ⟨_, rfl, by decide, by decide +kernel⟩)⟩

end Espo.Mempool
