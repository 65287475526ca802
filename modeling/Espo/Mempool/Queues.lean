import Espo.Mempool.Templates

/-!
# The two queues of modified transactions

`ModifiedQueue` behaves as the vector of the reference: `QueueRel` says that a transaction is counted as often
as it is in the vector, and that the heap has an entry with the present score of everything that is in it. An
entry that is left on top after cleaning is valid, and it is the best of all entries, so its transaction is what
the sorted vector begins with.

The two versions have pools that differ in `inputs` (`SamePool`), which is not read after the relatives are
known.
-/

namespace Espo.Mempool
open Lib List

variable {T O : Type} [LinearOrder T]

/-! ## Pools that differ in the inputs -/

/-- A transaction with other inputs. -/
def MinerTx.withInputs (tx : MinerTx T O) (inputs : List T) : MinerTx T O := { tx with inputs := inputs }

/-- The pools differ in the inputs only. -/
def SamePool (p q : Pool T O) : Prop :=
  ∀ t, (p.get t).map (MinerTx.withInputs · []) = (q.get t).map (MinerTx.withInputs · [])

section
variable {p q : Pool T O}

section
variable (h : SamePool p q)
include h

lemma SamePool.cases (t : T) :
    (p.get t = none ∧ q.get t = none) ∨
    ∃ tx i j, p.get t = some (MinerTx.withInputs tx i) ∧ q.get t = some (MinerTx.withInputs tx j) := by
  have ht := h t
  cases hp : p.get t with
  | none =>
    rw [hp, Option.map_none, eq_comm, Option.map_eq_none_iff] at ht
    exact .inl ⟨rfl, ht⟩
  | some a =>
    rw [hp, Option.map_some, eq_comm, Option.map_eq_some_iff] at ht
    obtain ⟨b, hb, heq⟩ := ht
    refine .inr ⟨MinerTx.withInputs a [], a.inputs, b.inputs, rfl, ?_⟩
    rw [hb, ← heq]
    rfl

lemma SamePool.map_eq {α : Type} (f : MinerTx T O → α)
    (hf : ∀ tx i, f (MinerTx.withInputs tx i) = f tx) (t : T) :
    (p.get t).map f = (q.get t).map f := by
  rcases h.cases t with ⟨hp, hq⟩ | ⟨tx, i, j, hp, hq⟩
  · rw [hp, hq]
  · rw [hp, hq, Option.map_some, Option.map_some, hf, hf]

lemma SamePool.put (t : T) (tx : MinerTx T O) (i j : List T) :
    SamePool (p.put t (MinerTx.withInputs tx i)) (q.put t (MinerTx.withInputs tx j)) := by
  intro t'
  rw [Table.get_put, Table.get_put]
  split_ifs
  · rfl
  · exact h t'

lemma SamePool.keys_eq : p.keys = q.keys := by
  ext t
  rw [← not_iff_not, Table.notMem_keys, Table.notMem_keys]
  rcases h.cases t with ⟨hp, hq⟩ | ⟨tx, i, j, hp, hq⟩
  · rw [hp, hq]
  · rw [hp, hq]
    exact iff_of_false (by simp) (by simp)

lemma SamePool.scoreOf_eq (t : T) : scoreOf p t = scoreOf q t := by
  rw [scoreOf, scoreOf, h.map_eq MinerTx.score fun _ _ => rfl]

lemma SamePool.sortByScore_eq (txids : List T) : sortByScore p txids = sortByScore q txids := by
  have hcmp : scoreCmp p = scoreCmp q := by
    funext a b
    rw [scoreCmp, scoreCmp, h.scoreOf_eq, h.scoreOf_eq]
  rw [sortByScore, sortByScore, hcmp]

end

end

/-! ## The order of entries -/

namespace ModifiedEntry

variable {a b : ModifiedEntry T}

lemma cmp_eq_lt_iff : a.cmp b = .lt ↔
    a.score.totalKey < b.score.totalKey ∨ a.score.totalKey = b.score.totalKey ∧ b.txid < a.txid := by
  rw [ModifiedEntry.cmp, Ordering.then_eq_lt, F64.totalCmp, compare_lt_iff_lt, compare_eq_iff_eq,
    compare_lt_iff_lt]

lemma cmp_eq_eq_iff : a.cmp b = .eq ↔ a = b := by
  rw [ModifiedEntry.cmp, Ordering.then_eq_eq, F64.totalCmp, compare_eq_iff_eq, compare_eq_iff_eq]
  constructor
  · rintro ⟨hkey, htxid⟩
    cases a
    cases b
    simp only [ModifiedEntry.mk.injEq]
    exact ⟨F64.totalKey_injective hkey, htxid.symm⟩
  · rintro rfl
    exact ⟨rfl, rfl⟩

/-- The entry is not smaller than the other: the order of the heap. -/
def Before (a b : ModifiedEntry T) : Prop := a.cmp b ≠ .lt

instance : DecidableRel (Before (T := T)) := fun _ _ => instDecidableNot

lemma before_iff : Before a b ↔
    b.score.totalKey < a.score.totalKey ∨ a.score.totalKey = b.score.totalKey ∧ a.txid ≤ b.txid := by
  rw [Before, ne_eq, cmp_eq_lt_iff]
  by_cases hkey : a.score.totalKey = b.score.totalKey
  · simp [hkey]
  · omega

instance : Std.Total (Before (T := T)) where
  total a b := by
    rw [before_iff, before_iff]
    rcases lt_trichotomy a.score.totalKey b.score.totalKey with hlt | heq | hgt
    · exact .inr (.inl hlt)
    · exact (le_total a.txid b.txid).imp (fun h => .inr ⟨heq, h⟩) fun h => .inr ⟨heq.symm, h⟩
    · exact .inl (.inl hgt)

instance : IsTrans (ModifiedEntry T) Before where
  trans a b c := by
    rw [before_iff, before_iff, before_iff]
    rintro (h₁ | ⟨h₁, h₁'⟩) (h₂ | ⟨h₂, h₂'⟩)
    · exact .inl (h₂.trans h₁)
    · exact .inl (h₂ ▸ h₁)
    · exact .inl (h₁ ▸ h₂)
    · exact .inr ⟨h₁.trans h₂, h₁'.trans h₂'⟩

lemma before_antisymm (h₁ : Before a b) (h₂ : Before b a) : a.txid = b.txid := by
  rw [before_iff] at h₁ h₂
  rcases h₁ with h₁ | ⟨h₁, h₁'⟩
  · rcases h₂ with h₂ | ⟨h₂, -⟩ <;> omega
  · rcases h₂ with h₂ | ⟨-, h₂'⟩
    · omega
    · exact le_antisymm h₁' h₂'

end ModifiedEntry

/-! ## The order of the vector -/

/-- The scores are quotients. -/
def PlainScores (pool : Pool T O) : Prop := ∀ t tx, pool.get t = some tx → tx.score.Plain

/-- The entry of a transaction at its present score. -/
def entryOf (pool : Pool T O) (t : T) : ModifiedEntry T := ⟨scoreOf pool t, t⟩

section
variable {pool : Pool T O}

lemma PlainScores.scoreOf (h : PlainScores pool) (t : T) : (scoreOf pool t).Plain := by
  unfold Mempool.scoreOf
  cases hget : pool.get t with
  | none => exact F64.zero_plain
  | some tx => exact h t tx hget

lemma scoreOf_of_get {t : T} {tx : MinerTx T O} (h : pool.get t = some tx) : scoreOf pool t = tx.score := by
  rw [scoreOf, h]
  rfl

lemma length_sortByScore (pool : Pool T O) (l : List T) : (sortByScore pool l).length = l.length :=
  (perm_insertionSort _ l).length_eq

lemma PlainScores.scoreCmp_iff (h : PlainScores pool) (a b : T) :
    scoreCmp pool a b ≠ .gt ↔ (entryOf pool a).Before (entryOf pool b) := by
  have hcmp : scoreCmp pool a b = (entryOf pool b).cmp (entryOf pool a) := by
    rw [scoreCmp, (h.scoreOf b).partialCmp (h.scoreOf a), ModifiedEntry.cmp, entryOf, entryOf,
      (h.scoreOf b).totalCmp (h.scoreOf a)]
    rfl
  have hswap : (entryOf pool b).cmp (entryOf pool a) = ((entryOf pool a).cmp (entryOf pool b)).swap := by
    have hkey : compare (entryOf pool b).score.totalKey (entryOf pool a).score.totalKey
        = (compare (entryOf pool a).score.totalKey (entryOf pool b).score.totalKey).swap :=
      Std.OrientedCmp.eq_swap
    have htxid : compare (entryOf pool a).txid (entryOf pool b).txid
        = (compare (entryOf pool b).txid (entryOf pool a).txid).swap := Std.OrientedCmp.eq_swap
    rw [ModifiedEntry.cmp, ModifiedEntry.cmp, Ordering.swap_then, F64.totalCmp, F64.totalCmp, hkey, htxid]
  rw [hcmp, hswap, ModifiedEntry.Before]
  cases (entryOf pool a).cmp (entryOf pool b) <;> simp

lemma PlainScores.pairwise_sortByScore (h : PlainScores pool) (l : List T) :
    (sortByScore pool l).Pairwise fun a b => (entryOf pool a).Before (entryOf pool b) := by
  have htotal : Std.Total fun a b => scoreCmp pool a b ≠ .gt :=
    ⟨fun a b => by rw [h.scoreCmp_iff, h.scoreCmp_iff]; exact Std.Total.total _ _⟩
  have htrans : IsTrans T fun a b => scoreCmp pool a b ≠ .gt :=
    ⟨fun a b c => by rw [h.scoreCmp_iff, h.scoreCmp_iff, h.scoreCmp_iff]; exact IsTrans.trans _ _ _⟩
  exact (pairwise_insertionSort _ l).imp fun {a b} hab => (h.scoreCmp_iff a b).1 hab

end

/-! ## The queues -/

lemma mem_dropWhile_of_eq_false {α : Type} {p : α → Bool} {l : List α} {a : α} (hmem : a ∈ l)
    (hp : p a = false) : a ∈ l.dropWhile p := by
  induction l with
  | nil => exact hmem
  | cons b l ih =>
    rw [dropWhile_cons]
    split_ifs with hb
    · rcases mem_cons.1 hmem with rfl | hmem
      · rw [hp] at hb
        cases hb
      · exact ih hmem
    · exact hmem

/-- The heap and the vector have the same transactions. -/
structure QueueRel (pool : Pool T O) (q : ModifiedQueue T) (l : List T) : Prop where
  count : ∀ t, q.countOf t = l.count t
  inPool : ∀ t ∈ l, ∃ tx, pool.get t = some tx
  entry : ∀ t ∈ l, entryOf pool t ∈ q.heap
  sorted : q.heap.Pairwise ModifiedEntry.Before

namespace QueueRel
variable {pool : Pool T O} {q : ModifiedQueue T} {l l' : List T}

lemma empty (pool : Pool T O) : QueueRel pool .empty [] :=
  ⟨fun _ => rfl, by simp, by simp, List.Pairwise.nil⟩

section
variable (h : QueueRel pool q l)
include h

lemma perm (hperm : l'.Perm l) : QueueRel pool q l' :=
  ⟨fun t => (h.count t).trans (hperm.count_eq t).symm, fun t ht => h.inPool t (hperm.mem_iff.1 ht),
    fun t ht => h.entry t (hperm.mem_iff.1 ht), h.sorted⟩

lemma isValid_iff (e : ModifiedEntry T) :
    q.isValid e pool = true ↔ e.txid ∈ l ∧ e = entryOf pool e.txid := by
  rw [ModifiedQueue.isValid, Bool.and_eq_true, decide_eq_true_eq, h.count, count_pos_iff]
  refine and_congr_right fun hmem => ?_
  obtain ⟨tx, htx⟩ := h.inPool _ hmem
  have hscore := scoreOf_of_get htx
  rw [htx, Option.map_some, Option.getD_some, ← hscore]
  cases e
  simp [entryOf, eq_comm]

lemma clean : QueueRel pool (q.clean pool) l where
  count := h.count
  inPool := h.inPool
  entry t ht := by
    have hvalid : q.isValid (entryOf pool t) pool = true := (h.isValid_iff _).2 ⟨ht, rfl⟩
    exact mem_dropWhile_of_eq_false (h.entry t ht) (by rw [hvalid]; rfl)
  sorted := h.sorted.sublist (dropWhile_sublist _)

lemma clean_heap_cons {e : ModifiedEntry T} {heap : List (ModifiedEntry T)}
    (hheap : (q.clean pool).heap = e :: heap) : e.txid ∈ l ∧ e = entryOf pool e.txid := by
  rw [← h.isValid_iff]
  have hhead := head?_dropWhile_not (fun e => !q.isValid e pool) q.heap
  have hdrop : q.heap.dropWhile (fun e => !q.isValid e pool) = e :: heap := hheap
  rw [hdrop] at hhead
  simpa using hhead

lemma clean_heap_eq_nil_iff : (q.clean pool).heap = [] ↔ l = [] := by
  constructor
  · intro hnil
    rw [eq_nil_iff_forall_not_mem]
    intro t ht
    have hmem := h.clean.entry t ht
    rw [hnil] at hmem
    exact not_mem_nil hmem
  · rintro rfl
    cases hheap : (q.clean pool).heap with
    | nil => rfl
    | cons e heap => exact absurd (h.clean_heap_cons hheap).1 not_mem_nil

lemma isEmpty : (q.isEmpty pool).1 = l.isEmpty ∧ QueueRel pool (q.isEmpty pool).2 l := by
  refine ⟨?_, h.clean⟩
  rw [Bool.eq_iff_iff, List.isEmpty_iff, ← h.clean_heap_eq_nil_iff]
  exact List.isEmpty_iff

section
variable (hsorted : l.Pairwise fun a b => (entryOf pool a).Before (entryOf pool b))
include hsorted

lemma top {t : T} {rest : List T} (hl : l = t :: rest) :
    ∃ heap, (q.clean pool).heap = entryOf pool t :: heap := by
  cases hheap : (q.clean pool).heap with
  | nil =>
    rw [h.clean_heap_eq_nil_iff, hl] at hheap
    cases hheap
  | cons e heap =>
    obtain ⟨hmem, he⟩ := h.clean_heap_cons hheap
    have hfirst : e.Before (entryOf pool t) := by
      have hin := h.clean.entry t (hl ▸ mem_cons_self)
      have hpair := h.clean.sorted
      rw [hheap] at hin hpair
      rcases mem_cons.1 hin with heq | hin
      · rw [heq]
        exact Std.Refl.refl _
      · exact (pairwise_cons.1 hpair).1 _ hin
    have hsecond : (entryOf pool t).Before e := by
      rw [he]
      rw [hl] at hsorted hmem
      rcases mem_cons.1 hmem with heq | hmem
      · rw [heq]
        exact Std.Refl.refl _
      · exact (pairwise_cons.1 hsorted).1 _ hmem
    have htxid : e.txid = t := ModifiedEntry.before_antisymm hfirst hsecond
    exact ⟨heap, by rw [he, htxid]⟩

lemma peek : (q.peek pool).1 = l.head? ∧ QueueRel pool (q.peek pool).2 l := by
  refine ⟨?_, h.clean⟩
  cases hl : l with
  | nil =>
    have hnil := h.clean_heap_eq_nil_iff.2 hl
    simp only [ModifiedQueue.peek, hnil]
    rfl
  | cons t rest =>
    obtain ⟨heap, hheap⟩ := h.top hsorted hl
    simp only [ModifiedQueue.peek, hheap]
    rfl

end

end

lemma heap_pushEntry {t : T} {tx : MinerTx T O} (htx : pool.get t = some tx) (q : ModifiedQueue T) :
    (q.pushEntry t pool).count = q.count ∧
    (∀ e, e ∈ (q.pushEntry t pool).heap ↔ e = entryOf pool t ∨ e ∈ q.heap) ∧
    (q.heap.Pairwise ModifiedEntry.Before → (q.pushEntry t pool).heap.Pairwise ModifiedEntry.Before) := by
  have hentry : (⟨tx.score, t⟩ : ModifiedEntry T) = entryOf pool t := by rw [entryOf, scoreOf_of_get htx]
  have hpush : q.pushEntry t pool = { q with heap := q.heap.orderedInsert ModifiedEntry.Before (entryOf pool t) } := by
    simp only [ModifiedQueue.pushEntry, htx, hentry]
    rfl
  rw [hpush]
  exact ⟨rfl, fun e => mem_orderedInsert _, fun hsorted => hsorted.orderedInsert _ _⟩

lemma pop (h : QueueRel pool q l) (hsorted : l.Pairwise fun a b => (entryOf pool a).Before (entryOf pool b)) :
    QueueRel pool (q.pop pool) l.tail := by
  cases hl : l with
  | nil =>
    have hnil := h.clean_heap_eq_nil_iff.2 hl
    have hpop : q.pop pool = q.clean pool := by simp only [ModifiedQueue.pop, hnil]
    rw [hpop, tail_nil, ← hl]
    exact h.clean
  | cons t rest =>
    obtain ⟨heap, hheap⟩ := h.top hsorted hl
    obtain ⟨tx, htx⟩ := h.inPool t (hl ▸ mem_cons_self)
    have hcount : q.countOf t = rest.count t + 1 := by rw [h.count, hl, count_cons_self]
    -- What is left when the entries of `t` are gone.
    set left := heap.dropWhile fun e => decide (e.cmp (entryOf pool t) = .eq) with hleft
    have hrest : ∀ t' ∈ rest, t' ≠ t → entryOf pool t' ∈ left := by
      intro t' ht' hne
      have hne' : entryOf pool t' ≠ entryOf pool t := fun heq => hne (congrArg ModifiedEntry.txid heq)
      have hmem := h.clean.entry t' (hl ▸ mem_cons_of_mem t ht')
      rw [hheap] at hmem
      refine mem_dropWhile_of_eq_false ((mem_cons.1 hmem).resolve_left hne') ?_
      rw [decide_eq_false_iff_not, ModifiedEntry.cmp_eq_eq_iff]
      exact hne'
    have hpair : left.Pairwise ModifiedEntry.Before := by
      have hpair := h.clean.sorted
      rw [hheap] at hpair
      exact (pairwise_cons.1 hpair).2.sublist (dropWhile_sublist _)
    have hcounts : ∀ t', (((q.count.put t (rest.count t)).get t').getD 0) = rest.count t' := by
      intro t'
      rw [Table.get_put]
      split_ifs with heq
      · rw [heq, Option.getD_some]
      · have hother := h.count t'
        rw [hl, count_cons_of_ne (Ne.symm heq)] at hother
        exact hother
    have hpop : q.pop pool = if 0 < rest.count t then
        ModifiedQueue.pushEntry ⟨left, q.count.put t (rest.count t)⟩ t pool
        else ⟨left, q.count.put t (rest.count t)⟩ := by
      have hclean : (q.clean pool).countOf t - 1 = rest.count t := by
        have hsame : (q.clean pool).countOf t = q.countOf t := rfl
        omega
      have htxid : (entryOf pool t).txid = t := rfl
      simp only [ModifiedQueue.pop, hheap, htxid, hclean]
      rfl
    have hinPool : ∀ t' ∈ rest, ∃ tx, pool.get t' = some tx := fun t' ht' =>
      h.inPool t' (hl ▸ mem_cons_of_mem t ht')
    rw [hpop]
    split_ifs with hmore
    · obtain ⟨hcountEq, hmem, hkeep⟩ := heap_pushEntry htx ⟨left, q.count.put t (rest.count t)⟩
      refine ⟨fun t' => ?_, hinPool, fun t' ht' => (hmem _).2 ?_, hkeep hpair⟩
      · rw [ModifiedQueue.countOf, hcountEq]
        exact hcounts t'
      · by_cases hne : t' = t
        · exact .inl (by rw [hne])
        · exact .inr (hrest t' ht' hne)
    · refine ⟨hcounts, hinPool, fun t' ht' => hrest t' ht' ?_, hpair⟩
      rintro rfl
      exact hmore (count_pos_iff.2 ht')

end QueueRel

end Espo.Mempool
