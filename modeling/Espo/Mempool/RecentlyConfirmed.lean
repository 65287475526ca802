import Espo.Lib.Instances

/-!
# The transactions of the last blocks

A queue of batches and a set of their transaction ids are kept in step: a batch enters both, and when the
queue gets too long its oldest batch leaves both. A transaction of two batches leaves the set with the
older one, although the queue still has it.
-/

namespace Espo.Mempool
open List

/-- `CONFIRMED_BLOCKS_REMEMBERED`. -/
def confirmedBlocksRemembered : ℕ := 12

/-- `RecentlyConfirmed`. -/
structure RecentlyConfirmed (T : Type*) where
  blocks : List (List T)
  txids : Finset T

section Remember
variable {T : Type*} [DecidableEq T]

/-- The `while` loop of `remember_confirmed`. -/
def forgetOldest : List (List T) → Finset T → RecentlyConfirmed T
  | [], txids => ⟨[], txids⟩
  | old :: blocks, txids =>
    if confirmedBlocksRemembered < (old :: blocks).length then
      forgetOldest blocks (old.foldl Finset.erase txids)
    else ⟨old :: blocks, txids⟩

variable (recent : RecentlyConfirmed T)

/-- `remember_confirmed`. -/
def rememberConfirmed (txids : List T) : RecentlyConfirmed T :=
  if txids = [] then recent
  else forgetOldest (recent.blocks ++ [txids]) (txids.foldl (fun s t => insert t s) recent.txids)

/-- `recently_confirmed`. -/
def recentlyConfirmed (txid : T) : Bool := txid ∈ recent.txids

/-- The batches that are not empty. -/
def batchesSeen (batches : List (List T)) : List (List T) := batches.filter (· ≠ [])

variable (l : List (List T))

/-- The transaction is in one of the last batches. -/
def InWindow (txid : T) : Prop :=
  ∃ b ∈ l.drop (l.length - confirmedBlocksRemembered), txid ∈ b

/-- A batch has the transaction, and none that has left the queue when it came or later does. -/
def Retained (txid : T) : Prop :=
  ∃ k b, l[k]? = some b ∧ txid ∈ b ∧ ∀ j b', k ≤ j + confirmedBlocksRemembered →
    j + confirmedBlocksRemembered < l.length → l[j]? = some b' → txid ∉ b'

omit [DecidableEq T] in
lemma Retained.inWindow {l : List (List T)} {txid : T} (h : Retained l txid) : InWindow l txid := by
  obtain ⟨k, b, hget, hmem, hlater⟩ := h
  have hlast : l.length ≤ k + confirmedBlocksRemembered := by
    by_contra hlt
    exact hlater k b (Nat.le_add_right _ _) (by omega) hget hmem
  refine ⟨b, mem_of_getElem? (i := k - (l.length - confirmedBlocksRemembered)) ?_, hmem⟩
  rw [getElem?_drop, Nat.add_sub_cancel' (by omega), hget]

lemma mem_foldl_erase {txid : T} (old : List T) (s : Finset T) :
    txid ∈ old.foldl Finset.erase s ↔ txid ∈ s ∧ txid ∉ old := by
  induction old generalizing s with
  | nil => simp
  | cons t old ih =>
    rw [foldl_cons, ih, Finset.mem_erase, mem_cons]
    tauto

lemma mem_foldl_insert {txid : T} (new : List T) (s : Finset T) :
    txid ∈ new.foldl (fun s t => insert t s) s ↔ txid ∈ s ∨ txid ∈ new := by
  induction new generalizing s with
  | nil => simp
  | cons t new ih =>
    rw [foldl_cons, ih, Finset.mem_insert, mem_cons]
    tauto

/-- The queue has the last batches, and the set what is kept. -/
structure Remembers (l : List (List T)) (recent : RecentlyConfirmed T) : Prop where
  blocks : recent.blocks = l.drop (l.length - confirmedBlocksRemembered)
  txids : ∀ txid, txid ∈ recent.txids ↔ Retained l txid

lemma forgetOldest_of_le {blocks : List (List T)} (h : blocks.length ≤ confirmedBlocksRemembered)
    (txids : Finset T) : forgetOldest blocks txids = ⟨blocks, txids⟩ := by
  cases blocks with
  | nil => rfl
  | cons old blocks => rw [forgetOldest, if_neg h.not_gt]

/-- The loop has at most one batch to forget. -/
lemma forgetOldest_concat (new : List T) (txids : Finset T) :
    let recent := forgetOldest (l.drop (l.length - confirmedBlocksRemembered) ++ [new]) txids
    recent.blocks = (l ++ [new]).drop (l.length + 1 - confirmedBlocksRemembered) ∧
      ∀ txid, txid ∈ recent.txids ↔ txid ∈ txids ∧ ∀ j b,
        j + confirmedBlocksRemembered = l.length → l[j]? = some b → txid ∉ b := by
  have hpos : 0 < confirmedBlocksRemembered := by decide
  by_cases hfull : confirmedBlocksRemembered ≤ l.length
  · obtain ⟨j, hj⟩ := Nat.exists_eq_add_of_le' hfull
    have hlt : j < l.length := by omega
    rw [hj, Nat.add_sub_cancel, drop_eq_getElem_cons hlt, cons_append, forgetOldest,
      if_pos (by simp; omega), forgetOldest_of_le (by simp; omega)]
    refine ⟨?_, fun txid => ?_⟩
    · rw [Nat.add_right_comm, Nat.add_sub_cancel, drop_append_of_le_length hlt]
    · rw [mem_foldl_erase]
      refine and_congr_right fun _ => ⟨fun h i b hi hb => ?_, fun h => h j _ rfl (getElem?_eq_getElem hlt)⟩
      obtain rfl : i = j := by omega
      rw [getElem?_eq_getElem hlt] at hb
      cases hb
      exact h
  · rw [Nat.sub_eq_zero_of_le (by omega), forgetOldest_of_le (by simp; omega),
      Nat.sub_eq_zero_of_le (by omega)]
    exact ⟨rfl, fun txid => ⟨fun h => ⟨h, fun j b hj => absurd hj (by omega)⟩, And.left⟩⟩

lemma Remembers.concat {l : List (List T)} {recent : RecentlyConfirmed T} (h : Remembers l recent)
    {new : List T} (hne : new ≠ []) : Remembers (l ++ [new]) (rememberConfirmed recent new) := by
  rw [rememberConfirmed, if_neg hne, h.blocks]
  obtain ⟨hblocks, htxids⟩ := forgetOldest_concat l new (new.foldl (fun s t => insert t s) recent.txids)
  refine ⟨by rw [hblocks, length_append, length_singleton], fun txid => ?_⟩
  rw [htxids, mem_foldl_insert, h.txids]
  constructor
  · rintro ⟨⟨k, b, hget, hmem, hlater⟩ | hmem, hold⟩
    · have hk := (List.getElem?_eq_some_iff.1 hget).1
      refine ⟨k, b, by rwa [getElem?_append_left hk], hmem, fun j b' hkj hj hb' => ?_⟩
      rw [length_append, length_singleton] at hj
      rw [getElem?_append_left (by unfold confirmedBlocksRemembered at hj; omega)] at hb'
      rcases Nat.lt_succ_iff_lt_or_eq.1 hj with hj | hj
      exacts [hlater j b' hkj hj hb', hold j b' hj hb']
    · refine ⟨l.length, new, by simp, hmem, fun j b' hkj hj hb' => ?_⟩
      rw [length_append, length_singleton] at hj
      rw [getElem?_append_left (by unfold confirmedBlocksRemembered at hj; omega)] at hb'
      exact hold j b' (by omega) hb'
  · rintro ⟨k, b, hget, hmem, hlater⟩
    simp only [length_append, length_singleton] at hlater
    have hold : ∀ j b', k ≤ j + confirmedBlocksRemembered → j + confirmedBlocksRemembered ≤ l.length →
        l[j]? = some b' → txid ∉ b' := fun j b' hkj hj hb' =>
      hlater j b' hkj (by omega) (by rwa [getElem?_append_left (List.getElem?_eq_some_iff.1 hb').1])
    rcases lt_trichotomy k l.length with hk | rfl | hk
    · rw [getElem?_append_left hk] at hget
      exact ⟨.inl ⟨k, b, hget, hmem, fun j b' hkj hj => hold j b' hkj hj.le⟩,
        fun j b' hj => hold j b' (by omega) hj.le⟩
    · obtain rfl : new = b := by simpa using hget
      exact ⟨.inr hmem, fun j b' hj => hold j b' hj.ge hj.le⟩
    · rw [getElem?_eq_none (by simp; omega)] at hget
      cases hget

/-- Whatever batches come, the answer about a transaction is right exactly when a batch that has it keeps
it, if one of the last batches has it at all. -/
theorem recentlyConfirmed_exact_iff (batches : List (List T)) (txid : T) :
    (recentlyConfirmed (batches.foldl rememberConfirmed ⟨[], ∅⟩) txid = true ↔
        InWindow (batchesSeen batches) txid) ↔
      (InWindow (batchesSeen batches) txid → Retained (batchesSeen batches) txid) := by
  have hremembers : Remembers (batchesSeen batches) (batches.foldl rememberConfirmed ⟨[], ∅⟩) := by
    induction batches using List.reverseRecOn with
    | nil => exact ⟨rfl, fun txid => by simp [Retained, batchesSeen]⟩
    | append_singleton batches new ih =>
      rw [batchesSeen, filter_append, ← batchesSeen]
      by_cases hnil : new = []
      · simpa [hnil, rememberConfirmed] using ih
      · simpa [hnil] using ih.concat hnil
  rw [recentlyConfirmed, decide_eq_true_eq, hremembers.txids]
  exact ⟨fun h => h.2, fun h => ⟨Retained.inWindow, h⟩⟩

/-- A transaction that comes again when its first batch leaves is forgotten. -/
theorem recentlyConfirmed_forgets :
    let batches := [0] :: replicate 11 [1] ++ [[0]]
    InWindow (batchesSeen batches) 0 ∧
      recentlyConfirmed (batches.foldl rememberConfirmed ⟨[], ∅⟩) 0 = false := by
  refine ⟨⟨[0], ?_, ?_⟩, ?_⟩ <;> decide

end Remember

end Espo.Mempool
