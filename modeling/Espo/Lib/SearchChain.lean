import Espo.Lib.Instances

/-!
# Separator chains of search trees

The children of an internal node of a search tree and the separators between them. A child between
two separators is responsible for the half-open key range they bound; the outermost bounds come from
the enclosing nodes and are absent (`⊥`, `⊤`) at the edges of the tree.

`Chain P lo hi ks cs m` says that the separators `ks` cut `[lo, hi)` into the ranges of the children
`cs`, that `P` holds of each child with its range and its entries, and that `m` is the concatenation
of those entries.
-/

namespace Lib

open List
variable {K N E : Type*} [LinearOrder K]

/-- The key lies in the half-open range from `lo` to `hi`. -/
def InRange (lo : WithBot K) (hi : WithTop K) (k : K) : Prop := lo ≤ k ∧ k < hi

/-- The index of the first separator above a key (the number of separators at or below it). -/
def upperBound (ks : List K) (k : K) : ℕ := (ks.takeWhile (· ≤ k)).length

/-- Children `cs` separated by `ks`, each satisfying `P` within its own range. -/
inductive Chain (P : WithBot K → WithTop K → N → List E → Prop) :
    WithBot K → WithTop K → List K → List N → List E → Prop
  | last {lo : WithBot K} {hi : WithTop K} {c : N} {m : List E} :
      P lo hi c m → Chain P lo hi [] [c] m
  | cons {lo : WithBot K} {hi : WithTop K} {s : K} {ks : List K} {c : N} {cs : List N}
      {m ms : List E} :
      P lo s c m → lo < s → s < hi → Chain P s hi ks cs ms →
        Chain P lo hi (s :: ks) (c :: cs) (m ++ ms)

variable {P Q : WithBot K → WithTop K → N → List E → Prop} {lo : WithBot K} {hi : WithTop K}
  {ks : List K} {cs : List N} {m : List E}

lemma insertIdx_eq_take_append_cons_drop {α : Type*} {l : List α} {i : ℕ} (hi : i ≤ l.length)
    (a : α) : l.insertIdx i a = l.take i ++ a :: l.drop i := by
  induction l generalizing i with
  | nil =>
    obtain rfl : i = 0 := Nat.le_zero.1 hi
    rfl
  | cons b l ih =>
    cases i with
    | zero => rfl
    | succ i =>
      have hi' : i ≤ l.length := by simpa using hi
      rw [insertIdx_succ_cons, ih hi', take_succ_cons, drop_succ_cons,
        cons_append]

lemma upperBound_cons (s : K) (ks : List K) (k : K) :
    upperBound (s :: ks) k = if s ≤ k then upperBound ks k + 1 else 0 := by
  unfold upperBound
  by_cases h : s ≤ k <;> simp [h]

lemma upperBound_le_length (ks : List K) (k : K) : upperBound ks k ≤ ks.length :=
  (takeWhile_sublist _).length_le

lemma upperBound_le_of_lt (hs : ks.Pairwise (· < ·)) {k : K} {i : ℕ} (hi : i < ks.length)
    (hk : k < ks[i]) : upperBound ks k ≤ i := by
  induction ks generalizing i with
  | nil => exact absurd hi (Nat.not_lt_zero i)
  | cons s ks ih =>
    rw [pairwise_cons] at hs
    rw [upperBound_cons]
    split_ifs with hsk
    · cases i with
      | zero => exact absurd hk (not_lt.2 hsk)
      | succ i => exact Nat.succ_le_succ (ih hs.2 (by simpa using hi) hk)
    · exact Nat.zero_le i

lemma lt_upperBound_of_le (hs : ks.Pairwise (· < ·)) {k : K} {i : ℕ} (hi : i < ks.length)
    (hk : ks[i] ≤ k) : i < upperBound ks k := by
  induction ks generalizing i with
  | nil => exact absurd hi (Nat.not_lt_zero i)
  | cons s ks ih =>
    rw [pairwise_cons] at hs
    have hsk : s ≤ k := by
      cases i with
      | zero => exact hk
      | succ i => exact (hs.1 _ (getElem_mem (by simpa using hi))).le.trans hk
    rw [upperBound_cons, if_pos hsk]
    cases i with
    | zero => exact Nat.succ_pos _
    | succ i => exact Nat.succ_lt_succ (ih hs.2 (by simpa using hi) hk)

/-- A range is convex: keys above a separator of the range and inside the part to its right are in
the whole range. -/
theorem InRange.of_right {s k : K} (hs : lo < s) (h : InRange (s : WithBot K) hi k) :
    InRange lo hi k :=
  ⟨(hs.trans_le h.1).le, h.2⟩

lemma InRange.of_left {s k : K} (hs : s < hi) (h : InRange lo (s : WithTop K) k) :
    InRange lo hi k :=
  ⟨h.1, h.2.trans hs⟩

/-- Consecutive children with some ranges, and the concatenation of their entries. -/
inductive Segments (P : WithBot K → WithTop K → N → List E → Prop) : List N → List E → Prop
  | nil : Segments P [] []
  | cons {a : WithBot K} {b : WithTop K} {c : N} {cs : List N} {m ms : List E} :
      P a b c m → Segments P cs ms → Segments P (c :: cs) (m ++ ms)

namespace Chain

section
variable (h : Chain P lo hi ks cs m)
include h

lemma segments : Segments P cs m := by
  induction h with
  | last hp => simpa using Segments.cons hp .nil
  | cons hp _ _ _ ih => exact .cons hp ih

lemma length_eq : cs.length = ks.length + 1 := by
  induction h with
  | last _ => rfl
  | cons _ _ _ _ ih => rw [length_cons, length_cons, ih]

lemma mono_of_mem (hPQ : ∀ lo hi c m, c ∈ cs → P lo hi c m → Q lo hi c m) :
    Chain Q lo hi ks cs m := by
  induction h with
  | last hp => exact .last (hPQ _ _ _ _ mem_cons_self hp)
  | cons hp hlo hhi _ ih =>
    exact .cons (hPQ _ _ _ _ mem_cons_self hp) hlo hhi
      (ih fun lo hi c m hc => hPQ lo hi c m (mem_cons_of_mem _ hc))

omit h in
lemma mono (hPQ : ∀ lo hi c m, P lo hi c m → Q lo hi c m) (h : Chain P lo hi ks cs m) :
    Chain Q lo hi ks cs m :=
  h.mono_of_mem fun lo hi c m _ => hPQ lo hi c m

lemma exists_of_mem {c : N} (hc : c ∈ cs) : ∃ lo' hi' m', P lo' hi' c m' := by
  induction h with
  | last hp =>
    rw [mem_singleton.1 hc]
    exact ⟨_, _, _, hp⟩
  | cons hp _ _ _ ih =>
    rcases mem_cons.1 hc with rfl | hc
    · exact ⟨_, _, _, hp⟩
    · exact ih hc

/-- The child at an index, with its range: it ends at the separator of that index and begins at the one
before. -/
theorem exists_of_getElem? {i : ℕ} {c : N} (hc : cs[i]? = some c) :
    ∃ lo' hi' m', P lo' hi' c m' ∧ lo ≤ lo' ∧ hi' ≤ hi ∧
      (∀ s, 0 < i → ks[i - 1]? = some s → (s : WithBot K) ≤ lo') ∧
      ∀ s, ks[i]? = some s → hi' ≤ (s : WithTop K) := by
  induction h generalizing i with
  | last hp =>
    cases i with
    | zero =>
      cases hc
      exact ⟨_, _, _, hp, le_rfl, le_rfl, fun s hpos _ => absurd hpos (Nat.lt_irrefl 0), by simp⟩
    | succ i => simp at hc
  | @cons lo hi s ks c' cs m ms hp hlo hhi hrest ih =>
    cases i with
    | zero =>
      cases hc
      refine ⟨_, _, _, hp, le_rfl, hhi.le, fun s hpos _ => absurd hpos (Nat.lt_irrefl 0), ?_⟩
      intro t ht
      cases ht
      exact le_rfl
    | succ i =>
      obtain ⟨lo', hi', m', hp', hlo', hhi', hleft, hright⟩ := ih (by simpa using hc)
      refine ⟨lo', hi', m', hp', hlo.le.trans hlo', hhi', ?_, ?_⟩
      · intro t _ ht
        cases i with
        | zero =>
          -- the first child of the rest begins at the separator before it
          cases ht
          exact hlo'
        | succ i => exact hleft t (Nat.succ_pos i) (by simpa using ht)
      · exact fun t ht => hright t (by simpa using ht)

lemma separator_mem : ∀ s ∈ ks, lo < (s : WithBot K) ∧ s < hi := by
  induction h with
  | last _ => exact fun s hs => absurd hs not_mem_nil
  | cons _ hlo hhi _ ih =>
    intro t ht
    rcases mem_cons.1 ht with rfl | ht
    · exact ⟨hlo, hhi⟩
    · exact ⟨hlo.trans (ih t ht).1, (ih t ht).2⟩

lemma separators_sorted : ks.Pairwise (· < ·) := by
  induction h with
  | last _ => exact List.Pairwise.nil
  | cons _ _ _ hrest ih =>
    exact pairwise_cons.2 ⟨fun t ht => WithBot.coe_lt_coe.1 (hrest.separator_mem t ht).1, ih⟩

end

lemma append {s : K} {ts : List K} {ds : List N} {n : List E}
    (hl : Chain P lo (s : WithTop K) ts ds n) (hlo : lo < s) (hhi : s < hi)
    (hr : Chain P (s : WithBot K) hi ks cs m) :
    Chain P lo hi (ts ++ s :: ks) (ds ++ cs) (n ++ m) := by
  generalize hs : (s : WithTop K) = hi' at hl
  induction hl with
  | last hp =>
    subst hs
    exact .cons hp hlo hhi hr
  | cons hp hlo' hhi' hrest ih =>
    subst hs
    have hts := WithTop.coe_lt_coe.1 hhi'
    rw [append_assoc]
    exact .cons hp hlo' (hhi'.trans hhi) (ih (WithBot.coe_lt_coe.2 hts) rfl)

/-- A chain is cut at a separator into the chain to its left and the chain to its right. -/
theorem split {ts : List K} {s : K} {ds : List N} (h : Chain P lo hi (ts ++ s :: ks) (ds ++ cs) m)
    (hlen : ds.length = ts.length + 1) :
    ∃ n n', m = n ++ n' ∧ lo < (s : WithBot K) ∧ s < hi ∧
      Chain P lo (s : WithTop K) ts ds n ∧ Chain P (s : WithBot K) hi ks cs n' := by
  induction ts generalizing lo ds m with
  | nil =>
    obtain ⟨c, rfl⟩ := length_eq_one_iff.1 hlen
    cases h with
    | cons hp hlo hhi hrest => exact ⟨_, _, rfl, hlo, hhi, .last hp, hrest⟩
  | cons t ts ih =>
    obtain ⟨c, ds, rfl⟩ := exists_cons_of_length_pos (l := ds) (by omega)
    cases h with
    | cons hp hlo hhi hrest =>
      obtain ⟨n, n', rfl, hts, hhi', hl, hr⟩ := ih hrest (by simpa using hlen)
      refine ⟨_ ++ n, n', (append_assoc _ _ _).symm, hlo.trans hts, hhi', ?_, hr⟩
      exact .cons hp hlo (WithTop.coe_lt_coe.2 (WithBot.coe_lt_coe.1 hts)) hl

/-! ## Entries -/

variable {key : E → K}

section
variable (hP : ∀ lo hi c m, P lo hi c m → ∀ e ∈ m, InRange lo hi (key e))
include hP

lemma entries_inRange (h : Chain P lo hi ks cs m) : ∀ e ∈ m, InRange lo hi (key e) := by
  induction h with
  | last hp => exact hP _ _ _ _ hp
  | cons hp hlo hhi _ ih =>
    intro e he
    rcases mem_append.1 he with he | he
    · exact (hP _ _ _ _ hp e he).of_left hhi
    · exact (ih e he).of_right hlo

lemma entries_sorted (hS : ∀ lo hi c m, P lo hi c m → m.Pairwise (key · < key ·))
    (h : Chain P lo hi ks cs m) : m.Pairwise (key · < key ·) := by
  induction h with
  | last hp => exact hS _ _ _ _ hp
  | cons hp _ _ hrest ih =>
    refine pairwise_append.2 ⟨hS _ _ _ _ hp, ih, fun a ha b hb => ?_⟩
    exact (WithTop.coe_lt_coe.1 (hP _ _ _ _ hp a ha).2).trans_le
      (WithBot.coe_le_coe.1 (hrest.entries_inRange hP b hb).1)

/-- The child responsible for a key of the range. Its entries sit between those of the children
before it, with smaller keys, and those of the children after it, with larger keys. Any chain over
its range fits in its place; the predicate may be weakened on the way, so that the replacement may
be stated over a later state. -/
theorem route (h : Chain P lo hi ks cs m) {k : K} (hk : InRange lo hi k) :
    ∃ (a : WithBot K) (b : WithTop K) (c : N) (m₁ mc m₂ : List E),
      cs[upperBound ks k]? = some c ∧ P a b c mc ∧ InRange a b k ∧ m = m₁ ++ (mc ++ m₂) ∧
      (∀ e ∈ m₁, key e < k) ∧ (∀ e ∈ m₂, k < key e) ∧
      Segments P (cs.take (upperBound ks k)) m₁ ∧
      Segments P (cs.drop (upperBound ks k + 1)) m₂ ∧
      ∀ Q : WithBot K → WithTop K → N → List E → Prop,
        (∀ lo hi c m, P lo hi c m → Q lo hi c m) →
        ∀ ts ds n, Chain Q a b ts ds n →
          Chain Q lo hi (ks.take (upperBound ks k) ++ (ts ++ ks.drop (upperBound ks k)))
            (cs.take (upperBound ks k) ++ (ds ++ cs.drop (upperBound ks k + 1)))
            (m₁ ++ (n ++ m₂)) := by
  induction h with
  | @last lo hi c m hp =>
    refine ⟨lo, hi, c, [], m, [], rfl, hp, hk, by simp, by simp, by simp, .nil, .nil, ?_⟩
    simp [upperBound]
  | @cons lo hi s ks c cs m ms hp hlo hhi hrest ih =>
    by_cases hsk : s ≤ k
    · -- the key is at or above the first separator: the hole is further right
      have hkr : InRange (s : WithBot K) hi k := ⟨WithBot.coe_le_coe.2 hsk, hk.2⟩
      obtain ⟨a, b, d, m₁, mc, m₂, hget, hpd, hab, hms, hlt, hgt, hseg₁, hseg₂, hctx⟩ := ih hkr
      rw [upperBound_cons, if_pos hsk]
      refine ⟨a, b, d, m ++ m₁, mc, m₂, hget, hpd, hab, by rw [hms, append_assoc], ?_, hgt,
        .cons hp hseg₁, hseg₂, ?_⟩
      · intro e he
        rcases mem_append.1 he with he | he
        · exact (WithTop.coe_lt_coe.1 (hP _ _ _ _ hp e he).2).trans_le hsk
        · exact hlt e he
      · intro Q hPQ ts ds n hn
        rw [append_assoc]
        exact .cons (hPQ _ _ _ _ hp) hlo hhi (hctx Q hPQ ts ds n hn)
    · -- the key is below the first separator: the first child is the hole
      have hks : k < s := not_le.1 hsk
      rw [upperBound_cons, if_neg hsk]
      refine ⟨lo, s, c, [], m, ms, rfl, hp, ⟨hk.1, WithTop.coe_lt_coe.2 hks⟩, rfl, by simp, ?_,
        .nil, hrest.segments, ?_⟩
      · intro e he
        exact hks.trans_le (WithBot.coe_le_coe.1 (hrest.entries_inRange hP e he).1)
      · intro Q hPQ ts ds n hn
        exact hn.append hlo hhi (hrest.mono hPQ)

end

end Chain
end Lib
