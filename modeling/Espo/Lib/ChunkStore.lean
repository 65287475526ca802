import Espo.Lib.ChunkedList
import Espo.Lib.Table
import Espo.Lib.Writes

/-!
# A chunk store shared by many lists

The lists of one space share the chunk ids and the counter of the space. Appends are collected in a
batch, which reads chunks from the store as it was before the batch, and are then written together.

A history is a list of versions, each with the states of all lists at some point. `Holds` says that
the store serves every version of a history although chunks are rewritten in place. It survives
batches of appends to the last version (`appendAll_spec`) and the loss of any versions
(`Holds.sublist`), so in particular going back to an earlier version and appending there again.
-/

namespace Lib
open ChunkedList List

/-- Chunks of many lists, with a counter for each space of chunk ids. -/
structure ChunkStore (N α : Type*) where
  chunks : Table (N × ℕ) (List α)
  next : N → ℕ

/-- Appends that are not written yet: new states, new chunks, new counters. -/
structure ChunkBatch (L N α : Type*) where
  rows : List (L × ChunkedList α)
  puts : List ((N × ℕ) × List α)
  next : N → ℕ

/-- The states of all lists at one point, with the lists they stand for. -/
structure ListVersion (L α : Type*) where
  state : L → ChunkedList α
  items : L → List α

section Defs
variable {L N α : Type*} [DecidableEq L] [DecidableEq N]

namespace ChunkStore

/-- Nothing stored. -/
def empty : ChunkStore N α := ⟨∅, fun _ => 0⟩

variable (s : ChunkStore N α)

/-- A chunk of a space. -/
def read (n : N) (id : ℕ) : Option (List α) := s.chunks.get (n, id)

/-- Write chunks. -/
def putAll (chunks : Table (N × ℕ) (List α)) (puts : List ((N × ℕ) × List α)) :
    Table (N × ℕ) (List α) :=
  puts.foldl (fun t p => t.put p.1 p.2) chunks

/-- Write a batch. -/
def commit (b : ChunkBatch L N α) : ChunkStore N α :=
  ⟨putAll s.chunks b.puts, b.next⟩

/-- An empty batch. -/
def batch : ChunkBatch L N α := ⟨[], [], s.next⟩

end ChunkStore

namespace ChunkBatch

/-- Add the result of an append to a list. -/
def add (space : L → N) (l : L) (b : ChunkBatch L N α) (r : Appended α) : ChunkBatch L N α where
  rows := b.rows ++ [(l, r.state)]
  puts := b.puts ++ r.puts.map fun p => ((space l, p.1), p.2)
  next := Function.update b.next (space l) r.next

/-- Collect an append to a list that is in the state `current`, and return its new length. Appending
nothing writes nothing. -/
def append (space : L → N) (cap size : ℕ) (read : ℕ → Option (List α)) (current : ChunkedList α)
    (l : L) (values : List α) (b : ChunkBatch L N α) : Except (ℕ × ℕ) (ℕ × ChunkBatch L N α) :=
  if values.isEmpty then .ok (current.total, b)
  else
    match current.append cap size read (b.next (space l)) values with
    | .error e => .error e
    | .ok r => .ok (r.state.total, b.add space l r)

end ChunkBatch

/-- Collect appends, one after the other. -/
def ChunkStore.appendAll (space : L → N) (cap size : ℕ) (s : ChunkStore N α)
    (current : L → ChunkedList α) :
    List (L × List α) → ChunkBatch L N α → Except (ℕ × ℕ) (ChunkBatch L N α)
  | [], b => .ok b
  | (l, values) :: appends, b =>
    match b.append space cap size (s.read (space l)) (current l) l values with
    | .error e => .error e
    | .ok (_, b) => appendAll space cap size s current appends b

/-- What some appends add to a list. -/
def valuesFor (appends : List (L × List α)) (l : L) : List α :=
  (appends.filter fun a => a.1 = l).flatMap Prod.snd

/-- The store serves every version of the history: each state stands for its list, different lists
have no chunks in common, and the states of a list grow along the history. -/
structure Holds (space : L → N) (s : ChunkStore N α) (vs : List (ListVersion L α)) : Prop where
  represents : ∀ v ∈ vs, ∀ l, Represents (s.read (space l)) (v.state l) (v.items l)
  ids_lt : ∀ v ∈ vs, ∀ l, ∀ id ∈ (v.state l).ids, id < s.next (space l)
  apart : ∀ v ∈ vs, ∀ w ∈ vs, ∀ l l', l ≠ l' → space l = space l' →
    ∀ id ∈ (v.state l).ids, id ∉ (w.state l').ids
  grew : vs.Pairwise fun v w => ∀ l, Grew (v.state l) (w.state l) ∧ v.items l <+: w.items l

/-- A version in which one list has changed. -/
def ListVersion.set (v : ListVersion L α) (l : L) (state : ChunkedList α) (items : List α) :
    ListVersion L α :=
  ⟨Function.update v.state l state, Function.update v.items l items⟩

/-- The version that a batch of appends leads to. -/
def ListVersion.extend (v : ListVersion L α) (rows : List (L × ChunkedList α))
    (appends : List (L × List α)) : ListVersion L α :=
  ⟨writeAll v.state rows, fun l => v.items l ++ valuesFor appends l⟩

end Defs

section
variable {L N α : Type*} [DecidableEq N] {space : L → N} {s : ChunkStore N α}
  {vs ws : List (ListVersion L α)} {v : ListVersion L α}

/-! ## Writing chunks -/

variable (chunks : Table (N × ℕ) (List α))

lemma ChunkStore.putAll_append (puts puts' : List ((N × ℕ) × List α)) :
    putAll chunks (puts ++ puts') = putAll (putAll chunks puts) puts' :=
  foldl_append

variable {puts : List ((N × ℕ) × List α)}

lemma ChunkStore.get_putAll_of_notMem {key : N × ℕ} (h : ∀ p ∈ puts, p.1 ≠ key) :
    (putAll chunks puts).get key = chunks.get key := by
  refine Table.get_putAll_of_notMem _ fun hmem => ?_
  obtain ⟨p, hp, heq⟩ := List.mem_map.1 hmem
  exact h p hp heq

lemma ChunkStore.get_putAll_of_mem (hnodup : (puts.map Prod.fst).Nodup) {p : (N × ℕ) × List α}
    (h : p ∈ puts) : (putAll chunks puts).get p.1 = some p.2 := by
  obtain ⟨v, hv, hget⟩ := Table.exists_get_putAll (List.mem_map_of_mem h)
  have heq : (p.1, v) = p := inj_on_of_nodup_map hnodup hv h rfl
  exact (hget _).trans (congrArg (some ∘ Prod.snd) heq)

/-- The store after an append to a list. -/
def ChunkStore.afterAppend (space : L → N) (s : ChunkStore N α) (l : L) (r : Appended α) :
    ChunkStore N α :=
  ⟨putAll s.chunks (r.puts.map fun p => ((space l, p.1), p.2)),
    Function.update s.next (space l) r.next⟩

lemma ChunkStore.commit_add (s : ChunkStore N α) (b : ChunkBatch L N α) (l : L) (r : Appended α) :
    s.commit (b.add space l r) = (s.commit b).afterAppend space l r :=
  congrArg (fun chunks => (⟨chunks, _⟩ : ChunkStore N α)) (putAll_append _ _ _)

lemma ChunkStore.appendAll_filter (cap size : ℕ) (current : L → ChunkedList α)
    (appends : List (L × List α)) (b : ChunkBatch L N α) :
    s.appendAll space cap size current (appends.filter fun a => !a.2.isEmpty) b
      = s.appendAll space cap size current appends b := by
  induction appends generalizing b with
  | nil => rfl
  | cons a appends ih =>
    obtain ⟨l, values⟩ := a
    by_cases hnil : values.isEmpty = true
    · rw [filter_cons_of_neg (by simpa using hnil), ih, appendAll, ChunkBatch.append,
        if_pos hnil]
    · rw [filter_cons_of_pos (by simpa using hnil), appendAll, appendAll]
      split
      · rfl
      · exact ih _

variable {l : L} {r : Appended α}

lemma ChunkStore.read_afterAppend (hnodup : (r.puts.map Prod.fst).Nodup) {p : ℕ × List α}
    (hp : p ∈ r.puts) : (s.afterAppend space l r).read (space l) p.1 = some p.2 := by
  have hkeys : ((r.puts.map fun p => ((space l, p.1), p.2)).map Prod.fst).Nodup := by
    rw [List.map_map]
    have hcomp : (Prod.fst ∘ fun p : ℕ × List α => ((space l, p.1), p.2))
        = Prod.mk (space l) ∘ Prod.fst := rfl
    rw [hcomp, ← List.map_map]
    exact hnodup.map fun a b hab => (Prod.mk.inj hab).2
  exact get_putAll_of_mem _ hkeys (List.mem_map_of_mem hp)

lemma ChunkStore.read_afterAppend_of_notMem {n : N} {id : ℕ}
    (h : space l = n → id ∉ r.puts.map Prod.fst) :
    (s.afterAppend space l r).read n id = s.read n id := by
  refine get_putAll_of_notMem _ fun p hp heq => ?_
  obtain ⟨q, hq, rfl⟩ := List.mem_map.1 hp
  obtain ⟨hn, hid⟩ := Prod.mk.inj heq
  exact h hn (hid ▸ List.mem_map_of_mem hq)

lemma ChunkStore.next_le_afterAppend (hle : s.next (space l) ≤ r.next) (n : N) :
    s.next n ≤ (s.afterAppend space l r).next n := by
  show s.next n ≤ Function.update s.next (space l) r.next n
  rw [Function.update_apply]
  split_ifs with heq
  · exact heq ▸ hle
  · exact le_rfl

/-! ## Histories -/

lemma Holds.sublist (h : Holds space s ws) (hsub : vs.Sublist ws) : Holds space s vs where
  represents v hv := h.represents v (hsub.subset hv)
  ids_lt v hv := h.ids_lt v (hsub.subset hv)
  apart v hv w hw := h.apart v (hsub.subset hv) w (hsub.subset hw)
  grew := h.grew.sublist hsub

section
variable (h : Holds space s (vs ++ [v]))
include h

lemma Holds.repeat_last : Holds space s (vs ++ [v] ++ [v]) := by
  have hmem : ∀ w ∈ vs ++ [v] ++ [v], w ∈ vs ++ [v] := fun w hw => by simpa using hw
  refine ⟨fun w hw => h.represents w (hmem w hw), fun w hw => h.ids_lt w (hmem w hw),
    fun w hw w' hw' => h.apart w (hmem w hw) w' (hmem w' hw'), ?_⟩
  refine pairwise_append.2 ⟨h.grew, pairwise_singleton _ _, fun w hw v' hv' l => ?_⟩
  obtain rfl : v' = v := mem_singleton.1 hv'
  rcases mem_append.1 hw with hw | hw
  · exact (pairwise_append.1 h.grew).2.2 w hw v' mem_cons_self l
  · obtain rfl : w = v' := mem_singleton.1 hw
    exact ⟨Grew.refl _, prefix_rfl⟩

/-- The chunks that an append writes are not chunks of any other list. -/
theorem Holds.notMem_ids {l' : L} (hne : l ≠ l')
    (hspace : space l = space l') {w : ListVersion L α} (hw : w ∈ vs ++ [v]) {id : ℕ}
    (hid : id ∈ (v.state l).ids ∨ s.next (space l) ≤ id) : id ∉ (w.state l').ids := by
  intro hmem
  rcases hid with hid | hid
  · exact h.apart v (mem_append_right _ mem_cons_self) w hw l l' hne hspace id hid hmem
  · have hlt := h.ids_lt w hw l' id hmem
    rw [← hspace] at hlt
    omega

variable {items : List α}
  (hspec : AppendSpec (s.read (space l)) (s.next (space l)) (v.state l) items r)
include hspec

lemma Holds.read_other {l' : L} (hne : l ≠ l') {w : ListVersion L α} (hw : w ∈ vs ++ [v]) :
    ∀ id ∈ (w.state l').ids, (s.afterAppend space l r).read (space l') id = s.read (space l') id := by
  intro id hid
  refine ChunkStore.read_afterAppend_of_notMem fun hspace hmem => ?_
  obtain ⟨p, hp, rfl⟩ := List.mem_map.1 hmem
  exact h.notMem_ids hne hspace hw (hspec.puts_ids p hp).1 hid

lemma Holds.append [DecidableEq L] (hpre : v.items l <+: items) :
    Holds space (s.afterAppend space l r) (vs ++ [v.set l r.state items]) := by
  have hv : v ∈ vs ++ [v] := mem_append_right _ mem_cons_self
  have hvs : ∀ w ∈ vs, w ∈ vs ++ [v] := fun w hw => mem_append_left _ hw
  have hgrew : ∀ w ∈ vs, ∀ l, Grew (w.state l) (v.state l) ∧ w.items l <+: v.items l :=
    fun w hw => (pairwise_append.1 h.grew).2.2 w hw v mem_cons_self
  have hnew : Represents ((s.afterAppend space l r).read (space l)) r.state items := by
    refine hspec.represents _ (fun p hp => ChunkStore.read_afterAppend hspec.puts_nodup hp) ?_
    exact fun id _ hid => ChunkStore.read_afterAppend_of_notMem fun _ => hid
  have hother : ∀ l', l' ≠ l → (v.set l r.state items).state l' = v.state l' ∧
      (v.set l r.state items).items l' = v.items l' := fun l' hne =>
    ⟨Function.update_of_ne hne _ _, Function.update_of_ne hne _ _⟩
  have hself : (v.set l r.state items).state l = r.state ∧ (v.set l r.state items).items l = items :=
    ⟨Function.update_self _ _ _, Function.update_self _ _ _⟩
  have hnotMem : ∀ w ∈ vs ++ [v], ∀ l', l ≠ l' → space l = space l' →
      ∀ id ∈ r.state.ids, id ∉ (w.state l').ids := fun w hw l' hne hspace id hid =>
    h.notMem_ids hne hspace hw (hspec.state_ids id hid).1
  -- a state of the new history is a state of the old one or the new state of the list
  have hcases : ∀ w ∈ vs ++ [v.set l r.state items], ∀ l',
      (∃ w' ∈ vs ++ [v], w.state l' = w'.state l' ∧ w.items l' = w'.items l' ∧ (l' = l → w' ∈ vs)) ∨
        l' = l ∧ w.state l' = r.state ∧ w.items l' = items := by
    intro w hw l'
    rcases mem_append.1 hw with hw | hw
    · exact .inl ⟨w, hvs w hw, rfl, rfl, fun _ => hw⟩
    · rw [mem_singleton.1 hw]
      by_cases hl : l' = l
      · exact .inr ⟨hl, hl ▸ hself⟩
      · exact .inl ⟨v, hv, (hother l' hl).1, (hother l' hl).2, fun heq => absurd heq hl⟩
  constructor
  case represents =>
    intro w hw l'
    rcases hcases w hw l' with ⟨u, hu, hstate, hitems, hvs'⟩ | ⟨rfl, hstate, hitems⟩ <;> rw [hstate, hitems]
    · by_cases hl : l' = l
      · subst hl
        have hu' := hgrew u (hvs' rfl) l'
        exact (h.represents u hu l').of_grew hnew (hu'.1.trans hspec.grew) (hu'.2.trans hpre)
      · exact (h.represents u hu l').congr (h.read_other hspec (Ne.symm hl) hu)
    · exact hnew
  case ids_lt =>
    intro w hw l' id hid
    rcases hcases w hw l' with ⟨u, hu, hstate, -⟩ | ⟨rfl, hstate, -⟩ <;> rw [hstate] at hid
    · exact (h.ids_lt u hu l' id hid).trans_le (ChunkStore.next_le_afterAppend hspec.next_le (space l'))
    · rw [show (s.afterAppend space l' r).next (space l') = r.next from Function.update_self _ _ _]
      exact (hspec.state_ids id hid).2
  case apart =>
    intro w hw w' hw' l₁ l₂ hne hspace id hid hid'
    rcases hcases w hw l₁ with ⟨u, hu, heq, -⟩ | ⟨rfl, heq, -⟩ <;>
      rcases hcases w' hw' l₂ with ⟨u', hu', heq', -⟩ | ⟨rfl, heq', -⟩ <;> rw [heq] at hid <;>
      rw [heq'] at hid'
    · exact h.apart u hu u' hu' l₁ l₂ hne hspace id hid hid'
    · exact hnotMem u hu l₁ (Ne.symm hne) hspace.symm id hid' hid
    · exact hnotMem u' hu' l₂ hne hspace id hid hid'
    · exact hne rfl
  case grew =>
    refine pairwise_append.2 ⟨(pairwise_append.1 h.grew).1, pairwise_singleton _ _, ?_⟩
    intro w hw w' hw' l'
    rw [mem_singleton.1 hw']
    by_cases hl : l' = l
    · rw [hl, hself.1, hself.2]
      exact ⟨(hgrew w hw l).1.trans hspec.grew, (hgrew w hw l).2.trans hpre⟩
    · rw [(hother l' hl).1, (hother l' hl).2]
      exact hgrew w hw l'

end

/-! ## Batches -/

variable [DecidableEq L]

lemma valuesFor_append (appends appends' : List (L × List α)) (l : L) :
    valuesFor (appends ++ appends') l = valuesFor appends l ++ valuesFor appends' l := by
  rw [valuesFor, filter_append, flatMap_append]
  rfl

lemma valuesFor_singleton (l l' : L) (values : List α) :
    valuesFor [(l, values)] l' = if l = l' then values else [] := by
  by_cases h : l = l' <;> simp [valuesFor, h]

lemma valuesFor_of_notMem {appends : List (L × List α)} {l : L} (h : l ∉ appends.map Prod.fst) :
    valuesFor appends l = [] := by
  have hnil : (appends.filter fun a => a.1 = l) = [] := by
    refine filter_eq_nil_iff.2 fun a ha heq => h ?_
    exact of_decide_eq_true heq ▸ List.mem_map_of_mem ha
  rw [valuesFor, hnil, flatMap_nil]

/-- The batch has collected the appends: writing it serves the history with the version the appends
lead to, and it leaves the chunks of the other lists alone. -/
structure Collects (space : L → N) (s : ChunkStore N α) (vs : List (ListVersion L α))
    (v : ListVersion L α) (appends : List (L × List α)) (b : ChunkBatch L N α) : Prop where
  holds : Holds space (s.commit b) (vs ++ [v.extend b.rows appends])
  rows : ∀ row ∈ b.rows, row.1 ∈ appends.map Prod.fst
  same : ∀ l ∉ appends.map Prod.fst, ∀ id ∈ (v.state l).ids,
    (s.commit b).read (space l) id = s.read (space l) id

lemma Collects.nil (h : Holds space s (vs ++ [v])) : Collects space s vs v [] s.batch where
  holds := by
    have hv : v.extend [] [] = v := by simp [ListVersion.extend, valuesFor]
    rw [show (s.batch : ChunkBatch L N α).rows = [] from rfl, hv]
    exact h
  rows := by simp [ChunkStore.batch]
  same _ _ _ _ := rfl

section Collect
variable {appends : List (L × List α)} {b : ChunkBatch L N α} {l : L}

section
variable (h : Collects space s vs v appends b)
include h

section
variable (hl : l ∉ appends.map Prod.fst)
include hl

lemma Collects.extend_eq :
    (v.extend b.rows appends).state l = v.state l ∧
      (v.extend b.rows appends).items l = v.items l := by
  constructor
  · refine writeAll_of_notMem _ _ fun row hrow heq => hl ?_
    exact heq ▸ h.rows row hrow
  · show v.items l ++ valuesFor appends l = v.items l
    rw [valuesFor_of_notMem hl, append_nil]

lemma Collects.add {values : List α} {r : Appended α}
    (hspec : AppendSpec (s.read (space l)) (b.next (space l)) (v.state l) (v.items l ++ values) r) :
    Collects space s vs v (appends ++ [(l, values)]) (b.add space l r) := by
  obtain ⟨hstate, hitems⟩ := h.extend_eq hl
  have hspec' : AppendSpec ((s.commit b).read (space l)) ((s.commit b).next (space l))
      ((v.extend b.rows appends).state l) (v.items l ++ values) r := by
    rw [hstate]
    exact hspec.congr (h.same l hl)
  have hset : (v.extend b.rows appends).set l r.state (v.items l ++ values)
      = v.extend (b.rows ++ [(l, r.state)]) (appends ++ [(l, values)]) := by
    have hrows : writeAll v.state (b.rows ++ [(l, r.state)])
        = Function.update (writeAll v.state b.rows) l r.state := writeAll_append _ _ _
    have hvalues : (fun l' => v.items l' ++ valuesFor (appends ++ [(l, values)]) l')
        = Function.update (fun l => v.items l ++ valuesFor appends l) l (v.items l ++ values) := by
      funext l'
      rw [valuesFor_append, valuesFor_singleton]
      by_cases hl' : l = l'
      · subst hl'
        rw [Function.update_self, valuesFor_of_notMem hl, if_pos rfl, nil_append]
      · rw [Function.update_of_ne (Ne.symm hl'), if_neg hl', append_nil]
    simp only [ListVersion.set, ListVersion.extend, hrows, hvalues]
  constructor
  case holds =>
    have happend := h.holds.append hspec' (hitems ▸ prefix_append _ _)
    rw [hset] at happend
    rw [ChunkStore.commit_add]
    exact happend
  case rows =>
    intro row hrow
    rw [map_append, mem_append]
    rcases mem_append.1 hrow with hrow | hrow
    · exact .inl (h.rows row hrow)
    · rw [mem_singleton.1 hrow]
      exact .inr mem_cons_self
  case same =>
    intro l' hl' id hid
    rw [map_append, mem_append, not_or] at hl'
    have hne : l ≠ l' := fun heq => hl'.2 (heq ▸ mem_cons_self)
    have hlast : v.extend b.rows appends ∈ vs ++ [v.extend b.rows appends] :=
      mem_append_right _ mem_cons_self
    rw [← (h.extend_eq hl'.1).1] at hid
    rw [ChunkStore.commit_add, h.holds.read_other hspec' hne hlast id hid]
    rw [(h.extend_eq hl'.1).1] at hid
    exact h.same l' hl'.1 id hid

lemma Collects.append (cap size : ℕ) (values : List α) :
    ∃ b', b.append space cap size (s.read (space l)) (v.state l) l values
        = .ok ((v.items l ++ values).length, b') ∧
      Collects space s vs v (appends ++ [(l, values)]) b' := by
  obtain ⟨hstate, hitems⟩ := h.extend_eq hl
  have hlast : v.extend b.rows appends ∈ vs ++ [v.extend b.rows appends] :=
    mem_append_right _ mem_cons_self
  have hrep := h.holds.represents _ hlast l
  rw [hstate, hitems] at hrep
  by_cases hnil : values = []
  · -- nothing is appended
    subst hnil
    have hvalues : ∀ l', valuesFor (appends ++ [(l, [])]) l' = valuesFor appends l' := by
      intro l'
      rw [valuesFor_append, valuesFor_singleton, ite_self, append_nil]
    refine ⟨b, ?_, ⟨?_, fun row hrow => ?_, fun l' hl' => ?_⟩⟩
    · rw [append_nil, ← hrep.total_eq]
      rfl
    · have heq : v.extend b.rows (appends ++ [(l, [])]) = v.extend b.rows appends := by
        simp only [ListVersion.extend, hvalues]
      rw [heq]
      exact h.holds
    · rw [map_append]
      exact mem_append_left _ (h.rows row hrow)
    · rw [map_append, mem_append, not_or] at hl'
      exact h.same l' hl'.1
  · have hids := h.holds.ids_lt _ hlast l
    rw [hstate] at hids
    have hrep' : Represents (s.read (space l)) (v.state l) (v.items l) :=
      hrep.congr fun id hid => (h.same l hl id hid).symm
    obtain ⟨r, hr, hspec⟩ := append_spec hrep' hids cap size values
    refine ⟨b.add space l r, ?_, h.add hl hspec⟩
    rw [ChunkBatch.append, if_neg (by simpa using hnil)]
    simp only [show (s.commit b).next = b.next from rfl] at hr
    simp only [hr, hspec.total]

end

end

end Collect

variable {current : L → ChunkedList α} {appends : List (L × List α)}

/-- Appends to different lists are collected, whatever the lists held. -/
theorem ChunkStore.appendAll_collects {cap size : ℕ} {done : List (L × List α)}
    {b : ChunkBatch L N α} (h : Collects space s vs v done b)
    (hcurrent : ∀ a ∈ appends, current a.1 = v.state a.1)
    (hnodup : ((done ++ appends).map Prod.fst).Nodup) :
    ∃ b', s.appendAll space cap size current appends b = .ok b' ∧
      Collects space s vs v (done ++ appends) b' := by
  induction appends generalizing done b with
  | nil => exact ⟨b, rfl, by rwa [append_nil]⟩
  | cons a appends ih =>
    obtain ⟨l, values⟩ := a
    have hl : l ∉ done.map Prod.fst := by
      intro hmem
      rw [map_append, nodup_append] at hnodup
      exact hnodup.2.2 l hmem l (mem_cons_self) rfl
    obtain ⟨b₁, hb₁, h₁⟩ := h.append hl cap size values
    obtain ⟨b', hb', h'⟩ := ih h₁ (fun a ha => hcurrent a (mem_cons_of_mem _ ha))
      (by simpa using hnodup)
    refine ⟨b', ?_, by simpa using h'⟩
    have hcur : current l = v.state l := hcurrent (l, values) mem_cons_self
    simp only [appendAll, hcur, hb₁]
    exact hb'

/-- A batch of appends to the last version of a history. -/
theorem ChunkStore.appendAll_spec (h : Holds space s (vs ++ [v])) (cap size : ℕ)
    (hcurrent : ∀ a ∈ appends, current a.1 = v.state a.1) (hnodup : (appends.map Prod.fst).Nodup) :
    ∃ b, s.appendAll space cap size current appends s.batch = .ok b ∧
      Collects space s vs v appends b :=
  appendAll_collects (.nil h) hcurrent hnodup

end

end Lib
