import Espo.Lib.Instances

/-!
# Batches of writes with an undo journal

A store of rows whose type depends on the key, and a batch of writes to it that is collected before
it is applied: puts in order, a set of deleted keys, and the values some keys had before. A put
revives a deleted key, a delete hides the puts before it, and the deletes are applied first.

The journal of a batch records for each touched key the value to restore: the one that is known, or
the one read when the batch is applied, or none for the keys that are taken to be new. If what it
knows is true and the keys taken to be new are, applying the journal undoes the batch.
-/

namespace Lib

open List
variable {K : Type*} [DecidableEq K] {V : K → Type*}

/-! ## Applying writes -/

variable (s : Finmap V)

/-- Write a row, or delete it. -/
def setRow (k : K) : Option (V k) → Finmap V
  | some v => s.insert k v
  | none => s.erase k

/-- Write and delete rows one after the other. -/
def writeRows (writes : List (Σ k, Option (V k))) : Finmap V :=
  writes.foldl (fun s w => setRow s w.1 w.2) s

/-- Insert rows one after the other. -/
def insertRows (puts : List (Sigma V)) : Finmap V :=
  puts.foldl (fun s p => s.insert p.1 p.2) s

variable (deletes : List K)

/-- Delete rows one after the other. -/
def eraseRows : Finmap V :=
  deletes.foldl (fun s k => s.erase k) s

/-- Apply a batch: the deletes first. -/
def applyBatch (puts : List (Sigma V)) : Finmap V :=
  insertRows (eraseRows s deletes) puts

variable (s : Finmap V)

lemma lookup_setRow_self (k : K) (v : Option (V k)) : (setRow s k v).lookup k = v := by
  cases v with
  | some v => exact Finmap.lookup_insert s
  | none => exact Finmap.lookup_erase k s

lemma lookup_setRow_of_ne {k k' : K} (v : Option (V k)) (h : k' ≠ k) :
    (setRow s k v).lookup k' = s.lookup k' := by
  cases v with
  | some v => exact Finmap.lookup_insert_of_ne s h
  | none => exact Finmap.lookup_erase_ne h

variable {puts : List (Sigma V)} {writes : List (Σ k, Option (V k))}

lemma lookup_writeRows_of_notMem {k : K} (h : k ∉ writes.map Sigma.fst) :
    (writeRows s writes).lookup k = s.lookup k := by
  induction writes generalizing s with
  | nil => rfl
  | cons w writes ih =>
    rw [map_cons, mem_cons, not_or] at h
    exact (ih (setRow s w.1 w.2) h.2).trans (lookup_setRow_of_ne s w.2 h.1)

lemma lookup_writeRows_mem {k : K} (hmem : k ∈ writes.map Sigma.fst) :
    ⟨k, (writeRows s writes).lookup k⟩ ∈ writes := by
  induction writes generalizing s with
  | nil => simp at hmem
  | cons w writes ih =>
    rw [writeRows, foldl_cons]
    by_cases hk : k ∈ writes.map Sigma.fst
    · exact mem_cons_of_mem _ (ih (setRow s w.1 w.2) hk)
    · obtain rfl : k = w.1 := (mem_cons.1 hmem).resolve_right hk
      have hlast := (lookup_writeRows_of_notMem (setRow s w.1 w.2) hk).trans
        (lookup_setRow_self s w.1 w.2)
      rw [writeRows] at hlast
      rw [hlast]
      exact mem_cons_self

lemma lookup_eraseRows (k : K) :
    (eraseRows s deletes).lookup k = if k ∈ deletes then none else s.lookup k := by
  induction deletes generalizing s with
  | nil => rfl
  | cons d deletes ih =>
    refine (ih (s.erase d)).trans ?_
    by_cases hk : k ∈ deletes
    · simp [hk]
    · by_cases hd : k = d
      · subst hd
        simp [hk]
      · rw [if_neg hk, if_neg (by simp [hd, hk]), Finmap.lookup_erase_ne hd]

lemma insertRows_eq (puts : List (Sigma V)) :
    insertRows s puts = writeRows s (puts.map fun p => ⟨p.1, some p.2⟩) := by
  rw [writeRows, foldl_map]
  rfl

lemma lookup_insertRows_of_notMem {k : K} (h : k ∉ puts.map Sigma.fst) :
    (insertRows s puts).lookup k = s.lookup k := by
  rw [insertRows_eq, lookup_writeRows_of_notMem]
  simpa using h

lemma lookup_insertRows_mem {k : K} (h : k ∈ puts.map Sigma.fst) :
    ∃ v, ⟨k, v⟩ ∈ puts ∧ (insertRows s puts).lookup k = some v := by
  have hkeys : k ∈ (puts.map fun p => (⟨p.1, some p.2⟩ : Σ k, Option (V k))).map Sigma.fst := by
    simpa using h
  rw [insertRows_eq]
  obtain ⟨p, hp, heq⟩ := List.mem_map.1 (lookup_writeRows_mem s hkeys)
  obtain ⟨rfl, heq⟩ := Sigma.mk.inj_iff.1 heq
  exact ⟨p.2, hp, (eq_of_heq heq).symm⟩

lemma lookup_insertRows_congr {s s' : Finmap V} {puts' : List (Sigma V)} {k : K}
    (hs : s.lookup k = s'.lookup k)
    (hputs : puts.filter (fun p => p.1 = k) = puts'.filter fun p => p.1 = k) :
    (insertRows s puts).lookup k = (insertRows s' puts').lookup k := by
  -- puts to other keys can be left out
  have hown : ∀ t : Finmap V, t.lookup k = s'.lookup k → ∀ ps : List (Sigma V),
      (insertRows t ps).lookup k = (insertRows s' (ps.filter fun p => p.1 = k)).lookup k := by
    intro t ht ps
    induction ps using List.reverseRecOn with
    | nil => exact ht
    | append_singleton ps p ih =>
      rw [filter_append, insertRows, insertRows, foldl_append, foldl_append]
      by_cases hp : p.1 = k
      · subst hp
        simp only [filter_cons, decide_true, if_true, filter_nil, foldl_cons,
          foldl_nil, Finmap.lookup_insert]
      · simp only [filter_cons, hp, foldl_cons, foldl_nil]
        rw [Finmap.lookup_insert_of_ne _ (Ne.symm hp)]
        exact ih
  rw [hown s hs puts, hputs, ← hown s' rfl puts']

lemma insertRows_append (puts puts' : List (Sigma V)) :
    insertRows s (puts ++ puts') = insertRows (insertRows s puts) puts' :=
  foldl_append

/-! ## The queue -/

/-- Writes collected for a batch. -/
structure WriteQueue (V : K → Type*) where
  puts : List (Sigma V)
  deletes : List K
  /-- Values from before the batch that are already known. -/
  preimages : AList fun k => Option (V k)

namespace WriteQueue

/-- Nothing collected. -/
def empty : WriteQueue V := ⟨[], [], ∅⟩

variable (q : WriteQueue V)

/-- Add a put; a deleted key stays deleted. -/
def push (k : K) (v : V k) : WriteQueue V :=
  { q with puts := q.puts ++ [⟨k, v⟩] }

/-- Add a put and revive its key. -/
def queuePut (k : K) (v : V k) : WriteQueue V :=
  { q with deletes := q.deletes.filter fun d => d ≠ k, puts := q.puts ++ [⟨k, v⟩] }

/-- Delete a key. -/
def queueDelete (k : K) : WriteQueue V :=
  { q with deletes := q.deletes.insert k }

/-- Note the value of a key unless it is known. -/
def remember (k : K) (previous : Option (V k)) : WriteQueue V :=
  { q with preimages := if k ∈ q.preimages then q.preimages else q.preimages.insert k previous }

/-- The puts that no delete hides. -/
def retained : List (Sigma V) := q.puts.filter fun p => p.1 ∉ q.deletes

/-- The store once the batch is applied. -/
def view (s : Finmap V) (q : WriteQueue V) : Finmap V := applyBatch s q.deletes q.retained

variable (s : Finmap V) (q : WriteQueue V) {k : K}

lemma of_mem_preimages_remember {q : WriteQueue V} {previous : Option (V k)} {e : Σ k, Option (V k)}
    (he : e ∈ (q.remember k previous).preimages.entries) :
    e ∈ q.preimages.entries ∨ e = ⟨k, previous⟩ := by
  unfold remember at he
  split_ifs at he with hk
  · exact .inl he
  · rw [AList.entries_insert_of_notMem hk, mem_cons] at he
    exact he.symm

lemma view_push (v : V k) (hk : k ∉ q.deletes) : (q.push k v).view s = (q.view s).insert k v := by
  have hretained : (q.push k v).retained = q.retained ++ [⟨k, v⟩] := by
    unfold retained push
    simp [hk]
  rw [view, applyBatch, hretained, insertRows_append]
  rfl

lemma lookup_view_congr {s : Finmap V} {q q' : WriteQueue V}
    (hdeletes : k ∈ q.deletes ↔ k ∈ q'.deletes)
    (hputs : q.puts.filter (fun p => p.1 = k) = q'.puts.filter fun p => p.1 = k) :
    (q.view s).lookup k = (q'.view s).lookup k := by
  have hfilter : ∀ r : WriteQueue V, r.retained.filter (fun p => p.1 = k) =
      if k ∈ r.deletes then [] else r.puts.filter fun p => p.1 = k := by
    intro r
    unfold retained
    rw [List.filter_filter]
    split_ifs with hk
    · rw [filter_eq_nil_iff]
      rintro p _ hp
      simp only [Bool.and_eq_true, decide_eq_true_eq] at hp
      exact hp.2 (hp.1 ▸ hk)
    · apply filter_congr
      intro p _
      by_cases hp : p.1 = k
      · simp [hp, hk]
      · simp [hp]
  apply lookup_insertRows_congr
  · rw [lookup_eraseRows, lookup_eraseRows]
    simp only [hdeletes]
  · rw [hfilter, hfilter, hputs]
    simp only [hdeletes]

lemma filter_puts_append {puts : List (Sigma V)} {k' : K} (v : V k) (h : k' ≠ k) :
    (puts ++ [(⟨k, v⟩ : Sigma V)]).filter (fun p => p.1 = k') = puts.filter fun p => p.1 = k' := by
  simp [Ne.symm h]

lemma view_queuePut (k : K) (v : V k) : (q.queuePut k v).view s = (q.view s).insert k v := by
  apply Finmap.ext_lookup
  intro k'
  by_cases hk : k' = k
  · subst hk
    have hretained : (q.queuePut k' v).retained =
        (q.puts.filter fun p => p.1 ∉ (q.queuePut k' v).deletes) ++ [⟨k', v⟩] := by
      unfold retained queuePut
      simp
    rw [view, applyBatch, hretained, insertRows_append, Finmap.lookup_insert]
    exact Finmap.lookup_insert _
  · rw [Finmap.lookup_insert_of_ne _ hk]
    apply lookup_view_congr
    · simp [queuePut, hk]
    · exact filter_puts_append v hk

lemma view_queueDelete (k : K) : (q.queueDelete k).view s = (q.view s).erase k := by
  apply Finmap.ext_lookup
  intro k'
  by_cases hk : k' = k
  · subst hk
    rw [Finmap.lookup_erase, view, applyBatch, lookup_insertRows_of_notMem, lookup_eraseRows,
      if_pos (by simp [queueDelete])]
    simp [retained, queueDelete]
  · rw [Finmap.lookup_erase_ne hk]
    apply lookup_view_congr
    · simp [queueDelete, hk]
    · rfl

lemma lookup_view_push_of_ne {k' : K} (v : V k) (h : k' ≠ k) :
    ((q.push k v).view s).lookup k' = (q.view s).lookup k' :=
  lookup_view_congr Iff.rfl (filter_puts_append v h)

lemma lookup_view_queuePut_self (k : K) (v : V k) :
    ((q.queuePut k v).view s).lookup k = some v := by
  rw [view_queuePut, Finmap.lookup_insert]

lemma lookup_view_queuePut_of_ne {k' : K} (v : V k) (h : k' ≠ k) :
    ((q.queuePut k v).view s).lookup k' = (q.view s).lookup k' := by
  rw [view_queuePut, Finmap.lookup_insert_of_ne _ h]

lemma lookup_view_queueDelete_self (k : K) : ((q.queueDelete k).view s).lookup k = none := by
  rw [view_queueDelete, Finmap.lookup_erase]

lemma lookup_view_queueDelete_of_ne {k' : K} (h : k' ≠ k) :
    ((q.queueDelete k).view s).lookup k' = (q.view s).lookup k' := by
  rw [view_queueDelete, Finmap.lookup_erase_ne h]

lemma lookup_view_cases {s : Finmap V} {q : WriteQueue V} {v : V k}
    (h : (q.view s).lookup k = some v) : ⟨k, v⟩ ∈ q.puts ∨ s.lookup k = some v := by
  rw [view, applyBatch] at h
  by_cases hput : k ∈ q.retained.map Sigma.fst
  · obtain ⟨v', hmem, hv'⟩ := lookup_insertRows_mem (eraseRows s q.deletes) hput
    cases hv'.symm.trans h
    exact .inl (mem_of_mem_filter hmem)
  · rw [lookup_insertRows_of_notMem _ hput, lookup_eraseRows] at h
    split_ifs at h
    exact .inr h

lemma lookup_view_ne_none {q : WriteQueue V} (hk : k ∉ q.deletes)
    (hrow : k ∈ q.puts.map Sigma.fst ∨ s.lookup k ≠ none) : (q.view s).lookup k ≠ none := by
  have hretained : k ∈ q.puts.map Sigma.fst → k ∈ q.retained.map Sigma.fst := by
    intro hput
    obtain ⟨p, hp, rfl⟩ := List.mem_map.1 hput
    exact List.mem_map.2 ⟨p, mem_filter.2 ⟨hp, by simpa using hk⟩, rfl⟩
  rw [view, applyBatch]
  by_cases hput : k ∈ q.retained.map Sigma.fst
  · obtain ⟨v, -, hv⟩ := lookup_insertRows_mem (eraseRows s q.deletes) hput
    simp [hv]
  · rw [lookup_insertRows_of_notMem _ hput, lookup_eraseRows, if_neg hk]
    exact hrow.resolve_left fun hmem => hput (hretained hmem)

end WriteQueue

/-! ## The journal -/

/-- What to restore for each key a batch touches: known values first, then those read for deleted
keys and for puts that `requires` names, and none for the other puts. -/
def undoChanges (requires : K → Bool) (s : Finmap V) (deletes : List K) (puts : List (Sigma V))
    (preimages : AList fun k => Option (V k)) : List (Σ k, Option (V k)) :=
  let putKeys := puts.map Sigma.fst
  let known := preimages.entries.filter fun e => e.1 ∈ putKeys ∨ e.1 ∈ deletes
  let read := (deletes ++ putKeys.filter requires).filter fun k => k ∉ preimages
  let fresh := putKeys.filter fun k => k ∉ preimages ∧ requires k = false
  known ++ (read.dedup.map fun k => ⟨k, s.lookup k⟩) ++ fresh.dedup.map fun k => ⟨k, none⟩

/-- The journal of a batch tells the truth about the store. -/
structure JournalSound (requires : K → Bool) (s : Finmap V) (puts : List (Sigma V))
    (preimages : AList fun k => Option (V k)) : Prop where
  known : ∀ e ∈ preimages.entries, e.2 = s.lookup e.1
  fresh : ∀ p ∈ puts, p.1 ∈ preimages ∨ requires p.1 = true ∨ s.lookup p.1 = none

variable {requires : K → Bool} {puts : List (Sigma V)}

/-- A sound journal records for each key what the store held. -/
theorem undoChanges_eq {s : Finmap V} {preimages : AList fun k => Option (V k)}
    (h : JournalSound requires s puts preimages) (deletes : List K) {k : K} {v : Option (V k)}
    (hmem : ⟨k, v⟩ ∈ undoChanges requires s deletes puts preimages) : v = s.lookup k := by
  unfold undoChanges at hmem
  simp only [mem_append, mem_filter, List.mem_map, mem_dedup] at hmem
  rcases hmem with (⟨hknown, -⟩ | ⟨k', -, heq⟩) | ⟨k', ⟨⟨p, hp, rfl⟩, hnew⟩, heq⟩
  · exact h.known _ hknown
  · cases heq
    rfl
  · cases heq
    have hnew := of_decide_eq_true hnew
    rcases h.fresh p hp with hk | hk | hk
    · exact absurd hk hnew.1
    · exact absurd hk (by simp [hnew.2])
    · exact hk.symm

variable (preimages : AList fun k => Option (V k))

lemma mem_undoChanges {deletes : List K} {k : K} (hk : k ∈ puts.map Sigma.fst ∨ k ∈ deletes) :
    k ∈ (undoChanges requires s deletes puts preimages).map Sigma.fst := by
  unfold undoChanges
  rw [map_append, map_append, mem_append, mem_append]
  by_cases hknown : k ∈ preimages
  · left
    left
    obtain ⟨e, he, rfl⟩ := List.mem_map.1 (AList.mem_keys.1 hknown)
    exact List.mem_map.2 ⟨e, mem_filter.2 ⟨he, by simpa using hk⟩, rfl⟩
  · by_cases hread : k ∈ deletes ∨ requires k = true
    · left
      right
      refine List.mem_map.2 ⟨⟨k, s.lookup k⟩, List.mem_map.2 ⟨k, ?_, rfl⟩, rfl⟩
      rw [mem_dedup, mem_filter, mem_append, mem_filter]
      refine ⟨?_, by simpa using hknown⟩
      rcases hk with hput | hdelete
      · rcases hread with hdelete | hreq
        · exact .inl hdelete
        · exact .inr ⟨hput, hreq⟩
      · exact .inl hdelete
    · right
      rw [not_or] at hread
      have hput := hk.resolve_right hread.1
      refine List.mem_map.2 ⟨⟨k, none⟩, List.mem_map.2 ⟨k, ?_, rfl⟩, rfl⟩
      rw [mem_dedup, mem_filter]
      exact ⟨hput, by simpa [hknown] using hread.2⟩

lemma lookup_undo_of_notMem {deletes : List K} {k : K}
    (hk : k ∉ (undoChanges requires s deletes puts preimages).map Sigma.fst) :
    (writeRows (applyBatch s deletes puts) (undoChanges requires s deletes puts preimages)).lookup k =
      s.lookup k := by
  have hnot : ¬ (k ∈ puts.map Sigma.fst ∨ k ∈ deletes) := fun hmem =>
    hk (mem_undoChanges s preimages hmem)
  rw [not_or] at hnot
  rw [lookup_writeRows_of_notMem _ hk, applyBatch, lookup_insertRows_of_notMem _ hnot.1,
    lookup_eraseRows, if_neg hnot.2]

/-- Applying a sound journal undoes its batch. -/
theorem writeRows_undoChanges {s : Finmap V} {preimages : AList fun k => Option (V k)}
    (h : JournalSound requires s puts preimages) (deletes : List K) :
    writeRows (applyBatch s deletes puts) (undoChanges requires s deletes puts preimages) = s := by
  apply Finmap.ext_lookup
  intro k
  by_cases hk : k ∈ (undoChanges requires s deletes puts preimages).map Sigma.fst
  · exact undoChanges_eq h deletes (lookup_writeRows_mem _ hk)
  · exact lookup_undo_of_notMem s preimages hk

/-- Whatever the journal knows, undoing a batch gives a key the value it had, none, or the one that is
known for it. -/
theorem lookup_undo_cases (requires : K → Bool) (s : Finmap V) (puts : List (Sigma V))
    (preimages : AList fun k => Option (V k)) (deletes : List K) (k : K) :
    let undone := writeRows (applyBatch s deletes puts) (undoChanges requires s deletes puts preimages)
    undone.lookup k = s.lookup k ∨ undone.lookup k = none ∨
      ⟨k, undone.lookup k⟩ ∈ preimages.entries := by
  intro undone
  by_cases hk : k ∈ (undoChanges requires s deletes puts preimages).map Sigma.fst
  · have hmem : ⟨k, undone.lookup k⟩ ∈ undoChanges requires s deletes puts preimages :=
      lookup_writeRows_mem _ hk
    unfold undoChanges at hmem
    simp only [mem_append, mem_filter, List.mem_map] at hmem
    rcases hmem with (⟨hknown, -⟩ | ⟨k', -, heq⟩) | ⟨k', -, heq⟩
    · exact .inr (.inr hknown)
    · obtain ⟨rfl, heq⟩ := Sigma.mk.inj_iff.1 heq
      exact .inl (eq_of_heq heq).symm
    · obtain ⟨rfl, heq⟩ := Sigma.mk.inj_iff.1 heq
      exact .inr (.inl (eq_of_heq heq).symm)
  · exact .inl (lookup_undo_of_notMem s preimages hk)

end Lib
