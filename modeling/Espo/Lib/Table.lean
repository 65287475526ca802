import Espo.Lib.Instances

/-!
# Finite tables

A key-value store seen as a finite map: point reads, point writes, deletes, and deletion of every
row that fails a test. Rows are a `Finmap`, so two tables with the same reads are equal; `get`
hides the dependent type of `Finmap.lookup`.

`Extends` is the order of stores that only ever gain rows.
-/

namespace Lib

/-- A finite table from `K` to `V`. -/
structure Table (K V : Type*) where
  /-- The stored rows. -/
  rows : Finmap fun _ : K => V

namespace Table
variable {K V : Type*}

instance : EmptyCollection (Table K V) := ⟨⟨∅⟩⟩

instance : Inhabited (Table K V) := ⟨∅⟩

variable (t : Table K V)

/-- The keys that have a row. -/
def keys : Finset K := t.rows.keys

/-- The number of rows. -/
def card : ℕ := t.keys.card

/-- The values of the rows, in no particular order. -/
def values : Multiset V := t.rows.entries.map fun r => r.2

variable [DecidableEq K]

instance [DecidableEq V] : DecidableEq (Table K V) := fun s t =>
  decidable_of_iff (s.rows = t.rows) (by cases s; cases t; simp)

variable (t : Table K V)

/-- Point read. -/
def get (k : K) : Option V := t.rows.lookup k

/-- Point write: an existing row is replaced. -/
def put (k : K) (v : V) : Table K V := ⟨t.rows.insert k v⟩

/-- Point delete. -/
def delete (k : K) : Table K V := ⟨t.rows.erase k⟩

/-- Write a value, or delete the row when there is none. -/
def set (k : K) : Option V → Table K V
  | some v => t.put k v
  | none => t.delete k

/-- Write a row unless the key has one. -/
def putNew (k : K) (v : V) : Table K V :=
  if (t.get k).isNone then t.put k v else t

/-- Change the value of a key that has a row. -/
def modify (k : K) (f : V → V) : Table K V :=
  match t.get k with
  | some v => t.put k (f v)
  | none => t

/-- Write all rows of another table. -/
def overlay (t u : Table K V) : Table K V := ⟨u.rows ∪ t.rows⟩

variable (entries : List (K × V))

/-- Write rows one after the other. -/
def putAll : Table K V :=
  entries.foldl (fun t e => t.put e.1 e.2) t

/-- Keep the rows that pass a test. -/
def filter (p : K → V → Bool) : Table K V where
  rows := ⟨t.rows.entries.filter fun r => p r.1 r.2, Multiset.nodup_keys.1
    (Multiset.nodup_of_le (Multiset.map_le_map (Multiset.filter_le _ _))
      t.rows.nodupKeys.nodup_keys)⟩

/-! ## Reads -/

@[ext]
lemma ext_get {s t : Table K V} (h : ∀ k, s.get k = t.get k) : s = t := by
  exact congrArg Table.mk (Finmap.ext_lookup h)

@[simp]
lemma get_empty (k : K) : (∅ : Table K V).get k = none := rfl

lemma get_put (k k' : K) (v : V) : (t.put k v).get k' = if k' = k then some v else t.get k' := by
  by_cases h : k' = k
  · subst h
    rw [if_pos rfl]
    exact Finmap.lookup_insert t.rows
  · rw [if_neg h]
    exact Finmap.lookup_insert_of_ne t.rows h

@[simp]
lemma get_put_self (k : K) (v : V) : (t.put k v).get k = some v := by
  rw [get_put, if_pos rfl]

lemma get_put_of_ne {k k' : K} (v : V) (h : k' ≠ k) : (t.put k v).get k' = t.get k' := by
  rw [get_put, if_neg h]

lemma get_delete (k k' : K) : (t.delete k).get k' = if k' = k then none else t.get k' := by
  by_cases h : k' = k
  · subst h
    rw [if_pos rfl]
    exact Finmap.lookup_erase k' t.rows
  · rw [if_neg h]
    exact Finmap.lookup_erase_ne h

lemma get_set (k k' : K) (v : Option V) :
    (t.set k v).get k' = if k' = k then v else t.get k' := by
  cases v with
  | some v => exact get_put t k k' v
  | none => exact get_delete t k k'

lemma get_putNew (k k' : K) (v : V) :
    (t.putNew k v).get k' = if k' = k then some ((t.get k).getD v) else t.get k' := by
  unfold putNew
  cases hk : t.get k with
  | none =>
    rw [if_pos Option.isNone_none, get_put]
    rfl
  | some w =>
    rw [if_neg (by simp)]
    split_ifs with h
    · rw [h, hk]
      rfl
    · rfl

lemma get_modify (k k' : K) (f : V → V) :
    (t.modify k f).get k' = if k' = k then (t.get k').map f else t.get k' := by
  unfold modify
  cases hk : t.get k with
  | some v =>
    rw [get_put]
    split_ifs with h
    · rw [h, hk]
      rfl
    · rfl
  | none =>
    split_ifs with h
    · rw [h, hk]
      rfl
    · rfl

lemma map_get_modify {W : Type*} {f : V → V} {g : V → W} (hf : ∀ v, g (f v) = g v) (k k' : K) :
    ((t.modify k f).get k').map g = (t.get k').map g := by
  rw [get_modify]
  split_ifs
  · rw [Option.map_map]
    exact Option.map_congr fun v _ => hf v
  · rfl

lemma get_overlay (t u : Table K V) (k : K) : (t.overlay u).get k = (u.get k).or (t.get k) := by
  unfold overlay get
  by_cases h : k ∈ u.rows
  · obtain ⟨v, hv⟩ := Finmap.mem_iff.1 h
    rw [Finmap.lookup_union_left h, hv, Option.some_or]
  · rw [Finmap.lookup_union_right h, Finmap.lookup_eq_none.2 h, Option.none_or]

lemma get_putAll_of_notMem {entries : List (K × V)} {k : K} (h : k ∉ entries.map Prod.fst) :
    (t.putAll entries).get k = t.get k := by
  induction entries generalizing t with
  | nil => rfl
  | cons e entries ih =>
    rw [List.map_cons, List.mem_cons, not_or] at h
    exact (ih (t.put e.1 e.2) h.2).trans (get_put_of_ne t e.2 h.1)

lemma exists_get_putAll {entries : List (K × V)} {k : K} (h : k ∈ entries.map Prod.fst) :
    ∃ v, (k, v) ∈ entries ∧ ∀ t : Table K V, (t.putAll entries).get k = some v := by
  induction entries with
  | nil => simp at h
  | cons e entries ih =>
    by_cases hmem : k ∈ entries.map Prod.fst
    · obtain ⟨v, hv, hget⟩ := ih hmem
      exact ⟨v, List.mem_cons_of_mem _ hv, fun t => hget _⟩
    · obtain rfl : k = e.1 := (List.mem_cons.1 h).resolve_right hmem
      exact ⟨e.2, List.mem_cons_self, fun t =>
        (get_putAll_of_notMem (t.put e.1 e.2) hmem).trans (get_put_self t e.1 e.2)⟩

section
variable {α : Type*} {l : List α} {f : α → K} {k : K}

lemma exists_get_putAll_map (g : α → V) (h : k ∈ l.map f) : ∃ a ∈ l, f a = k ∧
    ∀ t : Table K V, (t.putAll (l.map fun a => (f a, g a))).get k = some (g a) := by
  have hmem : k ∈ (l.map fun a => (f a, g a)).map Prod.fst := by rwa [List.map_map]
  obtain ⟨v, hv, hget⟩ := exists_get_putAll hmem
  obtain ⟨a, ha, heq⟩ := List.mem_map.1 hv
  cases heq
  exact ⟨a, ha, rfl, hget⟩

lemma get_putAll_map_of_notMem (g : α → V) (h : k ∉ l.map f) :
    (t.putAll (l.map fun a => (f a, g a))).get k = t.get k :=
  get_putAll_of_notMem _ (by rwa [List.map_map])

end

lemma putAll_concat (e : K × V) : t.putAll (entries ++ [e]) = (t.putAll entries).put e.1 e.2 := by
  rw [putAll, List.foldl_append]
  rfl

lemma get_putAll (k : K) :
    (t.putAll entries).get k
      = (((entries.filter fun e => e.1 = k).getLast?).map Prod.snd).or (t.get k) := by
  induction entries using List.reverseRecOn with
  | nil => rfl
  | append_singleton entries e ih =>
    rw [putAll_concat, get_put]
    by_cases hk : e.1 = k
    · simp [hk]
    · simp [hk, Ne.symm hk, ih]

lemma get_eq_some_iff {t : Table K V} {k : K} {v : V} :
    t.get k = some v ↔ ⟨k, v⟩ ∈ t.rows.entries :=
  Finmap.lookup_eq_some_iff

lemma get_filter (p : K → V → Bool) (k : K) : (t.filter p).get k = (t.get k).filter (p k) := by
  ext v
  rw [get_eq_some_iff, Option.filter_eq_some_iff, get_eq_some_iff]
  simp only [filter, Multiset.mem_filter]

lemma mem_values {t : Table K V} {v : V} : v ∈ t.values ↔ ∃ k, t.get k = some v := by
  simp only [values, Multiset.mem_map, get_eq_some_iff]
  constructor
  · rintro ⟨⟨k, w⟩, hrow, rfl⟩
    exact ⟨k, hrow⟩
  · rintro ⟨k, hrow⟩
    exact ⟨⟨k, v⟩, hrow, rfl⟩

/-! ## Keys -/

lemma mem_keys {t : Table K V} {k : K} : k ∈ t.keys ↔ ∃ v, t.get k = some v := by
  unfold keys get
  rw [Finmap.mem_keys, Finmap.mem_iff]

lemma mem_keys_of_get {t : Table K V} {k : K} {v : V} (h : t.get k = some v) : k ∈ t.keys :=
  mem_keys.2 ⟨v, h⟩

lemma notMem_keys {t : Table K V} {k : K} : k ∉ t.keys ↔ t.get k = none := by
  rw [mem_keys, Option.eq_none_iff_forall_ne_some]
  exact not_exists

/-! ## Stores that only gain rows -/

/-- Every row of `s` is a row of `t`. -/
def Extends (s t : Table K V) : Prop := ∀ k v, s.get k = some v → t.get k = some v

lemma Extends.refl : Extends t t := fun _ _ h => h

lemma Extends.trans {s t u : Table K V} (h₁ : Extends s t) (h₂ : Extends t u) : Extends s u :=
  fun k v h => h₂ k v (h₁ k v h)

lemma extends_putNew (k : K) (v : V) : Extends t (t.putNew k v) := by
  intro k' w hw
  rw [get_putNew]
  split_ifs with hk
  · rw [← hk, hw]
    rfl
  · exact hw

end Table
end Lib
