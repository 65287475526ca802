import Espo.Lib.Table

/-!
# Batches of deletes and puts

A batch deletes keys and then puts rows. Dropping repeated operations, and deletes of keys that are put,
does not change what it does.

`TwoWay` is an index of the same entries by two keys. A batch that replaces a group of entries keeps such
an index, if the keys that it gives out were free or belonged to the group.
-/

namespace Lib
namespace Table
variable {K V : Type*} [DecidableEq K]

/-- Delete keys one after the other. -/
def deleteAll (t : Table K V) (keys : List K) : Table K V := keys.foldl delete t

variable (t : Table K V)

lemma get_deleteAll (keys : List K) (k : K) :
    (t.deleteAll keys).get k = if k ∈ keys then none else t.get k := by
  induction keys generalizing t with
  | nil => rfl
  | cons key keys ih =>
    have hrest : (t.deleteAll (key :: keys)).get k = ((t.delete key).deleteAll keys).get k := rfl
    rw [hrest, ih, get_delete]
    by_cases hmem : k ∈ keys
    · rw [if_pos hmem, if_pos (List.mem_cons_of_mem key hmem)]
    · by_cases heq : k = key
      · rw [if_neg hmem, if_pos heq, if_pos (heq ▸ List.mem_cons_self)]
      · rw [if_neg hmem, if_neg heq, if_neg (by simp [hmem, heq])]

variable {entries puts : List (K × V)}

lemma get_putAll_congr (s t : Table K V) {k : K} (h : k ∈ entries.map Prod.fst) :
    (s.putAll entries).get k = (t.putAll entries).get k := by
  obtain ⟨v, -, hget⟩ := exists_get_putAll h
  rw [hget, hget]

lemma get_putAll_of_nodup (hnodup : (entries.map Prod.fst).Nodup) {e : K × V} (he : e ∈ entries) :
    (t.putAll entries).get e.1 = some e.2 := by
  obtain ⟨v, hmem, hget⟩ := exists_get_putAll (List.mem_map_of_mem he)
  have heq : (e.1, v) = e := List.inj_on_of_nodup_map hnodup hmem he rfl
  rw [hget, ← heq]

/-- A batch: deletes, then puts. -/
def writeBatch (t : Table K V) (puts : List (K × V)) (deletes : List K) : Table K V :=
  (t.deleteAll deletes).putAll puts

lemma get_writeBatch_of_notMem {k : K} (h : k ∉ puts.map Prod.fst) (deletes : List K) :
    (t.writeBatch puts deletes).get k = if k ∈ deletes then none else t.get k := by
  rw [writeBatch, get_putAll_of_notMem _ h, get_deleteAll]

/-- A batch gives a table, if it puts only rows of it, and all that differ. -/
theorem get_writeBatch_eq {deletes : List K} {target : K → Option V}
    (hputs : ∀ e ∈ puts, target e.1 = some e.2)
    (hrest : ∀ k, k ∉ puts.map Prod.fst → target k = if k ∈ deletes then none else t.get k) (k : K) :
    (t.writeBatch puts deletes).get k = target k := by
  by_cases hmem : k ∈ puts.map Prod.fst
  · obtain ⟨v, hv, hget⟩ := exists_get_putAll hmem
    exact (hget _).trans (hputs (k, v) hv).symm
  · rw [get_writeBatch_of_notMem t hmem, hrest k hmem]

end Table

section Dedupe
variable {K V : Type*} [DecidableEq K]

/-- Of several puts of a key the last one. -/
def keepLast : List (K × V) → List (K × V)
  | [] => []
  | e :: entries => if e.1 ∈ entries.map Prod.fst then keepLast entries else e :: keepLast entries

/-- A batch without repetitions; puts win over deletes. -/
def dedupeOps (puts : List (K × V)) (deletes : List K) : List (K × V) × List K :=
  let puts := keepLast puts
  (puts, (deletes.filter fun k => k ∉ puts.map Prod.fst).reverse.dedup.reverse)

lemma mem_keys_keepLast (entries : List (K × V)) (k : K) :
    k ∈ (keepLast entries).map Prod.fst ↔ k ∈ entries.map Prod.fst := by
  induction entries with
  | nil => rfl
  | cons e entries ih =>
    rw [keepLast]
    split_ifs with hmem
    · rw [ih, List.map_cons, List.mem_cons, or_iff_right_of_imp]
      rintro rfl
      exact hmem
    · rw [List.map_cons, List.mem_cons, ih, List.map_cons, List.mem_cons]

lemma putAll_keepLast (t : Table K V) (entries : List (K × V)) :
    t.putAll (keepLast entries) = t.putAll entries := by
  induction entries generalizing t with
  | nil => rfl
  | cons e entries ih =>
    rw [keepLast]
    split_ifs with hmem
    · rw [ih]
      ext1 k
      by_cases hk : k ∈ entries.map Prod.fst
      · exact Table.get_putAll_congr t (t.put e.1 e.2) hk
      · have hne : k ≠ e.1 := by
          rintro rfl
          exact hk hmem
        have hcons : (t.putAll (e :: entries)).get k = ((t.put e.1 e.2).putAll entries).get k := rfl
        rw [hcons, Table.get_putAll_of_notMem _ hk, Table.get_putAll_of_notMem _ hk,
          Table.get_put_of_ne _ _ hne]
    · exact ih (t.put e.1 e.2)

/-- Dropping repetitions does not change what a batch does. -/
theorem writeBatch_dedupeOps (t : Table K V) (puts : List (K × V)) (deletes : List K) :
    t.writeBatch (dedupeOps puts deletes).1 (dedupeOps puts deletes).2 = t.writeBatch puts deletes := by
  unfold Table.writeBatch dedupeOps
  rw [putAll_keepLast]
  ext1 k
  by_cases hput : k ∈ puts.map Prod.fst
  · exact Table.get_putAll_congr _ _ hput
  · have hkeep : k ∉ (keepLast puts).map Prod.fst := fun h => hput ((mem_keys_keepLast puts k).1 h)
    rw [Table.get_putAll_of_notMem _ hput, Table.get_putAll_of_notMem _ hput, Table.get_deleteAll,
      Table.get_deleteAll]
    have hmem : k ∈ (deletes.filter fun k => k ∉ (keepLast puts).map Prod.fst).reverse.dedup.reverse
        ↔ k ∈ deletes := by
      simp [hkeep]
    simp only [hmem]

end Dedupe

/-! ## An index by two keys -/

section TwoWay
variable {E I K : Type*} [DecidableEq I] [DecidableEq K] (idOf : E → I) (keyOf : E → K)

/-- Two tables that find the same entries, each by its own key. -/
structure TwoWay (byId : Table I E) (byKey : Table K E) : Prop where
  ofId : ∀ i e, byId.get i = some e → idOf e = i ∧ byKey.get (keyOf e) = some e
  ofKey : ∀ k e, byKey.get k = some e → keyOf e = k ∧ byId.get (idOf e) = some e

variable {idOf keyOf} {byId : Table I E} {byKey : Table K E}

lemma TwoWay.empty : TwoWay idOf keyOf ∅ ∅ := ⟨fun _ _ h => by simp at h, fun _ _ h => by simp at h⟩

lemma TwoWay.symm (h : TwoWay idOf keyOf byId byKey) : TwoWay keyOf idOf byKey byId := ⟨h.ofKey, h.ofId⟩

lemma map_fst_keyed {J : Type*} (f : E → J) (entries : List E) :
    (entries.map fun e => (f e, e)).map Prod.fst = entries.map f := by
  rw [List.map_map]
  rfl

variable (h : TwoWay idOf keyOf byId byKey) {old new : List E} (hids : (new.map idOf).Nodup)
  (hkeys : (new.map keyOf).Nodup) (hold : ∀ e ∈ old, byId.get (idOf e) = some e)
  (hkey : ∀ e, byId.get (idOf e) = some e → keyOf e ∈ new.map keyOf → e ∈ old)
include h hids hkeys hold hkey

lemma TwoWay.replace_ofId {i : I} {e : E}
    (hget : (byId.writeBatch (new.map fun e => (idOf e, e)) (old.map idOf)).get i = some e) :
    idOf e = i ∧ (byKey.writeBatch (new.map fun e => (keyOf e, e)) (old.map keyOf)).get (keyOf e) = some e := by
  by_cases hi : i ∈ new.map idOf
  · obtain ⟨e', he', rfl⟩ := List.mem_map.1 hi
    have hread := Table.get_putAll_of_nodup (byId.deleteAll (old.map idOf)) (by rw [map_fst_keyed]; exact hids)
      (List.mem_map_of_mem (f := fun e => (idOf e, e)) he')
    obtain rfl : e' = e := Option.some.inj (hread.symm.trans hget)
    exact ⟨rfl, Table.get_putAll_of_nodup (byKey.deleteAll (old.map keyOf)) (by rw [map_fst_keyed]; exact hkeys)
      (List.mem_map_of_mem (f := fun e => (keyOf e, e)) he')⟩
  · rw [Table.get_writeBatch_of_notMem _ (by rw [map_fst_keyed]; exact hi)] at hget
    split_ifs at hget with hdelete
    obtain ⟨rfl, hback⟩ := h.ofId i e hget
    have hnotOld : e ∉ old := fun he => hdelete (List.mem_map_of_mem he)
    have hnotNew : keyOf e ∉ new.map keyOf := fun hmem => hnotOld (hkey e hget hmem)
    refine ⟨rfl, ?_⟩
    rw [Table.get_writeBatch_of_notMem _ (by rw [map_fst_keyed]; exact hnotNew), if_neg, hback]
    intro hmem
    obtain ⟨e', he', hsame⟩ := List.mem_map.1 hmem
    have hback' := (h.ofId _ e' (hold e' he')).2
    rw [hsame, hback] at hback'
    exact hnotOld (Option.some.inj hback' ▸ he')

/-- Entries of a group are replaced by new ones. No other entry has one of the new keys. -/
theorem TwoWay.replace (hid : ∀ e, byId.get (idOf e) = some e → idOf e ∈ new.map idOf → e ∈ old) :
    TwoWay idOf keyOf (byId.writeBatch (new.map fun e => (idOf e, e)) (old.map idOf))
      (byKey.writeBatch (new.map fun e => (keyOf e, e)) (old.map keyOf)) := by
  refine ⟨fun i e hget => h.replace_ofId hids hkeys hold hkey hget, fun k e hget => ?_⟩
  refine h.symm.replace_ofId hkeys hids ?_ ?_ hget
  · exact fun e he => (h.ofId _ e (hold e he)).2
  · exact fun e hget hmem => hid e (h.ofKey _ e hget).2 hmem

end TwoWay

end Lib
