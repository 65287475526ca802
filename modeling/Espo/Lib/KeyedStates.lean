import Espo.Lib.Table

/-!
# States by key

A table that has a state for each key; a key without a row has a given state. Some keys are updated one
after the other, each from its own state, and an update may fail. No key is updated twice, so the order does
not matter: every key that is named gets its update, from the state before, and the others stay.
-/

namespace Lib.Table
variable {K S E : Type*} [DecidableEq K]

/-- The state of a key. -/
def stateAt (dflt : S) (t : Table K S) (k : K) : S := (t.get k).getD dflt

/-- Update the state of one key. -/
def updateState (dflt : S) (key : E → K) (f : E → S → Option S) (t : Table K S) (e : E) :
    Option (Table K S) :=
  (f e (t.stateAt dflt (key e))).map (t.put (key e))

/-- Update the states of some keys. -/
def updateStates (dflt : S) (key : E → K) (f : E → S → Option S) (t : Table K S) (entries : List E) :
    Option (Table K S) :=
  entries.foldlM (updateState dflt key f) t

variable {dflt : S} {key : E → K} {f : E → S → Option S} {t t' : Table K S}

lemma stateAt_put (t : Table K S) (k k' : K) (s : S) :
    (t.put k s).stateAt dflt k' = if k' = k then s else t.stateAt dflt k' := by
  rw [stateAt, get_put]
  split_ifs <;> rfl

lemma updateState_eq_some {e : E} (h : updateState dflt key f t e = some t') (k : K) :
    (k = key e → f e (t.stateAt dflt k) = some (t'.stateAt dflt k)) ∧
    (k ≠ key e → t'.stateAt dflt k = t.stateAt dflt k) := by
  obtain ⟨s, hs, rfl⟩ := Option.map_eq_some_iff.1 h
  rw [stateAt_put]
  constructor
  · rintro rfl
    rw [if_pos rfl, hs]
  · intro hne
    rw [if_neg hne]

lemma updateStates_eq_some {entries : List E} (hnodup : (entries.map key).Nodup)
    (h : updateStates dflt key f t entries = some t') (k : K) :
    (∀ e ∈ entries, key e = k → f e (t.stateAt dflt k) = some (t'.stateAt dflt k)) ∧
    (k ∉ entries.map key → t'.stateAt dflt k = t.stateAt dflt k) := by
  induction entries generalizing t with
  | nil =>
    cases h
    exact ⟨fun _ hmem => absurd hmem List.not_mem_nil, fun _ => rfl⟩
  | cons e entries ih =>
    rw [updateStates, List.foldlM_cons, Option.bind_eq_bind, Option.bind_eq_some_iff] at h
    obtain ⟨mid, hmid, hrest⟩ := h
    obtain ⟨hfresh, hnodup'⟩ := List.nodup_cons.1 hnodup
    obtain ⟨hin, hout⟩ := ih hnodup' hrest
    obtain ⟨hhere, helse⟩ := updateState_eq_some hmid k
    constructor
    · intro e' hmem hkey
      rcases List.mem_cons.1 hmem with rfl | hmem
      · rw [hout (hkey ▸ hfresh)]
        exact hhere hkey.symm
      · have hne : k ≠ key e := by
          rintro rfl
          exact hfresh (List.mem_map.2 ⟨e', hmem, hkey⟩)
        rw [← helse hne]
        exact hin e' hmem hkey
    · intro hnot
      rw [List.map_cons, List.mem_cons, not_or] at hnot
      rw [hout hnot.2, helse hnot.1]

/-- The updates of a map, in any order. -/
theorem updateStates_entries {D : Type*} {f : (Sigma fun _ : K => D) → S → Option S}
    {m : AList fun _ : K => D} {entries : List (Sigma fun _ : K => D)} (hperm : entries.Perm m.entries)
    (h : updateStates dflt Sigma.fst f t entries = some t') (k : K) :
    (∃ d, m.lookup k = some d ∧ f ⟨k, d⟩ (t.stateAt dflt k) = some (t'.stateAt dflt k)) ∨
    m.lookup k = none ∧ t'.stateAt dflt k = t.stateAt dflt k := by
  have hnodup : (entries.map Sigma.fst).Nodup := by
    rw [(hperm.map Sigma.fst).nodup_iff]
    exact m.nodupKeys
  obtain ⟨hin, hout⟩ := updateStates_eq_some hnodup h k
  cases hlookup : m.lookup k with
  | some d => exact .inl ⟨d, rfl, hin ⟨k, d⟩ (hperm.mem_iff.2 (AList.mem_lookup_iff.1 hlookup)) rfl⟩
  | none =>
    refine .inr ⟨rfl, hout ?_⟩
    rw [(hperm.map Sigma.fst).mem_iff]
    exact AList.lookup_eq_none.1 hlookup

end Lib.Table
