import Espo.Lib.IndexedRows

/-!
# Values by version

Rows that keep the values something had, each under the number it was set at, with a list of these numbers.
A read as of a number takes the greatest number up to it. Numbers are recorded in ascending order, and then a
new record is seen from its number on and hides nothing before.
-/

namespace Lib

/-- The rows of a value. -/
structure Versions (V : Type*) where
  values : Table ℕ V
  numbers : IndexedRows ℕ

namespace Versions
variable {V : Type*}

/-- Nothing recorded. -/
def empty : Versions V := ⟨∅, .empty⟩

variable (vs : Versions V)

/-- Record a value at a number. -/
def record (n : ℕ) (v : V) : Versions V := ⟨vs.values.put n v, vs.numbers.append [n]⟩

variable (bound : ℕ)

/-- The greatest number up to a bound. -/
def greatestUpTo (numbers : List ℕ) : Option ℕ :=
  numbers.foldl (fun best n => if n ≤ bound then some ((best.map (max · n)).getD n) else best) none

/-- The number a read finds. -/
def found : Option ℕ := greatestUpTo bound vs.numbers.read

/-- The value as of a number. -/
def valueAt : Option V := (vs.found bound).bind vs.values.get

/-- All records are below a number. -/
def Below (n : ℕ) : Prop := ∃ l, vs.numbers.Holds l ∧ ∀ k ∈ l, k < n

lemma below_empty (n : ℕ) : (empty : Versions V).Below n :=
  ⟨[], IndexedRows.holds_empty, fun _ h => absurd h List.not_mem_nil⟩

variable {vs : Versions V}

lemma Below.mono {m n : ℕ} (h : vs.Below m) (hmn : m ≤ n) : vs.Below n := by
  obtain ⟨l, hl, hlt⟩ := h
  exact ⟨l, hl, fun k hk => (hlt k hk).trans_le hmn⟩

lemma Below.record {m n : ℕ} (h : vs.Below m) (hmn : m ≤ n) (v : V) : (vs.record n v).Below (n + 1) := by
  obtain ⟨l, hl, hlt⟩ := h
  refine ⟨l ++ [n], hl.append [n], fun k hk => ?_⟩
  rcases List.mem_append.1 hk with hmem | hlast
  · have := hlt k hmem
    omega
  · rw [List.mem_singleton.1 hlast]
    omega

lemma greatestUpTo_concat (numbers : List ℕ) (n : ℕ) :
    greatestUpTo bound (numbers ++ [n])
      = if n ≤ bound then some (((greatestUpTo bound numbers).map (max · n)).getD n)
        else greatestUpTo bound numbers := by
  rw [greatestUpTo, List.foldl_append]
  rfl

lemma greatestUpTo_spec {bound : ℕ} {numbers : List ℕ} {k : ℕ}
    (h : greatestUpTo bound numbers = some k) : k ∈ numbers ∧ k ≤ bound := by
  induction numbers using List.reverseRecOn generalizing k with
  | nil => cases h
  | append_singleton numbers n ih =>
    rw [greatestUpTo_concat] at h
    split_ifs at h with hn
    · cases hbest : greatestUpTo bound numbers with
      | none =>
        rw [hbest] at h
        cases h
        exact ⟨List.mem_append_right _ List.mem_cons_self, hn⟩
      | some best =>
        rw [hbest] at h
        cases h
        show max best n ∈ _ ∧ max best n ≤ bound
        obtain ⟨hmem, hle⟩ := ih hbest
        rcases max_choice best n with hmax | hmax
        · rw [hmax]
          exact ⟨List.mem_append_left _ hmem, hle⟩
        · rw [hmax]
          exact ⟨List.mem_append_right _ List.mem_cons_self, hn⟩
    · obtain ⟨hmem, hle⟩ := ih h
      exact ⟨List.mem_append_left _ hmem, hle⟩

/-- A record above all others is seen from its number on. -/
theorem Below.found_record {n : ℕ} (h : vs.Below n) (v : V) (bound : ℕ) :
    (vs.record n v).found bound = if n ≤ bound then some n else vs.found bound := by
  obtain ⟨l, hl, hlt⟩ := h
  rw [found, found, Versions.record, (hl.append [n]).read_eq, hl.read_eq, greatestUpTo_concat]
  cases hbest : greatestUpTo bound l with
  | none => rfl
  | some best =>
    have hle : best ≤ n := (hlt best (greatestUpTo_spec hbest).1).le
    rw [Option.map_some, Option.getD_some, max_eq_right hle]

lemma Below.valueAt_record {n : ℕ} (h : vs.Below n) (v : V) (bound : ℕ) :
    (vs.record n v).valueAt bound = if n ≤ bound then some v else vs.valueAt bound := by
  rw [valueAt, h.found_record]
  split_ifs with hn
  · exact Table.get_put_self _ _ _
  · rw [valueAt]
    cases hfound : vs.found bound with
    | none => rfl
    | some k =>
      have hk : k ≤ bound := (greatestUpTo_spec hfound).2
      exact Table.get_put_of_ne _ _ (by omega)

end Versions
end Lib
