import Espo.Tree.Range

/-!
# Namespaces

A module stores its rows under keys that begin with the bytes of its namespace: in the tree that all
modules share, or, when it is not versioned, in a store that other modules may share as well. `Mdb`
reads a page of the rows of a range, in either direction.

In the raw store rows of other namespaces are skipped before the page is counted. In the tree the page is
cut first. That is the same forwards, and whenever the range has an end in the namespace; backwards from
the end of all keys, the rows of later namespaces take part in the count.
-/

namespace Espo.TreeDb
open Lib List

variable {B V Id : Type*} [LinearOrder B] [DecidableEq Id]

/-- `Mdb::prefixed`. -/
def prefixed (ns key : List B) : List B := ns ++ key

variable (ns : List B) (rows : List (List B × V))

/-- The key of a row in its namespace; rows of other namespaces are left out. -/
def stripNamespace : List (List B × V) :=
  rows.filterMap fun row => if ns <+: row.1 then some (row.1.drop ns.length, row.2) else none

/-- `Mdb::scan_range_entries_page` in a versioned namespace, at the active root. -/
def scanRangeEntriesPage (disk : Table Id (BptreeNode (List B) V Id)) (root : Id) (start : List B)
    (endExclusive : Option (List B)) (offset limit : ℕ) (reverse : Bool) : List (List B × V) :=
  stripNamespace ns (rangeEntriesPageAtRoot disk root (prefixed ns start)
    (endExclusive.map (prefixed ns)) offset limit reverse)

/-! ## The raw store -/

/-- A store with its rows in the order of their keys. -/
structure RawStore (B V : Type*) [LinearOrder B] where
  rows : List (List B × V)
  sorted : rows.Pairwise fun a b => a.1 < b.1

/-- `IteratorMode`, as far as it is used. -/
inductive IteratorMode (B : Type*) where
  | forwardFrom (key : List B)
  | reverseFrom (key : List B)
  | fromEnd

variable (db : RawStore B V)

/-- `DB::iterator`: a reverse iteration begins at the last key that is not after the given one. -/
def RawStore.iterator : IteratorMode B → List (List B × V)
  | .forwardFrom key => db.rows.filter fun row => key ≤ row.1
  | .reverseFrom key => (db.rows.filter fun row => row.1 ≤ key).reverse
  | .fromEnd => db.rows.reverse

/-- The variables of the loop. -/
structure RawScan (B V : Type*) where
  skipped : ℕ
  out : List (List B × V)

/-- One row of the iteration; `true` leaves the loop. -/
def rawRow (ns nsStart : List B) (nsEnd : Option (List B)) (offset limit : ℕ) (reverse : Bool)
    (st : RawScan B V) (row : List B × V) : RawScan B V × Bool :=
  if reverse && decide (row.1 < nsStart) then (st, true)
  else if pastEnd nsEnd row.1 then (st, !reverse)
  else if ¬ ns <+: row.1 then (st, false)
  else if st.skipped < offset then ({ st with skipped := st.skipped + 1 }, false)
  else
    let out := st.out ++ [(row.1.drop ns.length, row.2)]
    ({ st with out := out }, decide (limit ≤ out.length))

/-- `scan_range_entries_page_unversioned`. -/
def scanRangeEntriesPageUnversioned (db : RawStore B V) (nsStart : List B) (nsEnd : Option (List B))
    (offset limit : ℕ) (reverse : Bool) : List (List B × V) :=
  if limit = 0 then []
  else
    let mode := if reverse then (nsEnd.map IteratorMode.reverseFrom).getD .fromEnd
      else .forwardFrom nsStart
    (foldUntil (rawRow ns nsStart nsEnd offset limit reverse) ⟨0, []⟩ (db.iterator mode)).1.out

variable (start : List B) (endExclusive : Option (List B))

/-- The rows of a range, of all namespaces. -/
def rowsInRange : List (List B × V) :=
  rows.filter fun row => decide (prefixed ns start ≤ row.1) &&
    !pastEnd (endExclusive.map (prefixed ns)) row.1

/-- The rows of a namespace in a range, with their keys in the namespace. -/
def ownRows : List (List B × V) :=
  stripNamespace ns (rowsInRange ns rows start endExclusive)

/-- The rows of a range that are of other namespaces. -/
def foreignRows : List (List B × V) :=
  (rowsInRange ns rows start endExclusive).filter fun row => !decide (ns <+: row.1)

/-- The order of a direction. -/
def directed {α : Type*} (reverse : Bool) (l : List α) : List α := if reverse then l.reverse else l

/-! ## The page of the raw store -/

/-- The loop over the raw store ends at this key. -/
def leavesAt (nsStart : List B) (nsEnd : Option (List B)) (reverse : Bool) (key : List B) : Bool :=
  (reverse && decide (key < nsStart)) || (!reverse && pastEnd nsEnd key)

variable {ns : List B}

lemma pages_rawRow (ns nsStart : List B) (nsEnd : Option (List B)) (offset limit : ℕ) (reverse : Bool) :
    Pages (rawRow ns nsStart nsEnd offset limit reverse) RawScan.out (offset - ·.skipped) (some limit)
      (fun row => leavesAt nsStart nsEnd reverse row.1) fun row : List B × V =>
        if !pastEnd nsEnd row.1 then if ns <+: row.1 then some (row.1.drop ns.length, row.2) else none
        else none := by
  have hinside : ∀ (st : RawScan B V) (row r : List B × V), leavesAt nsStart nsEnd reverse row.1 = false →
      (if !pastEnd nsEnd row.1 then if ns <+: row.1 then some (row.1.drop ns.length, row.2) else none
        else none) = some r → rawRow ns nsStart nsEnd offset limit reverse st row =
          if st.skipped < offset then ({ st with skipped := st.skipped + 1 }, false)
          else ({ st with out := st.out ++ [r] }, decide (limit ≤ (st.out ++ [r]).length)) := by
    intro st row r h hsome
    unfold leavesAt at h
    unfold rawRow
    cases reverse <;> cases hpast : pastEnd nsEnd row.1 <;> simp_all
  constructor
  case leave =>
    intro st row h
    unfold leavesAt at h
    unfold rawRow
    cases reverse <;> simp_all
  case pass =>
    -- only a reverse loop goes on after a key past the end
    intro st row h hnone
    unfold leavesAt at h
    unfold rawRow
    cases reverse <;> cases hpast : pastEnd nsEnd row.1 <;> simp_all
  case skip =>
    intro st row r h hsome hpos
    rw [hinside st row r h hsome, if_pos (by omega)]
    exact ⟨rfl, rfl, by dsimp only; omega⟩
  case collect =>
    intro st row r h hsome hzero
    rw [hinside st row r h hsome, if_neg (by omega), length_append]
    exact ⟨rfl, rfl, hzero⟩

lemma iterator_inRange (ns start : List B) (endExclusive : Option (List B)) (reverse : Bool) :
    ((db.iterator (if reverse then ((endExclusive.map (prefixed ns)).map IteratorMode.reverseFrom).getD .fromEnd
        else .forwardFrom (prefixed ns start))).takeWhile fun row =>
          !leavesAt (prefixed ns start) (endExclusive.map (prefixed ns)) reverse row.1).filter
        (fun row => !pastEnd (endExclusive.map (prefixed ns)) row.1)
      = directed reverse (rowsInRange ns db.rows start endExclusive) := by
  cases reverse with
  | false =>
    have hsorted := db.sorted.filter fun row => decide (prefixed ns start ≤ row.1)
    have htake := takeWhile_eq_filter (p := fun row : List B × V =>
        !leavesAt (prefixed ns start) (endExclusive.map (prefixed ns)) false row.1)
      (hsorted.imp fun {a b} hab hb => by
        simp only [Bool.not_eq_true'] at hb ⊢
        exact Bool.eq_false_iff.2 fun ha => Bool.eq_false_iff.1 hb (pastEnd_mono hab.le ha))
    rw [if_neg Bool.false_ne_true, RawStore.iterator, htake, directed, List.filter_filter, List.filter_filter]
    apply filter_congr
    intro row _
    simp only [leavesAt]
    cases pastEnd (endExclusive.map (prefixed ns)) row.1 <;> simp
  | true =>
    -- both iterations are backwards over an initial part of the rows that has the whole range
    obtain ⟨p, hp, hmode⟩ : ∃ p : List B × V → Bool,
        (∀ row, !pastEnd (endExclusive.map (prefixed ns)) row.1 → p row) ∧
        db.iterator (((endExclusive.map (prefixed ns)).map IteratorMode.reverseFrom).getD .fromEnd)
          = (db.rows.filter p).reverse := by
      cases endExclusive with
      | none => exact ⟨fun _ => true, fun _ _ => rfl, by simp [RawStore.iterator]⟩
      | some last =>
        refine ⟨fun row => decide (row.1 ≤ prefixed ns last), ?_, rfl⟩
        intro row hrow
        simp only [pastEnd, Option.map_some, Option.any_some, Bool.not_eq_true', decide_eq_false_iff_not,
          not_le] at hrow
        exact decide_eq_true hrow.le
    have hsorted := pairwise_reverse.2 (db.sorted.filter p)
    have htake := takeWhile_eq_filter (p := fun row : List B × V =>
        !leavesAt (prefixed ns start) (endExclusive.map (prefixed ns)) true row.1)
      (hsorted.imp fun {a b} hab hb => by
        simp only [leavesAt, Bool.true_and, Bool.not_true, Bool.false_and, Bool.or_false,
          Bool.not_eq_true', decide_eq_false_iff_not, not_lt] at hb ⊢
        exact hb.trans hab.le)
    rw [if_pos rfl, hmode, htake, directed, filter_reverse,
      filter_reverse, List.filter_filter, List.filter_filter]
    congr 1
    apply filter_congr
    intro row _
    simp only [leavesAt, Bool.true_and, Bool.not_true, Bool.false_and, Bool.or_false, ← decide_not]
    cases hpast : pastEnd (endExclusive.map (prefixed ns)) row.1 with
    | true => simp
    | false => simp [hp row (by simp [hpast])]

lemma stripNamespace_directed (reverse : Bool) (rows : List (List B × V)) :
    stripNamespace ns (directed reverse rows) = directed reverse (stripNamespace ns rows) := by
  cases reverse with
  | false => rfl
  | true => exact filterMap_reverse

/-- The raw store returns a page of the rows of the namespace in the range. -/
theorem scanRangeEntriesPageUnversioned_eq (ns start : List B) (endExclusive : Option (List B))
    (offset limit : ℕ) (reverse : Bool) :
    scanRangeEntriesPageUnversioned ns db (prefixed ns start) (endExclusive.map (prefixed ns)) offset limit
        reverse
      = page offset limit (directed reverse (ownRows ns db.rows start endExclusive)) := by
  unfold scanRangeEntriesPageUnversioned
  by_cases hlimit : limit = 0
  · rw [if_pos hlimit, hlimit, page, take_zero]
  · rw [if_neg hlimit]
    have hpos : ∀ n, some limit = some n → 0 < n := fun n hn => Option.some.inj hn ▸ Nat.pos_of_ne_zero hlimit
    dsimp only
    rw [(pages_rawRow ns _ _ offset limit reverse).out_foldUntil ⟨0, []⟩ _ hpos, ← filterMap_filter,
      iterator_inRange, ← stripNamespace, stripNamespace_directed]
    rfl

/-! ## The page of the tree -/

lemma stripNamespace_of_own {rows : List (List B × V)} (h : ∀ row ∈ rows, ns <+: row.1) :
    stripNamespace ns rows = rows.map fun row => (row.1.drop ns.length, row.2) :=
  (filterMap_congr fun row hrow => if_pos (h row hrow)).trans (congrFun filterMap_eq_map rows)

lemma stripNamespace_of_foreign {rows : List (List B × V)} (h : ∀ row ∈ rows, ¬ ns <+: row.1) :
    stripNamespace ns rows = [] := by
  apply filterMap_eq_nil_iff.2
  intro row hrow
  rw [if_neg (h row hrow)]

lemma stripNamespace_page {own foreign : List (List B × V)} (hown : ∀ row ∈ own, ns <+: row.1)
    (hforeign : ∀ row ∈ foreign, ¬ ns <+: row.1) (offset limit : ℕ) (reverse : Bool) :
    stripNamespace ns (page offset limit (directed reverse (own ++ foreign)))
      = if reverse then page (offset - foreign.length) (limit - (foreign.length - offset))
            (stripNamespace ns own).reverse
        else page offset limit (stripNamespace ns own) := by
  have happend : ∀ r₁ r₂ : List (List B × V),
      stripNamespace ns (r₁ ++ r₂) = stripNamespace ns r₁ ++ stripNamespace ns r₂ :=
    fun _ _ => filterMap_append
  cases reverse with
  | false =>
    rw [directed, if_neg Bool.false_ne_true, if_neg Bool.false_ne_true, page_append, happend,
      stripNamespace_of_own fun row hrow => hown row (mem_of_mem_page hrow),
      stripNamespace_of_foreign fun row hrow => hforeign row (mem_of_mem_page hrow), append_nil,
      stripNamespace_of_own hown, page_map]
  | true =>
    rw [directed, if_pos rfl, if_pos rfl, reverse_append, page_append, happend, length_reverse,
      stripNamespace_of_foreign fun row hrow => hforeign row (mem_reverse.1 (mem_of_mem_page hrow)),
      stripNamespace_of_own fun row hrow => hown row (mem_reverse.1 (mem_of_mem_page hrow)), nil_append,
      stripNamespace_of_own hown, ← map_reverse, page_map]

section Split
variable (ns : List B) {rows : List (List B × V)} (hrows : rows.Pairwise fun a b => a.1 < b.1)
  (start : List B) (endExclusive : Option (List B))
include hrows

lemma rowsInRange_eq_append : ∃ own : List (List B × V),
    rowsInRange ns rows start endExclusive = own ++ foreignRows ns rows start endExclusive ∧
      (∀ row ∈ own, ns <+: row.1) ∧ ownRows ns rows start endExclusive = stripNamespace ns own := by
  have hsorted : (rowsInRange ns rows start endExclusive).Pairwise fun a b => a.1 < b.1 := hrows.filter _
  have hsplit := eq_filter_append_filter (p := fun row : List B × V => decide (ns <+: row.1))
    (l := rowsInRange ns rows start endExclusive) (by
      apply hsorted.imp_of_mem
      intro a b ha _ hab hb
      apply decide_eq_true
      by_contra hforeign
      -- the row after one of another namespace would be before it
      obtain ⟨key, hkey⟩ := of_decide_eq_true hb
      have hstart : prefixed ns start ≤ a.1 := by
        have hcond := (mem_filter.1 ha).2
        rw [Bool.and_eq_true, decide_eq_true_eq] at hcond
        exact hcond.1
      exact lt_asymm hab (hkey ▸ append_lt_of_not_isStart hstart hforeign key))
  refine ⟨_, hsplit, fun row hrow => of_decide_eq_true (mem_filter.1 hrow).2, ?_⟩
  have hforeign : ∀ row ∈ foreignRows ns rows start endExclusive, ¬ ns <+: row.1 := fun row hrow => by
    simpa using (mem_filter.1 hrow).2
  conv_lhs => rw [ownRows, hsplit, stripNamespace, filterMap_append, ← stripNamespace, ← stripNamespace]
  rw [← foreignRows, stripNamespace_of_foreign hforeign, append_nil]

lemma nodup_ownRows : (ownRows ns rows start endExclusive).Nodup := by
  obtain ⟨own, hsplit, hown, hrowsOwn⟩ := rowsInRange_eq_append ns hrows start endExclusive
  have hnodup : (rowsInRange ns rows start endExclusive).Nodup :=
    (hrows.filter _).imp fun {a b} hab heq => (heq ▸ hab).ne rfl
  rw [hsplit] at hnodup
  rw [hrowsOwn, stripNamespace_of_own hown]
  apply List.Nodup.map_on _ (nodup_append.1 hnodup).1
  intro a ha b hb heq
  obtain ⟨hkey, hvalue⟩ := Prod.mk.inj heq
  obtain ⟨s, hs⟩ := hown a ha
  obtain ⟨t, ht⟩ := hown b hb
  rw [← hs, ← ht, drop_left, drop_left] at hkey
  exact Prod.ext (by rw [← hs, ← ht, hkey]) hvalue

end Split

/-- The page of the raw store is the page of the rows of the namespace in the range. The tree returns the
same page in all cases but one: backwards, over a range with rows of other namespaces, when the page of all
rows does not have the same rows of the namespace. -/
theorem scanRangeEntriesPage_eq_iff {disk : Table Id (BptreeNode (List B) V Id)} {root : Id}
    {m : List (LeafEntry (List B) V)} (h : RootDenotes disk.get root m) {db : RawStore B V}
    (hdb : db.rows = liveEntries m) (ns start : List B) (endExclusive : Option (List B))
    (offset limit : ℕ) (reverse : Bool) :
    scanRangeEntriesPageUnversioned ns db (prefixed ns start) (endExclusive.map (prefixed ns)) offset limit
        reverse
      = ((directed reverse (ownRows ns db.rows start endExclusive)).drop offset).take limit ∧
    let own := (ownRows ns db.rows start endExclusive).length
    let foreign := (foreignRows ns db.rows start endExclusive).length
    scanRangeEntriesPage ns disk root start endExclusive offset limit reverse
        = scanRangeEntriesPageUnversioned ns db (prefixed ns start) (endExclusive.map (prefixed ns)) offset
            limit reverse ↔
      reverse = false ∨ limit = 0 ∨ foreign = 0 ∨ own = 0 ∨ (offset = 0 ∧ foreign + own ≤ limit) ∨
        (own ≤ offset ∧ (foreign + own ≤ offset ∨ offset + limit ≤ foreign)) := by
  refine ⟨scanRangeEntriesPageUnversioned_eq db ns start endExclusive offset limit reverse, ?_⟩
  have hforeign : ∀ row ∈ foreignRows ns db.rows start endExclusive, ¬ ns <+: row.1 := fun row hrow => by
    simpa using (mem_filter.1 hrow).2
  have hrange : rangeContents m (prefixed ns start) (endExclusive.map (prefixed ns))
      = rowsInRange ns db.rows start endExclusive := by
    rw [hdb]
    rfl
  have hnodup := nodup_ownRows ns db.sorted start endExclusive
  obtain ⟨own, hsplit, hown, hrows⟩ := rowsInRange_eq_append ns db.sorted start endExclusive
  rw [scanRangeEntriesPageUnversioned_eq, scanRangeEntriesPage, rangeEntriesPageAtRoot_eq h, hrange, hsplit]
  show stripNamespace ns (page offset limit (directed reverse _)) = _ ↔ _
  rw [stripNamespace_page hown hforeign, ← hrows]
  cases reverse with
  | false =>
    simp [directed]
  | true =>
    have hreverse := nodup_reverse.2 hnodup
    rw [if_pos rfl, directed, if_pos rfl, page_shifted_eq_iff hreverse]
    simp

/-- A tree of one leaf, with a key of namespace 1 and a key of namespace 2. -/
def twoNamespaces : Table ℕ (BptreeNode (List (Fin 256)) ℕ ℕ) :=
  Table.put ∅ 0 (.leaf ⟨[⟨[1, 5], some 7⟩, ⟨[2], some 8⟩], none⟩)

/-- A store with the same keys. -/
def twoNamespacesRaw : RawStore (Fin 256) ℕ := ⟨[([1, 5], 7), ([2], 8)], by decide⟩

lemma rootDenotes_twoNamespaces :
    RootDenotes twoNamespaces.get 0 [⟨[1, 5], some 7⟩, ⟨[2], some 8⟩] := by
  refine ⟨0, ⟨none, Table.get_put_self _ _ _⟩, ?_, fun e _ => inRange_bot_top e.key, by decide⟩
  simp only [SortedEntries]
  decide

theorem scanRangeEntriesPage_eq_iff_twoNamespaces :
    (foreignRows [1] twoNamespacesRaw.rows [] none).length = 1 ∧
      scanRangeEntriesPage [1] twoNamespaces 0 [] none 0 2 true
        = scanRangeEntriesPageUnversioned [1] twoNamespacesRaw (prefixed [1] [])
            (Option.map (prefixed [1]) none) 0 2 true := by
  refine ⟨by decide, ?_⟩
  apply (scanRangeEntriesPage_eq_iff rootDenotes_twoNamespaces rfl [1] [] none 0 2 true).2.2
  decide

/-- The last page of one row of namespace 1: the tree counts the row of namespace 2 and returns nothing. -/
theorem lastPage_twoNamespaces :
    RootDenotes twoNamespaces.get 0 [⟨[1, 5], some 7⟩, ⟨[2], some 8⟩] ∧
      scanRangeEntriesPage [1] twoNamespaces 0 [] none 0 1 true = [] ∧
      scanRangeEntriesPageUnversioned [1] twoNamespacesRaw (prefixed [1] [])
        (Option.map (prefixed [1]) none) 0 1 true = [([5], 7)] :=
  ⟨rootDenotes_twoNamespaces, by decide +kernel, by decide +kernel⟩

end Espo.TreeDb
