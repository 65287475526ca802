import Espo.Lib.SearchChain
import Espo.Lib.Table

/-!
# Nodes of the versioned tree (`runtime/tree_db.rs`)

The persistent Merkle B+tree stores immutable nodes under their hash.

Keys are any linear order (the source uses byte strings), values any type, and node ids any type
with a collision-free hash (`NodeHash`).
-/

namespace Espo.TreeDb
open Lib List

/-- `MAX_LEAF_ENTRIES`: a leaf with more entries is split. -/
def maxLeafEntries : ℕ := 128

/-- `MAX_INTERNAL_KEYS`: an internal node with more separators is split. -/
def maxInternalKeys : ℕ := 128

/-- An entry of a leaf. An entry without a value is a tombstone of an older version. -/
structure LeafEntry (K V : Type*) where
  key : K
  value : Option V
deriving DecidableEq

/-- A leaf: its entries and the id of the leaf to its right when it was split off. -/
structure LeafNode (K V Id : Type*) where
  entries : List (LeafEntry K V)
  next : Option Id
deriving DecidableEq

/-- An internal node: separators (the first key of each right child) and child ids. -/
structure InternalNode (K Id : Type*) where
  keys : List K
  children : List Id
deriving DecidableEq

/-- A node of the tree. -/
inductive BptreeNode (K V Id : Type*) where
  | leaf (node : LeafNode K V Id)
  | internal (node : InternalNode K Id)
deriving DecidableEq

/-- `hash_node`: SHA-256 of the serialized node, taken as collision-free. -/
class NodeHash (K V Id : Type*) where
  hashNode : BptreeNode K V Id → Id
  hashNode_injective : Function.Injective hashNode

export NodeHash (hashNode hashNode_injective)

/-- A collision-free hash into the natural numbers: the code of the node. -/
instance {K V : Type*} [Encodable K] [Encodable V] : NodeHash K V ℕ where
  hashNode
    | .leaf n => 2 * Encodable.encode (n.entries.map fun e => (e.key, e.value), n.next)
    | .internal n => 2 * Encodable.encode (n.keys, n.children) + 1
  hashNode_injective := by
    have hentry : Function.Injective fun e : LeafEntry K V => (e.key, e.value) := by
      rintro ⟨k, v⟩ ⟨k', v'⟩ h
      simpa using h
    rintro (⟨es, next⟩ | ⟨ks, cs⟩) (⟨es', next'⟩ | ⟨ks', cs'⟩) h <;> dsimp only at h
    · have hcode := Encodable.encode_injective (Nat.eq_of_mul_eq_mul_left Nat.two_pos h)
      simp only [Prod.mk.injEq, (map_injective_iff.2 hentry).eq_iff] at hcode
      simp [hcode]
    · omega
    · omega
    · have hcode := Encodable.encode_injective
        (Nat.eq_of_mul_eq_mul_left Nat.two_pos (Nat.succ_injective h))
      simp only [Prod.mk.injEq] at hcode
      simp [hcode]

variable {K V Id : Type*}

/-- `LeafNode::default()`. -/
def emptyLeaf : BptreeNode K V Id := .leaf ⟨[], none⟩

/-- `empty_root_id`. -/
def emptyRootId (K V Id : Type*) [NodeHash K V Id] : Id := hashNode (emptyLeaf : BptreeNode K V Id)

/-- The children of a node; a leaf has none. -/
def BptreeNode.children : BptreeNode K V Id → List Id
  | .leaf _ => []
  | .internal node => node.children

section Search
variable [LinearOrder K]

/-- One step of the binary search for the first separator above `key`, between `lo` and `hi`. -/
def childIndexLoop (keys : List K) (key : K) : ℕ → ℕ → ℕ → ℕ
  | 0, lo, _ => lo
  | fuel + 1, lo, hi =>
    if lo < hi then
      match keys[(lo + hi) / 2]? with
      | some mid =>
        if key < mid then childIndexLoop keys key fuel lo ((lo + hi) / 2)
        else childIndexLoop keys key fuel ((lo + hi) / 2 + 1) hi
      | none => lo
    else lo

/-- `child_index_for_key`: the upper bound of `key` in the separators, by binary search. The
interval shrinks in every iteration, so `keys.length` iterations are enough. -/
def childIndexForKey (keys : List K) (key : K) : ℕ :=
  childIndexLoop keys key keys.length 0 keys.length

variable (entries : List (LeafEntry K V))

/-- `binary_search_by` on the entries of a leaf: the index of the entry with the key, or the index
at which it would be inserted. -/
def searchEntries (key : K) : Except ℕ ℕ :=
  let idx := (entries.takeWhile fun e => e.key < key).length
  match entries[idx]? with
  | some e => if e.key = key then .ok idx else .error idx
  | none => .error idx

/-- The write of `mutate_node` to the entries of a leaf, and whether it changed them. -/
def writeEntry [DecidableEq V] (entries : List (LeafEntry K V)) (key : K) (value : Option V) :
    List (LeafEntry K V) × Bool :=
  match searchEntries entries key, value with
  | .ok idx, some next =>
    if entries[idx]?.bind LeafEntry.value ≠ some next then
      (entries.modify idx fun e => { e with value := some next }, true)
    else (entries, false)
  -- deletes remove the key instead of leaving a tombstone
  | .ok idx, none => (entries.eraseIdx idx, true)
  | .error idx, some next => (entries.insertIdx idx ⟨key, some next⟩, true)
  | .error _, none => (entries, false)

/-- The whole edit of a leaf: the write, then the removal of tombstones left by older versions. -/
def editEntries [DecidableEq V] (entries : List (LeafEntry K V)) (key : K) (value : Option V) :
    List (LeafEntry K V) × Bool :=
  let written := writeEntry entries key value
  if written.1.any fun e => e.value.isNone then
    (written.1.filter fun e => e.value.isSome, true)
  else written

/-- What a list of entries says about a key. -/
def contents (key : K) : Option V :=
  entries.findSome? fun e => if e.key = key then e.value else none

/-- Entries in strictly increasing key order. -/
def SortedEntries : Prop :=
  entries.Pairwise (LeafEntry.key · < LeafEntry.key ·)

/-! ## Routing -/

/-- The search keeps the answer between its two ends: separators below `lo` are at most `key` and
separators from `hi` on are above it. -/
private theorem childIndexLoop_eq {keys : List K} (hs : keys.Pairwise (· < ·)) (key : K)
    (fuel : ℕ) :
    ∀ lo hi, hi - lo ≤ fuel → lo ≤ upperBound keys key → upperBound keys key ≤ hi →
      hi ≤ keys.length → childIndexLoop keys key fuel lo hi = upperBound keys key := by
  induction fuel with
  | zero =>
    intro lo hi hfuel hlo hhi _
    rw [childIndexLoop]
    omega
  | succ fuel ih =>
    intro lo hi hfuel hlo hhi hlen
    rw [childIndexLoop]
    by_cases hlt : lo < hi
    · have hmid : (lo + hi) / 2 < keys.length := by omega
      rw [getElem?_eq_getElem hmid]
      dsimp only
      split_ifs with hkey
      · have hle := upperBound_le_of_lt hs hmid hkey
        exact ih lo _ (by omega) hlo hle (by omega)
      · have hle := lt_upperBound_of_le hs hmid (not_lt.1 hkey)
        exact ih _ hi (by omega) hle hhi hlen
    · rw [if_neg hlt]
      omega

lemma childIndexForKey_eq {keys : List K} (hs : keys.Pairwise (· < ·)) (key : K) :
    childIndexForKey keys key = upperBound keys key :=
  childIndexLoop_eq hs key keys.length 0 keys.length (by omega) (Nat.zero_le _)
    (upperBound_le_length keys key) le_rfl

/-! ## Contents of a list of entries -/

@[simp]
lemma contents_nil (key : K) : contents ([] : List (LeafEntry K V)) key = none := rfl

lemma contents_append (l₁ l₂ : List (LeafEntry K V)) (key : K) :
    contents (l₁ ++ l₂) key = (contents l₁ key).or (contents l₂ key) :=
  findSome?_append

lemma contents_cons (e : LeafEntry K V) (l : List (LeafEntry K V)) (key : K) :
    contents (e :: l) key = (if e.key = key then e.value else none).or (contents l key) := by
  unfold contents
  rw [findSome?_cons]
  cases if e.key = key then e.value else none <;> rfl

variable {l l₁ l₂ : List (LeafEntry K V)}

lemma contents_eq_none {key : K} (h : ∀ e ∈ l, e.key ≠ key) : contents l key = none := by
  unfold contents
  rw [findSome?_eq_none_iff]
  intro e he
  rw [if_neg (h e he)]

lemma contents_middle {key : K} (h₁ : ∀ e ∈ l₁, e.key < key) (h₂ : ∀ e ∈ l₂, key < e.key)
    (l : List (LeafEntry K V)) : contents (l₁ ++ (l ++ l₂)) key = contents l key := by
  have hleft : contents l₁ key = none := contents_eq_none fun e he => (h₁ e he).ne
  have hright : contents l₂ key = none := contents_eq_none fun e he => (h₂ e he).ne'
  rw [contents_append, contents_append, hleft, hright, Option.none_or, Option.or_none]

lemma contents_update_middle {key : K} (h₁ : ∀ e ∈ l₁, e.key < key) (h₂ : ∀ e ∈ l₂, key < e.key)
    {l' : List (LeafEntry K V)} {value : Option V}
    (h : contents l' = Function.update (contents l) key value) :
    contents (l₁ ++ (l' ++ l₂)) = Function.update (contents (l₁ ++ (l ++ l₂))) key value := by
  funext key'
  by_cases hk : key' = key
  · subst hk
    rw [contents_middle h₁ h₂, h, Function.update_self, Function.update_self]
  · simp only [contents_append, h, Function.update_of_ne hk]

lemma contents_filter_isSome (l : List (LeafEntry K V)) :
    contents (l.filter fun e => e.value.isSome) = contents l := by
  funext key
  induction l with
  | nil => rfl
  | cons e l ih =>
    rw [contents_cons, filter_cons]
    cases hv : e.value with
    | none => simpa [hv] using ih
    | some v => rw [if_pos (by simp), contents_cons, hv, ih]

/-! ## Edits of a leaf -/

variable {entries : List (LeafEntry K V)}

section
variable (hs : SortedEntries entries)
include hs

lemma searchEntries_spec (key : K) :
    ∃ l₁ l₂, (∀ e ∈ l₁, e.key < key) ∧ (∀ e ∈ l₂, key < e.key) ∧
      ((∃ e, e.key = key ∧ entries = l₁ ++ e :: l₂ ∧
          searchEntries entries key = .ok l₁.length) ∨
        (entries = l₁ ++ l₂ ∧ searchEntries entries key = .error l₁.length)) := by
  have hsplit : entries = entries.takeWhile (fun e => e.key < key)
      ++ entries.dropWhile (fun e => e.key < key) := takeWhile_append_dropWhile.symm
  have hlt : ∀ e ∈ entries.takeWhile (fun e => e.key < key), e.key < key := by
    intro e he
    simpa using List.all_eq_true.1 all_takeWhile e he
  have hget : entries[(entries.takeWhile fun e => e.key < key).length]?
      = (entries.dropWhile fun e => e.key < key).head? := by
    conv_lhs => rw [hsplit]
    rw [getElem?_append_right (by simp), head?_eq_getElem?]
    simp
  have hsorted : SortedEntries (entries.dropWhile fun e => e.key < key) :=
    hs.sublist (dropWhile_sublist _)
  cases hd : entries.dropWhile (fun e => e.key < key) with
  | nil =>
    refine ⟨_, [], hlt, by simp, .inr ⟨by rw [← hd]; exact hsplit, ?_⟩⟩
    rw [searchEntries, hget, hd]
    rfl
  | cons e l =>
    rw [hd] at hsorted
    have hle : key ≤ e.key := by
      have hhead := head_dropWhile_not (fun e : LeafEntry K V => decide (e.key < key))
        (l := entries) (by rw [hd]; simp)
      simpa [hd] using hhead
    have hgt := (pairwise_cons.1 hsorted).1
    by_cases hek : e.key = key
    · refine ⟨_, l, hlt, fun d hd => hek ▸ hgt d hd, .inl ⟨e, hek, by rw [← hd]; exact hsplit, ?_⟩⟩
      rw [searchEntries, hget, hd]
      exact if_pos hek
    · have hlt' : key < e.key := lt_of_le_of_ne hle (Ne.symm hek)
      refine ⟨_, e :: l, hlt, ?_, .inr ⟨by rw [← hd]; exact hsplit, ?_⟩⟩
      · intro d hd
        rcases mem_cons.1 hd with rfl | hd
        · exact hlt'
        · exact hlt'.trans (hgt d hd)
      · rw [searchEntries, hget, hd]
        exact if_neg hek

lemma searchEntries_value (key : K) :
    (match searchEntries entries key with
      | .ok idx => entries[idx]?.bind LeafEntry.value
      | .error _ => none) = contents entries key := by
  obtain ⟨l₁, l₂, h₁, h₂, ⟨e, hek, hent, hsearch⟩ | ⟨hent, hsearch⟩⟩ := searchEntries_spec hs key
  · have hget : entries[l₁.length]? = some e := by rw [hent]; simp
    have hcont : contents entries key = contents [e] key := by
      rw [hent]
      exact contents_middle h₁ h₂ [e]
    simp only [hsearch, hget, hcont]
    simp [contents, hek]
  · have hcont : contents entries key = none := by
      rw [hent]
      exact contents_middle h₁ h₂ []
    simp only [hsearch, hcont]

variable [DecidableEq V]

/-- A write of one key replaces the entry between the smaller and the larger keys, and reports no
change only when it makes none. -/
theorem writeEntry_spec (key : K) (value : Option V) :
    ∃ l₁ l l₂, (∀ e ∈ l₁, e.key < key) ∧ (∀ e ∈ l₂, key < e.key) ∧ (∀ e ∈ l, e.key = key) ∧
      entries = l₁ ++ (l ++ l₂) ∧
      (writeEntry entries key value).1
        = l₁ ++ ((value.map fun v => (⟨key, some v⟩ : LeafEntry K V)).toList ++ l₂) ∧
      ((writeEntry entries key value).2 = false → (writeEntry entries key value).1 = entries) := by
  obtain ⟨l₁, l₂, h₁, h₂, ⟨e, hek, hent, hsearch⟩ | ⟨hent, hsearch⟩⟩ := searchEntries_spec hs key
  · refine ⟨l₁, [e], l₂, h₁, h₂, by simpa using hek, hent, ?_⟩
    have hget : entries[l₁.length]? = some e := by rw [hent]; simp
    cases value with
    | none =>
      simp only [writeEntry, hsearch]
      rw [hent, eraseIdx_append_of_length_le le_rfl]
      simp
    | some next =>
      simp only [writeEntry, hsearch]
      split_ifs with hne
      · have hlen : l₁.length < entries.length := by rw [hent]; simp
        rw [modify_eq_take_cons_drop hlen]
        simp [hent, hek]
      · -- the stored value is the written one
        have hval : e = ⟨key, some next⟩ := by
          cases e
          simp_all
        refine ⟨?_, by simp⟩
        rw [hent, hval]
        rfl
  · refine ⟨l₁, [], l₂, h₁, h₂, by simp, by simpa using hent, ?_⟩
    cases value with
    | none =>
      simp only [writeEntry, hsearch]
      exact ⟨by simpa using hent, by simp⟩
    | some next =>
      simp only [writeEntry, hsearch]
      rw [insertIdx_eq_take_append_cons_drop (by rw [hent]; simp), hent]
      simp

/-- The edit of a leaf is the write of the key, keeps the order, adds at most one entry and no other
key, and reports no change only when it makes none. -/
theorem editEntries_spec (key : K) (value : Option V) :
    contents (editEntries entries key value).1 = Function.update (contents entries) key value ∧
      SortedEntries (editEntries entries key value).1 ∧
      (∀ e ∈ (editEntries entries key value).1, e.key = key ∨ e ∈ entries) ∧
      (editEntries entries key value).1.length ≤ entries.length + 1 ∧
      ((editEntries entries key value).2 = false →
        (editEntries entries key value).1 = entries) := by
  obtain ⟨l₁, l, l₂, h₁, h₂, hl, hent, hwrite, hsame⟩ := writeEntry_spec hs key value
  set new := (value.map fun v => (⟨key, some v⟩ : LeafEntry K V)).toList with hnew
  have hnewkey : ∀ e ∈ new, e.key = key := by
    intro e he
    cases value with
    | none => simp [hnew] at he
    | some v => simp only [hnew, Option.map_some, Option.toList_some, mem_singleton] at he
                rw [he]
  have hnewlen : new.length ≤ 1 := by cases value <;> simp [hnew]
  have hnewcont : contents new = Function.update (contents l) key value := by
    funext key'
    by_cases hk : key' = key
    · subst hk
      cases value <;> simp [hnew, contents_cons]
    · rw [Function.update_of_ne hk, contents_eq_none fun e he => by rw [hnewkey e he]; exact Ne.symm hk,
        contents_eq_none fun e he => by rw [hl e he]; exact Ne.symm hk]
  -- the facts about the written entries, before tombstones are dropped
  have hcont : contents (writeEntry entries key value).1
      = Function.update (contents entries) key value := by
    rw [hwrite, contents_update_middle h₁ h₂ hnewcont, hent]
  have hsorted : SortedEntries (writeEntry entries key value).1 := by
    rw [hent] at hs
    have hs₁ := (pairwise_append.1 hs).1
    have hs₂ := (pairwise_append.1 (pairwise_append.1 hs).2.1).2.1
    rw [hwrite]
    refine pairwise_append.2 ⟨hs₁, pairwise_append.2 ⟨?_, hs₂, ?_⟩, ?_⟩
    · cases value <;> simp [hnew]
    · exact fun a ha b hb => hnewkey a ha ▸ h₂ b hb
    · intro a ha b hb
      rcases mem_append.1 hb with hb | hb
      · exact hnewkey b hb ▸ h₁ a ha
      · exact (h₁ a ha).trans (h₂ b hb)
  have hmem : ∀ e ∈ (writeEntry entries key value).1, e.key = key ∨ e ∈ entries := by
    intro e he
    rw [hwrite] at he
    rw [hent]
    simp only [mem_append] at he ⊢
    rcases he with he | he | he
    · exact .inr (.inl he)
    · exact .inl (hnewkey e he)
    · exact .inr (.inr (.inr he))
  have hlen : (writeEntry entries key value).1.length ≤ entries.length + 1 := by
    rw [hwrite, hent]
    simp only [length_append]
    omega
  unfold editEntries
  dsimp only
  split_ifs with htomb
  · refine ⟨?_, hsorted.sublist filter_sublist, ?_, ?_, by simp⟩
    · rw [contents_filter_isSome, hcont]
    · exact fun e he => hmem e (mem_of_mem_filter he)
    · exact (length_filter_le _ _).trans hlen
  · exact ⟨hcont, hsorted, hmem, hlen, hsame⟩

end

end Search

end Espo.TreeDb
