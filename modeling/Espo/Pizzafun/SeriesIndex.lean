import Espo.Pizzafun.Series

/-!
# Series ids are a bijection

The rows by id and by alkane find the same entries, and the list has the ids of these entries, after any
blocks that name each alkane once. An alkane of the priority list has its name from the start, so it may
be named once more, but not differently.
-/

namespace Espo.Pizzafun
open Lib Alkanes Essentials List

/-! ## Ids of a series -/

lemma stripStart_append (start rest : Text) : stripStart start (start ++ rest) = some rest := by
  rw [stripStart, if_pos (prefix_append start rest), drop_left]

lemma eq_append_of_stripStart {start s rest : Text} (h : stripStart start s = some rest) :
    s = start ++ rest := by
  unfold stripStart at h
  split_ifs at h with hstart
  obtain ⟨t, rfl⟩ := hstart
  rw [drop_left] at h
  rw [Option.some.inj h]

/-- An id that matches a name is the name, or has a number behind it. -/
theorem seriesIdMatchesName_cases {id name : Text} (h : seriesIdMatchesName id name = true) :
    id = name ∨ ∃ num, id = name ++ '-' :: num := by
  unfold seriesIdMatchesName at h
  split_ifs at h with heq
  · exact .inl heq
  · split at h
    case h_1 num hnum =>
      obtain ⟨rest, hrest, hdash⟩ := Option.bind_eq_some_iff.1 hnum
      refine .inr ⟨num, ?_⟩
      rw [eq_append_of_stripStart hrest, eq_append_of_stripStart hdash, singleton_append]
    case h_2 => cases h

lemma isStart_of_matches {id name : Text} (h : seriesIdMatchesName id name = true) : name <+: id := by
  rcases seriesIdMatchesName_cases h with rfl | ⟨num, rfl⟩
  · exact prefix_rfl
  · exact prefix_append name _

variable (base : Text)

lemma seriesIdMatchesName_seriesIdAt (idx : ℕ) :
    seriesIdMatchesName (seriesIdAt base idx) base = true := by
  unfold seriesIdMatchesName seriesIdAt
  by_cases hidx : idx = 0
  · rw [if_pos hidx, if_pos rfl]
  · have hdash : '-' :: Nat.toDigits 10 (idx + 1) = ['-'] ++ Nat.toDigits 10 (idx + 1) := rfl
    have hdigits : (Nat.toDigits 10 (idx + 1)).all Char.isDigit = true := by
      rw [List.all_eq_true]
      exact fun c hc => Nat.isDigit_of_mem_toDigits (by decide) (by decide) hc
    have hnonempty : (Nat.toDigits 10 (idx + 1)).isEmpty = false := by
      rw [Bool.eq_false_iff]
      exact fun hempty => Nat.toDigits_ne_nil (List.isEmpty_iff.1 hempty)
    rw [if_neg hidx, stripStart_append, Option.bind_some, hdash, stripStart_append]
    dsimp only
    rw [hdigits, hnonempty]
    exact ite_self _

lemma seriesIdAt_injective : Function.Injective (seriesIdAt base) := by
  intro i j h
  unfold seriesIdAt at h
  split_ifs at h with hi hj hj
  · omega
  · exact absurd (congrArg List.length h) (by simp)
  · exact absurd (congrArg List.length h) (by simp)
  · have hdigits := (List.cons.inj (append_cancel_left h)).2
    have hnumber := congrArg (fun ds => Nat.ofDigitChars 10 ds 0) hdigits
    rw [Nat.ofDigitChars_toDigits (by decide) (by decide),
      Nat.ofDigitChars_toDigits (by decide) (by decide)] at hnumber
    omega

variable (entries : List SeriesEntry)

lemma map_seriesId_numbered :
    (numbered base entries).map SeriesEntry.seriesId = (List.range entries.length).map (seriesIdAt base) := by
  rw [numbered, List.map_map, range_eq_range', ← zipIdx_map_snd 0 entries, List.map_map]
  rfl

lemma map_alkaneId_numbered :
    (numbered base entries).map SeriesEntry.alkaneId = entries.map SeriesEntry.alkaneId := by
  rw [numbered, List.map_map]
  conv_rhs => rw [← zipIdx_map_fst 0 entries, List.map_map]
  rfl

/-! ## Reading a series -/

namespace SeriesStore

lemma mem_scanIds {s : SeriesStore} {name id : Text} :
    id ∈ s.scanIds name ↔ (∃ e, s.byId.get id = some e) ∧ name <+: id := by
  rw [scanIds, Finset.mem_sort, Finset.mem_filter, Table.mem_keys]

lemma mem_collect (ids found : List Text) (name id : Text) :
    id ∈ found.foldl (collectId name) ids ↔
      id ∈ ids ∨ (id ∈ found ∧ seriesIdMatchesName id name = true) := by
  induction found generalizing ids with
  | nil => simp
  | cons next found ih =>
    rw [foldl_cons, ih, collectId]
    split_ifs with hnew
    · rw [mem_append]
      grind
    · rw [mem_cons]
      grind

lemma nodup_collectId {ids : List Text} (h : ids.Nodup) (name id : Text) :
    (collectId name ids id).Nodup := by
  unfold collectId
  split_ifs with hnew
  · apply List.Nodup.append h (nodup_singleton id)
    simpa using hnew.2
  · exact h

lemma mem_filteredIds {s : SeriesStore} {nameNorm id : Text} :
    id ∈ s.filteredIds nameNorm ↔
      (∃ e, s.byId.get id = some e) ∧ ∃ name ∈ lookupNames nameNorm, seriesIdMatchesName id name = true := by
  have hfold : ∀ (names ids : List Text),
      id ∈ names.foldl (fun ids name => (s.scanIds name).foldl (collectId name) ids) ids ↔
      id ∈ ids ∨ ∃ name ∈ names, id ∈ s.scanIds name ∧ seriesIdMatchesName id name = true := by
    intro names
    induction names with
    | nil => simp
    | cons name names ih =>
      intro ids
      rw [foldl_cons, ih, mem_collect, exists_mem_cons_iff, or_assoc]
  rw [filteredIds, hfold]
  constructor
  · rintro (h | ⟨name, hname, hscan, hmatch⟩)
    · cases h
    · exact ⟨(mem_scanIds.1 hscan).1, name, hname, hmatch⟩
  · rintro ⟨hstored, name, hname, hmatch⟩
    exact .inr ⟨name, hname, mem_scanIds.2 ⟨hstored, isStart_of_matches hmatch⟩, hmatch⟩

lemma nodup_filteredIds (s : SeriesStore) (nameNorm : Text) : (s.filteredIds nameNorm).Nodup :=
  foldlRecOn _ _ nodup_nil fun _ h name _ =>
    foldlRecOn _ _ h fun _ h id _ => nodup_collectId h name id

lemma base_mem_lookupNames {nameNorm base : Text} (h : seriesIdBaseFromName nameNorm = some base) :
    base ∈ lookupNames nameNorm := by
  rw [lookupNames, h]
  dsimp only
  split_ifs with hne
  · simp
  · simp [not_not.1 hne]

/-- The rows by id and by alkane find the same entries, and the list has their ids. -/
structure Consistent (s : SeriesStore) : Prop where
  twoWay : TwoWay SeriesEntry.seriesId SeriesEntry.alkaneId s.byId s.byAlkane
  all : ∀ id, (s.all.get id).isSome = (s.byId.get id).isSome

lemma consistent_empty : Consistent empty := ⟨TwoWay.empty, fun _ => rfl⟩

variable {s : SeriesStore}

lemma Consistent.mem_entries (h : s.Consistent) {nameNorm : Text} {e : SeriesEntry} :
    e ∈ s.getSeriesEntriesByName nameNorm ↔ s.byId.get e.seriesId = some e ∧
      ∃ name ∈ lookupNames nameNorm, seriesIdMatchesName e.seriesId name = true := by
  rw [getSeriesEntriesByName, mem_filterMap]
  constructor
  · rintro ⟨id, hid, hget⟩
    obtain ⟨rfl, -⟩ := h.twoWay.ofId id e hget
    exact ⟨hget, (mem_filteredIds.1 hid).2⟩
  · rintro ⟨hget, hmatch⟩
    exact ⟨e.seriesId, mem_filteredIds.2 ⟨⟨e, hget⟩, hmatch⟩, hget⟩

lemma Consistent.nodup_alkanes (h : s.Consistent) (nameNorm : Text) :
    ((s.getSeriesEntriesByName nameNorm).map SeriesEntry.alkaneId).Nodup := by
  have hnodup : (s.getSeriesEntriesByName nameNorm).Nodup := by
    apply List.Nodup.filterMap _ (s.nodup_filteredIds nameNorm)
    intro i j e hi hj
    rw [← (h.twoWay.ofId i e hi).1, ← (h.twoWay.ofId j e hj).1]
  apply List.Nodup.map_on _ hnodup
  intro a ha b hb heq
  have hreada := (h.twoWay.ofId _ a (h.mem_entries.1 ha).1).2
  have hreadb := (h.twoWay.ofId _ b (h.mem_entries.1 hb).1).2
  rw [heq, hreadb] at hreada
  exact (Option.some.inj hreada).symm

end SeriesStore

/-! ## Rebuilding a series -/

lemma mem_combined (existing new : List SeriesEntry) (e : SeriesEntry) :
    e ∈ combined existing new → e ∈ existing ∨ e ∈ new := by
  refine foldlRecOn (motive := fun l => e ∈ l → e ∈ existing ∨ e ∈ new) _ _ .inl
    fun l ih next hnext h => ?_
  split_ifs at h
  · exact ih h
  · rcases mem_append.1 h with h | h
    · exact ih h
    · exact .inr (mem_singleton.1 h ▸ hnext)

lemma nodup_combined {existing : List SeriesEntry} (h : (existing.map SeriesEntry.alkaneId).Nodup)
    (new : List SeriesEntry) : ((combined existing new).map SeriesEntry.alkaneId).Nodup := by
  refine foldlRecOn (motive := fun l : List SeriesEntry => (l.map SeriesEntry.alkaneId).Nodup) _ _ h
    fun l h next _ => ?_
  split_ifs with hold
  · exact h
  · rw [map_append]
    apply List.Nodup.append h (nodup_singleton _)
    simpa using hold

lemma sort_perm : (sortSeriesEntries entries).Perm entries :=
  perm_insertionSort _ entries

namespace SeriesStore
variable {s : SeriesStore}

lemma updateSeriesForName_eq (s : SeriesStore) (existing updated : List SeriesEntry) :
    s.updateSeriesForName existing updated =
      ⟨s.byId.writeBatch (updated.map fun e => (e.seriesId, e)) (existing.map SeriesEntry.seriesId),
        s.byAlkane.writeBatch (updated.map fun e => (e.alkaneId, e)) (existing.map SeriesEntry.alkaneId),
        s.all.writeBatch (updated.map fun e => (e.seriesId, ())) (existing.map SeriesEntry.seriesId)⟩ := by
  unfold updateSeriesForName
  dsimp only
  rw [writeBatch_dedupeOps, writeBatch_dedupeOps, writeBatch_dedupeOps]

/-- The alkanes that are entered are not stored, or are in the series already. -/
def Admits (s : SeriesStore) (name : Text) (newEntries : List SeriesEntry) : Prop :=
  ∀ new ∈ newEntries, ∀ e, s.byAlkane.get new.alkaneId = some e → e ∈ s.getSeriesEntriesByName name

lemma Consistent.update (h : s.Consistent) {name base : Text} (hbase : seriesIdBaseFromName name = some base)
    {newEntries : List SeriesEntry} (hadmits : s.Admits name newEntries) :
    (s.updateSeriesForName (s.getSeriesEntriesByName name) (numbered base
      (sortSeriesEntries (combined (s.getSeriesEntriesByName name) newEntries)))).Consistent := by
  rw [updateSeriesForName_eq]
  generalize hsorted : sortSeriesEntries (combined (s.getSeriesEntriesByName name) newEntries) = sorted
  have hperm : sorted.Perm (combined (s.getSeriesEntriesByName name) newEntries) := hsorted ▸ sort_perm _
  have hids : ((numbered base sorted).map SeriesEntry.seriesId).Nodup := by
    rw [map_seriesId_numbered]
    exact nodup_range.map (seriesIdAt_injective base)
  have hkeys : ((numbered base sorted).map SeriesEntry.alkaneId).Nodup := by
    rw [map_alkaneId_numbered]
    exact ((hperm.map _).nodup_iff).2 (nodup_combined (h.nodup_alkanes name) newEntries)
  constructor
  · apply h.twoWay.replace hids hkeys
    · exact fun e he => (h.mem_entries.1 he).1
    · intro e hget halkane
      have hread := (h.twoWay.ofId _ e hget).2
      rw [map_alkaneId_numbered] at halkane
      obtain ⟨e', he', hsame⟩ := List.mem_map.1 halkane
      rcases mem_combined _ _ _ (hperm.mem_iff.1 he') with hold | hnew
      · have hread' := (h.twoWay.ofId _ e' (h.mem_entries.1 hold).1).2
        rw [hsame, hread] at hread'
        exact Option.some.inj hread' ▸ hold
      · exact hadmits e' hnew e (hsame ▸ hread)
    · intro e hget hid
      rw [map_seriesId_numbered] at hid
      obtain ⟨idx, -, hidx⟩ := List.mem_map.1 hid
      refine h.mem_entries.2 ⟨hget, base, base_mem_lookupNames hbase, ?_⟩
      rw [← hidx]
      exact seriesIdMatchesName_seriesIdAt base idx
  · intro id
    dsimp only
    have hfst : ((numbered base sorted).map fun e => (e.seriesId, ())).map Prod.fst
        = (numbered base sorted).map SeriesEntry.seriesId := by
      rw [List.map_map]
      rfl
    by_cases hid : id ∈ (numbered base sorted).map SeriesEntry.seriesId
    · obtain ⟨_, -, -, hall⟩ := Table.exists_get_putAll_map (fun _ => ()) hid
      obtain ⟨e, -, -, he⟩ := Table.exists_get_putAll_map (fun e => e) hid
      rw [Table.writeBatch, Table.writeBatch, hall, he]
      rfl
    · rw [Table.get_writeBatch_of_notMem _ (by rw [hfst]; exact hid),
        Table.get_writeBatch_of_notMem _ (by rw [map_fst_keyed]; exact hid)]
      split_ifs
      · rfl
      · exact h.all id

end SeriesStore

/-! ## The priority list -/

/-- The names of the list are their own ids, and have no number behind them. -/
theorem priority_name : ∀ p ∈ priorityEntries, seriesIdBaseFromName p.1 = some p.1 ∧ '-' ∉ p.1 := by
  decide +kernel

lemma priority_unique : ∀ p ∈ priorityEntries, ∀ q ∈ priorityEntries, p.1 = q.1 → p = q := by
  decide +kernel

lemma priorityIndex_isSome_iff {alkane : SchemaAlkaneId} :
    (priorityIndex alkane).isSome ↔ ∃ p ∈ priorityEntries, p.2.alkaneId = alkane := by
  rw [priorityIndex, findIdx?_isSome, List.any_eq_true]
  constructor
  · rintro ⟨e, he, hparse⟩
    have hname : ∀ e ∈ prioritySeriesAlkanes, (normalizeAlkaneName e.2).isSome := by decide +kernel
    obtain ⟨name, hname⟩ := Option.isSome_iff_exists.1 (hname e he)
    refine ⟨(name, ⟨[], alkane, alkane.block⟩), mem_filterMap.2 ⟨e, he, ?_⟩, rfl⟩
    rw [of_decide_eq_true hparse, Option.bind_some, hname, Option.map_some]
  · rintro ⟨p, hp, rfl⟩
    obtain ⟨e, he, hentry⟩ := mem_filterMap.1 hp
    obtain ⟨alkane, hparse, hentry⟩ := Option.bind_eq_some_iff.1 hentry
    obtain ⟨name, -, rfl⟩ := Option.map_eq_some_iff.1 hentry
    exact ⟨e, he, decide_eq_true hparse⟩

lemma head_sort {entries : List SeriesEntry} {first : SeriesEntry} (hmem : first ∈ entries)
    (hfirst : ∀ e ∈ entries, e ≠ first → compareEntries first e ≠ .gt ∧ compareEntries e first = .gt) :
    (sortSeriesEntries entries).head? = some first := by
  have hself : compareEntries first first ≠ .gt := by
    unfold compareEntries
    cases priorityIndex first.alkaneId <;> simp
  unfold sortSeriesEntries
  induction entries with
  | nil => cases hmem
  | cons e entries ih =>
    have hrest : ∀ e ∈ entries, e ≠ first → compareEntries first e ≠ .gt ∧ compareEntries e first = .gt :=
      fun e he => hfirst e (mem_cons_of_mem _ he)
    rw [insertionSort_cons]
    by_cases heq : e = first
    · subst heq
      cases hsorted : entries.insertionSort (fun a b => compareEntries a b ≠ .gt) with
      | nil => rfl
      | cons next rest =>
        have hnext : next ∈ entries := by
          rw [← mem_insertionSort (fun a b => compareEntries a b ≠ .gt), hsorted]
          exact mem_cons_self
        have hle : compareEntries e next ≠ .gt := by
          by_cases hsame : next = e
          · rw [hsame]
            exact hself
          · exact (hrest next hnext hsame).1
        rw [orderedInsert_cons, if_pos hle]
        rfl
    · have hmem' : first ∈ entries := (mem_cons.1 hmem).resolve_left (Ne.symm heq)
      have hhead := ih hmem' hrest
      have hgt : compareEntries e first = .gt := (hfirst e mem_cons_self heq).2
      cases hsorted : entries.insertionSort (fun a b => compareEntries a b ≠ .gt) with
      | nil => simp [hsorted] at hhead
      | cons next rest =>
        rw [hsorted] at hhead
        obtain rfl : next = first := Option.some.inj hhead
        rw [orderedInsert_cons, if_neg (by simp [hgt])]
        rfl

/-! ## What the blocks keep -/

/-- The alkane is on the priority list. -/
def IsPriority (alkane : SchemaAlkaneId) : Prop := ∃ p ∈ priorityEntries, p.2.alkaneId = alkane

/-- What holds after blocks that named these alkanes. -/
structure SeriesInv (named : List SchemaAlkaneId) (s : SeriesStore) : Prop where
  consistent : s.Consistent
  /-- An alkane of the priority list is the first of its series. -/
  seeds : ∀ p ∈ priorityEntries, ∀ e, s.byAlkane.get p.2.alkaneId = some e → e.seriesId = p.1
  stored : ∀ a e, s.byAlkane.get a = some e → a ∈ named ∨ IsPriority a

lemma seriesInv_empty : SeriesInv [] .empty where
  consistent := SeriesStore.consistent_empty
  seeds p _ e h := by simp [SeriesStore.empty] at h
  stored a e h := by simp [SeriesStore.empty] at h

/-- A name may be given to these alkanes: none of them was named before, and those of the priority list
have this name there. -/
structure Nameable (named : List SchemaAlkaneId) (name : Text) (entries : List SeriesEntry) : Prop where
  fresh : ∀ e ∈ entries, e.alkaneId ∈ named → IsPriority e.alkaneId
  slug : ∀ e ∈ entries, ∀ p ∈ priorityEntries, p.2.alkaneId = e.alkaneId →
    seriesIdBaseFromName name = some p.1

section Rebuild
variable {named : List SchemaAlkaneId} {s : SeriesStore} {name base : Text} {newEntries : List SeriesEntry}

lemma get_numbered {existing sorted : List SeriesEntry} {a : SchemaAlkaneId} {e : SeriesEntry}
    (hget : (s.updateSeriesForName existing (numbered base sorted)).byAlkane.get a = some e) :
    (∃ x idx, (x, idx) ∈ sorted.zipIdx ∧ x.alkaneId = a ∧ e = { x with seriesId := seriesIdAt base idx }) ∨
      s.byAlkane.get a = some e := by
  rw [SeriesStore.updateSeriesForName_eq] at hget
  by_cases ha : a ∈ (numbered base sorted).map SeriesEntry.alkaneId
  · obtain ⟨e', he', rfl, hread⟩ := Table.exists_get_putAll_map (fun e => e) ha
    obtain rfl : e' = e := Option.some.inj ((hread _).symm.trans hget)
    obtain ⟨⟨x, idx⟩, hx, rfl⟩ := List.mem_map.1 he'
    exact .inl ⟨x, idx, hx, rfl, rfl⟩
  · rw [Table.get_writeBatch_of_notMem _ (by rw [map_fst_keyed]; exact ha)] at hget
    split_ifs at hget
    exact .inr hget

variable (h : SeriesInv named s) (hnew : Nameable named name newEntries)
include h hnew

lemma SeriesInv.admits : s.Admits name newEntries := by
  intro new hmem e hget
  have hpriority : IsPriority new.alkaneId := by
    rcases h.stored _ e hget with hnamed | hpriority
    · exact hnew.fresh new hmem hnamed
    · exact hpriority
  obtain ⟨p, hp, halkane⟩ := hpriority
  have hid : e.seriesId = p.1 := h.seeds p hp e (halkane ▸ hget)
  have hbase := hnew.slug new hmem p hp halkane
  refine h.consistent.mem_entries.2 ⟨(h.consistent.twoWay.ofKey _ e hget).2, p.1,
    SeriesStore.base_mem_lookupNames hbase, ?_⟩
  rw [hid, seriesIdMatchesName, if_pos rfl]

lemma SeriesInv.base_of_priority {e : SeriesEntry}
    (he : e ∈ combined (s.getSeriesEntriesByName name) newEntries)
    {p : Text × SeriesEntry} (hp : p ∈ priorityEntries) (halkane : p.2.alkaneId = e.alkaneId) :
    seriesIdBaseFromName name = some p.1 := by
  rcases mem_combined _ _ _ he with hold | hnewEntry
  · obtain ⟨hget, n, hn, hmatch⟩ := h.consistent.mem_entries.1 hold
    have hid : e.seriesId = p.1 := h.seeds p hp e (halkane ▸ (h.consistent.twoWay.ofId _ e hget).2)
    rw [hid] at hmatch
    -- a number behind the name would need a dash in it
    have hname : p.1 = n := by
      rcases seriesIdMatchesName_cases hmatch with heq | ⟨num, heq⟩
      · exact heq
      · exact absurd (heq ▸ by simp : '-' ∈ p.1) (priority_name p hp).2
    have hself := (priority_name p hp).1
    unfold SeriesStore.lookupNames at hn
    cases hbase : seriesIdBaseFromName name with
    | none =>
      rw [hbase, mem_singleton] at hn
      rw [hname, hn, hbase] at hself
      cases hself
    | some base =>
      rw [hbase] at hn
      have hor : n = name ∨ n = base := by
        dsimp only at hn
        split_ifs at hn <;> simp_all
      rcases hor with rfl | rfl
      · rw [← hbase, ← hname]
        exact hself
      · rw [hname]
  · exact hnew.slug e hnewEntry p hp halkane

/-- An alkane of the priority list comes before the others of its series. -/
theorem SeriesInv.compare_of_priority {first e : SeriesEntry}
    (hfirst : first ∈ combined (s.getSeriesEntriesByName name) newEntries)
    (he : e ∈ combined (s.getSeriesEntriesByName name) newEntries) (hne : e ≠ first)
    (hpriority : IsPriority first.alkaneId) :
    compareEntries first e ≠ .gt ∧ compareEntries e first = .gt := by
  obtain ⟨p, hp, halkane⟩ := hpriority
  have hnone : priorityIndex e.alkaneId = none := by
    cases hindex : priorityIndex e.alkaneId with
    | none => rfl
    | some i =>
      -- two of the list would have the same name, so they are the same
      obtain ⟨q, hq, hqalkane⟩ := priorityIndex_isSome_iff.1 (Option.isSome_iff_exists.2 ⟨i, hindex⟩)
      have hpbase := h.base_of_priority hnew hfirst hp halkane
      have hqbase := h.base_of_priority hnew he hq hqalkane
      have hpq : p = q := priority_unique p hp q hq (Option.some.inj (hpbase.symm.trans hqbase))
      have hsame : e.alkaneId = first.alkaneId := by rw [← hqalkane, ← hpq, halkane]
      exact absurd (inj_on_of_nodup_map (nodup_combined (h.consistent.nodup_alkanes name) newEntries)
        he hfirst hsame) hne
  obtain ⟨i, hi⟩ := Option.isSome_iff_exists.1 (priorityIndex_isSome_iff.2 ⟨p, hp, halkane⟩)
  unfold compareEntries
  rw [hi, hnone]
  exact ⟨by simp, rfl⟩

lemma SeriesInv.rebuild :
    SeriesInv (named ++ newEntries.map SeriesEntry.alkaneId) (rebuildSeriesForName s name newEntries) := by
  have hsame : SeriesInv (named ++ newEntries.map SeriesEntry.alkaneId) s :=
    ⟨h.consistent, h.seeds, fun a e hget => (h.stored a e hget).imp_left (mem_append_left _)⟩
  unfold rebuildSeriesForName
  split_ifs with hempty
  · exact hsame
  · cases hbase : seriesIdBaseFromName name with
    | none => exact hsame
    | some base =>
      dsimp only
      split_ifs with hnone
      · exact hsame
      · have hperm := sort_perm (combined (s.getSeriesEntriesByName name) newEntries)
        have hzip : ∀ {x : SeriesEntry} {idx : ℕ}, (x, idx) ∈ (sortSeriesEntries (combined
            (s.getSeriesEntriesByName name) newEntries)).zipIdx →
            x ∈ combined (s.getSeriesEntriesByName name) newEntries :=
          fun hx => hperm.mem_iff.1 (fst_mem_of_mem_zipIdx hx)
        refine ⟨h.consistent.update hbase (h.admits hnew), fun p hp e hget => ?_, fun a e hget => ?_⟩
        · rcases get_numbered hget with ⟨x, idx, hx, halkane, rfl⟩ | hold
          · have hname : base = p.1 := Option.some.inj
              (hbase.symm.trans (h.base_of_priority hnew (hzip hx) hp halkane.symm))
            have hhead := head_sort (hzip hx) fun e he hne =>
              h.compare_of_priority hnew (hzip hx) he hne ⟨p, hp, halkane.symm⟩
            -- the first entry is there once
            have hnodup : (sortSeriesEntries (combined (s.getSeriesEntriesByName name) newEntries)).Nodup :=
              hperm.nodup_iff.2 (List.Nodup.of_map _ (nodup_combined (h.consistent.nodup_alkanes name) newEntries))
            have hidx : idx = 0 := by
              rw [mk_mem_zipIdx_iff_getElem?] at hx
              rw [head?_eq_getElem?] at hhead
              obtain ⟨hlt, -⟩ := List.getElem?_eq_some_iff.1 hx
              exact (getElem?_inj hlt hnodup).1 (hx.trans hhead.symm)
            rw [hidx, seriesIdAt, if_pos rfl, hname]
          · exact h.seeds p hp e hold
        · rcases get_numbered hget with ⟨x, idx, hx, rfl, -⟩ | hold
          · rcases mem_combined _ _ _ (hzip hx) with hold | hfresh
            · have hread := (h.consistent.twoWay.ofId _ x (h.consistent.mem_entries.1 hold).1).2
              exact (h.stored _ x hread).imp_left (mem_append_left _)
            · exact .inl (mem_append_right _ (List.mem_map_of_mem hfresh))
          · exact (h.stored a e hold).imp_left (mem_append_left _)

end Rebuild

/-! ## Whole runs -/

lemma map_fst_byName (entries : List (Text × SeriesEntry)) :
    (byName entries).map Prod.fst = (entries.map Prod.fst).dedup := by
  rw [byName, List.map_map]
  exact List.map_id _

lemma mem_byName {entries : List (Text × SeriesEntry)} {group : Text × List SeriesEntry}
    (h : group ∈ byName entries) {e : SeriesEntry} (he : e ∈ group.2) : (group.1, e) ∈ entries := by
  obtain ⟨name, -, rfl⟩ := List.mem_map.1 h
  obtain ⟨entry, hentry, rfl⟩ := List.mem_map.1 he
  obtain ⟨hmem, hname⟩ := mem_filter.1 hentry
  rw [← of_decide_eq_true hname]
  exact hmem

/-- The alkanes that an event names on the chain. -/
def SeriesEvent.namings : SeriesEvent → List (Text × SeriesEntry)
  | .start => []
  | .block b => b.namings

section
variable {named : List SchemaAlkaneId} {s : SeriesStore} (h : SeriesInv named s)
include h

lemma SeriesInv.enter (order : HashOrder) (entries : List (Text × SeriesEntry))
    (hnew : ∀ e ∈ entries, Nameable named e.1 [e.2])
    (honce : ∀ e ∈ entries, ∀ e' ∈ entries, e.2.alkaneId = e'.2.alkaneId → e.1 = e'.1) :
    SeriesInv (named ++ entries.map fun e => e.2.alkaneId) (enter order s entries) := by
  have hperm := order.perm (byName entries)
  have hnames : ((order.run (byName entries)).map Prod.fst).Nodup := by
    rw [(hperm.map Prod.fst).nodup_iff, map_fst_byName]
    exact nodup_dedup _
  -- the alkanes named so far are those before, and those of the groups that are done
  have hloop : SeriesInv (named ++ ((order.run (byName entries)).flatMap fun group =>
      group.2.map SeriesEntry.alkaneId)) (Pizzafun.enter order s entries) := by
    apply foldl_invariant (P := fun (done : List (Text × List SeriesEntry)) s =>
      SeriesInv (named ++ (done.flatMap fun group => group.2.map SeriesEntry.alkaneId)) s)
    · rw [flatMap_nil, append_nil]
      exact h
    · intro done group rest s hsplit hinv
      have hgroup : group ∈ byName entries := by
        rw [← hperm.mem_iff, hsplit]
        simp
      rw [flatMap_append, flatMap_singleton, ← append_assoc]
      refine hinv.rebuild ⟨fun e he hnamed => ?_, fun e he => ?_⟩
      · have hentry := mem_byName hgroup he
        rcases mem_append.1 hnamed with hnamed | hdone
        · exact (hnew _ hentry).fresh e (mem_singleton_self e) hnamed
        · obtain ⟨group', hgroup', halkane⟩ := mem_flatMap.1 hdone
          obtain ⟨e', he', hsame⟩ := List.mem_map.1 halkane
          have hgroup'' : group' ∈ byName entries := by
            rw [← hperm.mem_iff, hsplit]
            exact mem_append_left _ hgroup'
          have hname : group'.1 = group.1 := honce _ (mem_byName hgroup'' he') _ hentry hsame
          rw [hsplit, map_append, nodup_append] at hnames
          exact absurd hname (hnames.2.2 _ (List.mem_map_of_mem hgroup') _ mem_cons_self)
      · exact (hnew _ (mem_byName hgroup he)).slug e (mem_singleton_self e)
  refine ⟨hloop.consistent, hloop.seeds, fun a e hget => ?_⟩
  rcases hloop.stored a e hget with hnamed | hpriority
  · left
    rcases mem_append.1 hnamed with hnamed | hgroups
    · exact mem_append_left _ hnamed
    · obtain ⟨group, hgroup, ha⟩ := mem_flatMap.1 hgroups
      obtain ⟨x, hx, rfl⟩ := List.mem_map.1 ha
      exact mem_append_right _ (List.mem_map.2 ⟨_, mem_byName (hperm.mem_iff.1 hgroup) hx, rfl⟩)
  · exact .inr hpriority

lemma SeriesInv.seed (order : HashOrder) : SeriesInv named (seedPrioritySeriesEntries order s) := by
  have hpriority : ∀ {e : Text × SeriesEntry}, e ∈ priorityEntries.filter
      (fun e => !priorityFamilySeeded s e.1 e.2.alkaneId) → e ∈ priorityEntries :=
    fun he => (mem_filter.1 he).1
  have hunique : ∀ p ∈ priorityEntries, ∀ q ∈ priorityEntries, p.2.alkaneId = q.2.alkaneId → p.1 = q.1 := by
    decide +kernel
  have hnameable : ∀ e ∈ priorityEntries.filter (fun e => !priorityFamilySeeded s e.1 e.2.alkaneId),
      Nameable named e.1 [e.2] := by
    intro e he
    refine ⟨fun e' he' _ => ⟨e, hpriority he, by rw [mem_singleton.1 he']⟩, fun e' he' p hp halkane => ?_⟩
    rw [mem_singleton.1 he'] at halkane
    rw [hunique p hp e (hpriority he) halkane]
    exact (priority_name e (hpriority he)).1
  have hinv := h.enter order _ hnameable fun e he e' he' => hunique e (hpriority he) e' (hpriority he')
  refine ⟨hinv.consistent, hinv.seeds, fun a e hget => ?_⟩
  rcases hinv.stored a e hget with hnamed | hpri
  · rcases mem_append.1 hnamed with hnamed | hseed
    · exact .inl hnamed
    · obtain ⟨p, hp, rfl⟩ := List.mem_map.1 hseed
      exact .inr ⟨p, hpriority hp, rfl⟩
  · exact .inr hpri

lemma SeriesInv.run (events : List (HashOrder × SeriesEvent))
    (honce : (named ++ events.flatMap fun e => e.2.namings.map fun n => n.2.alkaneId).Nodup)
    (hslug : ∀ e ∈ events, ∀ n ∈ e.2.namings, ∀ p ∈ priorityEntries, p.2.alkaneId = n.2.alkaneId → seriesIdBaseFromName n.1 = some p.1) :
    (runSeries s events).Consistent := by
  induction events generalizing named s with
  | nil => exact h.consistent
  | cons event events ih =>
    obtain ⟨order, event⟩ := event
    have hrest : ∀ e ∈ events, ∀ n ∈ e.2.namings, ∀ p ∈ priorityEntries, p.2.alkaneId = n.2.alkaneId →
        seriesIdBaseFromName n.1 = some p.1 := fun e he => hslug e (mem_cons_of_mem _ he)
    rw [flatMap_cons, ← append_assoc] at honce
    cases event with
    | start =>
      rw [SeriesEvent.namings, map_nil, append_nil] at honce
      exact ih (h.seed order) honce hrest
    | block b =>
      refine ih (h.enter order b.namings (fun n hn => ⟨?_, ?_⟩) ?_) honce hrest
      · intro e he hnamed
        rw [mem_singleton.1 he] at hnamed
        have hdisjoint := (nodup_append.1 (nodup_append.1 honce).1).2.2
        exact absurd rfl (hdisjoint _ hnamed _ (List.mem_map.2 ⟨n, hn, rfl⟩))
      · intro e he
        rw [mem_singleton.1 he]
        exact hslug _ mem_cons_self n hn
      · intro n hn n' hn' hsame
        have hnodup := (nodup_append.1 (nodup_append.1 honce).1).2.1
        rw [inj_on_of_nodup_map hnodup hn hn' hsame]

end

/-- A hash map in the order of its pushes. -/
def pushOrder : HashOrder := ⟨id, .refl⟩

/-- A block that creates one alkane. -/
def oneCreation (alkane : SchemaAlkaneId) (height : ℕ) (name : String) : SeriesBlock :=
  ⟨[alkane], fun id => if id = alkane then some ⟨alkane, height, [name.toList]⟩ else none⟩

/-- The module starts, alkane 2:0 is named as on the priority list, and another one gets the same name. -/
def dieselTwice : List (HashOrder × SeriesEvent) :=
  [(pushOrder, .start), (pushOrder, .block (oneCreation ⟨2, 0⟩ 880000 "DIESEL")),
    (pushOrder, .block (oneCreation ⟨2, 5⟩ 880001 "Diesel "))]

/-- Alkane 2:16 is on the priority list as methane, and the chain names it otherwise. -/
def methaneRenamed : List (HashOrder × SeriesEvent) :=
  [(pushOrder, .start), (pushOrder, .block (oneCreation ⟨2, 16⟩ 880000 "foo"))]

end Espo.Pizzafun
