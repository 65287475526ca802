import Espo.Runes.View

/-!
# What the indexer journals

A block writes most keys without having read them, and its undo record takes them to be new. They
are: keys that carry a transaction id or a height belong to the block, a slot is at or beyond its
counter, and the names of a rune are stored together with the rune. `Indexed` says so about the rows
that the blocks of a chain leave, `Journaled` about what the indexer has collected of the next block.
-/

namespace Espo.Runes
open Lib List

section Keys
variable {T A : Type}

/-- The transaction that a key belongs to. -/
@[simp]
def RuneKey.txid? : RuneKey T A → Option T
  | .outpoint o => some o.1
  | .addressOutpoint _ o => some o.1
  | .txIo txid => some txid
  | .mintActivity _ _ txid _ => some txid
  | .activity _ _ _ _ _ _ _ txid => some txid
  | _ => none

/-- The height of the block that a key belongs to. -/
@[simp]
def RuneKey.height? : RuneKey T A → Option ℕ
  | .icon id => some id.block
  | .balanceHistory _ _ height => some height
  | .blockPrice height => some height
  | _ => none

/-- Keys that are neither a name of a rune, nor a list of pointers, nor a slot. -/
@[simp]
def RuneKey.plain : RuneKey T A → Bool
  | .idByRune _ => false
  | .idByName _ => false
  | .txList _ => false
  | .slot _ _ => false
  | _ => true

/-- The numbers that go through the cache. The lengths of the balance histories do not. -/
@[simp]
def NumberKey.cached : NumberKey A → Bool
  | .count (.history _ _) => false
  | _ => true

end Keys

section Defs
variable {T A H : Type} [LinearOrder T] [LinearOrder A]

/-- Outpoints are listed under their addresses. -/
def AddressesListed (rows : RuneRows T A) : Prop :=
  ∀ o row address, rows.outpoint o = some row → row.address = some address →
    rows.get (.addressOutpoint address o) ≠ none

/-- What holds of the rows after the blocks of a chain. -/
structure Indexed (env : RunesEnv) (chain : List (RuneBlock T A H)) (rows : RuneRows T A) : Prop where
  empty : chain = [] → rows = ∅
  txid : ∀ k, rows.get k ≠ none → ∀ t, k.txid? = some t → ∃ b ∈ chain, t ∈ b.txids
  height : ∀ k, rows.get k ≠ none → ∀ h, k.height? = some h → ∃ b ∈ chain, b.height = h
  reserved : ∀ rune, rows.get (.idByRune rune) ≠ none → env.isReserved rune = true →
    ∃ b ∈ chain, ∃ txIndex, rune = env.reserved b.height txIndex
  named : ∀ name, rows.get (.idByName name) ≠ none → rows.get (.idByRune (env.runeOf name)) ≠ none
  slots : ∀ c i, rows.get (.slot c i) ≠ none → i < rows.number (.count c)
  chunks : ∀ l list, rows.get (.txList l) = some list →
    ∀ i ∈ ChunkedList.ids list, i < rows.number (.count (.chunk l.kind))
  addresses : AddressesListed rows

/-- A block that may follow a chain: it is not before the genesis block, heights increase, and
transaction ids are unique. -/
structure NextBlock (env : RunesEnv) (chain : List (RuneBlock T A H)) (b : RuneBlock T A H) :
    Prop where
  genesis : env.genesisHeight ≤ b.height
  height : ∀ b' ∈ chain, b'.height < b.height
  txids : ∀ b' ∈ chain, ∀ t ∈ b'.txids, t ∉ b.txids
  nodup : b.txids.Nodup

variable (env : RunesEnv) (db : RuneRows T A) (b : RuneBlock T A H) (pending : Counter A → ℕ)

/-- A slot below the counter, as it is in the view or as it is about to be stored. -/
def Below (q : WriteQueue (RuneKey.Value (T := T) (A := A))) (c : Counter A) (i : ℕ) : Prop :=
  i < RuneRows.number (q.view db) (.count c) ∨ i < pending c

/-- A put that the undo record gets right, and that keeps the rows as `Indexed` has them. -/
structure Justified (q : WriteQueue (RuneKey.Value (T := T) (A := A)))
    (p : Sigma (RuneKey.Value (T := T) (A := A))) : Prop where
  txid : ∀ t, p.1.txid? = some t → t ∈ b.txids
  height : ∀ h, p.1.height? = some h → h = b.height
  rune : ∀ rune, p.1 = .idByRune rune → db.get (.idByRune rune) = none ∧
    (env.isReserved rune = true → ∃ txIndex, rune = env.reserved b.height txIndex)
  name : ∀ name, p.1 = .idByName name → db.get (.idByRune (env.runeOf name)) = none ∧
    .idByRune (env.runeOf name) ∈ q.puts.map Sigma.fst
  list : ∀ l, p.1 = .txList l → .txList l ∈ q.preimages ∨ db.get (.txList l) = none
  ids : ∀ l (list : ChunkedList ℕ), p = ⟨.txList l, list⟩ →
    ∀ i ∈ list.ids, Below db pending q (.chunk l.kind) i
  slot : ∀ c i, p.1 = .slot c i →
    (.slot c i ∈ q.preimages ∨ db.number (.count c) ≤ i) ∧ Below db pending q c i

/-- What holds of the writes collected so far, of the cached numbers and of the block's own rows.
`pending` is the value of a counter that is about to be stored. -/
structure Journaled (q : WriteQueue (RuneKey.Value (T := T) (A := A)))
    (numbers : Table (NumberKey A) ℕ) (ephem : Table (T × ℕ) (OutpointRuneBalances A)) : Prop where
  known : ∀ e ∈ q.preimages.entries, e.2 = db.lookup e.1
  puts : ∀ p ∈ q.puts, Justified env db b pending q p
  deletes : ∀ k ∈ q.deletes, k.deletable
  grows : ∀ c, db.number (.count c) ≤ RuneRows.number (q.view db) (.count c)
  cached : ∀ k n, numbers.get k = some n → RuneRows.number (q.view db) k = n
  uncached : ∀ k, numbers.get k = none → k.cached → RuneRows.number (q.view db) k = db.number k
  histories : ∀ address id, numbers.get (.count (.history address id)) = none ∧
    RuneRows.number (q.view db) (.count (.history address id)) ≤
      db.number (.count (.history address id)) + 1
  ephem : ∀ o row, ephem.get o = some row → o.1 ∈ b.txids

/-- `Journaled` of an indexer. -/
abbrev JournaledIx (ix : BlockRunesIndexer T A) : Prop :=
  Journaled env db b pending ix.writes ix.numbers ix.ephem

end Defs

/-! ## Single writes -/

section Writes
variable {T A H : Type} [LinearOrder T] [LinearOrder A] {env : RunesEnv} {db : RuneRows T A}
  {b : RuneBlock T A H} {pending pending' : Counter A → ℕ}
  {q q' : WriteQueue (RuneKey.Value (T := T) (A := A))} {numbers numbers' : Table (NumberKey A) ℕ}
  {ephem : Table (T × ℕ) (OutpointRuneBalances A)}

lemma Below.mono {c : Counter A} {i : ℕ} (h : Below db pending q c i)
    (hcount : RuneRows.number (q.view db) (.count c) ≤ RuneRows.number (q'.view db) (.count c))
    (hpending : pending c ≤ pending' c ∨ pending c ≤ RuneRows.number (q'.view db) (.count c)) :
    Below db pending' q' c i := by
  unfold Below at h ⊢
  omega

lemma Justified.mono {p : Sigma (RuneKey.Value (T := T) (A := A))}
    (h : Justified env db b pending q p) (hputs : q.puts ⊆ q'.puts)
    (hpre : ∀ k, k ∈ q.preimages → k ∈ q'.preimages)
    (hbelow : ∀ c i, Below db pending q c i → Below db pending' q' c i) :
    Justified env db b pending' q' p where
  txid := h.txid
  height := h.height
  rune := h.rune
  name name hname := by
    obtain ⟨hdb, hmem⟩ := h.name name hname
    exact ⟨hdb, map_subset _ hputs hmem⟩
  list l hl := (h.list l hl).imp_left (hpre _)
  ids l list hp i hi := hbelow _ _ (h.ids l list hp i hi)
  slot c i hs := ⟨(h.slot c i hs).1.imp_left (hpre _), hbelow _ _ (h.slot c i hs).2⟩

variable {k : RuneKey T A} {rows : RuneRows T A}

lemma Justified.of_plain (v : k.Value) (hk : k.plain)
    (htxid : ∀ t, k.txid? = some t → t ∈ b.txids) (hheight : ∀ h, k.height? = some h → h = b.height) :
    Justified env db b pending q ⟨k, v⟩ where
  txid := htxid
  height := hheight
  rune _ h := by cases (h : k = _); simp at hk
  name _ h := by cases (h : k = _); simp at hk
  list _ h := by cases (h : k = _); simp at hk
  ids _ _ h := by cases (congrArg Sigma.fst h : k = _); simp at hk
  slot _ _ h := by cases (h : k = _); simp at hk

lemma number_congr {rows' : RuneRows T A} {k : NumberKey A}
    (h : rows'.get (.number k) = rows.get (.number k)) : rows'.number k = rows.number k := by
  unfold RuneRows.number
  rw [h]

lemma number_of_get {k : NumberKey A} {n : ℕ} (h : rows.get (.number k) = some n) :
    rows.number k = n := by
  unfold RuneRows.number
  rw [h]
  rfl

lemma number_of_get_none {k : NumberKey A} (h : rows.get (.number k) = none) :
    rows.number k = 0 := by
  unfold RuneRows.number
  rw [h]
  rfl

lemma mem_deletes_queueDelete {k' : RuneKey T A} (hdel : k.deletable)
    (hmem : k' ∈ (q.queueDelete k).deletes) : k' ∈ q.deletes ∨ k'.deletable := by
  rcases mem_insert_iff.1 hmem with rfl | hold
  · exact .inr hdel
  · exact .inl hold

lemma mem_preimages_remember {k' : RuneKey T A} {raw : Option k.Value} (hmem : k' ∈ q.preimages) :
    k' ∈ (q.remember k raw).preimages := by
  unfold WriteQueue.remember
  split_ifs
  · exact hmem
  · exact AList.mem_insert _ |>.2 (.inr hmem)

lemma mem_preimages_remember_self (k : RuneKey T A) (raw : Option k.Value) :
    k ∈ (q.remember k raw).preimages := by
  unfold WriteQueue.remember
  split_ifs with hk
  · exact hk
  · exact AList.mem_insert _ |>.2 (.inl rfl)

variable (h : Journaled env db b pending q numbers ephem)
include h

section
variable {k : NumberKey A} {n : ℕ} (hpre : q'.preimages = q.preimages) (hsub : q.puts ⊆ q'.puts)
  (hdeletes : ∀ k ∈ q'.deletes, k ∈ q.deletes ∨ k.deletable)
include hpre hsub hdeletes

lemma Journaled.write (hputs : ∀ p ∈ q'.puts, p ∈ q.puts ∨ Justified env db b pending' q' p)
    (hcount : ∀ c, RuneRows.number (q.view db) (.count c) ≤ RuneRows.number (q'.view db) (.count c))
    (hpending : ∀ c, pending c ≤ pending' c ∨
      pending c ≤ RuneRows.number (q'.view db) (.count c))
    (hcached : ∀ k n, numbers'.get k = some n → RuneRows.number (q'.view db) k = n)
    (huncached : ∀ k, numbers'.get k = none → k.cached → RuneRows.number (q'.view db) k = db.number k)
    (hhistories : ∀ address id, numbers'.get (.count (.history address id)) = none ∧
      RuneRows.number (q'.view db) (.count (.history address id)) ≤
        db.number (.count (.history address id)) + 1) :
    Journaled env db b pending' q' numbers' ephem where
  known := hpre ▸ h.known
  puts p hp := by
    rcases hputs p hp with hold | hnew
    · exact (h.puts p hold).mono hsub (fun k hk => hpre ▸ hk)
        fun c i hi => hi.mono (hcount c) (hpending c)
    · exact hnew
  deletes k hk := (hdeletes k hk).elim (h.deletes k) id
  grows c := (h.grows c).trans (hcount c)
  cached := hcached
  uncached := huncached
  histories := hhistories
  ephem := h.ephem

lemma Journaled.write_other (hputs : ∀ p ∈ q'.puts, p ∈ q.puts ∨ Justified env db b pending q' p)
    (hnumber : ∀ k, RuneRows.number (q'.view db) k = RuneRows.number (q.view db) k) :
    Journaled env db b pending q' numbers ephem := by
  refine h.write hpre hsub hdeletes hputs (fun c => (hnumber _).ge) (fun c => .inl le_rfl) ?_ ?_ ?_
  · intro k n hk
    rw [hnumber]
    exact h.cached k n hk
  · intro k hk hc
    rw [hnumber]
    exact h.uncached k hk hc
  · intro address id
    rw [hnumber]
    exact h.histories address id

/-- Storing a number that is cached: a counter does not go down, and what is pending for it is
stored. -/
theorem Journaled.write_number (hputs : ∀ p ∈ q'.puts, p ∈ q.puts ∨ p.1 = .number k)
    (hself : RuneRows.number (q'.view db) k = n)
    (hother : ∀ k', k' ≠ k → RuneRows.number (q'.view db) k' = RuneRows.number (q.view db) k')
    (hcached : k.cached)
    (hcount : ∀ c, k = .count c → RuneRows.number (q.view db) k ≤ n)
    (hpending : ∀ c, pending c ≤ pending' c ∨ k = .count c ∧ pending c ≤ n) :
    Journaled env db b pending' q' (numbers.put k n) ephem := by
  refine h.write hpre hsub hdeletes ?_ ?_ ?_ ?_ ?_ ?_
  · intro p hp
    rcases hputs p hp with hold | hnew
    · exact .inl hold
    · obtain ⟨pk, pv⟩ := p
      obtain rfl : pk = _ := hnew
      exact .inr (Justified.of_plain pv rfl (by simp) (by simp))
  · intro c
    by_cases hc : k = .count c
    · rw [← hc, hself]
      exact hcount c hc
    · exact (hother _ (Ne.symm hc)).ge
  · intro c
    rcases hpending c with hle | ⟨hc, hle⟩
    · exact .inl hle
    · refine .inr ?_
      rw [← hc, hself]
      exact hle
  · intro k' n' hk'
    rw [Table.get_put] at hk'
    split_ifs at hk' with heq
    · rw [heq, hself, Option.some.inj hk']
    · rw [hother k' heq]
      exact h.cached k' n' hk'
  · intro k' hk' hc'
    rw [Table.get_put] at hk'
    split_ifs at hk' with heq
    rw [hother k' heq]
    exact h.uncached k' hk' hc'
  · intro address id
    have hne : NumberKey.count (.history address id) ≠ k := by
      rintro rfl
      exact absurd hcached (by simp)
    rw [Table.get_put_of_ne _ _ hne, hother _ hne]
    exact h.histories address id

end

lemma Journaled.push (v : k.Value)
    (hk : ∀ n, k ≠ .number n) (hjust : Justified env db b pending (q.push k v) ⟨k, v⟩) :
    Journaled env db b pending (q.push k v) numbers ephem := by
  refine h.write_other rfl (subset_append_left _ _) (fun _ => .inl) ?_ ?_
  · exact fun p hp => (mem_append.1 hp).imp_right fun hnew => by rwa [mem_singleton.1 hnew]
  · exact fun n => number_congr (WriteQueue.lookup_view_push_of_ne db q v (hk n).symm)

lemma Journaled.queuePut (v : k.Value)
    (hk : ∀ n, k ≠ .number n) (hjust : Justified env db b pending (q.queuePut k v) ⟨k, v⟩) :
    Journaled env db b pending (q.queuePut k v) numbers ephem := by
  refine h.write_other rfl (subset_append_left _ _)
    (fun _ hmem => .inl (mem_of_mem_filter hmem)) ?_ ?_
  · exact fun p hp => (mem_append.1 hp).imp_right fun hnew => by rwa [mem_singleton.1 hnew]
  · exact fun n => number_congr (WriteQueue.lookup_view_queuePut_of_ne db q v (hk n).symm)

lemma Journaled.queueDelete (hk : ∀ n, k ≠ .number n) (hdel : k.deletable) :
    Journaled env db b pending (q.queueDelete k) numbers ephem :=
  h.write_other rfl (List.Subset.refl _) (fun _ => mem_deletes_queueDelete hdel) (fun _ => .inl)
    fun n => number_congr (WriteQueue.lookup_view_queueDelete_of_ne db q (hk n).symm)

lemma Journaled.remember {raw : Option k.Value}
    (hraw : raw = db.get k) : Journaled env db b pending (q.remember k raw) numbers ephem where
  known e he := by
    rcases WriteQueue.of_mem_preimages_remember he with hold | rfl
    · exact h.known e hold
    · exact hraw
  puts p hp := (h.puts p hp).mono (List.Subset.refl _) (fun _ => mem_preimages_remember)
    fun _ _ hi => hi
  deletes := h.deletes
  grows := h.grows
  cached := h.cached
  uncached := h.uncached
  histories := h.histories
  ephem := h.ephem

end Writes

/-! ## Numbers -/

namespace BlockRunesIndexer
variable {T A H : Type} [LinearOrder T] [LinearOrder A] {env : RunesEnv} {db : RuneRows T A}
  {b : RuneBlock T A H} {pending : Counter A → ℕ} {ix : BlockRunesIndexer T A}

/-- No counter is about to be stored. -/
def settled : Counter A → ℕ := fun _ => 0

lemma loadNumber_fst (h : JournaledIx env db b pending ix) {k : NumberKey A} (hk : k.cached) :
    (ix.loadNumber db k).1 = (ix.view db).number k := by
  unfold loadNumber
  split
  · rename_i n hn
    exact (h.cached k n hn).symm
  · rename_i hn
    exact (h.uncached k hn hk).symm

lemma view_loadNumber (ix : BlockRunesIndexer T A) (k : NumberKey A) :
    (ix.loadNumber db k).2.view db = ix.view db := by
  unfold loadNumber
  split
  · rfl
  · rfl

section
variable (h : JournaledIx env db b pending ix)
include h

variable {k : NumberKey A}

lemma journaled_loadNumber (hk : k.cached) :
    JournaledIx env db b pending (ix.loadNumber db k).2 := by
  unfold loadNumber
  split
  · exact h
  · rename_i hn
    have hview := h.uncached k hn hk
    exact (h.remember rfl).write_number rfl (List.Subset.refl _) (fun _ => .inl) (fun _ => .inl)
      hview (fun _ _ => rfl) hk (fun _ _ => hview.le) fun _ => .inl le_rfl

section
variable {pending' : Counter A → ℕ} (n : ℕ) (hk : k.cached)
  (hcount : ∀ c, k = .count c → (ix.view db).number k ≤ n)
  (hpending : ∀ c, pending c ≤ pending' c ∨ k = .count c ∧ pending c ≤ n)
include hk hcount hpending

lemma journaled_pushNumber (hdel : (RuneKey.number k : RuneKey T A).deletable = false) :
    JournaledIx env db b pending' ((ix.cacheNumber k n).push (.number k) n) ∧
      (((ix.cacheNumber k n).push (.number k) n).view db).number k = n := by
  have hmem : RuneKey.number k ∉ ix.writes.deletes := fun hmem =>
    absurd (h.deletes _ hmem) (by simp [hdel])
  have hself : (((ix.cacheNumber k n).push (.number k) n).view db).number k = n := by
    apply number_of_get
    have hview : ((ix.cacheNumber k n).push (.number k) n).view db =
        (ix.view db).insert (.number k) n := WriteQueue.view_push db ix.writes (k := .number k) n hmem
    rw [hview]
    exact Finmap.lookup_insert _
  refine ⟨h.write_number rfl (subset_append_left _ _) (fun _ => .inl) ?_ hself ?_ hk hcount
    hpending, hself⟩
  · intro p hp
    exact (mem_append.1 hp).imp id fun hnew => congrArg Sigma.fst (mem_singleton.1 hnew)
  · exact fun k' hne => number_congr
      (WriteQueue.lookup_view_push_of_ne db ix.writes (k := .number k) n (by simpa using hne))

lemma journaled_queuePutNumber :
    JournaledIx env db b pending' ((ix.cacheNumber k n).queuePut (.number k) n) := by
  refine h.write_number rfl (subset_append_left _ _)
    (fun _ hmem => .inl (mem_of_mem_filter hmem)) ?_ ?_ ?_ hk hcount hpending
  · intro p hp
    exact (mem_append.1 hp).imp id fun hnew => congrArg Sigma.fst (mem_singleton.1 hnew)
  · exact number_of_get (WriteQueue.lookup_view_queuePut_self db ix.writes (.number k) n)
  · exact fun k' hne => number_congr
      (WriteQueue.lookup_view_queuePut_of_ne db ix.writes (k := .number k) n (by simpa using hne))

end

lemma journaled_queueDeleteNumber (hk : k.cached)
    (hdel : (RuneKey.number k : RuneKey T A).deletable) (hne : ∀ c, k ≠ .count c) :
    JournaledIx env db b pending ((ix.cacheNumber k 0).queueDelete (.number k)) := by
  refine h.write_number rfl (List.Subset.refl _) (fun _ => mem_deletes_queueDelete hdel)
    (fun _ => .inl) ?_ ?_ hk (fun c hc => absurd hc (hne c))
    fun _ => .inl le_rfl
  · exact number_of_get_none (WriteQueue.lookup_view_queueDelete_self db ix.writes (.number k))
  · exact fun k' hne => number_congr
      (WriteQueue.lookup_view_queueDelete_of_ne db ix.writes (by simpa using hne))

/-- The next id of a counter: it is new, and below the counter afterwards. -/
theorem journaled_nextId {c : Counter A} (hc : (NumberKey.count c).cached) :
    JournaledIx env db b pending (ix.nextId db c).2 ∧
      db.number (.count c) ≤ (ix.nextId db c).1 ∧
      (ix.nextId db c).1 < ((ix.nextId db c).2.view db).number (.count c) := by
  have hfst := loadNumber_fst h hc
  have hview : (ix.loadNumber db (.count c)).2.view db = ix.view db := view_loadNumber ix _
  have hgrows : db.number (.count c) ≤ (ix.view db).number (.count c) := h.grows c
  obtain ⟨hj, hself⟩ := journaled_pushNumber (journaled_loadNumber h hc)
    ((ix.loadNumber db (.count c)).1 + 1) hc (fun _ _ => by rw [hview]; omega)
    (fun _ => .inl le_rfl) rfl
  refine ⟨hj, ?_, ?_⟩
  · show db.number (.count c) ≤ (ix.loadNumber db (.count c)).1
    omega
  · exact lt_of_lt_of_eq (Nat.lt_succ_self _) hself.symm

lemma journaled_changeAmount (delta : ℤ) (hk : k.cached)
    (hdel : (RuneKey.number k : RuneKey T A).deletable) (hne : ∀ c, k ≠ .count c) :
    JournaledIx env db b pending (ix.changeAmount db k delta).2 := by
  have hloaded := journaled_loadNumber h hk
  unfold changeAmount
  dsimp only
  split_ifs with hzero
  · rw [hzero]
    exact journaled_queueDeleteNumber hloaded hk hdel hne
  · exact journaled_queuePutNumber hloaded _ hk (fun c hc => absurd hc (hne c)) fun _ => .inl le_rfl

lemma journaled_countHolders (id : SchemaRuneId) (hprev hnext : ℕ) :
    JournaledIx env db b pending (ix.countHolders db id hprev hnext) := by
  have hloaded := journaled_loadNumber h (k := .holdersCount id) rfl
  unfold countHolders
  dsimp only
  generalize (if hprev = 0 ∧ hnext ≠ 0 then (ix.loadNumber db (.holdersCount id)).1 + 1
    else if hprev ≠ 0 ∧ hnext = 0 then (ix.loadNumber db (.holdersCount id)).1 - 1
    else (ix.loadNumber db (.holdersCount id)).1) = next
  split_ifs
  · exact journaled_queuePutNumber hloaded _ rfl (by simp) fun _ => .inl le_rfl
  · exact hloaded

lemma journaled_applyAddressDelta (address : A) (id : SchemaRuneId) (delta : ℤ) :
    JournaledIx env db b pending (ix.applyAddressDelta db address id delta) := by
  have hbalance := journaled_changeAmount h (k := .addressBalance address id) delta rfl rfl (by simp)
  apply journaled_countHolders
  refine journaled_changeAmount ?_ _ rfl rfl (by simp)
  exact hbalance

end

/-- One counter is about to be stored. -/
def storing (c : Counter A) (n : ℕ) : Counter A → ℕ := fun c' => if c' = c then n else 0

lemma storing_le (c c' : Counter A) (n : ℕ) :
    storing c n c' ≤ settled c' ∨ NumberKey.count c = .count c' ∧ storing c n c' ≤ n := by
  unfold storing
  split_ifs with heq
  · exact .inr ⟨by rw [heq], le_rfl⟩
  · exact .inl (Nat.zero_le _)

lemma justified_slot {q : WriteQueue (RuneKey.Value (T := T) (A := A))} {c : Counter A} {i : ℕ}
    (v : (RuneKey.slot c i : RuneKey T A).Value)
    (hnew : .slot c i ∈ q.preimages ∨ db.number (.count c) ≤ i) (hbelow : Below db pending q c i) :
    Justified env db b pending q ⟨.slot c i, v⟩ where
  txid := by simp
  height := by simp
  rune := by simp
  name := by simp
  list := by simp
  ids l list h := absurd (congrArg Sigma.fst h) (by simp)
  slot c' i' h := by
    obtain ⟨rfl, rfl⟩ : c = c' ∧ i = i' := by simpa using h
    exact ⟨hnew, hbelow⟩

section
variable (h : JournaledIx env db b settled ix)
include h

lemma journaled_storing (c : Counter A) (n : ℕ) :
    JournaledIx env db b (storing c n) ix :=
  h.write rfl (List.Subset.refl _) (fun _ => .inl) (fun _ => .inl) (fun _ => le_rfl)
    (fun _ => .inl (Nat.zero_le _)) h.cached h.uncached h.histories

variable (kind : RuneVolumeKind) (id : SchemaRuneId) (address : A)

lemma journaled_listVolume :
    JournaledIx env db b settled (ix.listVolume db kind id address) := by
  have hloaded := journaled_loadNumber h (k := .count (.volume kind id)) rfl
  have hfst := loadNumber_fst h (k := .count (.volume kind id)) rfl
  have hview : (ix.loadNumber db (.count (.volume kind id))).2.view db = ix.view db :=
    view_loadNumber ix _
  have hgrows : db.number (.count (.volume kind id)) ≤ (ix.view db).number (.count (.volume kind id)) :=
    h.grows _
  unfold listVolume
  dsimp only
  generalize hlen : (ix.loadNumber db (.count (.volume kind id))).1 = len at hfst ⊢
  have hslot := (journaled_storing hloaded (.volume kind id) (len + 1)).queuePut
    (k := .slot (.volume kind id) len) address (by simp)
    (justified_slot _ (.inr (by omega)) (.inr (by simp [storing])))
  refine journaled_queuePutNumber hslot _ rfl (fun _ _ => ?_) (storing_le _ · _)
  -- the counter is still what it was when it was read
  have hcount : ((((ix.loadNumber db (.count (.volume kind id))).2).queuePut
      (.slot (.volume kind id) len) address).view db).number (.count (.volume kind id)) =
      (ix.view db).number (.count (.volume kind id)) := by
    rw [← hview]
    exact number_congr (WriteQueue.lookup_view_queuePut_of_ne _ _ _ (by simp))
  exact hcount.le.trans (by omega)

lemma journaled_applyVolumeDelta (delta : ℕ) :
    JournaledIx env db b settled (ix.applyVolumeDelta db kind id address delta) := by
  have hwrite : ∀ next : ℕ, JournaledIx env db b settled
      (((ix.loadNumber db (.volume kind id address)).2.cacheNumber (.volume kind id address)
        next).queuePut (.number (.volume kind id address)) next) := fun next =>
    journaled_queuePutNumber (journaled_loadNumber h rfl) next rfl (by simp) fun _ => .inl le_rfl
  unfold applyVolumeDelta
  dsimp only
  split_ifs
  · exact h
  · exact hwrite _
  · exact journaled_listVolume (hwrite _) _ _ _

end

/-! ## Entries -/

/-- A rune that the database does not have, under an id of the block if it is reserved. -/
def NewRune (env : RunesEnv) (db : RuneRows T A) (b : RuneBlock T A H) (rune : ℕ) : Prop :=
  db.get (.idByRune rune) = none ∧
    (env.isReserved rune = true → ∃ txIndex, rune = env.reserved b.height txIndex)

/-- The entries of a rune, by their numbers. -/
def Names (env : RunesEnv) (rune spacers : ℕ) (entry : ℕ → RuneEntry T) : Prop :=
  ∀ n, (entry n).rune = rune ∧ (entry n).name = env.runeName rune ∧
    (entry n).spacedName = env.spacedName rune spacers ∧ (entry n).number = n

omit [LinearOrder T] [LinearOrder A] in
lemma newEntry_spec (env : RunesEnv) (b : RuneBlock T A H) (id : SchemaRuneId) (rune : ℕ) (txid : T)
    (etching : Option Etching) (artifact : Artifact) :
    ∃ spacers, Names env rune spacers (newEntry env b id rune txid etching artifact) := by
  cases artifact with
  | cenotaph e m => exact ⟨0, fun _ => ⟨rfl, rfl, rfl, rfl⟩⟩
  | runestone stone => exact ⟨_, fun _ => ⟨rfl, rfl, rfl, rfl⟩⟩

lemma newRune_of_etched {txIndex : ℕ} {tx : RuneTx T A} {artifact : Artifact} {id : SchemaRuneId}
    {rune : ℕ} {etching : Option Etching}
    (hreserved : ∀ txIndex, db.get (.idByRune (env.reserved b.height txIndex)) = none)
    (h : ix.etched db env b txIndex tx artifact = some (id, rune, etching)) :
    id = ⟨b.height, txIndex⟩ ∧ NewRune env db b rune := by
  unfold etched at h
  dsimp only at h
  split at h
  · simp at h
  · obtain ⟨rfl, rfl, -⟩ : _ ∧ _ ∧ _ := by simpa using h
    exact ⟨rfl, hreserved txIndex, fun _ => ⟨txIndex, rfl⟩⟩
  · split_ifs at h with hguard
    obtain ⟨rfl, rfl, -⟩ : _ ∧ _ ∧ _ := by simpa using h
    simp only [Bool.or_eq_true, not_or, Bool.not_eq_true, runeExists,
      Option.isSome_eq_false_iff, Option.isNone_iff_eq_none] at hguard
    obtain ⟨⟨⟨-, hres⟩, -, hdb⟩, -⟩ := hguard
    exact ⟨rfl, hdb, fun hres' => absurd hres' (by simp [hres])⟩

section
variable (h : JournaledIx env db b pending ix)
include h

lemma journaled_loadEntry (id : SchemaRuneId) :
    JournaledIx env db b pending (ix.loadEntry db id).2 := by
  unfold loadEntry
  split
  · exact h
  · split
    · exact h
    · exact h

lemma journaled_storeEntry (entry : RuneEntry T) :
    JournaledIx env db b pending (ix.storeEntry entry) :=
  h.push (k := .entry entry.id) entry (by simp)
    (.of_plain _ rfl (by simp) (by simp))

lemma journaled_mint (height : ℕ) (id : SchemaRuneId) (txIndex : ℕ) :
    JournaledIx env db b pending (ix.mint db height id txIndex).2 := by
  unfold mint
  dsimp only
  split
  · exact journaled_loadEntry h _
  · split
    · exact journaled_loadEntry h _
    · exact journaled_storeEntry (journaled_loadEntry h _) _

lemma journaled_burn (balance : RuneBalance) :
    JournaledIx env db b pending (ix.burn db balance) := by
  unfold burn
  dsimp only
  split
  · exact journaled_loadEntry h _
  · exact journaled_storeEntry (journaled_loadEntry h _) _

lemma journaled_pushRune {rune : ℕ} (hrune : NewRune env db b rune) (id : SchemaRuneId) :
    JournaledIx env db b pending (ix.push (.idByRune rune) id) := by
  refine h.push (k := .idByRune rune) id (by simp) ⟨by simp, by simp,
    ?_, by simp, by simp, fun l list heq => absurd (congrArg Sigma.fst heq) (by simp), by simp⟩
  intro rune' heq
  obtain rfl : rune = rune' := by simpa using heq
  exact hrune

lemma journaled_pushName {name : String} (hrune : db.get (.idByRune (env.runeOf name)) = none)
    (hput : .idByRune (env.runeOf name) ∈ ix.writes.puts.map Sigma.fst) (id : SchemaRuneId) :
    JournaledIx env db b pending (ix.push (.idByName name) id) := by
  refine h.push (k := .idByName name) id (by simp) ⟨by simp, by simp,
    by simp, ?_, by simp, fun l list heq => absurd (congrArg Sigma.fst heq) (by simp), by simp⟩
  intro name' heq
  obtain rfl : name = name' := by simpa using heq
  refine ⟨hrune, ?_⟩
  show _ ∈ (ix.writes.puts ++ [_]).map Sigma.fst
  rw [map_append]
  exact mem_append_left _ hput

lemma journaled_nameRune {entry : RuneEntry T} (hrune : NewRune env db b entry.rune)
    (hname : env.runeOf entry.name = entry.rune)
    (hspaced : env.runeOf entry.spacedName = entry.rune)
    (hnew : db.number (.count .seq) ≤ entry.number)
    (hbelow : entry.number < (ix.view db).number (.count .seq)) :
    JournaledIx env db b pending (ix.nameRune entry) := by
  have hstored := journaled_storeEntry h entry
  have hrow : JournaledIx env db b pending
      ({ ix.storeEntry entry with
        runeToId := (ix.storeEntry entry).runeToId.put entry.rune entry.id }.push
          (.idByRune entry.rune) entry.id) := journaled_pushRune hstored hrune _
  have hfirst := journaled_pushName hrow (hname ▸ hrune.1) (by simp [push, WriteQueue.push, hname]) entry.id
  have hsecond := journaled_pushName hfirst (hspaced ▸ hrune.1) (by simp [push, WriteQueue.push, hspaced])
    entry.id
  refine hsecond.push (k := .slot .seq entry.number) entry.id (by simp)
    (justified_slot _ (.inr hnew) (.inl (lt_of_lt_of_eq hbelow ?_)))
  -- none of the puts since is to the counter
  apply number_congr
  have hpush : ∀ (q : WriteQueue (RuneKey.Value (T := T) (A := A))) (k : RuneKey T A) (v : k.Value),
      RuneKey.number (.count .seq) ≠ k →
        RuneRows.get (q.view db) (.number (.count .seq)) =
          RuneRows.get ((q.push k v).view db) (.number (.count .seq)) :=
    fun q k v hk => (WriteQueue.lookup_view_push_of_ne db q v hk).symm
  refine (hpush _ (.entry entry.id) entry (by simp)).trans ?_
  refine (hpush _ (.idByRune entry.rune) entry.id (by simp)).trans ?_
  refine (hpush _ (.idByName entry.name) entry.id (by simp)).trans ?_
  refine (hpush _ (.idByName entry.spacedName) entry.id (by simp)).trans ?_
  exact hpush _ (.slot .seq entry.number) entry.id (by simp)

lemma journaled_nextSequence_nameRune (entry : ℕ → RuneEntry T) {rune spacers : ℕ}
    (hrune : NewRune env db b rune) (hentry : Names env rune spacers entry) :
    JournaledIx env db b pending
      ((ix.nextSequence db).2.nameRune (entry (ix.nextSequence db).1)) := by
  obtain ⟨hseq, hnew, hbelow⟩ := journaled_nextId h (c := .seq) rfl
  obtain ⟨hr, hn, hs, hnum⟩ := hentry (ix.nextSequence db).1
  refine journaled_nameRune hseq (hr ▸ hrune) ?_ ?_ (hnew.trans hnum.ge) (hnum.trans_lt hbelow)
  · rw [hn, hr, env.runeOf_runeName]
  · rw [hs, hr, env.runeOf_spacedName]

lemma journaled_ensureGenesisRune (hrune : NewRune env db b env.uncommonGoods) (txid : T) :
    JournaledIx env db b pending (ix.ensureGenesisRune db env b txid) := by
  have hloaded := journaled_loadEntry h genesisRuneId
  unfold ensureGenesisRune
  dsimp only
  split
  · exact hloaded
  · exact journaled_nextSequence_nameRune hloaded
      (fun n => makeEntry env genesisRuneId env.uncommonGoods 128 (some '⧉') 0 0
        (some (genesisTerms env)) txid n b.time true) hrune fun _ => ⟨rfl, rfl, rfl, rfl⟩

lemma journaled_createRuneEntry {id : SchemaRuneId} (hid : id.block = b.height) {rune : ℕ} (hrune : NewRune env db b rune) (tx : RuneTx T A)
    (etching : Option Etching) (artifact : Artifact) :
    JournaledIx env db b pending (ix.createRuneEntry db env b id rune tx etching artifact) := by
  obtain ⟨spacers, hentry⟩ := newEntry_spec env b id rune tx.txid etching artifact
  have hnamed := journaled_nextSequence_nameRune h _ hrune hentry
  unfold createRuneEntry
  split
  · exact hnamed
  · exact hnamed.push _ (by simp)
      (.of_plain _ rfl (by simp) (by simp [hid]))

lemma journaled_etch
    (hreserved : ∀ txIndex, db.get (.idByRune (env.reserved b.height txIndex)) = none)
    (txIndex : ℕ) (tx : RuneTx T A) (artifact : Option Artifact)
    (unallocated : RuneSheet SchemaRuneId) :
    JournaledIx env db b pending (ix.etch db env b txIndex tx artifact unallocated).ix := by
  unfold etch
  split
  · exact h
  · split
    · exact h
    · rename_i heq
      obtain ⟨rfl, hrune⟩ := newRune_of_etched hreserved heq
      exact journaled_createRuneEntry h rfl hrune _ _ _

end

lemma journaled_mintArtifact {st : Issued T A} (h : JournaledIx env db b pending st.ix)
    (txIndex : ℕ) (artifact : Option Artifact) :
    JournaledIx env db b pending (mintArtifact db b st txIndex artifact).ix := by
  unfold mintArtifact
  split
  · exact h
  · dsimp only
    split
    · exact journaled_mint h _ _ _
    · exact journaled_mint h _ _ _

end BlockRunesIndexer

end Espo.Runes
