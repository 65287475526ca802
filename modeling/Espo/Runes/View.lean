import Espo.Runes.IndexBlock

/-!
# What each part of the indexer writes

The rows as they will be once the block is written are the indexer's view. Its functions write keys
of a few classes each: entries, outpoints, balances with the holders, and the others, which nothing
but queries reads. `Touches` says which, and that the block's own rows and the cached entries are
left as they are.
-/

namespace Espo.Runes
open Lib

/-- The classes of keys. -/
inductive KeyClass where
  | entries
  | outpoints
  | balances
  | others
  deriving DecidableEq

/-- The class of a key. -/
@[simp]
def RuneKey.keyClass {T A : Type} : RuneKey T A → KeyClass
  | .entry _ => .entries
  | .outpoint _ => .outpoints
  | .addressOutpoint _ _ => .outpoints
  | .number (.holder _ _) => .balances
  | .number (.holdersCount _) => .balances
  | .number (.addressBalance _ _) => .balances
  | _ => .others

open RuneKey (keyClass)

/-- The keys that the indexer deletes. -/
def RuneKey.deletable {T A : Type} : RuneKey T A → Bool
  | .outpoint _ => true
  | .addressOutpoint _ _ => true
  | .number (.holder _ _) => true
  | .number (.addressBalance _ _) => true
  | _ => false

namespace BlockRunesIndexer
variable {T A H : Type} [LinearOrder T] [LinearOrder A]

/-- The rows once the block is written. -/
def view (db : RuneRows T A) (ix : BlockRunesIndexer T A) : RuneRows T A := ix.writes.view db

/-- The cached entries are those of the view, the others are those of the database, and none has been
deleted. -/
structure Coherent (db : RuneRows T A) (ix : BlockRunesIndexer T A) : Prop where
  deletes : ∀ k ∈ ix.writes.deletes, k.deletable
  entries : ∀ id, (ix.view db).entry id = (ix.entries.get id).or (db.entry id)

/-- `ix'` comes from `ix` by writes to keys of the given classes. -/
structure Touches (db : RuneRows T A) (classes : List KeyClass) (ix ix' : BlockRunesIndexer T A) :
    Prop where
  rows : ∀ k : RuneKey T A, k.keyClass ∉ classes → (ix'.view db).get k = (ix.view db).get k
  noted : .outpoints ∉ classes → ∀ e ∈ ix'.writes.preimages.entries, e.1.keyClass = .outpoints →
    e ∈ ix.writes.preimages.entries
  puts : ∀ p ∈ ix.writes.puts, p ∈ ix'.writes.puts
  numbers : .balances ∉ classes → ∀ k : NumberKey A,
    (RuneKey.number k : RuneKey T A).keyClass = .balances → ix'.numbers.get k = ix.numbers.get k
  ephem : ix'.ephem = ix.ephem
  overflow : ix'.overflow = ix.overflow
  coherent : Coherent db ix → Coherent db ix'

variable {db : RuneRows T A} {classes classes' : List KeyClass} {ix ix' ix'' : BlockRunesIndexer T A}

namespace Touches

lemma refl (ix : BlockRunesIndexer T A) : Touches db classes ix ix where
  rows _ _ := rfl
  noted _ _ he _ := he
  puts _ hp := hp
  numbers _ _ _ := rfl
  ephem := rfl
  overflow := rfl
  coherent h := h

section
variable (h : Touches db classes ix ix')
include h

lemma trans (h' : Touches db classes ix' ix'') : Touches db classes ix ix'' where
  rows k hk := (h'.rows k hk).trans (h.rows k hk)
  noted hc e he hk := h.noted hc e (h'.noted hc e he hk) hk
  puts p hp := h'.puts p (h.puts p hp)
  numbers hc k hk := (h'.numbers hc k hk).trans (h.numbers hc k hk)
  ephem := h'.ephem.trans h.ephem
  overflow := h'.overflow.trans h.overflow
  coherent hc := h'.coherent (h.coherent hc)

lemma mono (hsub : ∀ c ∈ classes, c ∈ classes') : Touches db classes' ix ix' :=
  { h with
    rows := fun k hk => h.rows k fun hmem => hk (hsub _ hmem)
    noted := fun hc => h.noted fun hmem => hc (hsub _ hmem)
    numbers := fun hc => h.numbers fun hmem => hc (hsub _ hmem) }

lemma entry (hc : .entries ∉ classes) (id : SchemaRuneId) :
    (ix'.view db).entry id = (ix.view db).entry id :=
  h.rows (.entry id) hc

lemma outpoint (hc : .outpoints ∉ classes) (o : T × ℕ) :
    (ix'.view db).outpoint o = (ix.view db).outpoint o :=
  h.rows (.outpoint o) hc

end

lemma foldl {α : Type} {f : BlockRunesIndexer T A → α → BlockRunesIndexer T A} {l : List α}
    (h : ∀ ix, ∀ a ∈ l, Touches db classes ix (f ix a)) (ix : BlockRunesIndexer T A) :
    Touches db classes ix (l.foldl f ix) :=
  List.foldlRecOn _ _ (refl ix) fun _ hix a ha => hix.trans (h _ a ha)

lemma of_rows {k : RuneKey T A} (hk : k.keyClass ∈ classes ∧ k.keyClass ≠ .entries)
    (hrows : ∀ k', k' ≠ k → (ix'.view db).get k' = (ix.view db).get k')
    (hephem : ix'.ephem = ix.ephem) (hoverflow : ix'.overflow = ix.overflow)
    (hentries : ix'.entries = ix.entries) (hnumbers : ix'.numbers = ix.numbers)
    (hpreimages : ix'.writes.preimages = ix.writes.preimages)
    (hputs : ∀ p ∈ ix.writes.puts, p ∈ ix'.writes.puts)
    (hdeletes : ∀ k ∈ ix'.writes.deletes, k ∈ ix.writes.deletes ∨ k.deletable) :
    Touches db classes ix ix' where
  rows k' hk' := hrows k' fun heq => hk' (heq ▸ hk.1)
  noted _ e he _ := hpreimages ▸ he
  puts := hputs
  numbers _ k _ := by rw [hnumbers]
  ephem := hephem
  overflow := hoverflow
  coherent hc := by
    refine ⟨fun k' hk' => (hdeletes k' hk').elim (hc.deletes k') id, fun id => ?_⟩
    have hne : RuneKey.entry id ≠ k := fun heq => hk.2 (heq ▸ rfl)
    have hview : (ix'.view db).entry id = (ix.view db).entry id := hrows _ hne
    rw [hview, hentries]
    exact hc.entries id

end Touches

/-! ## Single writes -/

section Writes
variable (ix) {k : RuneKey T A}

lemma touches_push (v : k.Value) (hk : k.keyClass ∈ classes ∧ k.keyClass ≠ .entries) :
    Touches db classes ix (ix.push k v) :=
  .of_rows hk (fun _ h => WriteQueue.lookup_view_push_of_ne db ix.writes v h) rfl rfl rfl rfl
    rfl (fun _ => List.mem_append_left _) fun _ => .inl

lemma touches_queuePut (v : k.Value) (hk : k.keyClass ∈ classes ∧ k.keyClass ≠ .entries) :
    Touches db classes ix (ix.queuePut k v) :=
  .of_rows hk (fun _ h => WriteQueue.lookup_view_queuePut_of_ne db ix.writes v h) rfl rfl rfl rfl
    rfl (fun _ => List.mem_append_left _) fun _ hmem => .inl (List.mem_of_mem_filter hmem)

lemma touches_queueDelete (hk : k.keyClass ∈ classes ∧ k.keyClass ≠ .entries) (hdel : k.deletable) :
    Touches db classes ix (ix.queueDelete k) := by
  refine .of_rows hk
    (fun _ h => WriteQueue.lookup_view_queueDelete_of_ne db ix.writes h) rfl rfl rfl rfl rfl
    (fun _ => id) ?_
  intro k' hmem
  rcases List.mem_insert_iff.1 hmem with rfl | hmem
  · exact .inr hdel
  · exact .inl hmem

variable {ix} in
lemma touches_of_writes (hwrites : ix'.writes = ix.writes) (hephem : ix'.ephem = ix.ephem)
    (hoverflow : ix'.overflow = ix.overflow) (hentries : ix'.entries = ix.entries)
    (hnumbers : ix'.numbers = ix.numbers) : Touches db classes ix ix' where
  rows _ _ := by rw [view, hwrites]; rfl
  noted _ e he _ := hwrites ▸ he
  puts p hp := hwrites ▸ hp
  numbers _ k _ := by rw [hnumbers]
  ephem := hephem
  overflow := hoverflow
  coherent hc := by
    refine ⟨hwrites ▸ hc.deletes, fun id => ?_⟩
    rw [view, hwrites, hentries]
    exact hc.entries id

lemma touches_remember (k : RuneKey T A) (raw : Option k.Value)
    (hk : .outpoints ∉ classes → k.keyClass ≠ .outpoints) :
    Touches db classes ix (ix.remember k raw) where
  rows _ _ := rfl
  noted hc e he hclass := by
    rcases WriteQueue.of_mem_preimages_remember he with hold | rfl
    · exact hold
    · exact absurd hclass (hk hc)
  puts _ hp := hp
  numbers _ _ _ := rfl
  ephem := rfl
  overflow := rfl
  coherent hc := ⟨hc.deletes, hc.entries⟩

section
variable (k : NumberKey A)
  (hk : .balances ∉ classes → (RuneKey.number k : RuneKey T A).keyClass ≠ .balances)
include hk

lemma touches_cacheNumber (n : ℕ) :
    Touches db classes ix (ix.cacheNumber k n) where
  rows _ _ := rfl
  noted _ _ he _ := he
  puts _ hp := hp
  numbers hc _ hk' := Table.get_put_of_ne _ _ fun heq => hk hc (heq ▸ hk')
  ephem := rfl
  overflow := rfl
  coherent hc := ⟨hc.deletes, hc.entries⟩

lemma touches_loadNumber : Touches db classes ix (ix.loadNumber db k).2 := by
  unfold loadNumber
  split
  · exact .refl ix
  · refine (touches_remember _ _ _ fun _ => ?_).trans (touches_cacheNumber _ _ hk _)
    cases k
    all_goals simp

lemma touches_updateNumber (n : ℕ) :
    Touches db classes ix ((ix.loadNumber db k).2.cacheNumber k n) :=
  (touches_loadNumber _ _ hk).trans (touches_cacheNumber _ _ hk _)

end

/-! ## Numbers -/

lemma touches_nextId (c : Counter A) : Touches db [.others] ix (ix.nextId db c).2 :=
  (touches_updateNumber _ _ (by simp) _).trans
    (touches_push _ _ (by simp))

lemma touches_changeAmount {k : NumberKey A} (delta : ℤ)
    (hk : (RuneKey.number k : RuneKey T A).keyClass = .balances)
    (hdel : (RuneKey.number k : RuneKey T A).deletable) :
    Touches db [.balances] ix (ix.changeAmount db k delta).2 := by
  have hloaded : Touches db [.balances] ix
      ((ix.loadNumber db k).2.cacheNumber k (applyDelta (ix.loadNumber db k).1 delta)) :=
    touches_updateNumber _ _ (by simp) _
  have hmem : (RuneKey.number k : RuneKey T A).keyClass ∈ [KeyClass.balances] ∧
      (RuneKey.number k : RuneKey T A).keyClass ≠ .entries := by rw [hk]; decide
  unfold changeAmount
  dsimp only
  split_ifs
  · exact hloaded.trans (touches_queueDelete _ hmem hdel)
  · exact hloaded.trans (touches_queuePut _ _ hmem)

lemma touches_countHolders (id : SchemaRuneId) (hprev hnext : ℕ) :
    Touches db [.balances] ix (ix.countHolders db id hprev hnext) := by
  unfold countHolders
  dsimp only
  split_ifs
  all_goals first
    | exact touches_loadNumber _ _ (by simp)
    | exact (touches_updateNumber _ _ (by simp) _).trans
        (touches_queuePut _ _ (by simp))

lemma touches_applyAddressDelta (address : A) (id : SchemaRuneId) (delta : ℤ) :
    Touches db [.balances] ix (ix.applyAddressDelta db address id delta) := by
  have hbalance : Touches db [.balances] ix
      (ix.changeAmount db (.addressBalance address id) delta).2 := touches_changeAmount _ _ rfl rfl
  refine (hbalance.trans ?_).trans
    ((touches_changeAmount _ _ rfl rfl).trans (touches_countHolders _ _ _ _))
  exact touches_of_writes rfl rfl rfl rfl rfl

lemma touches_listVolume (kind : RuneVolumeKind) (id : SchemaRuneId) (address : A) :
    Touches db [.others] ix (ix.listVolume db kind id address) := by
  exact (((touches_loadNumber _ _ (by simp)).trans (touches_queuePut _ _ (by simp))).trans
    (touches_cacheNumber _ _ (by simp) _)).trans (touches_queuePut _ _ (by simp))

lemma touches_applyVolumeDelta (kind : RuneVolumeKind) (id : SchemaRuneId) (address : A)
    (delta : ℕ) : Touches db [.others] ix (ix.applyVolumeDelta db kind id address delta) := by
  have hwrite : ∀ next : ℕ, Touches db [.others] ix
      (((ix.loadNumber db (.volume kind id address)).2.cacheNumber (.volume kind id address)
        next).queuePut (.number (.volume kind id address)) next) := fun next =>
    (touches_updateNumber _ _ (by simp) _).trans
      (touches_queuePut _ _ (by simp))
  unfold applyVolumeDelta
  dsimp only
  split_ifs
  · exact .refl ix
  · exact hwrite _
  · exact (hwrite _).trans (touches_listVolume _ _ _ _)

/-! ## Entries -/

variable {ix} in
lemma loadEntry_fst (hc : Coherent db ix) (id : SchemaRuneId) :
    (ix.loadEntry db id).1 = (ix.view db).entry id := by
  rw [hc.entries id]
  unfold loadEntry
  split
  · rename_i entry hentry
    rw [hentry]
    rfl
  · rename_i hentry
    rw [hentry]
    split
    · rename_i hdb
      exact hdb.symm
    · rename_i entry hdb
      exact hdb.symm

lemma touches_loadEntry (id : SchemaRuneId) : Touches db classes ix (ix.loadEntry db id).2 := by
  unfold loadEntry
  split
  · exact .refl ix
  · rename_i hentry
    split
    · exact .refl ix
    · rename_i entry hdb
      refine ⟨fun _ _ => rfl, fun _ _ he _ => he, fun _ hp => hp, fun _ _ _ => rfl, rfl, rfl,
        fun hc => ⟨hc.deletes, fun id' => ?_⟩⟩
      show (ix.view db).entry id' = ((ix.entries.put id entry).get id').or _
      rw [hc.entries id', Table.get_put]
      split_ifs with heq
      · subst heq
        rw [hentry]
        exact hdb
      · rfl

variable {ix} in
lemma view_storeEntry (hc : Coherent db ix) (entry : RuneEntry T) :
    (ix.storeEntry entry).view db = (ix.view db).insert (.entry entry.id) entry := by
  apply WriteQueue.view_push
  intro hmem
  exact absurd (hc.deletes _ hmem) (by simp [RuneKey.deletable])

variable {ix} in
lemma entry_storeEntry (hc : Coherent db ix) (entry : RuneEntry T) (id : SchemaRuneId) :
    ((ix.storeEntry entry).view db).entry id =
      if id = entry.id then some entry else (ix.view db).entry id := by
  rw [view_storeEntry hc]
  split_ifs with heq
  · subst heq
    exact Finmap.lookup_insert _
  · exact Finmap.lookup_insert_of_ne _ (by simpa using heq)

variable (entry : RuneEntry T)

lemma touches_storeEntry : Touches db [.entries] ix (ix.storeEntry entry) where
  rows k hk := by
    refine WriteQueue.lookup_view_push_of_ne db ix.writes (k := .entry entry.id) entry
      fun heq => hk ?_
    rw [heq]
    simp
  noted _ _ he _ := he
  puts _ := List.mem_append_left _
  numbers _ _ _ := rfl
  ephem := rfl
  overflow := rfl
  coherent hc := by
    refine ⟨hc.deletes, fun id => ?_⟩
    rw [entry_storeEntry hc, hc.entries id]
    show _ = ((ix.entries.put entry.id entry).get id).or _
    rw [Table.get_put]
    split_ifs
    · rfl
    · rfl

lemma touches_mint (height : ℕ) (id : SchemaRuneId) (txIndex : ℕ) :
    Touches db [.entries] ix (ix.mint db height id txIndex).2 := by
  unfold mint
  dsimp only
  split
  · exact touches_loadEntry _ _
  · split
    · exact touches_loadEntry _ _
    · exact (touches_loadEntry _ _).trans (touches_storeEntry _ _)

lemma touches_burn (balance : RuneBalance) : Touches db [.entries] ix (ix.burn db balance) := by
  unfold burn
  dsimp only
  split
  · exact touches_loadEntry _ _
  · exact (touches_loadEntry _ _).trans (touches_storeEntry _ _)

/-- Naming a rune stores its entry; the rest is not read again. -/
theorem touches_nameRune_storeEntry :
    Touches db [.others] (ix.storeEntry entry) (ix.nameRune entry) := by
  have hrune : Touches db [.others] (ix.storeEntry entry)
      { ix.storeEntry entry with
        runeToId := (ix.storeEntry entry).runeToId.put entry.rune entry.id } :=
    touches_of_writes rfl rfl rfl rfl rfl
  refine (((hrune.trans (touches_push _ _ ?_)).trans (touches_push _ _ ?_)).trans
    (touches_push _ _ ?_)).trans (touches_push _ _ ?_)
  all_goals simp

lemma touches_nameRune : Touches db [.entries, .others] ix (ix.nameRune entry) :=
  ((touches_storeEntry ix entry).mono (by decide)).trans
    ((touches_nameRune_storeEntry ix entry).mono (by decide))

end Writes

section Block
variable (env : RunesEnv) (b : RuneBlock T A H) (ix : BlockRunesIndexer T A)

lemma touches_ensureGenesisRune (txid : T) :
    Touches db [.entries, .others] ix (ix.ensureGenesisRune db env b txid) := by
  unfold ensureGenesisRune
  dsimp only
  split
  · exact touches_loadEntry _ _
  · exact (touches_loadEntry _ _).trans
      (((touches_nextId _ _).mono (by decide)).trans (touches_nameRune _ _))

lemma touches_createRuneEntry (id : SchemaRuneId) (rune : ℕ) (tx : RuneTx T A)
    (etching : Option Etching) (artifact : Artifact) :
    Touches db [.entries, .others] ix
      (ix.createRuneEntry db env b id rune tx etching artifact) := by
  have hname : ∀ entry : RuneEntry T, Touches db [.entries, .others] ix
      ((ix.nextSequence db).2.nameRune entry) := fun entry =>
    ((touches_nextId _ _).mono (by decide)).trans (touches_nameRune _ _)
  unfold createRuneEntry
  split
  · exact hname _
  · exact (hname _).trans
      (touches_push _ _ (by simp))

lemma touches_startTx (txIndex : ℕ) (tx : RuneTx T A) :
    Touches db [.entries, .others] ix (ix.startTx db b env txIndex tx) := by
  unfold startTx
  split_ifs
  · exact touches_ensureGenesisRune _ _ _ _
  · exact .refl ix

lemma touches_etch (txIndex : ℕ) (tx : RuneTx T A) (artifact : Option Artifact)
    (unallocated : RuneSheet SchemaRuneId) :
    Touches db [.entries, .others] ix
      (ix.etch db env b txIndex tx artifact unallocated).ix := by
  unfold etch
  split
  · exact .refl ix
  · split
    · exact .refl ix
    · exact touches_createRuneEntry _ _ _ _ _ _ _ _

lemma touches_mintArtifact (st : Issued T A) (txIndex : ℕ) (artifact : Option Artifact) :
    Touches db [.entries] st.ix (mintArtifact db b st txIndex artifact).ix := by
  unfold mintArtifact
  split
  · exact .refl _
  · dsimp only
    split
    · exact touches_mint _ _ _ _
    · exact touches_mint _ _ _ _

lemma touches_burns (balances : List RuneBalance) :
    Touches db [.entries] ix (balances.foldl (burn db) ix) :=
  .foldl (fun _ _ _ => touches_burn _ _) ix

end Block

section Rows
variable (ix)

/-! ## Transactions -/

lemma touches_applyAddressDeltas (address : A) (balances : List RuneBalance) (delta : ℕ → ℤ) :
    Touches db [.balances] ix (ix.applyAddressDeltas db address balances delta) :=
  .foldl (fun _ _ _ => touches_applyAddressDelta _ _ _ _) ix

lemma touches_receiveBalances (address : A) (balances : List RuneBalance) :
    Touches db [.balances, .others] ix (ix.receiveBalances db address balances) :=
  .foldl (fun _ _ _ => ((touches_applyVolumeDelta _ _ _ _ _).mono (by decide)).trans
    ((touches_applyAddressDelta _ _ _ _).mono (by decide))) ix

variable (o : T × ℕ) (row : OutpointRuneBalances A)

section
variable (previous : Option (OutpointRuneBalances A))

/-- Spending a row: what is done to the outpoints, and then to the balances. -/
theorem spendRow_spec :
    ∃ deleted, Touches db [.outpoints] { ix with ephem := ix.ephem.delete o } deleted ∧
      ix.spendRow db o row previous = match row.address with
        | none => deleted
        | some address => deleted.applyAddressDeltas db address row.balances
            fun amount => negI128 (asI128 amount) := by
  have hdelete : ∀ (ix : BlockRunesIndexer T A) (k : RuneKey T A) (raw : Option k.Value),
      k.keyClass = .outpoints → k.deletable →
        Touches db [.outpoints] ix ((ix.remember k raw).queueDelete k) := fun ix k raw hk hdel =>
    (touches_remember _ _ _ (by simp)).trans
      (touches_queueDelete _ (by rw [hk]; decide) hdel)
  unfold spendRow
  cases row.address with
  | none => exact ⟨_, hdelete _ _ _ rfl rfl, rfl⟩
  | some address => exact ⟨_, (hdelete _ _ _ rfl rfl).trans (hdelete _ _ _ rfl rfl), rfl⟩

lemma touches_spendRow :
    Touches db [.outpoints, .balances] { ix with ephem := ix.ephem.delete o }
      (ix.spendRow db o row previous) := by
  obtain ⟨deleted, hdeleted, heq⟩ := spendRow_spec ix o row previous
  rw [heq]
  split
  · exact hdeleted.mono (by decide)
  · exact (hdeleted.mono (by decide)).trans ((touches_applyAddressDeltas _ _ _ _).mono (by decide))

lemma outpoint_spendRow (o' : T × ℕ) :
    ((ix.spendRow db o row previous).view db).outpoint o' =
      if o' = o then none else (ix.view db).outpoint o' := by
  have hdelete : ∀ ix : BlockRunesIndexer T A,
      ((ix.queueDelete (.outpoint o)).view db).outpoint o' =
        if o' = o then none else (ix.view db).outpoint o' := by
    intro ix
    split_ifs with heq
    · subst heq
      exact WriteQueue.lookup_view_queueDelete_self db ix.writes (.outpoint o')
    · exact WriteQueue.lookup_view_queueDelete_of_ne db ix.writes (by simpa using heq)
  unfold spendRow
  split
  · exact hdelete _
  · refine ((touches_applyAddressDeltas _ _ _ _).outpoint (by decide) o').trans ?_
    exact (WriteQueue.lookup_view_queueDelete_of_ne db _ (by simp)).trans (hdelete _)

variable {o} in
lemma addressOutpoint_spendRow {o' : T × ℕ} (h : o' ≠ o) (address : A) :
    ((ix.spendRow db o row previous).view db).get (.addressOutpoint address o') =
      (ix.view db).get (.addressOutpoint address o') := by
  unfold spendRow
  split
  · exact WriteQueue.lookup_view_queueDelete_of_ne db _ (by simp)
  · refine ((touches_applyAddressDeltas _ _ _ _).rows (.addressOutpoint address o')
      (by simp)).trans ?_
    exact (WriteQueue.lookup_view_queueDelete_of_ne db _ (by simp [h])).trans
      (WriteQueue.lookup_view_queueDelete_of_ne db _ (by simp))

end

/-- Creating a row: what is done to the outpoints, and then to the balances. -/
theorem createRow_spec :
    ∃ created, Touches db [.outpoints] { ix with ephem := ix.ephem.put o row } created ∧
      ⟨.outpoint o, row⟩ ∈ created.writes.puts ∧
      ix.createRow db o row = match row.address with
        | none => created
        | some address => created.receiveBalances db address row.balances := by
  have hput : ∀ (ix : BlockRunesIndexer T A) (k : RuneKey T A) (v : k.Value),
      k.keyClass = .outpoints → Touches db [.outpoints] ix (ix.queuePut k v) := fun ix k v hk =>
    touches_queuePut _ _ (by rw [hk]; decide)
  have hfirst := hput { ix with ephem := ix.ephem.put o row } (.outpoint o) row rfl
  have hmem : ⟨.outpoint o, row⟩ ∈
      ({ ix with ephem := ix.ephem.put o row }.queuePut (.outpoint o) row).writes.puts :=
    List.mem_append_right _ (List.mem_singleton_self _)
  unfold createRow
  cases row.address with
  | none => exact ⟨_, hfirst, hmem, rfl⟩
  | some address =>
    have hsecond := hput ({ ix with ephem := ix.ephem.put o row }.queuePut (.outpoint o) row)
      (.addressOutpoint address o) () rfl
    exact ⟨_, hfirst.trans hsecond, hsecond.puts _ hmem, rfl⟩

lemma touches_createRow :
    Touches db [.outpoints, .balances, .others] { ix with ephem := ix.ephem.put o row }
      (ix.createRow db o row) := by
  obtain ⟨created, hcreated, -, heq⟩ := createRow_spec ix o row
  rw [heq]
  split
  · exact hcreated.mono (by decide)
  · exact (hcreated.mono (by decide)).trans ((touches_receiveBalances _ _ _).mono (by decide))

lemma outpoint_createRow (o' : T × ℕ) :
    ((ix.createRow db o row).view db).outpoint o' =
      if o' = o then some row else (ix.view db).outpoint o' := by
  have hput : ∀ ix : BlockRunesIndexer T A, ((ix.queuePut (.outpoint o) row).view db).outpoint o' =
      if o' = o then some row else (ix.view db).outpoint o' := by
    intro ix
    split_ifs with heq
    · subst heq
      exact WriteQueue.lookup_view_queuePut_self db ix.writes (.outpoint o') row
    · exact WriteQueue.lookup_view_queuePut_of_ne db ix.writes (k := .outpoint o) row
        (by simpa using heq)
  unfold createRow
  split
  · exact hput _
  · refine ((touches_receiveBalances _ _ _).outpoint (by decide) o').trans ?_
    exact (WriteQueue.lookup_view_queuePut_of_ne db _ _ (by simp)).trans (hput _)

lemma addressOutpoint_createRow {o' : T × ℕ} {address : A} (h : o' = o → row.address = some address)
    (hold : o' ≠ o → (ix.view db).get (.addressOutpoint address o') ≠ none) :
    ((ix.createRow db o row).view db).get (.addressOutpoint address o') ≠ none := by
  unfold createRow
  by_cases heq : o' = o
  · subst heq
    rw [h rfl]
    refine ne_of_eq_of_ne ((touches_receiveBalances _ _ _).rows (.addressOutpoint address o')
      (by simp)) ?_
    exact ne_of_eq_of_ne
      (WriteQueue.lookup_view_queuePut_self db _ (.addressOutpoint address o') ()) (by simp)
  · split
    · exact ne_of_eq_of_ne (WriteQueue.lookup_view_queuePut_of_ne db _ _ (by simp)) (hold heq)
    · refine ne_of_eq_of_ne ((touches_receiveBalances _ _ _).rows (.addressOutpoint address o')
        (by simp)) ?_
      refine ne_of_eq_of_ne (WriteQueue.lookup_view_queuePut_of_ne db _ _ (by simp [heq])) ?_
      exact ne_of_eq_of_ne (WriteQueue.lookup_view_queuePut_of_ne db _ _ (by simp)) (hold heq)

lemma touches_transferVolumes (order : Essentials.HashOrder) (acc : TxAcc A) :
    Touches db [.others] ix (ix.transferVolumes db order acc) :=
  .foldl (fun _ _ _ => .foldl (fun _ _ _ => touches_applyVolumeDelta _ _ _ _ _) _) ix

lemma touches_queueRuneActivity (activity : RuneActivity T A) :
    Touches db [.others] ix (ix.queueRuneActivity activity) := by
  refine .foldl (fun ix scope _ => .foldl (fun ix sortBy _ => ?_) ix) ix
  have hpush : ∀ (ix : BlockRunesIndexer T A) (index : ActivityIndex A) (value : ℕ),
      Touches db [.others] ix (ix.push (.activity index scope sortBy value activity.height
        activity.txIndex activity.kind activity.txid) activity) :=
    fun ix index value => touches_push _ _ (by simp)
  unfold queueActivityRow
  dsimp only
  split
  · exact hpush _ _ _
  · exact (hpush _ _ _).trans ((hpush _ _ _).trans (hpush _ _ _))

end Rows

section Block
variable (b : RuneBlock T A H) (txIndex : ℕ) (tx : RuneTx T A) (ix : BlockRunesIndexer T A)

lemma touches_weighUncommonGoods (balance : RuneBalance) (usd : ℕ) :
    Touches db [.others] ix (ix.weighUncommonGoods b balance usd) := by
  unfold weighUncommonGoods
  split_ifs
  · exact touches_of_writes rfl rfl rfl rfl rfl
  · exact .refl ix

lemma touches_recordMint (balance : RuneBalance) :
    Touches db [.others] ix (ix.recordMint db b txIndex tx balance) :=
  (((touches_loadEntry _ _).trans (touches_weighUncommonGoods _ _ _ _)).trans
    (touches_push _ _ (by simp))).trans (touches_queueRuneActivity _ _)

lemma touches_recordEtching (id : SchemaRuneId) :
    Touches db [.others] ix (ix.recordEtching db b txIndex tx id) := by
  unfold recordEtching
  dsimp only
  split
  · exact touches_loadEntry _ _
  · exact (touches_loadEntry _ _).trans (touches_queueRuneActivity _ _)

lemma touches_recordActivities (issued : Issued T A) :
    Touches db [.others] ix (ix.recordActivities db b txIndex tx issued) :=
  (Touches.foldl (fun _ _ _ => touches_recordMint _ _ _ _ _) ix).trans
    (.foldl (fun _ _ _ => touches_recordEtching _ _ _ _ _) _)

lemma touches_finishTx (acc : TxAcc A) :
    Touches db [.others] ix (ix.finishTx db b txIndex tx acc) := by
  unfold finishTx
  dsimp only
  split_ifs
  · exact (((touches_push _ _ (by simp)).trans (touches_nextId _ _)).trans
      (touches_push _ _ (by simp))).trans (touches_of_writes rfl rfl rfl rfl rfl)
  · exact .refl ix

/-- What follows the outputs writes no entry, no outpoint and no balance. -/
theorem touches_afterOutputs (order : Essentials.HashOrder) (issued : Issued T A) (acc : TxAcc A) :
    Touches db [.others] ix (((ix.transferVolumes db order acc).recordActivities db b txIndex tx
      issued).finishTx db b txIndex tx acc) :=
  ((touches_transferVolumes ix order acc).trans (touches_recordActivities b txIndex tx _ issued)).trans
    (touches_finishTx b txIndex tx _ acc)

end Block

/-! ## Flushes -/

section Flush
variable (b : RuneBlock T A H) (env : RunesEnv) (ix : BlockRunesIndexer T A)

lemma touches_flushBalance (touched : A × SchemaRuneId) :
    Touches db [.others] ix (ix.flushBalance db b touched) :=
  (((touches_queuePut _ _ (by simp)).trans (touches_remember _ _ _ (by simp))).trans
    (touches_queuePut _ _ (by simp))).trans (touches_queuePut _ _ (by simp))

lemma touches_flushAddressBalanceHistory :
    Touches db [.others] ix (ix.flushAddressBalanceHistory db b) := by
  have hstart : Touches db [.others] ix { ix with addressBalanceHistoryTouched := ∅ } :=
    touches_of_writes rfl rfl rfl rfl rfl
  exact hstart.trans (.foldl (fun _ _ _ => touches_flushBalance _ _ _) _)

variable (kind : RuneTxIndexKind)

lemma touches_pushChunks (chunks : List (ℕ × List ℕ)) :
    Touches db [.others] ix (pushChunks kind ix chunks) :=
  .foldl (fun _ _ _ => touches_push _ _ (by simp)) ix

lemma touches_fillLastChunk (chunkIds : List ℕ) (len size : ℕ) (values : List ℕ) :
    Touches db [.others] ix (fillLastChunk db kind ix chunkIds len size values).2 := by
  unfold fillLastChunk
  dsimp only
  split
  · exact .refl ix
  · split_ifs
    · exact .refl ix
    · exact (touches_remember _ _ _ (by simp)).trans (touches_push _ _ (by simp))
    · exact .refl ix

lemma touches_appendToList (next : ℕ) (current : ChunkedList ℕ) (values : List ℕ) :
    Touches db [.others] ix (appendToList db env kind next ix current values).2.2 := by
  unfold appendToList
  split
  · split_ifs
    · exact .refl ix
    · exact touches_pushChunks _ _ _
  · exact (touches_fillLastChunk _ _ _ _ _ _).trans (touches_pushChunks _ _ _)

lemma touches_appendRuneTxIndexValues (st : ℕ × BlockRunesIndexer T A)
    (append : TxList A × List ℕ) :
    Touches db [.others] st.2 (appendRuneTxIndexValues db env st append).2 := by
  unfold appendRuneTxIndexValues
  split_ifs
  · exact .refl _
  · refine .trans ?_ ((touches_appendToList _ _ _ _ _ _).trans (touches_push _ _ ?_))
    · split
      · exact .refl _
      · exact touches_remember _ _ _ (by simp)
    all_goals simp

lemma touches_appendLists (appends : List (TxList A × List ℕ)) :
    Touches db [.others] ix (ix.appendLists db env kind appends) := by
  have happends : ∀ st : ℕ × BlockRunesIndexer T A, Touches db [.others] st.2
      (appends.foldl (appendRuneTxIndexValues db env) st).2 := by
    induction appends with
    | nil => exact fun st => .refl _
    | cons append appends ih =>
      exact fun st => (touches_appendRuneTxIndexValues env st append).trans (ih _)
  exact (((touches_loadNumber _ _ (by simp)).trans (happends _)).trans
    (touches_cacheNumber _ _ (by simp) _)).trans (touches_push _ _ (by simp))

lemma touches_flushPointers (blockKind addressKind : RuneTxIndexKind) (blockList : TxList A)
    (blockIds : List ℕ) (addressList : A → TxList A) (addressIds : Table A (List ℕ)) :
    Touches db [.others] ix (ix.flushPointers db env blockKind addressKind blockList blockIds
      addressList addressIds) := by
  have hblock : Touches db [.others] ix
      (if blockIds = [] then ix else ix.appendLists db env blockKind [(blockList, blockIds)]) := by
    split_ifs
    · exact .refl ix
    · exact touches_appendLists _ _ _ _
  unfold flushPointers
  dsimp only
  generalize (if blockIds = [] then ix else ix.appendLists db env blockKind [(blockList, blockIds)])
    = ix' at hblock ⊢
  split_ifs
  · exact hblock
  · exact hblock.trans (touches_appendLists _ _ _ _)

lemma touches_collectAlkaneActionCandidates :
    Touches db classes ix (ix.collectAlkaneActionCandidates b) := by
  have hmark : ∀ (ix : BlockRunesIndexer T A) (tx : T × ℕ), Touches db classes ix (ix.markAlkane tx) :=
    fun _ _ => touches_of_writes rfl rfl rfl rfl rfl
  refine (Touches.foldl (fun ix tx _ => hmark ix tx) ix).trans (.foldl (fun ix tx _ => ?_) _)
  unfold addAlkaneAddresses
  split
  · exact touches_of_writes rfl rfl rfl rfl rfl
  · exact .refl ix

lemma touches_pointToAction (e : T × ActionCandidate A) :
    Touches db [.others] ix (ix.pointToAction db b e) := by
  unfold pointToAction
  split_ifs
  · exact .refl ix
  · exact ((touches_nextId _ _).trans (touches_push _ _ (by simp))).trans (touches_of_writes rfl rfl rfl rfl rfl)

lemma touches_flushActionTxIndexes :
    Touches db [.others] ix (ix.flushActionTxIndexes db b env) := by
  have hstart : Touches db [.others] ix { ix with actionCandidates := ∅ } :=
    touches_of_writes rfl rfl rfl rfl rfl
  have hpoints : Touches db [.others] ix
      (ix.sortedCandidates.foldl (pointToAction db b) { ix with actionCandidates := ∅ }) :=
    hstart.trans (.foldl (fun _ _ _ => touches_pointToAction _ _ _) _)
  exact hpoints.trans (touches_flushPointers _ _ _ _ _ _ _ _)

lemma touches_recordBlockPrice : Touches db [.others] ix (ix.recordBlockPrice b) := by
  unfold recordBlockPrice
  split_ifs
  · exact .refl ix
  · exact touches_push _ _ (by simp)

lemma touches_flush : Touches db [.others] ix (ix.flush db b env) :=
  ((((touches_collectAlkaneActionCandidates b ix).trans
    (touches_flushAddressBalanceHistory b _)).trans (touches_flushActionTxIndexes b env _)).trans
    (touches_flushPointers _ _ _ _ _ _ _ _)).trans (touches_recordBlockPrice _ _)

end Flush

end BlockRunesIndexer

end Espo.Runes
