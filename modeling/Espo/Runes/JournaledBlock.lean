import Espo.Runes.Journaled
import Espo.Runes.Outpoints

/-!
# What a block journals

`Journaled` through the phases of a transaction and the flushes of a block: every put is to a key of
the block, to a new slot, or to a key whose old row was noted.
-/

namespace Espo.Runes
open Lib List

/-! ## Inputs -/

namespace BlockRunesIndexer
variable {T A H : Type} [LinearOrder T] [LinearOrder A] {env : RunesEnv} {db : RuneRows T A}
  {b : RuneBlock T A H} {ix : BlockRunesIndexer T A}

/-- What the rows before a block must be for its undo record: the block's transactions and reserved
runes are new, and outpoints are listed under their addresses. -/
structure Fresh (env : RunesEnv) (db : RuneRows T A) (b : RuneBlock T A H) : Prop where
  txids : ∀ (k : RuneKey T A) (t : T), k.txid? = some t → t ∈ b.txids → db.get k = none
  reserved : ∀ txIndex, db.get (.idByRune (env.reserved b.height txIndex)) = none
  genesis : b.height = env.genesisHeight → db.get (.idByRune env.uncommonGoods) = none
  chunks : ∀ l list, db.get (.txList l) = some list →
    ∀ i ∈ ChunkedList.ids list, i < db.number (.count (.chunk l.kind))
  addresses : AddressesListed db

lemma journaled_new (env : RunesEnv) (db : RuneRows T A) (b : RuneBlock T A H) :
    JournaledIx env db b settled (new : BlockRunesIndexer T A) where
  known e he := absurd he (by simp [new, WriteQueue.empty])
  puts p hp := absurd hp (by simp [new, WriteQueue.empty])
  deletes k hk := absurd hk (by simp [new, WriteQueue.empty])
  grows c := le_rfl
  cached k n hk := absurd hk (by simp [new])
  uncached k hk hc := rfl
  histories address id := ⟨rfl, Nat.le_succ _⟩
  ephem o row hrow := absurd hrow (by simp [new])

lemma journaled_ephem {q : WriteQueue (RuneKey.Value (T := T) (A := A))}
    {numbers : Table (NumberKey A) ℕ} {ephem ephem' : Table (T × ℕ) (OutpointRuneBalances A)}
    {pending : Counter A → ℕ} (h : Journaled env db b pending q numbers ephem)
    (hephem : ∀ o row, ephem'.get o = some row → o.1 ∈ b.txids) :
    Journaled env db b pending q numbers ephem' :=
  { h with ephem := hephem }

section
variable (h : JournaledIx env db b settled ix)
include h

lemma journaled_applyAddressDeltas (address : A) (balances : List RuneBalance) (delta : ℕ → ℤ) :
    JournaledIx env db b settled (ix.applyAddressDeltas db address balances delta) :=
  foldlRecOn _ _ h fun _ h _ _ => journaled_applyAddressDelta h _ _ _

lemma journaled_spendRow (hfresh : Fresh env db b) {o : T × ℕ} {row : OutpointRuneBalances A}
    {previous : Option (OutpointRuneBalances A)}
    (htake : ix.ephem.get o = some row ∧ previous = none ∨
      db.outpoint o = some row ∧ previous = some row) :
    JournaledIx env db b settled (ix.spendRow db o row previous) := by
  have hprevious : previous = db.get (.outpoint o) := by
    rcases htake with ⟨hrow, rfl⟩ | ⟨hrow, rfl⟩
    · exact (hfresh.txids (.outpoint o) o.1 rfl (h.ephem o row hrow)).symm
    · exact hrow.symm
  have hlisted : ∀ address, row.address = some address →
      previous.map (fun _ => ()) = db.get (.addressOutpoint address o) := by
    intro address haddress
    rcases htake with ⟨hrow, rfl⟩ | ⟨hrow, rfl⟩
    · exact (hfresh.txids (.addressOutpoint address o) o.1 rfl (h.ephem o row hrow)).symm
    · obtain ⟨u, hu⟩ := Option.ne_none_iff_exists'.1 (hfresh.addresses o row address hrow haddress)
      exact hu.symm
  have hown : Journaled env db b settled ix.writes ix.numbers (ix.ephem.delete o) := by
    refine journaled_ephem h fun o' row' hget => ?_
    rw [Table.get_delete] at hget
    split_ifs at hget
    exact h.ephem o' row' hget
  have hspent : JournaledIx env db b settled
      ((({ ix with ephem := ix.ephem.delete o }).remember (.outpoint o) previous).queueDelete
        (.outpoint o)) := (hown.remember hprevious).queueDelete (by simp) rfl
  unfold spendRow
  split
  · exact hspent
  · rename_i address haddress
    exact journaled_applyAddressDeltas
      ((hspent.remember (hlisted address haddress)).queueDelete (by simp) rfl) _ _ _

/-! ## Outputs -/

lemma journaled_receiveBalances (address : A) (balances : List RuneBalance) :
    JournaledIx env db b settled (ix.receiveBalances db address balances) :=
  foldlRecOn _ _ h fun _ h _ _ =>
    journaled_applyAddressDelta (journaled_applyVolumeDelta h _ _ _ _) _ _ _

lemma journaled_createRow {o : T × ℕ} (ho : o.1 ∈ b.txids) (row : OutpointRuneBalances A) :
    JournaledIx env db b settled (ix.createRow db o row) := by
  have hown : Journaled env db b settled ix.writes ix.numbers (ix.ephem.put o row) := by
    refine journaled_ephem h fun o' row' hget => ?_
    rw [Table.get_put] at hget
    split_ifs at hget with heq
    · exact heq ▸ ho
    · exact h.ephem o' row' hget
  have hput : JournaledIx env db b settled
      ({ ix with ephem := ix.ephem.put o row }.queuePut (.outpoint o) row) :=
    hown.queuePut (k := .outpoint o) row (by simp)
      (.of_plain _ rfl (by simp [ho]) (by simp))
  unfold createRow
  split
  · exact hput
  · refine journaled_receiveBalances (hput.queuePut (k := .addressOutpoint _ o) () (by simp) ?_) _ _
    exact .of_plain _ rfl (by simp [ho]) (by simp)

lemma journaled_burns (balances : List RuneBalance) :
    JournaledIx env db b settled (balances.foldl (burn db) ix) :=
  foldlRecOn _ _ h fun _ h _ _ => journaled_burn h _

variable {tx : RuneTx T A}

lemma journaled_transferVolumes (order : Essentials.HashOrder) (acc : TxAcc A) :
    JournaledIx env db b settled (ix.transferVolumes db order acc) :=
  foldlRecOn _ _ h fun _ h _ _ =>
    foldlRecOn _ _ h fun _ h _ _ => journaled_applyVolumeDelta h _ _ _ _

/-! ## Activities -/

lemma journaled_pushTx {k : RuneKey T A} (v : k.Value) (hplain : k.plain)
    (hnumber : ∀ n, k ≠ .number n) (hheight : k.height? = none)
    (htxid : ∀ t, k.txid? = some t → t ∈ b.txids) : JournaledIx env db b settled (ix.push k v) :=
  h.push v hnumber (.of_plain v hplain htxid (by rw [hheight]; simp))

lemma journaled_queueRuneActivity {activity : RuneActivity T A} (htxid : activity.txid ∈ b.txids) :
    JournaledIx env db b settled (ix.queueRuneActivity activity) := by
  have hpush : ∀ (ix : BlockRunesIndexer T A) (index : ActivityIndex A) (scope : RuneActivityScope)
      (sortBy : RuneActivitySortField) (value : ℕ), JournaledIx env db b settled ix →
        JournaledIx env db b settled (ix.push (.activity index scope sortBy value activity.height
          activity.txIndex activity.kind activity.txid) activity) :=
    fun ix index scope sortBy value h =>
      journaled_pushTx h _ rfl (by simp) rfl (by simp [htxid])
  have hrow : ∀ (ix : BlockRunesIndexer T A) (scope : RuneActivityScope)
      (sortBy : RuneActivitySortField), JournaledIx env db b settled ix →
        JournaledIx env db b settled (ix.queueActivityRow activity scope sortBy) := by
    intro ix scope sortBy h
    unfold queueActivityRow
    dsimp only
    split
    · exact hpush _ _ _ _ _ h
    · exact hpush _ _ _ _ _ (hpush _ _ _ _ _ (hpush _ _ _ _ _ h))
  exact hrow _ _ _ (hrow _ _ _ (hrow _ _ _ (hrow _ _ _ h)))

variable (txIndex : ℕ)

lemma journaled_recordMint (htx : tx.txid ∈ b.txids) (balance : RuneBalance) :
    JournaledIx env db b settled (ix.recordMint db b txIndex tx balance) := by
  have hweigh : ∀ (ix : BlockRunesIndexer T A) (usd : ℕ), JournaledIx env db b settled ix →
      JournaledIx env db b settled (ix.weighUncommonGoods b balance usd) := by
    intro ix usd h
    unfold weighUncommonGoods
    split_ifs
    · exact h
    · exact h
  refine journaled_queueRuneActivity (journaled_pushTx (hweigh _ _ (journaled_loadEntry h _)) _ rfl
    (by simp) rfl ?_) htx
  simp [htx]

lemma journaled_recordEtching (htx : tx.txid ∈ b.txids) (id : SchemaRuneId) :
    JournaledIx env db b settled (ix.recordEtching db b txIndex tx id) := by
  unfold recordEtching
  dsimp only
  split
  · exact journaled_loadEntry h _
  · exact journaled_queueRuneActivity (journaled_loadEntry h _) htx

lemma journaled_nextId_push {c : Counter A} (hc : (NumberKey.count c).cached)
    (v : (RuneKey.slot c (ix.nextId db c).1 : RuneKey T A).Value) :
    JournaledIx env db b settled ((ix.nextId db c).2.push (.slot c (ix.nextId db c).1) v) := by
  obtain ⟨hnext, hnew, hbelow⟩ := journaled_nextId h hc
  refine hnext.push (k := .slot c (ix.nextId db c).1) v (by simp)
    (justified_slot v (.inr hnew) (.inl (lt_of_lt_of_eq hbelow ?_)))
  exact (number_congr (WriteQueue.lookup_view_push_of_ne db _ v (by simp))).symm

lemma journaled_finishTx (htx : tx.txid ∈ b.txids) (acc : TxAcc A) :
    JournaledIx env db b settled (ix.finishTx db b txIndex tx acc) := by
  unfold finishTx
  dsimp only
  split_ifs
  · have hio : JournaledIx env db b settled (ix.push (.txIo tx.txid) acc.io) :=
      journaled_pushTx h _ rfl (by simp) rfl (by simp [htx])
    exact journaled_nextId_push hio (c := .txPointer) rfl (⟨tx.txid, b.height, txIndex, acc.io⟩)
  · exact h

/-! ## Transactions -/

lemma journaled_recordActivities (htx : tx.txid ∈ b.txids) (issued : Issued T A) :
    JournaledIx env db b settled (ix.recordActivities db b txIndex tx issued) := by
  have hmints : JournaledIx env db b settled
      (issued.minted.toList.foldl (recordMint db b txIndex tx) ix) := by
    cases issued.minted with
    | none => exact h
    | some balance => exact journaled_recordMint h _ htx _
  unfold recordActivities
  cases issued.etched with
  | none => exact hmints
  | some id => exact journaled_recordEtching hmints _ htx _

lemma journaled_startTx (hfresh : Fresh env db b) (tx : RuneTx T A) :
    JournaledIx env db b settled (ix.startTx db b env txIndex tx) := by
  unfold startTx
  split_ifs with hgenesis
  · refine journaled_ensureGenesisRune h ⟨hfresh.genesis hgenesis.1, fun hres => ?_⟩ _
    rw [env.isReserved_uncommonGoods] at hres
    simp at hres
  · exact h

/-! ## Flushes -/

omit h in
lemma number_push (ix : BlockRunesIndexer T A) {k : RuneKey T A} (v : k.Value)
    (hk : ∀ n, k ≠ .number n) (n : NumberKey A) :
    ((ix.push k v).view db).number n = (ix.view db).number n :=
  number_congr (WriteQueue.lookup_view_push_of_ne db ix.writes v (hk n).symm)

omit h in
lemma journaled_queuePutHistoryLen {address : A} {id : SchemaRuneId}
    (h : JournaledIx env db b (storing (.history address id)
      (db.number (.count (.history address id)) + 1)) ix) :
    JournaledIx env db b settled (ix.queuePut (.number (.count (.history address id)))
      (db.number (.count (.history address id)) + 1 : ℕ)) := by
  generalize hc : Counter.history address id = c at h ⊢
  generalize hn : db.number (.count c) + 1 = n at h ⊢
  have hold : ix.numbers.get (.count c) = none ∧ (ix.view db).number (.count c) ≤ n := by
    subst hn hc
    exact h.histories address id
  have hself : ((ix.queuePut (.number (.count c)) n).view db).number (.count c) = n :=
    number_of_get (WriteQueue.lookup_view_queuePut_self db ix.writes (.number (.count c)) n)
  have hother : ∀ k, k ≠ .count c → ((ix.queuePut (.number (.count c)) n).view db).number k =
      (ix.view db).number k := fun k hne =>
    number_congr (WriteQueue.lookup_view_queuePut_of_ne db ix.writes (k := .number (.count c)) n
      (by simpa using hne))
  refine h.write rfl (subset_append_left _ _)
    (fun _ hmem => .inl (mem_of_mem_filter hmem)) ?_ ?_ ?_ ?_ ?_ ?_
  · intro p hp
    rcases mem_append.1 hp with hmem | hnew
    · exact .inl hmem
    · obtain rfl := mem_singleton.1 hnew
      exact .inr (.of_plain _ rfl (by simp) (by simp))
  · intro c'
    by_cases hc' : c' = c
    · rw [hc']
      exact hold.2.trans hself.ge
    · exact (hother _ (by simpa using hc')).ge
  · intro c'
    rcases storing_le c c' n with hle | ⟨hc', hle⟩
    · exact .inl hle
    · exact .inr (hc' ▸ hle.trans hself.ge)
  · intro k m hk
    have hne : k ≠ .count c := by
      rintro rfl
      exact absurd (hold.1.symm.trans hk) (by simp)
    exact (hother k hne).trans (h.cached k m hk)
  · intro k hk hcached
    have hne : k ≠ .count c := by
      rintro rfl
      exact absurd hcached (by simp [← hc])
    exact (hother k hne).trans (h.uncached k hk hcached)
  · intro address' id'
    obtain ⟨hnone, hle⟩ := h.histories address' id'
    refine ⟨hnone, ?_⟩
    by_cases hc' : Counter.history address' id' = c
    · rw [hc', hn]
      exact hself.le
    · exact (hother _ (by simpa using hc')).le.trans hle

/-- The history of a balance goes into the slot that its length names. -/
theorem journaled_flushBalance (touched : A × SchemaRuneId) :
    JournaledIx env db b settled (ix.flushBalance db b touched) := by
  obtain ⟨address, id⟩ := touched
  have hhistory : ∀ amount : ℕ, JournaledIx env db b settled
      ((ix.queuePut (.balanceHistory address id b.height) amount).remember
        (.number (.count (.history address id)))
        (db.get (.number (.count (.history address id))))) := fun amount =>
    (h.queuePut (k := .balanceHistory address id b.height) amount (by simp)
      (.of_plain _ rfl (by simp) (by simp))).remember rfl
  apply journaled_queuePutHistoryLen
  refine (journaled_storing (hhistory _) (.history address id) _).queuePut
    (k := .slot (.history address id) _) b.height (by simp) ?_
  exact justified_slot _ (.inr le_rfl) (.inr (by simp [storing]))

lemma journaled_flushAddressBalanceHistory :
    JournaledIx env db b settled (ix.flushAddressBalanceHistory db b) :=
  foldlRecOn _ _ h fun _ h t _ => journaled_flushBalance h t

lemma journaled_collectAlkaneActionCandidates :
    JournaledIx env db b settled (ix.collectAlkaneActionCandidates b) := by
  refine foldlRecOn _ _ (foldlRecOn _ _ h fun _ h _ _ => h) fun ix h tx _ => ?_
  unfold addAlkaneAddresses
  split
  · exact h
  · exact h

lemma journaled_recordBlockPrice :
    JournaledIx env db b settled (ix.recordBlockPrice b) := by
  unfold recordBlockPrice
  split_ifs
  · exact h
  · exact h.push (k := .blockPrice b.height) _ (by simp) (.of_plain _ rfl (by simp) (by simp))

end

/-- The loop over the lists of one kind: new chunks have ids from the stored counter on and below the
next id, which is about to be stored. -/
structure Appending (env : RunesEnv) (db : RuneRows T A) (b : RuneBlock T A H)
    (kind : RuneTxIndexKind) (st : ℕ × BlockRunesIndexer T A) : Prop where
  journaled : JournaledIx env db b (storing (.chunk kind) st.1) st.2
  next : (st.2.view db).number (.count (.chunk kind)) ≤ st.1

variable {kind : RuneTxIndexKind} {next : ℕ}

section
variable (h : Appending env db b kind (next, ix))
include h

lemma Appending.stored_le :
    db.number (.count (.chunk kind)) ≤ (ix.view db).number (.count (.chunk kind)) :=
  h.journaled.grows _

lemma Appending.grow {next' : ℕ} (hle : next ≤ next') : Appending env db b kind (next', ix) where
  journaled := by
    refine h.journaled.write rfl (List.Subset.refl _) (fun _ => .inl) (fun _ => .inl)
      (fun _ => le_rfl) (fun c => .inl ?_) h.journaled.cached h.journaled.uncached
      h.journaled.histories
    unfold storing
    split_ifs
    · exact hle
    · exact le_rfl
  next := h.next.trans hle

lemma Appending.push {k : RuneKey T A} (v : k.Value) (hk : ∀ n, k ≠ .number n)
    (hjust : Justified env db b (storing (.chunk kind) next) (ix.push k v).writes ⟨k, v⟩) :
    Appending env db b kind (next, ix.push k v) :=
  ⟨h.journaled.push v hk hjust, (number_push ix v hk _).le.trans h.next⟩

lemma Appending.remember {k : RuneKey T A} {raw : Option k.Value} (hraw : raw = db.get k) :
    Appending env db b kind (next, ix.remember k raw) :=
  ⟨h.journaled.remember hraw, h.next⟩

lemma appending_pushChunks {chunks : List (ℕ × List ℕ)}
    (hchunks : ∀ i ∈ chunks.map Prod.fst, db.number (.count (.chunk kind)) ≤ i ∧ i < next) :
    Appending env db b kind (next, pushChunks kind ix chunks) := by
  refine foldlRecOn (motive := fun ix => Appending env db b kind (next, ix)) _ _ h
    fun ix h chunk hchunk => ?_
  obtain ⟨hnew, hlt⟩ := hchunks chunk.1 (mem_map_of_mem hchunk)
  exact h.push (k := .slot (.chunk kind) chunk.1) chunk.2 (by simp)
    (justified_slot _ (.inr hnew) (.inr (by simpa [storing] using hlt)))

lemma appending_allocate {size : ℕ} (hsize : 0 < size) (values : List ℕ) :
    Appending env db b kind (next + (ChunkedList.allocate size next values).length,
      pushChunks kind ix (ChunkedList.allocate size next values)) := by
  have hgrow := h.grow (Nat.le_add_right next (ChunkedList.allocate size next values).length)
  refine appending_pushChunks hgrow fun i hi => ?_
  obtain ⟨hge, hlt⟩ := ChunkedList.mem_allocate hsize hi
  exact ⟨(h.stored_le.trans h.next).trans hge, hlt⟩

/-- The last chunk of a list is rewritten with its old value noted. -/
theorem appending_fillLastChunk {chunkIds : List ℕ}
    (hids : ∀ i ∈ chunkIds, i < db.number (.count (.chunk kind))) (len size : ℕ) (values : List ℕ) :
    Appending env db b kind (next,
      (fillLastChunk db kind ix chunkIds len size values).2) := by
  unfold fillLastChunk
  split
  · exact h
  · rename_i last hlast
    dsimp only
    split_ifs
    · exact h
    · have hraw := h.remember (k := .slot (.chunk kind) last) rfl
      refine hraw.push (k := .slot (.chunk kind) last) _ (by simp) (justified_slot _ (.inl ?_) ?_)
      · exact mem_preimages_remember_self _ _
      · have hlt := hids last (mem_of_getLast? hlast)
        refine .inl (lt_of_lt_of_eq (hlt.trans_le h.stored_le) ?_)
        exact (number_push (ix.remember _ _) _ (by simp) _).symm
    · exact h

lemma appending_appendToList {current : ChunkedList ℕ}
    (hids : ∀ i ∈ current.ids, i < db.number (.count (.chunk kind))) (values : List ℕ) :
    Appending env db b kind (appendToList db env kind next ix current values).2 ∧
      ∀ i ∈ (appendToList db env kind next ix current values).1.ids,
        i < db.number (.count (.chunk kind)) ∨
          i < (appendToList db env kind next ix current values).2.1 := by
  unfold appendToList
  split
  · split_ifs
    · exact ⟨h, by simp [ChunkedList.ids]⟩
    · refine ⟨appending_allocate h (by omega) _, fun i hi => .inr ?_⟩
      exact (ChunkedList.mem_allocate (by omega) hi).2
  · refine ⟨appending_allocate (appending_fillLastChunk h hids _ _ _) (by omega) _, fun i hi => ?_⟩
    rcases mem_append.1 hi with hold | hnew
    · exact .inl (hids i hold)
    · exact .inr (ChunkedList.mem_allocate (by omega) hnew).2

end

omit [LinearOrder T] [LinearOrder A] in
lemma mem_preimages_pushChunks {k : RuneKey T A} (chunks : List (ℕ × List ℕ))
    (ix : BlockRunesIndexer T A) (hmem : k ∈ ix.writes.preimages) :
    k ∈ (pushChunks kind ix chunks).writes.preimages :=
  foldlRecOn (motive := fun ix : BlockRunesIndexer T A => k ∈ ix.writes.preimages) chunks _
    hmem fun _ h _ _ => h

lemma mem_preimages_appendToList {k : RuneKey T A} (kind : RuneTxIndexKind) (next : ℕ)
    (ix : BlockRunesIndexer T A) (current : ChunkedList ℕ) (values : List ℕ)
    (hmem : k ∈ ix.writes.preimages) :
    k ∈ (appendToList db env kind next ix current values).2.2.writes.preimages := by
  unfold appendToList
  split
  · split_ifs
    · exact hmem
    · exact mem_preimages_pushChunks _ _ hmem
  · refine mem_preimages_pushChunks _ _ ?_
    unfold fillLastChunk
    split
    · exact hmem
    · dsimp only
      split_ifs
      · exact hmem
      · exact mem_preimages_remember hmem
      · exact hmem

/-- A list that is stored again: it was noted if it was there, and its chunks are below the next id. -/
theorem Appending.pushList (h : Appending env db b kind (next, ix)) {l : TxList A} (hl : l.kind = kind)
    (list : ChunkedList ℕ) (hnoted : .txList l ∈ ix.writes.preimages ∨ db.get (.txList l) = none)
    (hids : ∀ i ∈ list.ids, i < db.number (.count (.chunk kind)) ∨ i < next) :
    Appending env db b kind (next, ix.push (.txList l) list) := by
  refine h.push (k := .txList l) list (by simp) ⟨by simp, by simp,
    by simp, by simp, ?_, ?_, by simp⟩
  · intro l' heq
    obtain rfl : l = l' := by simpa using heq
    exact hnoted
  · intro l' list' heq i hi
    obtain ⟨hkey, hlist⟩ := Sigma.mk.inj heq
    obtain rfl : l = l' := by simpa using hkey
    obtain rfl := eq_of_heq hlist
    rcases hids i hi with hlt | hlt
    · refine .inl (lt_of_lt_of_eq (hl ▸ hlt.trans_le h.stored_le) ?_)
      exact (number_push ix (k := .txList l) list (by simp) _).symm
    · exact .inr (by simpa [storing, hl] using hlt)

section
variable (hfresh : Fresh env db b)
include hfresh

lemma appending_appendRuneTxIndexValues {st : ℕ × BlockRunesIndexer T A}
    (h : Appending env db b kind st) {append : TxList A × List ℕ} (hkind : append.1.kind = kind) :
    Appending env db b kind (appendRuneTxIndexValues db env st append) := by
  have hstep : ∀ (ix : BlockRunesIndexer T A) (current : ChunkedList ℕ),
      Appending env db b kind (st.1, ix) →
      (.txList append.1 ∈ ix.writes.preimages ∨ db.get (.txList append.1) = none) →
      (∀ i ∈ current.ids, i < db.number (.count (.chunk kind))) →
      Appending env db b kind ((appendToList db env append.1.kind st.1 ix current append.2).2.1,
        (appendToList db env append.1.kind st.1 ix current append.2).2.2.push (.txList append.1)
          (appendToList db env append.1.kind st.1 ix current append.2).1) := by
    intro ix current hix hnoted hids
    rw [hkind]
    obtain ⟨happend, hnew⟩ := appending_appendToList hix hids append.2
    refine happend.pushList hkind _ (hnoted.imp_left fun hmem => ?_) hnew
    exact mem_preimages_appendToList _ _ _ _ _ hmem
  unfold appendRuneTxIndexValues
  split_ifs
  · exact h
  · cases hcurrent : (db.get (.txList append.1) : Option (ChunkedList ℕ)) with
    | none => exact hstep st.2 (.inline []) h (.inr hcurrent) (by simp [ChunkedList.ids])
    | some list =>
      refine hstep (st.2.remember (.txList append.1) (some list)) list
        (h.remember hcurrent.symm) (.inl (mem_preimages_remember_self _ _)) ?_
      exact hkind ▸ hfresh.chunks append.1 list hcurrent

section
variable (h : JournaledIx env db b settled ix)
include h

lemma journaled_appendLists {appends : List (TxList A × List ℕ)}
    (hkind : ∀ append ∈ appends, append.1.kind = kind) :
    JournaledIx env db b settled (ix.appendLists db env kind appends) := by
  have hloaded := journaled_loadNumber h (k := .count (.chunk kind)) rfl
  have hstart : Appending env db b kind (ix.loadNumber db (.count (.chunk kind))) := by
    refine ⟨journaled_storing hloaded _ _, ?_⟩
    rw [view_loadNumber, loadNumber_fst h rfl]
  have hend : Appending env db b kind (appends.foldl (appendRuneTxIndexValues db env) _) :=
    foldlRecOn _ _ hstart fun _ hst append ha =>
      appending_appendRuneTxIndexValues hfresh hst (hkind append ha)
  exact (journaled_pushNumber hend.journaled _ rfl (fun _ _ => hend.next)
    (storing_le _ · _) rfl).1

lemma journaled_flushPointers {blockKind addressKind : RuneTxIndexKind} {blockList : TxList A}
    (blockIds : List ℕ) {addressList : A → TxList A} (addressIds : Table A (List ℕ))
    (hblock : blockList.kind = blockKind)
    (haddress : ∀ address, (addressList address).kind = addressKind) :
    JournaledIx env db b settled (ix.flushPointers db env blockKind addressKind blockList blockIds
      addressList addressIds) := by
  have hfirst : JournaledIx env db b settled
      (if blockIds = [] then ix else ix.appendLists db env blockKind [(blockList, blockIds)]) := by
    split_ifs
    · exact h
    · exact journaled_appendLists hfresh h (by simp [hblock])
  unfold flushPointers
  dsimp only
  generalize (if blockIds = [] then ix else ix.appendLists db env blockKind [(blockList, blockIds)])
    = ix' at hfirst ⊢
  split_ifs
  · exact hfirst
  · refine journaled_appendLists hfresh hfirst fun append happend => ?_
    obtain ⟨address, -, rfl⟩ := mem_map.1 happend
    exact haddress address

lemma journaled_flushActionTxIndexes :
    JournaledIx env db b settled (ix.flushActionTxIndexes db b env) := by
  have hpoints : JournaledIx env db b settled
      (ix.sortedCandidates.foldl (pointToAction db b) { ix with actionCandidates := ∅ }) := by
    refine foldlRecOn _ _ h fun ix h e _ => ?_
    unfold pointToAction
    split_ifs
    · exact h
    · exact journaled_nextId_push h (c := .actionPointer) rfl
        (⟨e.1, b.height, e.2.txIndex, e.2.hasAlkane, e.2.hasRune⟩)
  exact journaled_flushPointers hfresh hpoints _ _ rfl fun _ => rfl

lemma journaled_flush :
    JournaledIx env db b settled (ix.flush db b env) := by
  have hlists := journaled_flushActionTxIndexes hfresh
    (journaled_flushAddressBalanceHistory (journaled_collectAlkaneActionCandidates h))
  exact journaled_recordBlockPrice (journaled_flushPointers hfresh hlists _ _ rfl fun _ => rfl)

end

end

/-- Every part of a block journals what it does. -/
theorem blockInvariant_journaled (hfresh : Fresh env db b) :
    BlockInvariant db env b (JournaledIx env db b settled) where
  startTx txIndex tx h := journaled_startTx h txIndex hfresh tx
  spendRow htake h := journaled_spendRow h hfresh htake
  etch _ _ _ _ h := journaled_etch h hfresh.reserved _ _ _ _
  mintArtifact _ _ h := journaled_mintArtifact h _ _
  noteOverflow _ _ h := h
  burns balances h := journaled_burns h balances
  createRow row ho h := journaled_createRow h ho row
  afterOutputs order _ _ _ htx h := journaled_finishTx
    (journaled_recordActivities (journaled_transferVolumes h order _) _ htx _) _ htx _
  flush h := journaled_flush hfresh h

/-! ## Outpoints and addresses -/

lemma outpointInvariant_listed (db : RuneRows T A) :
    OutpointInvariant db fun ix => AddressesListed (ix.view db) where
  touches htouches hclasses hlisted o row address hrow haddress := by
    have hrow' := (htouches.rows (.outpoint o) hclasses).symm.trans hrow
    exact ne_of_eq_of_ne (htouches.rows (.addressOutpoint address o) hclasses)
      (hlisted o row address hrow' haddress)
  noteOverflow _ _ _ hlisted := hlisted
  spendRow ix o row previous _ hlisted o' row' address hrow haddress := by
    rw [outpoint_spendRow] at hrow
    split_ifs at hrow with heq
    rw [addressOutpoint_spendRow ix _ _ heq]
    exact hlisted o' row' address hrow haddress
  createRow ix o row hlisted o' row' address hrow haddress := by
    rw [outpoint_createRow] at hrow
    apply addressOutpoint_createRow
    · intro heq
      rw [if_pos heq] at hrow
      rw [Option.some.inj hrow, haddress]
    · intro hne
      rw [if_neg hne] at hrow
      exact hlisted o' row' address hrow haddress

end BlockRunesIndexer

end Espo.Runes
