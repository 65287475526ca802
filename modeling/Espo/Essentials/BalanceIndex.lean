import Espo.Essentials.Ledger
import Espo.Essentials.Visibility
import Espo.Lists.Rows

/-!
# Indexing balances

The store of the balance index and what a block does to it. Rows of outpoints, their pointers and the
transactions that spent them are blobs, filtered by block ancestry when they are read; the balances of
addresses are rows of the tree. A block looks up its inputs in the blobs, goes through its
transactions, writes the blobs, and applies the changes of each address to its row.
-/

namespace Espo.Essentials
open Lib TreeDb Espo.Lists List Option

/-! ## The transaction filter -/

/-- `TxPointerFilter`: the bits that are set. -/
structure TxPointerFilter where
  bits : Finset ℕ

namespace TxPointerFilter
variable {T : Type} (probe : T → List ℕ) (f : TxPointerFilter)

/-- `insert`; `probe` gives the bits of a transaction. -/
def insert (txid : T) : TxPointerFilter :=
  ⟨f.bits ∪ (probe txid).toFinset⟩

/-- `might_contain`. -/
def mightContain (txid : T) : Bool :=
  (probe txid).all fun bit => decide (bit ∈ f.bits)

/-- Insert transactions one after the other. -/
def insertAll (txids : List T) : TxPointerFilter :=
  txids.foldl (insert probe) f

/-- `build_tx_pointer_filter`: the transactions that have a pointer. Those the indexing thread writes
while the thread scans are pending and inserted afterwards. -/
def scan (txids : Finset T) : TxPointerFilter :=
  ⟨txids.biUnion fun txid => (probe txid).toFinset⟩

variable {probe : T → List ℕ} {f : TxPointerFilter} {txid : T}

lemma mightContain_iff : f.mightContain probe txid = true ↔ ∀ bit ∈ probe txid, bit ∈ f.bits := by
  simp [mightContain]

lemma mem_bits_insertAll {txids : List T} {bit : ℕ} :
    bit ∈ (f.insertAll probe txids).bits ↔ bit ∈ f.bits ∨ ∃ txid ∈ txids, bit ∈ probe txid := by
  induction txids generalizing f with
  | nil => simp [insertAll]
  | cons txid txids ih =>
    rw [insertAll, foldl_cons, ← insertAll, ih]
    simp [insert, or_assoc (a := bit ∈ f.bits)]

lemma mightContain_scan (probe : T → List ℕ) {txids : Finset T} (h : txid ∈ txids) :
    (scan probe txids).mightContain probe txid = true :=
  mightContain_iff.2 fun _ hbit => Finset.mem_biUnion.2 ⟨txid, h, List.mem_toFinset.2 hbit⟩

lemma mightContain_insertAll_of_old (h : f.mightContain probe txid = true) (txids : List T) :
    (f.insertAll probe txids).mightContain probe txid = true :=
  mightContain_iff.2 fun bit hbit => mem_bits_insertAll.2 (.inl (mightContain_iff.1 h bit hbit))

lemma mightContain_insertAll_of_mem (probe : T → List ℕ) (f : TxPointerFilter) {txids : List T}
    (h : txid ∈ txids) : (f.insertAll probe txids).mightContain probe txid = true :=
  mightContain_iff.2 fun _ hbit => mem_bits_insertAll.2 (.inr ⟨txid, h, hbit⟩)

end TxPointerFilter

/-! ## Rows and blobs -/

/-- The rows of balances in the tree: `address_balance_key` with `encode_u128_value` and
`decode_u128_value`. -/
structure BalanceLayout (K V : Type*) (A : Type) where
  key : A × SchemaAlkaneId → K
  key_injective : Function.Injective key
  encode : ℕ → V
  decode : V → Option ℕ
  decode_encode : ∀ n ≤ u128Max, decode (encode n) = some n

/-- The balance in a row. A missing or unreadable row is zero. -/
def BalanceLayout.balance {K V : Type*} {A : Type} (layout : BalanceLayout K V A) (row : Option V) :
    ℕ :=
  (row.bind layout.decode).getD 0

/-- `address_balance_key`, with the prefix of the module. -/
def addressBalanceKey (key : Bytes × SchemaAlkaneId) : Bytes :=
  ascii "essentials:/address/v2/" ++ key.1 ++ ascii "/balance/"
    ++ (beBytes 4 key.2.block ++ beBytes 8 key.2.tx)

lemma addressBalanceKey_injective : Function.Injective addressBalanceKey := by
  intro a b h
  -- what follows the address has a fixed length
  have hlength : ∀ key : Bytes × SchemaAlkaneId, (encodeAlkaneIdBe key.2).length = 12 := by simp
  obtain ⟨haddress, halkane⟩ := append_inj' h ((hlength a).trans (hlength b).symm)
  have hfirst : a.1 = b.1 := append_cancel_left (append_cancel_right haddress)
  exact Prod.ext hfirst (encodeAlkaneIdBe_injective halkane)

/-- The rows as the module writes them; a `u128` takes 16 bytes. -/
def addressBalanceLayout : BalanceLayout Bytes Bytes Bytes where
  key := addressBalanceKey
  key_injective := addressBalanceKey_injective
  encode := leBytes 16
  decode bytes := if bytes.length = 16 then some (ofLeBytes bytes) else none
  decode_encode n hn := by
    have hlt : n < 256 ^ 16 := by
      rw [u128Max] at hn
      omega
    rw [if_pos (length_leBytes 16 n), ofLeBytes_leBytes hlt]

/-- `OutpointPointerBlobV3`. -/
structure OutpointPointer (T A : Type) where
  outpoint : T × ℕ
  row : OutpointRow A

/-- The blobs of the balance index. -/
structure BalanceStore (T A : Type) {H : Type*} [LinearOrder H] (heightOf : H → ℕ) where
  blobs : PointerBlobs T heightOf
  pointers : Table ℕ (OutpointPointer T A)
  /-- `outpoint_pointer_counter_key`. -/
  nextOutpoint : ℕ
  /-- `tx_pointer_counter_key`. -/
  nextTx : ℕ
  /-- The filter in memory, once it was built. -/
  filter : Option TxPointerFilter

/-- A block as the balance index sees it. -/
structure BalanceBlock (T : Type) {K V : Type*} {A : Type} {H : Type*} (layout : BalanceLayout K V A)
    (heightOf : H → ℕ) extends EspoBlock T A where
  hash : H
  parent : H
  height_eq : height = heightOf hash
  /-- The other rows that are written in the block. -/
  otherRows : List (K × Option V)
  others : ∀ row ∈ otherRows, ∀ key, row.1 ≠ layout.key key
  /-- The thread that builds the filter has finished. -/
  filterReady : Bool

/-- The place of a block in its chain. -/
def BalanceBlock.header {K V : Type*} {T A : Type} {H : Type*} {layout : BalanceLayout K V A}
    {heightOf : H → ℕ} (b : BalanceBlock T layout heightOf) : Header H :=
  ⟨b.height, b.hash, b.parent⟩

section Lookup
variable {K V Id H : Type*} {T A : Type} [LinearOrder H] [DecidableEq T] {heightOf : H → ℕ}
  (p : EssentialsProvider K V Id T heightOf)

/-- The inputs that the block does not create itself, each once. -/
def externalInputs (txs : List (EspoTransaction T A)) : List (T × ℕ) :=
  ((allInputs txs).filter fun o => o ∉ createdOuts txs).dedup

/-- The transactions that have a visible pointer. -/
def indexedPrevTxids (mightContain : Option (T → Bool)) (txids : List T) : List T :=
  ((txids.zip (resolveTxPointerIdsBatchV2 p mightContain .latest txids)).filter
    fun entry => entry.2.isSome).map Prod.fst

/-- `OutpointLookup`; the row has the balances and the address. -/
structure OutpointLookup (T A : Type) where
  row : Option (OutpointRow A)
  spentBy : Option T

variable (pointers : Table ℕ (OutpointPointer T A))

/-- `get_outpoint_balances_with_spent_batch`. -/
def getOutpointBalancesWithSpentBatch (outpoints : List (T × ℕ)) :
    List ((T × ℕ) × OutpointLookup T A) :=
  let ids := resolveOutpointIdsBatchV2 p .latest outpoints
  let uniqueIds := ids.reduceOption.dedup
  let spent := uniqueIds.zip (resolveOutpointSpentByIdsBatchV2 p .latest uniqueIds)
  (outpoints.zip ids).map fun entry =>
    (entry.1, ⟨entry.2.bind fun id => (pointers.get id).map OutpointPointer.row,
      entry.2.bind fun id => (spent.lookup id).join⟩)

/-- `populate_outpoint_lookup_maps`: outpoints that are spent or hold nothing are not found. -/
def foundRow (lookups : List ((T × ℕ) × OutpointLookup T A)) (o : T × ℕ) : Option (OutpointRow A) :=
  match lookups.lookup o with
  | none => none
  | some l => if l.spentBy.isSome then none else l.row.filter fun row => !row.balances.isEmpty

/-- The inputs that are fetched before the loop. -/
def prefetch (mightContain : Option (T → Bool)) (txs : List (EspoTransaction T A)) :
    T × ℕ → Option (OutpointRow A) :=
  let external := externalInputs txs
  let indexed := indexedPrevTxids p mightContain (external.map Prod.fst).dedup
  foundRow (getOutpointBalancesWithSpentBatch p pointers (external.filter fun o => o.1 ∈ indexed))

end Lookup

/-! ## What a block writes -/

/-- A row to be persisted. -/
structure NewRow (T A : Type) where
  outpoint : T × ℕ
  row : OutpointRow A
  txSpent : Option T

section Writes
variable {T A : Type} [DecidableEq T]

/-- The rows of a block: the outputs it created, and the outpoints it spent. -/
def newRows (acc : BlockAcc T A) : List (NewRow T A) :=
  (acc.ephem.entries.map fun e =>
      ⟨e.1, e.2, ((acc.spent.lookup e.1).map SpentRecord.spentBy).or (acc.consumed.lookup e.1)⟩)
    ++ (acc.spent.entries.filter fun e => e.1 ∉ acc.ephem).map fun e =>
      ⟨e.1, e.2.row, some e.2.spentBy⟩

/-- `tx_pointer_id_by_txid`, with the next id. -/
def allocTxPointers : ℕ → AList (fun _ : T => ℕ) → List T → AList (fun _ : T => ℕ) × ℕ
  | next, ids, [] => (ids, next)
  | next, ids, txid :: txids =>
    allocTxPointers (if txid ∈ ids then next else next + 1) (ids.insert txid next) txids

/-- `address_balance_delta`: an entry that becomes zero is removed. -/
def addDelta [DecidableEq A] (deltas : AList fun _ : A × SchemaAlkaneId => SignedU128)
    (c : (A × SchemaAlkaneId) × SignedU128) : AList fun _ : A × SchemaAlkaneId => SignedU128 :=
  let slot := ((deltas.lookup c.1).getD .zero).add c.2
  if slot.isZero then deltas.erase c.1 else deltas.insert c.1 slot

variable {K V Id H : Type*} [LinearOrder H] {heightOf : H → ℕ}

/-- The rows with ids of their own: those whose transaction is in the block. -/
def createdRows (rows : List (NewRow T A)) (txids : List T) (next : ℕ) : List (NewRow T A × ℕ) :=
  (rows.filter fun r => r.outpoint.1 ∈ txids).zipIdx next

/-- The other rows that were spent, with the ids they have. -/
def externalSpent (p : EssentialsProvider K V Id T heightOf) (rows : List (NewRow T A))
    (txids : List T) : List (NewRow T A × Option ℕ) :=
  let spent := rows.filter fun r => decide (r.outpoint.1 ∉ txids) && r.txSpent.isSome
  spent.zip (resolveOutpointIdsBatchV2 p .latest (spent.map NewRow.outpoint))

/-- `build_new_outpoint_pos_versioned_puts`, `build_new_outpoint_spent_versioned_puts`,
`build_outpoint_spent_versioned_puts` and `build_new_tx_pos_versioned_puts`. -/
def writePointers (blobs : PointerBlobs T heightOf) (hash : H) (created : List (NewRow T A × ℕ))
    (external : List (NewRow T A × Option ℕ)) (txIds : AList fun _ : T => ℕ) :
    PointerBlobs T heightOf where
  outpointPos := blobs.outpointPos.putAll
    (created.map fun r => (r.1.outpoint, VersionList.new hash r.2))
  outpointSpentById := (blobs.outpointSpentById.putAll
      (created.filterMap fun r => r.1.txSpent.map fun spentBy => (r.2, VersionList.new hash spentBy))).putAll
    (external.filterMap fun r => r.1.txSpent.bind fun spentBy => r.2.map fun id =>
      (id, ((blobs.outpointSpentById.get id).getD VersionList.empty).put hash spentBy))
  txPackedOutflowPos := blobs.txPackedOutflowPos.putAll
    (txIds.entries.map fun e => (e.1, VersionList.new hash e.2))

end Writes

/-! ## The indexer -/

section Process
variable {K V Id H : Type*} {T A : Type} [LinearOrder K] [DecidableEq V] [DecidableEq Id]
  [LinearOrder H] [NodeHash K V Id] [DecidableEq T] [DecidableEq A] {heightOf : H → ℕ}
  (layout : BalanceLayout K V A)

/-- The loop over `address_balance_delta`: one row for each entry. `none` is the panic of the strict
check. -/
def balanceRows (check : Bool) (t : VersionedTreeDb K V Id H) :
    List (Sigma fun _ : A × SchemaAlkaneId => SignedU128) → Option (List (K × Option V))
  | [] => some []
  | e :: es =>
    match applySignedBalanceDelta check (layout.balance (t.get (layout.key e.1))) e.2 with
    | none => none
    | some next => (balanceRows check t es).map ((layout.key e.1, some (layout.encode next)) :: ·)

variable {layout} (s : BalanceStore T A heightOf)

/-- The filter that a block uses. -/
def BalanceStore.filterFor (probe : T → List ℕ) (ready : Bool) : Option TxPointerFilter :=
  s.filter.or (if ready then some (.scan probe s.blobs.txPackedOutflowPos.keys) else none)

/-- Write the blobs of a block. -/
def BalanceStore.commit (p : EssentialsProvider K V Id T heightOf) (order : HashOrder)
    (probe : T → List ℕ) (b : BalanceBlock T layout heightOf) (acc : BlockAcc T A) :
    BalanceStore T A heightOf :=
  let txids := b.transactions.map EspoTransaction.txid
  let rows := order.run (newRows acc)
  let created := createdRows rows txids s.nextOutpoint
  let txIds := allocTxPointers s.nextTx ∅ (acc.alkaneTxs.filter fun txid => txid ∈ txids)
  { blobs := writePointers s.blobs b.hash created (externalSpent p rows txids) txIds.1
    pointers := s.pointers.putAll (created.map fun r => (r.2, ⟨r.1.outpoint, r.1.row⟩))
    nextOutpoint := s.nextOutpoint + created.length
    nextTx := txIds.2
    filter := (s.filterFor probe b.filterReady).map fun f => f.insertAll probe txIds.1.keys }

/-- `bulk_update_balances_for_block_with_factory_hints`. -/
def balanceProcessor (layout : BalanceLayout K V A) (order : HashOrder) (probe : T → List ℕ)
    (check : Bool) :
    Processor K V Id H (BalanceBlock T layout heightOf) (BalanceStore T A heightOf) where
  header := BalanceBlock.header
  process t s b :=
    let p : EssentialsProvider K V Id T heightOf := ⟨t, s.blobs, none⟩
    let mightContain := (s.filterFor probe b.filterReady).map fun f => f.mightContain probe
    let acc := blockEffect order b.height (prefetch p s.pointers mightContain b.transactions)
      b.transactions
    match balanceRows layout check t (order.run (acc.changes.foldl addDelta ∅).entries) with
    | none => none
    | some rows => some ([.batch (b.otherRows ++ rows)], s.commit p order probe b acc)

end Process

/-! ## What the lookups find -/

section Found
variable {K V Id H : Type*} {T A : Type} [LinearOrder H] [DecidableEq T] {heightOf : H → ℕ}
  {p : EssentialsProvider K V Id T heightOf} {chain : List (Commit K V H)}

/-- The row of an outpoint whose pointer is visible and that is not visibly spent. -/
def visibleRow (p : EssentialsProvider K V Id T heightOf) (pointers : Table ℕ (OutpointPointer T A))
    (o : T × ℕ) : Option (OutpointRow A) :=
  (resolveOutpointIdV2 p .latest o.1 o.2).bind fun id =>
    if (resolveOutpointSpentByIdV2 p .latest id).isSome then none
    else (pointers.get id).map OutpointPointer.row

variable (rows : ChainRows p.tree chain) (hheights : ∀ c ∈ chain, c.height = heightOf c.hash)
include rows hheights

lemma foundRow_eq (pointers : Table ℕ (OutpointPointer T A)) (outpoints : List (T × ℕ))
    (o : T × ℕ) :
    foundRow (getOutpointBalancesWithSpentBatch p pointers outpoints) o
      = if o ∈ outpoints then (visibleRow p pointers o).filter fun row => !row.balances.isEmpty
        else none := by
  have hids : resolveOutpointIdsBatchV2 p .latest outpoints
      = outpoints.map fun o => resolveOutpointIdV2 p .latest o.1 o.2 :=
    resolveBatchLoop_eq rows hheights .latest ∅ _ outpoints
  have hspent : ∀ ids : List ℕ, resolveOutpointSpentByIdsBatchV2 p .latest ids
      = ids.map fun id => resolveOutpointSpentByIdV2 p .latest id :=
    resolveBatchLoop_eq rows hheights .latest ∅ _
  have hzip : ∀ {α β : Type} (l : List α) (f : α → β), l.zip (l.map f) = l.map fun a => (a, f a) := by
    intro α β l f
    rw [← zip_map', List.map_id']
  have hbatch : getOutpointBalancesWithSpentBatch p pointers outpoints
      = outpoints.map fun o => (o, ⟨(resolveOutpointIdV2 p .latest o.1 o.2).bind fun id =>
            (pointers.get id).map OutpointPointer.row,
          (resolveOutpointIdV2 p .latest o.1 o.2).bind fun id =>
            resolveOutpointSpentByIdV2 p .latest id⟩) := by
    simp only [getOutpointBalancesWithSpentBatch, hids, hspent, hzip, List.map_map]
    refine map_congr_left fun o ho => ?_
    simp only [Function.comp_apply, Prod.mk.injEq, OutpointLookup.mk.injEq, true_and]
    cases hid : resolveOutpointIdV2 p .latest o.1 o.2 with
    | none => rfl
    | some id =>
      have hmem : id ∈ (outpoints.map fun o =>
          resolveOutpointIdV2 p .latest o.1 o.2).reduceOption.dedup :=
        mem_dedup.2 (reduceOption_mem_iff.2 (List.mem_map.2 ⟨o, ho, hid⟩))
      rw [bind_some, bind_some, lookup_graph _ hmem, join_some]
  rw [hbatch, foundRow]
  split_ifs with ho
  · rw [lookup_graph _ ho]
    dsimp only
    rw [visibleRow]
    cases resolveOutpointIdV2 p .latest o.1 o.2 with
    | none => rfl
    | some id =>
      rw [bind_some, bind_some, bind_some]
      split_ifs <;> rfl
  · rw [lookup_eq_none_iff.2 fun e he => ?_]
    obtain ⟨o', ho', rfl⟩ := List.mem_map.1 he
    exact bne_iff_ne.2 fun h => ho (h ▸ ho')

/-- A transaction with a visible pointer is found, unless the filter has not seen it. -/
theorem mem_indexedPrevTxids {mightContain : Option (T → Bool)} {txids : List T} {txid : T}
    (hmem : txid ∈ txids) {id : ℕ} (hid : resolveTxPointerIdV2 p .latest txid = some id)
    (hfilter : ∀ f ∈ mightContain, f txid = true) : txid ∈ indexedPrevTxids p mightContain txids := by
  obtain ⟨idx, hidx⟩ := getElem?_of_mem hmem
  obtain ⟨hlt, -⟩ := List.getElem?_eq_some_iff.1 hidx
  have hlookup : (txid, idx) ∈ txids.zipIdx.filter fun entry => mightContain.all fun f => f entry.1 := by
    refine mem_filter.2 ⟨mk_mem_zipIdx_iff_getElem?.2 hidx, ?_⟩
    cases mightContain with
    | none => rfl
    | some f => exact hfilter f rfl
  have hnodup : ((txids.zipIdx.filter fun entry => mightContain.all fun f => f entry.1).map
      Prod.snd).Nodup :=
    (nodup_zipIdx_map_snd txids).sublist (List.Sublist.map _ filter_sublist)
  have hresolved : (resolveTxPointerIdsBatchV2 p mightContain .latest txids)[idx]? = some (some id) :=
    resolveTxPointerLoop_of_mem rows hheights _ ∅ hnodup hlookup (by simpa using hlt) hid
  refine List.mem_map.2 ⟨(txid, some id), mem_filter.2 ⟨?_, rfl⟩, rfl⟩
  exact mem_of_getElem? (getElem?_zip_eq_some.2 ⟨hidx, hresolved⟩)

end Found

/-! ## Changes -/

section Deltas
variable {A : Type} [DecidableEq A] (deltas : AList fun _ : A × SchemaAlkaneId => SignedU128)

lemma toInt_addDelta {c : (A × SchemaAlkaneId) × SignedU128}
    (hmin : -(u128Max : ℤ) ≤ ((deltas.lookup c.1).getD .zero).toInt + c.2.toInt)
    (hmax : ((deltas.lookup c.1).getD .zero).toInt + c.2.toInt ≤ u128Max) (key : A × SchemaAlkaneId) :
    (((addDelta deltas c).lookup key).getD .zero).toInt
      = ((deltas.lookup key).getD .zero).toInt + net [c] key := by
  have hadd := SignedU128.toInt_add hmin hmax
  by_cases hkey : key = c.1
  · subst hkey
    have hnet : net [c] c.1 = c.2.toInt := by simp [net]
    rw [hnet, ← hadd, addDelta]
    split_ifs with hzero
    · rw [AList.lookup_erase, (SignedU128.isZero_iff _).1 hzero]
      rfl
    · rw [AList.lookup_insert]
      rfl
  · have hnet : net [c] key = 0 := by simp [net, Ne.symm hkey]
    rw [hnet, add_zero, addDelta]
    split_ifs
    · rw [AList.lookup_erase_ne hkey]
    · rw [AList.lookup_insert_ne hkey]

/-- Without saturation the accumulated delta of an address is the sum of its changes. -/
theorem toInt_foldl_addDelta {changes : List ((A × SchemaAlkaneId) × SignedU128)}
    (h : ∀ key part, part <+: changes → -(u128Max : ℤ) ≤ net part key ∧ net part key ≤ u128Max)
    (key : A × SchemaAlkaneId) :
    (((changes.foldl addDelta ∅).lookup key).getD .zero).toInt = net changes key := by
  induction changes using List.reverseRecOn generalizing key with
  | nil => rfl
  | append_singleton changes c ih =>
    have hprefix := ih fun key part hpart => h key part (hpart.trans (prefix_append _ _))
    obtain ⟨hmin, hmax⟩ := h c.1 _ (prefix_refl _)
    have hlast : net [c] c.1 = c.2.toInt := by simp [net]
    rw [net_append, hlast, ← hprefix] at hmin hmax
    rw [foldl_append, foldl_cons, foldl_nil, toInt_addDelta _ hmin hmax, hprefix,
      net_append]

variable {K V Id H : Type*} [LinearOrder K] [DecidableEq Id] {layout : BalanceLayout K V A}
  {t : VersionedTreeDb K V Id H}

lemma balanceRows_eq (check : Bool) {es : List (Sigma fun _ : A × SchemaAlkaneId => SignedU128)}
    (hnodup : es.NodupKeys)
    (h : ∀ e ∈ es, 0 ≤ (layout.balance (t.get (layout.key e.1)) : ℤ) + e.2.toInt ∧
      (layout.balance (t.get (layout.key e.1)) : ℤ) + e.2.toInt ≤ u128Max) :
    ∃ rows, balanceRows layout check t es = some rows ∧
      ∀ (view : K → Option V) (key : A × SchemaAlkaneId),
        (layout.balance (writeAll view rows (layout.key key)) : ℤ)
          = match es.dlookup key with
            | some delta => (layout.balance (t.get (layout.key key)) : ℤ) + delta.toInt
            | none => layout.balance (view (layout.key key)) := by
  induction es with
  | nil => exact ⟨[], rfl, fun view key => rfl⟩
  | cons e es ih =>
    rw [nodupKeys_cons] at hnodup
    obtain ⟨⟨hpos, hmax⟩, hrest⟩ := forall_mem_cons.1 h
    obtain ⟨rows, hrows, hread⟩ := ih hnodup.2 hrest
    obtain ⟨next, hnext, hval⟩ := applySignedBalanceDelta_eq check hpos hmax
    refine ⟨(layout.key e.1, some (layout.encode next)) :: rows, ?_, fun view key => ?_⟩
    · rw [balanceRows, hnext]
      rw [hrows]
      rfl
    · rw [writeAll_cons, hread]
      by_cases hkey : key = e.1
      · -- the other entries have other keys
        subst hkey
        have hnone : es.dlookup e.1 = none := dlookup_eq_none.2 hnodup.1
        have hle : next ≤ u128Max := by omega
        have hbalance : layout.balance (some (layout.encode next)) = next := by
          rw [BalanceLayout.balance, bind_some, layout.decode_encode next hle]
          rfl
        rw [hnone, dlookup_cons_eq, Function.update_self]
        rw [hbalance, hval]
      · have hlayout : layout.key key ≠ layout.key e.1 := fun h => hkey (layout.key_injective h)
        rw [dlookup_cons_ne _ _ hkey, Function.update_of_ne hlayout]

end Deltas

/-! ## Blobs -/

section Blobs
variable {T A : Type} [DecidableEq T] {acc : BlockAcc T A}

lemma mem_newRows {r : NewRow T A} : r ∈ newRows acc ↔
    (acc.ephem.lookup r.outpoint = some r.row ∧ r.txSpent
        = ((acc.spent.lookup r.outpoint).map SpentRecord.spentBy).or (acc.consumed.lookup r.outpoint)) ∨
      (r.outpoint ∉ acc.ephem ∧ ∃ record, acc.spent.lookup r.outpoint = some record ∧
        r.row = record.row ∧ r.txSpent = some record.spentBy) := by
  rw [newRows, mem_append]
  refine or_congr ?_ ?_
  · rw [List.mem_map]
    constructor
    · rintro ⟨⟨o, row⟩, hmem, rfl⟩
      exact ⟨AList.mem_lookup_iff.2 hmem, rfl⟩
    · rintro ⟨hlookup, hspent⟩
      refine ⟨⟨r.outpoint, r.row⟩, AList.mem_lookup_iff.1 hlookup, ?_⟩
      rw [← hspent]
  · rw [List.mem_map]
    constructor
    · rintro ⟨⟨o, record⟩, hmem, rfl⟩
      obtain ⟨hentry, hephem⟩ := mem_filter.1 hmem
      exact ⟨of_decide_eq_true hephem, record, AList.mem_lookup_iff.2 hentry, rfl, rfl⟩
    · rintro ⟨hephem, record, hlookup, hrow, hspent⟩
      refine ⟨⟨r.outpoint, record⟩, mem_filter.2 ⟨AList.mem_lookup_iff.1 hlookup,
        decide_eq_true hephem⟩, ?_⟩
      rw [← hrow, ← hspent]

/-- The transactions of a block separate what it created from what it spent only. -/
structure Separates (txids : List T) (acc : BlockAcc T A) : Prop where
  created : ∀ o ∈ acc.ephem, o.1 ∈ txids
  external : ∀ o ∈ acc.spent, o ∉ acc.ephem → o.1 ∉ txids
  consumed : ∀ o ∈ acc.consumed, o ∈ acc.spent

/-- The rows that got new ids are the outputs that were created. -/
structure Created (acc : BlockAcc T A) (next : ℕ) (created : List (NewRow T A × ℕ)) : Prop where
  row : ∀ r ∈ created, acc.ephem.lookup r.1.outpoint = some r.1.row
  spent : ∀ r ∈ created, r.1.txSpent.isSome ↔ r.1.outpoint ∈ acc.spent
  all : ∀ o ∈ acc.ephem, ∃ r ∈ created, r.1.outpoint = o
  ids : ∀ r ∈ created, next ≤ r.2 ∧ r.2 < next + created.length
  ids_inj : ∀ r ∈ created, ∀ r' ∈ created, r.2 = r'.2 → r = r'

variable {K V Id H : Type*} [LinearOrder H] {heightOf : H → ℕ}
  {p : EssentialsProvider K V Id T heightOf} {chain : List (Commit K V H)}

section
variable {txids : List T} (h : Separates txids acc) {news : List (NewRow T A)} (hnews : news.Perm (newRows acc))
include h hnews

lemma createdRows_spec (next : ℕ) :
    Created acc next (createdRows news txids next) := by
  have hmem : ∀ r id, (r, id) ∈ createdRows news txids next →
      r ∈ newRows acc ∧ r.outpoint.1 ∈ txids := by
    intro r id hr
    obtain ⟨hrun, htxid⟩ := mem_filter.1 (fst_mem_of_mem_zipIdx hr)
    exact ⟨hnews.mem_iff.1 hrun, of_decide_eq_true htxid⟩
  have hrow : ∀ r id, (r, id) ∈ createdRows news txids next →
      acc.ephem.lookup r.outpoint = some r.row ∧ r.txSpent
        = ((acc.spent.lookup r.outpoint).map SpentRecord.spentBy).or
          (acc.consumed.lookup r.outpoint) := by
    intro r id hr
    obtain ⟨hnew, htxid⟩ := hmem r id hr
    rcases mem_newRows.1 hnew with hcreated | ⟨hephem, record, hlookup, -⟩
    · exact hcreated
    · have hspent : r.outpoint ∈ acc.spent := AList.lookup_isSome.1 (by simp [hlookup])
      exact absurd htxid (h.external _ hspent hephem)
  constructor
  case row => exact fun r hr => (hrow r.1 r.2 hr).1
  case spent =>
    intro r hr
    rw [(hrow r.1 r.2 hr).2, isSome_or, isSome_map, Bool.or_eq_true,
      AList.lookup_isSome, AList.lookup_isSome]
    exact ⟨fun hspent => hspent.elim (fun ho => ho) (h.consumed _), .inl⟩
  case all =>
    intro o ho
    obtain ⟨row, hlookup⟩ := isSome_iff_exists.1 (AList.lookup_isSome.2 ho)
    let r : NewRow T A := ⟨o, row,
      ((acc.spent.lookup o).map SpentRecord.spentBy).or (acc.consumed.lookup o)⟩
    have hr : r ∈ news.filter fun r => r.outpoint.1 ∈ txids :=
      mem_filter.2 ⟨hnews.mem_iff.2 (mem_newRows.2 (.inl ⟨hlookup, rfl⟩)),
        decide_eq_true (h.created o ho)⟩
    obtain ⟨i, hi⟩ := getElem?_of_mem hr
    refine ⟨(r, next + i), mk_mem_zipIdx_iff_le_and_getElem?_sub.2 ⟨by omega, ?_⟩, rfl⟩
    rwa [Nat.add_sub_cancel_left]
  case ids =>
    intro r hr
    have hlt := snd_lt_of_mem_zipIdx hr
    have hle := le_snd_of_mem_zipIdx hr
    rw [createdRows, length_zipIdx]
    omega
  case ids_inj =>
    intro r hr r' hr' hid
    obtain ⟨-, hget⟩ := mk_mem_zipIdx_iff_le_and_getElem?_sub.1 (show (r.1, r.2) ∈ _ from hr)
    obtain ⟨-, hget'⟩ := mk_mem_zipIdx_iff_le_and_getElem?_sub.1 (show (r'.1, r'.2) ∈ _ from hr')
    rw [hid, hget'] at hget
    exact Prod.ext (some_inj.1 hget).symm hid

/-- The rows of the outpoints that were spent and not created, with the ids they resolve to. -/
structure External (p : EssentialsProvider K V Id T heightOf) (acc : BlockAcc T A)
    (external : List (NewRow T A × Option ℕ)) : Prop where
  spent : ∀ r ∈ external, r.1.outpoint ∈ acc.spent ∧ r.1.outpoint ∉ acc.ephem
  id : ∀ r ∈ external, r.2 = resolveOutpointIdV2 p .latest r.1.outpoint.1 r.1.outpoint.2
  all : ∀ o ∈ acc.spent, o ∉ acc.ephem → ∃ r ∈ external, r.1.outpoint = o ∧ r.1.txSpent.isSome

lemma externalSpent_spec (rows : ChainRows p.tree chain)
    (hheights : ∀ c ∈ chain, c.height = heightOf c.hash) :
    External p acc (externalSpent p news txids) := by
  have hzip : externalSpent p news txids
      = (news.filter fun r =>
          decide (r.outpoint.1 ∉ txids) && r.txSpent.isSome).map fun r =>
        (r, resolveOutpointIdV2 p .latest r.outpoint.1 r.outpoint.2) := by
    rw [externalSpent, resolveOutpointIdsBatchV2, resolveBatchLoop_eq rows hheights, List.map_map,
      ← zip_map', List.map_id']
    rfl
  have hmem : ∀ r, r ∈ externalSpent p news txids → r.1 ∈ newRows acc ∧
      r.1.outpoint.1 ∉ txids ∧
      r.2 = resolveOutpointIdV2 p .latest r.1.outpoint.1 r.1.outpoint.2 := by
    intro r hr
    rw [hzip] at hr
    obtain ⟨r', hr', rfl⟩ := List.mem_map.1 hr
    obtain ⟨hrun, htest⟩ := mem_filter.1 hr'
    rw [Bool.and_eq_true, decide_eq_true_eq] at htest
    exact ⟨hnews.mem_iff.1 hrun, htest.1, rfl⟩
  constructor
  case spent =>
    intro r hr
    obtain ⟨hnew, htxid, -⟩ := hmem r hr
    rcases mem_newRows.1 hnew with ⟨hlookup, -⟩ | ⟨hephem, record, hlookup, -⟩
    · have hephem : r.1.outpoint ∈ acc.ephem := AList.lookup_isSome.1 (by simp [hlookup])
      exact absurd (h.created _ hephem) htxid
    · exact ⟨AList.lookup_isSome.1 (by simp [hlookup]), hephem⟩
  case id => exact fun r hr => (hmem r hr).2.2
  case all =>
    intro o ho hephem
    obtain ⟨record, hlookup⟩ := isSome_iff_exists.1 (AList.lookup_isSome.2 ho)
    let r : NewRow T A := ⟨o, record.row, some record.spentBy⟩
    have hr : r ∈ news.filter fun r =>
        decide (r.outpoint.1 ∉ txids) && r.txSpent.isSome := by
      refine mem_filter.2 ⟨hnews.mem_iff.2
        (mem_newRows.2 (.inr ⟨hephem, record, hlookup, rfl, rfl⟩)), ?_⟩
      rw [Bool.and_eq_true, decide_eq_true_eq]
      exact ⟨h.external o ho hephem, rfl⟩
    rw [hzip]
    exact ⟨_, List.mem_map_of_mem hr, rfl, rfl⟩

end

section Written
variable {blobs : PointerBlobs T heightOf} {hash : H} {next : ℕ} {created : List (NewRow T A × ℕ)}
  {external : List (NewRow T A × Option ℕ)} {txIds : AList fun _ : T => ℕ}

section
variable (hc : Created acc next created)
include hc

variable (blobs hash external txIds) in
lemma Created.pos_new {o : T × ℕ} (ho : o ∈ acc.ephem) :
    ∃ r ∈ created, r.1.outpoint = o ∧
      (writePointers blobs hash created external txIds).outpointPos.get o
        = some (VersionList.new hash r.2) := by
  obtain ⟨r, hr, hout, hget⟩ := Table.exists_get_putAll_map
    (fun r => (VersionList.new hash r.2 : VersionList heightOf ℕ)) (List.mem_map.2 (hc.all o ho))
  exact ⟨r, hr, hout, hget _⟩

lemma Created.pos_old {o : T × ℕ} (ho : o ∉ acc.ephem) :
    (writePointers blobs hash created external txIds).outpointPos.get o = blobs.outpointPos.get o := by
  refine Table.get_putAll_map_of_notMem _ _ fun hkey => ho ?_
  obtain ⟨r, hr, rfl⟩ := List.mem_map.1 hkey
  exact AList.lookup_isSome.1 (by simp [hc.row r hr])

variable (pointers : Table ℕ (OutpointPointer T A))

lemma Created.pointer_new {r : NewRow T A × ℕ} (hr : r ∈ created) :
    (pointers.putAll (created.map fun r => (r.2, ⟨r.1.outpoint, r.1.row⟩))).get r.2
      = some ⟨r.1.outpoint, r.1.row⟩ := by
  obtain ⟨r', hr', hid, hget⟩ := Table.exists_get_putAll_map
    (fun r => (⟨r.1.outpoint, r.1.row⟩ : OutpointPointer T A)) (List.mem_map_of_mem (f := Prod.snd) hr)
  rw [hget, hc.ids_inj r' hr' r hr hid]

lemma Created.pointer_old {id : ℕ} (hid : id < next ∨ next + created.length ≤ id) :
    (pointers.putAll (created.map fun r => (r.2, ⟨r.1.outpoint, r.1.row⟩))).get id
      = pointers.get id := by
  refine Table.get_putAll_map_of_notMem _ _ fun hkey => ?_
  obtain ⟨r, hr, rfl⟩ := List.mem_map.1 hkey
  have hrange := hc.ids r hr
  omega

end

variable (blobs hash created external txIds) in
/-- What is read of a spent list: the list of an old id, with the block's entry; or the list of a new
id; or what was there. -/
theorem spentById_cases (id : ℕ) :
    (∃ r ∈ external, ∃ spentBy, r.2 = some id ∧
      (writePointers blobs hash created external txIds).outpointSpentById.get id
        = some (((blobs.outpointSpentById.get id).getD VersionList.empty).put hash spentBy)) ∨
    ((∀ r ∈ external, r.1.txSpent.isSome → r.2 ≠ some id) ∧
      ∃ r ∈ created, ∃ spentBy, r.1.txSpent = some spentBy ∧ r.2 = id ∧
        (writePointers blobs hash created external txIds).outpointSpentById.get id
          = some (VersionList.new hash spentBy)) ∨
    ((∀ r ∈ external, r.1.txSpent.isSome → r.2 ≠ some id) ∧
      (∀ r ∈ created, r.1.txSpent.isSome → r.2 ≠ id) ∧
      (writePointers blobs hash created external txIds).outpointSpentById.get id
        = blobs.outpointSpentById.get id) := by
  let newSpent : List (ℕ × VersionList heightOf T) := created.filterMap fun r =>
    r.1.txSpent.map fun spentBy => (r.2, VersionList.new hash spentBy)
  let existingSpent : List (ℕ × VersionList heightOf T) := external.filterMap fun r =>
    r.1.txSpent.bind fun spentBy => r.2.map fun id =>
      (id, ((blobs.outpointSpentById.get id).getD VersionList.empty).put hash spentBy)
  have hread : (writePointers blobs hash created external txIds).outpointSpentById
      = (blobs.outpointSpentById.putAll newSpent).putAll existingSpent := rfl
  rw [hread]
  by_cases hexisting : id ∈ existingSpent.map Prod.fst
  · obtain ⟨l, hl, hget⟩ := Table.exists_get_putAll hexisting
    obtain ⟨r, hr, hentry⟩ := mem_filterMap.1 hl
    obtain ⟨spentBy, -, hsome⟩ := bind_eq_some_iff.1 hentry
    obtain ⟨_, hid, ⟨⟩⟩ := map_eq_some_iff.1 hsome
    exact .inl ⟨r, hr, spentBy, hid, hget _⟩
  · have hnot : ∀ r ∈ external, r.1.txSpent.isSome → r.2 ≠ some id := by
      intro r hr hspent hid
      obtain ⟨spentBy, hspentBy⟩ := isSome_iff_exists.1 hspent
      exact hexisting (List.mem_map.2 ⟨_, mem_filterMap.2
        ⟨r, hr, by rw [hspentBy, hid, bind_some, map_some]⟩, rfl⟩)
    rw [Table.get_putAll_of_notMem _ hexisting]
    by_cases hnew : id ∈ newSpent.map Prod.fst
    · obtain ⟨l, hl, hget⟩ := Table.exists_get_putAll hnew
      obtain ⟨r, hr, hentry⟩ := mem_filterMap.1 hl
      obtain ⟨spentBy, hspent, ⟨⟩⟩ := map_eq_some_iff.1 hentry
      exact .inr (.inl ⟨hnot, r, hr, spentBy, hspent, rfl, hget _⟩)
    · refine .inr (.inr ⟨hnot, fun r hr hspent hid => ?_, Table.get_putAll_of_notMem _ hnew⟩)
      obtain ⟨spentBy, hspentBy⟩ := isSome_iff_exists.1 hspent
      exact hnew (List.mem_map.2 ⟨(r.2, VersionList.new hash spentBy), mem_filterMap.2
        ⟨r, hr, by rw [hspentBy, map_some]⟩, hid⟩)

lemma txPos_new {txid : T} (h : txid ∈ txIds) :
    ∃ id, (writePointers blobs hash created external txIds).txPackedOutflowPos.get txid
      = some (VersionList.new hash id) := by
  obtain ⟨e, -, -, hget⟩ := Table.exists_get_putAll_map
    (fun e => (VersionList.new hash e.2 : VersionList heightOf ℕ)) (show txid ∈ txIds.entries.map _ from h)
  exact ⟨e.2, hget _⟩

lemma txPos_old {txid : T} (h : txid ∉ txIds) :
    (writePointers blobs hash created external txIds).txPackedOutflowPos.get txid
      = blobs.txPackedOutflowPos.get txid :=
  Table.get_putAll_map_of_notMem _ _ h

lemma mem_allocTxPointers (next : ℕ) (ids : AList fun _ : T => ℕ) (txids : List T) (txid : T) :
    txid ∈ (allocTxPointers next ids txids).1 ↔ txid ∈ ids ∨ txid ∈ txids := by
  induction txids generalizing next ids with
  | nil => simp [allocTxPointers]
  | cons txid' txids ih =>
    rw [allocTxPointers, ih, AList.mem_insert, mem_cons, or_assoc (a := txid = txid'), or_left_comm]

end Written

end Blobs

end Espo.Essentials
