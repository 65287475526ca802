import Espo.Essentials.AddressIndex
import Espo.Tokendata.ActivityIndex

/-!
# Chunked lists survive reorgs

Blocks append to address index lists and to token activity index lists. The state rows are written to
the tree, the chunks and the chunk counters to blob stores that are not rewound. Whatever was indexed,
failed and rewound, a list read at the tip or at a block of the chain is what the blocks of the chain
up to there have appended.
-/

namespace Espo.Lists
open Lib TreeDb Essentials Tokendata

/-- The row of some list. -/
def IsListRow (key : Bytes) : Prop :=
  (∃ l, key = addressIndexRowKey l) ∨ ∃ activityRoot, key = activityIndexRowKey activityRoot

/-- What a block writes: appends, at most one for each list, and rows that are not rows of lists. -/
structure ListBlock (V H : Type*) where
  header : Header H
  /-- `get_address_index_chunk_size`, which the configuration may change between blocks. -/
  chunkSize : ℕ
  addressAppends : List ((AddressIndexListKind × Bytes) × List ℕ)
  activityAppends : List (Bytes × List ℕ)
  essentialsRows : List (Bytes × Option V)
  tokendataRows : List (Bytes × Option V)
  addressOnce : (addressAppends.map Prod.fst).Nodup
  activityOnce : (activityAppends.map Prod.fst).Nodup
  others : ∀ row ∈ essentialsRows ++ tokendataRows, ¬IsListRow row.1

/-- The blob stores of the two modules. -/
abbrev ListStores := ChunkStore AddressIndexListKind ℕ × ChunkStore Unit ℕ

section Processor
variable {V Id H : Type*} [DecidableEq V] [DecidableEq Id] [DecidableEq H] [NodeHash Bytes V Id]

/-- The two modules process a block one after the other: each collects its appends, writes its blobs,
and writes its rows. -/
def listProcessor (codec : StateCodec V) : Processor Bytes V Id H (ListBlock V H) ListStores where
  header := ListBlock.header
  process t s b :=
    match appendAddressIndexLists codec ⟨t, s.1, none⟩ b.chunkSize b.addressAppends s.1.batch with
    | .error _ => none
    | .ok addressBatch =>
      let rows := TreeWrite.batch
        (b.essentialsRows ++ stateRows codec addressIndexRowKey addressBatch.rows)
      match appendActivityIndexValuesBatch codec ⟨t.write rows, s.2⟩ b.chunkSize b.activityAppends
        s.2.batch with
      | .error _ => none
      | .ok activityBatch =>
        some ([rows, .batch
            (b.tokendataRows ++ stateRows codec activityIndexRowKey activityBatch.rows)],
          (s.1.commit addressBatch, s.2.commit activityBatch))

end Processor

/-! ## One block -/

lemma addressIndexRowKey_ne (l : AddressIndexListKind × Bytes) (activityRoot : Bytes) :
    addressIndexRowKey l ≠ activityIndexRowKey activityRoot := by
  intro h
  have hhead := congrArg List.head? h
  rw [show (addressIndexRowKey l).head? = some 101 from rfl,
    show (activityIndexRowKey activityRoot).head? = some 116 from rfl] at hhead
  exact absurd hhead (by decide)

section Preserves
variable {V H : Type*} {codec : StateCodec V} (b : ListBlock V H)

lemma ListBlock.ne_addressKey :
    ∀ row ∈ b.essentialsRows ++ b.tokendataRows, ∀ l, row.1 ≠ addressIndexRowKey l :=
  fun row hrow l heq => b.others row hrow (.inl ⟨l, heq⟩)

lemma ListBlock.ne_activityKey :
    ∀ row ∈ b.essentialsRows ++ b.tokendataRows, ∀ root, row.1 ≠ activityIndexRowKey root :=
  fun row hrow root heq => b.others row hrow (.inr ⟨root, heq⟩)

variable (view : Bytes → Option V) (addressRows : List ((AddressIndexListKind × Bytes) × ChunkedList ℕ))
  (activityRows : List (Bytes × ChunkedList ℕ))

variable (codec) in
/-- The map that a block leaves behind, for the rows its appends led to. -/
def ListBlock.viewAfter : Bytes → Option V :=
  writeAll (writeAll view (b.essentialsRows ++ stateRows codec addressIndexRowKey addressRows))
    (b.tokendataRows ++ stateRows codec activityIndexRowKey activityRows)

lemma ListBlock.applyWrites_eq (inst : DecidableEq Bytes) :
    @applyWrites Bytes V inst view
        [.batch (b.essentialsRows ++ stateRows codec addressIndexRowKey addressRows),
          .batch (b.tokendataRows ++ stateRows codec activityIndexRowKey activityRows)]
      = b.viewAfter codec view addressRows activityRows := by
  obtain rfl : inst = instDecidableEqList := Subsingleton.elim _ _
  rfl

lemma ListBlock.state_address (l : AddressIndexListKind × Bytes) :
    codec.state (b.viewAfter codec view addressRows activityRows (addressIndexRowKey l))
      = writeAll (fun l => codec.state (view (addressIndexRowKey l))) addressRows l := by
  have hsecond : ∀ row ∈ b.tokendataRows ++ stateRows codec activityIndexRowKey activityRows,
      ∀ l, row.1 ≠ addressIndexRowKey l := by
    intro row hrow l heq
    rcases List.mem_append.1 hrow with hrow | hrow
    · exact b.ne_addressKey row (List.mem_append_right _ hrow) l heq
    · obtain ⟨entry, -, rfl⟩ := List.mem_map.1 hrow
      exact addressIndexRowKey_ne l entry.1 heq.symm
  have hfirst : ∀ row ∈ b.essentialsRows, ∀ l, row.1 ≠ addressIndexRowKey l :=
    fun row hrow => b.ne_addressKey row (List.mem_append_left _ hrow)
  rw [viewAfter, state_writeAll_of_notMem hsecond, writeAll_append,
    state_writeAll_stateRows addressIndexRowKey_injective]
  simp only [state_writeAll_of_notMem hfirst]

lemma ListBlock.state_activity (root : Bytes) :
    codec.state (b.viewAfter codec view addressRows activityRows (activityIndexRowKey root))
      = writeAll (fun root => codec.state (view (activityIndexRowKey root))) activityRows root := by
  have hfirst : ∀ row ∈ b.essentialsRows ++ stateRows codec addressIndexRowKey addressRows,
      ∀ root, row.1 ≠ activityIndexRowKey root := by
    intro row hrow root heq
    rcases List.mem_append.1 hrow with hrow | hrow
    · exact b.ne_activityKey row (List.mem_append_left _ hrow) root heq
    · obtain ⟨entry, -, rfl⟩ := List.mem_map.1 hrow
      exact addressIndexRowKey_ne entry.1 root heq
  have hsecond : ∀ row ∈ b.tokendataRows, ∀ root, row.1 ≠ activityIndexRowKey root :=
    fun row hrow => b.ne_activityKey row (List.mem_append_right _ hrow)
  rw [viewAfter, writeAll_append, state_writeAll_stateRows activityIndexRowKey_injective]
  simp only [state_writeAll_of_notMem hsecond, state_writeAll_of_notMem hfirst]

/-- The blob stores serve the lists of both modules along the chain. -/
def ListsServed (codec : StateCodec V) (done : List (ListBlock V H × (Bytes → Option V)))
    (s : ListStores) : Prop :=
  Serves codec addressIndexRowKey ListBlock.header ListBlock.addressAppends Prod.fst done s.1 ∧
    Serves codec activityIndexRowKey ListBlock.header ListBlock.activityAppends oneSpace done s.2

/-- No block fails to append, and the lists stay served. -/
theorem preserves_listsServed {Id : Type*} [DecidableEq V] [DecidableEq Id] [DecidableEq H]
    [NodeHash Bytes V Id] :
    Preserves (listProcessor codec : Processor Bytes V Id H (ListBlock V H) ListStores)
      (fun _ _ => True) (ListsServed codec) where
  process := by
    intro t done s b hJ hwork _ _
    have hget : ∀ l : AddressIndexListKind × Bytes,
        codec.state ((⟨t, s.1, none⟩ : AddressIndexProvider V Id H).row .latest l.1 l.2)
          = codec.state (tipView (commits ListBlock.header done) (addressIndexRowKey l)) :=
      fun l => congrArg codec.state (get_working hwork (addressIndexRowKey l))
    obtain ⟨addressBatch, haddress, hserves⟩ :=
      hJ.1.extend addressIndexInlineCap b.chunkSize hget b.addressOnce
    -- the second module reads the active root of a tree with the rows of the first one in flight
    have hwork' := hwork.write
      (.batch (b.essentialsRows ++ stateRows codec addressIndexRowKey addressBatch.rows))
    have hget' : ∀ root : Bytes,
        codec.state ((⟨t.write (.batch (b.essentialsRows
            ++ stateRows codec addressIndexRowKey addressBatch.rows)), s.2⟩ :
            ActivityIndexProvider V Id H).row root none)
          = codec.state (tipView (commits ListBlock.header done) (activityIndexRowKey root)) :=
      fun root => congrArg codec.state (get_working hwork' (activityIndexRowKey root))
    obtain ⟨activityBatch, hactivity, hserves'⟩ :=
      hJ.2.extend activityIndexInlineCap b.chunkSize hget' b.activityOnce
    have hbatch : appendAddressIndexLists codec (⟨t, s.1, none⟩ : AddressIndexProvider V Id H)
        b.chunkSize b.addressAppends s.1.batch = .ok addressBatch := appendAddressIndexLists_eq haddress
    have hbatch' : appendActivityIndexValuesBatch codec (⟨t.write (.batch (b.essentialsRows
            ++ stateRows codec addressIndexRowKey addressBatch.rows)), s.2⟩ :
            ActivityIndexProvider V Id H) b.chunkSize b.activityAppends s.2.batch
        = .ok activityBatch := appendActivityIndexValuesBatch_eq hactivity
    have hnew := hserves _ (b.state_address _ addressBatch.rows activityBatch.rows)
    have hnew' := hserves' _ (b.state_activity _ addressBatch.rows activityBatch.rows)
    refine ⟨[.batch (b.essentialsRows ++ stateRows codec addressIndexRowKey addressBatch.rows),
        .batch (b.tokendataRows ++ stateRows codec activityIndexRowKey activityBatch.rows)],
      (s.1.commit addressBatch, s.2.commit activityBatch), ?_,
      ⟨hnew.of_snoc, hnew'.of_snoc⟩, ?_⟩
    · simp only [listProcessor, hbatch, hbatch']
    · rw [b.applyWrites_eq]
      exact ⟨hnew, hnew'⟩
  rewind := fun n hJ => ⟨hJ.1.take n, hJ.2.take n⟩

end Preserves

/-! ## Runs -/

section Run
variable {V Id H : Type*} [DecidableEq V] [DecidableEq Id] [DecidableEq H] [NodeHash Bytes V Id]

/-- The lists read back what the blocks have appended: at the active root what all blocks of the
chain appended, and at the root of a block what the blocks up to it appended. -/
structure ReadsBack (codec : StateCodec V) (t : VersionedTreeDb Bytes V Id H) (s : ListStores)
    (blocks : List (ListBlock V H)) : Prop where
  addressTip : ∀ kind address start stop,
    getAddressIndexListRange codec ⟨t, s.1, none⟩ .latest kind address start stop
      = window (appended ListBlock.addressAppends blocks (kind, address)) start stop
  addressBlock : ∀ n b, blocks[n]? = some b → ∀ view kind address start stop,
    getAddressIndexListRange codec ⟨t, s.1, view⟩ (.block b.header.hash) kind address start stop
      = window (appended ListBlock.addressAppends (blocks.take (n + 1)) (kind, address)) start stop
  activityTip : ∀ root start stop,
    getActivityIndexRowIdsRange codec ⟨t, s.2⟩ root none start stop
      = window (appended ListBlock.activityAppends blocks root) start stop
  activityBlock : ∀ n b, blocks[n]? = some b → ∀ root start stop,
    getActivityIndexRowIdsRange codec ⟨t, s.2⟩ root (some b.header.hash) start stop
      = window (appended ListBlock.activityAppends (blocks.take (n + 1)) root) start stop

omit [DecidableEq V] in
lemma ListsServed.readsBack {codec : StateCodec V} {t : VersionedTreeDb Bytes V Id H}
    {s : ListStores} {done : List (ListBlock V H × (Bytes → Option V))} (h : ListsServed codec done s)
    (ht : Indexed t (commits ListBlock.header done)) : ReadsBack codec t s (done.map Prod.fst) := by
  -- the row of a list at a block of the chain
  have hrow : ∀ n b, (done.map Prod.fst)[n]? = some b → ∀ key,
      rawGetAt t key (some b.header.hash) = tipView (commits ListBlock.header (done.take (n + 1))) key := by
    intro n b hb key
    rw [List.getElem?_map] at hb
    obtain ⟨d, hd, rfl⟩ := Option.map_eq_some_iff.1 hb
    have hc : (commits ListBlock.header done)[n]?
        = some ⟨d.1.header.height, d.1.header.hash, d.1.header.parent, d.2⟩ := by
      rw [commits, List.getElem?_map, hd]
      rfl
    rw [rawGetAt_some ht hc, commits, commits, List.map_take]
  constructor
  case addressTip =>
    intro kind address
    refine getAddressIndexListRange_eq ?_
    rw [AddressIndexProvider.row, StateAt.resolve, rawGetAt_none ht]
    exact h.1.tip (kind, address)
  case addressBlock =>
    intro n b hb view kind address
    refine getAddressIndexListRange_eq ?_
    rw [AddressIndexProvider.row, StateAt.resolve, hrow n b hb]
    exact h.1.represents (n + 1) (kind, address)
  case activityTip =>
    intro root
    refine getActivityIndexRowIdsRange_eq ?_
    rw [ActivityIndexProvider.row, rawGetAt_none ht]
    exact h.2.tip root
  case activityBlock =>
    intro n b hb root
    refine getActivityIndexRowIdsRange_eq ?_
    rw [ActivityIndexProvider.row, hrow n b hb]
    exact h.2.represents (n + 1) root

/-- Chunked lists survive reorgs: no run of blocks, failed blocks and rewinds makes an append fail,
and at its end all lists read back. -/
theorem lists_readBack (codec : StateCodec V) (steps : List (Step Bytes V H (ListBlock V H)))
    (hsteps : Admissible ListBlock.header (fun _ _ => True) [] [] steps) :
    ∃ (t : VersionedTreeDb Bytes V Id H) (s : ListStores),
      (listProcessor codec).run (.new (TreeRows.empty Bytes V Id H)) (.empty, .empty) [] steps
        = some (t, s) ∧
      ReadsBack codec t s (chainAfter [] steps) := by
  have hP : Preserves (listProcessor codec : Processor Bytes V Id H (ListBlock V H) ListStores)
      (fun _ _ => True) (ListsServed codec) := preserves_listsServed
  have hempty : ListsServed codec ([] : List (ListBlock V H × (Bytes → Option V)))
      (.empty, .empty) := ⟨Serves.nil, Serves.nil⟩
  obtain ⟨t, s, done, hrun, hdone, ht, hserved⟩ := Processor.run_fresh hP hempty hsteps
  exact ⟨t, s, hrun, hdone ▸ hserved.readsBack ht⟩

end Run

/-- States as numbers. -/
def numberCodec : StateCodec ℕ where
  encode
    | .inline items => Encodable.encode (Sum.inl items : List ℕ ⊕ List ℕ × ℕ × ℕ)
    | .external chunkIds len size =>
      Encodable.encode (Sum.inr (chunkIds, len, size) : List ℕ ⊕ List ℕ × ℕ × ℕ)
  decode n := (Encodable.decode n : Option (List ℕ ⊕ List ℕ × ℕ × ℕ)).map fun
    | .inl items => .inline items
    | .inr (chunkIds, len, size) => .external chunkIds len size
  decode_encode st := by cases st <;> rw [Encodable.encodek] <;> rfl

/-- A block that appends to one list of each module. -/
def sampleBlock (header : Header ℕ) (chunkSize : ℕ) (values : List ℕ) : ListBlock ℕ ℕ where
  header := header
  chunkSize := chunkSize
  addressAppends := [((.alkaneTxs, ascii "bc1q"), values)]
  activityAppends := [(ascii "token", values)]
  essentialsRows := []
  tokendataRows := []
  addressOnce := List.nodup_singleton _
  activityOnce := List.nodup_singleton _
  others := by simp

/-- Two lists go into chunks, the last chunk is rewritten by two branches, and a block fails after it
wrote its chunks. -/
theorem lists_readBack_forked :
    ∃ (t : VersionedTreeDb Bytes ℕ ℕ ℕ) (s : ListStores),
      (listProcessor numberCodec).run (.new (TreeRows.empty Bytes ℕ ℕ ℕ)) (.empty, .empty) []
        [.index (sampleBlock ⟨5, 10, 0⟩ 4 [1, 2, 3, 4, 5, 6, 7]),
          .index (sampleBlock ⟨6, 11, 10⟩ 4 [8, 9]), .index (sampleBlock ⟨7, 12, 11⟩ 3 [10]),
          .fail (sampleBlock ⟨8, 13, 12⟩ 3 [11, 12]), .rewind 2,
          .index (sampleBlock ⟨7, 14, 11⟩ 5 [20, 21, 22, 23])] = some (t, s) ∧
      ReadsBack numberCodec t s
        [sampleBlock ⟨5, 10, 0⟩ 4 [1, 2, 3, 4, 5, 6, 7], sampleBlock ⟨6, 11, 10⟩ 4 [8, 9],
          sampleBlock ⟨7, 14, 11⟩ 5 [20, 21, 22, 23]] :=
  lists_readBack numberCodec _
    (by simp [Admissible, AllBlocks, Consecutive, FreshHash, sampleBlock])

end Espo.Lists
