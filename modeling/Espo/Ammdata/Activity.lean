import Espo.Essentials.Balances
import Espo.Lists.Rows

/-!
# Pool activity

The rows of pool activity: a primary row for each activity, under the pool, the time of the block and a
sequence number; seven secondary indexes over these rows, for the pool and for its trades or events; and the
number of rows, for the pool and for each group.

The sequence numbers start at zero in every block (`ActivityWriteAcc`), while the counts go on from the
stored ones (`prepareBatch`).
-/

namespace Espo.Ammdata
open Lib Espo.Essentials Espo.Lists

/-! ## Activities -/

/-- `ActivityKind`. -/
inductive ActivityKind where
  | tradeBuy
  | tradeSell
  | liquidityAdd
  | liquidityRemove
  | poolCreate
  deriving DecidableEq

/-- `ActivityDirection`. -/
inductive ActivityDirection where
  | baseIn
  | quoteIn
  deriving DecidableEq

/-- `SchemaActivityV1`. -/
structure SchemaActivityV1 where
  timestamp : ℕ
  txid : Bytes
  kind : ActivityKind
  direction : Option ActivityDirection
  baseDelta : ℤ
  quoteDelta : ℤ
  addressSpk : Bytes
  success : Bool
  deriving DecidableEq

/-- `ActivityGroup`. -/
inductive ActivityGroup where
  | trades
  | events
  deriving DecidableEq

instance : Fintype ActivityGroup := ⟨{.trades, .events}, fun group => by cases group <;> decide⟩

/-- `group_for_kind`. -/
def groupForKind : ActivityKind → ActivityGroup
  | .tradeBuy | .tradeSell => .trades
  | .liquidityAdd | .liquidityRemove | .poolCreate => .events

/-- `side_code`. -/
def sideCode (v : ℤ) : ℕ := if v < 0 then 0 else if 0 < v then 2 else 1

/-! ## Keys -/

/-- The secondary indexes. -/
inductive IndexKind where
  | ts
  | absb
  | absq
  | sbAbsb
  | sqAbsq
  | sbTs
  | sqTs
  deriving DecidableEq

namespace IndexKind

/-- The indexes in the order in which they are written. -/
def all : List IndexKind := [ts, absb, absq, sbAbsb, sqAbsq, sbTs, sqTs]

lemma mem_all (kind : IndexKind) : kind ∈ all := by cases kind <;> decide

instance : Fintype IndexKind := ⟨all.toFinset, fun kind => List.mem_toFinset.2 kind.mem_all⟩

/-- What an index orders by before the time: a side code, an absolute amount, or both. -/
def fields : IndexKind → SchemaActivityV1 → Option ℕ × Option ℕ
  | ts, _ => (none, none)
  | absb, a => (none, some a.baseDelta.natAbs)
  | absq, a => (none, some a.quoteDelta.natAbs)
  | sbAbsb, a => (some (sideCode a.baseDelta), some a.baseDelta.natAbs)
  | sqAbsq, a => (some (sideCode a.quoteDelta), some a.quoteDelta.natAbs)
  | sbTs, a => (some (sideCode a.baseDelta), none)
  | sqTs, a => (some (sideCode a.quoteDelta), none)

end IndexKind

/-- A key of a secondary index. -/
structure IndexKey where
  pool : SchemaAlkaneId
  group : Option ActivityGroup
  kind : IndexKind
  fields : Option ℕ × Option ℕ
  ts : ℕ
  seq : ℕ
  deriving DecidableEq

variable (pool : SchemaAlkaneId)

/-- The key of an activity in an index. -/
def indexKey (group : Option ActivityGroup) (kind : IndexKind) (ts seq : ℕ) (a : SchemaActivityV1) :
    IndexKey :=
  ⟨pool, group, kind, kind.fields a, ts, seq⟩

/-! ## Writes -/

/-- A row that is written. -/
inductive ActivityWrite where
  | primary (pool : SchemaAlkaneId) (ts seq : ℕ) (a : SchemaActivityV1)
  /-- The value of an index row is the time and the sequence number. -/
  | index (k : IndexKey) (val : ℕ × ℕ)
  | count (pool : SchemaAlkaneId) (group : Option ActivityGroup) (n : ℕ)

/-- `append_index_entries`. -/
def indexEntries (ts seq : ℕ) (a : SchemaActivityV1) (group : Option ActivityGroup) :
    List ActivityWrite :=
  IndexKind.all.map fun kind => .index (indexKey pool group kind ts seq a) (ts, seq)

/-- The index rows of an activity, for the pool and for the group. -/
def allIndexEntries (ts seq : ℕ) (a : SchemaActivityV1) : List ActivityWrite :=
  indexEntries pool ts seq a none ++ indexEntries pool ts seq a (some (groupForKind a.kind))

/-- `ActivityWriteAcc`. -/
structure ActivityWriteAcc where
  seqs : Table (SchemaAlkaneId × ℕ) ℕ
  writes : List ActivityWrite

/-- `ActivityWriteAcc::push`. -/
def ActivityWriteAcc.push (acc : ActivityWriteAcc) (pool : SchemaAlkaneId) (ts : ℕ) (a : SchemaActivityV1) :
    ActivityWriteAcc × ℕ :=
  let seq := (acc.seqs.get (pool, ts)).getD 0
  ({ seqs := acc.seqs.put (pool, ts) ((seq + 1) % 2 ^ 32)
     writes := acc.writes ++ .primary pool ts seq a :: allIndexEntries pool ts seq a }, seq)

/-- `ActivityIndexAcc`. -/
structure ActivityIndexAcc where
  writes : List ActivityWrite
  perPoolDelta : AList fun _ : SchemaAlkaneId => ℕ
  perPoolGroupDelta : AList fun _ : SchemaAlkaneId × ActivityGroup => ℕ

/-- `ActivityIndexAcc::add`. -/
def ActivityIndexAcc.add (acc : ActivityIndexAcc) (pool : SchemaAlkaneId) (ts seq : ℕ)
    (a : SchemaActivityV1) : ActivityIndexAcc :=
  let group := groupForKind a.kind
  { writes := acc.writes ++ allIndexEntries pool ts seq a
    perPoolDelta := acc.perPoolDelta.insert pool ((acc.perPoolDelta.lookup pool).getD 0 + 1)
    perPoolGroupDelta :=
      acc.perPoolGroupDelta.insert (pool, group) ((acc.perPoolGroupDelta.lookup (pool, group)).getD 0 + 1) }

/-! ## Blocks -/

/-- The activities of a block. -/
structure ActivityBlock where
  /-- The time in the header. -/
  time : ℕ
  /-- The activities that are pushed, with their pools. -/
  pushes : List (SchemaAlkaneId × SchemaActivityV1)
  /-- The order of hash maps. -/
  hash : HashOrder

/-- Both accumulators. -/
abbrev ActivityAccs := ActivityWriteAcc × ActivityIndexAcc

/-- `activity_acc.push` and `index_acc.add`. -/
def pushActivity (time : ℕ) (accs : ActivityAccs) (push : SchemaAlkaneId × SchemaActivityV1) : ActivityAccs :=
  let pushed := accs.1.push push.1 time push.2
  (pushed.1, accs.2.add push.1 time pushed.2 push.2)

/-- The accumulators after all activities of a block. -/
def ActivityBlock.accs (b : ActivityBlock) : ActivityAccs :=
  b.pushes.foldl (pushActivity b.time) (⟨∅, []⟩, ⟨[], ∅, ∅⟩)

/-- The stored rows. -/
structure ActivityStore where
  primary : Table (SchemaAlkaneId × ℕ × ℕ) SchemaActivityV1
  index : Table IndexKey (ℕ × ℕ)
  counts : Table (SchemaAlkaneId × Option ActivityGroup) ℕ

namespace ActivityStore

/-- No rows. -/
def empty : ActivityStore := ⟨∅, ∅, ∅⟩

variable (store : ActivityStore)

/-- Write a row. -/
def write : ActivityWrite → ActivityStore
  | .primary pool ts seq a => { store with primary := store.primary.put (pool, ts, seq) a }
  | .index k val => { store with index := store.index.put k val }
  | .count pool group n => { store with counts := store.counts.put (pool, group) n }

/-- A stored count. -/
def count (pool : SchemaAlkaneId) (group : Option ActivityGroup) : ℕ :=
  (store.counts.get (pool, group)).getD 0

/-- The rows of a count after a block: `current.saturating_add(delta)` in a `u64`. -/
def countWrite (pool : SchemaAlkaneId) (group : Option ActivityGroup) (delta : ℕ) : ActivityWrite :=
  .count pool group (min (store.count pool group + delta) (2 ^ 64 - 1))

/-- The part of `prepare_batch` for activities. -/
def prepareBatch (hash : HashOrder) (accs : ActivityAccs) : List ActivityWrite :=
  accs.1.writes ++ accs.2.writes ++
    (hash.run accs.2.perPoolDelta.entries).map (fun e => store.countWrite e.1 none e.2) ++
    (hash.run accs.2.perPoolGroupDelta.entries).map (fun e => store.countWrite e.1.1 (some e.1.2) e.2)

/-- A block. -/
def indexBlock (b : ActivityBlock) : ActivityStore :=
  (store.prepareBatch b.hash b.accs).foldl write store

end ActivityStore

/-- The store after some blocks. -/
def runActivity (blocks : List ActivityBlock) : ActivityStore :=
  blocks.foldl ActivityStore.indexBlock .empty

end Espo.Ammdata
