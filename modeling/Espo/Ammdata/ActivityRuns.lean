import Espo.Ammdata.Activity

/-!
# Pool activity over runs of blocks

What is stored after a run is told by the log of all activities that were pushed, each with the time and the
sequence number it got (`LogInv`). The log has a primary key twice if and only if rows were overwritten.
That happens when two blocks with the same time have activities of one pool: the second starts again at
sequence number zero. Otherwise nothing is lost.
-/

namespace Espo.Ammdata
open Lib Espo.Essentials List

/-! ## The log -/

/-- An activity with the numbers it was stored under. -/
structure Pushed where
  pool : SchemaAlkaneId
  ts : ℕ
  seq : ℕ
  activity : SchemaActivityV1

/-- A group has an activity; the group `none` is the pool. -/
def InGroup (group : Option ActivityGroup) (a : SchemaActivityV1) : Prop :=
  group = none ∨ group = some (groupForKind a.kind)

instance (group : Option ActivityGroup) (a : SchemaActivityV1) : Decidable (InGroup group a) :=
  inferInstanceAs (Decidable (_ ∨ _))

namespace Pushed

/-- The primary row. -/
def row (e : Pushed) : (SchemaAlkaneId × ℕ × ℕ) × SchemaActivityV1 := ((e.pool, e.ts, e.seq), e.activity)

/-- A key of a secondary index is one of the activity's. -/
def HasKey (e : Pushed) (k : IndexKey) : Prop :=
  k = indexKey e.pool k.group k.kind e.ts e.seq e.activity ∧ InGroup k.group e.activity

/-- An activity of the pool and the group. -/
def Counts (pool : SchemaAlkaneId) (group : Option ActivityGroup) (e : Pushed) : Prop :=
  e.pool = pool ∧ InGroup group e.activity

instance (pool : SchemaAlkaneId) (group : Option ActivityGroup) : DecidablePred (Counts pool group) :=
  fun _ => inferInstanceAs (Decidable (_ ∧ _))

end Pushed

/-- The activities of a pool and a group in a log. -/
def countIn (log : List Pushed) (pool : SchemaAlkaneId) (group : Option ActivityGroup) : ℕ :=
  log.countP fun e => e.Counts pool group

/-- One activity of a block. -/
def logStep (time : ℕ) (log : List Pushed) (push : SchemaAlkaneId × SchemaActivityV1) : List Pushed :=
  log ++ [⟨push.1, time, countIn log push.1 none % 2 ^ 32, push.2⟩]

variable (b : ActivityBlock)

/-- The log of a block. -/
def ActivityBlock.log : List Pushed := b.pushes.foldl (logStep b.time) []

variable (blocks : List ActivityBlock)

/-- The log of a run. -/
def runLog : List Pushed := blocks.flatMap ActivityBlock.log

variable (pool : SchemaAlkaneId) (group : Option ActivityGroup)

lemma countIn_append (log log' : List Pushed) :
    countIn (log ++ log') pool group = countIn log pool group + countIn log' pool group :=
  countP_append

lemma countIn_singleton (e : Pushed) :
    countIn [e] pool group = if e.Counts pool group then 1 else 0 := by
  rw [countIn, countP_singleton]
  simp only [decide_eq_true_eq]

/-! ## The accumulators of a block -/

/-- The accumulators after some activities. -/
structure AccsInv (time : ℕ) (log : List Pushed) (accs : ActivityAccs) : Prop where
  seqs : ∀ pool, (accs.1.seqs.get (pool, time)).getD 0 = countIn log pool none % 2 ^ 32
  writes : accs.1.writes = log.flatMap fun e =>
    .primary e.pool e.ts e.seq e.activity :: allIndexEntries e.pool e.ts e.seq e.activity
  indexWrites : accs.2.writes = log.flatMap fun e => allIndexEntries e.pool e.ts e.seq e.activity
  perPool : ∀ pool, (accs.2.perPoolDelta.lookup pool).getD 0 = countIn log pool none
  perGroup : ∀ pool group,
    (accs.2.perPoolGroupDelta.lookup (pool, group)).getD 0 = countIn log pool (some group)

lemma AccsInv.push {time : ℕ} {log : List Pushed} {accs : ActivityAccs} (h : AccsInv time log accs)
    (push : SchemaAlkaneId × SchemaActivityV1) :
    AccsInv time (logStep time log push) (pushActivity time accs push) := by
  have hseq : (accs.1.seqs.get (push.1, time)).getD 0 = countIn log push.1 none % 2 ^ 32 := h.seqs push.1
  refine ⟨fun pool => ?_, ?_, ?_, fun pool => ?_, fun pool group => ?_⟩
  · show ((accs.1.seqs.put (push.1, time) _).get (pool, time)).getD 0 = _
    rw [logStep, countIn_append, countIn_singleton, Table.get_put]
    simp only [Prod.mk.injEq, and_true, Pushed.Counts, InGroup, true_or]
    by_cases hpool : pool = push.1
    · rw [if_pos hpool, if_pos hpool.symm, Option.getD_some, hpool]
      omega
    · rw [if_neg hpool, if_neg (Ne.symm hpool), h.seqs, Nat.add_zero]
  · show accs.1.writes ++ _ = _
    rw [logStep, h.writes, hseq]
    simp
  · show accs.2.writes ++ allIndexEntries push.1 time ((accs.1.seqs.get (push.1, time)).getD 0) push.2 = _
    rw [logStep, h.indexWrites, hseq]
    simp
  · show (((accs.2.perPoolDelta).insert push.1 _).lookup pool).getD 0 = _
    rw [logStep, countIn_append, countIn_singleton]
    simp only [and_true, Pushed.Counts, InGroup, true_or]
    by_cases hpool : pool = push.1
    · rw [if_pos hpool.symm, hpool, AList.lookup_insert, Option.getD_some, h.perPool]
    · rw [if_neg (Ne.symm hpool), AList.lookup_insert_ne hpool, h.perPool, Nat.add_zero]
  · show (((accs.2.perPoolGroupDelta).insert (push.1, groupForKind push.2.kind) _).lookup
      (pool, group)).getD 0 = _
    rw [logStep, countIn_append, countIn_singleton]
    simp only [Pushed.Counts, InGroup, reduceCtorEq, false_or, Option.some.injEq]
    by_cases hpool : (pool, group) = (push.1, groupForKind push.2.kind)
    · obtain ⟨rfl, rfl⟩ := Prod.mk.inj hpool
      rw [if_pos ⟨rfl, rfl⟩, AList.lookup_insert, Option.getD_some, h.perGroup]
    · rw [if_neg fun hand => hpool (Prod.ext hand.1.symm hand.2), AList.lookup_insert_ne hpool, h.perGroup,
        Nat.add_zero]

lemma accsInv_accs : AccsInv b.time b.log b.accs := by
  refine foldl_invariant₂ (P := fun _ (accs : ActivityAccs) (log : List Pushed) => AccsInv b.time log accs)
    ⟨fun _ => rfl, rfl, rfl, fun _ => rfl, fun _ _ => rfl⟩ ?_
  intro _ push _ accs log _ h
  exact h.push push

/-! ## The rows after a block -/

namespace ActivityWrite

/-- The primary rows among writes. -/
def primary? : ActivityWrite → Option ((SchemaAlkaneId × ℕ × ℕ) × SchemaActivityV1)
  | primary pool ts seq a => some ((pool, ts, seq), a)
  | _ => none

/-- The index rows among writes. -/
def index? : ActivityWrite → Option (IndexKey × (ℕ × ℕ))
  | index k val => some (k, val)
  | _ => none

/-- The counts among writes. -/
def count? : ActivityWrite → Option ((SchemaAlkaneId × Option ActivityGroup) × ℕ)
  | count pool group n => some ((pool, group), n)
  | _ => none

end ActivityWrite

lemma ActivityStore.foldl_write (store : ActivityStore) (writes : List ActivityWrite) :
    writes.foldl write store =
      { primary := store.primary.putAll (writes.filterMap ActivityWrite.primary?)
        index := store.index.putAll (writes.filterMap ActivityWrite.index?)
        counts := store.counts.putAll (writes.filterMap ActivityWrite.count?) } := by
  induction writes generalizing store with
  | nil => rfl
  | cons w writes ih =>
    rw [foldl_cons, ih]
    cases w <;> rfl

lemma flatMap_nil_const {α β : Type*} (l : List α) : (l.flatMap fun _ => ([] : List β)) = [] :=
  flatMap_eq_nil_iff.2 fun _ _ => rfl

lemma mem_filterMap_allIndexEntries {e : Pushed} {k : IndexKey} {val : ℕ × ℕ} :
    (k, val) ∈ (allIndexEntries e.pool e.ts e.seq e.activity).filterMap ActivityWrite.index? ↔
      e.HasKey k ∧ val = (k.ts, k.seq) := by
  have hone : ∀ group, (k, val) ∈ (indexEntries e.pool e.ts e.seq e.activity group).filterMap
      ActivityWrite.index? ↔
        k = indexKey e.pool k.group k.kind e.ts e.seq e.activity ∧ k.group = group ∧ val = (k.ts, k.seq) := by
    intro group
    rw [indexEntries, filterMap_map, mem_filterMap]
    constructor
    · rintro ⟨kind, -, hsome⟩
      cases hsome
      exact ⟨rfl, rfl, rfl⟩
    · rintro ⟨hk, rfl, rfl⟩
      refine ⟨k.kind, k.kind.mem_all, congrArg some (Prod.ext hk.symm ?_)⟩
      rw [hk]
      rfl
  rw [allIndexEntries, filterMap_append, mem_append, hone, hone, Pushed.HasKey, InGroup]
  tauto

namespace ActivityStore
variable (store : ActivityStore) (b : ActivityBlock)

lemma filterMap_prepareBatch {γ : Type*} (g : ActivityWrite → Option γ) :
    (store.prepareBatch b.hash b.accs).filterMap g =
      (b.log.flatMap fun e => (.primary e.pool e.ts e.seq e.activity ::
        allIndexEntries e.pool e.ts e.seq e.activity).filterMap g) ++
      (b.log.flatMap fun e => (allIndexEntries e.pool e.ts e.seq e.activity).filterMap g) ++
      (b.hash.run b.accs.2.perPoolDelta.entries).filterMap (fun e => g (store.countWrite e.1 none e.2)) ++
      (b.hash.run b.accs.2.perPoolGroupDelta.entries).filterMap
        fun e => g (store.countWrite e.1.1 (some e.1.2) e.2) := by
  have h := accsInv_accs b
  rw [prepareBatch, h.writes, h.indexWrites]
  simp only [filterMap_append, filterMap_flatMap, filterMap_map]
  rfl

lemma primary_indexBlock : (store.indexBlock b).primary = store.primary.putAll (b.log.map Pushed.row) := by
  rw [indexBlock, foldl_write, filterMap_prepareBatch]
  show store.primary.putAll ((b.log.flatMap (pure ∘ Pushed.row)) ++ (b.log.flatMap fun _ => []) ++
    filterMap (fun _ => none) _ ++ filterMap (fun _ => none) _) = _
  rw [flatMap_pure_eq_map, flatMap_nil_const]
  simp

lemma index_indexBlock (k : IndexKey) (val : ℕ × ℕ) :
    (store.indexBlock b).index.get k = some val ↔
      ((∃ e ∈ b.log, e.HasKey k) ∧ val = (k.ts, k.seq)) ∨
      (¬∃ e ∈ b.log, e.HasKey k) ∧ store.index.get k = some val := by
  have hmem : ∀ val, (k, val) ∈ (store.prepareBatch b.hash b.accs).filterMap ActivityWrite.index? ↔
      (∃ e ∈ b.log, e.HasKey k) ∧ val = (k.ts, k.seq) := by
    intro val
    rw [filterMap_prepareBatch]
    show (k, val) ∈
      (b.log.flatMap fun e => (allIndexEntries e.pool e.ts e.seq e.activity).filterMap ActivityWrite.index?) ++
      (b.log.flatMap fun e => (allIndexEntries e.pool e.ts e.seq e.activity).filterMap ActivityWrite.index?) ++
      filterMap (fun _ => none) _ ++ filterMap (fun _ => none) _ ↔ _
    simp only [mem_append, mem_flatMap, mem_filterMap_allIndexEntries, filterMap_none, not_mem_nil, or_false,
      or_self, ← and_assoc, exists_and_right]
  rw [indexBlock, foldl_write]
  dsimp only
  generalize (store.prepareBatch b.hash b.accs).filterMap ActivityWrite.index? = rows at hmem ⊢
  by_cases hkey : ∃ e ∈ b.log, e.HasKey k
  · have hin : k ∈ rows.map Prod.fst := List.mem_map.2 ⟨_, (hmem _).2 ⟨hkey, rfl⟩, rfl⟩
    obtain ⟨val', hval', hget⟩ := Table.exists_get_putAll hin
    have hval := ((hmem val').1 hval').2
    rw [hget, hval]
    simp [hkey, eq_comm]
  · have hout : k ∉ rows.map Prod.fst := by
      intro hin
      obtain ⟨⟨k', val'⟩, hmem', rfl⟩ := List.mem_map.1 hin
      exact hkey ((hmem val').1 hmem').1
    rw [store.index.get_putAll_of_notMem hout]
    simp [hkey]

lemma mem_entryRows {K K' : Type} [DecidableEq K] (order : HashOrder) (m : AList fun _ : K => ℕ) {f : K → K'}
    (hf : Function.Injective f) (row : K → ℕ → ℕ) (k : K) :
    (∀ n, (f k, n) ∈ (order.run m.entries).map (fun e => (f e.1, row e.1 e.2)) →
      n = row k ((m.lookup k).getD 0)) ∧
    (f k ∉ ((order.run m.entries).map fun e => (f e.1, row e.1 e.2)).map Prod.fst →
      (m.lookup k).getD 0 = 0) := by
  constructor
  · intro n hn
    obtain ⟨e, he, heq⟩ := List.mem_map.1 hn
    obtain ⟨hk, rfl⟩ := Prod.mk.inj heq
    obtain rfl := hf hk
    rw [AList.mem_lookup_iff.2 ((order.perm _).mem_iff.1 he)]
    rfl
  · intro hnot
    cases hlookup : m.lookup k with
    | none => rfl
    | some n =>
      refine absurd ?_ hnot
      rw [List.map_map]
      exact List.mem_map.2 ⟨⟨k, n⟩, (order.perm _).mem_iff.2 (AList.mem_lookup_iff.1 hlookup), rfl⟩

lemma mem_count_prepareBatch :
    (∀ n, ((pool, group), n) ∈ (store.prepareBatch b.hash b.accs).filterMap ActivityWrite.count? →
      n = min (store.count pool group + countIn b.log pool group) (2 ^ 64 - 1)) ∧
    ((pool, group) ∉ ((store.prepareBatch b.hash b.accs).filterMap ActivityWrite.count?).map Prod.fst →
      countIn b.log pool group = 0) := by
  have h := accsInv_accs b
  have hrows : (store.prepareBatch b.hash b.accs).filterMap ActivityWrite.count? =
      (b.hash.run b.accs.2.perPoolDelta.entries).map (fun e => ((e.1, none),
        min (store.count e.1 none + e.2) (2 ^ 64 - 1))) ++
      (b.hash.run b.accs.2.perPoolGroupDelta.entries).map (fun e => ((e.1.1, some e.1.2),
        min (store.count e.1.1 (some e.1.2) + e.2) (2 ^ 64 - 1))) := by
    rw [filterMap_prepareBatch]
    show (b.log.flatMap fun _ => []) ++ (b.log.flatMap fun _ => []) ++
      filterMap (fun e => some _) _ ++ filterMap (fun e => some _) _ = _
    simp [flatMap_nil_const]
  rw [hrows, map_append]
  cases group with
  | none =>
    obtain ⟨hmem, hzero⟩ := mem_entryRows b.hash b.accs.2.perPoolDelta (f := fun pool => (pool, none))
      (fun _ _ heq => congrArg Prod.fst heq) (fun pool n => min (store.count pool none + n) (2 ^ 64 - 1)) pool
    rw [h.perPool] at hmem hzero
    refine ⟨fun n hn => ?_, fun hnot => hzero fun hin => hnot (mem_append_left _ hin)⟩
    rcases mem_append.1 hn with hn | hn
    · exact hmem n hn
    · obtain ⟨e, -, heq⟩ := List.mem_map.1 hn
      cases (Prod.mk.inj (Prod.mk.inj heq).1).2
  | some group =>
    obtain ⟨hmem, hzero⟩ := mem_entryRows b.hash b.accs.2.perPoolGroupDelta
      (f := fun k => (k.1, some k.2)) (fun _ _ heq => by simpa [Prod.ext_iff] using heq)
      (fun k n => min (store.count k.1 (some k.2) + n) (2 ^ 64 - 1)) (pool, group)
    rw [h.perGroup] at hmem hzero
    refine ⟨fun n hn => ?_, fun hnot => hzero fun hin => hnot (mem_append_right _ hin)⟩
    rcases mem_append.1 hn with hn | hn
    · obtain ⟨e, -, heq⟩ := List.mem_map.1 hn
      cases (Prod.mk.inj (Prod.mk.inj heq).1).2
    · exact hmem n hn

lemma count_indexBlock (hmax : store.count pool group ≤ 2 ^ 64 - 1) :
    (store.indexBlock b).count pool group
      = min (store.count pool group + countIn b.log pool group) (2 ^ 64 - 1) := by
  obtain ⟨hmem, hzero⟩ := store.mem_count_prepareBatch pool group b
  rw [indexBlock, foldl_write, count]
  by_cases hin : (pool, group) ∈ ((store.prepareBatch b.hash b.accs).filterMap ActivityWrite.count?).map Prod.fst
  · obtain ⟨n, hn, hget⟩ := Table.exists_get_putAll hin
    rw [hget, hmem n hn]
    rfl
  · rw [store.counts.get_putAll_of_notMem hin, hzero hin, Nat.add_zero, min_eq_left hmax]
    rfl

end ActivityStore

/-! ## Runs -/

/-- The store of a run in terms of its log. -/
structure LogInv (log : List Pushed) (store : ActivityStore) : Prop where
  primary_eq : store.primary = Table.putAll ∅ (log.map Pushed.row)
  index_get : ∀ k val, store.index.get k = some val ↔ (∃ e ∈ log, e.HasKey k) ∧ val = (k.ts, k.seq)
  count_eq : ∀ pool group, store.count pool group = min (countIn log pool group) (2 ^ 64 - 1)

variable {log : List Pushed}

lemma LogInv.indexBlock {store : ActivityStore} (h : LogInv log store) (b : ActivityBlock) :
    LogInv (log ++ b.log) (store.indexBlock b) := by
  refine ⟨?_, fun k val => ?_, fun pool group => ?_⟩
  · rw [store.primary_indexBlock, h.primary_eq, map_append, Table.putAll, Table.putAll, Table.putAll,
      foldl_append]
  · have hlog : (∃ e ∈ log ++ b.log, e.HasKey k) ↔ (∃ e ∈ log, e.HasKey k) ∨ ∃ e ∈ b.log, e.HasKey k := by
      simp only [mem_append, or_and_right, exists_or]
    rw [store.index_indexBlock, h.index_get, hlog]
    by_cases hblock : ∃ e ∈ b.log, e.HasKey k
    · simp only [hblock, not_true_eq_false, false_and, or_false, or_true]
    · simp only [hblock, false_and, not_false_eq_true, true_and, false_or, or_false]
  · have hcount := h.count_eq pool group
    rw [store.count_indexBlock pool group b (by omega), countIn_append]
    omega

lemma runActivity_concat : runActivity (blocks ++ [b]) = (runActivity blocks).indexBlock b := by
  rw [runActivity, foldl_append]
  rfl

lemma runLog_concat : runLog (blocks ++ [b]) = runLog blocks ++ b.log := by
  rw [runLog, flatMap_append, flatMap_singleton]
  rfl

lemma logInv_run : LogInv (runLog blocks) (runActivity blocks) := by
  induction blocks using List.reverseRecOn with
  | nil => exact ⟨rfl, by simp [runLog, runActivity, ActivityStore.empty], fun _ _ => rfl⟩
  | append_singleton blocks b ih =>
    rw [runActivity_concat, runLog_concat]
    exact ih.indexBlock b

/-! ## Keys of a log -/

/-- The log of a pool. -/
def ofPool (log : List Pushed) : List Pushed := log.filter fun e => e.pool = pool

lemma mem_ofPool {pool : SchemaAlkaneId} {e : Pushed} :
    e ∈ ofPool pool log ↔ e ∈ log ∧ e.pool = pool := by
  rw [ofPool, mem_filter, decide_eq_true_eq]

lemma ofPool_append (log log' : List Pushed) :
    ofPool pool (log ++ log') = ofPool pool log ++ ofPool pool log' :=
  filter_append _ _

lemma length_ofPool (log : List Pushed) : (ofPool pool log).length = countIn log pool none := by
  rw [ofPool, countIn, countP_eq_length_filter]
  simp [Pushed.Counts, InGroup]

/-- The activities of a pool in a block. -/
def ActivityBlock.activitiesOf : ℕ :=
  b.pushes.countP fun push => push.1 = pool

/-- The log of a block has its activities in order, under its time, and its sequence numbers go up to the
number of activities of the pool. -/
structure BlockLog (time : ℕ) (pushes : List (SchemaAlkaneId × SchemaActivityV1)) (log : List Pushed) :
    Prop where
  activities : log.map (fun e => (e.pool, e.activity)) = pushes
  ts_eq : ∀ e ∈ log, e.ts = time
  seq_lt : ∀ e ∈ log, countIn log e.pool none ≤ 2 ^ 32 → e.seq < countIn log e.pool none
  nodup : ∀ pool, countIn log pool none ≤ 2 ^ 32 → ((ofPool pool log).map Pushed.seq).Nodup

lemma BlockLog.step {time : ℕ} {pushes : List (SchemaAlkaneId × SchemaActivityV1)}
    (h : BlockLog time pushes log) (push : SchemaAlkaneId × SchemaActivityV1) :
    BlockLog time (pushes ++ [push]) (logStep time log push) := by
  have hcount : ∀ pool, countIn (logStep time log push) pool none
      = countIn log pool none + if push.1 = pool then 1 else 0 := by
    intro pool
    rw [logStep, countIn_append, countIn_singleton]
    simp only [Pushed.Counts, InGroup, true_or, and_true]
  refine ⟨?_, ?_, ?_, ?_⟩
  · rw [logStep, map_append, h.activities]
    rfl
  · intro e he
    rcases mem_append.1 he with hmem | hlast
    · exact h.ts_eq e hmem
    · rw [mem_singleton.1 hlast]
  · intro e he hfew
    rw [hcount] at hfew ⊢
    rcases mem_append.1 he with hmem | hlast
    · have hlt := h.seq_lt e hmem (by split_ifs at hfew <;> omega)
      split_ifs <;> omega
    · rw [mem_singleton.1 hlast] at hfew ⊢
      rw [if_pos rfl] at hfew ⊢
      dsimp only at hfew ⊢
      exact lt_of_le_of_lt (Nat.mod_le _ _) (by omega)
  · intro pool hfew
    rw [hcount] at hfew
    have hbefore : countIn log pool none ≤ 2 ^ 32 := by omega
    rw [logStep, ofPool_append, map_append, nodup_append]
    refine ⟨h.nodup pool hbefore, ((nodup_singleton _).filter _).map_on ?_, ?_⟩
    · intro e he e' he' _
      rw [mem_singleton.1 (mem_filter.1 he).1, mem_singleton.1 (mem_filter.1 he').1]
    · rintro seq hseq _ hnew rfl
      obtain ⟨e, he, rfl⟩ := List.mem_map.1 hseq
      obtain ⟨e', he', heq⟩ := List.mem_map.1 hnew
      obtain ⟨hlog, rfl⟩ := mem_ofPool.1 he
      obtain ⟨hlast, hpool⟩ := mem_ofPool.1 he'
      obtain rfl := mem_singleton.1 hlast
      -- the number of the new activity is that of the activities of its pool before
      have hlt := h.seq_lt e hlog hbefore
      dsimp only at hpool heq
      rw [if_pos hpool] at hfew
      rw [← heq, hpool, Nat.mod_eq_of_lt (by omega)] at hlt
      exact absurd hlt (Nat.lt_irrefl _)

lemma blockLog_log : BlockLog b.time b.pushes b.log := by
  refine foldl_invariant (P := fun done (log : List Pushed) => BlockLog b.time done log) ?_ ?_
  · exact ⟨rfl, by simp, by simp, fun _ _ => nodup_nil⟩
  · intro done push _ log _ h
    exact h.step push

lemma countIn_log : countIn b.log pool none = b.activitiesOf pool := by
  have hpushes := (blockLog_log b).activities
  rw [ActivityBlock.activitiesOf, ← hpushes, countP_map]
  refine countP_congr fun e _ => ?_
  simp [Pushed.Counts, InGroup]

/-! ## Nothing is lost -/

/-- What a pool's rows should be after some blocks. -/
structure ActivitiesKept (blocks : List ActivityBlock) (store : ActivityStore) (pool : SchemaAlkaneId) :
    Prop where
  /-- Every activity is stored. -/
  stored : ∀ b ∈ blocks, ∀ a, (pool, a) ∈ b.pushes → ∃ ts seq, store.primary.get (pool, ts, seq) = some a
  /-- The entries of each index, for the pool and for each group, correspond to the primary rows. -/
  indexed : ∀ group kind, Set.BijOn
    (fun row : (ℕ × ℕ) × SchemaActivityV1 => indexKey pool group kind row.1.1 row.1.2 row.2)
    {row | store.primary.get (pool, row.1) = some row.2 ∧ InGroup group row.2}
    {k | k.pool = pool ∧ k.group = group ∧ k.kind = kind ∧ store.index.get k = some (k.ts, k.seq)}
  /-- The entries have no other values. -/
  values : ∀ k val, store.index.get k = some val → val = (k.ts, k.seq)
  /-- The counts are the numbers of primary rows. -/
  counted : ∀ group, store.count pool group
    = store.primary.rowSum fun k a => if k.1 = pool ∧ InGroup group a then 1 else 0

/-- The primary keys of a log. -/
def keysOf (log : List Pushed) : List (ℕ × ℕ) := log.map fun e => (e.ts, e.seq)

section
variable {pool : SchemaAlkaneId} {log : List Pushed} {store : ActivityStore}

variable (h : LogInv log store) (hnodup : (keysOf (ofPool pool log)).Nodup)
include h hnodup

lemma LogInv.get_primary (k : ℕ × ℕ) (a : SchemaActivityV1) :
    store.primary.get (pool, k) = some a ↔ ∃ e ∈ log, e.row = ((pool, k), a) := by
  rw [h.primary_eq]
  constructor
  · intro hget
    by_cases hmem : (pool, k) ∈ log.map fun e => (e.pool, e.ts, e.seq)
    · obtain ⟨e, he, heq, hread⟩ := Table.exists_get_putAll_map Pushed.activity hmem
      exact ⟨e, he, Prod.ext heq (Option.some.inj ((hread _).symm.trans hget))⟩
    · cases (Table.get_putAll_map_of_notMem _ Pushed.activity hmem).symm.trans hget
  · rintro ⟨e, he, hrow⟩
    obtain ⟨hkey, rfl⟩ := Prod.mk.inj hrow
    obtain ⟨e', he', hkey', hread⟩ := Table.exists_get_putAll_map (f := fun e => (e.pool, e.ts, e.seq))
      Pushed.activity (List.mem_map.2 ⟨e, he, hkey⟩)
    obtain ⟨hpool, hnum⟩ := Prod.mk.inj hkey
    obtain ⟨hpool', hnum'⟩ := Prod.mk.inj hkey'
    -- a key has one activity
    have heq : e' = e := inj_on_of_nodup_map hnodup (mem_ofPool.2 ⟨he', hpool'⟩)
      (mem_ofPool.2 ⟨he, hpool⟩) (hnum'.trans hnum.symm)
    rw [← heq]
    exact hread _

lemma LogInv.rowSum_primary :
    store.primary.rowSum (fun k a => if k.1 = pool ∧ InGroup group a then 1 else 0)
      = countIn log pool group := by
  rw [h.primary_eq]
  clear h
  induction log using List.reverseRecOn with
  | nil => rfl
  | append_singleton log e ih =>
    have hsplit : keysOf (ofPool pool (log ++ [e])) = keysOf (ofPool pool log) ++ keysOf (ofPool pool [e]) := by
      rw [ofPool_append, keysOf, map_append]
      rfl
    rw [hsplit] at hnodup
    have hput := Table.rowSum_put (fun (k : SchemaAlkaneId × ℕ × ℕ) (a : SchemaActivityV1) =>
      if k.1 = pool ∧ InGroup group a then 1 else 0) (Table.putAll ∅ (log.map Pushed.row))
      (e.pool, e.ts, e.seq) e.activity
    have hconcat : Table.putAll ∅ ((log ++ [e]).map Pushed.row)
        = (Table.putAll ∅ (log.map Pushed.row)).put (e.pool, e.ts, e.seq) e.activity := by
      rw [map_append]
      exact Table.putAll_concat _ _ _
    have hfresh : ((Table.putAll ∅ (log.map Pushed.row)).get (e.pool, e.ts, e.seq)).elim 0
        (fun a => if e.pool = pool ∧ InGroup group a then 1 else 0) = 0 := by
      by_cases hpool : e.pool = pool
      · have hout : (e.pool, e.ts, e.seq) ∉ (log.map Pushed.row).map Prod.fst := by
          intro hmem
          obtain ⟨row, hrow, hkey⟩ := List.mem_map.1 hmem
          obtain ⟨e', he', rfl⟩ := List.mem_map.1 hrow
          obtain ⟨hpool', hnum⟩ := Prod.mk.inj hkey
          have hold : (e.ts, e.seq) ∈ keysOf (ofPool pool log) :=
            List.mem_map.2 ⟨e', mem_ofPool.2 ⟨he', hpool'.trans hpool⟩, hnum⟩
          have hnew : (e.ts, e.seq) ∈ keysOf (ofPool pool [e]) :=
            List.mem_map.2 ⟨e, mem_ofPool.2 ⟨mem_singleton_self e, hpool⟩, rfl⟩
          exact (nodup_append.1 hnodup).2.2 _ hold _ hnew rfl
        rw [Table.get_putAll_of_notMem _ hout]
        rfl
      · simp only [hpool]
        cases (Table.putAll ∅ (log.map Pushed.row)).get (e.pool, e.ts, e.seq) <;> rfl
    rw [hconcat, countIn_append, countIn_singleton, ← ih (nodup_append.1 hnodup).1]
    rw [hfresh] at hput
    exact hput

omit h hnodup in
lemma LogInv.activitiesKept {blocks : List ActivityBlock} (h : LogInv (runLog blocks) store)
    (hnodup : (keysOf (ofPool pool (runLog blocks))).Nodup)
    (hfits : countIn (runLog blocks) pool none ≤ 2 ^ 64 - 1) : ActivitiesKept blocks store pool := by
  have hget := h.get_primary hnodup
  refine ⟨?_, fun group kind => ⟨?_, ?_, ?_⟩, fun k val hval => ((h.index_get k val).1 hval).2, fun group => ?_⟩
  · intro b hb a ha
    rw [← (blockLog_log b).activities] at ha
    obtain ⟨e, he, heq⟩ := List.mem_map.1 ha
    obtain ⟨rfl, rfl⟩ := Prod.mk.inj heq
    exact ⟨e.ts, e.seq, (hget (e.ts, e.seq) e.activity).2 ⟨e, mem_flatMap.2 ⟨b, hb, he⟩, rfl⟩⟩
  · rintro ⟨⟨ts, seq⟩, a⟩ ⟨hrow, hgroup⟩
    obtain ⟨e, he, heq⟩ := (hget (ts, seq) a).1 hrow
    obtain ⟨hkey, rfl⟩ := Prod.mk.inj heq
    obtain ⟨rfl, hnum⟩ := Prod.mk.inj hkey
    obtain ⟨rfl, rfl⟩ := Prod.mk.inj hnum
    exact ⟨rfl, rfl, rfl, (h.index_get _ _).2 ⟨⟨e, he, rfl, hgroup⟩, rfl⟩⟩
  · rintro ⟨⟨ts, seq⟩, a⟩ ⟨hrow, -⟩ ⟨⟨ts', seq'⟩, a'⟩ ⟨hrow', -⟩ heq
    obtain rfl : ts = ts' := congrArg IndexKey.ts heq
    obtain rfl : seq = seq' := congrArg IndexKey.seq heq
    obtain rfl : a = a' := Option.some.inj (hrow.symm.trans hrow')
    rfl
  · rintro k ⟨rfl, rfl, rfl, hindex⟩
    obtain ⟨⟨e, he, hk, hgroup⟩, -⟩ := (h.index_get _ _).1 hindex
    have hpool : k.pool = e.pool := congrArg IndexKey.pool hk
    refine ⟨((e.ts, e.seq), e.activity), ⟨(hget _ _).2 ⟨e, he, ?_⟩, hgroup⟩, ?_⟩
    · rw [Pushed.row, hpool]
    · rw [hpool]
      exact hk.symm
  · have hle : countIn (runLog blocks) pool group ≤ countIn (runLog blocks) pool none := by
      refine countP_mono_left fun e _ hcounts => ?_
      rw [decide_eq_true_eq] at hcounts ⊢
      exact ⟨hcounts.1, .inl rfl⟩
    rw [h.count_eq, h.rowSum_primary group hnodup, min_eq_left (hle.trans hfits)]

end

/-! ## Blocks with different times -/

/-- The condition on a block after others, for a pool with activities in it: no block before has the same
time and activities of the pool, and the sequence numbers and the count do not overflow. -/
def PoolMeets (before : List ActivityBlock) (b : ActivityBlock) : Prop :=
  b.activitiesOf pool ≠ 0 →
    (∀ b' ∈ before, b'.time = b.time → b'.activitiesOf pool = 0) ∧ b.activitiesOf pool ≤ 2 ^ 32 ∧
      (before.map fun b' => b'.activitiesOf pool).sum + b.activitiesOf pool ≤ 2 ^ 64 - 1

lemma countIn_runLog :
    countIn (runLog blocks) pool none = (blocks.map fun b => b.activitiesOf pool).sum := by
  induction blocks using List.reverseRecOn with
  | nil => rfl
  | append_singleton blocks b ih =>
    rw [runLog_concat, countIn_append, ih, countIn_log, map_append]
    simp

lemma nodup_log {pool : SchemaAlkaneId} {b : ActivityBlock} (hfew : b.activitiesOf pool ≤ 2 ^ 32) :
    (keysOf (ofPool pool b.log)).Nodup := by
  rw [← countIn_log] at hfew
  refine List.Nodup.of_map Prod.snd ?_
  rw [keysOf, List.map_map]
  exact (blockLog_log b).nodup pool hfew

lemma nodup_runLog {pool : SchemaAlkaneId} {blocks : List ActivityBlock}
    (hmeets : ∀ before b after, blocks = before ++ b :: after → PoolMeets pool before b) :
    (keysOf (ofPool pool (runLog blocks))).Nodup ∧ countIn (runLog blocks) pool none ≤ 2 ^ 64 - 1 := by
  induction blocks using List.reverseRecOn with
  | nil => exact ⟨nodup_nil, Nat.zero_le _⟩
  | append_singleton blocks b ih =>
    obtain ⟨hnodup, hfits⟩ := ih fun before b' after hsplit =>
      hmeets before b' (after ++ [b]) (by rw [hsplit, append_assoc]; rfl)
    have hb : PoolMeets pool blocks b := hmeets blocks b [] rfl
    have hkeys : keysOf (ofPool pool (runLog (blocks ++ [b])))
        = keysOf (ofPool pool (runLog blocks)) ++ keysOf (ofPool pool b.log) := by
      rw [runLog_concat, ofPool_append, keysOf, map_append]
      rfl
    have hcount : countIn (runLog (blocks ++ [b])) pool none
        = countIn (runLog blocks) pool none + b.activitiesOf pool := by
      rw [runLog_concat, countIn_append, countIn_log]
    rw [hkeys, hcount]
    by_cases hnone : b.activitiesOf pool = 0
    · have hempty : ofPool pool b.log = [] := by
        rw [← length_eq_zero_iff, length_ofPool, countIn_log, hnone]
      rw [hempty, hnone]
      exact ⟨by simpa [keysOf] using hnodup, hfits⟩
    · obtain ⟨hapart, hfew, htotal⟩ := hb hnone
      rw [countIn_runLog]
      refine ⟨nodup_append.2 ⟨hnodup, nodup_log hfew, ?_⟩, htotal⟩
      rintro key hold _ hnew rfl
      obtain ⟨e, he, rfl⟩ := List.mem_map.1 hold
      obtain ⟨e', he', heq⟩ := List.mem_map.1 hnew
      obtain ⟨hlog, hpool⟩ := mem_ofPool.1 he
      obtain ⟨b', hb', hlog'⟩ := mem_flatMap.1 hlog
      -- the block of the old activity has the same time, and so none of the pool
      have htime : b'.time = b.time := by
        rw [← (blockLog_log b').ts_eq e hlog', ← (blockLog_log b).ts_eq e' (mem_ofPool.1 he').1]
        exact (congrArg Prod.fst heq).symm
      have hzero := hapart b' hb' htime
      rw [← countIn_log, ← length_ofPool, length_eq_zero_iff] at hzero
      have hmem : e ∈ ofPool pool b'.log := mem_ofPool.2 ⟨hlog', hpool⟩
      rw [hzero] at hmem
      exact not_mem_nil hmem

/-- In every run whose blocks meet the condition for a pool, no activity of the pool is lost: after every
block, its activities are stored, the indexes correspond to them and the counts are right. -/
theorem activities_kept {pool : SchemaAlkaneId} {blocks done : List ActivityBlock}
    (hmeets : ∀ before b after, blocks = before ++ b :: after → PoolMeets pool before b)
    (hdone : done <+: blocks) : ActivitiesKept done (runActivity done) pool := by
  obtain ⟨rest, rfl⟩ := hdone
  have hdone : ∀ before b after, done = before ++ b :: after → PoolMeets pool before b := by
    intro before b after hsplit
    exact hmeets before b (after ++ rest) (by rw [hsplit, append_assoc]; rfl)
  obtain ⟨hnodup, hfits⟩ := nodup_runLog hdone
  exact (logInv_run done).activitiesKept hnodup hfits

/-- A pool, and a trade of it. -/
def samplePool : SchemaAlkaneId := ⟨2, 7⟩

def sampleTrade (time : ℕ) (base : ℤ) : SchemaActivityV1 where
  timestamp := time
  txid := []
  kind := .tradeSell
  direction := some .baseIn
  baseDelta := base
  quoteDelta := -1
  addressSpk := []
  success := true

/-- A block with one trade. -/
def sampleTradeBlock (time : ℕ) (base : ℤ) : ActivityBlock where
  time := time
  pushes := [(samplePool, sampleTrade time base)]
  hash := ⟨fun l => l, fun _ => .refl _⟩

/-- Two blocks with the same time: the trade of the second is stored over that of the first, and two are
counted. -/
theorem activity_overwritten :
    let blocks := [sampleTradeBlock 100 5, sampleTradeBlock 100 6]
    (runActivity blocks).primary = Table.put ∅ (samplePool, 100, 0) (sampleTrade 100 6) ∧
      (runActivity blocks).count samplePool none = 2 ∧
      ¬ActivitiesKept blocks (runActivity blocks) samplePool := by
  refine ⟨by decide +kernel, by decide +kernel, fun h => ?_⟩
  exact absurd (h.counted none) (by decide +kernel)

/-- Two blocks with different times. -/
theorem activities_kept_trades :
    ActivitiesKept [sampleTradeBlock 100 5, sampleTradeBlock 101 6]
      (runActivity [sampleTradeBlock 100 5, sampleTradeBlock 101 6]) samplePool := by
  refine activities_kept (fun before b after hsplit _ => ?_) prefix_rfl
  rcases before with _ | ⟨first, before⟩
  · obtain ⟨rfl, -⟩ := List.cons.inj hsplit
    decide
  · obtain ⟨rfl, hrest⟩ := List.cons.inj hsplit
    rcases before with _ | ⟨second, before⟩
    · obtain ⟨rfl, -⟩ := List.cons.inj hrest
      decide
    · exact absurd (congrArg List.length hrest) (by simp)

end Espo.Ammdata
