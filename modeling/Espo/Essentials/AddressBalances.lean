import Espo.Essentials.BalanceReorg

/-!
# Address balances equal the unspent outpoints

The run theorem of the balance index: at the end of every run the row of an address and an alkane is
the sum of what the visible unspent outpoints of the address hold.
-/

namespace Espo.Essentials
open Lib TreeDb Espo.Lists List

section Preserves
variable {K V Id H : Type*} {T A : Type} [LinearOrder K] [DecidableEq V] [DecidableEq Id]
  [LinearOrder H] [NodeHash K V Id] [DecidableEq T] [DecidableEq A] {heightOf : H → ℕ}
  {layout : BalanceLayout K V A} {order : HashOrder}
  {ancestry : H → List (BalanceBlock T layout heightOf)} {recorded : T × ℕ → Prop}
  {probe : T → List ℕ} {done : List (BalanceBlock T layout heightOf × (K → Option V))}
  {s : BalanceStore T A heightOf} {b : BalanceBlock T layout heightOf} {t : VersionedTreeDb K V Id H}

omit [DecidableEq V] [NodeHash K V Id] in
/-- The rows of a block that extends the chain: no balance becomes negative, and the new balances are
the old ones with the changes of the block. -/
theorem BalanceInv.balanceRows_eq (h : BalanceInv order ancestry recorded probe done s)
    (hget : ∀ key, t.get key = tipView (commits BalanceBlock.header done) key)
    (hb : Admitted order ancestry recorded (done.map Prod.fst) b) (check : Bool) :
    ∃ rows, balanceRows layout check t
        (order.run ((effectAt order ancestry b.hash).changes.foldl addDelta ∅).entries) = some rows ∧
      ∀ key, (layout.balance (writeAll (tipView (commits BalanceBlock.header done))
          (b.otherRows ++ rows) (layout.key key)) : ℤ)
        = (historyOf order (espoBlocks (done.map Prod.fst ++ [b]))).balance key := by
  have hhist : historyOf order (espoBlocks (done.map Prod.fst ++ [b]))
      = (historyOf order (espoBlocks (done.map Prod.fst))).extend order b.toEspoBlock := by
    rw [espoBlocks, map_append, historyOf, foldl_append]
    rfl
  have hnext : ∀ key, (historyOf order (espoBlocks (done.map Prod.fst ++ [b]))).balance key
      = (historyOf order (espoBlocks (done.map Prod.fst))).balance key
        + net (effectAt order ancestry b.hash).changes key := by
    intro key
    rw [hhist, History.extend, History.balance_snoc, effectAt_of_ancestry hb.ancestry]
  have hcurrent : ∀ key, (layout.balance (t.get (layout.key key)) : ℤ)
      = (historyOf order (espoBlocks (done.map Prod.fst))).balance key := by
    intro key
    have hbalance := h.balances done.length key
    rwa [take_length, ← hget] at hbalance
  have hsat := hb.noSaturation
  rw [← effectAt_of_ancestry hb.ancestry] at hsat
  have hdelta := toInt_foldl_addDelta hsat.delta
  generalize (effectAt order ancestry b.hash).changes.foldl addDelta ∅ = deltas at hdelta
  have hperm := order.perm deltas.entries
  have hnodup : (order.run deltas.entries).NodupKeys :=
    (perm_nodupKeys hperm).2 deltas.nodupKeys
  have hlookup : ∀ key, (order.run deltas.entries).dlookup key = deltas.lookup key :=
    fun key => perm_dlookup key hnodup hperm
  have hentry : ∀ e ∈ order.run deltas.entries,
      e.2.toInt = net (effectAt order ancestry b.hash).changes e.1 := by
    intro e he
    have hmem : deltas.lookup e.1 = some e.2 := AList.mem_lookup_iff.2 (hperm.mem_iff.1 he)
    rw [← hdelta, hmem]
    rfl
  have hinv := h.historyInv.1.extend order (h.once_snoc hb)
  have hbounds : ∀ e ∈ order.run deltas.entries,
      0 ≤ (layout.balance (t.get (layout.key e.1)) : ℤ) + e.2.toInt ∧
        (layout.balance (t.get (layout.key e.1)) : ℤ) + e.2.toInt ≤ u128Max := by
    intro e he
    rw [hentry e he, hcurrent]
    refine ⟨?_, hsat.total e.1⟩
    rw [← hnext, hhist]
    exact hinv.balance_nonneg e.1
  obtain ⟨rows, hrows, hread⟩ := Essentials.balanceRows_eq check hnodup hbounds
  refine ⟨rows, hrows, fun key => ?_⟩
  have hothers : writeAll (tipView (commits BalanceBlock.header done)) b.otherRows (layout.key key)
      = t.get (layout.key key) := by
    rw [writeAll_of_notMem _ _ fun row hrow => b.others row hrow key, hget]
  rw [writeAll_append, hread, hlookup, hnext, ← hcurrent, ← hdelta, hothers]
  cases deltas.lookup key with
  | some delta => rfl
  | none => simp

omit [DecidableEq V] in
/-- Every admitted block is processed, and the invariant holds after it. -/
theorem preserves_balanceInv (order : HashOrder)
    (ancestry : H → List (BalanceBlock T layout heightOf)) (recorded : T × ℕ → Prop)
    (probe : T → List ℕ) (check : Bool) :
    Preserves (balanceProcessor layout order probe check :
        Processor K V Id H (BalanceBlock T layout heightOf) (BalanceStore T A heightOf))
      (fun blocks b => Admitted order ancestry recorded blocks b ∧
        ∀ o ∈ createdOuts b.transactions, recorded o)
      (BalanceInv order ancestry recorded probe) where
  process := by
    intro t done s b h hwork hfresh ⟨hb, hrecorded⟩
    have rows : ChainRows t (commits BalanceBlock.header done) := hwork.chainRows
    have heffect : blockEffect order b.height (prefetch ⟨t, s.blobs, none⟩ s.pointers
          ((s.filterFor probe b.filterReady).map fun f => f.mightContain probe) b.transactions)
          b.transactions = effectAt order ancestry b.hash := by
      rw [effectAt_of_ancestry hb.ancestry]
      exact blockEffect_congr order b.height (h.prefetch_eq rows hb)
    obtain ⟨newRows, hrows, hread⟩ := h.balanceRows_eq (fun key => get_working hwork key) hb check
    have hblobs := h.blobs.commit order (h.committable rows hb) rows (heights_commits done)
      fun o ho => hrecorded o ((h.blockInv hb).created o ho)
    have hcomplete := h.complete_commit rows hb hfresh
    refine ⟨[.batch (b.otherRows ++ newRows)],
      s.commit ⟨t, s.blobs, none⟩ order probe b (effectAt order ancestry b.hash), ?_,
      { h with blobs := hblobs, complete := hcomplete }, ?_⟩
    · simp only [balanceProcessor, heffect, hrows]
    · constructor
      case ancestral =>
        rw [map_append]
        exact h.ancestral.snoc hb.ancestry
      case once =>
        rw [map_append]
        exact hb.once
      case blobs => exact hblobs
      case complete =>
        intro c hc
        rw [map_append, mem_append] at hc
        rcases hc with hold | hlast
        · exact hcomplete c hold
        · rw [mem_singleton.1 hlast]
          exact (h.committable rows hb).complete order rows (heights_commits done)
      case balances =>
        intro n key
        by_cases hn : n ≤ done.length
        · rw [take_append_of_le_length hn]
          exact h.balances n key
        · rw [take_of_length_le (by simp; omega), map_append]
          have htip : ∀ view : K → Option V,
              tipView (commits BalanceBlock.header (done ++ [(b, view)])) = view := by
            simp [tipView, commits]
          rw [htip]
          exact hread key
  rewind := fun n h => h.take n

end Preserves

/-! ## Runs -/

section Run
variable {K V Id H : Type*} {T A : Type} [LinearOrder K] [DecidableEq V] [DecidableEq Id]
  [LinearOrder H] [NodeHash K V Id] [DecidableEq T] [DecidableEq A] {heightOf : H → ℕ}

/-- No blobs. -/
def BalanceStore.empty : BalanceStore T A heightOf := ⟨⟨∅, ∅, ∅⟩, ∅, 0, 0, none⟩

/-- An outpoint that some block of the steps can record. -/
def RecordedIn {layout : BalanceLayout K V A} (steps : List (Step K V H (BalanceBlock T layout heightOf)))
    (o : T × ℕ) : Prop :=
  ∃ b ∈ stepBlocks steps, o ∈ createdOuts b.transactions

omit [LinearOrder K] [DecidableEq V] in
lemma BalanceInv.empty {layout : BalanceLayout K V A} {order : HashOrder}
    {ancestry : H → List (BalanceBlock T layout heightOf)} {recorded : T × ℕ → Prop}
    {probe : T → List ℕ} :
    BalanceInv order ancestry recorded probe [] (BalanceStore.empty : BalanceStore T A heightOf) where
  ancestral n b hb := by simp at hb
  once := ⟨nodup_nil, by simp [espoBlocks, outpointsOf]⟩
  blobs := by constructor <;> simp [BalanceStore.empty]
  complete b hb := by simp at hb
  balances n key := by
    rw [take_nil]
    rfl

/-- What an outpoint contributes to the balance of an address: its amount, if its pointer is visible
and it is not visibly spent. -/
def visibleAmount (p : EssentialsProvider K V Id T heightOf) (pointers : Table ℕ (OutpointPointer T A))
    (key : A × SchemaAlkaneId) (o : T × ℕ) : ℕ :=
  (visibleRow p pointers o).elim 0 (OutpointRow.heldBy key)

/-- Address balances equal the unspent outpoints: no run of admitted blocks makes the index fail, and
on a chain that is not empty the row of every address and alkane is the sum of the amounts over all
outpoints whose pointer is visible at the tip and that are not visibly spent there. -/
theorem addressBalances_eq_unspent (layout : BalanceLayout K V A) (order : HashOrder)
    (probe : T → List ℕ) (check : Bool) (ancestry : H → List (BalanceBlock T layout heightOf))
    (steps : List (Step K V H (BalanceBlock T layout heightOf)))
    (hsteps : Admissible BalanceBlock.header (Admitted order ancestry (RecordedIn steps)) [] [] steps)
    (htip : chainAfter [] steps ≠ []) :
    ∃ (t : VersionedTreeDb K V Id H) (s : BalanceStore T A heightOf),
      (balanceProcessor layout order probe check).run (.new (TreeRows.empty K V Id H)) .empty [] steps
        = some (t, s) ∧
      ∀ key, layout.balance (t.get (layout.key key))
        = ∑ o ∈ s.blobs.outpointPos.keys, visibleAmount ⟨t, s.blobs, none⟩ s.pointers key o := by
  have hP : Preserves (balanceProcessor layout order probe check :
      Processor K V Id H (BalanceBlock T layout heightOf) (BalanceStore T A heightOf)) _
      (BalanceInv order ancestry (RecordedIn steps) probe) := preserves_balanceInv _ _ _ _ _
  have hrecorded : AllBlocks BalanceBlock.header (fun _ _ b =>
      ∀ o ∈ createdOuts b.transactions, RecordedIn steps o) [] [] steps :=
    AllBlocks.of_stepBlocks fun b hb o ho => ⟨b, hb, ho⟩
  have hadm : Admissible BalanceBlock.header (fun blocks b =>
      Admitted order ancestry (RecordedIn steps) blocks b ∧
        ∀ o ∈ createdOuts b.transactions, RecordedIn steps o) [] [] steps :=
    AllBlocks.both hsteps hrecorded fun _ _ _ h h' => ⟨h.1, h.2.1, h.2.2, h'⟩
  obtain ⟨t, s, done, hrun, hdone, ht, h⟩ := Processor.run_fresh hP BalanceInv.empty hadm
  refine ⟨t, s, hrun, fun key => ?_⟩
  have hne : done ≠ [] := by
    rintro rfl
    exact htip hdone.symm
  have hvisible : ∀ o, visibleRow ⟨t, s.blobs, none⟩ s.pointers o
      = (historyOf order (espoBlocks (done.map Prod.fst))).unspent o :=
    fun o => h.visibleRow_eq ht.toChainRows fun hnil => absurd hnil hne
  -- an outpoint that is unspent has a pointer
  have hkeys : ∀ o, ((historyOf order (espoBlocks (done.map Prod.fst))).unspent o).isSome →
      o ∈ s.blobs.outpointPos.keys := by
    intro o ho
    obtain ⟨row, hrow⟩ := Option.isSome_iff_exists.1 ho
    obtain ⟨c, hc, hlookup⟩ := exists_created h.history (History.row_of_unspent hrow).1
    obtain ⟨id, hpos, -⟩ := (h.complete_commits c hc).pos o row hlookup
    exact Table.mem_keys_of_get hpos
  have hrow : t.get (layout.key key) = tipView (commits BalanceBlock.header done) (layout.key key) :=
    rawGetAt_none ht (layout.key key)
  have hbalance := h.balances done.length key
  rw [take_length, h.historyInv.1.balance_eq _ hkeys] at hbalance
  have hcast : (layout.balance (t.get (layout.key key)) : ℤ)
      = ((∑ o ∈ s.blobs.outpointPos.keys,
          visibleAmount ⟨t, s.blobs, none⟩ s.pointers key o : ℕ) : ℤ) := by
    rw [hrow, hbalance, Nat.cast_sum]
    refine Finset.sum_congr rfl fun o _ => ?_
    rw [visibleAmount, hvisible]
    cases (historyOf order (espoBlocks (done.map Prod.fst))).unspent o <;> rfl
  exact_mod_cast hcast

end Run

/-- Iteration in the order of insertion. -/
def insertionOrder : HashOrder := ⟨fun l => l, fun l => List.Perm.refl l⟩

/-- A transaction with one output for an address and an `OP_RETURN` whose protostone routes to the
address: what a trace returns, or else the alkanes of the inputs. -/
def sampleTx {A : Type} (txid : ℕ) (inputs : List (ℕ × ℕ)) (address : A) (returned : ℕ) :
    EspoTransaction ℕ A where
  txid := txid
  inputs := inputs
  outputs := [⟨some address, false⟩, ⟨none, true⟩]
  protostones := [⟨[], some 0, none⟩]
  traces :=
    if returned = 0 then [] else [⟨3, none, some ((∅ : Sheet).put ⟨2, 0⟩ returned), .success⟩]
  outputs_ne_nil := by simp

/-- Block 10 is at height 5, all others are at height 6. -/
def sampleHeight (hash : ℕ) : ℕ := if hash = 10 then 5 else 6

/-- A block that writes no other rows. -/
def sampleBalanceBlock {K V : Type*} {A : Type} {layout : BalanceLayout K V A} (hash parent : ℕ)
    (transactions : List (EspoTransaction ℕ A)) : BalanceBlock ℕ layout sampleHeight where
  height := sampleHeight hash
  transactions := transactions
  hash := hash
  parent := parent
  height_eq := rfl
  otherRows := []
  others := by simp
  filterReady := true

section Witness

/-- Address `a` receives 70 in block 10. -/
def sampleFirst : BalanceBlock ℕ addressBalanceLayout sampleHeight :=
  sampleBalanceBlock 10 0 [sampleTx 100 [] (ascii "a") 70]

/-- Block 11 moves the 70 to `b`. -/
def sampleOrphan : BalanceBlock ℕ addressBalanceLayout sampleHeight :=
  sampleBalanceBlock 11 10 [sampleTx 101 [(100, 0)] (ascii "b") 0]

/-- Block 12 moves them to `c`, and on to `b` in the same block. -/
def sampleSecond : BalanceBlock ℕ addressBalanceLayout sampleHeight :=
  sampleBalanceBlock 12 10 [sampleTx 102 [(100, 0)] (ascii "c") 0, sampleTx 103 [(102, 0)] (ascii "b") 0]

/-- The chain of each block. -/
def sampleAncestry (hash : ℕ) : List (BalanceBlock ℕ addressBalanceLayout sampleHeight) :=
  if hash = 10 then [sampleFirst]
  else if hash = 11 then [sampleFirst, sampleOrphan] else [sampleFirst, sampleSecond]

/-- A block is spent from by two branches, and a block fails after it wrote its blobs. -/
theorem addressBalances_eq_unspent_forked :
    ∃ (t : VersionedTreeDb Bytes Bytes ℕ ℕ) (s : BalanceStore ℕ Bytes sampleHeight),
      (balanceProcessor addressBalanceLayout insertionOrder (fun txid => [txid]) true).run
          (.new (TreeRows.empty Bytes Bytes ℕ ℕ)) .empty []
          [.index sampleFirst, .index sampleOrphan, .rewind 1, .fail sampleOrphan, .index sampleSecond]
        = some (t, s) ∧
      ∀ key, addressBalanceLayout.balance (t.get (addressBalanceLayout.key key))
        = ∑ o ∈ s.blobs.outpointPos.keys, visibleAmount ⟨t, s.blobs, none⟩ s.pointers key o := by
  have hfirst : ∀ recorded, Admitted insertionOrder sampleAncestry recorded [] sampleFirst := fun _ =>
    ⟨rfl, ⟨by decide, by decide⟩, NoSaturation.of_amounts (by decide +kernel),
      fun _ o ho => absurd ho not_mem_nil⟩
  have horphan : ∀ recorded,
      Admitted insertionOrder sampleAncestry recorded [sampleFirst] sampleOrphan := fun _ =>
    ⟨rfl, ⟨by decide, by decide⟩, NoSaturation.of_amounts (by decide +kernel),
      fun hnil => absurd hnil (cons_ne_nil _ _)⟩
  have hsecond : ∀ recorded,
      Admitted insertionOrder sampleAncestry recorded [sampleFirst] sampleSecond := fun _ =>
    ⟨rfl, ⟨by decide, by decide⟩, NoSaturation.of_amounts (by decide +kernel),
      fun hnil => absurd hnil (cons_ne_nil _ _)⟩
  refine addressBalances_eq_unspent addressBalanceLayout insertionOrder (fun txid => [txid]) true
    sampleAncestry _ ?_ (by simp [chainAfter])
  refine ⟨⟨?_, ?_, hfirst _⟩, ⟨?_, ?_, horphan _⟩, ⟨?_, ?_, horphan _⟩, ⟨?_, ?_, hsecond _⟩, trivial⟩
  all_goals
    simp [Consecutive, FreshHash, BalanceBlock.header, sampleFirst, sampleOrphan, sampleSecond,
      sampleBalanceBlock, sampleHeight]

end Witness

/-- Rows of numbers. -/
def numberLayout : BalanceLayout ℕ ℕ ℕ where
  key key := Nat.pair key.1 (Nat.pair key.2.block key.2.tx)
  key_injective a b h := by
    obtain ⟨a, block, tx⟩ := a
    obtain ⟨b, block', tx'⟩ := b
    simp_all [Fin.ext_iff]
  encode n := n
  decode n := some n
  decode_encode n _ := rfl

/-- The balance row of an address at the end of a run under the strict check, and the sum over its
outpoints. -/
def rowAndSum (address : ℕ)
    (steps : List (Step ℕ ℕ ℕ (BalanceBlock ℕ numberLayout sampleHeight))) : Option (ℕ × ℕ) :=
  ((balanceProcessor numberLayout insertionOrder (fun txid => [txid]) true).run
      (.new (TreeRows.empty ℕ ℕ ℕ ℕ)) .empty [] steps).map fun r =>
    (numberLayout.balance (r.1.get (numberLayout.key (address, ⟨2, 0⟩))),
      ∑ o ∈ r.2.blobs.outpointPos.keys,
        visibleAmount ⟨r.1, r.2.blobs, none⟩ r.2.pointers (address, ⟨2, 0⟩) o)

/-- Every block stands on the tip and creates and spends outpoints once. -/
def CreatesOnce (steps : List (Step ℕ ℕ ℕ (BalanceBlock ℕ numberLayout sampleHeight))) : Prop :=
  Admissible BalanceBlock.header (fun blocks b => CreatedAndSpentOnce (espoBlocks (blocks ++ [b]))) [] []
    steps

/-- Two outputs that together hold more than a `u128`. -/
def saturatingRun : List (Step ℕ ℕ ℕ (BalanceBlock ℕ numberLayout sampleHeight)) :=
  [.index (sampleBalanceBlock 10 0 [sampleTx 100 [] 7 u128Max, sampleTx 101 [] 7 u128Max])]

/-- An outpoint of an orphan is spent by the first block of the next chain. -/
def orphanSpendingRun : List (Step ℕ ℕ ℕ (BalanceBlock ℕ numberLayout sampleHeight)) :=
  [.index (sampleBalanceBlock 10 0 [sampleTx 100 [] 7 70]), .rewind 0,
    .index (sampleBalanceBlock 11 0 [sampleTx 101 [(100, 0)] 8 0, sampleTx 102 [] 7 90])]

/-- The row saturates where the sum does not, and the first block of a chain is debited for an
outpoint that its chain does not have. Nothing is clamped at zero in these runs. -/
theorem addressBalances_ne_unspent :
    (CreatesOnce saturatingRun ∧ rowAndSum 7 saturatingRun = some (u128Max, u128Max + u128Max)) ∧
      (CreatesOnce orphanSpendingRun ∧ rowAndSum 7 orphanSpendingRun = some (20, 90)) := by
  refine ⟨⟨?_, by decide +kernel⟩, ?_, by decide +kernel⟩
  · refine ⟨⟨?_, ?_, by decide, by decide⟩, trivial⟩ <;>
      simp [Consecutive, FreshHash]
  · refine ⟨⟨?_, ?_, by decide, by decide⟩, ⟨?_, ?_, by decide, by decide⟩, trivial⟩ <;>
      simp [Consecutive, FreshHash, BalanceBlock.header, sampleBalanceBlock]

end Espo.Essentials
