import Espo.Essentials.Balances

/-!
# The ledger of a chain

What the blocks of a chain do to the outpoints that hold alkanes, without any store: each block finds
the unspent outpoints of the blocks before it. The balance of an address is the sum of the changes of
all blocks; it equals what the unspent outpoints hold for the address, as long as no outpoint is
created or spent twice.
-/

namespace Espo.Essentials
open Lib List Option

/-- The parts of an `EspoBlock` that change balances. -/
structure EspoBlock (T A : Type) where
  height : ℕ
  transactions : List (EspoTransaction T A)

/-- Blocks with what the loop over their transactions collected. -/
abbrev History (T A : Type) := List (EspoBlock T A × BlockAcc T A)

section Defs
variable {T A : Type} [DecidableEq T]

namespace History

/-- The row of an outpoint that the blocks have created. -/
def row (hist : History T A) (o : T × ℕ) : Option (OutpointRow A) :=
  hist.findSome? fun entry => entry.2.ephem.lookup o

/-- Some block has spent the outpoint. -/
def Spent (hist : History T A) (o : T × ℕ) : Prop := ∃ entry ∈ hist, o ∈ entry.2.spent

instance (hist : History T A) (o : T × ℕ) : Decidable (hist.Spent o) :=
  inferInstanceAs (Decidable (∃ entry ∈ hist, o ∈ entry.2.spent))

/-- The row of an outpoint that is unspent. -/
def unspent (hist : History T A) (o : T × ℕ) : Option (OutpointRow A) :=
  if hist.Spent o then none else hist.row o

/-- The sum of all changes. -/
def balance [DecidableEq A] (hist : History T A) (key : A × SchemaAlkaneId) : ℤ :=
  (hist.map fun entry => net entry.2.changes key).sum

/-- What a block finds: its inputs are looked up unless the block itself created them. -/
def lookupFor (hist : History T A) (b : EspoBlock T A) (o : T × ℕ) : Option (OutpointRow A) :=
  if o ∈ createdOuts b.transactions then none else hist.unspent o

/-- The effect of a block on top of others. -/
def effect (hash : HashOrder) (hist : History T A) (b : EspoBlock T A) : BlockAcc T A :=
  blockEffect hash b.height (hist.lookupFor b) b.transactions

/-- Add a block. -/
def extend (hash : HashOrder) (hist : History T A) (b : EspoBlock T A) : History T A :=
  hist ++ [(b, hist.effect hash b)]

end History

/-- The history of a chain. -/
def historyOf (hash : HashOrder) (blocks : List (EspoBlock T A)) : History T A :=
  blocks.foldl (History.extend hash) []

variable (blocks : List (EspoBlock T A))

/-- All outpoints of the blocks. -/
def outpointsOf : List (T × ℕ) :=
  blocks.flatMap fun b => b.transactions.flatMap EspoTransaction.outpoints

/-- All inputs of the blocks. -/
def inputsOf : List (T × ℕ) :=
  blocks.flatMap fun b => allInputs b.transactions

/-- Each outpoint is created once, and spent at most once. -/
structure CreatedAndSpentOnce (blocks : List (EspoBlock T A)) : Prop where
  created : (outpointsOf blocks).Nodup
  spent : ∀ o ∈ outpointsOf blocks, (inputsOf blocks).count o ≤ 1

/-- The balances before a block, and the block's own changes, stay within what a `u128` can hold: no
addition saturates. -/
structure NoSaturation [DecidableEq A] (balance : A × SchemaAlkaneId → ℤ)
    (changes : List ((A × SchemaAlkaneId) × SignedU128)) : Prop where
  delta : ∀ key part, part <+: changes → -(u128Max : ℤ) ≤ net part key ∧ net part key ≤ u128Max
  total : ∀ key, balance key + net changes key ≤ u128Max

end Defs

section Once
variable {T A : Type}

lemma outpointsOf_append (blocks blocks' : List (EspoBlock T A)) :
    outpointsOf (blocks ++ blocks') = outpointsOf blocks ++ outpointsOf blocks' := by
  simp [outpointsOf]

lemma inputsOf_append (blocks blocks' : List (EspoBlock T A)) :
    inputsOf (blocks ++ blocks') = inputsOf blocks ++ inputsOf blocks' := by
  simp [inputsOf]

variable {blocks : List (EspoBlock T A)}

lemma mem_outpointsOf {b : EspoBlock T A} (hb : b ∈ blocks) {o : T × ℕ}
    (ho : o ∈ createdOuts b.transactions) : o ∈ outpointsOf blocks := by
  obtain ⟨tx, htx, -, hout⟩ := mem_createdOuts.1 ho
  exact mem_flatMap.2 ⟨b, hb, mem_flatMap.2 ⟨tx, htx, hout⟩⟩

lemma EspoTransaction.first_mem_outpoints (tx : EspoTransaction T A) :
    (tx.txid, 0) ∈ tx.outpoints := by
  have hpos : 0 < tx.outputs.length := length_pos_of_ne_nil tx.outputs_ne_nil
  exact List.mem_map.2 ⟨0, mem_range.2 hpos, rfl⟩

/-- Blocks whose outpoints are all different have no transaction in common. -/
theorem txid_notMem_of_nodup {b : EspoBlock T A} (h : (outpointsOf (blocks ++ [b])).Nodup)
    {o : T × ℕ} (ho : o ∈ outpointsOf blocks) : o.1 ∉ b.transactions.map EspoTransaction.txid := by
  rw [outpointsOf_append, nodup_append] at h
  intro hmem
  obtain ⟨tx, htx, htxid⟩ := List.mem_map.1 hmem
  obtain ⟨b', hb', hout⟩ := mem_flatMap.1 ho
  obtain ⟨tx', htx', hout'⟩ := mem_flatMap.1 hout
  -- both transactions have an output 0
  have hfirst : (tx'.txid, 0) ∈ outpointsOf blocks :=
    mem_flatMap.2 ⟨b', hb', mem_flatMap.2 ⟨tx', htx', tx'.first_mem_outpoints⟩⟩
  have hfirst' : (tx.txid, 0) ∈ outpointsOf [b] :=
    mem_flatMap.2 ⟨b, mem_singleton.2 rfl,
      mem_flatMap.2 ⟨tx, htx, tx.first_mem_outpoints⟩⟩
  refine h.2.2 _ hfirst _ hfirst' ?_
  rw [htxid, EspoTransaction.txid_of_mem_outpoints hout']

lemma nodup_txids {txs : List (EspoTransaction T A)}
    (h : (txs.flatMap EspoTransaction.outpoints).Nodup) : (txs.map EspoTransaction.txid).Nodup := by
  refine pairwise_map.2 ((nodup_flatMap.1 h).2.imp fun {tx tx'} hdisjoint heq => ?_)
  have hfirst := tx'.first_mem_outpoints
  rw [← heq] at hfirst
  exact hdisjoint tx.first_mem_outpoints hfirst

variable [DecidableEq T]

lemma CreatedAndSpentOnce.of_append {blocks' : List (EspoBlock T A)}
    (h : CreatedAndSpentOnce (blocks ++ blocks')) : CreatedAndSpentOnce blocks where
  created := by
    have hcreated := h.created
    rw [outpointsOf_append, nodup_append] at hcreated
    exact hcreated.1
  spent o ho := by
    have hspent := h.spent o (by rw [outpointsOf_append]; exact mem_append_left _ ho)
    rw [inputsOf_append, count_append] at hspent
    omega

end Once

/-! ## Histories of chains -/

section Invariant
variable {T A : Type} [DecidableEq T] [DecidableEq A] {hash : HashOrder} {hist : History T A}
  {b : EspoBlock T A}

/-- The blocks of a history. -/
def History.blocks (hist : History T A) : List (EspoBlock T A) := hist.map Prod.fst

/-- What holds along a chain that creates and spends every outpoint once. -/
structure HistoryInv (hist : History T A) : Prop where
  created : ∀ entry ∈ hist, ∀ o ∈ entry.2.ephem, o ∈ createdOuts entry.1.transactions
  summarized : ∀ entry ∈ hist, ∀ o ∈ entry.2.ephem, o.1 ∈ entry.2.alkaneTxs
  summaries : ∀ entry ∈ hist, ∀ txid ∈ entry.2.alkaneTxs,
    txid ∈ entry.1.transactions.map EspoTransaction.txid
  balances_ne_nil : ∀ o row, hist.row o = some row → row.balances ≠ []
  spent_created : ∀ o, hist.Spent o → (hist.row o).isSome
  balance_eq : ∀ (keys : Finset (T × ℕ)), (∀ o, (hist.unspent o).isSome → o ∈ keys) → ∀ key,
    hist.balance key = ∑ o ∈ keys, (hist.unspent o).elim 0 fun row => (row.heldBy key : ℤ)

omit [DecidableEq A] in
lemma History.row_eq_some {o : T × ℕ} {row : OutpointRow A} (h : hist.row o = some row) :
    ∃ entry ∈ hist, entry.2.ephem.lookup o = some row :=
  exists_of_findSome?_eq_some h

omit [DecidableEq A] in
lemma History.row_snoc (hist : History T A) (entry : EspoBlock T A × BlockAcc T A) (o : T × ℕ) :
    History.row (hist ++ [entry]) o = (hist.row o).or (entry.2.ephem.lookup o) := by
  simp [row]

omit [DecidableEq T] [DecidableEq A] in
lemma History.spent_snoc (hist : History T A) (entry : EspoBlock T A × BlockAcc T A) (o : T × ℕ) :
    History.Spent (hist ++ [entry]) o ↔ hist.Spent o ∨ o ∈ entry.2.spent := by
  simp [Spent]

omit [DecidableEq T] in
lemma History.balance_snoc (hist : History T A) (entry : EspoBlock T A × BlockAcc T A)
    (key : A × SchemaAlkaneId) :
    History.balance (hist ++ [entry]) key = hist.balance key + net entry.2.changes key := by
  simp [balance]

lemma HistoryInv.mem_outpointsOf (h : HistoryInv hist) {o : T × ℕ} (ho : (hist.row o).isSome) :
    o ∈ outpointsOf hist.blocks := by
  obtain ⟨row, hrow⟩ := isSome_iff_exists.1 ho
  obtain ⟨entry, hentry, hlookup⟩ := History.row_eq_some hrow
  have hmem : o ∈ entry.2.ephem := AList.lookup_isSome.1 (by simp [hlookup])
  exact Essentials.mem_outpointsOf (List.mem_map_of_mem hentry) (h.created entry hentry o hmem)

omit [DecidableEq A] in
lemma History.row_of_unspent {o : T × ℕ} {row : OutpointRow A} (h : hist.unspent o = some row) :
    hist.row o = some row ∧ ¬hist.Spent o := by
  rw [unspent] at h
  split_ifs at h with hspent
  exact ⟨h, hspent⟩

section
variable (h : HistoryInv hist)
include h

lemma HistoryInv.balance_nonneg (key : A × SchemaAlkaneId) : 0 ≤ hist.balance key := by
  have hkeys : ∀ o, (hist.unspent o).isSome → o ∈ (outpointsOf hist.blocks).toFinset := by
    intro o ho
    obtain ⟨row, hrow⟩ := isSome_iff_exists.1 ho
    exact List.mem_toFinset.2 (h.mem_outpointsOf (by simp [(History.row_of_unspent hrow).1]))
  rw [h.balance_eq _ hkeys]
  refine Finset.sum_nonneg fun o _ => ?_
  cases hist.unspent o with
  | none => exact le_rfl
  | some row => exact Int.natCast_nonneg _

variable (hash : HashOrder) (honce : CreatedAndSpentOnce (hist.blocks ++ [b]))
include honce

/-- The transactions of the history are not in a block that creates new outpoints only. -/
theorem HistoryInv.txid_notMem
    {entry : EspoBlock T A × BlockAcc T A} (hentry : entry ∈ hist) {txid : T}
    (htxid : txid ∈ entry.2.alkaneTxs) : txid ∉ b.transactions.map EspoTransaction.txid := by
  obtain ⟨tx, htx, rfl⟩ := List.mem_map.1 (h.summaries entry hentry txid htxid)
  have hfirst : (tx.txid, 0) ∈ outpointsOf hist.blocks :=
    mem_flatMap.2 ⟨entry.1, List.mem_map_of_mem hentry,
      mem_flatMap.2 ⟨tx, htx, tx.first_mem_outpoints⟩⟩
  exact txid_notMem_of_nodup honce.created hfirst

lemma HistoryInv.blockInv :
    BlockInv (hist.lookupFor b) b.transactions (hist.effect hash b) := by
  refine blockEffect_inv hash b.height ⟨nodup_txids ?_, fun o ho => ?_⟩
  · have hcreated := honce.created
    rw [outpointsOf_append, nodup_append] at hcreated
    simpa [outpointsOf] using hcreated.2.1
  · have hmem : o ∈ outpointsOf (hist.blocks ++ [b]) := by
      rcases ho with ho | ho
      · exact Essentials.mem_outpointsOf (mem_append_right _ (mem_singleton.2 rfl)) ho
      · obtain ⟨row, hrow⟩ := isSome_iff_exists.1 ho
        rw [History.lookupFor] at hrow
        split_ifs at hrow
        rw [outpointsOf_append]
        exact mem_append_left _
          (h.mem_outpointsOf (by simp [(History.row_of_unspent hrow).1]))
    have hcount := honce.spent o hmem
    rw [inputsOf_append, count_append] at hcount
    have hlast : inputsOf [b] = allInputs b.transactions := by simp [inputsOf]
    rw [hlast] at hcount
    omega

lemma HistoryInv.row_eq_none {o : T × ℕ}
    (ho : o ∈ createdOuts b.transactions) : hist.row o = none := by
  by_contra hrow
  have hold := h.mem_outpointsOf (isSome_iff_ne_none.2 hrow)
  obtain ⟨tx, htx, -, hout⟩ := mem_createdOuts.1 ho
  exact txid_notMem_of_nodup honce.created hold
    (EspoTransaction.txid_of_mem_outpoints hout ▸ List.mem_map_of_mem htx)

/-- What a block does to one outpoint: what it holds afterwards is what it held, plus what was
created, less what was spent. -/
theorem HistoryInv.unspent_extend (f : OutpointRow A → ℤ) (o : T × ℕ) :
    ((hist.extend hash b).unspent o).elim 0 f
      = (hist.unspent o).elim 0 f + ((hist.effect hash b).ephem.lookup o).elim 0 f
        - ((hist.effect hash b).spent.lookup o).elim 0 fun record => f record.row := by
  have hblock := h.blockInv hash honce
  have hnew : ∀ row, (hist.effect hash b).ephem.lookup o = some row →
      hist.row o = none ∧ hist.unspent o = none := by
    intro row hrow
    have hmem : o ∈ (hist.effect hash b).ephem := AList.lookup_isSome.1 (by simp [hrow])
    have hnone := h.row_eq_none honce (hblock.created o hmem)
    exact ⟨hnone, by rw [History.unspent, hnone, ite_self]⟩
  rw [History.extend, History.unspent, History.row_snoc]
  cases hspent : (hist.effect hash b).spent.lookup o with
  | some record =>
    have hmem : o ∈ (hist.effect hash b).spent := AList.lookup_isSome.1 (by simp [hspent])
    rw [if_pos ((History.spent_snoc _ _ _).2 (.inr hmem))]
    rcases hblock.spent_row o record hspent with hephem | hlookup
    · -- created and spent in the block
      rw [hephem, (hnew _ hephem).2]
      simp
    · -- spent, and created before
      rw [History.lookupFor] at hlookup
      split_ifs at hlookup with hcreated
      have hephem : (hist.effect hash b).ephem.lookup o = none :=
        AList.lookup_eq_none.2 fun hmem => hcreated (hblock.created o hmem)
      rw [hephem, hlookup]
      simp
  | none =>
    have hnotMem : o ∉ (hist.effect hash b).spent := AList.lookup_eq_none.1 hspent
    by_cases hbefore : hist.Spent o
    · -- spent before, so created before
      rw [if_pos ((History.spent_snoc _ _ _).2 (.inl hbefore)), History.unspent, if_pos hbefore]
      cases hephem : (hist.effect hash b).ephem.lookup o with
      | none => simp
      | some row =>
        have hsome := h.spent_created o hbefore
        rw [(hnew row hephem).1] at hsome
        cases hsome
    · rw [if_neg fun hspent' => ((History.spent_snoc _ _ _).1 hspent').elim hbefore hnotMem,
        History.unspent, if_neg hbefore]
      cases hephem : (hist.effect hash b).ephem.lookup o with
      | none => simp
      | some row =>
        rw [(hnew row hephem).1]
        simp

lemma HistoryInv.extend : HistoryInv (hist.extend hash b) := by
  have hblock := h.blockInv hash honce
  constructor
  case created => exact forall_mem_append.2 ⟨h.created, forall_mem_singleton.2 hblock.created⟩
  case summarized =>
    exact forall_mem_append.2 ⟨h.summarized, forall_mem_singleton.2 hblock.summarized⟩
  case summaries =>
    exact forall_mem_append.2 ⟨h.summaries, forall_mem_singleton.2 hblock.summaries⟩
  case balances_ne_nil =>
    intro o row hrow
    rw [History.extend, History.row_snoc, or_eq_some_iff] at hrow
    rcases hrow with hold | ⟨-, hlast⟩
    · exact h.balances_ne_nil o row hold
    · exact hblock.balances_ne_nil o row hlast
  case spent_created =>
    intro o ho
    rw [History.extend, History.row_snoc]
    rcases (History.spent_snoc _ _ _).1 ho with hold | hlast
    · simp [h.spent_created o hold]
    · obtain ⟨record, hrecord⟩ := isSome_iff_exists.1 (AList.lookup_isSome.2 hlast)
      rcases hblock.spent_row o record hrecord with hephem | hlookup
      · have hsome : ((hist.effect hash b).ephem.lookup o).isSome := by rw [hephem]; rfl
        rw [isSome_or, hsome, Bool.or_true]
      · rw [History.lookupFor] at hlookup
        split_ifs at hlookup
        simp [(History.row_of_unspent hlookup).1]
  case balance_eq =>
    intro keys hkeys key
    -- a set that is large enough for all sums
    let wide := keys ∪ (outpointsOf hist.blocks).toFinset
      ∪ (hist.effect hash b).ephem.keys.toFinset ∪ (hist.effect hash b).spent.keys.toFinset
    have hunspent : ∀ o, (hist.unspent o).isSome → o ∈ wide := by
      intro o ho
      obtain ⟨row, hrow⟩ := isSome_iff_exists.1 ho
      have hmem := h.mem_outpointsOf (o := o) (by simp [(History.row_of_unspent hrow).1])
      simp [wide, hmem]
    have hephem : ∀ o ∈ (hist.effect hash b).ephem, o ∈ wide := by
      intro o ho
      have hmem : o ∈ (hist.effect hash b).ephem.keys := ho
      simp [wide, hmem]
    have hspent : ∀ o ∈ (hist.effect hash b).spent, o ∈ wide := by
      intro o ho
      have hmem : o ∈ (hist.effect hash b).spent.keys := ho
      simp [wide, hmem]
    have hwide : ∑ o ∈ keys, ((hist.extend hash b).unspent o).elim 0 (fun row => (row.heldBy key : ℤ))
        = ∑ o ∈ wide, ((hist.extend hash b).unspent o).elim 0 fun row => (row.heldBy key : ℤ) := by
      refine Finset.sum_subset (fun o ho => by simp [wide, ho]) fun o _ ho => ?_
      cases hrow : (hist.extend hash b).unspent o with
      | none => rfl
      | some row => exact absurd (hkeys o (by simp [hrow])) ho
    calc (hist.extend hash b).balance key
        = hist.balance key + net (hist.effect hash b).changes key := History.balance_snoc _ _ _
      _ = ∑ o ∈ wide, (hist.unspent o).elim 0 (fun row => (row.heldBy key : ℤ))
          + (∑ o ∈ wide, ((hist.effect hash b).ephem.lookup o).elim 0 (fun row => (row.heldBy key : ℤ))
            - ∑ o ∈ wide, ((hist.effect hash b).spent.lookup o).elim 0
                fun record => (record.row.heldBy key : ℤ)) := by
        rw [h.balance_eq wide hunspent, hblock.net_eq, entrySum_eq_sum _ _ hephem,
          entrySum_eq_sum _ _ hspent]
      _ = ∑ o ∈ wide, ((hist.extend hash b).unspent o).elim 0 (fun row => (row.heldBy key : ℤ)) := by
        rw [← Finset.sum_sub_distrib, ← Finset.sum_add_distrib]
        refine Finset.sum_congr rfl fun o _ => ?_
        rw [h.unspent_extend hash honce]
        omega
      _ = _ := hwide.symm

end

omit [DecidableEq T] in
/-- Changes whose amounts add up to a `u128`, with those before them, do not saturate. -/
theorem NoSaturation.of_amounts {changes : List ((A × SchemaAlkaneId) × SignedU128)}
    (h : (((hist.flatMap fun entry => entry.2.changes) ++ changes).map fun c => c.2.amount).sum
      ≤ u128Max) : NoSaturation hist.balance changes := by
  have hbound : ∀ (l : List ((A × SchemaAlkaneId) × SignedU128)) (key : A × SchemaAlkaneId),
      -(((l.map fun c => c.2.amount).sum : ℕ) : ℤ) ≤ net l key ∧
        net l key ≤ ((l.map fun c => c.2.amount).sum : ℕ) := by
    intro l key
    induction l with
    | nil => simp [net]
    | cons c l ih =>
      have hc : -(c.2.amount : ℤ) ≤ c.2.toInt ∧ c.2.toInt ≤ c.2.amount := by
        rw [SignedU128.toInt]
        split_ifs <;> omega
      rw [net_cons, map_cons, sum_cons]
      split_ifs <;> omega
  have hnet : ∀ key, hist.balance key = net (hist.flatMap fun entry => entry.2.changes) key := by
    intro key
    clear h
    induction hist with
    | nil => rfl
    | cons entry hist ih =>
      rw [flatMap_cons, net_append, ← ih]
      simp [History.balance]
  rw [map_append, sum_append] at h
  constructor
  case delta =>
    intro key part hpart
    obtain ⟨rest, rfl⟩ := hpart
    have hpart := hbound part key
    rw [map_append, sum_append] at h
    omega
  case total =>
    intro key
    have hbefore := hbound (hist.flatMap fun entry => entry.2.changes) key
    have hchanges := hbound changes key
    rw [hnet]
    omega

/-- The history of a chain that creates and spends every outpoint once. -/
theorem historyOf_inv (hash : HashOrder) {blocks : List (EspoBlock T A)}
    (honce : CreatedAndSpentOnce blocks) :
    HistoryInv (historyOf hash blocks) ∧ (historyOf hash blocks).blocks = blocks := by
  induction blocks using List.reverseRecOn with
  | nil =>
    have hunspent : ∀ o : T × ℕ, (historyOf hash ([] : List (EspoBlock T A))).unspent o = none :=
      fun o => ite_self _
    refine ⟨⟨by simp [historyOf], by simp [historyOf], by simp [historyOf],
      by simp [historyOf, History.row], by simp [historyOf, History.Spent], fun keys _ key => ?_⟩, rfl⟩
    simp only [hunspent, elim_none, Finset.sum_const_zero]
    rfl
  | append_singleton blocks b ih =>
    obtain ⟨hinv, hblocks⟩ := ih honce.of_append
    rw [historyOf, foldl_append]
    refine ⟨hinv.extend hash (hblocks.symm ▸ honce), ?_⟩
    show ((historyOf hash blocks).extend hash b).blocks = blocks ++ [b]
    simp only [History.extend, History.blocks, map_append]
    exact congrArg (· ++ [b]) hblocks

end Invariant

end Espo.Essentials
