import Espo.Essentials.TransferBound

/-!
# The balance changes of a block

`bulk_update_balances_for_block_with_factory_hints` goes through the transactions of a block. An input
that is found, among the outputs created earlier in the block or among those fetched from the store
before, is debited to its address; the outputs that alkanes are routed to are credited to theirs. The
changes of an address are summed up in saturating signed arithmetic and applied to its stored balance
once.
-/

namespace Espo.Essentials
open Lib List

/-! ## Signed amounts -/

/-- `SignedU128`. -/
structure SignedU128 where
  negative : Bool
  amount : ℕ
  deriving DecidableEq

namespace SignedU128

/-- `zero`. -/
def zero : SignedU128 := ⟨false, 0⟩

/-- `from_parts`. -/
def fromParts (negative : Bool) (amount : ℕ) : SignedU128 :=
  if amount = 0 then zero else ⟨negative, amount⟩

variable (amount : ℕ)

/-- `positive`. -/
def ofCredit : SignedU128 := fromParts false amount

/-- `negative`. -/
def ofDebit : SignedU128 := fromParts true amount

variable (s : SignedU128)

/-- `is_zero`. -/
def isZero : Bool := decide (s.amount = 0)

/-- `is_negative`. -/
def isNegative : Bool := decide (0 < s.amount) && s.negative

/-- `add`. -/
def add (a b : SignedU128) : SignedU128 :=
  match a.isNegative, b.isNegative with
  | false, false => fromParts false (saturatingAdd a.amount b.amount)
  | true, true => fromParts true (saturatingAdd a.amount b.amount)
  | false, true =>
    if b.amount ≤ a.amount then fromParts false (a.amount - b.amount)
    else fromParts true (b.amount - a.amount)
  | true, false =>
    if b.amount ≤ a.amount then fromParts true (a.amount - b.amount)
    else fromParts false (b.amount - a.amount)

/-- The number that is meant. -/
def toInt : ℤ := if s.isNegative then -s.amount else s.amount

@[simp]
lemma toInt_zero : zero.toInt = 0 := rfl

@[simp]
lemma toInt_fromParts (negative : Bool) (amount : ℕ) :
    (fromParts negative amount).toInt = if negative then -(amount : ℤ) else amount := by
  by_cases h : amount = 0
  · cases negative <;> simp [fromParts, h]
  · cases negative <;> simp [fromParts, h, toInt, isNegative]

lemma toInt_ofCredit : (ofCredit amount).toInt = amount := by simp [ofCredit]

lemma toInt_ofDebit : (ofDebit amount).toInt = -amount := by simp [ofDebit]

lemma isZero_iff : s.isZero = true ↔ s.toInt = 0 := by
  rw [isZero, toInt, decide_eq_true_eq]
  split_ifs <;> omega

lemma toInt_of_negative {s : SignedU128} (h : s.isNegative = true) : s.toInt = -s.amount := by
  rw [toInt, if_pos h]

lemma toInt_of_nonnegative {s : SignedU128} (h : s.isNegative = false) : s.toInt = s.amount := by
  rw [toInt, h]
  rfl

lemma toInt_add {a b : SignedU128} (hmin : -(u128Max : ℤ) ≤ a.toInt + b.toInt)
    (hmax : a.toInt + b.toInt ≤ u128Max) : (a.add b).toInt = a.toInt + b.toInt := by
  rw [add]
  cases ha : a.isNegative <;> cases hb : b.isNegative
  case false.false =>
    rw [toInt_of_nonnegative ha, toInt_of_nonnegative hb] at hmin hmax ⊢
    rw [toInt_fromParts, saturatingAdd, min_eq_left (by omega)]
    rfl
  case false.true =>
    rw [toInt_of_nonnegative ha, toInt_of_negative hb]
    split_ifs
    · simp only [toInt_fromParts, Bool.false_eq_true, if_false]
      omega
    · simp only [toInt_fromParts, if_true]
      omega
  case true.false =>
    rw [toInt_of_negative ha, toInt_of_nonnegative hb]
    split_ifs
    · simp only [toInt_fromParts, if_true]
      omega
    · simp only [toInt_fromParts, Bool.false_eq_true, if_false]
      omega
  case true.true =>
    rw [toInt_of_negative ha, toInt_of_negative hb] at hmin hmax ⊢
    rw [toInt_fromParts, saturatingAdd, if_pos rfl]
    omega

end SignedU128

/-- `apply_signed_balance_delta_or_panic`; `none` is the panic. -/
def applySignedBalanceDelta (checkNegativeBalances : Bool) (current : ℕ) (delta : SignedU128) :
    Option ℕ :=
  if delta.isNegative then
    if checkNegativeBalances && decide (current < delta.amount) then none
    else some (current - delta.amount)
  else some (saturatingAdd current delta.amount)

lemma applySignedBalanceDelta_eq {current : ℕ} {delta : SignedU128} (check : Bool)
    (hpos : 0 ≤ current + delta.toInt) (hmax : current + delta.toInt ≤ u128Max) :
    ∃ next : ℕ, applySignedBalanceDelta check current delta = some next ∧
      (next : ℤ) = current + delta.toInt := by
  unfold SignedU128.toInt at hpos hmax ⊢
  rw [applySignedBalanceDelta]
  split_ifs at hpos hmax ⊢ with hneg hpanic
  · rw [Bool.and_eq_true, decide_eq_true_eq] at hpanic
    omega
  · exact ⟨current - delta.amount, rfl, by omega⟩
  · refine ⟨current + delta.amount, ?_, by rfl⟩
    rw [saturatingAdd, min_eq_left (by omega)]

/-! ## Transactions -/

/-- A transaction. Inputs are the outpoints they spend. -/
structure EspoTransaction (T A : Type) where
  txid : T
  inputs : List (T × ℕ)
  outputs : List (TxOutput A)
  /-- `parse_protostones`, empty when they are malformed. -/
  protostones : List Protostone
  traces : List TraceNets
  outputs_ne_nil : outputs ≠ []

/-- `tx_has_op_return`. -/
def EspoTransaction.hasOpReturn {T A : Type} (tx : EspoTransaction T A) : Bool :=
  tx.outputs.any TxOutput.opReturn

/-- The outpoints of a transaction. -/
def EspoTransaction.outpoints {T A : Type} (tx : EspoTransaction T A) : List (T × ℕ) :=
  (List.range tx.outputs.length).map fun vout => (tx.txid, vout)

/-- The balances on an outpoint, with its address. -/
structure OutpointRow (A : Type) where
  address : A
  balances : List (SchemaAlkaneId × ℕ)

/-- `SpentOutpointRecord`. -/
structure SpentRecord (T A : Type) where
  row : OutpointRow A
  spentBy : T

/-- What the loop over the transactions collects. -/
structure BlockAcc (T A : Type) where
  /-- Outputs created in the block. -/
  ephem : AList fun _ : T × ℕ => OutpointRow A
  /-- Those of them that were spent in it, with the spender. -/
  consumed : AList fun _ : T × ℕ => T
  /-- All outpoints spent in the block. -/
  spent : AList fun _ : T × ℕ => SpentRecord T A
  /-- The additions to `address_balance_delta`, in order. -/
  changes : List ((A × SchemaAlkaneId) × SignedU128)
  /-- The transactions that get a summary. -/
  alkaneTxs : List T

/-- The order in which a `HashMap` is iterated: some order. -/
structure HashOrder where
  run : {α : Type} → List α → List α
  perm : ∀ {α : Type} (l : List α), (run l).Perm l

section Defs
variable {T A : Type} [DecidableEq T]

/-- Nothing collected. -/
def BlockAcc.empty : BlockAcc T A := ⟨∅, ∅, ∅, [], []⟩

/-- The changes for the balances of an outpoint. -/
def OutpointRow.changes (row : OutpointRow A) (sign : ℕ → SignedU128) :
    List ((A × SchemaAlkaneId) × SignedU128) :=
  row.balances.map fun e => ((row.address, e.1), sign e.2)

/-- Record that an outpoint is spent. -/
def BlockAcc.spend (acc : BlockAcc T A) (o : T × ℕ) (row : OutpointRow A) (spentBy : T) :
    BlockAcc T A :=
  { acc with
    spent := if o ∈ acc.spent then acc.spent else acc.spent.insert o ⟨row, spentBy⟩
    changes := acc.changes ++ row.changes SignedU128.ofDebit }

/-- One input: created in the block, or fetched before, or not found. Rows that are found are
collected. -/
def spendInput (lookup : T × ℕ → Option (OutpointRow A)) (txid : T)
    (st : BlockAcc T A × List (OutpointRow A)) (o : T × ℕ) : BlockAcc T A × List (OutpointRow A) :=
  match st.1.ephem.lookup o with
  | some row =>
    ({ st.1.spend o row txid with consumed := st.1.consumed.insert o txid }, st.2 ++ [row])
  | none =>
    match lookup o with
    | some row => (st.1.spend o row txid, st.2 ++ [row])
    | none => st

/-- Sum up entries by alkane. -/
def combine (entries : List (SchemaAlkaneId × ℕ)) : Sheet :=
  entries.foldl (fun s e => s.add e.1 e.2) ∅

variable (tx : EspoTransaction T A)

/-- The row of an output, if it gets one. -/
def EspoTransaction.outputRow (vout : ℕ) (entries : List (SchemaAlkaneId × ℕ)) :
    Option (OutpointRow A) :=
  if entries.isEmpty then none
  else
    match tx.outputs[vout]? with
    | none => none
    | some output =>
      if output.opReturn then none
      else output.address.map fun address => ⟨address, (combine entries).toList⟩

/-- One allocated output. -/
def createOutput (acc : BlockAcc T A) (alloc : ℕ × List (SchemaAlkaneId × ℕ)) : BlockAcc T A :=
  match tx.outputRow alloc.1 alloc.2 with
  | none => acc
  | some row =>
    { acc with
      ephem := acc.ephem.insert (tx.txid, alloc.1) row
      changes := acc.changes ++ row.changes SignedU128.ofCredit }

/-- The allocations of a transaction: only a transaction with protostones routes alkanes. -/
def EspoTransaction.allocations (blockHeight : ℕ) (found : List (OutpointRow A)) :
    Table ℕ (List (SchemaAlkaneId × ℕ)) :=
  if tx.hasOpReturn && !tx.protostones.isEmpty then
    applyTransfersMulti tx.outputs tx.protostones tx.traces blockHeight
      (combine (found.flatMap OutpointRow.balances))
  else ∅

/-- The entries of the allocations. -/
def allocEntries (allocs : Table ℕ (List (SchemaAlkaneId × ℕ))) :
    List (ℕ × List (SchemaAlkaneId × ℕ)) :=
  (allocs.keys.sort (· ≤ ·)).map fun vout => (vout, (allocs.get vout).getD [])

/-- One transaction. -/
def processTx (hash : HashOrder) (blockHeight : ℕ) (lookup : T × ℕ → Option (OutpointRow A))
    (acc : BlockAcc T A) (tx : EspoTransaction T A) : BlockAcc T A :=
  let inputs := tx.inputs.foldl (spendInput lookup tx.txid) (acc, [])
  let allocs := hash.run (allocEntries (tx.allocations blockHeight inputs.2))
  let acc := allocs.foldl (createOutput tx) inputs.1
  if !inputs.2.isEmpty || !tx.traces.isEmpty then
    { acc with alkaneTxs := acc.alkaneTxs ++ [tx.txid] }
  else acc

/-- The loop over the transactions of a block. -/
def blockEffect (hash : HashOrder) (blockHeight : ℕ) (lookup : T × ℕ → Option (OutpointRow A))
    (txs : List (EspoTransaction T A)) : BlockAcc T A :=
  txs.foldl (processTx hash blockHeight lookup) .empty

variable (txs : List (EspoTransaction T A))

/-- `block_created_outs`: the outpoints of the transactions with an `OP_RETURN`. -/
def createdOuts : List (T × ℕ) :=
  (txs.filter EspoTransaction.hasOpReturn).flatMap EspoTransaction.outpoints

/-- The inputs of all transactions. -/
def allInputs : List (T × ℕ) := txs.flatMap EspoTransaction.inputs

end Defs

/-! ## Sums -/

section Sums
variable {A : Type} [DecidableEq A] (key : A × SchemaAlkaneId)

/-- What an outpoint holds of an alkane for an address. -/
def OutpointRow.heldBy (row : OutpointRow A) : ℕ :=
  if row.address = key.1 then ((row.balances.filter fun e => e.1 = key.2).map Prod.snd).sum else 0

/-- The sum of the changes of an address and an alkane. -/
def net (changes : List ((A × SchemaAlkaneId) × SignedU128)) (key : A × SchemaAlkaneId) : ℤ :=
  ((changes.filter fun c => c.1 = key).map fun c => c.2.toInt).sum

lemma net_append (changes changes' : List ((A × SchemaAlkaneId) × SignedU128))
    (key : A × SchemaAlkaneId) : net (changes ++ changes') key = net changes key + net changes' key := by
  simp [net]

lemma net_cons (c : (A × SchemaAlkaneId) × SignedU128)
    (changes : List ((A × SchemaAlkaneId) × SignedU128)) (key : A × SchemaAlkaneId) :
    net (c :: changes) key = (if c.1 = key then c.2.toInt else 0) + net changes key := by
  by_cases h : c.1 = key <;> simp [h, net]

variable (row : OutpointRow A)

lemma OutpointRow.net_changes {sign : ℕ → SignedU128} (unit : ℤ)
    (hsign : ∀ amount : ℕ, (sign amount).toInt = unit * amount) (key : A × SchemaAlkaneId) :
    net (row.changes sign) key = unit * row.heldBy key := by
  rw [changes, heldBy]
  induction row.balances with
  | nil => simp [net]
  | cons e balances ih =>
    rw [map_cons, net_cons, ih, hsign]
    by_cases haddress : row.address = key.1
    · by_cases halkane : e.1 = key.2
      · simp [haddress, halkane, mul_add]
      · rw [if_neg fun h : (row.address, e.1) = key => halkane (congrArg Prod.snd h)]
        simp [halkane]
    · rw [if_neg fun h : (row.address, e.1) = key => haddress (congrArg Prod.fst h)]
      simp [haddress]

lemma OutpointRow.net_credit : net (row.changes SignedU128.ofCredit) key = row.heldBy key := by
  rw [row.net_changes 1 (fun amount => by simp [SignedU128.toInt_ofCredit]), one_mul]

lemma OutpointRow.net_debit : net (row.changes SignedU128.ofDebit) key = -row.heldBy key := by
  rw [row.net_changes (-1) (fun amount => by simp [SignedU128.toInt_ofDebit]), neg_one_mul]

end Sums

/-! ## The loop -/

lemma combine_toList_ne_nil {entries : List (SchemaAlkaneId × ℕ)} (h : entries ≠ []) :
    (combine entries).toList ≠ [] := by
  -- the last entry added is on the sheet
  obtain ⟨before, e, rfl⟩ := (eq_nil_or_concat entries).resolve_left h
  rw [concat_eq_append]
  have hget : (combine (before ++ [e])).get e.1 ≠ none := by
    rw [combine, foldl_append, foldl_cons, foldl_nil, Sheet.add]
    simp
  have hmem : e.1 ∈ (combine (before ++ [e])).keys := by
    rw [← not_not (a := e.1 ∈ _), Table.notMem_keys]
    exact hget
  intro hnil
  rw [Sheet.toList, map_eq_nil_iff] at hnil
  have hsort := (Finset.mem_sort (· ≤ ·)).2 hmem
  rw [hnil] at hsort
  exact not_mem_nil hsort

section
variable {T A : Type} {tx : EspoTransaction T A} {txs : List (EspoTransaction T A)}
  {alloc : ℕ × List (SchemaAlkaneId × ℕ)}

lemma EspoTransaction.outputRow_eq_some {vout : ℕ} {entries : List (SchemaAlkaneId × ℕ)}
    {row : OutpointRow A} (h : tx.outputRow vout entries = some row) :
    entries ≠ [] ∧ (tx.txid, vout) ∈ tx.outpoints ∧ row.balances ≠ [] := by
  rw [outputRow] at h
  split_ifs at h with hempty
  rw [List.isEmpty_iff] at hempty
  split at h
  · cases h
  rename_i output houtput
  split_ifs at h
  obtain ⟨address, -, rfl⟩ := Option.map_eq_some_iff.1 h
  have hvout : vout < tx.outputs.length := (List.getElem?_eq_some_iff.1 houtput).1
  exact ⟨hempty, List.mem_map.2 ⟨vout, mem_range.2 hvout, rfl⟩, combine_toList_ne_nil hempty⟩

/-- A transaction that allocates something has alkanes on its inputs or traces. -/
theorem EspoTransaction.allocations_eq_nil (htraces : tx.traces = []) (blockHeight : ℕ)
    (h : alloc ∈ allocEntries (tx.allocations blockHeight [])) : alloc.2 = [] := by
  obtain ⟨vout, -, rfl⟩ := List.mem_map.1 h
  rw [allocations]
  split_ifs
  · cases hget : Table.get (applyTransfersMulti tx.outputs tx.protostones tx.traces blockHeight
        (combine (([] : List (OutpointRow A)).flatMap OutpointRow.balances))) vout with
    | none => rfl
    | some entries =>
      rw [htraces] at hget
      exact applyTransfersMulti_nothing _ _ _ _ (fun _ => rfl) hget
  · rfl

lemma EspoTransaction.txid_of_mem_outpoints {o : T × ℕ} (h : o ∈ tx.outpoints) :
    o.1 = tx.txid := by
  obtain ⟨vout, -, rfl⟩ := List.mem_map.1 h
  rfl

lemma EspoTransaction.hasOpReturn_of_alloc {blockHeight : ℕ} {found : List (OutpointRow A)}
    (h : alloc ∈ allocEntries (tx.allocations blockHeight found)) : tx.hasOpReturn = true := by
  rw [allocations] at h
  split_ifs at h with hop
  · exact (Bool.and_eq_true_iff.1 hop).1
  · have hkeys : (∅ : Table ℕ (List (SchemaAlkaneId × ℕ))).keys = ∅ := rfl
    rw [allocEntries, hkeys] at h
    simp at h

lemma nodup_allocEntries (allocs : Table ℕ (List (SchemaAlkaneId × ℕ))) :
    ((allocEntries allocs).map Prod.fst).Nodup := by
  have hfst : (allocEntries allocs).map Prod.fst = allocs.keys.sort (· ≤ ·) := by
    simp [allocEntries, Function.comp_def]
  rw [hfst]
  exact Finset.sort_nodup _ _

lemma mem_createdOuts {o : T × ℕ} :
    o ∈ createdOuts txs ↔ ∃ tx ∈ txs, tx.hasOpReturn = true ∧ o ∈ tx.outpoints := by
  simp [createdOuts, and_assoc]

end

section Loop
variable {T A : Type} [DecidableEq T] [DecidableEq A] {lookup : T × ℕ → Option (OutpointRow A)}

/-- The invariant of the loop after some inputs have been seen. -/
structure LoopInv (lookup : T × ℕ → Option (OutpointRow A)) (seen : List (T × ℕ))
    (acc : BlockAcc T A) : Prop where
  spent_seen : ∀ o ∈ acc.spent, o ∈ seen
  /-- A spent outpoint was created in the block or fetched before. -/
  spent_row : ∀ o record, acc.spent.lookup o = some record →
    acc.ephem.lookup o = some record.row ∨ lookup o = some record.row
  consumed_spent : ∀ o ∈ acc.consumed, o ∈ acc.spent
  balances_ne_nil : ∀ o row, acc.ephem.lookup o = some row → row.balances ≠ []
  net_eq : ∀ key, net acc.changes key
    = entrySum (fun row => (row.heldBy key : ℤ)) acc.ephem
      - entrySum (fun record : SpentRecord T A => (record.row.heldBy key : ℤ)) acc.spent

lemma LoopInv.empty : LoopInv lookup [] (BlockAcc.empty : BlockAcc T A) where
  spent_seen o ho := absurd ho (AList.notMem_empty o)
  spent_row o record h := by simp [BlockAcc.empty] at h
  consumed_spent o ho := absurd ho (AList.notMem_empty o)
  balances_ne_nil o row h := by simp [BlockAcc.empty] at h
  net_eq key := by simp [BlockAcc.empty, net]

variable {seen : List (T × ℕ)} {acc : BlockAcc T A} {tx : EspoTransaction T A}
  {txs : List (EspoTransaction T A)} {alloc : ℕ × List (SchemaAlkaneId × ℕ)}

lemma LoopInv.skip (h : LoopInv lookup seen acc) (o : T × ℕ) : LoopInv lookup (seen ++ [o]) acc :=
  { h with spent_seen := fun o' ho' => mem_append_left _ (h.spent_seen o' ho') }

lemma LoopInv.spend (h : LoopInv lookup seen acc) {o : T × ℕ} (hnew : o ∉ seen)
    {row : OutpointRow A} (hrow : acc.ephem.lookup o = some row ∨ lookup o = some row) (spentBy : T) :
    LoopInv lookup (seen ++ [o]) (acc.spend o row spentBy) := by
  have hspent : o ∉ acc.spent := fun ho => hnew (h.spent_seen o ho)
  have heq : (acc.spend o row spentBy).spent = acc.spent.insert o ⟨row, spentBy⟩ := if_neg hspent
  constructor
  case spent_seen =>
    intro o' ho'
    rw [heq, AList.mem_insert] at ho'
    rcases ho' with rfl | ho'
    · exact mem_append_right _ (mem_singleton.2 rfl)
    · exact mem_append_left _ (h.spent_seen o' ho')
  case spent_row =>
    intro o' record hrecord
    rw [heq] at hrecord
    by_cases ho' : o' = o
    · subst ho'
      rw [AList.lookup_insert] at hrecord
      cases hrecord
      exact hrow
    · rw [AList.lookup_insert_ne ho'] at hrecord
      exact h.spent_row o' record hrecord
  case consumed_spent =>
    intro o' ho'
    rw [heq, AList.mem_insert]
    exact .inr (h.consumed_spent o' ho')
  case balances_ne_nil => exact h.balances_ne_nil
  case net_eq =>
    intro key
    have hnet := h.net_eq key
    have hsum := entrySum_insert (fun record : SpentRecord T A => (record.row.heldBy key : ℤ))
      ⟨row, spentBy⟩ hspent
    rw [heq, hsum, show (acc.spend o row spentBy).changes
        = acc.changes ++ row.changes SignedU128.ofDebit from rfl, net_append, row.net_debit]
    show _ = entrySum _ acc.ephem - ((row.heldBy key : ℤ) + _)
    omega

/-- One input. An outpoint that is found has not been seen before. -/
theorem LoopInv.input {st : BlockAcc T A × List (OutpointRow A)} (h : LoopInv lookup seen st.1)
    {o : T × ℕ} (hnew : o ∈ st.1.ephem ∨ (lookup o).isSome → o ∉ seen) (txid : T) :
    LoopInv lookup (seen ++ [o]) (spendInput lookup txid st o).1 := by
  rw [spendInput]
  cases hephem : st.1.ephem.lookup o with
  | some row =>
    have hmem : o ∈ st.1.ephem := AList.lookup_isSome.1 (by simp [hephem])
    have hspend := h.spend (hnew (.inl hmem)) (.inl hephem) txid
    refine { hspend with consumed_spent := fun o' ho' => ?_ }
    rcases (AList.mem_insert _).1 ho' with rfl | ho'
    · have hspent : o' ∉ st.1.spent := fun ho => hnew (.inl hmem) (h.spent_seen o' ho)
      show o' ∈ (if o' ∈ st.1.spent then _ else _ : AList fun _ : T × ℕ => SpentRecord T A)
      rw [if_neg hspent, AList.mem_insert]
      exact .inl rfl
    · exact hspend.consumed_spent o' ho'
  | none =>
    cases hlookup : lookup o with
    | some row => exact h.spend (hnew (.inr (by simp [hlookup]))) (.inr hlookup) txid
    | none => exact h.skip o

omit [DecidableEq A] in
lemma ephem_spendInput (lookup : T × ℕ → Option (OutpointRow A)) (txid : T) (st : BlockAcc T A × List (OutpointRow A)) (o : T × ℕ) :
    (spendInput lookup txid st o).1.ephem = st.1.ephem ∧
      (spendInput lookup txid st o).1.alkaneTxs = st.1.alkaneTxs := by
  rw [spendInput]
  split
  · exact ⟨rfl, rfl⟩
  · split <;> exact ⟨rfl, rfl⟩

section
variable (h : LoopInv lookup seen acc)
include h

lemma LoopInv.spendInputs (txid : T) (inputs : List (T × ℕ)) (found : List (OutpointRow A))
    (hnew : ∀ o, o ∈ acc.ephem ∨ (lookup o).isSome → (seen ++ inputs).count o ≤ 1) :
    LoopInv lookup (seen ++ inputs) (inputs.foldl (spendInput lookup txid) (acc, found)).1 ∧
      (inputs.foldl (spendInput lookup txid) (acc, found)).1.ephem = acc.ephem ∧
      (inputs.foldl (spendInput lookup txid) (acc, found)).1.alkaneTxs = acc.alkaneTxs := by
  induction inputs generalizing seen acc found with
  | nil =>
    rw [append_nil]
    exact ⟨h, rfl, rfl⟩
  | cons o inputs ih =>
    have hfresh : o ∈ acc.ephem ∨ (lookup o).isSome → o ∉ seen := by
      intro hfound hseen
      have hcount := hnew o hfound
      have hpos := one_le_count_iff.2 hseen
      simp only [count_append, count_cons_self] at hcount
      omega
    obtain ⟨hephem, htxs⟩ := ephem_spendInput lookup txid (acc, found) o
    have hstep : LoopInv lookup (seen ++ [o]) (spendInput lookup txid (acc, found) o).1 :=
      h.input hfresh txid
    have hnext := ih hstep (spendInput lookup txid (acc, found) o).2 (by
      rw [hephem]
      simpa using hnew)
    rw [append_assoc, hephem, htxs] at hnext
    exact hnext

lemma LoopInv.create (tx : EspoTransaction T A) (hnew : (tx.txid, alloc.1) ∉ acc.ephem) :
    LoopInv lookup seen (createOutput tx acc alloc) := by
  rw [createOutput]
  cases hrow : tx.outputRow alloc.1 alloc.2 with
  | none => exact h
  | some row =>
    constructor
    case spent_seen => exact h.spent_seen
    case spent_row =>
      intro o record hrecord
      rcases h.spent_row o record hrecord with hephem | hlookup
      · have hne : o ≠ (tx.txid, alloc.1) := by
          rintro rfl
          rw [AList.lookup_eq_none.2 hnew] at hephem
          cases hephem
        exact .inl ((AList.lookup_insert_ne hne).trans hephem)
      · exact .inr hlookup
    case consumed_spent => exact h.consumed_spent
    case balances_ne_nil =>
      intro o row' hrow'
      by_cases ho : o = (tx.txid, alloc.1)
      · rw [ho, AList.lookup_insert] at hrow'
        cases hrow'
        exact (EspoTransaction.outputRow_eq_some hrow).2.2
      · rw [AList.lookup_insert_ne ho] at hrow'
        exact h.balances_ne_nil o row' hrow'
    case net_eq =>
      intro key
      have hnet := h.net_eq key
      have hsum := entrySum_insert (fun row => (row.heldBy key : ℤ)) row hnew
      show net (acc.changes ++ _) key = entrySum _ (acc.ephem.insert _ row) - entrySum _ acc.spent
      rw [net_append, row.net_credit]
      omega

lemma LoopInv.createOutputs (tx : EspoTransaction T A)
    {allocs : List (ℕ × List (SchemaAlkaneId × ℕ))} (hnodup : (allocs.map Prod.fst).Nodup)
    (hnew : ∀ alloc ∈ allocs, (tx.txid, alloc.1) ∉ acc.ephem) :
    LoopInv lookup seen (allocs.foldl (createOutput tx) acc) ∧
      (allocs.foldl (createOutput tx) acc).alkaneTxs = acc.alkaneTxs ∧
      ∀ o ∈ (allocs.foldl (createOutput tx) acc).ephem, o ∈ acc.ephem ∨
        (o ∈ tx.outpoints ∧ ∃ alloc ∈ allocs, alloc.2 ≠ []) := by
  induction allocs generalizing acc with
  | nil => exact ⟨h, rfl, fun o ho => .inl ho⟩
  | cons alloc allocs ih =>
    rw [map_cons, nodup_cons] at hnodup
    have hmem : ∀ o ∈ (createOutput tx acc alloc).ephem, o ∈ acc.ephem ∨
        (o = (tx.txid, alloc.1) ∧ o ∈ tx.outpoints ∧ alloc.2 ≠ []) := by
      intro o ho
      rw [createOutput] at ho
      cases hrow : tx.outputRow alloc.1 alloc.2 with
      | none =>
        rw [hrow] at ho
        exact .inl ho
      | some row =>
        rw [hrow] at ho
        obtain ⟨hentries, hout, -⟩ := EspoTransaction.outputRow_eq_some hrow
        rcases (AList.mem_insert _).1 ho with rfl | ho
        · exact .inr ⟨rfl, hout, hentries⟩
        · exact .inl ho
    have htxs : (createOutput tx acc alloc).alkaneTxs = acc.alkaneTxs := by
      rw [createOutput]
      split <;> rfl
    obtain ⟨hinv, halkane, hephem⟩ := ih (h.create tx (hnew alloc mem_cons_self)) hnodup.2
      (fun alloc' halloc' ho => by
        rcases hmem _ ho with ho | ⟨heq, -⟩
        · exact hnew alloc' (mem_cons_of_mem _ halloc') ho
        · have hvout : alloc'.1 = alloc.1 := congrArg Prod.snd heq
          exact hnodup.1 (hvout ▸ List.mem_map_of_mem halloc'))
    refine ⟨hinv, halkane.trans htxs, fun o ho => ?_⟩
    rcases hephem o ho with ho | ⟨hout, alloc', halloc', hentries⟩
    · rcases hmem o ho with ho | ⟨-, hout, hentries⟩
      · exact .inl ho
      · exact .inr ⟨hout, alloc, mem_cons_self, hentries⟩
    · exact .inr ⟨hout, alloc', mem_cons_of_mem _ halloc', hentries⟩

end

/-- What the loop leaves behind after some transactions. -/
structure BlockInv (lookup : T × ℕ → Option (OutpointRow A)) (txs : List (EspoTransaction T A))
    (acc : BlockAcc T A) : Prop extends LoopInv lookup (allInputs txs) acc where
  created : ∀ o ∈ acc.ephem, o ∈ createdOuts txs
  summarized : ∀ o ∈ acc.ephem, o.1 ∈ acc.alkaneTxs
  summaries : ∀ txid ∈ acc.alkaneTxs, txid ∈ txs.map EspoTransaction.txid

/-- No transaction is twice in the block, and no outpoint that can be found is spent twice. -/
structure SpendsOnce (lookup : T × ℕ → Option (OutpointRow A)) (txs : List (EspoTransaction T A)) :
    Prop where
  txids : (txs.map EspoTransaction.txid).Nodup
  inputs : ∀ o, o ∈ createdOuts txs ∨ (lookup o).isSome → (allInputs txs).count o ≤ 1

omit [DecidableEq A] in
lemma SpendsOnce.of_snoc (h : SpendsOnce lookup (txs ++ [tx])) : SpendsOnce lookup txs where
  txids := h.txids.sublist (List.Sublist.map _ (sublist_append_left _ _))
  inputs o ho := by
    have hsub : (allInputs txs).count o ≤ (allInputs (txs ++ [tx])).count o := by
      rw [allInputs, allInputs, flatMap_append, count_append]
      omega
    refine hsub.trans (h.inputs o (ho.imp_left fun hmem => ?_))
    rw [createdOuts, filter_append, flatMap_append]
    exact mem_append_left _ hmem

lemma BlockInv.next (h : BlockInv lookup txs acc) (hash : HashOrder) (blockHeight : ℕ)
    (honce : SpendsOnce lookup (txs ++ [tx])) :
    BlockInv lookup (txs ++ [tx]) (processTx hash blockHeight lookup acc tx) := by
  have hinputs : allInputs (txs ++ [tx]) = allInputs txs ++ tx.inputs := by simp [allInputs]
  have hcreated : ∀ o ∈ acc.ephem, o ∈ createdOuts (txs ++ [tx]) := by
    intro o ho
    obtain ⟨tx', htx', hop, hout⟩ := mem_createdOuts.1 (h.created o ho)
    exact mem_createdOuts.2 ⟨tx', mem_append_left _ htx', hop, hout⟩
  have htxid : tx.txid ∉ txs.map EspoTransaction.txid := by
    have hnodup := honce.txids
    rw [map_append, nodup_append] at hnodup
    exact fun hmem => hnodup.2.2 _ hmem _ (mem_singleton.2 rfl) rfl
  have hspend := h.toLoopInv.spendInputs tx.txid tx.inputs [] fun o ho =>
    hinputs ▸ honce.inputs o (ho.imp_left (hcreated o))
  rw [← hinputs] at hspend
  rw [processTx]
  generalize tx.inputs.foldl (spendInput lookup tx.txid) (acc, []) = inputs at hspend
  obtain ⟨hspend, hephem, htxs⟩ := hspend
  have hperm := hash.perm (allocEntries (tx.allocations blockHeight inputs.2))
  have hnodup : ((hash.run (allocEntries (tx.allocations blockHeight inputs.2))).map Prod.fst).Nodup :=
    (hperm.map Prod.fst).nodup_iff.2 (nodup_allocEntries _)
  obtain ⟨hinv, halkane, hnew⟩ := hspend.createOutputs tx hnodup fun alloc _ ho => by
    rw [hephem] at ho
    obtain ⟨tx', htx', -, hout⟩ := mem_createdOuts.1 (h.created _ ho)
    exact htxid (List.mem_map.2 ⟨tx', htx', (EspoTransaction.txid_of_mem_outpoints hout).symm⟩)
  generalize (hash.run (allocEntries (tx.allocations blockHeight inputs.2))).foldl
    (createOutput tx) inputs.1 = acc' at hinv halkane hnew
  rw [htxs] at halkane
  rw [hephem] at hnew
  have hcreated' : ∀ o ∈ acc'.ephem, o ∈ createdOuts (txs ++ [tx]) := by
    intro o ho
    rcases hnew o ho with hold | ⟨hout, alloc, halloc, -⟩
    · exact hcreated o hold
    · exact mem_createdOuts.2 ⟨tx, mem_append_right _ (mem_singleton.2 rfl),
        EspoTransaction.hasOpReturn_of_alloc (hperm.mem_iff.1 halloc), hout⟩
  have hsummaries : ∀ txid ∈ acc'.alkaneTxs, txid ∈ (txs ++ [tx]).map EspoTransaction.txid := by
    intro txid htxid
    rw [map_append]
    exact mem_append_left _ (h.summaries txid (halkane ▸ htxid))
  split_ifs with halkaneTx
  · refine { hinv with
      created := hcreated', summarized := fun o ho => ?_, summaries := fun txid htxid => ?_ }
    · rcases hnew o ho with hold | ⟨hout, -⟩
      · exact mem_append_left _ (halkane ▸ h.summarized o hold)
      · exact mem_append_right _ (mem_singleton.2 (EspoTransaction.txid_of_mem_outpoints hout))
    · rcases mem_append.1 htxid with hold | hlast
      · exact hsummaries txid hold
      · rw [mem_singleton.1 hlast, map_append]
        exact mem_append_right _ (mem_singleton.2 rfl)
  · simp only [Bool.or_eq_true, Bool.not_eq_true', not_or, Bool.not_eq_false, List.isEmpty_iff]
      at halkaneTx
    refine { hinv with
      created := hcreated', summarized := fun o ho => ?_, summaries := hsummaries }
    rcases hnew o ho with hold | ⟨-, alloc, halloc, hentries⟩
    · exact halkane ▸ h.summarized o hold
    · have hmem := hperm.mem_iff.1 halloc
      rw [halkaneTx.1] at hmem
      exact absurd (EspoTransaction.allocations_eq_nil halkaneTx.2 blockHeight hmem) hentries

lemma blockEffect_inv (hash : HashOrder) (blockHeight : ℕ) (h : SpendsOnce lookup txs) :
    BlockInv lookup txs (blockEffect hash blockHeight lookup txs) := by
  induction txs using List.reverseRecOn with
  | nil =>
    exact { LoopInv.empty with
      created := fun o ho => absurd ho (AList.notMem_empty o)
      summarized := fun o ho => absurd ho (AList.notMem_empty o)
      summaries := fun txid htxid => absurd htxid not_mem_nil }
  | append_singleton txs tx ih =>
    rw [blockEffect, foldl_append]
    exact (ih h.of_snoc).next hash blockHeight h

end Loop

end Espo.Essentials
