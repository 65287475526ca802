import Espo.Mempool.RecentlyConfirmed
import Espo.Mempool.StartPools

/-!
# Replacement in the memory pool

`upsert_memory_entry` stores an entry. The entries that spend one of its outpoints and that it outbids are
removed first. What else conflicts with it stays, and so does what spends an output of a removed entry.
-/

namespace Espo.Mempool
open Lib

/-- `MempoolTxReadiness`. -/
inductive MempoolTxReadiness where
  | metadataOnly
  | hydrated
  | tracePending
  | traceReady
  | light
  deriving DecidableEq

/-- `MempoolTransactionStruct` with what an upsert writes besides. `D` is the data that it passes on:
transactions, protostones, traces, rune flows and addresses. -/
structure MemoryEntry (T D : Type) extends MempoolTransactionStruct T (T × ℕ) where
  txid : T
  firstSeen : ℕ
  tx : Option D
  protostones : List D
  fixedTrace : Option D
  dieselTrace : Option D
  runeIo : Option D
  addresses : List D
  isDieselMint : Bool
  isUgMint : Bool
  templateIndex : Option ℕ
  readiness : MempoolTxReadiness

/-- `InMemoryMempool` and the trace queue. -/
structure InMemoryMempool (T D : Type) where
  txs : Table T (MemoryEntry T D)
  updatedAt : ℕ
  traceQueue : List T

variable {T D : Type}

namespace MemoryEntry
variable (arith : F64.Arith) (entry : MemoryEntry T D)

/-- `derive_readiness`. -/
def deriveReadiness : MempoolTxReadiness :=
  if entry.tx.isNone then .metadataOnly
  else if entry.protostones.isEmpty then .hydrated
  else if entry.dieselTrace.isSome || entry.fixedTrace.isSome then .traceReady
  else .tracePending

/-- An entry that is there takes over from the new one. Is it to be traced? -/
def update (existing : MemoryEntry T D) : MemoryEntry T D × Bool :=
  let vsize := max entry.vsize 1
  let feeSat := if 0 < entry.feeSat ∨ existing.feeSat = 0 then entry.feeSat else existing.feeSat
  let existing := { existing with
    firstSeen := min existing.firstSeen entry.firstSeen
    weight := entry.weight
    vsize
    feeSat
    feeRate := arith.ratio feeSat vsize
    inputs := entry.inputs
    spentOutpoints := if entry.spentOutpoints.isEmpty then existing.spentOutpoints else entry.spentOutpoints
    templateIndex := entry.templateIndex }
  if entry.tx.isSome then
    let existing := { existing with
      tx := entry.tx
      protostones := entry.protostones
      addresses := entry.addresses
      isDieselMint := entry.isDieselMint
      isUgMint := entry.isUgMint
      runeIo := none }
    ({ existing with readiness := existing.deriveReadiness },
      !existing.protostones.isEmpty && !existing.isDieselMint && existing.fixedTrace.isNone)
  else if entry.readiness = .light then
    ({ existing with
      addresses := entry.addresses
      isDieselMint := entry.isDieselMint
      isUgMint := entry.isUgMint
      readiness := .light }, false)
  else (existing, false)

/-- The entry to store. Is it to be traced? -/
def stored : Option (MemoryEntry T D) → MemoryEntry T D × Bool
  | some existing => entry.update arith existing
  | none => (entry, !entry.protostones.isEmpty && !entry.isDieselMint)

/-- The entry spends an output of a transaction. -/
def SpendsFrom (parent : T) : Prop := parent ∈ entry.inputs ∨ ∃ o ∈ entry.spentOutpoints, o.1 = parent

variable (found : Option (MemoryEntry T D))

lemma stored_inputs : (entry.stored arith found).1.inputs = entry.inputs := by
  cases found with
  | none => rfl
  | some existing =>
    unfold stored update
    split_ifs <;> rfl

/-- The outpoints are those of the new entry, or the old ones when it has none. -/
theorem stored_spentOutpoints :
    (entry.stored arith found).1.spentOutpoints = entry.spentOutpoints ∨ entry.spentOutpoints = [] ∧
      ∃ existing, found = some existing ∧
        (entry.stored arith found).1.spentOutpoints = existing.spentOutpoints := by
  cases found with
  | none => exact .inl rfl
  | some existing =>
    unfold stored update
    dsimp only
    by_cases hempty : entry.spentOutpoints.isEmpty
    · refine .inr ⟨List.isEmpty_iff.1 hempty, existing, rfl, ?_⟩
      split_ifs <;> rfl
    · left
      split_ifs <;> rfl

variable {entry} in
lemma stored_eq_of_mem {o : T × ℕ} (ho : o ∈ entry.spentOutpoints) (found : Option (MemoryEntry T D)) :
    (entry.stored arith found).1.spentOutpoints = entry.spentOutpoints := by
  refine (entry.stored_spentOutpoints arith found).resolve_right fun h => ?_
  rw [h.1] at ho
  cases ho

variable [DecidableEq T]

/-- `spends_same_input`. -/
def spendsSameInput (existing : MemoryEntry T D) : Bool :=
  existing.spentOutpoints.any fun o => o ∈ entry.spentOutpoints

/-- Is an entry among the `conflicts`? -/
def evicts (txid : T) (existing : MemoryEntry T D) : Bool :=
  !entry.spentOutpoints.isEmpty && decide (0 < entry.feeSat) && decide (txid ≠ entry.txid) &&
    entry.spendsSameInput existing && decide (existing.feeSat < entry.feeSat) &&
    decide (entry.feeRate.partialCmp existing.feeRate = some .gt)

variable {entry}

lemma spendsSameInput_iff {e : MemoryEntry T D} :
    entry.spendsSameInput e = true ↔ ∃ o ∈ e.spentOutpoints, o ∈ entry.spentOutpoints := by
  simp [spendsSameInput]

lemma of_evicts {t : T} {e : MemoryEntry T D} (h : entry.evicts t e = true) :
    t ≠ entry.txid ∧ ∃ o, o ∈ entry.spentOutpoints := by
  simp only [evicts, Bool.and_eq_true, decide_eq_true_eq, spendsSameInput_iff] at h
  obtain ⟨⟨⟨⟨-, hne⟩, o, -, ho⟩, -⟩, -⟩ := h
  exact ⟨hne, o, ho⟩

end MemoryEntry

variable [DecidableEq T]

/-- `enqueue_trace`. -/
def enqueueTrace (queue : List T) (txid : T) : List T := if txid ∈ queue then queue else queue ++ [txid]

/-- `upsert_memory_entry` at a time. -/
def upsertMemoryEntry (arith : F64.Arith) (recent : RecentlyConfirmed T) (now : ℕ) (state : InMemoryMempool T D)
    (entry : MemoryEntry T D) : InMemoryMempool T D :=
  if recentlyConfirmed recent entry.txid then state
  else
    let stored := entry.stored arith (state.txs.get entry.txid)
    let queue := state.traceQueue.filter fun txid => !(state.txs.get txid).any (entry.evicts txid)
    { txs := (state.txs.filter fun txid existing => !entry.evicts txid existing).put entry.txid stored.1
      updatedAt := now
      traceQueue := if stored.2 then enqueueTrace queue entry.txid else queue }

/-! ## What an upsert leaves -/

open MemoryEntry

section
variable (txs : Table T (MemoryEntry T D))

/-- No outpoint is spent by two entries. -/
def SpentOnce : Prop :=
  ∀ t t' e e' o, txs.get t = some e → txs.get t' = some e' →
    o ∈ e.spentOutpoints → o ∈ e'.spentOutpoints → t = t'

/-- A stored entry spends an output of a transaction. -/
def Spends (t parent : T) : Prop := ∃ e, txs.get t = some e ∧ e.SpendsFrom parent

/-- No entry spends, itself or through other entries, an output of an entry that is gone. -/
def NoneDangling (before after : Table T (MemoryEntry T D)) : Prop :=
  ∀ t parent, Relation.TransGen (Spends after) t parent → (before.get parent).isSome → (after.get parent).isSome

/-- Whatever spends an outpoint of the entry is outbid by it. -/
def Outbids (entry : MemoryEntry T D) : Prop :=
  ∀ t e, txs.get t = some e → t ≠ entry.txid → entry.spendsSameInput e → entry.evicts t e

/-- Whatever spends an output of an entry that goes goes as well. -/
def EvictsChildren (entry : MemoryEntry T D) : Prop :=
  ∀ parent p, txs.get parent = some p → entry.evicts parent p → ¬ entry.SpendsFrom parent ∧
    ∀ t e, txs.get t = some e → t ≠ entry.txid → e.SpendsFrom parent → entry.evicts t e

end

/-- The entries before and after an upsert that is not refused. -/
structure Upserted (arith : F64.Arith) (entry : MemoryEntry T D) (before after : Table T (MemoryEntry T D)) :
    Prop where
  self : after.get entry.txid = some (entry.stored arith (before.get entry.txid)).1
  other : ∀ {t}, t ≠ entry.txid → ∀ e, after.get t = some e ↔ before.get t = some e ∧ entry.evicts t e = false

section
variable {arith : F64.Arith} {entry : MemoryEntry T D} {before after : Table T (MemoryEntry T D)}

lemma upserted_upsertMemoryEntry {recent : RecentlyConfirmed T} (h : recentlyConfirmed recent entry.txid = false)
    (arith : F64.Arith) (now : ℕ) (state : InMemoryMempool T D) :
    Upserted arith entry state.txs (upsertMemoryEntry arith recent now state entry).txs := by
  rw [upsertMemoryEntry, h]
  refine ⟨Table.get_put_self _ _ _, fun hne e => ?_⟩
  refine (Eq.congr_left (Table.get_put_of_ne _ _ hne)).trans ?_
  rw [Table.get_filter, Option.filter_eq_some_iff, Bool.not_eq_true']

variable (h : Upserted arith entry before after)
include h

/-- Entries spend an outpoint twice exactly when one that is not outbid conflicts with the new one. -/
theorem Upserted.spentOnce_iff (honce : SpentOnce before) : SpentOnce after ↔ Outbids before entry := by
  constructor
  · intro hafter t e hget hne hsame
    obtain ⟨o, ho, hnew⟩ := spendsSameInput_iff.1 hsame
    by_contra hkept
    refine hne (hafter t entry.txid e _ o ((h.other hne e).2 ⟨hget, by simpa using hkept⟩) h.self ho ?_)
    rwa [stored_eq_of_mem arith hnew]
  · intro hout
    -- what is kept does not spend what the new entry spends
    have hnew : ∀ t e o, after.get t = some e → o ∈ e.spentOutpoints →
        o ∈ (entry.stored arith (before.get entry.txid)).1.spentOutpoints → t = entry.txid := by
      intro t e o hget ho hstored
      by_contra hne
      obtain ⟨hget, hkept⟩ := (h.other hne e).1 hget
      rcases entry.stored_spentOutpoints arith (before.get entry.txid) with heq | ⟨-, existing, hfound, heq⟩
      · have hevicts := hout t e hget hne (spendsSameInput_iff.2 ⟨o, ho, heq ▸ hstored⟩)
        simp [hkept] at hevicts
      · exact hne (honce t entry.txid e existing o hget hfound ho (heq ▸ hstored))
    intro t t' e e' o hget hget' ho ho'
    by_cases ht : t = entry.txid
    · subst ht
      cases h.self.symm.trans hget
      exact (hnew t' e' o hget' ho' ho).symm
    · by_cases ht' : t' = entry.txid
      · subst ht'
        cases h.self.symm.trans hget'
        exact hnew t e o hget ho ho'
      · exact honce t t' e e' o ((h.other ht e).1 hget).1 ((h.other ht' e').1 hget').1 ho ho'

/-- Something dangles exactly when what spends from a removed entry is not removed. -/
theorem Upserted.noneDangling_iff : NoneDangling before after ↔ EvictsChildren before entry := by
  have hspends : ∀ {parent p}, entry.evicts parent p = true →
      ((entry.stored arith (before.get entry.txid)).1.SpendsFrom parent ↔ entry.SpendsFrom parent) := by
    intro parent p hevicts
    obtain ⟨-, o, ho⟩ := of_evicts hevicts
    rw [SpendsFrom, stored_inputs, stored_eq_of_mem arith ho]
    rfl
  constructor
  · intro hnone parent p hget hevicts
    have hgone : ∀ t, ¬ Spends after t parent := by
      intro t hchild
      obtain ⟨e, he⟩ := Option.isSome_iff_exists.1 (hnone t parent (.single hchild) (by simp [hget]))
      obtain ⟨hget', hkept⟩ := (h.other (of_evicts hevicts).1 e).1 he
      cases hget.symm.trans hget'
      simp [hevicts] at hkept
    refine ⟨fun hchild => hgone entry.txid ⟨_, h.self, (hspends hevicts).2 hchild⟩, fun t e he hne hchild => ?_⟩
    by_contra hkept
    exact hgone t ⟨e, (h.other hne e).2 ⟨he, by simpa using hkept⟩, hchild⟩
  · intro hchildren t parent hchain hbefore
    -- the last link of the chain
    obtain ⟨c, -, e, he, hchild⟩ := Relation.TransGen.tail'_iff.1 hchain
    obtain ⟨p, hp⟩ := Option.isSome_iff_exists.1 hbefore
    by_cases hself : parent = entry.txid
    · simp [hself, h.self]
    · cases hevicts : entry.evicts parent p with
      | false => simp [(h.other hself p).2 ⟨hp, hevicts⟩]
      | true =>
        obtain ⟨hnew, hchildren⟩ := hchildren parent p hp hevicts
        by_cases hc : c = entry.txid
        · subst hc
          cases h.self.symm.trans he
          exact absurd ((hspends hevicts).1 hchild) hnew
        · obtain ⟨he, hkept⟩ := (h.other hc e).1 he
          simp [hchildren c e he hc hchild] at hkept

end

/-- A transaction with a fee that spends outpoints. -/
def payment (txid feeSat : ℕ) (spentOutpoints : List (ℕ × ℕ)) : MemoryEntry ℕ Unit where
  feeSat
  weight := 4
  vsize := 1
  feeRate := ⟨Fin.ofNat _ feeSat⟩
  inputs := spentOutpoints.map Prod.fst
  spentOutpoints
  txid
  firstSeen := 0
  tx := none
  protostones := []
  fixedTrace := none
  dieselTrace := none
  runeIo := none
  addresses := []
  isDieselMint := false
  isUgMint := false
  templateIndex := none
  readiness := .light

/-- A transaction and one that spends its output. -/
def parentAndChild : InMemoryMempool ℕ Unit where
  txs := ((∅ : Table ℕ (MemoryEntry ℕ Unit)).put 1 (payment 1 1 [(0, 0)])).put 2 (payment 2 1 [(1, 0)])
  updatedAt := 0
  traceQueue := []

lemma get_parentAndChild {t : ℕ} {e : MemoryEntry ℕ Unit} (h : parentAndChild.txs.get t = some e) :
    t = 1 ∧ e = payment 1 1 [(0, 0)] ∨ t = 2 ∧ e = payment 2 1 [(1, 0)] := by
  rw [parentAndChild, Table.get_put, Table.get_put] at h
  split_ifs at h with htwo hone <;> cases h
  · exact .inr ⟨htwo, rfl⟩
  · exact .inl ⟨hone, rfl⟩

lemma spentOnce_parentAndChild : SpentOnce parentAndChild.txs := by
  intro t t' e e' o hget hget' ho ho'
  obtain ⟨rfl, rfl⟩ | ⟨rfl, rfl⟩ := get_parentAndChild hget <;>
    obtain ⟨rfl, rfl⟩ | ⟨rfl, rfl⟩ := get_parentAndChild hget' <;> simp_all [payment]

end Espo.Mempool
