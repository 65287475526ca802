import Espo.Essentials.TraceDeltas

/-!
# Traces conserve tokens

The sum of the deltas of a token over all owners changes with every change by its amount, as long as
no addition saturates. A call below a normal frame debits one owner what it credits another, so it
leaves the sum as it is; only the root's own transfers, which come from outside and go there, count.
-/

namespace Espo.Essentials
open Lib Alkanes List

/-! ## No overflow -/

/-- A sum that a `SignedU128` holds. -/
def fits (x : ℤ) : Bool := decide (-(u128Max : ℤ) ≤ x ∧ x ≤ u128Max)

/-- No addition of a list of changes saturates. -/
def exactChanges : AlkaneDelta → List DeltaChange → Bool
  | _, [] => true
  | d, c :: cs => fits ((gain d c.1).toInt + c.2.toInt) && exactChanges (addSigned d c) cs

/-- No addition of `transfers_to_sheet` saturates. -/
def exactSheet : Sheet → List TraceTransfer → Bool
  | _, [] => true
  | m, t :: ts =>
    (t.parse.all fun e => decide (m.amount e.1 + e.2 ≤ u128Max)) && exactSheet (addTransfer m t) ts

/-- No addition saturates when a frame without a normal parent returns. -/
def exactRoot (owner : SchemaAlkaneId) : AlkaneDelta → List (SchemaAlkaneId × ℕ) → Bool
  | _, [] => true
  | d, e :: es =>
    exactChanges d (rootChanges owner d e) &&
      exactRoot owner ((rootChanges owner d e).foldl addSigned d) es

/-- No addition saturates when a frame settles. -/
def DeltaFrame.exactSettle (frame : DeltaFrame) (outgoing : Sheet) : Bool :=
  match frame.parentNormal with
  | some _ => exactChanges frame.deltas (frame.changes outgoing)
  | none =>
    let incoming := sheetChanges none (some frame.owner) frame.incoming
    exactChanges frame.deltas incoming &&
      exactRoot frame.owner (incoming.foldl addSigned frame.deltas) outgoing.toList

namespace DeltaWalk

/-- The deltas that the top frame is merged into. -/
def below (w : DeltaWalk) (stack : List DeltaFrame) : AlkaneDelta :=
  match stack with
  | [] => w.outflows
  | parent :: _ => parent.deltas

/-- No addition of a step saturates. -/
def exactStep (w : DeltaWalk) : TraceEvent → Bool
  | .opening inv => decide (inv.kind = .static) || exactSheet ∅ inv.incomingAlkanes
  | .closing ret =>
    match w.stack with
    | [] => true
    | frame :: stack =>
      if ret.status = .failure ∨ frame.kind = .static then true
      else
        let outgoing := transfersToSheet ret.alkanes
        exactSheet ∅ ret.alkanes && frame.exactSettle outgoing &&
          exactChanges (w.below stack) (asChanges (frame.settle w.rootDebits outgoing).1)
  | .leaf _ => true

/-- No addition of a run saturates. -/
def exactRun : DeltaWalk → List TraceEvent → Bool
  | _, [] => true
  | w, ev :: evs => w.exactStep ev && exactRun (w.step ev) evs

lemma exactRun_cons {w : DeltaWalk} {ev : TraceEvent} {evs : List TraceEvent}
    (h : exactRun w (ev :: evs)) : w.exactStep ev ∧ exactRun (w.step ev) evs :=
  Bool.and_eq_true_iff.1 h

lemma exactRun_append {w : DeltaWalk} {evs evs' : List TraceEvent} (h : exactRun w (evs ++ evs')) :
    exactRun w evs ∧ exactRun (evs.foldl step w) evs' := by
  induction evs generalizing w with
  | nil => exact ⟨rfl, h⟩
  | cons ev evs ih =>
    obtain ⟨hstep, hrest⟩ := exactRun_cons h
    obtain ⟨hleft, hright⟩ := ih hrest
    exact ⟨Bool.and_eq_true_iff.2 ⟨hstep, hleft⟩, hright⟩

end DeltaWalk

/-! ## Sums over owners -/

section Total
variable (token : SchemaAlkaneId)

/-- The sum of the deltas of a token over all owners. -/
def totalOf (d : AlkaneDelta) : ℤ := keyedSum (fun key delta => if key.2 = token then delta.toInt else 0) d

/-- The sum of changes of a token. -/
def changesTotal (changes : List DeltaChange) : ℤ :=
  (changes.map fun c => if c.1.2 = token then c.2.toInt else 0).sum

lemma changesTotal_append (changes changes' : List DeltaChange) :
    changesTotal token (changes ++ changes') = changesTotal token changes + changesTotal token changes' := by
  simp [changesTotal]

lemma changesTotal_asChanges (d : AlkaneDelta) : changesTotal token (asChanges d) = totalOf token d := by
  rw [changesTotal, asChanges, List.map_map, totalOf]
  rfl

variable {d : AlkaneDelta} {frame : DeltaFrame} {calls : CallForest}

lemma totalOf_addSigned {c : DeltaChange} (h : fits ((gain d c.1).toInt + c.2.toInt)) :
    totalOf token (addSigned d c) = totalOf token d + if c.1.2 = token then c.2.toInt else 0 := by
  obtain ⟨hmin, hmax⟩ := of_decide_eq_true h
  have hadd := SignedU128.toInt_add hmin hmax
  -- the entry of the key, apart from the others
  have hsplit : totalOf token d = (if c.1.2 = token then (gain d c.1).toInt else 0)
      + totalOf token (d.erase c.1) := by
    rw [totalOf, keyedSum_erase _ d c.1, gain]
    cases d.lookup c.1 <;> simp [totalOf]
  rw [addSigned]
  by_cases hzero : c.2.isZero = true
  · rw [if_pos hzero, (SignedU128.isZero_iff _).1 hzero, ite_self, add_zero]
  · rw [addDelta, hsplit]
    unfold gain at hadd ⊢
    split_ifs with hslot htoken htoken
    · have hslot' := (SignedU128.isZero_iff _).1 hslot
      omega
    · omega
    · rw [totalOf, keyedSum_insert, if_pos htoken, totalOf]
      omega
    · rw [totalOf, keyedSum_insert, if_neg htoken, totalOf]
      omega

lemma totalOf_foldl {changes : List DeltaChange} (h : exactChanges d changes) :
    totalOf token (changes.foldl addSigned d) = totalOf token d + changesTotal token changes := by
  induction changes generalizing d with
  | nil => simp [changesTotal]
  | cons c changes ih =>
    obtain ⟨hfits, hrest⟩ := Bool.and_eq_true_iff.1 h
    rw [foldl_cons, ih hrest, totalOf_addSigned token hfits, changesTotal, changesTotal,
      map_cons, sum_cons]
    omega

lemma totalOf_mergeDeltas {child : AlkaneDelta} (h : exactChanges d (asChanges child)) :
    totalOf token (mergeDeltas d child) = totalOf token d + totalOf token child := by
  rw [mergeDeltas, totalOf_foldl token h, changesTotal_asChanges]

/-! ## Transfers -/

lemma changesTotal_transfer (source target id : SchemaAlkaneId) (amount : ℕ) :
    changesTotal token (transferChanges (some source) (some target) id amount) = 0 := by
  rw [transferChanges]
  split_ifs
  · rfl
  · by_cases hid : id = token <;> simp [changesTotal, hid, SignedU128.toInt_ofDebit, SignedU128.toInt_ofCredit]

lemma changesTotal_sheet (source target : SchemaAlkaneId) (sheet : Sheet) :
    changesTotal token (sheetChanges (some source) (some target) sheet) = 0 := by
  rw [sheetChanges]
  induction sheet.toList with
  | nil => rfl
  | cons e es ih => rw [flatMap_cons, changesTotal_append, ih, changesTotal_transfer, add_zero]

lemma changesTotal_incoming (target : SchemaAlkaneId) (sheet : Sheet) :
    changesTotal token (sheetChanges none (some target) sheet) = sheet.amount token := by
  rw [← Sheet.sum_toList (fun n => (n : ℤ)) rfl sheet token, sheetChanges]
  induction sheet.toList with
  | nil => rfl
  | cons e es ih =>
    have hone : changesTotal token (transferChanges none (some target) e.1 e.2)
        = if e.1 = token then (e.2 : ℤ) else 0 := by
      rw [transferChanges]
      split_ifs with hzero htoken htoken <;> simp_all [changesTotal, SignedU128.toInt_ofCredit]
    rw [flatMap_cons, changesTotal_append, ih, map_cons, sum_cons, hone]

variable {owner : SchemaAlkaneId}

lemma changesTotal_rootChanges (htoken : token ≠ owner) (d : AlkaneDelta) (e : SchemaAlkaneId × ℕ) :
    changesTotal token (rootChanges owner d e) = if e.1 = token then -(e.2 : ℤ) else 0 := by
  have hle : canceled d (owner, e.1) e.2 ≤ e.2 := min_le_right _ _
  rw [rootChanges]
  generalize canceled d (owner, e.1) e.2 = amount at hle
  by_cases hid : e.1 = token
  · have howner : e.1 ≠ owner := hid ▸ htoken
    simp only [howner, ne_eq, not_false_eq_true, and_true, changesTotal]
    split_ifs <;> simp [SignedU128.toInt_ofDebit, hid] <;> omega
  · split_ifs <;> simp [changesTotal, hid]

lemma totalOf_rootReturn (htoken : token ≠ owner) {outgoing : List (SchemaAlkaneId × ℕ)}
    {st : AlkaneDelta × RootDebits} (h : exactRoot owner st.1 outgoing) :
    totalOf token (outgoing.foldl (rootReturn owner) st).1
      = totalOf token st.1 - (outgoing.map fun e => if e.1 = token then (e.2 : ℤ) else 0).sum := by
  induction outgoing generalizing st with
  | nil => simp
  | cons e es ih =>
    obtain ⟨hone, hrest⟩ := Bool.and_eq_true_iff.1 h
    have hstep : (rootReturn owner st e).1 = (rootChanges owner st.1 e).foldl addSigned st.1 := rfl
    rw [foldl_cons, ih (by exact hrest), hstep, totalOf_foldl token hone,
      changesTotal_rootChanges token htoken, map_cons, sum_cons]
    split_ifs <;> omega

lemma totalOf_settle_root {outgoing : Sheet} (hparent : frame.parentNormal = none)
    (htoken : token ≠ frame.owner) (debits : RootDebits) (h : frame.exactSettle outgoing) :
    totalOf token (frame.settle debits outgoing).1
      = totalOf token frame.deltas + frame.incoming.amount token - outgoing.amount token := by
  rw [DeltaFrame.exactSettle, hparent] at h
  obtain ⟨hincoming, hreturn⟩ := Bool.and_eq_true_iff.1 h
  have hcredited := totalOf_foldl token hincoming
  rw [changesTotal_incoming] at hcredited
  have hsettled := @totalOf_rootReturn token _ htoken _ (_, debits) hreturn
  rw [Sheet.sum_toList (fun n => (n : ℤ)) rfl, hcredited] at hsettled
  rw [DeltaFrame.settle, hparent]
  exact hsettled

/-! ## Calls -/

/-- The amount of a token in a list of transfers. -/
def transferred (transfers : List TraceTransfer) : ℕ :=
  (((transfers.filterMap TraceTransfer.parse).filter fun e => e.1 = token).map Prod.snd).sum

lemma amount_addTransfer {m : Sheet} {t : TraceTransfer}
    (h : t.parse.all fun e => decide (m.amount e.1 + e.2 ≤ u128Max)) :
    (addTransfer m t).amount token = m.amount token + transferred token [t] := by
  rw [addTransfer, transferred, filterMap_cons]
  rcases hparse : t.parse with _ | ⟨id, value⟩
  · rfl
  · rw [hparse] at h
    have hfits : m.amount id + value ≤ u128Max := of_decide_eq_true h
    dsimp only
    by_cases hzero : value = 0
    · rw [filter_cons]
      split_ifs <;> simp [hzero]
    · rw [if_neg hzero, Sheet.add, Sheet.amount, Table.get_put, saturatingAdd, min_eq_left hfits]
      by_cases hid : token = id
      · simp [hid]
      · simp [hid, Ne.symm hid, Sheet.amount]

lemma amount_transfersToSheet {transfers : List TraceTransfer} (h : exactSheet ∅ transfers) :
    (transfersToSheet transfers).amount token = transferred token transfers := by
  have hloop : ∀ (ts : List TraceTransfer) (m : Sheet), exactSheet m ts →
      Sheet.amount (ts.foldl addTransfer m) token = m.amount token + transferred token ts := by
    intro ts
    induction ts with
    | nil => intro m _; rfl
    | cons t ts ih =>
      intro m hexact
      obtain ⟨hfits, hrest⟩ := Bool.and_eq_true_iff.1 hexact
      have hcons : transferred token (t :: ts) = transferred token [t] + transferred token ts := by
        rw [← singleton_append, transferred, filterMap_append, filter_append,
          map_append, sum_append]
        rfl
      rw [foldl_cons, ih _ hrest, amount_addTransfer token hfits, hcons, add_assoc]
  rw [transfersToSheet, hloop transfers ∅ h, Sheet.amount]
  exact Nat.zero_add _

lemma totalOf_returned {w : DeltaWalk} {stack : List DeltaFrame} {parent : SchemaAlkaneId}
    {inv : InvokeData} {ret : ReturnData} {inner : AlkaneDelta}
    (h : DeltaWalk.exactStep { w with stack := calledFrame parent inv owner inner :: frame :: stack } (.closing ret))
    (hinner : totalOf token inner = 0) :
    totalOf token (returned parent inv owner ret inner frame.deltas) = totalOf token frame.deltas := by
  rw [returned]
  cases hdead : inv.dead ret with
  | true => rfl
  | false =>
    have hwhy : ¬(ret.status = .failure ∨ inv.kind = .static) := by
      simpa [InvokeData.dead] using hdead
    rw [DeltaWalk.exactStep] at h
    dsimp only at h
    have hkind : (calledFrame parent inv owner inner).kind = inv.kind := rfl
    rw [hkind, if_neg hwhy] at h
    obtain ⟨hsettle, hmerge⟩ := Bool.and_eq_true_iff.1 h
    have hmerge' : exactChanges frame.deltas (asChanges (((calledFrame parent inv owner inner).changes
        (transfersToSheet ret.alkanes)).foldl addSigned inner)) := hmerge
    have hchanges : exactChanges inner ((calledFrame parent inv owner inner).changes
        (transfersToSheet ret.alkanes)) := (Bool.and_eq_true_iff.1 hsettle).2
    have hzero : changesTotal token ((calledFrame parent inv owner inner).changes
        (transfersToSheet ret.alkanes)) = 0 := by
      rw [DeltaFrame.changes, changesTotal_append]
      exact (congrArg₂ (· + ·) (changesTotal_sheet token parent owner _)
        (changesTotal_sheet token owner parent _)).trans (add_zero 0)
    refine (totalOf_mergeDeltas token hmerge').trans ?_
    rw [totalOf_foldl token hchanges, hinner, hzero, add_zero, add_zero]

lemma totalOf_absorb (hids : IdsParse calls) :
    ∀ {w : DeltaWalk} {frame : DeltaFrame} {stack : List DeltaFrame} {parent : SchemaAlkaneId},
      w.stack = frame :: stack → nearestNormalOwner (frame :: stack) = some parent →
      DeltaWalk.exactRun w calls.flatten →
      totalOf token (absorb parent calls frame.deltas) = totalOf token frame.deltas := by
  induction calls with
  | nil => intro w frame stack parent _ _ _; rfl
  | leaf id rest ih =>
    intro w frame stack parent hstack hparent hexact
    exact ih hids hstack hparent (DeltaWalk.exactRun_cons hexact).2
  | node inv body ret rest ihBody ihRest =>
    intro w frame stack parent hstack hparent hexact
    obtain ⟨hinv, hbody, hrest⟩ := hids
    obtain ⟨owner, howner⟩ := Option.isSome_iff_exists.1 hinv
    have hcalled := DeltaWalk.nearestNormalOwner_called hparent inv owner ∅
    obtain ⟨-, hexact⟩ := DeltaWalk.exactRun_cons hexact
    rw [DeltaWalk.step_invoke hstack hparent howner] at hexact
    obtain ⟨hexactBody, hexact⟩ := DeltaWalk.exactRun_append hexact
    rw [DeltaWalk.run_calls hbody rfl hcalled] at hexact
    obtain ⟨hexactRet, hexactRest⟩ := DeltaWalk.exactRun_cons hexact
    have hinner : totalOf token (absorb (normalOwner parent inv owner) body ∅) = 0 :=
      ihBody hbody rfl hcalled hexactBody
    have hreturned := totalOf_returned token (w := w) hexactRet hinner
    have hstep := DeltaWalk.step_return w frame stack parent inv owner ret
      (absorb (normalOwner parent inv owner) body ∅)
    have hnext : ∀ d, DeltaWalk.exactRun { w with stack := { frame with deltas := d } :: stack }
        rest.flatten → totalOf token (absorb parent rest d) = totalOf token d := by
      intro d h
      exact ihRest hrest rfl ((DeltaWalk.nearestNormalOwner_deltas frame stack d).trans hparent) h
    rw [absorb, howner, ← hreturned]
    exact hnext _ (hstep ▸ hexactRest)

lemma DeltaWalk.exactRun_root {inv : InvokeData} {ret : ReturnData} (hids : IdsParse calls)
    (hroot : calls.roots = [(inv, ret)]) (hkind : inv.kind = .normal)
    (howner : parseShortId inv.myself = some owner) (h : exactRun init calls.flatten) :
    exactSheet ∅ inv.incomingAlkanes ∧
      exactRun { init with stack := [rootFrame inv owner ∅] } (Nest.flatten calls.body) ∧
      exactStep { init with stack := [rootFrame inv owner (absorb owner calls.body ∅)] }
        (.closing ret) := by
  induction calls with
  | nil => simp [Nest.roots] at hroot
  | leaf id rest ih => exact ih hids hroot (exactRun_cons h).2
  | node inv' body ret' rest ihBody ihRest =>
    obtain ⟨hends, -⟩ := List.cons.inj hroot
    obtain ⟨rfl, rfl⟩ := Prod.mk.inj hends
    obtain ⟨hsheet, hexact⟩ := exactRun_cons h
    rw [step_invoke_root hkind howner] at hexact
    obtain ⟨hbody, hexact⟩ := exactRun_append hexact
    have hparent : nearestNormalOwner [rootFrame inv' owner ∅] = some owner := rfl
    rw [run_calls hids.2.1 rfl hparent] at hexact
    have hsheet' : exactSheet ∅ inv'.incomingAlkanes := by
      simpa [exactStep, hkind] using hsheet
    exact ⟨hsheet', hbody, (exactRun_cons hexact).1⟩

/-- Trace accounting conserves tokens: over all owners, the deltas of a token that is not the root's
own sum up to what the root got less what it returned. -/
theorem totalOf_accumulateAlkaneBalanceDeltas (bitcoin : BitcoinDecode) (host : HostFunctionValues)
    {trace : Trace} {calls : CallForest} {inv : InvokeData} {ret : ReturnData}
    {owner : SchemaAlkaneId} (hcalls : trace.events = calls.flatten) (hids : IdsParse calls)
    (hroot : calls.roots = [(inv, ret)]) (hkind : inv.kind = .normal) (hret : ret.status = .success)
    (howner : parseShortId inv.myself = some owner)
    (hexact : DeltaWalk.exactRun .init trace.events) (htoken : token ≠ owner) :
    (accumulateAlkaneBalanceDeltas bitcoin host trace).1 = true ∧
      totalOf token (accumulateAlkaneBalanceDeltas bitcoin host trace).2.1
        = (transferred token inv.incomingAlkanes : ℤ) - transferred token ret.alkanes := by
  rw [accumulateAlkaneBalanceDeltas_eq bitcoin host hcalls hids hroot hkind hret howner]
  refine ⟨rfl, ?_⟩
  rw [hcalls] at hexact
  obtain ⟨hsheet, hbody, hstep⟩ := DeltaWalk.exactRun_root hids hroot hkind howner hexact
  have hparent : nearestNormalOwner [DeltaWalk.rootFrame inv owner ∅] = some owner := rfl
  have hinner : totalOf token (absorb owner (Nest.body calls) ∅) = 0 :=
    totalOf_absorb token hids.body rfl hparent hbody
  rw [DeltaWalk.exactStep] at hstep
  dsimp only at hstep
  rw [if_neg (by rw [hret]; rintro (h | h) <;> cases h)] at hstep
  obtain ⟨hsettle, hmerge⟩ := Bool.and_eq_true_iff.1 hstep
  obtain ⟨hreturned, hsettle⟩ := Bool.and_eq_true_iff.1 hsettle
  have hsettled := totalOf_settle_root token rfl htoken DeltaWalk.init.rootDebits hsettle
  have hfinal := totalOf_mergeDeltas token hmerge
  rw [hsettled] at hfinal
  refine hfinal.trans ?_
  rw [DeltaWalk.rootFrame, hinner, amount_transfersToSheet token hsheet,
    amount_transfersToSheet token hreturned]
  simp [totalOf, DeltaWalk.below, DeltaWalk.init]

end Total

theorem totalOf_accumulateAlkaneBalanceDeltas_failedCalls :
    DeltaWalk.exactRun .init failedCalls.flatten ∧
      totalOf ⟨2, 7⟩ (accumulateAlkaneBalanceDeltas noDecode noHost ⟨[], failedCalls.flatten⟩).2.1 = 9 - 5 := by
  have hids : IdsParse failedCalls := by
    simp only [IdsParse, failedCalls, Nest.All]
    decide
  have hexact : DeltaWalk.exactRun .init failedCalls.flatten := by decide +kernel
  have howner : parseShortId (hexId '2' '1') = some ⟨2, 1⟩ := by decide
  exact ⟨hexact, (totalOf_accumulateAlkaneBalanceDeltas ⟨2, 7⟩ noDecode noHost rfl hids rfl (by decide)
    rfl howner hexact (by decide)).2⟩

end Espo.Essentials
