import Espo.Essentials.Transfers
import Espo.Lib.Loop
import Espo.Lib.TableSum

/-!
# Transfers never inflate

What a transaction allocates to its outputs is bounded, alkane by alkane, by what its inputs and its
traces brought in.

* `Moves` is what every way to route amounts does: what is left to route and the total together do not
  grow, and outputs that exist and are no `OP_RETURN` get entries that are not zero.
* A protostone adds what its trace returned or what it refunds; the first one without a trace adds the
  inputs.
-/

namespace Espo.Essentials
open Lib List

/-! ## Amounts -/

variable (id : SchemaAlkaneId) (entries : List (SchemaAlkaneId × ℕ))

/-- The amount of an alkane in entries. -/
def entriesTotal : ℕ :=
  (entries.map fun e => if e.1 = id then e.2 else 0).sum

/-- The sum of the shares of a multicast. -/
def sharesTotal (shares : List (ℕ × ℕ)) : ℕ := (shares.map Prod.snd).sum

@[simp]
lemma entriesTotal_nil : entriesTotal id [] = 0 := rfl

@[simp]
lemma entriesTotal_cons (e : SchemaAlkaneId × ℕ) (entries : List (SchemaAlkaneId × ℕ)) :
    entriesTotal id (e :: entries) = (if e.1 = id then e.2 else 0) + entriesTotal id entries := by
  rfl

lemma entriesTotal_append (l r : List (SchemaAlkaneId × ℕ)) :
    entriesTotal id (l ++ r) = entriesTotal id l + entriesTotal id r := by
  rw [entriesTotal, map_append, sum_append]
  rfl

lemma entriesTotal_filter_pos :
    entriesTotal id (entries.filter fun e => 0 < e.2) = entriesTotal id entries := by
  induction entries with
  | nil => rfl
  | cons e entries ih =>
    by_cases hpos : 0 < e.2
    · rw [filter_cons_of_pos (by simpa using hpos), entriesTotal_cons, entriesTotal_cons, ih]
    · have hzero : e.2 = 0 := by omega
      rw [filter_cons_of_neg (by simpa using hpos), entriesTotal_cons, ih, hzero]
      simp

@[simp]
lemma sharesTotal_nil : sharesTotal [] = 0 := rfl

@[simp]
lemma sharesTotal_cons (share : ℕ × ℕ) (shares : List (ℕ × ℕ)) :
    sharesTotal (share :: shares) = share.2 + sharesTotal shares := by
  rfl

lemma sharesTotal_append (l r : List (ℕ × ℕ)) : sharesTotal (l ++ r) = sharesTotal l + sharesTotal r := by
  rw [sharesTotal, map_append, sum_append]
  rfl

namespace Sheet

variable (s : Sheet)

lemma amount_put (id id' : SchemaAlkaneId) (amt : ℕ) :
    amount (s.put id' amt) id = if id = id' then amt else s.amount id := by
  rw [amount, Table.get_put]
  split_ifs <;> rfl

lemma amount_delete (id id' : SchemaAlkaneId) :
    amount (s.delete id') id = if id = id' then 0 else s.amount id := by
  rw [amount, Table.get_delete]
  split_ifs <;> rfl

lemma amount_subtract (id id' : SchemaAlkaneId) (amt : ℕ) :
    amount (s.subtract id' amt) id = if id = id' then s.amount id - amt else s.amount id := by
  rw [subtract]
  split_ifs with hzero hid hid
  · rw [amount_delete, if_pos hid, hid, hzero]
  · rw [amount_delete, if_neg hid]
  · rw [amount_put, if_pos hid, hid]
  · rw [amount_put, if_neg hid]

lemma entriesTotal_toList (id : SchemaAlkaneId) : entriesTotal id s.toList = s.amount id :=
  sum_toList (fun n => n) rfl s id

lemma amount_merge_le (entries : List (SchemaAlkaneId × ℕ)) (id : SchemaAlkaneId) :
    (s.merge entries).amount id ≤ s.amount id + entriesTotal id entries := by
  refine foldl_le_sum (m := fun s : Sheet => s.amount id) (fun s e => ?_) entries s
  by_cases hzero : e.2 = 0
  · rw [if_pos hzero]
    exact Nat.le_add_right _ _
  · rw [if_neg hzero, Sheet.add, amount_put]
    split_ifs with hid hid' hid'
    · exact hid ▸ min_le_left _ _
    · exact absurd hid.symm hid'
    · exact absurd hid'.symm hid
    · exact le_rfl

end Sheet

/-! ## Shares of a multicast -/

lemma sum_evenShares (q r k : ℕ) (vouts : List ℕ) :
    sharesTotal ((vouts.zipIdx k).map fun v => (v.1, if v.2 < r then saturatingAdd q 1 else q))
      ≤ vouts.length * q + (r - k) := by
  induction vouts generalizing k with
  | nil => exact Nat.zero_le _
  | cons v vouts ih =>
    have hrest := ih (k + 1)
    have hsat : saturatingAdd q 1 ≤ q + 1 := min_le_left _ _
    have hlen : (v :: vouts).length * q = vouts.length * q + q := by
      rw [length_cons, Nat.succ_mul]
    rw [zipIdx_cons, map_cons, sharesTotal_cons]
    split_ifs <;> omega

lemma sharesTotal_filter_le (p : ℕ × ℕ → Bool) (shares : List (ℕ × ℕ)) :
    sharesTotal (shares.filter p) ≤ sharesTotal shares :=
  (filter_sublist.map _).sum_le_sum (by simp)

lemma sharesTotal_multicastShares (vouts : List ℕ) (total : ℕ) :
    sharesTotal (multicastShares vouts total) ≤ total := by
  calc sharesTotal (multicastShares vouts total)
      ≤ vouts.length * (total / vouts.length) + (total % vouts.length - 0) :=
        (sharesTotal_filter_le _ _).trans (sum_evenShares _ _ 0 vouts)
    _ = total := Nat.div_add_mod total vouts.length

/-- The walk of the old capped multicast hands out what is not left. -/
theorem cappedWalk_total {A : Type*} (cap remaining idx : ℕ) (os : List (TxOutput A)) :
    sharesTotal (cappedWalk cap remaining idx os).1 + (cappedWalk cap remaining idx os).2.1.sum
      + (cappedWalk cap remaining idx os).2.2.1 = remaining := by
  induction os generalizing remaining idx with
  | nil => simp [cappedWalk]
  | cons o os ih =>
    have hrest := ih (remaining - min remaining cap) (idx + 1)
    rw [cappedWalk]
    split_ifs
    · simp
    · dsimp only
      rw [sum_cons]
      omega
    · dsimp only
      rw [sharesTotal_cons]
      omega

lemma placeDeferred_total {A : Type*} (outputs : List (TxOutput A)) (searchFrom : ℕ) (deferred : List ℕ) :
    sharesTotal (placeDeferred outputs searchFrom deferred) ≤ deferred.sum := by
  induction deferred generalizing searchFrom with
  | nil => exact le_rfl
  | cons amt deferred ih =>
    rw [placeDeferred, sum_cons]
    split
    · have hrest := ih searchFrom
      omega
    · rename_i vout _
      have hrest := ih (vout + 1)
      rw [sharesTotal_cons]
      omega

lemma cappedShares_total (cap remaining : ℕ) (vouts : List ℕ) :
    sharesTotal (cappedShares cap remaining vouts).1 + (cappedShares cap remaining vouts).2 = remaining := by
  induction vouts generalizing remaining with
  | nil => simp [cappedShares]
  | cons vout vouts ih =>
    have hrest := ih (remaining - min remaining cap)
    rw [cappedShares]
    split_ifs
    · simp
    · dsimp only
      rw [sharesTotal_cons]
      omega

/-! ## What has been routed -/

/-- The amount of an alkane in all entries for outputs. -/
def allocated (out : Table ℕ (List (SchemaAlkaneId × ℕ))) (id : SchemaAlkaneId) : ℕ :=
  out.rowSum fun _ entries => entriesTotal id entries

/-- The amount of an alkane on sheets. -/
def sheetsTotal (sheets : List Sheet) : ℕ := (sheets.map fun s => s.amount id).sum

/-- The amount of an alkane that has been routed, to outputs or to protostones. -/
def Routed.total (st : Routed) (id : SchemaAlkaneId) : ℕ := allocated st.outMap id + sheetsTotal id st.incoming

lemma sheetsTotal_modify_le {f : Sheet → Sheet} {c : ℕ}
    (hf : ∀ s, (f s).amount id ≤ s.amount id + c) (sheets : List Sheet) (i : ℕ) :
    sheetsTotal id (sheets.modify i f) ≤ sheetsTotal id sheets + c := by
  have hsum := sum_map_modify (fun s : Sheet => s.amount id) f sheets i
  unfold sheetsTotal
  cases hget : sheets[i]? with
  | none =>
    simp only [hget, Option.elim_none] at hsum
    omega
  | some s =>
    have hs := hf s
    simp only [hget, Option.elim_some] at hsum
    omega

lemma sheetsTotal_set_empty (sheets : List Sheet) (i : ℕ) :
    sheetsTotal id (sheets.set i ∅) + ((sheets[i]?).getD ∅).amount id = sheetsTotal id sheets := by
  have hsum := sum_map_modify (fun s : Sheet => s.amount id) (fun _ => ∅) sheets i
  rw [← set_eq_modify] at hsum
  unfold sheetsTotal
  have hempty : Sheet.amount ∅ id = 0 := rfl
  cases hget : sheets[i]? <;>
    simp only [hget, Option.elim_none, Option.elim_some, Option.getD_none, Option.getD_some] at hsum ⊢ <;> omega

namespace Routed

lemma total_push (st : Routed) (vout : ℕ) (entries : List (SchemaAlkaneId × ℕ)) :
    (st.push vout entries).total id = st.total id + entriesTotal id entries := by
  have hput := Table.rowSum_put (fun _ entries => entriesTotal id entries) st.outMap vout
    ((st.outMap.get vout).getD [] ++ entries)
  rw [entriesTotal_append] at hput
  have hold : ((st.outMap.get vout).elim 0 fun entries => entriesTotal id entries)
      = entriesTotal id ((st.outMap.get vout).getD []) := by
    cases st.outMap.get vout <;> rfl
  simp only [total, push, allocated]
  omega

lemma total_pushToVout (st : Routed) (vout : ℕ) (delta : List (SchemaAlkaneId × ℕ)) :
    (st.pushToVout vout delta).total id = st.total id + entriesTotal id delta := by
  rw [pushToVout]
  split_ifs with hempty
  · rw [List.isEmpty_iff.1 hempty]
    rfl
  · rw [total_push, entriesTotal_filter_pos]

end Routed

lemma total_pushShares (id' : SchemaAlkaneId) (shares : List (ℕ × ℕ)) (st : Routed) :
    (pushShares id' shares st).total id = st.total id + if id' = id then sharesTotal shares else 0 := by
  induction shares generalizing st with
  | nil => simp [pushShares]
  | cons share shares ih =>
    rw [pushShares, foldl_cons, ← pushShares, ih, Routed.total_push, entriesTotal_cons,
      entriesTotal_nil, sharesTotal_cons]
    split_ifs <;> omega

section Bound
variable {A : Type*} (outputs : List (TxOutput A)) (protostones blockHeight : ℕ)

/-- An output exists and is no `OP_RETURN`. -/
def Spendable (vout : ℕ) : Prop := ∃ o, outputs[vout]? = some o ∧ o.opReturn = false

/-- A share that may be allocated. -/
def ShareFor (share : ℕ × ℕ) : Prop := Spendable outputs share.1 ∧ 0 < share.2

/-- Only spendable outputs have entries, and none is zero. -/
def Routed.Valid (st : Routed) : Prop :=
  ∀ vout entries, st.outMap.get vout = some entries → Spendable outputs vout ∧ ∀ e ∈ entries, 0 < e.2

/-- Amounts are routed: `before` is what there is to route, and `after` what is left of it. -/
structure Moves (before after : SchemaAlkaneId → ℕ) (st st' : Routed) : Prop where
  total : ∀ id, after id + st'.total id ≤ before id + st.total id
  valid : st.Valid outputs → st'.Valid outputs

variable {outputs}

lemma exists_of_mem_spendableVouts {vout : ℕ} (h : vout ∈ spendableVouts outputs) :
    Spendable outputs vout := by
  obtain ⟨⟨o, i⟩, hmem, rfl⟩ := List.mem_map.1 h
  obtain ⟨hzip, hspendable⟩ := mem_filter.1 hmem
  exact ⟨o, mem_zipIdx_iff_getElem?.1 hzip, by simpa using hspendable⟩

variable {st st' : Routed} {share : ℕ × ℕ}

section
variable (h : st.Valid outputs)
include h

lemma Routed.Valid.push {vout : ℕ} (hvout : Spendable outputs vout) {entries : List (SchemaAlkaneId × ℕ)}
    (hpos : ∀ e ∈ entries, 0 < e.2) : (st.push vout entries).Valid outputs := by
  intro vout' entries' hget
  rw [Routed.push, Table.get_put] at hget
  split_ifs at hget with heq
  · cases hget
    refine ⟨heq ▸ hvout, forall_mem_append.2 ⟨?_, hpos⟩⟩
    cases hold : st.outMap.get vout with
    | none => exact nofun
    | some old => exact (h vout old hold).2
  · exact h vout' entries' hget

lemma Routed.Valid.pushToVout {vout : ℕ} (hvout : Spendable outputs vout)
    (delta : List (SchemaAlkaneId × ℕ)) : (st.pushToVout vout delta).Valid outputs := by
  rw [Routed.pushToVout]
  split_ifs
  · exact h
  · exact h.push hvout (by simp)

lemma Routed.Valid.pushShares {shares : List (ℕ × ℕ)} (hshares : ∀ share ∈ shares, ShareFor outputs share)
    (id : SchemaAlkaneId) : (pushShares id shares st).Valid outputs :=
  foldlRecOn _ _ h fun _ hst share hmem =>
    hst.push (hshares share hmem).1 (forall_mem_singleton.2 (hshares share hmem).2)

end

lemma shareFor_multicastShares {total : ℕ} (h : share ∈ multicastShares (spendableVouts outputs) total) :
    ShareFor outputs share := by
  obtain ⟨hmem, hpos⟩ := mem_filter.1 h
  obtain ⟨v, hv, rfl⟩ := List.mem_map.1 hmem
  exact ⟨exists_of_mem_spendableVouts ((mem_zipIdx' hv).2 ▸ getElem_mem _),
    Nat.pos_of_ne_zero (by simpa using hpos)⟩

/-- The walk of the old capped multicast numbers the outputs it goes over. -/
theorem shareFor_cappedWalk (cap remaining : ℕ) {before os : List (TxOutput A)}
    (houtputs : outputs = before ++ os) :
    (∀ share ∈ (cappedWalk cap remaining before.length os).1, ShareFor outputs share) ∧
      ∀ amt ∈ (cappedWalk cap remaining before.length os).2.1, 0 < amt := by
  induction os generalizing remaining before with
  | nil => exact ⟨nofun, nofun⟩
  | cons o os ih =>
    have hrest := @ih (remaining - min remaining cap) (before ++ [o]) (by rw [houtputs]; simp)
    rw [length_append] at hrest
    rw [cappedWalk]
    split_ifs with hstop hop
    · exact ⟨nofun, nofun⟩
    · exact ⟨hrest.1, forall_mem_cons.2 ⟨Nat.pos_of_ne_zero hstop, hrest.2⟩⟩
    · refine ⟨forall_mem_cons.2 ⟨⟨⟨o, ?_, by simpa using hop⟩, Nat.pos_of_ne_zero hstop⟩, hrest.1⟩, hrest.2⟩
      rw [houtputs, getElem?_append_right le_rfl, Nat.sub_self]
      rfl

lemma shareFor_placeDeferred {searchFrom : ℕ} {deferred : List ℕ} (hpos : ∀ amt ∈ deferred, 0 < amt)
    (h : share ∈ placeDeferred outputs searchFrom deferred) : ShareFor outputs share := by
  induction deferred generalizing searchFrom with
  | nil => cases h
  | cons amt deferred ih =>
    rw [forall_mem_cons] at hpos
    rw [placeDeferred] at h
    split at h
    · exact ih hpos.2 h
    · rename_i vout hfind
      rcases mem_cons.1 h with rfl | h
      · exact ⟨exists_of_mem_spendableVouts (mem_of_find?_eq_some hfind), hpos.1⟩
      · exact ih hpos.2 h

lemma mem_cappedShares {cap remaining : ℕ} {vouts : List ℕ}
    (h : share ∈ (cappedShares cap remaining vouts).1) : share.1 ∈ vouts ∧ 0 < share.2 := by
  induction vouts generalizing remaining with
  | nil => cases h
  | cons vout vouts ih =>
    rw [cappedShares] at h
    split_ifs at h with hstop
    · cases h
    · rcases mem_cons.1 h with rfl | h
      · exact ⟨mem_cons_self, Nat.pos_of_ne_zero hstop⟩
      · exact ⟨mem_cons_of_mem _ (ih h).1, (ih h).2⟩

variable {before between after : SchemaAlkaneId → ℕ}

lemma Moves.skip (h : ∀ id, after id ≤ before id) : Moves outputs before after st st :=
  ⟨fun id => Nat.add_le_add_right (h id) _, id⟩

lemma Moves.trans {st'' : Routed} (h : Moves outputs before between st st')
    (h' : Moves outputs between after st' st'') : Moves outputs before after st st'' :=
  ⟨fun id => (h'.total id).trans (h.total id), h'.valid ∘ h.valid⟩

variable (outputs st)

lemma routeDelta_moves (target : ℕ) (delta : List (SchemaAlkaneId × ℕ)) :
    Moves outputs (entriesTotal · delta) (fun _ => 0) st (routeDelta outputs protostones target delta st) := by
  have hskip : Moves outputs (entriesTotal · delta) (fun _ => 0) st st := .skip fun _ => Nat.zero_le _
  rw [routeDelta]
  split_ifs with _ _ _ _ hvalid
  · exact hskip
  · exact hskip
  · refine ⟨fun id => ?_, fun h => foldlRecOn _ _ h fun _ hst e _ =>
      hst.pushShares (fun _ => shareFor_multicastShares) e.1⟩
    rw [Nat.zero_add, Nat.add_comm]
    refine foldl_le_sum (m := fun st : Routed => st.total id) (fun st e => ?_) delta st
    have hshares := sharesTotal_multicastShares (spendableVouts outputs) e.2
    have hpush := total_pushShares id e.1 (multicastShares (spendableVouts outputs) e.2) st
    rw [← pushShares, hpush]
    split_ifs <;> omega
  · rw [isValidSpendVout, Option.any_eq_true] at hvalid
    obtain ⟨o, hget, hspendable⟩ := hvalid
    refine ⟨fun id => ?_, fun h => h.pushToVout ⟨o, hget, by simpa using hspendable⟩ delta⟩
    rw [Routed.total_pushToVout, Nat.zero_add, Nat.add_comm]
  · exact hskip
  · refine ⟨fun id => ?_, fun h => h⟩
    have hmerge := sheetsTotal_modify_le id (fun s => Sheet.amount_merge_le s delta id) st.incoming
      (target - (outputs.length + 1))
    simp only [Routed.total]
    omega
  · exact hskip

lemma subtract_routeDelta_moves (id' : SchemaAlkaneId) (target : ℕ) (sheet : Sheet)
    {need : ℕ} (hneed : need ≤ sheet.amount id') :
    Moves outputs sheet.amount (sheet.subtract id' need).amount st
      (routeDelta outputs protostones target [(id', need)] st) := by
  have hroute := routeDelta_moves outputs protostones st target [(id', need)]
  refine ⟨fun id => ?_, hroute.valid⟩
  have htotal := hroute.total id
  rw [entriesTotal_cons, entriesTotal_nil] at htotal
  rw [Sheet.amount_subtract]
  by_cases hid : id = id'
  · subst hid
    rw [if_pos rfl] at htotal ⊢
    omega
  · rw [if_neg (Ne.symm hid)] at htotal
    rw [if_neg hid]
    omega

lemma multicastEdict_moves (id' : SchemaAlkaneId) (amt : ℕ) (sheet : Sheet) :
    Moves outputs sheet.amount (multicastEdict outputs protostones blockHeight id' amt sheet st).1.amount st
      (multicastEdict outputs protostones blockHeight id' amt sheet st).2 := by
  -- shares of what the sheet has, with the rest left on it
  have hpush : ∀ (shares : List (ℕ × ℕ)) (rest : ℕ), sharesTotal shares + rest ≤ sheet.amount id' →
      (∀ share ∈ shares, ShareFor outputs share) →
      Moves outputs sheet.amount (sheet.subtract id' (sheet.amount id' - rest)).amount st
        (pushShares id' shares st) := by
    intro shares rest hle hshares
    refine ⟨fun id => ?_, fun h => h.pushShares hshares id'⟩
    rw [Sheet.amount_subtract, total_pushShares]
    by_cases hid : id = id'
    · subst hid
      rw [if_pos rfl, if_pos rfl]
      omega
    · rw [if_neg hid, if_neg (Ne.symm hid)]
      omega
  rw [multicastEdict]
  split_ifs
  · have hall : sheet.subtract id' (sheet.amount id') = sheet.delete id' := if_pos (Nat.sub_self _)
    rw [← hall]
    exact subtract_routeDelta_moves outputs protostones st id' _ sheet le_rfl
  · obtain ⟨hshares, hdeferred⟩ := shareFor_cappedWalk amt (sheet.amount id') (List.nil_append outputs).symm
    refine hpush _ _ ?_ (forall_mem_append.2 ⟨hshares, fun _ => shareFor_placeDeferred hdeferred⟩)
    have hwalk := cappedWalk_total amt (sheet.amount id') 0 outputs
    have hplaced := placeDeferred_total outputs (cappedWalk amt (sheet.amount id') 0 outputs).2.2.2
      (cappedWalk amt (sheet.amount id') 0 outputs).2.1
    rw [sharesTotal_append]
    omega
  · refine hpush _ _ (cappedShares_total _ _ _).le fun share hshare => ?_
    exact ⟨exists_of_mem_spendableVouts (mem_cappedShares hshare).1, (mem_cappedShares hshare).2⟩

lemma applySingleEdict_moves (sheet : Sheet) (ed : Edict) :
    Moves outputs sheet.amount (applySingleEdict outputs protostones blockHeight sheet st ed).1.amount st
      (applySingleEdict outputs protostones blockHeight sheet st ed).2 := by
  have hskip : Moves outputs sheet.amount sheet.amount st st := .skip fun _ => le_rfl
  rw [applySingleEdict]
  cases schemaIdFromParts ed.block ed.tx with
  | none =>
    simp only [ite_self]
    exact hskip
  | some id' =>
    have hneed : (if ed.amount = 0 then sheet.amount id' else min ed.amount (sheet.amount id'))
        ≤ sheet.amount id' := by
      split_ifs
      · exact le_rfl
      · exact min_le_right _ _
    dsimp only
    generalize (if ed.amount = 0 then sheet.amount id' else min ed.amount (sheet.amount id')) = need
      at hneed ⊢
    split_ifs
    · exact hskip
    · exact hskip
    · exact hskip
    · refine .skip fun id => ?_
      rw [Sheet.amount_put]
      split_ifs
      · exact Nat.zero_le _
      · exact le_rfl
    · exact multicastEdict_moves outputs protostones blockHeight st id' ed.amount sheet
    · exact hskip
    · exact subtract_routeDelta_moves outputs protostones st id' ed.output sheet hneed

lemma routeLeftovers_moves (ps : Protostone) (sheet : Sheet) :
    Moves outputs sheet.amount (fun _ => 0) st (routeLeftovers outputs protostones ps sheet st) := by
  have hsheet : sheet.amount = (entriesTotal · sheet.toList) := funext fun id =>
    (sheet.entriesTotal_toList id).symm
  rw [routeLeftovers]
  split_ifs
  · exact .skip fun _ => Nat.zero_le _
  · split
    · rename_i target _
      rw [hsheet]
      exact routeDelta_moves outputs protostones st target sheet.toList
    · split
      · rename_i vout hhead
        refine ⟨fun id => ?_, fun h => h.pushToVout (exists_of_mem_spendableVouts (mem_of_head? hhead)) _⟩
        rw [Routed.total_pushToVout, sheet.entriesTotal_toList, Nat.zero_add, Nat.add_comm]
      · exact .skip fun _ => Nat.zero_le _

/-! ## What comes in -/

/-- What the trace of a protostone returned, if it succeeded. -/
def returnedBy (trace : Option TraceNets) (id : SchemaAlkaneId) : ℕ :=
  if effectiveStatus trace = .success then ((trace.bind TraceNets.netOut).getD ∅).amount id else 0

/-- What a protostone refunds, if its trace reverted. -/
def refundedBy (ps : Protostone) (trace : Option TraceNets) (id : SchemaAlkaneId) : ℕ :=
  if effectiveStatus trace = .revert ∧ ps.refund.isSome then ((trace.bind TraceNets.netIn).getD ∅).amount id
  else 0

/-- The inputs, for the first protostone. -/
def seededBy (seeds : Sheet) (i : ℕ) (id : SchemaAlkaneId) : ℕ := if i = 0 then seeds.amount id else 0

lemma subtractAll_amount_le (sheet : Sheet) :
    (entries.foldl (fun sheet e => sheet.subtract e.1 e.2) sheet).amount id ≤ sheet.amount id := by
  refine foldlRecOn (motive := fun s : Sheet => s.amount id ≤ sheet.amount id) _ _ le_rfl fun s h e _ => ?_
  rw [Sheet.amount_subtract]
  split_ifs
  · exact (Nat.sub_le _ _).trans h
  · exact h

lemma startingSheet_amount_le (i : ℕ) (seeds : Sheet) (trace : Option TraceNets) :
    (startingSheet i seeds trace (effectiveStatus trace) st).amount id
      ≤ (st.sheetOf i).amount id + returnedBy trace id + seededBy seeds i id := by
  have hrouted := Sheet.amount_merge_le ∅ (st.sheetOf i).toList id
  rw [Sheet.entriesTotal_toList] at hrouted
  have hempty : Sheet.amount ∅ id = 0 := rfl
  rw [returnedBy, seededBy]
  cases hstatus : effectiveStatus trace with
  | noTrace =>
    simp only [startingSheet, reduceCtorEq, if_false]
    split_ifs
    · have hseeds := Sheet.amount_merge_le (Sheet.merge ∅ (st.sheetOf i).toList) seeds.toList id
      rw [Sheet.entriesTotal_toList] at hseeds
      omega
    · omega
  | revert =>
    simp only [startingSheet]
    omega
  | success =>
    have hconsumed := subtractAll_amount_le id
      (((trace.bind TraceNets.netIn).getD ∅).toList.filter fun e => e.2 ≠ 0)
      (Sheet.merge ∅ (st.sheetOf i).toList)
    have hreturned := Sheet.amount_merge_le
      ((((trace.bind TraceNets.netIn).getD ∅).toList.filter fun e => e.2 ≠ 0).foldl
        (fun sheet e => sheet.subtract e.1 e.2) (Sheet.merge ∅ (st.sheetOf i).toList))
      ((trace.bind TraceNets.netOut).getD ∅).toList id
    rw [Sheet.entriesTotal_toList] at hreturned
    simp only [startingSheet, if_true]
    omega

lemma processProtostone_moves (traces : List TraceNets) (seeds : Sheet) (i : ℕ) (ps : Protostone) :
    Moves outputs (fun id => returnedBy (traceFor traces (outputs.length + 1 + i)) id
        + refundedBy ps (traceFor traces (outputs.length + 1 + i)) id + seededBy seeds i id) (fun _ => 0) st
      (processProtostone outputs protostones blockHeight traces seeds i ps st) := by
  have htaken : ∀ id, Routed.total { st with incoming := st.incoming.set i ∅ } id
      + (st.sheetOf i).amount id = st.total id := by
    intro id
    have hset := sheetsTotal_set_empty id st.incoming i
    simp only [Routed.total, Routed.sheetOf]
    omega
  have hvalid : st.Valid outputs → Routed.Valid outputs { st with incoming := st.incoming.set i ∅ } := id
  rw [processProtostone]
  generalize traceFor traces (outputs.length + 1 + i) = trace
  generalize ({ st with incoming := st.incoming.set i ∅ } : Routed) = taken at htaken hvalid ⊢
  by_cases hrevert : effectiveStatus trace = .revert
  · -- what was routed to the protostone is lost, and what it refunds is counted
    rw [if_pos hrevert]
    split
    · rename_i netIn target hnetIn hrefund
      have hroute := routeDelta_moves outputs protostones taken target netIn.toList
      refine ⟨fun id => ?_, hroute.valid ∘ hvalid⟩
      have hrefunded : refundedBy ps trace id = netIn.amount id := by
        rw [refundedBy, if_pos ⟨hrevert, by rw [hrefund]; rfl⟩, hnetIn, Option.getD_some]
      have htotal := hroute.total id
      have htaken := htaken id
      rw [Sheet.entriesTotal_toList] at htotal
      omega
    · refine ⟨fun id => ?_, hvalid⟩
      have htaken := htaken id
      omega
  · rw [if_neg hrevert]
    have hsheet := fun id => startingSheet_amount_le id st i seeds trace
    generalize startingSheet i seeds trace (effectiveStatus trace) st = sheet at hsheet ⊢
    have hedicts := foldlRecOn (motive := fun acc : Sheet × Routed => Moves outputs sheet.amount acc.1.amount
      taken acc.2) ps.edicts (fun acc ed => applySingleEdict outputs protostones blockHeight acc.1 acc.2 ed)
      (b := (sheet, taken)) (.skip fun _ => le_rfl)
      fun acc h ed _ => h.trans (applySingleEdict_moves outputs protostones blockHeight acc.2 acc.1 ed)
    have hrouted := hedicts.trans (routeLeftovers_moves outputs protostones _ ps _)
    refine ⟨fun id => ?_, hrouted.valid ∘ hvalid⟩
    have htotal := hrouted.total id
    have htaken := htaken id
    have hsheet := hsheet id
    dsimp only
    omega

end Bound

section
variable {A : Type*} (outputs : List (TxOutput A)) (protostones : List Protostone) (traces : List TraceNets)
  (blockHeight : ℕ) (seeds : Sheet)

/-- What comes in with protostones. -/
def broughtIn (id : SchemaAlkaneId) (done : List (Protostone × ℕ)) : ℕ :=
  (if done.length = 0 then 0 else seeds.amount id)
    + (done.map fun ps => returnedBy (traceFor traces (outputs.length + 1 + ps.2)) id).sum
    + (done.map fun ps => refundedBy ps.1 (traceFor traces (outputs.length + 1 + ps.2)) id).sum

/-- The protostones so far have routed what came in with them. -/
theorem applyTransfersMulti_routed :
    (∀ id, allocated (applyTransfersMulti outputs protostones traces blockHeight seeds) id
      ≤ broughtIn outputs traces seeds id protostones.zipIdx) ∧
    ∀ vout entries,
      (applyTransfersMulti outputs protostones traces blockHeight seeds).get vout = some entries →
        Spendable outputs vout ∧ ∀ e ∈ entries, 0 < e.2 := by
  refine (foldl_invariant (P := fun done (st : Routed) => (∀ id, st.total id
    ≤ broughtIn outputs traces seeds id done) ∧ st.Valid outputs) ?_ ?_).imp_left
    fun h id => (Nat.le_add_right _ _).trans (h id)
  · refine ⟨fun id => ?_, nofun⟩
    have hsheets : sheetsTotal id (protostones.map fun _ => (∅ : Sheet)) = 0 := by
      simp [sheetsTotal, Sheet.amount]
    show allocated ∅ id + sheetsTotal id (protostones.map fun _ => (∅ : Sheet)) ≤ _
    rw [hsheets]
    exact Nat.zero_le _
  · rintro done ⟨ps, i⟩ rest st hzip ⟨htotal, hvalid⟩
    -- only the first protostone takes the inputs
    have hi := eq_length_of_zipIdx_eq hzip
    have hmoves := processProtostone_moves outputs protostones.length blockHeight st traces seeds i ps
    refine ⟨fun id => ?_, hmoves.valid hvalid⟩
    have hstep := hmoves.total id
    have hst := htotal id
    rw [seededBy, hi] at hstep
    rw [broughtIn] at hst ⊢
    simp only [map_append, sum_append, map_cons, sum_cons,
      length_append, length_singleton, Nat.add_eq_zero_iff, Nat.one_ne_zero, and_false, if_false,
      hi]
    split_ifs at hst hstep <;> omega

lemma applyTransfersMulti_nothing (hseeds : ∀ id, seeds.amount id = 0) {vout : ℕ}
    {entries : List (SchemaAlkaneId × ℕ)}
    (h : (applyTransfersMulti outputs protostones [] blockHeight seeds).get vout = some entries) :
    entries = [] := by
  obtain ⟨htotal, hvalid⟩ := applyTransfersMulti_routed outputs protostones [] blockHeight seeds
  refine eq_nil_iff_forall_not_mem.2 fun e he => ?_
  have hpos := (hvalid vout entries h).2 e he
  have hbrought : broughtIn outputs [] seeds e.1 protostones.zipIdx = 0 := by
    simp [broughtIn, hseeds, traceFor, returnedBy, refundedBy, effectiveStatus]
  have hentry : e.2 ≤ entriesTotal e.1 entries :=
    List.single_le_sum (by simp) _ (List.mem_map.2 ⟨e, he, if_pos rfl⟩)
  have hrow := Finset.single_le_sum (f := fun vout => ((applyTransfersMulti outputs protostones []
    blockHeight seeds).get vout).elim 0 (entriesTotal e.1)) (fun _ _ => Nat.zero_le _)
    (Table.mem_keys_of_get h)
  have hall := hrow.trans (htotal e.1)
  rw [h, Option.elim_some] at hall
  omega

/-- What a transaction allocates: no more of an alkane than was on its inputs, was returned by its
successful protostones and is refunded by its reverted ones, and only to outputs that exist and are no
`OP_RETURN`. -/
theorem applyTransfersMulti_bounded :
    (∀ id, allocated (applyTransfersMulti outputs protostones traces blockHeight seeds) id
      ≤ seeds.amount id
        + (protostones.zipIdx.map fun ps => returnedBy (traceFor traces (outputs.length + 1 + ps.2)) id).sum
        + (protostones.zipIdx.map fun ps =>
            refundedBy ps.1 (traceFor traces (outputs.length + 1 + ps.2)) id).sum) ∧
    ∀ vout entries,
      (applyTransfersMulti outputs protostones traces blockHeight seeds).get vout = some entries →
        ∃ o, outputs[vout]? = some o ∧ o.opReturn = false := by
  obtain ⟨htotal, hvalid⟩ := applyTransfersMulti_routed outputs protostones traces blockHeight seeds
  refine ⟨fun id => (htotal id).trans ?_, fun vout entries hget => (hvalid vout entries hget).1⟩
  have hseeds : (if protostones.zipIdx.length = 0 then 0 else seeds.amount id) ≤ seeds.amount id := by
    split_ifs
    · exact Nat.zero_le _
    · exact le_rfl
  rw [broughtIn]
  omega

end

end Espo.Essentials
