import Espo.Essentials.TraceDeltas

/-!
# The mints of a trace

`mint_deltas_from_trace` looks for calls with the mint opcode that return tokens of the called alkane.
What the calls inside a frame have minted already is not counted again when the frame returns it.

A mint is counted when its own call returns. That a call around it fails is known only later, and
is not looked at: mints of reverted calls stay in the result, unless a call around them that is not
reverted covers them with a mint of its own.
-/

namespace Espo.Essentials
open Lib Alkanes List Option

/-! ## The walk -/

/-- Ids and amounts, the zero ones dropped. -/
def positiveTransfers (transfers : List TraceTransfer) : List (SchemaAlkaneId × ℕ) :=
  transfers.filterMap fun t =>
    (parseShortId t.id).bind fun id => (parseU128FromStr t.value).bind fun value =>
      if value = 0 then none else some (id, value)

variable (inv : InvokeData)

/-- The mint opcode, in the first or in the third input. -/
def opcodeMatch : Bool :=
  ((inv.inputs[2]?).bind parseU128FromStr == some 77) || ((inv.inputs[0]?).bind parseU128FromStr == some 77)

/-- A call that may mint. -/
def mintCandidate : Bool := decide (inv.kind ≠ .static) && opcodeMatch inv

/-- `Frame`. -/
structure MintFrame where
  owner : Option SchemaAlkaneId
  mintCandidate : Bool
  incoming : List (SchemaAlkaneId × ℕ)
  nestedMints : Sheet

/-- The frame of a call. -/
def MintFrame.opened : MintFrame where
  owner := parseShortId inv.myself
  mintCandidate := Essentials.mintCandidate inv
  incoming := if Essentials.mintCandidate inv then positiveTransfers inv.incomingAlkanes else []
  nestedMints := ∅

/-- What a frame returns of its own token, when it is a mint: transfers that came in and go out again
are left aside, each once. -/
def MintFrame.mintValue (frame : MintFrame) (ret : ReturnData) : Option (SchemaAlkaneId × ℕ) :=
  if frame.mintCandidate && decide (ret.status = .success) then
    frame.owner.bind fun owner =>
      (frame.incoming.foldl List.erase (positiveTransfers ret.alkanes)).find? fun e => e.1 = owner
  else none

/-- The variables of the loop; the top of the stack comes first. -/
structure MintWalk where
  stack : List MintFrame
  deltas : Sheet

namespace MintWalk

/-- Report the mints of a frame to the frame below. -/
def mergeUp (w : MintWalk) (frameMints : Sheet) : MintWalk :=
  match w.stack with
  | [] => w
  | parent :: stack =>
    let nested := frameMints.toList.foldl (fun s e => Sheet.add s e.1 e.2) parent.nestedMints
    { w with stack := { parent with nestedMints := nested } :: stack }

/-- One event; `none` for a return without a frame. -/
def step (w : MintWalk) : TraceEvent → Option MintWalk
  | .opening inv => some { w with stack := MintFrame.opened inv :: w.stack }
  | .closing ret =>
    match w.stack with
    | [] => none
    | frame :: stack =>
      let w := { w with stack := stack }
      match frame.mintValue ret with
      | none => some (w.mergeUp frame.nestedMints)
      | some (owner, value) =>
        let delta := value - frame.nestedMints.amount owner
        if 0 < delta then
          some ({ w with deltas := w.deltas.add owner delta }.mergeUp (frame.nestedMints.add owner delta))
        else some (w.mergeUp frame.nestedMints)
  | .leaf _ => some w

end MintWalk

/-- `mint_deltas_from_trace`. -/
def mintDeltasFromTrace (bitcoin : BitcoinDecode) (host : HostFunctionValues) (trace : Trace) :
    Option Sheet :=
  (cleanTrace bitcoin host trace).bind fun trace =>
    (trace.events.foldlM MintWalk.step ⟨[], ∅⟩).bind fun w =>
      if w.stack.isEmpty then some w.deltas else none

/-! ## Minted amounts -/

section Minted
variable (id : SchemaAlkaneId) (inv : InvokeData) (ret : ReturnData)

/-- What a call mints in all: what the calls inside it mint, or its own return if that is more. -/
def frameMinted (inside : ℕ) : ℕ :=
  match (MintFrame.opened inv).mintValue ret with
  | none => inside
  | some (owner, value) => if owner = id then max value inside else inside

/-- What calls mint in all, the reverted ones too. -/
def minted : CallForest → ℕ
  | .nil => 0
  | .leaf _ rest => minted rest
  | .node inv body ret rest => frameMinted id inv ret (minted body) + minted rest

/-- A call mints at least what the calls inside it mint, by its own return. -/
def covers (inside : ℕ) : Bool :=
  ((MintFrame.opened inv).mintValue ret).any fun e => e.1 = id && decide (inside ≤ e.2)

/-- Some mint of a reverted call has no call around it that is not reverted and covers it. -/
def uncovered : CallForest → Bool
  | .nil => false
  | .leaf _ rest => uncovered rest
  | .node inv body ret rest =>
    (if inv.dead ret then decide (0 < frameMinted id inv ret (minted id body))
      else uncovered body && !covers id inv ret (minted id body)) || uncovered rest

/-- More inside gives the same exactly when it is covered. -/
theorem frameMinted_eq_iff {inside inside' : ℕ} (hle : inside' ≤ inside) :
    frameMinted id inv ret inside' = frameMinted id inv ret inside ↔
      inside' = inside ∨ covers id inv ret inside := by
  rw [frameMinted, frameMinted, covers]
  rcases (MintFrame.opened inv).mintValue ret with _ | ⟨owner, value⟩
  · simp
  · by_cases howner : owner = id
    · simp only [howner, if_true, any_some, decide_true, Bool.true_and, decide_eq_true_eq]
      omega
    · simp [howner]

lemma frameMinted_mono {inside inside' : ℕ} (hle : inside' ≤ inside) :
    frameMinted id inv ret inside' ≤ frameMinted id inv ret inside := by
  rw [frameMinted, frameMinted]
  rcases (MintFrame.opened inv).mintValue ret with _ | ⟨owner, value⟩
  · exact hle
  · dsimp only
    split_ifs
    · exact max_le_max_left _ hle
    · exact hle

lemma minted_live_le (calls : CallForest) : minted id calls.live ≤ minted id calls := by
  induction calls with
  | nil => exact le_rfl
  | leaf c rest ih => exact ih
  | node inv body ret rest ihBody ihRest =>
    unfold CallForest.live at ihBody ihRest ⊢
    cases hdead : inv.dead ret with
    | true =>
      rw [Nest.prune_node_of_drop hdead, minted]
      omega
    | false =>
      rw [Nest.prune_node_of_keep hdead, minted, minted]
      have hframe := frameMinted_mono id inv ret ihBody
      omega

/-- Reverted calls make no difference exactly when their mints are covered. -/
theorem minted_live_eq_iff (calls : CallForest) :
    minted id calls.live = minted id calls ↔ uncovered id calls = false := by
  induction calls with
  | nil => simp [CallForest.live, Nest.prune, uncovered]
  | leaf c rest ih => exact ih
  | node inv body ret rest ihBody ihRest =>
    have hbody := minted_live_le id body
    have hrest := minted_live_le id rest
    unfold CallForest.live at ihBody ihRest hbody hrest ⊢
    rw [minted, uncovered, Bool.or_eq_false_iff, ← ihRest]
    cases hdead : inv.dead ret with
    | true =>
      rw [Nest.prune_node_of_drop hdead, if_pos rfl, decide_eq_false_iff_not]
      omega
    | false =>
      rw [Nest.prune_node_of_keep hdead, minted, if_neg (by simp)]
      have hframe := frameMinted_mono id inv ret hbody
      have hiff := frameMinted_eq_iff id inv ret hbody
      have hcovered : (uncovered id body && !covers id inv ret (minted id body)) = false ↔
          minted id (body.prune InvokeData.dead) = minted id body ∨ covers id inv ret (minted id body) := by
        rw [ihBody]
        cases uncovered id body <;> simp
      rw [hcovered, ← hiff]
      omega

end Minted

/-! ## The walk computes them -/

lemma fromStrRadix_lt {radix bound n : ℕ} {s : Text} (h : fromStrRadix radix bound s = some n) :
    n < bound := by
  unfold fromStrRadix at h
  dsimp only at h
  split_ifs at h
  exact of_decide_eq_true (filter_eq_some_iff.1 h).2

lemma parseU128FromStr_le {s : Text} {n : ℕ} (h : parseU128FromStr s = some n) : n ≤ u128Max := by
  rw [parseU128FromStr] at h
  split at h
  · exact Nat.le_of_lt_succ (fromStrRadix_lt h)
  · exact Nat.le_of_lt_succ (fromStrRadix_lt h)

lemma MintFrame.mintValue_le {frame : MintFrame} {ret : ReturnData} {e : SchemaAlkaneId × ℕ}
    (h : frame.mintValue ret = some e) : e.2 ≤ u128Max := by
  rw [mintValue] at h
  split_ifs at h
  obtain ⟨owner, -, hfind⟩ := bind_eq_some_iff.1 h
  -- the entry is among the transfers that the call returns
  have hmem : ∀ incoming returned : List (SchemaAlkaneId × ℕ),
      e ∈ incoming.foldl List.erase returned → e ∈ returned := fun _ returned =>
    foldlRecOn (motive := fun l => e ∈ l → e ∈ returned) _ _ id fun _ ih _ _ h => ih (mem_of_mem_erase h)
  obtain ⟨t, -, ht⟩ := mem_filterMap.1 (hmem _ _ (mem_of_find?_eq_some hfind))
  obtain ⟨id, -, ht⟩ := bind_eq_some_iff.1 ht
  obtain ⟨value, hvalue, ht⟩ := bind_eq_some_iff.1 ht
  split_ifs at ht
  cases ht
  exact parseU128FromStr_le hvalue

variable (s : Sheet)

/-- `t` is `s` with `m` added to the amounts, as far as `u128` goes. -/
def Sheet.Adds (m : SchemaAlkaneId → ℕ) (t : Sheet) : Prop :=
  ∀ id, min (t.amount id) u128Max = min (s.amount id + m id) u128Max

namespace Sheet.Adds
variable {s t u : Sheet} {m m' : SchemaAlkaneId → ℕ}

lemma zero (s : Sheet) : s.Adds (fun _ => 0) s := fun _ => rfl

lemma of_empty (h : Sheet.Adds ∅ m t) (id : SchemaAlkaneId) : min (t.amount id) u128Max = min (m id) u128Max := by
  rw [h id, Sheet.amount]
  exact congrArg (min · u128Max) (Nat.zero_add _)

lemma trans (h : s.Adds m t) (h' : t.Adds m' u) : s.Adds (fun id => m id + m' id) u := by
  intro id
  have hfirst := h id
  have hsecond := h' id
  dsimp only
  omega

lemma add (s : Sheet) (id : SchemaAlkaneId) (amt : ℕ) :
    s.Adds (fun id' => if id' = id then amt else 0) (s.add id amt) := by
  intro id'
  rw [Sheet.add, amount_put]
  dsimp only
  split_ifs with hid
  · rw [hid, saturatingAdd, min_assoc, min_self]
  · rfl

end Sheet.Adds

lemma Sheet.adds_foldl (s t : Sheet) :
    s.Adds t.amount (t.toList.foldl (fun s e => Sheet.add s e.1 e.2) s) := by
  have hloop : ∀ (es : List (SchemaAlkaneId × ℕ)) (s : Sheet),
      s.Adds (fun id => (es.map fun e => if e.1 = id then e.2 else 0).sum)
        (es.foldl (fun s e => Sheet.add s e.1 e.2) s) := by
    intro es
    induction es with
    | nil => exact Sheet.Adds.zero
    | cons e es ih =>
      intro s id
      rw [foldl_cons, ((Sheet.Adds.add s e.1 e.2).trans (ih _)) id]
      dsimp only
      rw [map_cons, sum_cons]
      simp only [eq_comm]
  intro id
  rw [hloop t.toList s id]
  dsimp only
  rw [Sheet.sum_toList (fun n => n) rfl]

/-- The amounts on a sheet are `u128`, and none is zero. -/
structure Sheet.Positive : Prop where
  ne_zero : ∀ id, s.get id ≠ some 0
  le_max : ∀ id, s.amount id ≤ u128Max

lemma Sheet.Positive.add {s : Sheet} (h : s.Positive) (id : SchemaAlkaneId) {amt : ℕ} (hamt : 0 < amt) :
    (s.add id amt).Positive := by
  refine ⟨fun id' => ?_, fun id' => ?_⟩
  · rw [Sheet.add, Table.get_put]
    split_ifs
    · have hmax : 0 < u128Max := by decide
      rw [ne_eq, Option.some.injEq, saturatingAdd]
      omega
    · exact h.ne_zero id'
  · rw [Sheet.add, amount_put]
    split_ifs
    · exact min_le_right _ _
    · exact h.le_max id'

lemma Sheet.Positive.get_eq {s : Sheet} (h : s.Positive) (id : SchemaAlkaneId) :
    s.get id = if s.amount id = 0 then none else some (s.amount id) := by
  have hne := h.ne_zero id
  rw [Sheet.amount]
  cases hget : s.get id with
  | none => rfl
  | some amount =>
    rw [hget] at hne
    rw [getD_some, if_neg fun hzero => hne (congrArg some hzero)]

namespace MintWalk

/-- What a part of a walk has done: the mints `m` were counted, and reported to the top frame. -/
structure Counts (m : SchemaAlkaneId → ℕ) (w w' : MintWalk) : Prop where
  deltas : w.deltas.Adds m w'.deltas
  positive : w.deltas.Positive → w'.deltas.Positive
  stack : match w.stack with
    | [] => w'.stack = []
    | frame :: stack => ∃ nested, frame.nestedMints.Adds m nested ∧
        w'.stack = { frame with nestedMints := nested } :: stack

namespace Counts
variable {m m' : SchemaAlkaneId → ℕ} {w w' w'' : MintWalk}

lemma refl (w : MintWalk) : Counts (fun _ => 0) w w where
  deltas := .zero _
  positive := id
  stack := by
    rcases w.stack with _ | ⟨frame, stack⟩
    · rfl
    · exact ⟨frame.nestedMints, .zero _, rfl⟩

lemma trans (h : Counts m w w') (h' : Counts m' w' w'') : Counts (fun id => m id + m' id) w w'' where
  deltas := h.deltas.trans h'.deltas
  positive := h'.positive ∘ h.positive
  stack := by
    have hstack := h.stack
    have hstack' := h'.stack
    rcases heq : w.stack with _ | ⟨frame, stack⟩
    · rw [heq] at hstack
      rw [hstack] at hstack'
      exact hstack'
    · rw [heq] at hstack
      obtain ⟨nested, hadds, hstack⟩ := hstack
      rw [hstack] at hstack'
      obtain ⟨nested', hadds', hstack'⟩ := hstack'
      exact ⟨nested', hadds.trans hadds', hstack'⟩

end Counts

lemma counts_mergeUp {w : MintWalk} {m : SchemaAlkaneId → ℕ} {deltas frameMints : Sheet}
    (hdeltas : w.deltas.Adds m deltas) (hpositive : w.deltas.Positive → deltas.Positive)
    (hmints : Sheet.Adds ∅ m frameMints) : Counts m w (mergeUp ⟨w.stack, deltas⟩ frameMints) := by
  rw [mergeUp]
  rcases hstack : w.stack with _ | ⟨parent, stack⟩
  · exact ⟨hdeltas, hpositive, by rw [hstack]⟩
  · refine ⟨hdeltas, hpositive, ?_⟩
    rw [hstack]
    refine ⟨_, fun id => ?_, rfl⟩
    have hamount := hmints.of_empty id
    rw [Sheet.adds_foldl parent.nestedMints frameMints id]
    omega

lemma adds_mint {s t : Sheet} {inside : SchemaAlkaneId → ℕ} {owner : SchemaAlkaneId} {value : ℕ}
    (h : s.Adds inside t) : s.Adds (fun id => if owner = id then max value (inside id) else inside id)
      (t.add owner (value - inside owner)) := by
  intro id
  have hid := h id
  rw [Sheet.add, Sheet.amount_put]
  dsimp only
  split_ifs with hadded howner howner
  · rw [← hadded, saturatingAdd]
    omega
  · exact absurd hadded.symm howner
  · exact absurd howner.symm hadded
  · exact hid

lemma step_return {w : MintWalk} {inv : InvokeData} {ret : ReturnData}
    {inside : SchemaAlkaneId → ℕ} {nested deltas : Sheet} (hnested : Sheet.Adds ∅ inside nested)
    (hdeltas : w.deltas.Adds inside deltas) (hpositive : w.deltas.Positive → deltas.Positive) :
    ∃ w', step ⟨{ MintFrame.opened inv with nestedMints := nested } :: w.stack, deltas⟩ (.closing ret)
        = some w' ∧ Counts (fun id => frameMinted id inv ret (inside id)) w w' := by
  have hvalue : MintFrame.mintValue { MintFrame.opened inv with nestedMints := nested } ret
      = (MintFrame.opened inv).mintValue ret := rfl
  rw [step]
  dsimp only
  rw [hvalue]
  unfold frameMinted
  rcases hmint : (MintFrame.opened inv).mintValue ret with _ | ⟨owner, value⟩
  · exact ⟨_, rfl, counts_mergeUp hdeltas hpositive hnested⟩
  · have hmax : value ≤ u128Max := MintFrame.mintValue_le hmint
    have hamount := hnested.of_empty owner
    dsimp only
    by_cases hpos : 0 < value - nested.amount owner
    · have hexact : value - nested.amount owner = value - inside owner := by omega
      rw [if_pos hpos]
      rw [hexact] at hpos ⊢
      exact ⟨_, rfl, counts_mergeUp (adds_mint hdeltas)
        (fun h => (hpositive h).add owner hpos) (adds_mint hnested)⟩
    · rw [if_neg hpos]
      have hcovered : ∀ s t : Sheet, s.Adds inside t →
          s.Adds (fun id => if owner = id then max value (inside id) else inside id) t := by
        intro s t h id
        have hadds := h id
        dsimp only
        split_ifs with hid
        · subst hid
          omega
        · exact hadds
      exact ⟨_, rfl, counts_mergeUp (hcovered _ _ hdeltas) hpositive (hcovered _ _ hnested)⟩

lemma run_calls (calls : CallForest) (w : MintWalk) :
    ∃ w', calls.flatten.foldlM step w = some w' ∧ Counts (fun id => minted id calls) w w' := by
  induction calls generalizing w with
  | nil => exact ⟨w, rfl, .refl w⟩
  | leaf c rest ih => exact ih w
  | node inv body ret rest ihBody ihRest =>
    obtain ⟨w₁, hrun₁, hbody⟩ := ihBody ⟨MintFrame.opened inv :: w.stack, w.deltas⟩
    obtain ⟨nested, hnested, hstack⟩ := hbody.stack
    have hw₁ : w₁ = ⟨{ MintFrame.opened inv with nestedMints := nested } :: w.stack, w₁.deltas⟩ := by
      rw [← hstack]
    obtain ⟨w₂, hret, hcounts⟩ := @step_return w inv ret _ nested w₁.deltas hnested hbody.deltas
      hbody.positive
    obtain ⟨w₃, hrun₃, hrest⟩ := ihRest w₂
    refine ⟨w₃, ?_, hcounts.trans hrest⟩
    rw [Nest.flatten, foldlM_cons, step, bind_eq_bind, bind_some,
      foldlM_append, hrun₁, bind_eq_bind, bind_some, foldlM_cons, hw₁, hret]
    exact hrun₃

end MintWalk

section Results
variable (bitcoin : BitcoinDecode) (host : HostFunctionValues)

lemma mintDeltasFromTrace_eq {trace : Trace} {calls : CallForest}
    (hcalls : trace.events = calls.flatten) :
    ∃ s, mintDeltasFromTrace bitcoin host trace = some s ∧ s.Positive ∧
      ∀ id, s.amount id = min (minted id calls) u128Max := by
  obtain ⟨w, hrun, hcounts⟩ := MintWalk.run_calls calls ⟨[], ∅⟩
  have hpositive := hcounts.positive ⟨fun id => by simp [Table.get_empty], fun _ => Nat.zero_le _⟩
  refine ⟨w.deltas, ?_, hpositive, fun id => ?_⟩
  · have hstack : w.stack = [] := hcounts.stack
    rw [mintDeltasFromTrace, cleanTrace_of_nested bitcoin host hcalls, bind_some, hcalls, hrun,
      bind_some, hstack]
    rfl
  · rw [← hcounts.deltas.of_empty id, min_eq_left (hpositive.le_max id)]

/-- Reverted calls leave the mint deltas alone exactly when, for every alkane, either the other calls
reach the largest amount, or each mint of a reverted call is covered by a mint around it. -/
theorem mintDeltasFromTrace_live_iff {trace : Trace} {calls : CallForest}
    (hcalls : trace.events = calls.flatten) :
    mintDeltasFromTrace bitcoin host trace
        = mintDeltasFromTrace bitcoin host { trace with events := calls.live.flatten } ↔
      ∀ id, u128Max ≤ minted id calls.live ∨ uncovered id calls = false := by
  obtain ⟨s, hs, hpositive, hamount⟩ := mintDeltasFromTrace_eq bitcoin host hcalls
  obtain ⟨t, ht, hpositive', hamount'⟩ := @mintDeltasFromTrace_eq bitcoin host
    { trace with events := calls.live.flatten } calls.live rfl
  rw [hs, ht, Option.some.injEq]
  have hamounts : s = t ↔ ∀ id, s.amount id = t.amount id := by
    constructor
    · rintro rfl id
      rfl
    · intro h
      apply Table.ext_get
      intro id
      rw [hpositive.get_eq, hpositive'.get_eq, h id]
  rw [hamounts]
  apply forall_congr'
  intro id
  have hle := minted_live_le id calls
  rw [hamount, hamount', ← minted_live_eq_iff]
  omega

end Results

/-- A call of the mint opcode. -/
def mintCall (myself : ShortId) : InvokeData :=
  ⟨"call".toList, myself, ["77".toList], []⟩

/-- Alkane 2:1 calls 2:2, which has 2:3 mint five of its tokens and then fails. -/
def revertedMint : CallForest :=
  .node (callOf "call" (hexId '2' '1') (hexId '2' '7') '0')
    (.node (callOf "call" (hexId '2' '2') (hexId '2' '7') '0')
      (.node (mintCall (hexId '2' '3')) .nil (returnOf .success (hexId '2' '3') '5') .nil)
      (returnOf .failure (hexId '2' '7') '0') .nil)
    (returnOf .success (hexId '2' '7') '0') .nil

/-- The mint is counted, though the call around it has failed. -/
theorem revertedMint_counted :
    (mintDeltasFromTrace noDecode noHost ⟨[], revertedMint.flatten⟩).map (Sheet.amount · ⟨2, 3⟩) = some 5 ∧
      mintDeltasFromTrace noDecode noHost ⟨[], revertedMint.live.flatten⟩ = some ∅ := by
  decide +kernel

/-- Alkane 2:3 mints seven of its tokens, five of them by a call to itself that has failed in the end. -/
def coveredMint : CallForest :=
  .node (mintCall (hexId '2' '3'))
    (.node (callOf "call" (hexId '2' '2') (hexId '2' '7') '0')
      (.node (mintCall (hexId '2' '3')) .nil (returnOf .success (hexId '2' '3') '5') .nil)
      (returnOf .failure (hexId '2' '7') '0') .nil)
    (returnOf .success (hexId '2' '3') '7') .nil

theorem mintDeltasFromTrace_live_iff_coveredMint :
    uncovered ⟨2, 3⟩ coveredMint = false ∧ coveredMint.live.flatten.length < coveredMint.flatten.length ∧
      (mintDeltasFromTrace noDecode noHost ⟨[], coveredMint.flatten⟩
          = mintDeltasFromTrace noDecode noHost ⟨[], coveredMint.live.flatten⟩ ↔
        ∀ id, u128Max ≤ minted id coveredMint.live ∨ uncovered id coveredMint = false) :=
  ⟨by decide +kernel, by decide, mintDeltasFromTrace_live_iff noDecode noHost rfl⟩

end Espo.Essentials
