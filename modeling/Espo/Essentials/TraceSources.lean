import Espo.Essentials.TraceDeltas

/-!
# Where the tokens of a trace come from

`trace_source_flow` follows the tokens that addresses send into a trace. A call takes what it brings
in from the oldest units that its caller holds, or at the top from the units of the addresses. When it
returns, what it gives back is taken from its units in the same way; what it keeps of an address was
sent to its contract. A failed call gives back all that it brought in.

That a call inside has kept units, and that they are recorded as sent, is not undone when a call around
it fails: these units are given back too, and count twice.
-/

namespace Espo.Essentials
open Lib Alkanes List

variable {A : Type*} [DecidableEq A]

/-! ## Amounts with their sources -/

/-- `AttributionSource`. -/
inductive AttributionSource (A : Type*) where
  | address (a : A)
  | contract (id : SchemaAlkaneId)
  deriving DecidableEq

/-- `SourceAmounts`, the front of the queue first. -/
abbrev SourceAmounts (A : Type*) := List (AttributionSource A × ℕ)

/-- `SourcedSheet`. -/
abbrev SourcedSheet (A : Type*) := Table SchemaAlkaneId (SourceAmounts A)

/-- `AddressContractAmounts`, by address, contract and token. -/
abbrev AddressContractAmounts (A : Type*) := Table (A × SchemaAlkaneId × SchemaAlkaneId) ℕ

/-- `source_amounts_total`. -/
def sourceAmountsTotal (sources : SourceAmounts A) : ℕ :=
  sources.foldl (fun total e => saturatingAdd total e.2) 0

/-- `add_source_amount`. -/
def addSourceAmount (sources : SourceAmounts A) (e : AttributionSource A × ℕ) : SourceAmounts A :=
  if e.2 = 0 then sources
  else match sources.getLast? with
    | some last =>
      if last.1 = e.1 then sources.dropLast ++ [(last.1, saturatingAdd last.2 e.2)] else sources ++ [e]
    | none => sources ++ [e]

/-- `take_sources_from_amounts`, with what has been taken so far; returns what is taken and what is
left. -/
def takeSourcesFrom (taken : SourceAmounts A) : ℕ → SourceAmounts A → SourceAmounts A × SourceAmounts A
  | _, [] => (taken, [])
  | remaining, e :: rest =>
    if remaining = 0 then (taken, e :: rest)
    else
      let take := min e.2 remaining
      let taken := addSourceAmount taken (e.1, take)
      if e.2 - take = 0 then takeSourcesFrom taken (remaining - take) rest
      else (taken, (e.1, e.2 - take) :: rest)

/-- `take_sources_from_amounts`. -/
def takeSourcesFromAmounts (sources : SourceAmounts A) (amount : ℕ) :
    SourceAmounts A × SourceAmounts A :=
  takeSourcesFrom [] amount sources

namespace SourcedSheet

variable (sheet : SourcedSheet A)

/-- The sources of a token. -/
def sources (token : SchemaAlkaneId) : SourceAmounts A :=
  (sheet.get token).getD []

/-- The entries in the order of a `BTreeMap`. -/
def toList : List (SchemaAlkaneId × SourceAmounts A) :=
  (sheet.keys.sort (· ≤ ·)).map fun token => (token, sheet.sources token)

/-- `add_sources_to_sheet`. -/
def addSourcesToSheet (e : SchemaAlkaneId × SourceAmounts A) : SourcedSheet A :=
  if e.2.isEmpty then sheet
  else
    let entry := e.2.foldl addSourceAmount (sheet.sources e.1)
    if entry.isEmpty then sheet.delete e.1 else sheet.put e.1 entry

/-- `merge_sourced_sheet`. -/
def mergeSourcedSheet (target source : SourcedSheet A) : SourcedSheet A :=
  source.toList.foldl addSourcesToSheet target

/-- `take_sources_from_sheet`; returns what is taken and what is left. -/
def takeSourcesFromSheet (token : SchemaAlkaneId) (amount : ℕ) : SourceAmounts A × SourcedSheet A :=
  if amount = 0 then ([], sheet)
  else match sheet.get token with
    | none => ([], sheet)
    | some sources =>
      let (taken, left) := takeSourcesFromAmounts sources amount
      (taken, if left.isEmpty then sheet.delete token else sheet.put token left)

end SourcedSheet

/-- `add_address_contract_amount`. -/
def addAddressContractAmount (sends : AddressContractAmounts A) (address : A)
    (contract token : SchemaAlkaneId) (amount : ℕ) : AddressContractAmounts A :=
  if amount = 0 then sends
  else sends.put (address, contract, token)
    (saturatingAdd ((sends.get (address, contract, token)).getD 0) amount)

/-- Record what a contract keeps of an address. -/
def recordSend (contract token : SchemaAlkaneId) (sends : AddressContractAmounts A)
    (e : AttributionSource A × ℕ) : AddressContractAmounts A :=
  match e.1 with
  | .address address => addAddressContractAmount sends address contract token e.2
  | .contract _ => sends

/-- Record all that a contract keeps. -/
def recordSends (contract : SchemaAlkaneId) (held : SourcedSheet A)
    (sends : AddressContractAmounts A) : AddressContractAmounts A :=
  held.toList.foldl (fun sends e => e.2.foldl (recordSend contract e.1) sends) sends

/-! ## The walk -/

/-- `Frame`. -/
structure SourceFrame (A : Type*) where
  kind : FrameKind
  owner : SchemaAlkaneId
  parentNormalIndex : Option ℕ
  incoming : SourcedSheet A
  held : SourcedSheet A

/-- `nearest_normal_index`. -/
def nearestNormalIndex (stack : List (SourceFrame A)) : Option ℕ :=
  ((stack.zipIdx.filter fun e => e.1.kind = .normal).getLast?).map Prod.snd

/-- The variables of the loop: the stack with its bottom first, the units of the addresses that no
call has taken, and the two parts of `TraceSourceFlow`. -/
structure SourceWalk (A : Type*) where
  stack : List (SourceFrame A)
  topSources : SourcedSheet A
  sendContracts : AddressContractAmounts A
  returned : SourcedSheet A

/-- `sources`, completed to the amount by the contract that it is taken from. -/
def completed (contract : Option SchemaAlkaneId) (amount : ℕ) (sources : SourceAmounts A) :
    SourceAmounts A :=
  if sourceAmountsTotal sources < amount then
    match contract with
    | some id => addSourceAmount sources (.contract id, amount - sourceAmountsTotal sources)
    | none => sources
  else sources

namespace SourceWalk

variable (w : SourceWalk A)

/-- What the frame at an index holds, or without an index what no call has taken. -/
def heldAt : Option ℕ → SourcedSheet A
  | some i => ((w.stack[i]?).map SourceFrame.held).getD ∅
  | none => w.topSources

/-- Change what the frame at an index holds. -/
def setHeldAt (held : SourcedSheet A) : Option ℕ → SourceWalk A
  | some i => { w with stack := w.stack.modify i fun frame => { frame with held := held } }
  | none => { w with topSources := held }

/-- The owner of the frame at an index. -/
def ownerAt (parent : Option ℕ) : Option SchemaAlkaneId :=
  (parent.bind fun i => w.stack[i]?).map SourceFrame.owner

/-- A call brings in an amount. -/
def bringIn (parent : Option ℕ) (st : SourceWalk A × SourcedSheet A) (e : SchemaAlkaneId × ℕ) :
    SourceWalk A × SourcedSheet A :=
  let (sources, held) := (st.1.heldAt parent).takeSourcesFromSheet e.1 e.2
  (st.1.setHeldAt held parent,
    st.2.addSourcesToSheet (e.1, completed (st.1.ownerAt parent) e.2 sources))

/-- A call gives back an amount of what it holds; the state is what it holds and what it returns. -/
def giveBack (owner : SchemaAlkaneId) (st : SourcedSheet A × SourcedSheet A) (e : SchemaAlkaneId × ℕ) :
    SourcedSheet A × SourcedSheet A :=
  let (sources, held) := st.1.takeSourcesFromSheet e.1 e.2
  (held, st.2.addSourcesToSheet (e.1, completed (some owner) e.2 sources))

/-- Give units to the frame at an index. -/
def refund (i : ℕ) (units : SourcedSheet A) : SourceWalk A :=
  w.setHeldAt ((w.heldAt (some i)).mergeSourcedSheet units) (some i)

/-- The kind of a frame; all is static inside a static call. -/
def kindOf (inv : InvokeData) : FrameKind :=
  if w.stack.any fun frame => frame.kind = .static then .static else inv.kind

/-- A call opens. -/
def invoke (inv : InvokeData) (owner : SchemaAlkaneId) : SourceWalk A :=
  let kind := w.kindOf inv
  let parent := nearestNormalIndex w.stack
  let (w, incoming) :=
    if kind = .static then (w, ∅)
    else (transfersToSheet inv.incomingAlkanes).toList.foldl (bringIn parent) (w, ∅)
  { w with stack := w.stack ++ [⟨kind, owner, parent, incoming, incoming⟩] }

/-- A call has failed: its caller has again what it brought in. -/
def failed (frame : SourceFrame A) : SourceWalk A :=
  match frame.parentNormalIndex with
  | some i => w.refund i frame.incoming
  | none => w

/-- A call has succeeded. -/
def succeeded (frame : SourceFrame A) (ret : ReturnData) : SourceWalk A :=
  let (held, returned) := (transfersToSheet ret.alkanes).toList.foldl (giveBack frame.owner) (frame.held, ∅)
  let w := { w with sendContracts := recordSends frame.owner held w.sendContracts }
  match frame.parentNormalIndex with
  | some i => w.refund i returned
  | none => { w with returned := w.returned.mergeSourcedSheet returned }

/-- One event; `none` for an id that does not parse or a return without a frame. -/
def step : TraceEvent → Option (SourceWalk A)
  | .opening inv => (parseShortId inv.myself).map fun owner => w.invoke inv owner
  | .closing ret =>
    match w.stack.getLast? with
    | none => none
    | some frame =>
      let w := { w with stack := w.stack.dropLast }
      if frame.kind = .static then some w
      else if ret.status = .failure then some (w.failed frame)
      else some (w.succeeded frame ret)
  | .leaf _ => some w

end SourceWalk

/-- `TraceSourceFlow`. -/
structure TraceSourceFlow (A : Type*) where
  sendContracts : AddressContractAmounts A
  returned : SourcedSheet A

/-- `trace_source_flow`. -/
def traceSourceFlow (bitcoin : BitcoinDecode) (host : HostFunctionValues) (trace : Trace)
    (incomingSources : SourcedSheet A) : Option (TraceSourceFlow A) :=
  (cleanTrace bitcoin host trace).bind fun trace =>
    (trace.events.foldlM SourceWalk.step ⟨[], incomingSources, ∅, ∅⟩).bind fun w =>
      if w.stack.isEmpty then some ⟨w.sendContracts, w.returned⟩ else none

/-! ## The units of an address -/

/-- The units that come from an address. -/
def fromAddress (a : A) (sources : SourceAmounts A) : ℕ :=
  (sources.map fun e => if e.1 = .address a then e.2 else 0).sum

section
variable (a : A) (sources : SourceAmounts A)

@[simp]
lemma fromAddress_nil : fromAddress a [] = 0 := rfl

variable (e : AttributionSource A × ℕ)

@[simp]
lemma fromAddress_cons :
    fromAddress a (e :: sources) = (if e.1 = .address a then e.2 else 0) + fromAddress a sources := by
  rw [fromAddress, map_cons, sum_cons, fromAddress]

@[simp]
lemma fromAddress_append (s t : SourceAmounts A) :
    fromAddress a (s ++ t) = fromAddress a s + fromAddress a t := by
  rw [fromAddress, map_append, sum_append, fromAddress, fromAddress]

lemma saturatingAdd_le (m n : ℕ) : saturatingAdd m n ≤ m + n := min_le_left _ _

lemma fromAddress_addSourceAmount_le : fromAddress a (addSourceAmount sources e)
    ≤ fromAddress a sources + if e.1 = .address a then e.2 else 0 := by
  unfold addSourceAmount
  by_cases hzero : e.2 = 0
  · rw [if_pos hzero]
    exact Nat.le_add_right _ _
  · rw [if_neg hzero]
    cases hlast : sources.getLast? with
    | none => simp
    | some last =>
      dsimp only
      by_cases hsame : last.1 = e.1
      · obtain ⟨init, rfl⟩ := getLast?_eq_some_iff.1 hlast
        have hadd := saturatingAdd_le last.2 e.2
        rw [if_pos hsame, dropLast_concat]
        simp only [fromAddress_append, fromAddress_cons, ← hsame]
        split_ifs <;> omega
      · simp [hsame]

lemma fromAddress_takeSourcesFrom_le (taken : SourceAmounts A) (remaining : ℕ) :
    fromAddress a (takeSourcesFrom taken remaining sources).1
        + fromAddress a (takeSourcesFrom taken remaining sources).2
      ≤ fromAddress a taken + fromAddress a sources := by
  induction sources generalizing taken remaining with
  | nil => simp [takeSourcesFrom]
  | cons e rest ih =>
    have hadd := fromAddress_addSourceAmount_le a taken (e.1, min e.2 remaining)
    have hrest := ih (addSourceAmount taken (e.1, min e.2 remaining)) (remaining - min e.2 remaining)
    unfold takeSourcesFrom
    rw [fromAddress_cons]
    by_cases hsrc : e.1 = .address a <;> simp only [hsrc, if_true, if_false] at hadd hrest ⊢ <;>
      split_ifs <;> simp [hsrc] <;> omega

lemma fromAddress_completed (contract : Option SchemaAlkaneId) (amount : ℕ) :
    fromAddress a (completed contract amount sources) ≤ fromAddress a sources := by
  unfold completed
  split_ifs
  · cases contract with
    | none => exact le_rfl
    | some id => simpa using fromAddress_addSourceAmount_le a sources (.contract id, _)
  · exact le_rfl

end

namespace SourcedSheet

/-- The units of a token that come from an address. -/
def units (a : A) (token : SchemaAlkaneId) (sheet : SourcedSheet A) : ℕ :=
  fromAddress a (sheet.sources token)

/-- The units of a token in one entry of a sheet. -/
def entryUnits (a : A) (token : SchemaAlkaneId) (e : SchemaAlkaneId × SourceAmounts A) : ℕ :=
  if e.1 = token then fromAddress a e.2 else 0

variable (a : A) (token : SchemaAlkaneId) (sheet : SourcedSheet A)

@[simp]
lemma units_empty : units a token (∅ : SourcedSheet A) = 0 := rfl

omit [DecidableEq A] in
lemma sources_set (token' : SchemaAlkaneId) (sources : SourceAmounts A) :
    SourcedSheet.sources (if sources.isEmpty then sheet.delete token else sheet.put token sources) token'
      = if token' = token then sources else sheet.sources token' := by
  unfold SourcedSheet.sources
  split_ifs with hempty heq heq
  · rw [Table.get_delete, if_pos heq, List.isEmpty_iff.1 hempty]
    rfl
  · rw [Table.get_delete, if_neg heq]
  · rw [Table.get_put, if_pos heq]
    rfl
  · rw [Table.get_put, if_neg heq]

lemma units_addSourcesToSheet_le (e : SchemaAlkaneId × SourceAmounts A) :
    units a token (sheet.addSourcesToSheet e) ≤ units a token sheet + entryUnits a token e := by
  unfold addSourcesToSheet entryUnits units
  split_ifs with hempty htoken htoken
  · exact Nat.le_add_right _ _
  · exact Nat.le_add_right _ _
  · rw [sources_set, if_pos htoken.symm, ← htoken]
    exact foldl_le_sum (fromAddress_addSourceAmount_le a) e.2 _
  · rw [sources_set, if_neg (Ne.symm htoken)]
    exact Nat.le_add_right _ _

lemma sum_toList : (sheet.toList.map (entryUnits a token)).sum = units a token sheet := by
  have hsum : (sheet.toList.map (entryUnits a token)).sum
      = ∑ id ∈ sheet.keys, if id = token then fromAddress a (sheet.sources id) else 0 := by
    rw [toList, List.map_map, ← Finset.sort_toFinset sheet.keys (· ≤ ·),
      sum_toFinset _ (Finset.sort_nodup _ _), Finset.sort_toFinset]
    rfl
  rw [hsum, Finset.sum_ite_eq']
  split_ifs with hid
  · rfl
  · rw [units, SourcedSheet.sources, Table.notMem_keys.1 hid]
    rfl

lemma units_mergeSourcedSheet_le (target source : SourcedSheet A) :
    units a token (target.mergeSourcedSheet source) ≤ units a token target + units a token source := by
  rw [← sum_toList a token source]
  exact foldl_le_sum (units_addSourcesToSheet_le a token) source.toList target

lemma units_takeSourcesFromSheet_le (e : SchemaAlkaneId × ℕ) :
    entryUnits a token (e.1, (sheet.takeSourcesFromSheet e.1 e.2).1)
        + units a token (sheet.takeSourcesFromSheet e.1 e.2).2
      ≤ units a token sheet := by
  unfold takeSourcesFromSheet
  split_ifs with hzero
  · simp [entryUnits]
  · cases hget : sheet.get e.1 with
    | none => simp [entryUnits]
    | some sources =>
      have htake := fromAddress_takeSourcesFrom_le a sources [] e.2
      unfold entryUnits units
      rw [sources_set]
      unfold takeSourcesFromAmounts
      by_cases htoken : e.1 = token
      · have hsources : sheet.sources token = sources := by
          rw [SourcedSheet.sources, ← htoken, hget]
          rfl
        rw [if_pos htoken, if_pos htoken.symm, hsources]
        simpa using htake
      · rw [if_neg htoken, if_neg (Ne.symm htoken)]
        omega

/-- What is taken from a sheet and completed by a contract goes to another one. -/
theorem units_move_le (contract : Option SchemaAlkaneId) (other : SourcedSheet A) (e : SchemaAlkaneId × ℕ) :
    units a token (sheet.takeSourcesFromSheet e.1 e.2).2 + units a token
        (other.addSourcesToSheet (e.1, completed contract e.2 (sheet.takeSourcesFromSheet e.1 e.2).1))
      ≤ units a token sheet + units a token other := by
  have htake := units_takeSourcesFromSheet_le a token sheet e
  have hadd := units_addSourcesToSheet_le a token other
    (e.1, completed contract e.2 (sheet.takeSourcesFromSheet e.1 e.2).1)
  have hcompleted := fromAddress_completed a (sheet.takeSourcesFromSheet e.1 e.2).1 contract e.2
  unfold entryUnits at htake hadd
  dsimp only at htake hadd
  split_ifs at htake hadd <;> omega

end SourcedSheet

/-! ## What is sent -/

/-- What an address has sent of a token, to all contracts. -/
def sentBy (a : A) (token : SchemaAlkaneId) (sends : AddressContractAmounts A) : ℕ :=
  ∑ key ∈ sends.keys, if key.1 = a ∧ key.2.2 = token then (sends.get key).getD 0 else 0

section
variable (a : A) (token contract token' : SchemaAlkaneId) (sends : AddressContractAmounts A)

lemma sentBy_put (key : A × SchemaAlkaneId × SchemaAlkaneId) (amount : ℕ) :
    sentBy a token (sends.put key amount)
        + (if key.1 = a ∧ key.2.2 = token then (sends.get key).getD 0 else 0)
      = sentBy a token sends + if key.1 = a ∧ key.2.2 = token then amount else 0 := by
  let counted (key : A × SchemaAlkaneId × SchemaAlkaneId) (n : ℕ) : ℕ :=
    if key.1 = a ∧ key.2.2 = token then n else 0
  have hrow : ∀ (s : AddressContractAmounts A) key,
      (if key.1 = a ∧ key.2.2 = token then (s.get key).getD 0 else 0) = (s.get key).elim 0 (counted key) := by
    intro s key
    cases s.get key <;> simp [counted]
  simp only [sentBy, hrow]
  exact Table.rowSum_put counted sends key amount

lemma sentBy_recordSend_le (e : AttributionSource A × ℕ) :
    sentBy a token (recordSend contract token' sends e) ≤ sentBy a token sends
      + if token' = token then if e.1 = .address a then e.2 else 0 else 0 := by
  unfold recordSend
  cases hsource : e.1 with
  | contract id => exact Nat.le_add_right _ _
  | address address =>
    dsimp only
    unfold addAddressContractAmount
    by_cases hzero : e.2 = 0
    · rw [if_pos hzero]
      exact Nat.le_add_right _ _
    · have hadd := saturatingAdd_le ((sends.get (address, contract, token')).getD 0) e.2
      have hput := sentBy_put a token sends (address, contract, token')
        (saturatingAdd ((sends.get (address, contract, token')).getD 0) e.2)
      rw [if_neg hzero]
      simp only [AttributionSource.address.injEq]
      by_cases htoken : token' = token
      · simp only [htoken, and_true] at hput hadd ⊢
        split_ifs at hput ⊢ <;> omega
      · simp only [htoken, and_false, if_false] at hput ⊢
        omega

lemma sentBy_foldl_recordSend_le (sources : SourceAmounts A) :
    sentBy a token (sources.foldl (recordSend contract token') sends)
      ≤ sentBy a token sends + SourcedSheet.entryUnits a token (token', sources) := by
  refine (foldl_le_sum (sentBy_recordSend_le a token contract token') sources sends).trans
    (Nat.add_le_add_left ?_ _)
  unfold SourcedSheet.entryUnits
  split_ifs
  · exact le_rfl
  · simp

lemma sentBy_recordSends_le (held : SourcedSheet A) : sentBy a token (recordSends contract held sends)
    ≤ sentBy a token sends + SourcedSheet.units a token held := by
  rw [← SourcedSheet.sum_toList a token held]
  exact foldl_le_sum (fun sends e => sentBy_foldl_recordSend_le a token contract e.1 sends e.2) held.toList sends

end

/-! ## The balance of the walk -/

namespace SourceWalk
variable (a : A) (token : SchemaAlkaneId) (stack : List (SourceFrame A))

/-- The units that frames hold. -/
def stackUnits : ℕ :=
  (stack.map fun frame => frame.held.units a token).sum

variable (w : SourceWalk A)

/-- The units that are still on their way: those that no call has taken and those that frames hold. -/
def underway : ℕ := w.topSources.units a token + stackUnits a token w.stack

/-- The units that are reported: as sent or as returned. -/
def reported : ℕ := sentBy a token w.sendContracts + w.returned.units a token

/-- A failed call with a normal caller gives back units that it no longer holds. -/
def regained : TraceEvent → ℕ
  | .closing ret =>
    match w.stack.getLast? with
    | some frame =>
      if frame.kind ≠ .static ∧ ret.status = .failure ∧ frame.parentNormalIndex.isSome then
        frame.incoming.units a token - frame.held.units a token
      else 0
    | none => 0
  | _ => 0

/-- The units that failed calls give back although calls inside them have kept them. -/
def recounted : SourceWalk A → List TraceEvent → ℕ
  | _, [] => 0
  | w, ev :: evs =>
    w.regained a token ev + match w.step ev with
      | some w' => recounted w' evs
      | none => 0

/-- The units that are never reported: those that are underway at the end, and those that a step loses,
because a frame without a normal caller fails or because an amount saturates. -/
def unreported : SourceWalk A → List TraceEvent → ℕ
  | w, [] => w.underway a token
  | w, ev :: evs =>
    match w.step ev with
    | some w' =>
      w.underway a token + w.reported a token + w.regained a token ev
          - (w'.underway a token + w'.reported a token) + unreported w' evs
    | none => 0

variable (frame : SourceFrame A)

lemma stackUnits_concat :
    stackUnits a token (stack ++ [frame]) = stackUnits a token stack + frame.held.units a token := by
  simp [stackUnits]

lemma stackUnits_modify (i : ℕ) (held : SourcedSheet A) :
    stackUnits a token (stack.modify i fun frame => { frame with held := held })
        + (((stack[i]?).map SourceFrame.held).getD ∅).units a token
      ≤ stackUnits a token stack + held.units a token := by
  have hsum := sum_map_modify (fun frame : SourceFrame A => frame.held.units a token)
    (fun frame => { frame with held := held }) stack i
  unfold stackUnits
  cases hget : stack[i]? <;> simp only [hget, Option.elim_none, Option.elim_some, Option.map_none,
    Option.map_some, Option.getD_none, Option.getD_some, SourcedSheet.units_empty] at hsum ⊢ <;> omega

lemma underway_setHeldAt (held : SourcedSheet A) (parent : Option ℕ) :
    (w.setHeldAt held parent).underway a token + (w.heldAt parent).units a token
      ≤ w.underway a token + held.units a token := by
  cases parent with
  | none =>
    simp only [setHeldAt, heldAt, underway]
    omega
  | some i =>
    have hmodify := stackUnits_modify a token w.stack i held
    simp only [setHeldAt, heldAt, underway] at hmodify ⊢
    omega

lemma reported_setHeldAt (held : SourcedSheet A) (parent : Option ℕ) :
    (w.setHeldAt held parent).reported a token = w.reported a token := by
  cases parent <;> rfl

lemma bringIn_le (parent : Option ℕ) (st : SourceWalk A × SourcedSheet A) (e : SchemaAlkaneId × ℕ) :
    (bringIn parent st e).1.underway a token + (bringIn parent st e).2.units a token
      ≤ st.1.underway a token + st.2.units a token := by
  have hset := underway_setHeldAt a token st.1
    ((st.1.heldAt parent).takeSourcesFromSheet e.1 e.2).2 parent
  have hmove := SourcedSheet.units_move_le a token (st.1.heldAt parent) (st.1.ownerAt parent) st.2 e
  unfold bringIn
  dsimp only
  omega

lemma foldl_bringIn_le (parent : Option ℕ) (entries : List (SchemaAlkaneId × ℕ))
    (st : SourceWalk A × SourcedSheet A) :
    (entries.foldl (bringIn parent) st).1.underway a token
          + (entries.foldl (bringIn parent) st).2.units a token
        ≤ st.1.underway a token + st.2.units a token
      ∧ (entries.foldl (bringIn parent) st).1.reported a token = st.1.reported a token := by
  refine foldlRecOn (motive := fun st' : SourceWalk A × SourcedSheet A =>
    st'.1.underway a token + st'.2.units a token ≤ _ ∧ st'.1.reported a token = _) _ _ ⟨le_rfl, rfl⟩
    fun st' h e _ => ⟨(bringIn_le a token parent st' e).trans h.1, .trans ?_ h.2⟩
  exact reported_setHeldAt a token st'.1 _ parent

lemma foldl_giveBack_le (owner : SchemaAlkaneId) (entries : List (SchemaAlkaneId × ℕ))
    (st : SourcedSheet A × SourcedSheet A) :
    (entries.foldl (giveBack owner) st).1.units a token
        + (entries.foldl (giveBack owner) st).2.units a token
      ≤ st.1.units a token + st.2.units a token := by
  refine foldlRecOn (motive := fun st' : SourcedSheet A × SourcedSheet A =>
    st'.1.units a token + st'.2.units a token ≤ _) _ _ le_rfl fun st' h e _ => .trans ?_ h
  exact SourcedSheet.units_move_le a token st'.1 (some owner) st'.2 e

lemma underway_refund_le (i : ℕ) (units : SourcedSheet A) :
    (w.refund i units).underway a token ≤ w.underway a token + units.units a token := by
  have hmerge := SourcedSheet.units_mergeSourcedSheet_le a token (w.heldAt (some i)) units
  have hset := underway_setHeldAt a token w ((w.heldAt (some i)).mergeSourcedSheet units) (some i)
  unfold refund
  omega

lemma reported_refund (i : ℕ) (units : SourcedSheet A) :
    (w.refund i units).reported a token = w.reported a token := rfl

lemma invoke_le (inv : InvokeData) (owner : SchemaAlkaneId) :
    (w.invoke inv owner).underway a token + (w.invoke inv owner).reported a token
      ≤ w.underway a token + w.reported a token := by
  have hpush : ∀ (w' : SourceWalk A) (frame : SourceFrame A),
      ({ w' with stack := w'.stack ++ [frame] } : SourceWalk A).underway a token
        = w'.underway a token + frame.held.units a token := by
    intro w' frame
    rw [underway, stackUnits_concat, ← Nat.add_assoc]
    rfl
  obtain ⟨hunderway, hreported⟩ := foldl_bringIn_le a token (nearestNormalIndex w.stack)
    (transfersToSheet inv.incomingAlkanes).toList (w, ∅)
  unfold invoke
  dsimp only
  split_ifs
  · rw [hpush]
    exact le_rfl
  · rw [hpush]
    dsimp only [reported] at hreported ⊢
    simp only [SourcedSheet.units_empty] at hunderway
    omega

lemma failed_le :
    (w.failed frame).underway a token + (w.failed frame).reported a token
      ≤ w.underway a token + w.reported a token
        + if frame.parentNormalIndex.isSome then frame.incoming.units a token else 0 := by
  unfold failed
  cases frame.parentNormalIndex with
  | none => exact le_rfl
  | some i =>
    have hrefund := underway_refund_le a token w i frame.incoming
    dsimp only [Option.isSome_some]
    rw [if_pos rfl, reported_refund]
    omega

lemma succeeded_le (ret : ReturnData) :
    (w.succeeded frame ret).underway a token + (w.succeeded frame ret).reported a token
      ≤ w.underway a token + w.reported a token + frame.held.units a token := by
  unfold succeeded
  have hgive := foldl_giveBack_le a token frame.owner (transfersToSheet ret.alkanes).toList (frame.held, ∅)
  generalize (transfersToSheet ret.alkanes).toList.foldl (giveBack frame.owner) (frame.held, ∅) = st at hgive ⊢
  have hsent := sentBy_recordSends_le a token frame.owner w.sendContracts st.1
  simp only [SourcedSheet.units_empty] at hgive
  cases frame.parentNormalIndex with
  | none =>
    have hmerge := SourcedSheet.units_mergeSourcedSheet_le a token w.returned st.2
    simp only [underway, reported] at hmerge ⊢
    omega
  | some i =>
    have hrefund := underway_refund_le a token
      { w with sendContracts := recordSends frame.owner st.1 w.sendContracts } i st.2
    rw [reported_refund]
    simp only [underway, reported] at hrefund ⊢
    omega

/-- An event adds no units but those that a failed call gives back without holding them. -/
theorem step_le {w w' : SourceWalk A} {ev : TraceEvent} (h : w.step ev = some w') :
    w'.underway a token + w'.reported a token
      ≤ w.underway a token + w.reported a token + w.regained a token ev := by
  cases ev with
  | opening inv =>
    obtain ⟨owner, -, rfl⟩ := Option.map_eq_some_iff.1 h
    exact invoke_le a token w inv owner
  | leaf id =>
    obtain rfl : w = w' := Option.some.inj h
    exact Nat.le_add_right _ _
  | closing ret =>
    unfold step at h
    unfold regained
    cases hlast : w.stack.getLast? with
    | none => simp [hlast] at h
    | some frame =>
      rw [hlast] at h
      dsimp only at h ⊢
      -- the frame leaves the stack with the units that it holds
      have hpop : ({ w with stack := w.stack.dropLast } : SourceWalk A).underway a token
          + frame.held.units a token = w.underway a token := by
        obtain ⟨init, hinit⟩ := getLast?_eq_some_iff.1 hlast
        simp only [underway, hinit, dropLast_concat, stackUnits_concat]
        omega
      have hkeep : ({ w with stack := w.stack.dropLast } : SourceWalk A).reported a token
          = w.reported a token := rfl
      split_ifs at h with hstatic hstatus
      · cases h
        omega
      · cases h
        have hfailed := failed_le a token { w with stack := w.stack.dropLast } frame
        split_ifs at hfailed ⊢ <;> first | omega | simp_all
      · cases h
        have hsucceeded := succeeded_le a token { w with stack := w.stack.dropLast } frame ret
        omega

/-- What comes in and what is counted again is reported, or is never reported. -/
theorem run_balance {evs : List TraceEvent} {w w' : SourceWalk A} (h : evs.foldlM step w = some w') :
    w.underway a token + w.reported a token + recounted a token w evs
      = w'.reported a token + unreported a token w evs := by
  induction evs generalizing w with
  | nil =>
    obtain rfl : w = w' := Option.some.inj h
    simp only [recounted, unreported]
    omega
  | cons ev evs ih =>
    obtain ⟨next, hnext, hrun⟩ := Option.bind_eq_some_iff.1 h
    have hstep := step_le a token hnext
    have hrest := ih hrun
    simp only [recounted, unreported, hnext]
    omega

end SourceWalk

/-- One address has 9 units of 2:7. -/
def nineUnits : SourcedSheet Text := Table.put ∅ ⟨2, 7⟩ [(.address "bc1q".toList, 9)]

/-- The calls of `failedCalls`, but 2:2 fails before it has passed anything on. -/
def earlyFailure : CallForest :=
  .node (callOf "call" (hexId '2' '1') (hexId '2' '7') '9')
    (.node (callOf "call" (hexId '2' '2') (hexId '2' '7') '6') .nil
      (returnOf .failure (hexId '2' '7') '0') .nil)
    (returnOf .success (hexId '2' '7') '5') .nil

end Espo.Essentials
