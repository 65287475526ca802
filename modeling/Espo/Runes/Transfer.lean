import Espo.Lib.TableSum
import Espo.Runes.Types

/-!
# Where the runes of a transaction go

Edicts move amounts from the unallocated runes of a transaction to its outputs, one output or all
that are not an `OP_RETURN`; what is left goes to the pointer's output or to the first output that is
not an `OP_RETURN`, and is burned when there is none.

Amounts are `u128`. An addition that leaves that range wraps around, and the sheet it is made on
remembers it. As long as no total leaves the range nothing is lost or gained, and nothing wraps.
-/

namespace Espo.Runes
open Lib List

/-- The number of `u128` values. -/
def u128Size : ℕ := 2 ^ 128

/-! ## Sheets -/

/-- `RuneSheet`; `overflow` tells whether an addition on the sheet has wrapped around. -/
structure RuneSheet (I : Type) where
  rows : Table I ℕ
  overflow : Bool

namespace RuneSheet
variable {I : Type} [LinearOrder I]

/-- `RuneSheet::new`. -/
def empty : RuneSheet I := ⟨∅, false⟩

variable (s : RuneSheet I)

/-- The amount on a sheet. -/
def amount (id : I) : ℕ := (s.rows.get id).getD 0

/-- `*sheet.entry(id).or_default() += amount`. -/
def add (id : I) (amount : ℕ) : RuneSheet I where
  rows := s.rows.put id ((s.amount id + amount) % u128Size)
  overflow := s.overflow || decide (u128Size ≤ s.amount id + amount)

/-- Set an amount. -/
def set (id : I) (amount : ℕ) : RuneSheet I :=
  { s with rows := s.rows.put id amount }

/-- The entries in the order of a `BTreeMap`. -/
def toList : List (I × ℕ) :=
  (s.rows.keys.sort (· ≤ ·)).map fun id => (id, s.amount id)

@[simp]
lemma amount_empty (id : I) : (empty : RuneSheet I).amount id = 0 := rfl

variable {s : RuneSheet I}

lemma amount_eq_zero (h : s.rows.keys = ∅) (id : I) : s.amount id = 0 := by
  have hget : s.rows.get id = none := Table.notMem_keys.1 (h ▸ Finset.notMem_empty id)
  rw [amount, hget]
  rfl

lemma amount_set (id id' : I) (amt : ℕ) :
    (s.set id amt).amount id' = if id' = id then amt else s.amount id' := by
  unfold amount set
  rw [Table.get_put]
  split_ifs <;> rfl

lemma amount_add {id : I} {amt : ℕ} (hfit : s.amount id + amt < u128Size) (id' : I) :
    (s.add id amt).amount id' = s.amount id' + if id' = id then amt else 0 := by
  have hmod : (s.amount id + amt) % u128Size = s.amount id + amt := Nat.mod_eq_of_lt hfit
  unfold add
  rw [hmod, amount, Table.get_put]
  split_ifs with h
  · rw [h]
    rfl
  · rfl

lemma overflow_add {id : I} {amt : ℕ} (hfit : s.amount id + amt < u128Size) :
    (s.add id amt).overflow = s.overflow := by
  have hlt : ¬ u128Size ≤ s.amount id + amt := by omega
  simp [add, hlt]

end RuneSheet

/-- `OutputRuneSheets`. -/
abbrev OutputRuneSheets (I : Type) := Table ℕ (RuneSheet I)

/-- The sheet of an output. -/
def OutputRuneSheets.sheet {I : Type} [LinearOrder I] (outs : OutputRuneSheets I) (vout : ℕ) :
    RuneSheet I :=
  (outs.get vout).getD .empty

lemma OutputRuneSheets.sheet_put {I : Type} [LinearOrder I] (outs : OutputRuneSheets I) (vout : ℕ)
    (s : RuneSheet I) (v : ℕ) : sheet (outs.put vout s) v = if v = vout then s else outs.sheet v := by
  unfold sheet
  rw [Table.get_put]
  split_ifs <;> rfl

/-- The sheets in the order of a `BTreeMap`. -/
def OutputRuneSheets.toList {I : Type} [LinearOrder I] (outs : OutputRuneSheets I) :
    List (ℕ × RuneSheet I) :=
  (outs.keys.sort (· ≤ ·)).map fun vout => (vout, outs.sheet vout)

/-- What a transaction still has to allocate, and what it has allocated. -/
structure Allocation (I : Type) where
  unallocated : RuneSheet I
  allocated : OutputRuneSheets I

section Defs
variable {I A : Type} [LinearOrder I] (outputs : List (TxOut A))

/-- The outputs that are not an `OP_RETURN`. -/
def nonOpReturnVouts : List ℕ := (outputs.zipIdx.filter fun o => !o.1.opReturn).map Prod.snd

/-- The closure `allocate` of `apply_edict`. -/
def allocate (id : I) (st : Allocation I) (amount vout : ℕ) : Allocation I :=
  if amount = 0 then st
  else
    { unallocated := st.unallocated.set id (st.unallocated.amount id - amount)
      allocated := st.allocated.put vout ((st.allocated.sheet vout).add id amount) }

/-- The even split of a multicast: the first outputs take one more when it does not divide. -/
def multicastShares (destinations : List ℕ) (balance : ℕ) : List (ℕ × ℕ) :=
  destinations.zipIdx.map fun d =>
    (d.1, if d.2 < balance % destinations.length then balance / destinations.length + 1
      else balance / destinations.length)

/-- `apply_edict`. -/
def applyEdict (st : Allocation I) (id : I) (amount output : ℕ) : Allocation I :=
  match st.unallocated.rows.get id with
  | none => st
  | some balance =>
    if outputs.length < output then st
    else if output = outputs.length then
      let destinations := nonOpReturnVouts outputs
      if destinations = [] then st
      else if amount = 0 then
        (multicastShares destinations balance).foldl (fun st d => allocate id st d.2 d.1) st
      else
        destinations.foldl
          (fun st vout => allocate id st (min amount (st.unallocated.amount id)) vout) st
    else allocate id st (if amount = 0 then balance else min amount balance) output

/-- What the outputs take of a multicast with an amount: that much each, as long as it lasts. -/
def cappedShares (destinations : List ℕ) (amount balance : ℕ) : List (ℕ × ℕ) :=
  destinations.zipIdx.map fun d => (d.1, min amount (balance - d.2 * amount))

/-- What an edict gives to which output. -/
def edictShares (balance amount output : ℕ) : List (ℕ × ℕ) :=
  if outputs.length < output then []
  else if output = outputs.length then
    if amount = 0 then multicastShares (nonOpReturnVouts outputs) balance
    else cappedShares (nonOpReturnVouts outputs) amount balance
  else [(output, if amount = 0 then balance else min amount balance)]

/-- Where `route_leftovers` sends what is left. -/
def leftoverDestination (pointer : Option ℕ) : Option ℕ :=
  pointer.or ((nonOpReturnVouts outputs).head?)

/-- Add the entries that are not zero. -/
def RuneSheet.merge (s : RuneSheet I) (entries : List (I × ℕ)) : RuneSheet I :=
  entries.foldl (fun s e => if 0 < e.2 then s.add e.1 e.2 else s) s

/-- `route_leftovers`: what it returns to be burned stays unallocated. -/
def routeLeftovers (st : Allocation I) (pointer : Option ℕ) : Allocation I :=
  match leftoverDestination outputs pointer with
  | none => st
  | some vout =>
    if outputs.length ≤ vout then st
    else
      { unallocated := ⟨∅, st.unallocated.overflow⟩
        allocated := st.allocated.put vout ((st.allocated.sheet vout).merge st.unallocated.toList) }

end Defs

/-! ## Nothing is lost -/

section Conservation
variable {I A : Type} [LinearOrder I] {outputs : List (TxOut A)} {st : Allocation I} {id : I}
  (outs : OutputRuneSheets I)

/-- What the outputs have been given of a rune. -/
def OutputRuneSheets.total (id : I) : ℕ :=
  ∑ vout ∈ outs.keys, (outs.sheet vout).amount id

lemma OutputRuneSheets.total_put (vout : ℕ) (sheet : RuneSheet I) (id : I) :
    OutputRuneSheets.total (outs.put vout sheet) id + (outs.sheet vout).amount id =
      outs.total id + sheet.amount id := by
  have hrow : ∀ (s : OutputRuneSheets I) v,
      (s.sheet v).amount id = (s.get v).elim 0 fun sheet => sheet.amount id := by
    intro s v
    rw [OutputRuneSheets.sheet]
    cases s.get v <;> rfl
  simp only [OutputRuneSheets.total, hrow]
  exact Table.rowSum_put (fun _ sheet => sheet.amount id) outs vout sheet

/-- Nothing has wrapped around, only outputs of the transaction have sheets, and for each rune what
is left and what is allocated make up `total`. -/
structure Allocation.Sound (outputs : List (TxOut A)) (total : I → ℕ) (st : Allocation I) : Prop where
  unallocated : st.unallocated.overflow = false
  allocated : ∀ vout, (st.allocated.sheet vout).overflow = false
  vouts : ∀ vout ∈ st.allocated.keys, vout < outputs.length
  sum : ∀ id, st.unallocated.amount id + st.allocated.total id = total id

lemma OutputRuneSheets.amount_le_total (vout : ℕ) (id : I) :
    (outs.sheet vout).amount id ≤ outs.total id := by
  by_cases hv : vout ∈ outs.keys
  · exact Finset.single_le_sum (f := fun v => (outs.sheet v).amount id) (fun _ _ => Nat.zero_le _) hv
  · rw [OutputRuneSheets.sheet, Table.notMem_keys.1 hv]
    exact Nat.zero_le _

variable {vout amount : ℕ} {sheet : RuneSheet I} {shares : List (ℕ × ℕ)}

lemma Allocation.Sound.put_sheet {total : I → ℕ} (h : st.Sound outputs total)
    {unallocated : RuneSheet I} (hvout : vout < outputs.length)
    (hunallocated : unallocated.overflow = false) (hsheet : sheet.overflow = false)
    (hsum : ∀ id, unallocated.amount id + sheet.amount id = st.unallocated.amount id + (st.allocated.sheet vout).amount id) :
    Allocation.Sound outputs total ⟨unallocated, st.allocated.put vout sheet⟩ where
  unallocated := hunallocated
  allocated v := by
    rw [OutputRuneSheets.sheet_put]
    split_ifs with hv
    · exact hsheet
    · exact h.allocated v
  vouts v hv := by
    obtain ⟨sheet', hget⟩ := Table.mem_keys.1 hv
    rw [Table.get_put] at hget
    split_ifs at hget with heq
    · exact heq ▸ hvout
    · exact h.vouts v (Table.mem_keys_of_get hget)
  sum id := by
    have hput := OutputRuneSheets.total_put st.allocated vout sheet id
    have hid := hsum id
    have hold := h.sum id
    show unallocated.amount id + OutputRuneSheets.total (st.allocated.put vout sheet) id = total id
    omega

variable {total : I → ℕ} (h : st.Sound outputs total) (htotal : ∀ id, total id < u128Size)

include h htotal in
lemma Allocation.Sound.lt_size (vout : ℕ) (id : I) :
    (st.allocated.sheet vout).amount id + st.unallocated.amount id < u128Size := by
  have hle := OutputRuneSheets.amount_le_total st.allocated vout id
  have hsum := h.sum id
  have hlt := htotal id
  omega

include h htotal in
lemma Allocation.Sound.allocate (hamount : amount ≤ st.unallocated.amount id)
    (hvout : vout < outputs.length) : (allocate id st amount vout).Sound outputs total := by
  unfold Runes.allocate
  split_ifs with hzero
  · exact h
  · have hlt := h.lt_size htotal vout id
    have hfit : (st.allocated.sheet vout).amount id + amount < u128Size := by omega
    refine h.put_sheet hvout ?_ ?_ ?_
    · exact h.unallocated
    · rw [RuneSheet.overflow_add hfit]
      exact h.allocated vout
    · intro id'
      rw [RuneSheet.amount_set, RuneSheet.amount_add hfit]
      split_ifs with heq
      · subst heq
        omega
      · rfl

lemma unallocated_allocate (amount vout : ℕ) :
    (allocate id st amount vout).unallocated.amount id = st.unallocated.amount id - amount := by
  unfold allocate
  split_ifs with hzero
  · omega
  · rw [RuneSheet.amount_set, if_pos rfl]

/-- What a list of entries holds of a rune. -/
def entryTotal (entries : List (I × ℕ)) (id : I) : ℕ :=
  (entries.map fun e => if e.1 = id then e.2 else 0).sum

include h htotal in
lemma sheet_allocate (hamount : amount ≤ st.unallocated.amount id) (v : ℕ) :
    ((allocate id st amount vout).allocated.sheet v).amount id =
      (st.allocated.sheet v).amount id + if vout = v then amount else 0 := by
  unfold allocate
  split_ifs with hzero heq heq
  · rw [hzero, add_zero]
  · rw [add_zero]
  · subst heq
    have hlt := h.lt_size htotal vout id
    rw [OutputRuneSheets.sheet_put, if_pos rfl, RuneSheet.amount_add (by omega), if_pos rfl]
  · rw [OutputRuneSheets.sheet_put, if_neg (Ne.symm heq), add_zero]

include h htotal in
lemma Allocation.Sound.foldl_allocate (hsum : (shares.map Prod.snd).sum ≤ st.unallocated.amount id)
    (hvouts : ∀ d ∈ shares, d.1 < outputs.length) :
    let st' := shares.foldl (fun st d => Runes.allocate id st d.2 d.1) st
    st'.Sound outputs total ∧
      st'.unallocated.amount id = st.unallocated.amount id - (shares.map Prod.snd).sum ∧
      ∀ v, (st'.allocated.sheet v).amount id =
        (st.allocated.sheet v).amount id + entryTotal shares v := by
  induction shares generalizing st with
  | nil => exact ⟨h, rfl, fun _ => rfl⟩
  | cons d shares ih =>
    rw [map_cons, sum_cons] at hsum
    have hamount : d.2 ≤ st.unallocated.amount id := by omega
    have hstep := h.allocate htotal hamount (hvouts d mem_cons_self)
    obtain ⟨hsound, hleft, hsheet⟩ := ih hstep (by rw [unallocated_allocate]; omega)
      fun d' hd' => hvouts d' (mem_cons_of_mem _ hd')
    refine ⟨hsound, ?_, fun v => ?_⟩
    · rw [foldl_cons, hleft, unallocated_allocate, map_cons, sum_cons, Nat.sub_sub]
    · rw [foldl_cons, hsheet, sheet_allocate h htotal hamount, entryTotal, entryTotal, map_cons,
        sum_cons, add_assoc]

lemma foldl_allocate_of_ne {id' : I} (hne : id' ≠ id) (shares : List (ℕ × ℕ)) :
    let st' := shares.foldl (fun st d => allocate id st d.2 d.1) st
    st'.unallocated.amount id' = st.unallocated.amount id' ∧
      ∀ v, (st'.allocated.sheet v).amount id' = (st.allocated.sheet v).amount id' := by
  refine foldlRecOn (motive := fun st' : Allocation I => st'.unallocated.amount id' = _ ∧
    ∀ v, (st'.allocated.sheet v).amount id' = (st.allocated.sheet v).amount id') _ _ ⟨rfl, fun _ => rfl⟩
    fun st' hst d _ => ⟨.trans ?_ hst.1, fun v => .trans ?_ (hst.2 v)⟩
  · unfold allocate
    split_ifs
    · rfl
    · rw [RuneSheet.amount_set, if_neg hne]
  · unfold allocate
    split_ifs
    · rfl
    · rw [OutputRuneSheets.sheet_put]
      split_ifs with heq
      · rw [heq, RuneSheet.add, RuneSheet.amount, Table.get_put_of_ne _ _ hne]
        rfl
      · rfl

lemma entryTotal_shares {l : List ℕ} (hnodup : l.Nodup) (share : ℕ → ℕ) {i v : ℕ}
    (hv : l[i]? = some v) : entryTotal (l.zipIdx.map fun d => (d.1, share d.2)) v = share i := by
  have hsnd : (l.zipIdx.map Prod.snd).Nodup := by
    rw [zipIdx_map_snd]
    exact nodup_range'
  rw [entryTotal, List.map_map, ← sum_toFinset _ (hsnd.of_map Prod.snd), Finset.sum_eq_single (v, i)]
  · exact if_pos rfl
  · rintro ⟨v', j⟩ hmem hne
    refine if_neg fun heq => hne ?_
    rw [mem_toFinset, mem_zipIdx_iff_getElem?] at hmem
    obtain rfl : i = j :=
      (getElem?_inj (List.getElem?_eq_some_iff.1 hv).1 hnodup).1 (by rw [hv, hmem, ← heq])
    rw [← heq]
  · exact fun h => absurd (mem_toFinset.2 (mem_zipIdx_iff_getElem?.2 hv)) h

lemma sum_shares (l : List ℕ) (k each remainder : ℕ) :
    ((l.zipIdx k).map fun d => if d.2 < remainder then each + 1 else each).sum =
      l.length * each + (min (k + l.length) remainder - min k remainder) := by
  induction l generalizing k with
  | nil => simp
  | cons v l ih =>
    rw [zipIdx_cons, map_cons, sum_cons, ih, length_cons, Nat.add_mul]
    split_ifs with hlt
    · omega
    · omega

lemma sum_multicastShares {destinations : List ℕ} (hne : destinations ≠ []) (balance : ℕ) :
    ((multicastShares destinations balance).map Prod.snd).sum = balance := by
  have hpos : 0 < destinations.length := length_pos_iff.2 hne
  have hmod := Nat.mod_lt balance hpos
  have hdiv := Nat.div_add_mod balance destinations.length
  unfold multicastShares
  rw [List.map_map]
  refine (sum_shares destinations 0 _ _).trans ?_
  omega

omit [LinearOrder I] in
lemma lt_of_mem_nonOpReturnVouts (h : vout ∈ nonOpReturnVouts outputs) : vout < outputs.length := by
  obtain ⟨o, ho, rfl⟩ := List.mem_map.1 h
  have := snd_lt_of_mem_zipIdx (mem_filter.1 ho).1
  simpa using this

lemma sum_capped (l : List ℕ) (k amount balance : ℕ) :
    ((l.zipIdx k).map fun d => min amount (balance - d.2 * amount)).sum =
      min (l.length * amount) (balance - k * amount) := by
  induction l generalizing k with
  | nil => simp
  | cons v l ih =>
    rw [zipIdx_cons, map_cons, sum_cons, ih, length_cons, Nat.add_mul, Nat.add_mul]
    dsimp only
    omega

lemma sum_cappedShares (destinations : List ℕ) (amount balance : ℕ) :
    ((cappedShares destinations amount balance).map Prod.snd).sum =
      min (destinations.length * amount) balance := by
  unfold cappedShares
  rw [List.map_map]
  refine (sum_capped destinations 0 amount balance).trans ?_
  rw [Nat.zero_mul, Nat.sub_zero]

lemma sum_edictShares_le (outputs : List (TxOut A)) (balance amount output : ℕ) :
    ((edictShares outputs balance amount output).map Prod.snd).sum ≤ balance := by
  unfold edictShares
  split_ifs
  · exact Nat.zero_le _
  · by_cases hempty : nonOpReturnVouts outputs = []
    · rw [hempty]
      exact Nat.zero_le _
    · exact (sum_multicastShares hempty balance).le
  · rw [sum_cappedShares]
    exact min_le_right _ _
  · simp
  · simp

lemma lt_of_mem_edictShares {balance output : ℕ} {d : ℕ × ℕ}
    (h : d ∈ edictShares outputs balance amount output) : d.1 < outputs.length := by
  unfold edictShares at h
  split_ifs at h
  · cases h
  · obtain ⟨v, hv, rfl⟩ := List.mem_map.1 h
    exact lt_of_mem_nonOpReturnVouts (fst_mem_of_mem_zipIdx hv : v.1 ∈ _)
  · obtain ⟨v, hv, rfl⟩ := List.mem_map.1 h
    exact lt_of_mem_nonOpReturnVouts (fst_mem_of_mem_zipIdx hv : v.1 ∈ _)
  all_goals
    rw [List.mem_singleton.1 h]
    omega

lemma foldl_allocate_zero (h : ∀ d ∈ shares, d.2 = 0) :
    shares.foldl (fun st d => allocate id st d.2 d.1) st = st :=
  foldlRecOn (motive := (· = st)) _ _ rfl fun _ ht d hd => (if_pos (h d hd)).trans ht

lemma foldl_allocate_min (l : List ℕ) {k balance : ℕ}
    (h : st.unallocated.amount id = balance - k * amount) :
    l.foldl (fun st vout => allocate id st (min amount (st.unallocated.amount id)) vout) st =
      ((l.zipIdx k).map fun d => (d.1, min amount (balance - d.2 * amount))).foldl
        (fun st d => allocate id st d.2 d.1) st := by
  induction l generalizing st k with
  | nil => rfl
  | cons v l ih =>
    rw [zipIdx_cons, map_cons, foldl_cons, h]
    apply ih
    rw [unallocated_allocate, Nat.succ_mul]
    omega

lemma applyEdict_eq (amount output : ℕ) :
    applyEdict outputs st id amount output =
      (edictShares outputs (st.unallocated.amount id) amount output).foldl
        (fun st d => allocate id st d.2 d.1) st := by
  unfold applyEdict
  cases hbalance : st.unallocated.rows.get id with
  | none =>
    -- no balance, and every share is zero
    have hamount : st.unallocated.amount id = 0 := by simp [RuneSheet.amount, hbalance]
    refine (foldl_allocate_zero fun d hd => ?_).symm
    have hle := sum_edictShares_le outputs 0 amount output
    rw [hamount] at hd
    exact sum_eq_zero_iff.1 (Nat.le_zero.1 hle) _ (mem_map_of_mem hd)
  | some balance =>
    have hamount : st.unallocated.amount id = balance := by simp [RuneSheet.amount, hbalance]
    rw [edictShares, hamount]
    dsimp only
    split_ifs with hover heq hempty hzero hzero
    · rfl
    · rw [hempty]
      rfl
    · rw [hempty]
      rfl
    · rfl
    · exact foldl_allocate_min _ (by omega)
    · rfl
    · rfl

include h htotal in
/-- An edict moves runes and nothing else. -/
theorem Allocation.Sound.applyEdict (id : I) (amount output : ℕ) :
    (applyEdict outputs st id amount output).Sound outputs total := by
  rw [applyEdict_eq]
  exact (h.foldl_allocate htotal (sum_edictShares_le _ _ _ _) fun _ => lt_of_mem_edictShares).1

lemma entryTotal_toList (s : RuneSheet I) (id : I) : entryTotal s.toList id = s.amount id := by
  unfold entryTotal RuneSheet.toList
  rw [List.map_map, ← sum_toFinset _ (Finset.sort_nodup _ _), Finset.sort_toFinset]
  refine (Finset.sum_ite_eq' s.rows.keys id s.amount).trans ?_
  split_ifs with hmem
  · rfl
  · rw [RuneSheet.amount, Table.notMem_keys.1 hmem]
    rfl

lemma RuneSheet.merge_spec {s : RuneSheet I} {entries : List (I × ℕ)}
    (hfit : ∀ id, s.amount id + entryTotal entries id < u128Size) :
    (s.merge entries).overflow = s.overflow ∧
      ∀ id, (s.merge entries).amount id = s.amount id + entryTotal entries id := by
  induction entries generalizing s with
  | nil => exact ⟨rfl, fun _ => rfl⟩
  | cons e entries ih =>
    have htotal : ∀ id, entryTotal (e :: entries) id =
        (if e.1 = id then e.2 else 0) + entryTotal entries id := fun _ => rfl
    have hown : s.amount e.1 + e.2 < u128Size := by
      have := hfit e.1
      rw [htotal, if_pos rfl] at this
      omega
    have hmerge : s.merge (e :: entries) =
        (if 0 < e.2 then s.add e.1 e.2 else s).merge entries := rfl
    -- a zero entry changes no amount either way
    have hamount : ∀ id, (if 0 < e.2 then s.add e.1 e.2 else s).amount id =
        s.amount id + if e.1 = id then e.2 else 0 := by
      intro id
      split_ifs with hpos heq heq
      · rw [RuneSheet.amount_add hown, if_pos heq.symm]
      · rw [RuneSheet.amount_add hown, if_neg (Ne.symm heq)]
      · omega
      · rfl
    have hoverflow : (if 0 < e.2 then s.add e.1 e.2 else s).overflow = s.overflow := by
      split_ifs
      · exact RuneSheet.overflow_add hown
      · rfl
    have hrest := ih (s := if 0 < e.2 then s.add e.1 e.2 else s) fun id => by
      have := hfit id
      rw [htotal] at this
      rw [hamount]
      omega
    rw [hmerge]
    refine ⟨hrest.1.trans hoverflow, fun id => ?_⟩
    rw [hrest.2, hamount, htotal]
    omega

include h htotal in
/-- What is left goes to one output, or stays to be burned. -/
theorem Allocation.Sound.routeLeftovers (pointer : Option ℕ) :
    (routeLeftovers outputs st pointer).Sound outputs total := by
  unfold Runes.routeLeftovers
  split
  · exact h
  · rename_i vout _
    split_ifs with hvout
    · exact h
    · have hfit : ∀ id, (st.allocated.sheet vout).amount id +
          entryTotal st.unallocated.toList id < u128Size := by
        intro id
        rw [entryTotal_toList]
        exact h.lt_size htotal vout id
      obtain ⟨hoverflow, hamount⟩ := RuneSheet.merge_spec hfit
      refine h.put_sheet (by omega) ?_ ?_ ?_
      · exact h.unallocated
      · rw [hoverflow]
        exact h.allocated vout
      · intro id
        rw [hamount, entryTotal_toList]
        show 0 + _ = _
        omega

/-- What an edict does to the rune it names and to the others. A multicast without an amount splits
the balance, the larger shares first; one with an amount gives it to the outputs in turn, or what is
left. -/
structure EdictSpec (outputs : List (TxOut A)) (id : I) (amount output : ℕ) (st st' : Allocation I) :
    Prop where
  others : ∀ id', id' ≠ id → st'.unallocated.amount id' = st.unallocated.amount id' ∧
    ∀ vout, (st'.allocated.sheet vout).amount id' = (st.allocated.sheet vout).amount id'
  nowhere : output = outputs.length → nonOpReturnVouts outputs = [] → st' = st
  split : output = outputs.length → nonOpReturnVouts outputs ≠ [] → amount = 0 →
    st'.unallocated.amount id = 0 ∧ ∀ i vout, (nonOpReturnVouts outputs)[i]? = some vout →
      (st'.allocated.sheet vout).amount id = (st.allocated.sheet vout).amount id +
        (st.unallocated.amount id / (nonOpReturnVouts outputs).length +
          if i < st.unallocated.amount id % (nonOpReturnVouts outputs).length then 1 else 0)
  capped : output = outputs.length → 0 < amount →
    ∀ i vout, (nonOpReturnVouts outputs)[i]? = some vout →
      (st'.allocated.sheet vout).amount id = (st.allocated.sheet vout).amount id +
        min amount (st.unallocated.amount id - i * amount)

omit [LinearOrder I] in
lemma nodup_nonOpReturnVouts : (nonOpReturnVouts outputs).Nodup := by
  have hsub : (nonOpReturnVouts outputs).Sublist (outputs.zipIdx.map Prod.snd) :=
    filter_sublist.map _
  rw [zipIdx_map_snd] at hsub
  exact hsub.nodup nodup_range'

lemma edictShares_multicast (balance amount : ℕ) :
    edictShares outputs balance amount outputs.length =
      if amount = 0 then multicastShares (nonOpReturnVouts outputs) balance
      else cappedShares (nonOpReturnVouts outputs) amount balance := by
  rw [edictShares, if_neg (lt_irrefl _), if_pos rfl]

include h htotal in
/-- An edict where nothing has wrapped around does what it says. -/
theorem Allocation.Sound.edictSpec (id : I) (amount output : ℕ) :
    EdictSpec outputs id amount output st (Runes.applyEdict outputs st id amount output) := by
  obtain ⟨-, hleft, hsheet⟩ := h.foldl_allocate htotal
    (sum_edictShares_le outputs (st.unallocated.amount id) amount output)
    fun _ => lt_of_mem_edictShares
  rw [← applyEdict_eq] at hleft hsheet
  refine ⟨fun id' hne => ?_, ?_, ?_, ?_⟩
  · rw [applyEdict_eq]
    exact foldl_allocate_of_ne hne _
  · rintro rfl hnone
    rw [applyEdict_eq, edictShares_multicast, hnone]
    split_ifs <;> rfl
  · rintro rfl hne rfl
    rw [edictShares_multicast, if_pos rfl] at hleft hsheet
    refine ⟨?_, fun i vout hv => ?_⟩
    · rw [hleft, sum_multicastShares hne, Nat.sub_self]
    · rw [hsheet]
      refine congrArg _ ((entryTotal_shares nodup_nonOpReturnVouts (fun i =>
        if i < st.unallocated.amount id % (nonOpReturnVouts outputs).length
        then st.unallocated.amount id / (nonOpReturnVouts outputs).length + 1
        else st.unallocated.amount id / (nonOpReturnVouts outputs).length) hv).trans ?_)
      split_ifs <;> rfl
  · rintro rfl hpos i vout hv
    rw [hsheet, edictShares_multicast, if_neg hpos.ne']
    exact congrArg _ (entryTotal_shares nodup_nonOpReturnVouts
      (fun i => min amount (st.unallocated.amount id - i * amount)) hv)

lemma Allocation.sound_start (hoverflow : sheet.overflow = false) :
    Allocation.Sound outputs sheet.amount ⟨sheet, ∅⟩ where
  unallocated := hoverflow
  allocated := fun _ => rfl
  vouts := fun _ hv => absurd hv (Finset.notMem_empty _)
  sum := fun _ => rfl

/-- Whatever the edicts and the pointer are, each rune is placed on outputs of the transaction or left
to be burned, and every edict does what it says. -/
theorem edicts_conserve (outputs : List (TxOut A)) {sheet : RuneSheet I}
    (hoverflow : sheet.overflow = false) (hfit : ∀ id, sheet.amount id < u128Size)
    (edicts : List (I × ℕ × ℕ)) :
    let st := edicts.foldl (fun st e => applyEdict outputs st e.1 e.2.1 e.2.2) ⟨sheet, ∅⟩
    (∀ id amount output,
      EdictSpec outputs id amount output st (applyEdict outputs st id amount output)) ∧
    ∀ pointer,
      (∀ id, (routeLeftovers outputs st pointer).allocated.total id +
        (routeLeftovers outputs st pointer).unallocated.amount id = sheet.amount id) ∧
      ∀ vout ∈ (routeLeftovers outputs st pointer).allocated.keys, vout < outputs.length := by
  intro st
  have hst : st.Sound outputs sheet.amount := foldlRecOn edicts _ (Allocation.sound_start hoverflow)
    fun _ hst e _ => hst.applyEdict hfit e.1 e.2.1 e.2.2
  refine ⟨hst.edictSpec hfit, fun pointer => ?_⟩
  have hrouted := hst.routeLeftovers hfit pointer
  exact ⟨fun id => (Nat.add_comm _ _).trans (hrouted.sum id), hrouted.vouts⟩

/-- An output that only tells whether it is an `OP_RETURN`. -/
def bareOutput (opReturn : Bool) : TxOut Unit := ⟨0, [], opReturn, false, none⟩

/-- Five runes split over two outputs with an `OP_RETURN` between them. -/
theorem edicts_conserve_split :
    let st := applyEdict (I := ℕ) ([false, true, false].map bareOutput)
      ⟨RuneSheet.empty.set 1 5, ∅⟩ 1 0 3
    (st.allocated.sheet 0).amount 1 = 3 ∧ (st.allocated.sheet 2).amount 1 = 2 := by
  have hfit : ∀ id, ((RuneSheet.empty : RuneSheet ℕ).set 1 5).amount id < u128Size := by
    intro id
    rw [RuneSheet.amount_set, RuneSheet.amount_empty]
    unfold u128Size
    split_ifs <;> omega
  have hsplit := ((edicts_conserve ([false, true, false].map bareOutput) rfl hfit []).1 1 0 3).split
    rfl (by decide) rfl
  exact ⟨hsplit.2 0 0 rfl, hsplit.2 1 2 rfl⟩

/-- Without an output that can take it, a multicast leaves the balance where it is. -/
theorem multicast_opReturn_keeps :
    (applyEdict [bareOutput true] ⟨RuneSheet.empty.set 1 5, ∅⟩ 1 0 1).unallocated.amount 1 = 5 := by
  decide

end Conservation

end Espo.Runes
