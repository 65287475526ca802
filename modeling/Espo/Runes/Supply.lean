import Espo.Runes.Outpoints

/-!
# The supply of a rune

The units of a rune are on live outpoints, burned, or in flight while a transaction is indexed:
spent, issued, and not yet allocated. Together they are what was premined and minted.

The equation needs that an etching meets no entry under its id. Ids are positions in the chain, so
this could fail for the genesis rune alone, whose id is the one of an etching in the first
transaction of block 1.
-/

namespace Espo.Runes
open Lib

/-! ## Amounts -/

section Amounts
variable {T A : Type} [LinearOrder T] [LinearOrder A] {rows rows' : RuneRows T A}

/-- What a list of balances holds of a rune. -/
def amountOf (balances : List RuneBalance) (id : SchemaRuneId) : ℕ :=
  (balances.map fun balance => if balance.id = id then balance.amount else 0).sum

@[simp]
lemma amountOf_nil (id : SchemaRuneId) : amountOf [] id = 0 := rfl

@[simp]
lemma amountOf_cons (balance : RuneBalance) (balances : List RuneBalance) (id : SchemaRuneId) :
    amountOf (balance :: balances) id =
      (if balance.id = id then balance.amount else 0) + amountOf balances id := by
  rfl

/-- A quantity of the outpoint rows, summed. -/
def RuneRows.outpointSum (weigh : OutpointRuneBalances A → ℕ) (rows : RuneRows T A) : ℕ :=
  ∑ o ∈ rows.getLiveOutpoints, (rows.outpoint o).elim 0 weigh

variable (weigh : OutpointRuneBalances A → ℕ)

lemma outpointSum_eq_sum {outpoints : Finset (T × ℕ)}
    (h : ∀ o, rows.outpoint o ≠ none → o ∈ outpoints) :
    rows.outpointSum weigh = ∑ o ∈ outpoints, (rows.outpoint o).elim 0 weigh := by
  apply Finset.sum_subset
  · exact fun o ho => h o (mem_getLiveOutpoints.1 ho)
  · intro o _ ho
    rw [mem_getLiveOutpoints, not_not] at ho
    rw [ho]
    rfl

lemma outpointSum_congr (h : ∀ o, rows'.outpoint o = rows.outpoint o) :
    rows'.outpointSum weigh = rows.outpointSum weigh := by
  have hkeys : ∀ o, rows'.outpoint o ≠ none → o ∈ rows.getLiveOutpoints := by
    intro o ho
    rwa [mem_getLiveOutpoints, ← h o]
  rw [outpointSum_eq_sum weigh hkeys]
  exact Finset.sum_congr rfl fun o _ => by rw [h o]

lemma outpointSum_change {o : T × ℕ} (h : ∀ o', o' ≠ o → rows'.outpoint o' = rows.outpoint o') :
    rows'.outpointSum weigh + (rows.outpoint o).elim 0 weigh =
      rows.outpointSum weigh + (rows'.outpoint o).elim 0 weigh := by
  have hkeys : ∀ o', rows.outpoint o' ≠ none → o' ∈ insert o rows.getLiveOutpoints := fun o' ho =>
    Finset.mem_insert_of_mem (mem_getLiveOutpoints.2 ho)
  have hkeys' : ∀ o', rows'.outpoint o' ≠ none → o' ∈ insert o rows.getLiveOutpoints := by
    intro o' ho
    by_cases heq : o' = o
    · exact heq ▸ Finset.mem_insert_self _ _
    · exact hkeys o' (h o' heq ▸ ho)
  rw [outpointSum_eq_sum weigh hkeys, outpointSum_eq_sum weigh hkeys']
  apply sum_add_of_eq_off (Finset.mem_insert_self _ _)
  intro o' _ ho'
  rw [h o' ho']

/-- The amount of a rune on live outpoints. -/
def RuneRows.liveAmount (rows : RuneRows T A) (id : SchemaRuneId) : ℕ :=
  rows.outpointSum fun row => amountOf row.balances id

lemma liveAmount_congr (h : ∀ o, rows'.outpoint o = rows.outpoint o) (id : SchemaRuneId) :
    rows'.liveAmount id = rows.liveAmount id :=
  outpointSum_congr _ h

lemma liveAmount_change {o : T × ℕ} (h : ∀ o', o' ≠ o → rows'.outpoint o' = rows.outpoint o')
    (id : SchemaRuneId) :
    rows'.liveAmount id + (rows.outpoint o).elim 0 (fun row => amountOf row.balances id) =
      rows.liveAmount id + (rows'.outpoint o).elim 0 fun row => amountOf row.balances id :=
  outpointSum_change _ h

end Amounts

/-! ## Sheets -/

lemma addBalances_spec {s : RuneSheet SchemaRuneId} {balances : List RuneBalance}
    (hfit : ∀ id, s.amount id + amountOf balances id < u128Size) :
    (balances.foldl (fun sheet balance => sheet.add balance.id balance.amount) s).overflow =
        s.overflow ∧
      ∀ id, (balances.foldl (fun sheet balance => sheet.add balance.id balance.amount) s).amount id =
        s.amount id + amountOf balances id := by
  induction balances generalizing s with
  | nil => exact ⟨rfl, fun _ => rfl⟩
  | cons balance balances ih =>
    have hown : s.amount balance.id + balance.amount < u128Size := by
      have hfit' := hfit balance.id
      rw [amountOf_cons, if_pos rfl] at hfit'
      omega
    have hamount : ∀ id, (s.add balance.id balance.amount).amount id =
        s.amount id + if balance.id = id then balance.amount else 0 := by
      intro id
      rw [RuneSheet.amount_add hown]
      simp only [eq_comm]
    obtain ⟨hoverflow, hrest⟩ := @ih (s.add balance.id balance.amount) fun id => by
      have hfit' := hfit id
      rw [amountOf_cons] at hfit'
      rw [hamount]
      omega
    rw [List.foldl_cons]
    refine ⟨hoverflow.trans (RuneSheet.overflow_add hown), fun id => ?_⟩
    rw [hrest, hamount, amountOf_cons]
    omega

lemma amountOf_balancesFromSheet (sheet : RuneSheet SchemaRuneId) (id : SchemaRuneId) :
    amountOf (balancesFromSheet sheet) id = sheet.amount id := by
  rw [← entryTotal_toList]
  unfold balancesFromSheet
  induction sheet.toList with
  | nil => rfl
  | cons e entries ih =>
    have hentry : entryTotal (e :: entries) id = (if e.1 = id then e.2 else 0) + entryTotal entries id :=
      rfl
    rw [hentry, ← ih, List.filter_cons]
    split_ifs with hpos heq heq
    · rw [List.map_cons, amountOf_cons, if_pos heq]
    · rw [List.map_cons, amountOf_cons, if_neg heq]
    · simp at hpos
      omega
    · rw [Nat.zero_add]

/-! ## Entries -/

namespace RuneEntry
variable {T : Type} (e : RuneEntry T)

/-- The cap on the mints. -/
def cap : ℕ := (e.terms.bind SchemaRuneTerms.cap).getD 0

/-- What was premined and minted. -/
def issued : ℕ := e.premine + e.mints * e.mintAmount

/-- An entry whose whole supply is a `u128`, and which has not been minted beyond its cap. -/
structure Sound (e : RuneEntry T) : Prop where
  fits : e.premine + e.cap * e.mintAmount < u128Size
  cap : e.cap < u128Size
  mints : e.mints ≤ e.cap

lemma Sound.issued_lt {e : RuneEntry T} (h : e.Sound) : e.issued < u128Size := by
  have hle : e.mints * e.mintAmount ≤ e.cap * e.mintAmount := Nat.mul_le_mul_right _ h.mints
  have hfits := h.fits
  unfold issued
  omega

lemma Sound.supply_eq {e : RuneEntry T} (h : e.Sound) : e.supply = e.issued :=
  Nat.mod_eq_of_lt h.issued_lt

/-- A mint gives the amount of the terms, and only below the cap. -/
theorem mintable_spec {e : RuneEntry T} {height txIndex amount : ℕ}
    (h : e.mintable height txIndex = some amount) : amount = e.mintAmount ∧ e.mints < e.cap := by
  unfold mintable at h
  split at h
  · simp at h
  · rename_i terms hterms
    split at h
    · simp at h
    · rename_i amount' hamount
      dsimp only at h
      generalize (if e.id = genesisRuneId then 840_000 else e.id.block) = creationHeight at h
      split_ifs at h with _ _ _ hcap
      constructor
      · simp only [mintAmount, hterms, Option.bind_some, hamount]
        exact (Option.some.inj h).symm
      · simp only [RuneEntry.cap, hterms, Option.bind_some]
        omega

/-! ### Mint windows -/

/-- No start of the terms is later, and no end is this early. -/
@[mk_iff]
structure InWindow (e : RuneEntry T) (terms : SchemaRuneTerms) (height : ℕ) : Prop where
  offsetStart : ∀ offset ∈ terms.offsetStart, e.relativeHeight offset ≤ height
  heightStart : ∀ start ∈ terms.heightStart, start ≤ height
  offsetEnd : ∀ offset ∈ terms.offsetEnd, height < e.relativeHeight offset
  heightEnd : ∀ stop ∈ terms.heightEnd, height < stop

/-- The transaction that etched the rune. -/
def EtchedBy (height txIndex : ℕ) : Prop :=
  height = (if e.id = genesisRuneId then 840_000 else e.id.block) ∧ txIndex = e.id.tx

section Window
variable {e : RuneEntry T} {terms : SchemaRuneTerms} {amount height txIndex : ℕ}
  (hterms : e.terms = some terms)
include hterms

lemma inWindow_iff_heights : e.InWindow terms height ↔
    (∀ start ∈ e.startHeight, start ≤ height) ∧ ∀ stop ∈ e.endHeight, height < stop := by
  rw [inWindow_iff, ← and_assoc, startHeight, endHeight, hterms]
  obtain ⟨-, -, heightStart, heightEnd, offsetStart, offsetEnd⟩ := terms
  refine and_congr ?_ ?_
  · cases offsetStart <;> cases heightStart <;> simp
  · cases offsetEnd <;> cases heightEnd <;> simp

variable (hamount : terms.amount = some amount) (hcap : e.mints < terms.cap.getD 0)
include hamount hcap

/-- Below its cap a rune is mintable from its start to its end, the end included. -/
theorem mintable_eq_some_iff (hetched : ¬e.EtchedBy height txIndex) :
    e.mintable height txIndex = some amount ↔
      (∀ start ∈ e.startHeight, start ≤ height) ∧ ∀ stop ∈ e.endHeight, height ≤ stop := by
  unfold EtchedBy at hetched
  simp only [mintable, hterms, hamount, if_neg hetched, if_neg (Nat.not_le.2 hcap)]
  cases e.startHeight <;> cases e.endHeight <;> simp

end Window

/-- The genesis rune where runes begin with the chain. -/
def genesisEntry : RuneEntry ℕ :=
  makeEntry (.unary 0) genesisRuneId 0 128 (some '⧉') 0 0
    (some (BlockRunesIndexer.genesisTerms (.unary 0))) 0 0 0 true

end RuneEntry

/-! ## Conservation -/

section Conservation
variable {T A : Type} [LinearOrder T] [LinearOrder A] {rows rows' : RuneRows T A}
  {flight flight' : SchemaRuneId → ℕ} {id : SchemaRuneId}

/-- Live, burned and in flight, the units of each rune are those issued; a rune without an entry has
none. -/
structure Conserved (rows : RuneRows T A) (flight : SchemaRuneId → ℕ) : Prop where
  sound : ∀ id e, rows.entry id = some e → e.id = id ∧ e.Sound
  issued : ∀ id e, rows.entry id = some e → rows.liveAmount id + flight id + e.burned = e.issued
  absent : ∀ id, rows.entry id = none → rows.liveAmount id + flight id = 0

section
variable (h : Conserved rows flight)
include h

lemma Conserved.lt (id : SchemaRuneId) : rows.liveAmount id + flight id < u128Size := by
  cases hentry : rows.entry id with
  | none =>
    rw [h.absent id hentry]
    decide
  | some e =>
    have hlt := (h.sound id e hentry).2.issued_lt
    have hissued := h.issued id e hentry
    omega

lemma Conserved.move (hentries : ∀ id, rows'.entry id = rows.entry id)
    (hmoved : ∀ id, rows'.liveAmount id + flight' id = rows.liveAmount id + flight id) :
    Conserved rows' flight' where
  sound id e he := h.sound id e (hentries id ▸ he)
  issued id e he := by
    rw [hmoved]
    exact h.issued id e (hentries id ▸ he)
  absent id he := by
    rw [hmoved]
    exact h.absent id (hentries id ▸ he)

lemma Conserved.congr (hentries : ∀ id, rows'.entry id = rows.entry id)
    (houtpoints : ∀ o, rows'.outpoint o = rows.outpoint o) : Conserved rows' flight := by
  apply h.move hentries
  intro id
  rw [liveAmount_congr houtpoints]

lemma Conserved.spend {o : T × ℕ} {row : OutpointRuneBalances A}
    (hrow : rows.outpoint o = some row) (hentries : ∀ id, rows'.entry id = rows.entry id)
    (houtpoints : ∀ o', rows'.outpoint o' = if o' = o then none else rows.outpoint o') :
    Conserved rows' fun id => flight id + amountOf row.balances id := by
  apply h.move hentries
  intro id
  have hothers : ∀ o', o' ≠ o → rows'.outpoint o' = rows.outpoint o' := fun o' ho' => by
    rw [houtpoints, if_neg ho']
  have hchange := liveAmount_change hothers id
  rw [houtpoints o, if_pos rfl, hrow] at hchange
  simp only [Option.elim_some, Option.elim_none] at hchange
  omega

end

lemma Conserved.create {row : OutpointRuneBalances A}
    (h : Conserved rows fun id => flight id + amountOf row.balances id) {o : T × ℕ}
    (hrow : rows.outpoint o = none) (hentries : ∀ id, rows'.entry id = rows.entry id)
    (houtpoints : ∀ o', rows'.outpoint o' = if o' = o then some row else rows.outpoint o') :
    Conserved rows' flight := by
  apply h.move hentries
  intro id
  have hothers : ∀ o', o' ≠ o → rows'.outpoint o' = rows.outpoint o' := fun o' ho' => by
    rw [houtpoints, if_neg ho']
  have hchange := liveAmount_change hothers id
  rw [houtpoints o, if_pos rfl, hrow] at hchange
  simp only [Option.elim_some, Option.elim_none] at hchange
  omega

lemma Conserved.setEntry (h : Conserved rows flight) {e : RuneEntry T} (hsound : e.Sound)
    (hentries : ∀ id, rows'.entry id = if id = e.id then some e else rows.entry id)
    (houtpoints : ∀ o, rows'.outpoint o = rows.outpoint o)
    (hflight : ∀ id, id ≠ e.id → flight' id = flight id)
    (hissued : rows.liveAmount e.id + flight' e.id + e.burned = e.issued) :
    Conserved rows' flight' where
  sound id e' he := by
    rw [hentries] at he
    split_ifs at he with heq
    · cases he
      exact ⟨heq.symm, hsound⟩
    · exact h.sound id e' he
  issued id e' he := by
    rw [hentries] at he
    rw [liveAmount_congr houtpoints]
    split_ifs at he with heq
    · cases he
      rw [heq]
      exact hissued
    · rw [hflight id heq]
      exact h.issued id e' he
  absent id he := by
    rw [hentries] at he
    rw [liveAmount_congr houtpoints]
    split_ifs at he with heq
    rw [hflight id heq]
    exact h.absent id he

end Conservation

end Espo.Runes
