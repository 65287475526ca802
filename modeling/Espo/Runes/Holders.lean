import Espo.Runes.Conservation

/-!
# Balances and holders

The balance and the holder row of an address and a rune follow the address's outpoints through signed
differences of 128 bits. An amount from `2 ^ 127` on is cast to a negative number, and the rows then
say something else than the outpoints; below that they agree, and the count of holders is right.
-/

namespace Espo.Runes
open Lib List

/-! ## Differences -/

lemma asI128_of_lt {n : ℕ} (h : n < 2 ^ 127) : asI128 n = n := if_pos h

lemma negI128_asI128 {n : ℕ} (h : n < 2 ^ 127) : negI128 (asI128 n) = -(n : ℤ) := by
  rw [asI128_of_lt h]
  apply if_neg
  omega

lemma applyDelta_asI128 {prev n : ℕ} (h : n < 2 ^ 127) (hfit : prev + n < u128Size) :
    applyDelta prev (asI128 n) = prev + n := by
  rw [asI128_of_lt h, applyDelta]
  exact BlockRunesIndexer.saturatingAdd_eq hfit

lemma applyDelta_negI128 {prev n : ℕ} (h : n < 2 ^ 127) (hfit : prev + n < u128Size) :
    applyDelta (prev + n) (negI128 (asI128 n)) = prev := by
  rw [negI128_asI128 h, applyDelta]
  split_ifs with hneg
  · omega
  · have hzero : n = 0 := by omega
    subst hzero
    exact BlockRunesIndexer.saturatingAdd_eq hfit

/-! ## The rows -/

section Rows
variable {T A : Type} [LinearOrder T] [LinearOrder A] {rows rows' : RuneRows T A}

/-- The row of a number. -/
def RuneRows.numberRow (rows : RuneRows T A) (k : NumberKey A) : Option ℕ := rows.get (.number k)

lemma number_of_numberRow {k : NumberKey A} {row : Option ℕ} (h : rows.numberRow k = row) :
    rows.number k = row.getD 0 :=
  congrArg (fun row => row.getD 0) h

/-- The numbers that follow the outpoints. -/
def NumberKey.ofHolders : NumberKey A → Bool
  | .holder _ _ => true
  | .holdersCount _ => true
  | .addressBalance _ _ => true
  | _ => false

omit [LinearOrder T] [LinearOrder A] in
lemma keyClass_of_ofHolders {k : NumberKey A} (h : k.ofHolders) :
    (RuneKey.number k : RuneKey T A).keyClass = .balances := by
  cases k
  all_goals first
    | rfl
    | exact absurd h (by simp [NumberKey.ofHolders])

/-- The row of an amount: none when it is zero. -/
def positiveRow (n : ℕ) : Option ℕ := if n = 0 then none else some n

@[simp]
lemma getD_positiveRow (n : ℕ) : (positiveRow n).getD 0 = n := by
  unfold positiveRow
  split_ifs with hzero
  · exact hzero.symm
  · rfl

/-- What the outpoints of an address hold of a rune. -/
def RuneRows.addressAmount (rows : RuneRows T A) (address : A) (id : SchemaRuneId) : ℕ :=
  rows.outpointSum fun row => if row.address = some address then amountOf row.balances id else 0

/-- The addresses with a positive holder row of a rune. -/
def RuneRows.holders (rows : RuneRows T A) (id : SchemaRuneId) : Finset A :=
  (rows.keys.biUnion fun
    | .number (.holder id' address) => if id' = id then {address} else ∅
    | _ => ∅).filter fun address => 0 < rows.number (.holder id address)

lemma mem_holders {id : SchemaRuneId} {address : A} :
    address ∈ rows.holders id ↔ 0 < rows.number (.holder id address) := by
  unfold RuneRows.holders
  rw [Finset.mem_filter, and_iff_right_iff_imp]
  intro hpos
  have hmem : RuneKey.number (.holder id address) ∈ rows := by
    by_contra hnone
    have hrow : rows.numberRow (.holder id address) = none := Finmap.lookup_eq_none.2 hnone
    rw [number_of_numberRow hrow] at hpos
    simp at hpos
  rw [Finset.mem_biUnion]
  exact ⟨_, Finmap.mem_keys.2 hmem, by simp⟩

/-- The rows say that each address holds what it is owed. -/
structure Balanced (rows : RuneRows T A) (owed : A → SchemaRuneId → ℕ) : Prop where
  balance : ∀ address id, rows.numberRow (.addressBalance address id) = positiveRow (owed address id)
  holder : ∀ address id, rows.numberRow (.holder id address) = positiveRow (owed address id)
  count : ∀ id, rows.number (.holdersCount id) = (rows.holders id).card

variable {owed : A → SchemaRuneId → ℕ}

section
variable (h : Balanced rows owed)
include h

lemma Balanced.number_holder (address : A) (id : SchemaRuneId) :
    rows.number (.holder id address) = owed address id := by
  rw [number_of_numberRow (h.holder address id), getD_positiveRow]

lemma Balanced.number_balance (address : A) (id : SchemaRuneId) :
    rows.number (.addressBalance address id) = owed address id := by
  rw [number_of_numberRow (h.balance address id), getD_positiveRow]

lemma Balanced.congr
    (hrows : ∀ k : NumberKey A, k.ofHolders → rows'.numberRow k = rows.numberRow k) :
    Balanced rows' owed where
  balance address id := (hrows _ rfl).trans (h.balance address id)
  holder address id := (hrows _ rfl).trans (h.holder address id)
  count id := by
    have hholders : rows'.holders id = rows.holders id := by
      ext address
      rw [mem_holders, mem_holders, number_of_numberRow (hrows (.holder id address) rfl)]
      rfl
    rw [hholders, number_of_numberRow (hrows (.holdersCount id) rfl)]
    exact h.count id

/-- The count after one address has changed from `hprev` to `hnext`. -/
def holdersAfter (count hprev hnext : ℕ) : ℕ :=
  if hprev = 0 ∧ hnext ≠ 0 then count + 1
  else if hprev ≠ 0 ∧ hnext = 0 then count - 1
  else count

lemma Balanced.change {owed' : A → SchemaRuneId → ℕ} {address : A} {id : SchemaRuneId}
    (hbalance : rows'.numberRow (.addressBalance address id) = positiveRow (owed' address id))
    (hholder : rows'.numberRow (.holder id address) = positiveRow (owed' address id))
    (hcount : rows'.number (.holdersCount id) = holdersAfter (rows.number (.holdersCount id)) (owed address id) (owed' address id))
    (howed : ∀ address' id', ¬ (address' = address ∧ id' = id) → owed' address' id' = owed address' id')
    (hothers : ∀ k : NumberKey A, k.ofHolders → k ≠ .addressBalance address id → k ≠ .holder id address → k ≠ .holdersCount id → rows'.numberRow k = rows.numberRow k) :
    Balanced rows' owed' := by
  have hholders : ∀ address' id',
      rows'.numberRow (.holder id' address') = positiveRow (owed' address' id') := by
    intro address' id'
    by_cases heq : address' = address ∧ id' = id
    · obtain ⟨rfl, rfl⟩ := heq
      exact hholder
    · rw [hothers _ rfl (by simp) (by simpa [and_comm] using heq) (by simp), howed _ _ heq]
      exact h.holder address' id'
  have hmem : ∀ address' id', address' ∈ rows'.holders id' ↔ 0 < owed' address' id' := by
    intro address' id'
    rw [mem_holders, number_of_numberRow (hholders address' id'), getD_positiveRow]
  have hmem' : ∀ address' id', address' ∈ rows.holders id' ↔ 0 < owed address' id' := by
    intro address' id'
    rw [mem_holders, h.number_holder]
  refine ⟨?_, hholders, ?_⟩
  · intro address' id'
    by_cases heq : address' = address ∧ id' = id
    · obtain ⟨rfl, rfl⟩ := heq
      exact hbalance
    · rw [hothers _ rfl (by simpa using heq) (by simp) (by simp), howed _ _ heq]
      exact h.balance address' id'
  · intro id'
    by_cases heq : id' = id
    · subst heq
      have hoff : ∀ address', address' ≠ address →
          (address' ∈ rows'.holders id' ↔ address' ∈ rows.holders id') := by
        intro address' hne
        rw [hmem, hmem', howed _ _ fun hc => hne hc.1]
      rw [hcount, h.count id', card_of_eq_off hoff]
      unfold holdersAfter
      simp only [hmem, hmem', Nat.pos_iff_ne_zero, not_not]
    · have hsame : rows'.holders id' = rows.holders id' := by
        ext address'
        rw [hmem, hmem', howed _ _ fun hc => heq hc.2]
      rw [hsame, number_of_numberRow (hothers (.holdersCount id') rfl (by simp) (by simp)
        (by simpa using heq))]
      exact h.count id'

end

end Rows

/-! ## Steps -/

namespace BlockRunesIndexer
variable {T A H : Type} [LinearOrder T] [LinearOrder A] {db : RuneRows T A}
  {ix ix' : BlockRunesIndexer T A}

lemma fst_loadNumber (ix : BlockRunesIndexer T A) (k : NumberKey A) :
    (ix.loadNumber db k).1 = (ix.numbers.get k).getD (db.number k) := by
  unfold loadNumber
  split
  · rename_i n hn
    rw [hn]
    rfl
  · rename_i hn
    rw [hn]
    rfl

/-- The cache of numbers is right about holders. -/
def Numbered (db : RuneRows T A) (ix : BlockRunesIndexer T A) : Prop :=
  ∀ k : NumberKey A, k.ofHolders → (ix.numbers.get k).getD (db.number k) = (ix.view db).number k

section
variable (h : Numbered db ix)
include h

variable (k : NumberKey A)

lemma Numbered.loadNumber : Numbered db (ix.loadNumber db k).2 := by
  unfold BlockRunesIndexer.loadNumber
  split
  · exact h
  · rename_i hn
    intro k' hk'
    -- a number that is read is cached as it is in the database
    show ((ix.numbers.put k (db.number k)).get k').getD (db.number k') = (ix.view db).number k'
    rw [Table.get_put, ← h k' hk']
    split_ifs with heq
    · subst heq
      rw [hn]
      rfl
    · rfl

lemma Numbered.fst_loadNumber {k : NumberKey A} (hk : k.ofHolders) :
    (ix.loadNumber db k).1 = (ix.view db).number k :=
  (BlockRunesIndexer.fst_loadNumber ix k).trans (h k hk)

/-- The number of a key has a row or none, in the writes and in the cache, and the others are as they were. -/
structure SetsNumber (db : RuneRows T A) (ix : BlockRunesIndexer T A) (k : NumberKey A) (row : Option ℕ)
    (ix' : BlockRunesIndexer T A) : Prop where
  numbered : Numbered db ix'
  row : (ix'.view db).numberRow k = row
  others : ∀ k', k' ≠ k → (ix'.view db).numberRow k' = (ix.view db).numberRow k'

variable {k} in
lemma Numbered.set {row : Option ℕ} (hnumbers : ix'.numbers = ix.numbers.put k (row.getD 0))
    (hrow : (ix'.view db).numberRow k = row)
    (hothers : ∀ k', k' ≠ k → (ix'.view db).numberRow k' = (ix.view db).numberRow k') :
    SetsNumber db ix k row ix' := by
  refine ⟨fun k' hk' => ?_, hrow, hothers⟩
  rw [hnumbers, Table.get_put]
  split_ifs with heq
  · subst heq
    exact (number_of_numberRow hrow).symm
  · rw [number_of_numberRow (hothers k' heq)]
    exact h k' hk'

lemma putNumber_spec (n : ℕ) :
    SetsNumber db ix k (some n) ((ix.cacheNumber k n).queuePut (.number k) n) :=
  h.set rfl (WriteQueue.lookup_view_queuePut_self _ _ _ _) fun _ hne =>
    WriteQueue.lookup_view_queuePut_of_ne _ _ _ (by simpa using hne)

lemma deleteNumber_spec : SetsNumber db ix k none ((ix.cacheNumber k 0).queueDelete (.number k)) :=
  h.set rfl (WriteQueue.lookup_view_queueDelete_self _ _ _) fun _ hne =>
    WriteQueue.lookup_view_queueDelete_of_ne _ _ (by simpa using hne)

variable {k} in
lemma changeAmount_spec (hk : k.ofHolders) (delta : ℤ) :
    (ix.changeAmount db k delta).1 =
        ((ix.view db).number k, applyDelta ((ix.view db).number k) delta) ∧
      SetsNumber db ix k (positiveRow (applyDelta ((ix.view db).number k) delta))
        (ix.changeAmount db k delta).2 := by
  have hview : (ix.loadNumber db k).2.view db = ix.view db := view_loadNumber ix k
  have hn : Numbered db (ix.loadNumber db k).2 := h.loadNumber k
  unfold changeAmount
  dsimp only
  rw [h.fst_loadNumber hk]
  generalize applyDelta ((ix.view db).number k) delta = next
  unfold positiveRow
  split_ifs with hzero
  · obtain ⟨hdeleted, hrow, hothers⟩ := deleteNumber_spec hn k
    exact ⟨rfl, hzero ▸ hdeleted, hzero ▸ hrow, hview ▸ hzero ▸ hothers⟩
  · obtain ⟨hput, hrow, hothers⟩ := putNumber_spec hn k next
    exact ⟨rfl, hput, hrow, hview ▸ hothers⟩

end

lemma countHolders_eq (ix : BlockRunesIndexer T A) (id : SchemaRuneId) (hprev hnext : ℕ) :
    ix.countHolders db id hprev hnext =
      let loaded := ix.loadNumber db (.holdersCount id)
      let next := holdersAfter loaded.1 hprev hnext
      if next ≠ loaded.1 then
        (loaded.2.cacheNumber (.holdersCount id) next).queuePut (.number (.holdersCount id)) next
      else loaded.2 :=
  rfl

lemma countHolders_spec (h : Numbered db ix) (id : SchemaRuneId) (hprev hnext : ℕ) :
    Numbered db (ix.countHolders db id hprev hnext) ∧
      ((ix.countHolders db id hprev hnext).view db).number (.holdersCount id) =
        holdersAfter ((ix.view db).number (.holdersCount id)) hprev hnext ∧
      ∀ k', k' ≠ .holdersCount id →
        ((ix.countHolders db id hprev hnext).view db).numberRow k' = (ix.view db).numberRow k' := by
  have hview : (ix.loadNumber db (.holdersCount id)).2.view db = ix.view db := view_loadNumber ix _
  have hn : Numbered db (ix.loadNumber db (.holdersCount id)).2 := h.loadNumber _
  rw [countHolders_eq]
  dsimp only
  rw [h.fst_loadNumber rfl]
  generalize (ix.loadNumber db (.holdersCount id)).2 = loaded at *
  rw [← hview]
  generalize holdersAfter ((loaded.view db).number (.holdersCount id)) hprev hnext = next
  split_ifs with hchanged
  · obtain ⟨hput, hrow, hothers⟩ := putNumber_spec hn (.holdersCount id) next
    exact ⟨hput, number_of_numberRow hrow, hothers⟩
  · rw [not_not] at hchanged
    exact ⟨hn, hchanged.symm, fun _ _ => rfl⟩

lemma balanced_applyAddressDelta {owed : A → SchemaRuneId → ℕ} (owed' : A → SchemaRuneId → ℕ)
    (address : A) (id : SchemaRuneId) (delta : ℤ) (hn : Numbered db ix)
    (h : Balanced (ix.view db) owed) (hdelta : applyDelta (owed address id) delta = owed' address id)
    (howed : ∀ address' id', ¬ (address' = address ∧ id' = id) →
      owed' address' id' = owed address' id') :
    Numbered db (ix.applyAddressDelta db address id delta) ∧
      Balanced ((ix.applyAddressDelta db address id delta).view db) owed' := by
  obtain ⟨-, hn₁, hbalance, hothers₁⟩ :=
    changeAmount_spec hn (k := .addressBalance address id) rfl delta
  rw [h.number_balance, hdelta] at hbalance
  unfold applyAddressDelta
  dsimp only
  generalize (ix.changeAmount db (.addressBalance address id) delta).2 = ix₁ at *
  -- the set of touched balances is not read here
  obtain ⟨ix₂, hix₂⟩ : ∃ ix₂, ix₂ = { ix₁ with
      addressBalanceHistoryTouched := insert (address, id) ix₁.addressBalanceHistoryTouched } := ⟨_, rfl⟩
  have hn₁ : Numbered db ix₂ := hix₂ ▸ hn₁
  have hview₁ : ix₂.view db = ix₁.view db := hix₂ ▸ rfl
  rw [← hix₂]
  rw [← hview₁] at hbalance hothers₁
  obtain ⟨hfst, hn₂, hholder, hothers₂⟩ := changeAmount_spec hn₁ (k := .holder id address) rfl delta
  have hprev : (ix₂.view db).number (.holder id address) = owed address id := by
    rw [number_of_numberRow (hothers₁ (.holder id address) (by simp)), ← h.number_holder]
    rfl
  rw [hprev, hdelta] at hfst hholder
  rw [hfst]
  obtain ⟨hn₃, hcount, hothers₃⟩ := countHolders_spec hn₂ id (owed address id) (owed' address id)
  refine ⟨hn₃, h.change ?_ ?_ ?_ howed ?_⟩
  · rw [hothers₃ _ (by simp), hothers₂ _ (by simp)]
    exact hbalance
  · rw [hothers₃ _ (by simp)]
    exact hholder
  · rw [hcount, number_of_numberRow (hothers₂ (.holdersCount id) (by simp)),
      hothers₁ _ (by simp)]
    rfl
  · intro k _ hne₁ hne₂ hne₃
    rw [hothers₃ k hne₃, hothers₂ k hne₂, hothers₁ k hne₁]

variable {classes : List KeyClass}

section
variable (h : Touches db classes ix ix') (hc : .balances ∉ classes)
include h hc

lemma Touches.numberRow (k : NumberKey A) (hk : k.ofHolders) :
    (ix'.view db).numberRow k = (ix.view db).numberRow k := by
  apply h.rows (.number k)
  rwa [keyClass_of_ofHolders hk]

lemma Touches.numbered (hn : Numbered db ix) : Numbered db ix' := by
  intro k hk
  rw [h.numbers hc k (keyClass_of_ofHolders hk), number_of_numberRow (h.numberRow hc k hk)]
  exact hn k hk

lemma Touches.balanced {owed : A → SchemaRuneId → ℕ} (hb : Balanced (ix.view db) owed) :
    Balanced (ix'.view db) owed :=
  hb.congr (h.numberRow hc)

end

/-- What is owed once an address has got balances. -/
def owedAfter (owed : A → SchemaRuneId → ℕ) (address : A) (balances : List RuneBalance) :
    A → SchemaRuneId → ℕ :=
  fun address' id => owed address' id + if address' = address then amountOf balances id else 0

variable (owed : A → SchemaRuneId → ℕ)

lemma owedAfter_nil (address : A) : owedAfter owed address [] = owed := by
  funext address' id
  simp [owedAfter]

lemma owedAfter_self (address : A) (balances : List RuneBalance) (id : SchemaRuneId) :
    owedAfter owed address balances address id = owed address id + amountOf balances id := by
  rw [owedAfter, if_pos rfl]

lemma owedAfter_cons (address : A) (balance : RuneBalance) (balances : List RuneBalance) :
    owedAfter owed address (balance :: balances) =
      owedAfter (owedAfter owed address [balance]) address balances := by
  funext address' id
  unfold owedAfter
  rw [amountOf_cons, amountOf_cons, amountOf_nil]
  split_ifs <;> omega

lemma owedAfter_singleton_of_ne {address address' : A} {balance : RuneBalance} {id : SchemaRuneId}
    (h : ¬ (address' = address ∧ id = balance.id)) :
    owedAfter owed address [balance] address' id = owed address' id := by
  unfold owedAfter
  rw [amountOf_cons]
  split_ifs with haddress hid
  · exact absurd ⟨haddress, hid.symm⟩ h
  · rfl
  · rfl

section
variable {owed} {address : A} {balances : List RuneBalance}
  (hsmall : ∀ balance ∈ balances, balance.amount < 2 ^ 127)
  (hfit : ∀ id, owed address id + amountOf balances id < u128Size) (hn : Numbered db ix)
include hsmall hfit hn

lemma balanced_receiveBalances (h : Balanced (ix.view db) owed) :
    Numbered db (ix.receiveBalances db address balances) ∧
      Balanced ((ix.receiveBalances db address balances).view db)
        (owedAfter owed address balances) := by
  induction balances generalizing ix owed with
  | nil =>
    rw [owedAfter_nil]
    exact ⟨hn, h⟩
  | cons balance balances ih =>
    have hown : owed address balance.id + balance.amount < u128Size := by
      have hfit' := hfit balance.id
      rw [amountOf_cons, if_pos rfl] at hfit'
      omega
    have hvolume : Touches db [.others] ix
        (ix.applyVolumeDelta db .totalReceived balance.id address balance.amount) :=
      touches_applyVolumeDelta _ _ _ _ _
    have hdelta : applyDelta (owed address balance.id) (asI128 balance.amount) =
        owedAfter owed address [balance] address balance.id := by
      rw [applyDelta_asI128 (hsmall balance mem_cons_self) hown, owedAfter_self, amountOf_cons,
        if_pos rfl, amountOf_nil, Nat.add_zero]
    obtain ⟨hn', h'⟩ := balanced_applyAddressDelta (owedAfter owed address [balance]) address
      balance.id (asI128 balance.amount) (hvolume.numbered (by decide) hn)
      (hvolume.balanced (by decide) h) hdelta fun _ _ hne => owedAfter_singleton_of_ne owed hne
    rw [owedAfter_cons]
    apply ih (fun b hb => hsmall b (mem_cons_of_mem _ hb)) _ hn' h'
    intro id
    have hfit' := hfit id
    rw [amountOf_cons] at hfit'
    rw [owedAfter_self, amountOf_cons, amountOf_nil]
    omega

lemma balanced_spendBalances
    (h : Balanced (ix.view db) (owedAfter owed address balances)) :
    Numbered db (ix.applyAddressDeltas db address balances fun amount => negI128 (asI128 amount)) ∧
      Balanced ((ix.applyAddressDeltas db address balances
        fun amount => negI128 (asI128 amount)).view db) owed := by
  induction balances generalizing ix with
  | nil =>
    rw [owedAfter_nil] at h
    exact ⟨hn, h⟩
  | cons balance balances ih =>
    have hfit' : ∀ id, owed address id + amountOf balances id < u128Size := by
      intro id
      have hfit' := hfit id
      rw [amountOf_cons] at hfit'
      omega
    have hown : owedAfter owed address (balance :: balances) address balance.id =
        owedAfter owed address balances address balance.id + balance.amount := by
      rw [owedAfter_self, owedAfter_self, amountOf_cons, if_pos rfl]
      omega
    have hlt := hfit balance.id
    rw [← owedAfter_self, hown] at hlt
    have hdelta : applyDelta (owedAfter owed address (balance :: balances) address balance.id)
        (negI128 (asI128 balance.amount)) = owedAfter owed address balances address balance.id := by
      rw [hown, applyDelta_negI128 (hsmall balance mem_cons_self) hlt]
    have howed : ∀ address' id, ¬ (address' = address ∧ id = balance.id) →
        owedAfter owed address balances address' id =
          owedAfter owed address (balance :: balances) address' id := by
      intro address' id hne
      unfold owedAfter
      rw [amountOf_cons]
      split_ifs with haddress hid
      · exact absurd ⟨haddress, hid.symm⟩ hne
      · rw [Nat.zero_add]
      · rfl
    obtain ⟨hn', h'⟩ := balanced_applyAddressDelta (owedAfter owed address balances) address
      balance.id (negI128 (asI128 balance.amount)) hn h hdelta howed
    exact ih (fun b hb => hsmall b (mem_cons_of_mem _ hb)) hfit' hn' h'

end

end BlockRunesIndexer

/-! ## Blocks -/

section Small
variable {T A : Type} [LinearOrder T] [LinearOrder A] {rows rows' : RuneRows T A}

/-- The amounts of a row with an address are not negative as `i128`. -/
def OutpointRuneBalances.Small (row : OutpointRuneBalances A) : Prop :=
  row.address ≠ none → ∀ balance ∈ row.balances, balance.amount < 2 ^ 127

instance (row : OutpointRuneBalances A) : Decidable row.Small :=
  inferInstanceAs (Decidable (_ → ∀ balance ∈ row.balances, _))

/-- All stored rows are small. -/
def SmallRows (rows : RuneRows T A) : Prop := ∀ o row, rows.outpoint o = some row → row.Small

lemma addressAmount_congr (h : ∀ o, rows'.outpoint o = rows.outpoint o) :
    rows'.addressAmount = rows.addressAmount := by
  funext address id
  exact outpointSum_congr _ h

lemma addressAmount_le (rows : RuneRows T A) (address : A) (id : SchemaRuneId) :
    rows.addressAmount address id ≤ rows.liveAmount id := by
  apply Finset.sum_le_sum
  intro o _
  cases rows.outpoint o with
  | none => exact le_rfl
  | some row =>
    rw [Option.elim_some]
    split_ifs
    · exact le_rfl
    · exact Nat.zero_le _

lemma addressAmount_eq {o : T × ℕ} {row : OutpointRuneBalances A} (hrow : rows.outpoint o = some row)
    (h : ∀ o', rows'.outpoint o' = if o' = o then none else rows.outpoint o') :
    rows.addressAmount = match row.address with
      | none => rows'.addressAmount
      | some address => BlockRunesIndexer.owedAfter rows'.addressAmount address row.balances := by
  have hchange := fun address' id => outpointSum_change
    (fun row => if row.address = some address' then amountOf row.balances id else 0)
    fun o' ho' => (h o').trans (if_neg ho')
  simp only [hrow, (h o).trans (if_pos rfl), Option.elim_some, Option.elim_none, Nat.add_zero] at hchange
  funext address' id
  rw [RuneRows.addressAmount, ← hchange address' id]
  cases row.address with
  | none => rfl
  | some address =>
    simp only [Option.some.injEq, eq_comm (a := address)]
    rfl

end Small

namespace BlockRunesIndexer
variable {T A H : Type} [LinearOrder T] [LinearOrder A] {db : RuneRows T A}
  {ix ix' : BlockRunesIndexer T A}

/-- The outpoint rows that the block has put. -/
def createdRows (ix : BlockRunesIndexer T A) : List (OutpointRuneBalances A) :=
  ix.writes.puts.filterMap fun
    | ⟨.outpoint _, row⟩ => some row
    | _ => none

variable {row : OutpointRuneBalances A}

omit [LinearOrder T] [LinearOrder A] in
lemma mem_createdRows {o : T × ℕ} (h : ⟨.outpoint o, row⟩ ∈ ix.writes.puts) :
    row ∈ ix.createdRows :=
  mem_filterMap.2 ⟨_, h, rfl⟩

/-- All rows that the block has put are small. -/
def SmallPuts (ix : BlockRunesIndexer T A) : Prop := ∀ row ∈ ix.createdRows, row.Small

omit [LinearOrder T] [LinearOrder A] in
lemma SmallPuts.of_puts (hputs : ∀ p ∈ ix.writes.puts, p ∈ ix'.writes.puts) (h : SmallPuts ix') :
    SmallPuts ix := by
  intro row hrow
  obtain ⟨p, hp, hsome⟩ := mem_filterMap.1 hrow
  exact h row (mem_filterMap.2 ⟨p, hputs p hp, hsome⟩)

lemma SmallPuts.smallRows (h : SmallPuts ix) (hdb : SmallRows db) : SmallRows (ix.view db) := by
  intro o row hrow
  rcases WriteQueue.lookup_view_cases hrow with hput | hstored
  · exact h row (mem_createdRows hput)
  · exact hdb o row hstored

/-- The rows are in step with the outpoints, as long as the amounts are small. -/
def HoldersFollow (db : RuneRows T A) (ix : BlockRunesIndexer T A) : Prop :=
  SmallPuts ix → Numbered db ix ∧ Balanced (ix.view db) (ix.view db).addressAmount

lemma HoldersFollow.touches (htouches : Touches db [.entries, .others] ix ix')
    (h : HoldersFollow db ix) : HoldersFollow db ix' := by
  intro hsmall
  obtain ⟨hn, hb⟩ := h (hsmall.of_puts htouches.puts)
  have houtpoints : ∀ o, (ix'.view db).outpoint o = (ix.view db).outpoint o := fun o =>
    htouches.rows (.outpoint o) (by simp [RuneKey.keyClass])
  rw [addressAmount_congr houtpoints]
  exact ⟨htouches.numbered (by decide) hn, htouches.balanced (by decide) hb⟩

variable {flight : SchemaRuneId → ℕ}

lemma HoldersFollow.spendRow (hdb : SmallRows db) {o : T × ℕ}
    (previous : Option (OutpointRuneBalances A)) (hconserved : Conserved (ix.view db) flight)
    (hrow : (ix.view db).outpoint o = some row) (h : HoldersFollow db ix) :
    HoldersFollow db (ix.spendRow db o row previous) := by
  intro hsmall
  have hsmall' : SmallPuts ix := hsmall.of_puts (touches_spendRow ix o row previous).puts
  have hrowSmall : row.Small := hsmall'.smallRows hdb o row hrow
  obtain ⟨hn, hb⟩ := h hsmall'
  have howed := addressAmount_eq hrow (outpoint_spendRow ix o row previous)
  obtain ⟨deleted, htouches, heq⟩ := @spendRow_spec _ _ _ _ db ix o row previous
  have hn' : Numbered db deleted := htouches.numbered (by decide) hn
  have hb' : Balanced (deleted.view db) (ix.view db).addressAmount := htouches.balanced (by decide) hb
  cases haddress : row.address with
  | none =>
    simp only [haddress] at heq howed
    rw [← howed, heq]
    exact ⟨hn', hb'⟩
  | some address =>
    simp only [haddress] at heq howed
    rw [howed] at hb'
    have hfit : ∀ id, ((ix.spendRow db o row previous).view db).addressAmount address id +
        amountOf row.balances id < u128Size := by
      intro id
      rw [← owedAfter_self, ← howed]
      have hle := addressAmount_le (ix.view db) address id
      have hlt := hconserved.lt id
      omega
    have hspent := balanced_spendBalances (hrowSmall (by simp [haddress])) hfit hn' hb'
    rwa [← heq] at hspent

lemma HoldersFollow.createRow {o : T × ℕ}
    (hconserved : Conserved (ix.view db) fun id => flight id + amountOf row.balances id)
    (hrow : (ix.view db).outpoint o = none) (h : HoldersFollow db ix) :
    HoldersFollow db (ix.createRow db o row) := by
  intro hsmall
  have hsmall' : SmallPuts ix := hsmall.of_puts (touches_createRow ix o row).puts
  obtain ⟨hn, hb⟩ := h hsmall'
  have houtpoints : ∀ o', ((ix.createRow db o row).view db).outpoint o' =
      if o' = o then some row else (ix.view db).outpoint o' := outpoint_createRow ix o row
  have hback : ∀ o', (ix.view db).outpoint o' =
      if o' = o then none else ((ix.createRow db o row).view db).outpoint o' := by
    intro o'
    rw [houtpoints]
    split_ifs with heq
    exacts [heq ▸ hrow, rfl]
  have howed := addressAmount_eq ((houtpoints o).trans (if_pos rfl)) hback
  obtain ⟨created, htouches, hmem, heq⟩ := @createRow_spec _ _ _ _ db ix o row
  have hn' : Numbered db created := htouches.numbered (by decide) hn
  have hb' : Balanced (created.view db) (ix.view db).addressAmount := htouches.balanced (by decide) hb
  cases haddress : row.address with
  | none =>
    simp only [haddress] at heq howed
    rw [howed, heq]
    exact ⟨hn', hb'⟩
  | some address =>
    simp only [haddress] at heq howed
    rw [howed]
    have hrowSmall : row.Small := by
      apply hsmall row
      apply mem_createdRows
      rw [heq]
      exact (touches_receiveBalances created address row.balances).puts _ hmem
    have hfit : ∀ id, (ix.view db).addressAmount address id + amountOf row.balances id <
        u128Size := by
      intro id
      have hle := addressAmount_le (ix.view db) address id
      have hlt := hconserved.lt id
      omega
    have hreceived := balanced_receiveBalances (hrowSmall (by simp [haddress])) hfit hn' hb'
    rwa [← heq] at hreceived

/-- The rows of holders ride along with the flow of units. -/
theorem flowRule_holders (hdb : SmallRows db) : FlowRule db (HoldersFollow db) where
  touches := HoldersFollow.touches
  noteOverflow _ _ _ h := h
  spendRow previous hconserved hrow h := h.spendRow hdb previous hconserved hrow
  createRow hconserved hrow h := h.createRow hconserved hrow

lemma holdersFollow_new (h : Balanced db db.addressAmount) : HoldersFollow db new :=
  fun _ => ⟨fun _ _ => rfl, h⟩

end BlockRunesIndexer

/-! ## Runs -/

section Runs
variable {T A H : Type} [LinearOrder T] [LinearOrder A] {env : RunesEnv}
  {chain : List (RuneBlock T A H)} {s : RunesDb T A H} {b : RuneBlock T A H}
open BlockRunesIndexer

/-- Regular blocks indexed one after the other, none of which puts an amount from `2 ^ 127` on into a
row with an address. -/
inductive SmallRun (env : RunesEnv) : List (RuneBlock T A H) → RunesDb T A H → Prop where
  | nil : SmallRun env [] RunesStore.empty
  | snoc {chain : List (RuneBlock T A H)} {s : RunesDb T A H} (order : Essentials.HashOrder)
    (live : Option (Finset (T × ℕ))) (b : RuneBlock T A H) :
    SmallRun env chain s → NextBlock env chain b → b.Regular →
    (collectBlock env order s.rows live b).2.SmallPuts →
    SmallRun env (chain ++ [b]) (indexBlock env order live s b).2

lemma SmallRun.indexRun (h : SmallRun env chain s) :
    IndexRun env [] RunesStore.empty chain s ∧ ∀ b ∈ chain, b.Regular := by
  induction h with
  | nil => exact ⟨.nil, by simp⟩
  | snoc order live b _ hnext hregular _ ih =>
    refine ⟨IndexRun.snoc order live b ih.1 hnext, ?_⟩
    intro b' hb'
    rcases mem_append.1 hb' with hold | hlast
    · exact ih.2 b' hold
    · rwa [mem_singleton.1 hlast]

lemma balanced_empty :
    Balanced (∅ : RuneRows T A) (RuneRows.addressAmount (∅ : RuneRows T A)) where
  balance _ _ := rfl
  holder _ _ := rfl
  count id := by
    rfl

lemma SmallRun.holders (h : SmallRun env chain s) :
    SmallRows s.rows ∧ Balanced s.rows (RuneRows.addressAmount s.rows) := by
  induction h with
  | nil => exact ⟨fun _ row hrow => absurd (show none = some row from hrow) (by simp), balanced_empty⟩
  | snoc order live b hrun hnext hregular hputs ih =>
    obtain ⟨hinv, hsupplied⟩ := Supplied.of_run hrun.indexRun.1 hrun.indexRun.2
    have hflow := hsupplied.flow hinv hnext hregular (flowRule_holders ih.1)
      (holdersFollow_new ih.2) order live
    rw [indexBlock_snd]
    generalize (collectBlock env order _ live b).2 = ix at hflow hputs ⊢
    exact ⟨hputs.smallRows ih.1, (hflow.rides hputs).2⟩

/-- A regular block that etches a rune with a premine of `2 ^ 127` on one outpoint. -/
def largePremine : RunesDb ℕ ℕ ℕ :=
  (indexBlock (.unary 3) ⟨id, .refl⟩ none RunesStore.empty (etchingBlock 3 1 (2 ^ 127))).2

end Runs

end Espo.Runes
