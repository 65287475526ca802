import Espo.Runes.JournaledBlock

/-!
# Rolling back the blocks of the runes namespace

The undo record of each block tells the truth about the rows before it, so a rollback restores them,
block after block.
-/

namespace Espo.Runes
open Lib List

/-! ## One block -/

section Block
variable {T A H : Type} [LinearOrder T] [LinearOrder A] {env : RunesEnv}
  {order : Essentials.HashOrder} {chain : List (RuneBlock T A H)} {rows : RuneRows T A}
  {b : RuneBlock T A H}
open BlockRunesIndexer

section
variable (h : Indexed env chain rows)
include h

lemma fresh_of_indexed (hnext : NextBlock env chain b)
    (hgenesis : ∀ b' ∈ chain, env.genesisHeight ≤ b'.height) : Fresh env rows b where
  txids k t hk ht := by
    by_contra hrow
    obtain ⟨b', hb', ht'⟩ := h.txid k hrow t hk
    exact hnext.txids b' hb' t ht' ht
  reserved txIndex := by
    by_contra hrow
    obtain ⟨b', hb', txIndex', heq⟩ := h.reserved _ hrow (env.isReserved_reserved _ _)
    have hheight := (env.reserved_inj heq).1
    have hlt := hnext.height b' hb'
    omega
  genesis hheight := by
    have hnil : chain = [] := by
      apply eq_nil_iff_forall_not_mem.2
      intro b' hb'
      have hge := hgenesis b' hb'
      have hlt := hnext.height b' hb'
      omega
    rw [h.empty hnil]
    rfl
  chunks := h.chunks
  addresses := h.addresses

variable {ix : BlockRunesIndexer T A}

/-- The undo record of the block tells the truth. -/
theorem journalSound_of_journaled (hnext : NextBlock env chain b) (hfresh : Fresh env rows b)
    (hj : JournaledIx env rows b settled ix) :
    JournalSound RuneKey.requiresPreimage rows ix.writes.retained ix.writes.preimages where
  known := hj.known
  fresh p hp := by
    have hjust := hj.puts p (mem_of_mem_filter hp)
    obtain ⟨k, v⟩ := p
    -- keys of a transaction or of a height are new because the block is
    have htxid : ∀ t, k.txid? = some t → rows.lookup k = none := fun t ht =>
      hfresh.txids k t ht (hjust.txid t ht)
    have hheight : ∀ height, k.height? = some height → rows.lookup k = none := by
      intro height hk
      by_contra hrow
      obtain ⟨b', hb', heq⟩ := h.height k hrow height hk
      have hlt := hnext.height b' hb'
      have hself := hjust.height height hk
      omega
    cases k with
    | entry id => exact .inr (.inl rfl)
    | number n => exact .inr (.inl rfl)
    | idByRune rune => exact .inr (.inr (hjust.rune rune rfl).1)
    | idByName name =>
      refine .inr (.inr ?_)
      by_contra hrow
      exact h.named name hrow (hjust.name name rfl).1
    | icon id => exact .inr (.inr (hheight _ rfl))
    | balanceHistory address id height => exact .inr (.inr (hheight _ rfl))
    | blockPrice height => exact .inr (.inr (hheight _ rfl))
    | outpoint o => exact .inr (.inr (htxid _ rfl))
    | addressOutpoint address o => exact .inr (.inr (htxid _ rfl))
    | txIo txid => exact .inr (.inr (htxid _ rfl))
    | mintActivity id timestamp txid ordinal => exact .inr (.inr (htxid _ rfl))
    | activity index scope sortBy value height txIndex kind txid =>
      exact .inr (.inr (htxid _ rfl))
    | txList l => exact (hjust.list l rfl).imp_right .inr
    | slot c i =>
      refine (hjust.slot c i rfl).1.imp_right fun hle => .inr ?_
      by_contra hrow
      have hlt := h.slots c i hrow
      omega

/-- The rows of the view satisfy what the rows before did. -/
theorem indexed_view (hj : JournaledIx env rows b settled ix)
    (hlisted : AddressesListed (ix.view rows)) : Indexed env (chain ++ [b]) (ix.view rows) := by
  have hcases : ∀ k, (ix.view rows).get k ≠ none →
      (∃ v, ⟨k, v⟩ ∈ ix.writes.puts) ∨ rows.get k ≠ none := by
    intro k hk
    obtain ⟨v, hv⟩ := Option.ne_none_iff_exists'.1 hk
    rcases WriteQueue.lookup_view_cases hv with hput | hrow
    · exact .inl ⟨v, hput⟩
    · exact .inr (by rw [RuneRows.get, hrow]; simp)
  have hstays : ∀ k : RuneKey T A, k.deletable = false →
      (k ∈ ix.writes.puts.map Sigma.fst ∨ rows.get k ≠ none) → (ix.view rows).get k ≠ none :=
    fun k hk hrow => WriteQueue.lookup_view_ne_none rows
      (fun hmem => absurd (hj.deletes k hmem) (by simp [hk])) hrow
  have hbelow : ∀ c i, Below rows settled ix.writes c i → i < (ix.view rows).number (.count c) :=
    fun c i hi => hi.resolve_right (Nat.not_lt_zero i)
  have hgrows : ∀ c, rows.number (.count c) ≤ (ix.view rows).number (.count c) := hj.grows
  constructor
  · exact fun hnil => absurd hnil (by simp)
  · intro k hk t ht
    rcases hcases k hk with ⟨v, hput⟩ | hrow
    · exact ⟨b, by simp, (hj.puts _ hput).txid t ht⟩
    · obtain ⟨b', hb', ht'⟩ := h.txid k hrow t ht
      exact ⟨b', mem_append_left _ hb', ht'⟩
  · intro k hk height hh
    rcases hcases k hk with ⟨v, hput⟩ | hrow
    · exact ⟨b, by simp, ((hj.puts _ hput).height height hh).symm⟩
    · obtain ⟨b', hb', heq⟩ := h.height k hrow height hh
      exact ⟨b', mem_append_left _ hb', heq⟩
  · intro rune hk hres
    rcases hcases _ hk with ⟨v, hput⟩ | hrow
    · obtain ⟨txIndex, heq⟩ := ((hj.puts _ hput).rune rune rfl).2 hres
      exact ⟨b, by simp, txIndex, heq⟩
    · obtain ⟨b', hb', txIndex, heq⟩ := h.reserved rune hrow hres
      exact ⟨b', mem_append_left _ hb', txIndex, heq⟩
  · intro name hk
    apply hstays _ rfl
    rcases hcases _ hk with ⟨v, hput⟩ | hrow
    · exact .inl ((hj.puts _ hput).name name rfl).2
    · exact .inr (h.named name hrow)
  · intro c i hk
    rcases hcases _ hk with ⟨v, hput⟩ | hrow
    · exact hbelow c i ((hj.puts _ hput).slot c i rfl).2
    · exact (h.slots c i hrow).trans_le (hgrows c)
  · intro l list hlist i hi
    rcases WriteQueue.lookup_view_cases hlist with hput | hrow
    · exact hbelow _ i ((hj.puts _ hput).ids l list rfl i hi)
    · exact (h.chunks l list hrow i hi).trans_le (hgrows _)
  · exact hlisted

end

end Block

/-! ## Runs -/

section Runs
variable {T A H : Type} [LinearOrder T] [LinearOrder A] {env : RunesEnv}
  {chain blocks : List (RuneBlock T A H)} {s s' : RunesDb T A H} {b : RuneBlock T A H}
open BlockRunesIndexer RunesStore

/-- Blocks indexed one after the other, on top of a chain, with or without a set of live outpoints. -/
inductive IndexRun (env : RunesEnv) (chain : List (RuneBlock T A H)) (s : RunesDb T A H) :
    List (RuneBlock T A H) → RunesDb T A H → Prop where
  | nil : IndexRun env chain s [] s
  | snoc {blocks : List (RuneBlock T A H)} {s' : RunesDb T A H} (order : Essentials.HashOrder)
    (live : Option (Finset (T × ℕ))) (b : RuneBlock T A H) :
    IndexRun env chain s blocks s' → NextBlock env (chain ++ blocks) b →
    IndexRun env chain s (blocks ++ [b]) (indexBlock env order live s' b).2

/-- What holds of the namespace after the blocks of a chain. -/
structure StoreInv (env : RunesEnv) (chain : List (RuneBlock T A H)) (s : RunesDb T A H) : Prop where
  indexed : Indexed env chain s.rows
  genesis : ∀ b ∈ chain, env.genesisHeight ≤ b.height
  wellFormed : s.WellFormed
  undo : ∀ h, s.undo.get h ≠ none → ∃ b ∈ chain, b.height = h
  height : s.getIndexHeight = chain.getLast?.map RuneBlock.height

lemma storeInv_empty (env : RunesEnv) : StoreInv env [] (RunesStore.empty : RunesDb T A H) where
  indexed :=
    { empty := fun _ => rfl
      txid := fun _ hk => absurd rfl hk
      height := fun _ hk => absurd rfl hk
      reserved := fun _ hk => absurd rfl hk
      named := fun _ hk => absurd rfl hk
      slots := fun _ _ hk => absurd rfl hk
      chunks := fun _ list hk => absurd (show none = some list from hk) (by simp)
      addresses := fun _ row _ hk => absurd (show none = some row from hk) (by simp) }
  genesis := by simp
  wellFormed := wellFormed_empty
  undo h hh := absurd rfl hh
  height := rfl

lemma StoreInv.journaled (h : StoreInv env chain s) (hnext : NextBlock env chain b)
    (order : Essentials.HashOrder) (live : Option (Finset (T × ℕ))) :
    JournaledIx env s.rows b settled (collectBlock env order s.rows live b).2 := by
  have hfresh := fresh_of_indexed h.indexed hnext h.genesis
  exact (blockInvariant_journaled hfresh).collectBlock order (journaled_new env _ b) live

lemma StoreInv.indexBlock (h : StoreInv env chain s) (hnext : NextBlock env chain b)
    (order : Essentials.HashOrder) (live : Option (Finset (T × ℕ))) :
    StoreInv env (chain ++ [b]) (Runes.indexBlock env order live s b).2 := by
  have hj := h.journaled hnext order live
  have hlisted := ((outpointInvariant_listed s.rows).block env b).collectBlock order h.indexed.addresses live
  rw [indexBlock_snd]
  generalize (collectBlock env order s.rows live b).2 = ix at hj hlisted ⊢
  refine ⟨indexed_view h.indexed hj hlisted, ?_, wellFormed_setBlockBatch, ?_, ?_⟩
  · intro b' hb'
    rcases mem_append.1 hb' with hold | hnew
    · exact h.genesis b' hold
    · obtain rfl := mem_singleton.1 hnew
      exact hnext.genesis
  · intro height hheight
    by_cases heq : height = b.height
    · exact ⟨b, by simp, heq.symm⟩
    · obtain ⟨b', hb', hb''⟩ := h.undo height
        (ne_of_eq_of_ne (Table.get_put_of_ne s.undo _ heq).symm hheight)
      exact ⟨b', mem_append_left _ hb', hb''⟩
  · rw [getLast?_concat]
    rfl

lemma StoreInv.run (h : StoreInv env chain s) (hrun : IndexRun env chain s blocks s') :
    StoreInv env (chain ++ blocks) s' := by
  induction hrun with
  | nil => rwa [append_nil]
  | snoc order live b _ hnext ih =>
    rw [← append_assoc]
    exact ih.indexBlock hnext order live

lemma atTarget_targetHeight (n h : ℕ) : atTarget (targetHeight n) h = decide (h < n) := by
  cases n with
  | zero => simp [atTarget, targetHeight]
  | succ n =>
    simp only [atTarget, targetHeight, Option.any_some, decide_eq_decide]
    omega

variable [DecidableEq H]

/-- A rollback below a block that follows first undoes it. -/
theorem StoreInv.rollback_indexBlock (h : StoreInv env chain s) (hnext : NextBlock env chain b)
    (order : Essentials.HashOrder) (live : Option (Finset (T × ℕ))) {n : ℕ} (hn : n ≤ b.height)
    (fuel : ℕ) :
    rollbackToHeight (targetHeight n) (fuel + 1) (Runes.indexBlock env order live s b).2 =
      rollbackToHeight (targetHeight n) fuel s := by
  have hundo : s.undo.get b.height = none := by
    by_contra hget
    obtain ⟨b', hb', heq⟩ := h.undo b.height hget
    have hlt := hnext.height b' hb'
    omega
  have hsound := journalSound_of_journaled h.indexed hnext
    (fresh_of_indexed h.indexed hnext h.genesis) (h.journaled hnext order live)
  refine rollbackToHeight_setBlockBatch h.wellFormed hundo hsound ?_ fuel
  rw [atTarget_targetHeight]
  simpa using hn

/-- A rollback undoes the blocks of a run one after the other. -/
theorem StoreInv.rollback_run (h : StoreInv env chain s) (hrun : IndexRun env chain s blocks s')
    {n : ℕ} (hn : ∀ b ∈ blocks, n ≤ b.height) (fuel : ℕ) :
    rollbackToHeight (targetHeight n) (fuel + blocks.length) s' =
      rollbackToHeight (targetHeight n) fuel s := by
  induction hrun with
  | nil => rfl
  | snoc order live b hprev hnext ih =>
    have hlast : n ≤ b.height := hn b (by simp)
    rw [length_append, length_singleton, ← Nat.add_assoc,
      (h.run hprev).rollback_indexBlock hnext order live hlast]
    exact ih fun b' hb' => hn b' (mem_append_left _ hb')

omit [DecidableEq H] in
lemma IndexRun.first_height {first : RuneBlock T A H}
    (hrun : IndexRun env chain s (first :: blocks) s') :
    (∀ b ∈ first :: blocks, first.height ≤ b.height) ∧ ∀ b ∈ chain, b.height < first.height := by
  generalize hall : first :: blocks = all at hrun
  induction hrun generalizing blocks with
  | nil => simp at hall
  | @snoc prev s' order live b hprev hnext ih =>
    cases prev with
    | nil =>
      obtain ⟨rfl, rfl⟩ : first = b ∧ blocks = [] := by simpa using hall
      refine ⟨fun b' hb' => ?_, fun b' hb' => hnext.height b' (by simpa using hb')⟩
      exact (mem_singleton.1 hb').symm ▸ le_rfl
    | cons head prev =>
      obtain ⟨rfl, rfl⟩ : first = head ∧ blocks = prev ++ [b] := by simpa using hall
      obtain ⟨hle, hlt⟩ := ih rfl
      refine ⟨fun b' hb' => ?_, hlt⟩
      rcases mem_append.1 hb' with hold | hnew
      · exact hle b' hold
      · obtain rfl := mem_singleton.1 hnew
        exact (hnext.height first (by simp)).le

/-- A rollback before the first of some blocks restores the whole namespace to what it was before
them. -/
theorem rollbackBeforeHeight_restores {first : RuneBlock T A H}
    (hreach : IndexRun env [] RunesStore.empty chain s)
    (hrun : IndexRun env chain s (first :: blocks) s') (fuel : ℕ) (hfuel : blocks.length + 2 ≤ fuel) :
    s'.rollbackBeforeHeight first.height fuel = some (.ok (), s) := by
  have hinv : StoreInv env chain s := (storeInv_empty env).run hreach
  obtain ⟨rest, rfl⟩ : ∃ rest, fuel = rest + 1 + (first :: blocks).length :=
    ⟨fuel - (blocks.length + 2), by rw [length_cons]; omega⟩
  rw [rollbackBeforeHeight, hinv.rollback_run hrun hrun.first_height.1, rollbackToHeight, hinv.height]
  cases hlast : chain.getLast? with
  | none => rfl
  | some last =>
    have hlt := hrun.first_height.2 last (mem_of_getLast? hlast)
    rw [Option.map_some]
    dsimp only
    rw [atTarget_targetHeight, if_pos (by simpa using hlt)]

lemma nextBlock_etchingBlock (premine : ℕ) : NextBlock (.unary 3) [] (etchingBlock 3 1 premine) :=
  ⟨le_rfl, by simp, by simp, by simp [RuneBlock.txids, etchingBlock]⟩

lemma indexRun_etchingBlock (premine : ℕ) :
    IndexRun (.unary 3) [] RunesStore.empty [etchingBlock 3 1 premine]
      (indexBlock (.unary 3) ⟨id, fun _ => .rfl⟩ none RunesStore.empty (etchingBlock 3 1 premine)).2 :=
  IndexRun.snoc _ _ _ .nil ((append_nil _).symm ▸ nextBlock_etchingBlock premine)

theorem rollbackBeforeHeight_restores_etching :
    (indexBlock (.unary 3) ⟨id, fun _ => .rfl⟩ none RunesStore.empty
      (etchingBlock 3 1 5)).2.rollbackBeforeHeight 3 2 = some (.ok (), RunesStore.empty) :=
  rollbackBeforeHeight_restores .nil (indexRun_etchingBlock 5) 2 le_rfl

/-- A rollback gives what the blocks below its height give alone. -/
lemma IndexRun.rollback (hrun : IndexRun env [] .empty chain s) (n fuel : ℕ) :
    ∃ s', IndexRun env [] .empty (chain.filter (·.height < n)) s' ∧
      s.rollbackBeforeHeight n (fuel + chain.length + 1) = some (.ok (), s') := by
  induction hrun with
  | nil => exact ⟨_, .nil, rfl⟩
  | @snoc blocks s order live b hprev hnext ih =>
    rw [length_append, length_singleton, ← Nat.add_assoc, filter_append]
    by_cases hn : b.height < n
    · have hleft : ∀ b' ∈ blocks, b'.height < n := fun b' hb' => (hnext.height b' hb').trans hn
      have hrun := IndexRun.snoc order live b hprev hnext
      rw [filter_eq_self.2 (by simpa), filter_cons_of_pos (by simpa), filter_nil]
      refine ⟨_, hrun, ?_⟩
      rw [rollbackBeforeHeight, rollbackToHeight, ((storeInv_empty env).run hrun).height]
      simp [atTarget_targetHeight, hn]
    · rw [filter_cons_of_neg (by simpa using hn), filter_nil, append_nil, rollbackBeforeHeight,
        ((storeInv_empty env).run hprev).rollback_indexBlock hnext order live (not_lt.1 hn)]
      exact ih

/-- Blocks are indexed and rolled back in any order; the chain is what is left of them. -/
inductive ReorgRun (env : RunesEnv) : List (RuneBlock T A H) → RunesDb T A H → Prop where
  | empty : ReorgRun env [] .empty
  | block {past db} (order live next) : ReorgRun env past db → NextBlock env past next →
    ReorgRun env (past ++ [next]) (indexBlock env order live db next).2
  | rollback {past db result db'} (n fuel : ℕ) : ReorgRun env past db →
    db.rollbackBeforeHeight n (fuel + past.length + 1) = some (result, db') →
    ReorgRun env (past.filter (·.height < n)) db'

/-- After reorgs the namespace is what the blocks that are left give alone, and no rollback fails. -/
theorem reorgRun_fresh (h : ReorgRun env chain s) :
    IndexRun env [] .empty chain s ∧
      ∀ n fuel, ∃ s', s.rollbackBeforeHeight n (fuel + chain.length + 1) = some (.ok (), s') := by
  have hrun : IndexRun env [] .empty chain s := by
    induction h with
    | empty => exact .nil
    | block order live b _ hnext ih => exact .snoc order live b ih hnext
    | rollback n fuel _ hroll ih =>
      obtain ⟨s', hs', hok⟩ := ih.rollback n fuel
      obtain ⟨-, rfl⟩ := Prod.mk.inj (Option.some.inj (hok.symm.trans hroll))
      exact hs'
  exact ⟨hrun, fun n fuel => (hrun.rollback n fuel).imp fun _ => And.right⟩

theorem reorgRun_fresh_etching : ∃ s', (indexBlock (.unary 3) ⟨id, fun _ => .rfl⟩ none .empty
    (etchingBlock 3 1 5)).2.rollbackBeforeHeight 0 2 = some (.ok (), s') :=
  (reorgRun_fresh (.block _ _ _ .empty (nextBlock_etchingBlock 5))).2 0 0

end Runs

end Espo.Runes
