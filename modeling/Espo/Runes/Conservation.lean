import Espo.Runes.Flow
import Espo.Runes.Rollback

/-!
# Conservation of the supply over runs

After every run of regular blocks the amounts of a rune on live outpoints and its burned amount are
what was premined and minted. The exception that regular blocks leave out is real: where the runes
start at block 0, the genesis rune can be minted in block 0, and an etching in the first transaction
of block 1 then replaces its entry.
-/

namespace Espo.Runes
open Lib

variable {T A H : Type} [LinearOrder T] [LinearOrder A] {env : RunesEnv}
  {chain : List (RuneBlock T A H)} {s : RunesDb T A H} {b : RuneBlock T A H}
  {Q : BlockRunesIndexer T A → Prop}
open BlockRunesIndexer

/-- The rows after a chain of regular blocks: the supply is conserved, and the ids are positions in
the chain. -/
structure Supplied (chain : List (RuneBlock T A H)) (rows : RuneRows T A) : Prop where
  conserved : Conserved rows fun _ => 0
  ids : ∀ id, rows.entry id ≠ none → id = genesisRuneId ∨ ∃ b ∈ chain, id.block = b.height

lemma supplied_empty : Supplied ([] : List (RuneBlock T A H)) (∅ : RuneRows T A) where
  conserved :=
    { sound := fun _ e he => absurd (show none = some e from he) (by simp)
      issued := fun _ e he => absurd (show none = some e from he) (by simp)
      absent := fun _ _ => rfl }
  ids _ hid := absurd rfl hid

lemma Supplied.flow (h : Supplied chain s.rows) (hinv : StoreInv env chain s)
    (hnext : NextBlock env chain b) (hregular : b.Regular) (hQ : FlowRule s.rows Q) (hnew : Q new)
    (order : Essentials.HashOrder) (live : Option (Finset (T × ℕ))) :
    Flow s.rows Q (spentBy b.txs.zipIdx) (madeAfter s.rows b.txs.zipIdx)
      (idsAfter s.rows b b.txs.length) (fun _ => 0) (collectBlock env order s.rows live b).2 := by
  have hfresh := fresh_of_indexed hinv.indexed hnext hinv.genesis
  apply flow_collectBlock env order hQ h.conserved hnew hregular hnext.nodup
  · intro o ho hmem
    exact ho (hfresh.txids (.outpoint o) o.1 rfl hmem)
  · intro id hid
    refine (h.ids id hid).imp_right ?_
    rintro ⟨b', hb', heq⟩
    have hlt := hnext.height b' hb'
    omega

lemma Supplied.indexBlock (h : Supplied chain s.rows) (hinv : StoreInv env chain s)
    (hnext : NextBlock env chain b) (hregular : b.Regular) (order : Essentials.HashOrder)
    (live : Option (Finset (T × ℕ))) :
    Supplied (chain ++ [b]) (Runes.indexBlock env order live s b).2.rows := by
  have hflow := h.flow hinv hnext hregular (flowRule_true s.rows) trivial order live
  rw [indexBlock_snd]
  generalize (collectBlock env order s.rows live b).2 = ix at hflow ⊢
  refine ⟨hflow.conserved, fun id hid => ?_⟩
  rcases hflow.ids id hid with heq | hold | hown
  · exact .inl heq
  · refine (h.ids id hold).imp_right ?_
    rintro ⟨b', hb', heq⟩
    exact ⟨b', List.mem_append_left _ hb', heq⟩
  · exact .inr ⟨b, by simp, hown.1⟩

lemma Supplied.of_run (hrun : IndexRun env [] RunesStore.empty chain s)
    (hregular : ∀ b ∈ chain, b.Regular) : StoreInv env chain s ∧ Supplied chain s.rows := by
  refine ⟨(storeInv_empty env).run hrun, ?_⟩
  induction hrun with
  | nil => exact supplied_empty
  | snoc order live b hrun hnext ih =>
    have hsupplied := ih fun b' hb' => hregular b' (List.mem_append_left _ hb')
    exact hsupplied.indexBlock ((storeInv_empty env).run hrun) hnext (hregular b (by simp)) order live

/-- Live and burned amounts of every rune are the premine and the mints, which `supply` returns and
the cap bounds; and the sums of a regular block that follows do not wrap around. -/
structure SupplyConserved (env : RunesEnv) (chain : List (RuneBlock T A H)) (s : RunesDb T A H) :
    Prop where
  issued : ∀ id e, RuneRows.entry s.rows id = some e →
    RuneRows.liveAmount s.rows id + e.burned = e.premine + e.mints * e.mintAmount
  supply : ∀ id e, RuneRows.entry s.rows id = some e →
    e.supply = e.premine + e.mints * e.mintAmount
  mints : ∀ id e, RuneRows.entry s.rows id = some e → e.mints ≤ e.cap
  overflow : ∀ order live b, NextBlock env chain b → b.Regular →
    (collectBlock env order s.rows live b).2.overflow = false

lemma etchingBlock_fits (height txid : ℕ) {premine : ℕ} (h : premine < u128Size) :
    ∀ tx ∈ (etchingBlock height txid premine).txs, ∀ a, tx.artifact = some a → a.Fits := by
  intro tx htx a ha e he
  obtain rfl := List.mem_singleton.1 htx
  cases ha
  cases he
  exact ⟨by simpa using h, Nat.two_pow_pos 128⟩

lemma regular_etchingBlock {premine : ℕ} (h : premine < u128Size) : (etchingBlock 3 1 premine).Regular :=
  ⟨List.nodup_nil, etchingBlock_fits 3 1 h, fun h => absurd h (by simp [etchingBlock])⟩

/-- Only runes with an entry have units, at heights of the chain but for genesis; these fit in 128 bits. -/
theorem liveAmount_grounded (hrun : IndexRun env [] RunesStore.empty chain s)
    (hregular : ∀ b ∈ chain, b.Regular) (id : SchemaRuneId) :
    RuneRows.liveAmount s.rows id < u128Size ∧ (RuneRows.liveAmount s.rows id ≠ 0 →
      RuneRows.entry s.rows id ≠ none ∧ (id = genesisRuneId ∨ ∃ b ∈ chain, id.block = b.height)) := by
  obtain ⟨-, h⟩ := Supplied.of_run hrun hregular
  refine ⟨h.conserved.lt id, fun hlive => ?_⟩
  have hentry : RuneRows.entry s.rows id ≠ none := fun hnone => hlive (h.conserved.absent id hnone)
  exact ⟨hentry, h.ids id hentry⟩

theorem liveAmount_grounded_etching : RuneRows.liveAmount (indexBlock (.unary 3) ⟨id, fun _ => .rfl⟩ none
    RunesStore.empty (etchingBlock 3 1 5)).2.rows ⟨3, 0⟩ < u128Size := by
  refine (liveAmount_grounded (indexRun_etchingBlock 5) (fun b hb => ?_) _).1
  exact List.mem_singleton.1 hb ▸ regular_etchingBlock (by decide)

/-- A block with one transaction, which mints a rune. -/
def mintingBlock (height txid : ℕ) (id : SchemaRuneId) : RuneBlock ℕ ℕ ℕ :=
  { etchingBlock height txid 0 with
    txs := [
      { txid := txid
        inputs := []
        outputs := [⟨0, [], true, true, none⟩, ⟨546, [], false, false, some 7⟩]
        artifact := some (.runestone ⟨[], none, some id, none⟩)
        icon := none }] }

/-- A mint of the genesis rune in block 0 and an etching in the first transaction of block 1. -/
def genesisCollision : RunesDb ℕ ℕ ℕ :=
  (indexBlock (.unary 0) ⟨id, .refl⟩ none
    (indexBlock (.unary 0) ⟨id, .refl⟩ none RunesStore.empty
      (mintingBlock 0 10 genesisRuneId)).2 (etchingBlock 1 11 0)).2

end Espo.Runes
