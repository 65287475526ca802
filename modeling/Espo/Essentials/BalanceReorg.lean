import Espo.Essentials.BalanceIndex

/-!
# Address balances survive reorgs

Whatever was indexed, failed and rewound, the balance of an address at the tip is the sum of what its
outpoints hold whose pointers are visible at the tip and that are not visibly spent there.

The blobs are never rewound. What makes them right is that every version in them tells the truth about
the block it names (`BlobsTrue`), whether that block is in the chain or not, and that the blocks of the
chain have their versions (`BlobsComplete`).
-/

namespace Espo.Essentials
open Lib TreeDb Espo.Lists List

section Defs
variable {K V H : Type*} {T A : Type} [DecidableEq T] {heightOf : H → ℕ}
  {layout : BalanceLayout K V A}

/-- The parts of blocks that change balances. -/
def espoBlocks (blocks : List (BalanceBlock T layout heightOf)) : List (EspoBlock T A) :=
  blocks.map BalanceBlock.toEspoBlock

variable (order : HashOrder) (ancestry : H → List (BalanceBlock T layout heightOf))

/-- The effect of the block with the given hash, on the chain that the hash determines. -/
def effectAt (hash : H) : BlockAcc T A :=
  ((historyOf order (espoBlocks (ancestry hash))).getLast?.map Prod.snd).getD .empty

/-- The hashes of the blocks of a chain determine the blocks up to them. -/
def Ancestral (blocks : List (BalanceBlock T layout heightOf)) : Prop :=
  ∀ n b, blocks[n]? = some b → ancestry b.hash = blocks.take (n + 1)

/-- What is required of a block. `recorded` holds the outpoints that some block of the run can
record. -/
structure Admitted [DecidableEq A] (recorded : T × ℕ → Prop)
    (blocks : List (BalanceBlock T layout heightOf)) (b : BalanceBlock T layout heightOf) : Prop where
  /-- The hash of a block determines it and the chain it stands on. -/
  ancestry : ancestry b.hash = blocks ++ [b]
  once : CreatedAndSpentOnce (espoBlocks (blocks ++ [b]))
  noSaturation : NoSaturation (historyOf order (espoBlocks blocks)).balance
    ((historyOf order (espoBlocks blocks)).effect order b.toEspoBlock).changes
  /-- Without a tip all versions are visible, so a first block must not spend what another block
  created. -/
  first : blocks = [] → ∀ o ∈ allInputs b.transactions, o ∉ createdOuts b.transactions → ¬recorded o

end Defs

/-! ## Effects of blocks -/

section Effects
variable {K V H : Type*} {T A : Type} {heightOf : H → ℕ}
  {layout : BalanceLayout K V A} {order : HashOrder}
  {ancestry : H → List (BalanceBlock T layout heightOf)} {blocks : List (BalanceBlock T layout heightOf)}
  {b : BalanceBlock T layout heightOf}

lemma Ancestral.take (h : Ancestral ancestry blocks) (n : ℕ) : Ancestral ancestry (blocks.take n) := by
  intro m b hb
  rw [getElem?_take] at hb
  split_ifs at hb with hlt
  rw [take_take, min_eq_left (by omega)]
  exact h m b hb

lemma Ancestral.snoc (h : Ancestral ancestry blocks) (hb : ancestry b.hash = blocks ++ [b]) :
    Ancestral ancestry (blocks ++ [b]) := by
  intro n c hc
  by_cases hn : n < blocks.length
  · rw [getElem?_append_left hn] at hc
    rw [take_append_of_le_length (by omega)]
    exact h n c hc
  · have hlt := (List.getElem?_eq_some_iff.1 hc).1
    rw [length_append, length_singleton] at hlt
    have hlen : n = blocks.length := by omega
    subst hlen
    obtain rfl : b = c := by simpa using hc
    rw [hb, take_of_length_le (by simp)]

variable [DecidableEq T]

lemma effectAt_of_ancestry (h : ancestry b.hash = blocks ++ [b]) :
    effectAt order ancestry b.hash
      = (historyOf order (espoBlocks blocks)).effect order b.toEspoBlock := by
  have hsnoc : historyOf order (espoBlocks (blocks ++ [b]))
      = (historyOf order (espoBlocks blocks)).extend order b.toEspoBlock := by
    rw [historyOf, espoBlocks, map_append, foldl_append]
    rfl
  rw [effectAt, h, hsnoc, History.extend, getLast?_append]
  rfl

lemma Ancestral.history (h : Ancestral ancestry blocks) :
    historyOf order (espoBlocks blocks)
      = blocks.map fun b => (b.toEspoBlock, effectAt order ancestry b.hash) := by
  induction blocks using List.reverseRecOn with
  | nil => rfl
  | append_singleton blocks b ih =>
    have hblocks : Ancestral ancestry blocks := by
      have htake := h.take blocks.length
      rwa [take_left] at htake
    have hb : ancestry b.hash = blocks ++ [b] := by
      have hlast := h blocks.length b (by simp)
      rwa [take_of_length_le (by simp)] at hlast
    rw [map_append, ← ih hblocks, map_cons, effectAt_of_ancestry hb, espoBlocks,
      map_append, historyOf, foldl_append]
    rfl

lemma blockEffect_congr {lookup lookup' : T × ℕ → Option (OutpointRow A)} (order : HashOrder)
    (height : ℕ) {txs : List (EspoTransaction T A)} (h : ∀ o ∈ allInputs txs, lookup o = lookup' o) :
    blockEffect order height lookup txs = blockEffect order height lookup' txs := by
  refine foldl_ext _ _ _ fun acc tx htx => ?_
  have hinputs : tx.inputs.foldl (spendInput lookup tx.txid) (acc, [])
      = tx.inputs.foldl (spendInput lookup' tx.txid) (acc, []) := by
    refine foldl_ext _ _ _ fun st o ho => ?_
    rw [spendInput, spendInput, h o (mem_flatMap.2 ⟨tx, htx, ho⟩)]
  rw [processTx, processTx, hinputs]

end Effects

/-! ## Blobs -/

section Blobs
variable {K V H : Type*} {T A : Type} {chain : List (Commit K V H)} {effect : H → BlockAcc T A}
  {hist : History T A}

section
variable (hhist : hist.map Prod.snd = chain.map fun c => effect c.hash)
include hhist

lemma spent_iff (o : T × ℕ) : hist.Spent o ↔ ∃ c ∈ chain, o ∈ (effect c.hash).spent := by
  have hexists : hist.Spent o ↔ ∃ acc ∈ hist.map Prod.snd, o ∈ acc.spent := by
    simp only [History.Spent, List.mem_map, exists_exists_and_eq_and]
  rw [hexists, hhist]
  simp only [List.mem_map, exists_exists_and_eq_and]

variable [DecidableEq T]

lemma exists_created {o : T × ℕ} {row : OutpointRow A} (h : hist.row o = some row) :
    ∃ c ∈ chain, (effect c.hash).ephem.lookup o = some row := by
  obtain ⟨entry, hentry, hlookup⟩ := History.row_eq_some h
  have hmem : entry.2 ∈ hist.map Prod.snd := List.mem_map_of_mem hentry
  rw [hhist] at hmem
  obtain ⟨c, hc, heq⟩ := List.mem_map.1 hmem
  exact ⟨c, hc, heq ▸ hlookup⟩

lemma isSome_row {o : T × ℕ} {c : Commit K V H} (hc : c ∈ chain) (ho : o ∈ (effect c.hash).ephem) :
    (hist.row o).isSome := by
  have hmem : effect c.hash ∈ hist.map Prod.snd := hhist ▸ List.mem_map.2 ⟨c, hc, rfl⟩
  obtain ⟨entry, hentry, heq⟩ := List.mem_map.1 hmem
  rw [History.row, findSome?_isSome_iff]
  exact ⟨entry, hentry, AList.lookup_isSome.2 (heq ▸ ho)⟩

end

variable [LinearOrder H] [DecidableEq T] {heightOf : H → ℕ}

/-- Every version in the blobs tells the truth about its block; ids that were not given out are
free. -/
structure BlobsTrue (effect : H → BlockAcc T A) (recorded : T × ℕ → Prop) (probe : T → List ℕ)
    (s : BalanceStore T A heightOf) : Prop where
  pos : ∀ o l, s.blobs.outpointPos.get o = some l → ∀ e ∈ l.entries, o ∈ (effect e.blockhash).ephem
  spent : ∀ id l, s.blobs.outpointSpentById.get id = some l → ∀ e ∈ l.entries,
    ∃ ptr, s.pointers.get id = some ptr ∧ ptr.outpoint ∈ (effect e.blockhash).spent
  recorded : ∀ o l, s.blobs.outpointPos.get o = some l → recorded o
  free : ∀ id, s.nextOutpoint ≤ id →
    s.pointers.get id = none ∧ s.blobs.outpointSpentById.get id = none
  filter : ∀ f ∈ s.filter, ∀ txid l, s.blobs.txPackedOutflowPos.get txid = some l →
    f.mightContain probe txid = true

/-- A block has its versions in the blobs. -/
structure BlobsComplete (effect : H → BlockAcc T A) (s : BalanceStore T A heightOf) (hash : H) :
    Prop where
  pos : ∀ o row, (effect hash).ephem.lookup o = some row → ∃ id,
    s.blobs.outpointPos.get o = some (VersionList.new hash id) ∧ s.pointers.get id = some ⟨o, row⟩
  spent : ∀ o ∈ (effect hash).spent, ∃ (c : H) (id : ℕ) (l : VersionList heightOf T),
    s.blobs.outpointPos.get o = some (VersionList.new c id) ∧
      s.blobs.outpointSpentById.get id = some l ∧ ∃ e ∈ l.entries, e.blockhash = hash
  tx : ∀ txid ∈ (effect hash).alkaneTxs, ∃ id,
    s.blobs.txPackedOutflowPos.get txid = some (VersionList.new hash id)

variable {Id : Type*} {p : EssentialsProvider K V Id T heightOf} {W : Type}

section
variable (rows : ChainRows p.tree chain)
include rows

section
variable (hview : p.viewBlockhash = none)
include hview

omit [DecidableEq T] in
/-- On a chain that is not empty, the visible entry of a list is its first one on the chain. -/
theorem resolveSingle_latest (hne : chain ≠ []) (l : VersionList heightOf W) :
    resolveSingle p (some l) .latest
      = (l.entries.find? fun e => decide (e.blockhash ∈ chain.map Commit.hash)).map
          VersionedEntry.value := by
  obtain ⟨tip, htip⟩ : ∃ tip, chain.getLast? = some tip := ⟨_, getLast?_eq_some_getLast hne⟩
  have htarget : resolveTargetBlockhash p .latest = some tip.hash := by
    rw [resolveTargetBlockhash, EssentialsProvider.resolvedViewBlockhash, hview,
      VersionedTreeDb.activeBlockhash, rows.activeBlock, htip]
    rfl
  rw [resolveSingle, htarget, resolveVisibleEntry, resolveVisibleLoop_eq]
  congr 1
  refine find?_congr fun e _ => ?_
  rw [Bool.eq_iff_iff, visibleRule_iff rows (mem_of_getLast? htip), decide_eq_true_eq,
    List.mem_map, onBranch_tip_iff htip]

omit [DecidableEq T] in
lemma resolveSingle_new {hash : H} (hhash : hash ∈ chain.map Commit.hash) (value : W) :
    resolveSingle p (some (VersionList.new hash value : VersionList heightOf W)) .latest
      = some value := by
  have hne : chain ≠ [] := by
    rintro rfl
    simp at hhash
  rw [resolveSingle_latest rows hview hne]
  simp only [VersionList.new, newVersion, find?_cons, decide_eq_true hhash, Option.map_some]

lemma resolveOutpointIdV2_new {c : Commit K V H} (hc : c ∈ chain) {o : T × ℕ} {id : ℕ}
    (h : p.blobs.outpointPos.get o = some (VersionList.new c.hash id)) :
    resolveOutpointIdV2 p .latest o.1 o.2 = some id := by
  rw [resolveOutpointIdV2, h]
  exact resolveSingle_new rows hview (List.mem_map_of_mem hc) id

omit [DecidableEq T] in
lemma isSome_resolveSingle (hne : chain ≠ []) (l : VersionList heightOf W) :
    (resolveSingle p (some l) .latest).isSome ↔ ∃ e ∈ l.entries, e.blockhash ∈ chain.map Commit.hash := by
  rw [resolveSingle_latest rows hview hne, Option.isSome_map, find?_isSome]
  simp only [decide_eq_true_eq]

end

end

section Visible
variable {recorded : T × ℕ → Prop} {probe : T → List ℕ}
  {s : BalanceStore T A heightOf}

lemma row_eq_none (hcomplete : ∀ c ∈ chain, BlobsComplete effect s c.hash)
    (hhist : hist.map Prod.snd = chain.map fun c => effect c.hash) {o : T × ℕ}
    (h : ∀ c ∈ chain, ∀ id, s.blobs.outpointPos.get o ≠ some (VersionList.new c.hash id)) :
    hist.row o = none := by
  by_contra hne
  obtain ⟨row, hrow⟩ := Option.ne_none_iff_exists'.1 hne
  obtain ⟨c, hc, hlookup⟩ := exists_created hhist hrow
  obtain ⟨id, hpos, -⟩ := (hcomplete c hc).pos o row hlookup
  exact h c hc id hpos

/-- The visible row of an outpoint is its unspent row in the history of the chain. -/
theorem visibleRow_eq (htrue : BlobsTrue effect recorded probe s)
    (hcomplete : ∀ c ∈ chain, BlobsComplete effect s c.hash) {tree : VersionedTreeDb K V Id H}
    (rows : ChainRows tree chain) (hhist : hist.map Prod.snd = chain.map fun c => effect c.hash)
    {o : T × ℕ} (ho : chain = [] → ¬recorded o) :
    visibleRow ⟨tree, s.blobs, none⟩ s.pointers o = hist.unspent o := by
  let p : EssentialsProvider K V Id T heightOf := ⟨tree, s.blobs, none⟩
  have hnone : resolveOutpointIdV2 p .latest o.1 o.2 = none → hist.row o = none →
      visibleRow p s.pointers o = hist.unspent o := by
    intro hid hrow
    rw [visibleRow, hid, History.unspent, hrow, ite_self]
    rfl
  cases hpos : s.blobs.outpointPos.get o with
  | none =>
    refine hnone (by rw [resolveOutpointIdV2, hpos]; rfl) (row_eq_none hcomplete hhist ?_)
    intro c _ id
    rw [hpos]
    exact Option.some_ne_none _ |>.symm
  | some l =>
    have hne : chain ≠ [] := fun hnil => ho hnil (htrue.recorded o l hpos)
    by_cases hvisible : ∃ e ∈ l.entries, e.blockhash ∈ chain.map Commit.hash
    · obtain ⟨e, he, hmem⟩ := hvisible
      obtain ⟨c, hc, hhash⟩ := List.mem_map.1 hmem
      have hcreated : o ∈ (effect c.hash).ephem := hhash ▸ htrue.pos o l hpos e he
      obtain ⟨row, hlookup⟩ := Option.isSome_iff_exists.1 (AList.lookup_isSome.2 hcreated)
      obtain ⟨id, hnew, hptr⟩ := (hcomplete c hc).pos o row hlookup
      have hid : resolveOutpointIdV2 p .latest o.1 o.2 = some id :=
        resolveOutpointIdV2_new rows rfl hc hnew
      have hrow : hist.row o = some row := by
        obtain ⟨row', hrow'⟩ := Option.isSome_iff_exists.1 (isSome_row hhist hc hcreated)
        obtain ⟨c', hc', hlookup'⟩ := exists_created hhist hrow'
        obtain ⟨id', hnew', hptr'⟩ := (hcomplete c' hc').pos o row' hlookup'
        obtain rfl : id = id' :=
          Option.some_inj.1 (hid.symm.trans (resolveOutpointIdV2_new rows rfl hc' hnew'))
        rw [hptr] at hptr'
        rw [hrow', (OutpointPointer.mk.inj (Option.some_inj.1 hptr')).2]
      have hspent : (resolveOutpointSpentByIdV2 p .latest id).isSome ↔ hist.Spent o := by
        rw [spent_iff hhist, resolveOutpointSpentByIdV2]
        constructor
        · intro hsome
          cases hl : s.blobs.outpointSpentById.get id with
          | none =>
            rw [hl] at hsome
            cases hsome
          | some l' =>
            rw [hl, isSome_resolveSingle rows rfl hne] at hsome
            obtain ⟨e', he', hmem'⟩ := hsome
            obtain ⟨d, hd, hdhash⟩ := List.mem_map.1 hmem'
            obtain ⟨ptr, hget, hout⟩ := htrue.spent id l' hl e' he'
            rw [hptr] at hget
            cases hget
            exact ⟨d, hd, hdhash ▸ hout⟩
        · rintro ⟨d, hd, hout⟩
          obtain ⟨c', id', l', hpos', hl, e', he', hehash⟩ := (hcomplete d hd).spent o hout
          have heq : (VersionList.new c.hash id : VersionList heightOf ℕ) = VersionList.new c' id' :=
            Option.some_inj.1 (hnew.symm.trans hpos')
          obtain rfl : id = id' := by
            have hentries := congrArg VersionList.entries heq
            simpa [VersionList.new, newVersion] using congrArg (List.map VersionedEntry.value) hentries
          rw [hl, isSome_resolveSingle rows rfl hne]
          exact ⟨e', he', hehash ▸ List.mem_map_of_mem hd⟩
      rw [visibleRow, hid, Option.bind_some, hptr, History.unspent, hrow]
      by_cases hsp : hist.Spent o
      · rw [if_pos (hspent.2 hsp), if_pos hsp]
      · rw [if_neg fun h => hsp (hspent.1 h), if_neg hsp]
        rfl
    · refine hnone ?_ (row_eq_none hcomplete hhist fun c hc id hnew => ?_)
      · rw [← Option.not_isSome_iff_eq_none, resolveOutpointIdV2, hpos,
          isSome_resolveSingle rows rfl hne]
        exact hvisible
      · rw [hpos] at hnew
        cases hnew
        exact hvisible ⟨_, mem_singleton.2 rfl, List.mem_map_of_mem hc⟩

end Visible

end Blobs

/-! ## Committing a block -/

section Commit
variable {K V Id H : Type*} {T A : Type} [LinearOrder H] [DecidableEq T] {heightOf : H → ℕ}
  {layout : BalanceLayout K V A} {p : EssentialsProvider K V Id T heightOf}
  {chain : List (Commit K V H)} {effect : H → BlockAcc T A} {recorded : T × ℕ → Prop}
  {probe : T → List ℕ} {s : BalanceStore T A heightOf} {b : BalanceBlock T layout heightOf}

/-- What the commit of a block relies on. -/
structure Committable (effect : H → BlockAcc T A) (s : BalanceStore T A heightOf)
    (p : EssentialsProvider K V Id T heightOf) (b : BalanceBlock T layout heightOf) : Prop where
  separates : Separates (b.transactions.map EspoTransaction.txid) (effect b.hash)
  summaries : ∀ txid ∈ (effect b.hash).alkaneTxs, txid ∈ b.transactions.map EspoTransaction.txid
  /-- The outpoints that were spent and not created have a pointer. -/
  resolves : ∀ o ∈ (effect b.hash).spent, o ∉ (effect b.hash).ephem → ∃ (c : H) (id : ℕ) (row : OutpointRow A),
    s.blobs.outpointPos.get o = some (VersionList.new c id) ∧
      resolveOutpointIdV2 p .latest o.1 o.2 = some id ∧ s.pointers.get id = some ⟨o, row⟩

lemma BlobsTrue.filterFor (h : BlobsTrue effect recorded probe s) {ready : Bool}
    {f : TxPointerFilter} (hf : s.filterFor probe ready = some f) {txid : T} {l : VersionList heightOf ℕ}
    (hl : s.blobs.txPackedOutflowPos.get txid = some l) : f.mightContain probe txid = true := by
  rw [BalanceStore.filterFor, Option.or_eq_some_iff] at hf
  rcases hf with hold | ⟨-, hnew⟩
  · exact h.filter f hold txid l hl
  · split_ifs at hnew
    cases hnew
    exact TxPointerFilter.mightContain_scan probe (Table.mem_keys_of_get hl)

lemma BlobsTrue.lt_nextOutpoint (h : BlobsTrue effect recorded probe s) {id : ℕ}
    {ptr : OutpointPointer T A} (hptr : s.pointers.get id = some ptr) : id < s.nextOutpoint := by
  by_contra hge
  rw [(h.free id (by omega)).1] at hptr
  cases hptr

variable (order : HashOrder) (hb : Committable effect s p b) (rows : ChainRows p.tree chain)
  (hheights : ∀ c ∈ chain, c.height = heightOf c.hash)
include hb rows hheights

lemma Committable.commit_eq :
    ∃ created external nextTx, ∃ txIds : AList (fun _ : T => ℕ),
      Created (effect b.hash) s.nextOutpoint created ∧ External p (effect b.hash) external ∧
      (∀ txid, txid ∈ txIds ↔ txid ∈ (effect b.hash).alkaneTxs) ∧
      s.commit p order probe b (effect b.hash) =
        { blobs := writePointers s.blobs b.hash created external txIds
          pointers := s.pointers.putAll (created.map fun r => (r.2, ⟨r.1.outpoint, r.1.row⟩))
          nextOutpoint := s.nextOutpoint + created.length
          nextTx := nextTx
          filter := (s.filterFor probe b.filterReady).map fun f => f.insertAll probe txIds.keys } := by
  refine ⟨_, _, _, _, createdRows_spec hb.separates (order.perm _) s.nextOutpoint,
    externalSpent_spec hb.separates (order.perm _) rows hheights, fun txid => ?_, rfl⟩
  rw [mem_allocTxPointers, mem_filter, decide_eq_true_eq]
  exact ⟨fun h => h.elim (fun h => absurd h (AList.notMem_empty _)) And.left,
    fun h => .inr ⟨h, hb.summaries txid h⟩⟩

/-- The versions of a block tell the truth about it, and those of other blocks stay. -/
theorem BlobsTrue.commit (h : BlobsTrue effect recorded probe s)
    (hrecorded : ∀ o ∈ (effect b.hash).ephem, recorded o) :
    BlobsTrue effect recorded probe (s.commit p order probe b (effect b.hash)) := by
  obtain ⟨created, external, nextTx, txIds, hc, he, -, heq⟩ := hb.commit_eq order rows hheights
  rw [heq]
  -- an id with a spent list has been given out
  have hgiven : ∀ id l, s.blobs.outpointSpentById.get id = some l → id < s.nextOutpoint := by
    intro id l hl
    by_contra hge
    rw [(h.free id (by omega)).2] at hl
    cases hl
  constructor
  case pos =>
    intro o l hl e hmem
    by_cases ho : o ∈ (effect b.hash).ephem
    · obtain ⟨r, -, -, hnew⟩ := hc.pos_new s.blobs b.hash external txIds ho
      rw [hnew] at hl
      cases hl
      rw [mem_singleton.1 hmem]
      exact ho
    · rw [hc.pos_old ho] at hl
      exact h.pos o l hl e hmem
  case spent =>
    intro id l hl e hmem
    have hold : ∀ l', s.blobs.outpointSpentById.get id = some l' → e ∈ l'.entries →
        ∃ ptr, (s.pointers.putAll (created.map fun r => (r.2, ⟨r.1.outpoint, r.1.row⟩))).get id
          = some ptr ∧ ptr.outpoint ∈ (effect e.blockhash).spent := by
      intro l' hl' hmem'
      rw [hc.pointer_old _ (.inl (hgiven id l' hl'))]
      exact h.spent id l' hl' e hmem'
    rcases spentById_cases s.blobs b.hash created external txIds id with
      ⟨r, hr, spentBy, hid, hget⟩ | ⟨-, r, hr, spentBy, hspent, rfl, hget⟩ | ⟨-, -, hget⟩
    · rw [hget] at hl
      cases hl
      rcases mem_putVersion hmem with hmem' | rfl
      · cases hl' : s.blobs.outpointSpentById.get id with
        | none =>
          rw [hl'] at hmem'
          exact absurd hmem' not_mem_nil
        | some l' =>
          rw [hl'] at hmem'
          exact hold l' hl' hmem'
      · obtain ⟨hspent, hephem⟩ := he.spent r hr
        obtain ⟨c, id', row, -, hresolved, hptr⟩ := hb.resolves _ hspent hephem
        rw [he.id r hr, hresolved] at hid
        cases hid
        rw [hc.pointer_old _ (.inl (h.lt_nextOutpoint hptr))]
        exact ⟨_, hptr, hspent⟩
    · rw [hget] at hl
      cases hl
      rw [mem_singleton.1 hmem]
      exact ⟨_, hc.pointer_new _ hr, (hc.spent r hr).1 (by rw [hspent]; rfl)⟩
    · rw [hget] at hl
      exact hold l hl hmem
  case recorded =>
    intro o l hl
    by_cases ho : o ∈ (effect b.hash).ephem
    · exact hrecorded o ho
    · rw [hc.pos_old ho] at hl
      exact h.recorded o l hl
  case free =>
    intro id hid
    dsimp only at hid ⊢
    have hfree := h.free id (by omega)
    refine ⟨by rw [hc.pointer_old _ (.inr hid), hfree.1], ?_⟩
    rcases spentById_cases s.blobs b.hash created external txIds id with
      ⟨r, hr, spentBy, hid', -⟩ | ⟨-, r, hr, -, -, rfl, -⟩ | ⟨-, -, hget⟩
    · obtain ⟨hspent, hephem⟩ := he.spent r hr
      obtain ⟨c, id', row, -, hresolved, hptr⟩ := hb.resolves _ hspent hephem
      rw [he.id r hr, hresolved] at hid'
      have hlt := h.lt_nextOutpoint hptr
      have heq := Option.some_inj.1 hid'
      omega
    · have hrange := hc.ids r hr
      omega
    · rw [hget, hfree.2]
  case filter =>
    intro f hf txid l hl
    obtain ⟨f', hf', rfl⟩ := Option.map_eq_some_iff.1 hf
    by_cases htx : txid ∈ txIds
    · exact TxPointerFilter.mightContain_insertAll_of_mem probe f' htx
    · rw [txPos_old htx] at hl
      exact TxPointerFilter.mightContain_insertAll_of_old (h.filterFor hf' hl) _

lemma Committable.complete :
    BlobsComplete effect (s.commit p order probe b (effect b.hash)) b.hash := by
  obtain ⟨created, external, nextTx, txIds, hc, he, htxs, heq⟩ := hb.commit_eq order rows hheights
  rw [heq]
  constructor
  case pos =>
    intro o row hrow
    obtain ⟨r, hr, hout, hnew⟩ := hc.pos_new s.blobs b.hash external txIds
      (AList.lookup_isSome.1 (by rw [hrow]; rfl))
    have hlookup := hc.row r hr
    rw [hout, hrow] at hlookup
    refine ⟨r.2, hnew, ?_⟩
    rw [hc.pointer_new s.pointers hr, hout, Option.some_inj.1 hlookup]
  case spent =>
    intro o ho
    -- whichever list is written, it has an entry of the block
    have hentry : ∀ id, (∃ r ∈ external, r.1.txSpent.isSome ∧ r.2 = some id) ∨
        (∃ r ∈ created, r.1.txSpent.isSome ∧ r.2 = id) →
        ∃ l, (writePointers s.blobs b.hash created external txIds).outpointSpentById.get id = some l ∧
          ∃ e ∈ l.entries, e.blockhash = b.hash := by
      intro id hid
      rcases spentById_cases s.blobs b.hash created external txIds id with
        ⟨-, -, spentBy, -, hget⟩ | ⟨-, -, -, spentBy, -, -, hget⟩ | ⟨hext, hcre, -⟩
      · exact ⟨_, hget, exists_mem_putVersion _ _ _ _⟩
      · exact ⟨_, hget, _, mem_singleton.2 rfl, rfl⟩
      · rcases hid with ⟨r, hr, hspent, hid⟩ | ⟨r, hr, hspent, hid⟩
        · exact absurd hid (hext r hr hspent)
        · exact absurd hid (hcre r hr hspent)
    by_cases hephem : o ∈ (effect b.hash).ephem
    · obtain ⟨r, hr, rfl, hnew⟩ := hc.pos_new s.blobs b.hash external txIds hephem
      obtain ⟨l, hl, hmem⟩ := hentry r.2 (.inr ⟨r, hr, (hc.spent r hr).2 ho, rfl⟩)
      exact ⟨b.hash, r.2, l, hnew, hl, hmem⟩
    · obtain ⟨r, hr, hout, hspent⟩ := he.all o ho hephem
      obtain ⟨c, id, row, hpos, hresolved, -⟩ := hb.resolves o ho hephem
      have hid : r.2 = some id := by rw [he.id r hr, hout, hresolved]
      obtain ⟨l, hl, hmem⟩ := hentry id (.inl ⟨r, hr, hspent, hid⟩)
      exact ⟨c, id, l, (hc.pos_old hephem).trans hpos, hl, hmem⟩
  case tx =>
    exact fun txid htxid => txPos_new ((htxs txid).2 htxid)

/-- A block that has nothing in common with the committed one keeps its versions. -/
theorem BlobsComplete.commit {hash : H} (h : BlobsComplete effect s hash)
    (htrue : BlobsTrue effect recorded probe s) (hne : hash ≠ b.hash)
    (hephem : ∀ o, o ∈ (effect hash).ephem ∨ o ∈ (effect hash).spent → o ∉ (effect b.hash).ephem)
    (htxs : ∀ txid ∈ (effect hash).alkaneTxs, txid ∉ (effect b.hash).alkaneTxs) :
    BlobsComplete effect (s.commit p order probe b (effect b.hash)) hash := by
  obtain ⟨created, external, nextTx, txIds, hc, -, htxIds, heq⟩ := hb.commit_eq order rows hheights
  rw [heq]
  constructor
  case pos =>
    intro o row hrow
    obtain ⟨id, hpos, hptr⟩ := h.pos o row hrow
    have hold := htrue.lt_nextOutpoint hptr
    have hnot := hephem o (.inl (AList.lookup_isSome.1 (by rw [hrow]; rfl)))
    exact ⟨id, (hc.pos_old hnot).trans hpos, (hc.pointer_old _ (.inl hold)).trans hptr⟩
  case spent =>
    intro o ho
    obtain ⟨c, id, l, hpos, hl, e, hmem, hhash⟩ := h.spent o ho
    have hpos' : (writePointers s.blobs b.hash created external txIds).outpointPos.get o
        = some (VersionList.new c id) := (hc.pos_old (hephem o (.inr ho))).trans hpos
    rcases spentById_cases s.blobs b.hash created external txIds id with
      ⟨-, -, spentBy, -, hget⟩ | ⟨-, r, hr, -, -, rfl, -⟩ | ⟨-, -, hget⟩
    · rw [hl] at hget
      exact ⟨c, id, _, hpos', hget, e, mem_putVersion_of_ne spentBy hmem (hhash ▸ hne), hhash⟩
    · rw [(htrue.free r.2 (hc.ids r hr).1).2] at hl
      cases hl
    · exact ⟨c, id, l, hpos', hget.trans hl, e, hmem, hhash⟩
  case tx =>
    intro txid htxid
    have hnot : txid ∉ txIds := fun hmem => htxs txid htxid ((htxIds txid).1 hmem)
    obtain ⟨id, hid⟩ := h.tx txid htxid
    exact ⟨id, (txPos_old hnot).trans hid⟩

end Commit

/-! ## The invariant -/

section Invariant
variable {K V H : Type*} {T A : Type} [LinearOrder H] [DecidableEq T] [DecidableEq A]
  {heightOf : H → ℕ} {layout : BalanceLayout K V A}

/-- The invariant of the chain and the store: the blobs are true, the blocks of the chain have their
versions, and at every block the rows of the balances are the sums of all changes. -/
structure BalanceInv (order : HashOrder) (ancestry : H → List (BalanceBlock T layout heightOf))
    (recorded : T × ℕ → Prop) (probe : T → List ℕ)
    (done : List (BalanceBlock T layout heightOf × (K → Option V))) (s : BalanceStore T A heightOf) :
    Prop where
  ancestral : Ancestral ancestry (done.map Prod.fst)
  once : CreatedAndSpentOnce (espoBlocks (done.map Prod.fst))
  blobs : BlobsTrue (effectAt order ancestry) recorded probe s
  complete : ∀ b ∈ done.map Prod.fst, BlobsComplete (effectAt order ancestry) s b.hash
  balances : ∀ n key,
    (layout.balance (tipView (commits BalanceBlock.header (done.take n)) (layout.key key)) : ℤ)
      = (historyOf order (espoBlocks ((done.take n).map Prod.fst))).balance key

variable {order : HashOrder} {ancestry : H → List (BalanceBlock T layout heightOf)}
  {recorded : T × ℕ → Prop} {probe : T → List ℕ}
  {done : List (BalanceBlock T layout heightOf × (K → Option V))} {s : BalanceStore T A heightOf}
  {b : BalanceBlock T layout heightOf}

lemma BalanceInv.take (h : BalanceInv order ancestry recorded probe done s) (n : ℕ) :
    BalanceInv order ancestry recorded probe (done.take n) s where
  ancestral := by
    rw [map_take]
    exact h.ancestral.take n
  once := by
    have honce := h.once
    rw [← take_append_drop n done, map_append, espoBlocks, map_append] at honce
    exact honce.of_append
  blobs := h.blobs
  complete b hb := by
    rw [map_take] at hb
    exact h.complete b (mem_of_mem_take hb)
  balances m key := by
    rw [take_take]
    exact h.balances (min m n) key

omit [LinearOrder H] [DecidableEq T] [DecidableEq A] in
lemma heights_commits (done : List (BalanceBlock T layout heightOf × (K → Option V))) :
    ∀ c ∈ commits BalanceBlock.header done, c.height = heightOf c.hash := by
  intro c hc
  obtain ⟨d, -, rfl⟩ := List.mem_map.1 hc
  exact d.1.height_eq

section
variable (h : BalanceInv order ancestry recorded probe done s)
include h

lemma BalanceInv.complete_commits :
    ∀ c ∈ commits BalanceBlock.header done, BlobsComplete (effectAt order ancestry) s c.hash := by
  intro c hc
  obtain ⟨d, hd, rfl⟩ := List.mem_map.1 hc
  exact h.complete d.1 (List.mem_map_of_mem hd)

lemma BalanceInv.history :
    (historyOf order (espoBlocks (done.map Prod.fst))).map Prod.snd
      = (commits BalanceBlock.header done).map fun c => effectAt order ancestry c.hash := by
  rw [h.ancestral.history]
  simp [commits, BalanceBlock.header]

lemma BalanceInv.historyInv :
    HistoryInv (historyOf order (espoBlocks (done.map Prod.fst))) ∧
      (historyOf order (espoBlocks (done.map Prod.fst))).blocks = espoBlocks (done.map Prod.fst) :=
  historyOf_inv order h.once

end

variable {Id : Type*} {t : VersionedTreeDb K V Id H}

section
variable (h : BalanceInv order ancestry recorded probe done s)
  (rows : ChainRows t (commits BalanceBlock.header done))
  (hb : Admitted order ancestry recorded (done.map Prod.fst) b)
include h rows

/-- The visible rows are the unspent rows of the chain. -/
theorem BalanceInv.visibleRow_eq {o : T × ℕ}
    (ho : done = [] → ¬recorded o) :
    visibleRow ⟨t, s.blobs, none⟩ s.pointers o
      = (historyOf order (espoBlocks (done.map Prod.fst))).unspent o :=
  Essentials.visibleRow_eq h.blobs h.complete_commits rows h.history
    fun hnil => ho (by simpa [commits] using hnil)

include hb

/-- What a block fetches is what it finds in the history of the chain. -/
theorem BalanceInv.prefetch_eq :
    ∀ o ∈ allInputs b.transactions,
      prefetch ⟨t, s.blobs, none⟩ s.pointers
          ((s.filterFor probe b.filterReady).map fun f => f.mightContain probe) b.transactions o
        = (historyOf order (espoBlocks (done.map Prod.fst))).lookupFor b.toEspoBlock o := by
  intro o ho
  let p : EssentialsProvider K V Id T heightOf := ⟨t, s.blobs, none⟩
  rw [prefetch, foundRow_eq rows (heights_commits done), History.lookupFor]
  by_cases hcreated : o ∈ createdOuts b.transactions
  · rw [if_pos hcreated, if_neg]
    intro hmem
    have hext := mem_dedup.1 (mem_filter.1 hmem).1
    exact of_decide_eq_true (mem_filter.1 hext).2 hcreated
  · rw [if_neg hcreated]
    have hext : o ∈ externalInputs b.transactions :=
      mem_dedup.2 (mem_filter.2 ⟨ho, decide_eq_true hcreated⟩)
    have hvisible := h.visibleRow_eq rows (o := o) fun hnil =>
      hb.first (by rw [hnil]; rfl) o ho hcreated
    rw [hvisible]
    cases hrow : (historyOf order (espoBlocks (done.map Prod.fst))).unspent o with
    | none => rw [Option.filter_none, ite_self]
    | some row =>
      -- an unspent outpoint was created by a transaction with a pointer
      have hrow' := (History.row_of_unspent hrow).1
      have hbalances := h.historyInv.1.balances_ne_nil o row hrow'
      obtain ⟨c, hc, hlookup⟩ := exists_created h.history hrow'
      have hephem : o ∈ (effectAt order ancestry c.hash).ephem :=
        AList.lookup_isSome.1 (by rw [hlookup]; rfl)
      have hsummarized : o.1 ∈ (effectAt order ancestry c.hash).alkaneTxs := by
        have hmem : effectAt order ancestry c.hash
            ∈ (historyOf order (espoBlocks (done.map Prod.fst))).map Prod.snd :=
          h.history ▸ List.mem_map.2 ⟨c, hc, rfl⟩
        obtain ⟨entry, hentry, heq⟩ := List.mem_map.1 hmem
        rw [← heq] at hephem ⊢
        exact h.historyInv.1.summarized entry hentry o hephem
      obtain ⟨id, hid⟩ := (h.complete_commits c hc).tx o.1 hsummarized
      have hresolved : resolveTxPointerIdV2 p .latest o.1 = some id := by
        rw [resolveTxPointerIdV2, hid]
        exact resolveSingle_new rows rfl (List.mem_map_of_mem hc) id
      have hindexed : o.1 ∈ indexedPrevTxids p
          ((s.filterFor probe b.filterReady).map fun f => f.mightContain probe)
          ((externalInputs b.transactions).map Prod.fst).dedup := by
        refine mem_indexedPrevTxids rows (heights_commits done)
          (mem_dedup.2 (List.mem_map_of_mem hext)) hresolved fun f hf => ?_
        obtain ⟨f', hf', rfl⟩ := Option.map_eq_some_iff.1 hf
        exact h.blobs.filterFor hf' hid
      rw [if_pos (mem_filter.2 ⟨hext, decide_eq_true hindexed⟩)]
      simpa using hbalances

omit rows in
lemma BalanceInv.once_snoc :
    CreatedAndSpentOnce ((historyOf order (espoBlocks (done.map Prod.fst))).blocks
      ++ [b.toEspoBlock]) := by
  rw [h.historyInv.2]
  have honce := hb.once
  rwa [espoBlocks, map_append] at honce

omit rows in
lemma BalanceInv.blockInv :
    BlockInv ((historyOf order (espoBlocks (done.map Prod.fst))).lookupFor b.toEspoBlock)
      b.transactions (effectAt order ancestry b.hash) := by
  rw [effectAt_of_ancestry hb.ancestry]
  exact h.historyInv.1.blockInv order (h.once_snoc hb)

lemma BalanceInv.committable :
    Committable (effectAt order ancestry) s (⟨t, s.blobs, none⟩ : EssentialsProvider K V Id T heightOf)
      b := by
  have hblock := h.blockInv hb
  -- what is spent and not created in the block is unspent in the chain
  have hexternal : ∀ o ∈ (effectAt order ancestry b.hash).spent,
      o ∉ (effectAt order ancestry b.hash).ephem →
      ∃ row, (historyOf order (espoBlocks (done.map Prod.fst))).row o = some row := by
    intro o ho hephem
    obtain ⟨record, hrecord⟩ := Option.isSome_iff_exists.1 (AList.lookup_isSome.2 ho)
    rcases hblock.spent_row o record hrecord with hcreated | hlookup
    · exact absurd (AList.lookup_isSome.1 (by rw [hcreated]; rfl)) hephem
    · rw [History.lookupFor] at hlookup
      split_ifs at hlookup
      exact ⟨_, (History.row_of_unspent hlookup).1⟩
  constructor
  case separates =>
    refine ⟨fun o ho => ?_, fun o ho hephem => ?_, hblock.consumed_spent⟩
    · obtain ⟨tx, htx, -, hout⟩ := mem_createdOuts.1 (hblock.created o ho)
      exact List.mem_map.2 ⟨tx, htx, (EspoTransaction.txid_of_mem_outpoints hout).symm⟩
    · obtain ⟨row, hrow⟩ := hexternal o ho hephem
      exact txid_notMem_of_nodup (h.once_snoc hb).created
        (h.historyInv.1.mem_outpointsOf (by rw [hrow]; rfl))
  case summaries => exact hblock.summaries
  case resolves =>
    intro o ho hephem
    obtain ⟨row, hrow⟩ := hexternal o ho hephem
    obtain ⟨c, hc, hlookup⟩ := exists_created h.history hrow
    obtain ⟨id, hpos, hptr⟩ := (h.complete_commits c hc).pos o row hlookup
    exact ⟨c.hash, id, row, hpos, resolveOutpointIdV2_new rows rfl hc hpos, hptr⟩

lemma BalanceInv.complete_commit
    (hfresh : b.hash ∉ (done.map Prod.fst).map BalanceBlock.hash) :
    ∀ c ∈ done.map Prod.fst, BlobsComplete (effectAt order ancestry)
      (s.commit (⟨t, s.blobs, none⟩ : EssentialsProvider K V Id T heightOf) order probe b
        (effectAt order ancestry b.hash)) c.hash := by
  have hblock := h.blockInv hb
  have hcommittable := h.committable rows hb
  intro c hc
  have hentry : (c.toEspoBlock, effectAt order ancestry c.hash)
      ∈ historyOf order (espoBlocks (done.map Prod.fst)) := by
    rw [h.ancestral.history]
    exact List.mem_map.2 ⟨c, hc, rfl⟩
  refine (h.complete c hc).commit order hcommittable rows (heights_commits done) h.blobs ?_
    (fun o ho hnew => ?_) fun txid htxid hnew => ?_
  · intro hhash
    exact hfresh (hhash ▸ List.mem_map_of_mem hc)
  · have hrow : ((historyOf order (espoBlocks (done.map Prod.fst))).row o).isSome := by
      rcases ho with hephem | hspent
      · rw [History.row, findSome?_isSome_iff]
        exact ⟨_, hentry, AList.lookup_isSome.2 hephem⟩
      · exact h.historyInv.1.spent_created o ⟨_, hentry, hspent⟩
    exact txid_notMem_of_nodup (h.once_snoc hb).created (h.historyInv.1.mem_outpointsOf hrow)
      (hcommittable.separates.created o hnew)
  · exact h.historyInv.1.txid_notMem (h.once_snoc hb) hentry htxid (hblock.summaries txid hnew)

end

end Invariant

end Espo.Essentials
