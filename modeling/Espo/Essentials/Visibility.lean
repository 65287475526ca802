import Espo.Essentials.Versions
import Espo.Lib.Memo
import Espo.Tree.Chain

/-!
# Which version of a pointer blob is visible

Three rules decide whether an entry of a version list belongs to the chain of a target block: the
walk of `is_ancestor`, the check of the entry's block against the active chain, and the check of the
entry's height against the height rows. The last two are only used when the target is the active
tip. On a parent-linked chain they agree, so the batch resolvers return what the single resolvers
return.
-/

namespace Espo.Essentials
open Lib TreeDb List

/-- `StateAt`. -/
inductive StateAt (H : Type*) where
  | latest
  | block (blockhash : H)

/-- The pointer blobs: outpoint ids, the transactions that spent them, and transaction pointers. -/
structure PointerBlobs (T : Type*) {H : Type*} [LinearOrder H] (heightOf : H → ℕ) where
  outpointPos : Table (T × ℕ) (VersionList heightOf ℕ)
  outpointSpentById : Table ℕ (VersionList heightOf T)
  txPackedOutflowPos : Table T (VersionList heightOf ℕ)

/-- `EssentialsProvider`, with the tree it reaches through `get_global_tree_db`. -/
structure EssentialsProvider (K V Id T : Type*) {H : Type*} [LinearOrder H] (heightOf : H → ℕ) where
  tree : VersionedTreeDb K V Id H
  blobs : PointerBlobs T heightOf
  viewBlockhash : Option H

section Defs
variable {K V Id T W H : Type*} [LinearOrder H] [DecidableEq T] {heightOf : H → ℕ}
  (p : EssentialsProvider K V Id T heightOf)

namespace EssentialsProvider

/-- `resolved_view_blockhash`. -/
def resolvedViewBlockhash : Option H := p.viewBlockhash.or p.tree.activeBlockhash

/-- `blockhash_is_on_active_chain`. -/
def blockhashIsOnActiveChain (blockhash : H) : Bool :=
  match p.tree.heightForBlockhash blockhash with
  | none => false
  | some height =>
    match p.tree.blockhashForHeight height with
    | none => false
    | some active => decide (active = blockhash)

/-- The tip for which the shortcuts may be used: none when the provider has a view of its own. -/
def activeTip : Option H := p.resolvedViewBlockhash.filter fun _ => p.viewBlockhash.isNone

/-- The target is the active tip. -/
def fastActive (target : Option H) : Bool := target.any fun t => decide (some t = p.activeTip)

end EssentialsProvider

/-- `resolve_target_blockhash`. -/
def resolveTargetBlockhash : StateAt H → Option H
  | .block blockhash => some blockhash
  | .latest => p.resolvedViewBlockhash

/-- `version_visible_for_target`. -/
def versionVisibleForTarget (target : Option H) (version : H) : Bool :=
  match target with
  | none => true
  | some t => decide (version = t) || p.tree.isAncestor version t

/-- The loop of `resolve_visible_u64_entry` and `resolve_visible_bytes32_entry`. -/
def resolveVisibleLoop (target : Option H) :
    Memo p.blockhashIsOnActiveChain → List (VersionedEntry W H) → Option W
  | _, [] => none
  | cache, e :: es =>
    if p.fastActive target then
      let visible := cache.fetch e.blockhash
      if visible.1 then some e.value else resolveVisibleLoop target visible.2 es
    else if versionVisibleForTarget p target e.blockhash then some e.value
    else resolveVisibleLoop target cache es

/-- `resolve_visible_u64_entry` and `resolve_visible_bytes32_entry`. -/
def resolveVisibleEntry (entries : List (VersionedEntry W H)) (target : Option H) : Option W :=
  resolveVisibleLoop p target ∅ entries

/-- A single resolver: read the blob and resolve its list. -/
def resolveSingle (l : Option (VersionList heightOf W)) (stateAt : StateAt H) : Option W :=
  match l with
  | none => none
  | some l => resolveVisibleEntry p l.entries (resolveTargetBlockhash p stateAt)

variable (stateAt : StateAt H)

/-- `resolve_outpoint_id_v2`. -/
def resolveOutpointIdV2 (txid : T) (vout : ℕ) : Option ℕ :=
  resolveSingle p (p.blobs.outpointPos.get (txid, vout)) stateAt

/-- `resolve_outpoint_spent_by_id_v2`. -/
def resolveOutpointSpentByIdV2 (outpointId : ℕ) : Option T :=
  resolveSingle p (p.blobs.outpointSpentById.get outpointId) stateAt

/-- `resolve_tx_pointer_id_v2`. -/
def resolveTxPointerIdV2 (txid : T) : Option ℕ :=
  resolveSingle p (p.blobs.txPackedOutflowPos.get txid) stateAt

/-- The fast loop of the batch resolvers: the first entry whose block is the one at its height. -/
def chooseByHeight : Memo p.tree.blockhashForHeight → List (VersionedEntry W H) →
    Option W × Memo p.tree.blockhashForHeight
  | cache, [] => (none, cache)
  | cache, e :: es =>
    let active := cache.fetch e.height
    if active.1 = some e.blockhash then (some e.value, active.2) else chooseByHeight active.2 es

/-- What a batch resolver does with one blob. -/
def resolveBatchItem (target : Option H) (cache : Memo p.tree.blockhashForHeight)
    (l : Option (VersionList heightOf W)) : Option W × Memo p.tree.blockhashForHeight :=
  match l with
  | none => (none, cache)
  | some l =>
    if p.fastActive target then chooseByHeight p cache l.entries
    else (resolveVisibleEntry p l.entries target, cache)

/-- The loop of the batch resolvers that push one result for each blob. -/
def resolveBatchLoop (target : Option H) :
    Memo p.tree.blockhashForHeight → List (Option (VersionList heightOf W)) → List (Option W)
  | _, [] => []
  | cache, l :: ls =>
    let item := resolveBatchItem p target cache l
    item.1 :: resolveBatchLoop target item.2 ls

/-- `resolve_outpoint_ids_batch_v2`. -/
def resolveOutpointIdsBatchV2 (outpoints : List (T × ℕ)) : List (Option ℕ) :=
  resolveBatchLoop p (resolveTargetBlockhash p stateAt) ∅
    (outpoints.map fun o => p.blobs.outpointPos.get o)

/-- `resolve_outpoint_spent_by_ids_batch_v2`. -/
def resolveOutpointSpentByIdsBatchV2 (outpointIds : List ℕ) : List (Option T) :=
  resolveBatchLoop p (resolveTargetBlockhash p stateAt) ∅
    (outpointIds.map fun id => p.blobs.outpointSpentById.get id)

/-- The loop of `resolve_tx_pointer_ids_batch_v2`: results are written to the positions looked up;
a position without a blob keeps its `None`. -/
def resolveTxPointerLoop (target : Option H) :
    Memo p.tree.blockhashForHeight → List (Option ℕ) → List (T × ℕ) → List (Option ℕ)
  | _, out, [] => out
  | cache, out, (txid, idx) :: lookups =>
    match p.blobs.txPackedOutflowPos.get txid with
    | none => resolveTxPointerLoop target cache out lookups
    | some l =>
      let item := resolveBatchItem p target cache (some l)
      resolveTxPointerLoop target item.2 (out.set idx item.1) lookups

/-- `resolve_tx_pointer_ids_batch_v2`; the filter, when enabled, limits the lookups. -/
def resolveTxPointerIdsBatchV2 (mightContain : Option (T → Bool)) (stateAt : StateAt H)
    (txids : List T) : List (Option ℕ) :=
  let lookups := txids.zipIdx.filter fun entry => mightContain.all fun f => f entry.1
  resolveTxPointerLoop p (resolveTargetBlockhash p stateAt) ∅
    (List.replicate txids.length none) lookups

end Defs

/-! ## The rules on a chain -/

section Rules
variable {K V Id T W H : Type*} [LinearOrder H] {heightOf : H → ℕ}
  {p : EssentialsProvider K V Id T heightOf} {chain : List (Commit K V H)}

/-- The block is the target or an ancestor of it. -/
def OnBranch (chain : List (Commit K V H)) (target blockhash : H) : Prop :=
  ∃ (i j : ℕ) (a d : Commit K V H), i ≤ j ∧ chain[i]? = some a ∧ chain[j]? = some d ∧
    a.hash = blockhash ∧ d.hash = target

omit [LinearOrder H] in
lemma OnBranch.mem {target blockhash : H} (h : OnBranch chain target blockhash) :
    ∃ c ∈ chain, c.hash = blockhash := by
  obtain ⟨i, j, a, d, -, hi, -, ha, -⟩ := h
  exact ⟨a, mem_of_getElem? hi, ha⟩

omit [LinearOrder H] in
lemma onBranch_tip_iff {tip : Commit K V H} (htip : chain.getLast? = some tip) {blockhash : H} :
    OnBranch chain tip.hash blockhash ↔ ∃ c ∈ chain, c.hash = blockhash := by
  refine ⟨OnBranch.mem, ?_⟩
  rintro ⟨c, hc, hhash⟩
  obtain ⟨i, hi⟩ := getElem?_of_mem hc
  obtain ⟨hlt, -⟩ := List.getElem?_eq_some_iff.1 hi
  rw [getLast?_eq_getElem?] at htip
  exact ⟨i, chain.length - 1, c, tip, by omega, hi, htip, hhash, rfl⟩

section
variable (rows : ChainRows p.tree chain)
include rows

variable {c : Commit K V H} {e : VersionedEntry W H}

/-- The walk: a version is visible when its block is on the branch of the target. -/
theorem versionVisibleForTarget_iff (hc : c ∈ chain) (version : H) :
    versionVisibleForTarget p (some c.hash) version = true ↔ OnBranch chain c.hash version := by
  rw [versionVisibleForTarget, Bool.or_eq_true, decide_eq_true_eq, rows.isAncestor_iff]
  constructor
  · rintro (rfl | hbranch)
    · obtain ⟨i, hi⟩ := getElem?_of_mem hc
      exact ⟨i, i, c, c, le_rfl, hi, hi, rfl, rfl⟩
    · exact hbranch
  · exact .inr

/-- The active-chain check: a block is on the active chain when the chain has it. -/
theorem blockhashIsOnActiveChain_iff (version : H) :
    p.blockhashIsOnActiveChain version = true ↔ ∃ c ∈ chain, c.hash = version := by
  constructor
  · intro h
    unfold EssentialsProvider.blockhashIsOnActiveChain at h
    split at h
    · simp at h
    · rename_i height hheight
      obtain ⟨c, hc, -, hhash⟩ := (rows.hashes _ _).1 hheight
      exact ⟨c, hc, hhash⟩
  · rintro ⟨c, hc, rfl⟩
    have hheight : p.tree.heightForBlockhash c.hash = some c.height :=
      (rows.hashes _ _).2 ⟨c, hc, rfl, rfl⟩
    have hhash : p.tree.blockhashForHeight c.height = some c.hash :=
      (rows.heights _ _).2 ⟨c, hc, rfl, rfl⟩
    rw [EssentialsProvider.blockhashIsOnActiveChain, hheight]
    dsimp only
    rw [hhash]
    exact decide_eq_true rfl

/-- The height check: on entries that carry the height of their block, the block at the height of
the entry is the block of the entry exactly when the chain has it. -/
theorem blockhashForHeight_iff (hheights : ∀ c ∈ chain, c.height = heightOf c.hash)
    (he : e.height = heightOf e.blockhash) :
    p.tree.blockhashForHeight e.height = some e.blockhash ↔ ∃ c ∈ chain, c.hash = e.blockhash := by
  rw [VersionedTreeDb.blockhashForHeight, rows.heights]
  constructor
  · rintro ⟨c, hc, -, hhash⟩
    exact ⟨c, hc, hhash⟩
  · rintro ⟨c, hc, hhash⟩
    exact ⟨c, hc, by rw [hheights c hc, hhash, he], hhash⟩

lemma fastActive_tip {target : Option H} (h : p.fastActive target = true) :
    ∃ tip, chain.getLast? = some tip ∧ target = some tip.hash := by
  cases target with
  | none => simp [EssentialsProvider.fastActive] at h
  | some t =>
    have htip : p.activeTip = some t := (of_decide_eq_true h).symm
    obtain ⟨hview, hnone⟩ := Option.filter_eq_some_iff.1 htip
    rw [EssentialsProvider.resolvedViewBlockhash, Option.isNone_iff_eq_none.1 hnone,
      VersionedTreeDb.activeBlockhash, rows.activeBlock] at hview
    obtain ⟨tip, hlast, rfl⟩ := Option.map_eq_some_iff.1 hview
    exact ⟨tip, hlast, rfl⟩

/-! ## The resolvers -/

/-- The rule that the single resolvers apply to an entry. -/
def visibleRule (p : EssentialsProvider K V Id T heightOf) (target : Option H) (blockhash : H) :
    Bool :=
  if p.fastActive target then p.blockhashIsOnActiveChain blockhash
  else versionVisibleForTarget p target blockhash

omit rows in
lemma resolveVisibleLoop_eq (target : Option H) (cache : Memo p.blockhashIsOnActiveChain)
    (entries : List (VersionedEntry W H)) :
    resolveVisibleLoop p target cache entries
      = (entries.find? fun e => visibleRule p target e.blockhash).map VersionedEntry.value := by
  induction entries generalizing cache with
  | nil => rfl
  | cons e es ih =>
    rw [resolveVisibleLoop, find?_cons]
    by_cases hfast : p.fastActive target = true
    · simp only [visibleRule, hfast, Memo.fetch_fst, ih]
      cases p.blockhashIsOnActiveChain e.blockhash <;> simp
    · simp only [visibleRule, hfast, ih]
      cases versionVisibleForTarget p target e.blockhash <;> simp

omit rows in
lemma chooseByHeight_eq (cache : Memo p.tree.blockhashForHeight)
    (entries : List (VersionedEntry W H)) :
    (chooseByHeight p cache entries).1
      = (entries.find? fun e => decide (p.tree.blockhashForHeight e.height = some e.blockhash)).map
          VersionedEntry.value := by
  induction entries generalizing cache with
  | nil => rfl
  | cons e es ih =>
    rw [chooseByHeight]
    by_cases hmatch : p.tree.blockhashForHeight e.height = some e.blockhash
    · simp [hmatch]
    · simp [hmatch, ih]

/-- For the active tip the three rules agree on every entry of a version list. -/
theorem rules_agree (hheights : ∀ c ∈ chain, c.height = heightOf c.hash)
    (l : VersionList heightOf W) (he : e ∈ l.entries) {tip : Commit K V H}
    (htip : chain.getLast? = some tip) :
    p.blockhashIsOnActiveChain e.blockhash
        = decide (p.tree.blockhashForHeight e.height = some e.blockhash) ∧
      p.blockhashIsOnActiveChain e.blockhash
        = versionVisibleForTarget p (some tip.hash) e.blockhash := by
  constructor
  · rw [Bool.eq_iff_iff, blockhashIsOnActiveChain_iff rows, decide_eq_true_eq,
      blockhashForHeight_iff rows hheights (l.heights e he)]
  · rw [Bool.eq_iff_iff, blockhashIsOnActiveChain_iff rows,
      versionVisibleForTarget_iff rows (mem_of_getLast? htip), onBranch_tip_iff htip]

/-- On a canonical target the rule is to be on the branch of the target. -/
theorem visibleRule_iff (hc : c ∈ chain) (blockhash : H) :
    visibleRule p (some c.hash) blockhash = true ↔ OnBranch chain c.hash blockhash := by
  unfold visibleRule
  split_ifs with hfast
  · obtain ⟨tip, htip, heq⟩ := fastActive_tip rows hfast
    rw [blockhashIsOnActiveChain_iff rows, Option.some_inj.1 heq, onBranch_tip_iff htip]
  · exact versionVisibleForTarget_iff rows hc blockhash

/-- The newest entry of a list whose block has a property, if there is one. -/
def IsNewest (visible : H → Prop) (entries : List (VersionedEntry W H)) : Option W → Prop
  | none => ∀ e ∈ entries, ¬visible e.blockhash
  | some value => ∃ e ∈ entries, e.value = value ∧ visible e.blockhash ∧
      ∀ e' ∈ entries, visible e'.blockhash → e' ≠ e → e'.height < e.height

variable (hheights : ∀ c ∈ chain, c.height = heightOf c.hash) (stateAt : StateAt H)
  (cache : Memo p.tree.blockhashForHeight)
include hheights

/-- A single resolver selects the newest entry whose block is the target or an ancestor of it. -/
theorem resolveVisibleEntry_isNewest (l : VersionList heightOf W) (hc : c ∈ chain) :
    IsNewest (OnBranch chain c.hash) l.entries (resolveVisibleEntry p l.entries (some c.hash)) := by
  rw [resolveVisibleEntry, resolveVisibleLoop_eq]
  cases hfind : l.entries.find? fun e => visibleRule p (some c.hash) e.blockhash with
  | none =>
    intro e he hbranch
    have hnone := find?_eq_none.1 hfind e he
    exact hnone ((visibleRule_iff rows hc _).2 hbranch)
  | some e =>
    obtain ⟨hrule, before, after, hsplit, hbefore⟩ := find?_eq_some_iff_append.1 hfind
    have hbranch := (visibleRule_iff rows hc _).1 hrule
    refine ⟨e, mem_of_find?_eq_some hfind, rfl, hbranch, fun e' he' hbranch' hne => ?_⟩
    have hafter : e' ∈ after := by
      rw [hsplit, mem_append, mem_cons] at he'
      rcases he' with hmem | hmem | hmem
      · have hskipped := hbefore e' hmem
        rw [(visibleRule_iff rows hc _).2 hbranch'] at hskipped
        simp at hskipped
      · exact absurd hmem hne
      · exact hmem
    have hsorted := l.sorted
    rw [hsplit, pairwise_append] at hsorted
    rcases (pairwise_cons.1 hsorted.2.1).1 e' hafter with hlt | ⟨heq, hlt⟩
    · exact hlt
    · obtain ⟨a, ha, hahash⟩ := hbranch.mem
      obtain ⟨a', ha', hahash'⟩ := hbranch'.mem
      have hheight : a.height = a'.height := by
        rw [hheights a ha, hheights a' ha', hahash, hahash', ← l.heights e' he', heq,
          l.heights e (mem_of_find?_eq_some hfind)]
      rw [← hahash, ← hahash', rows.linked.eq_of_height ha ha' hheight] at hlt
      exact absurd hlt (lt_irrefl _)

lemma resolveBatchItem_eq (l : Option (VersionList heightOf W)) :
    (resolveBatchItem p (resolveTargetBlockhash p stateAt) cache l).1 = resolveSingle p l stateAt := by
  cases l with
  | none => rfl
  | some l =>
    rw [resolveBatchItem, resolveSingle]
    split_ifs with hfast
    · obtain ⟨tip, htip, -⟩ := fastActive_tip rows hfast
      rw [chooseByHeight_eq, resolveVisibleEntry, resolveVisibleLoop_eq]
      congr 1
      refine find?_congr fun e he => ?_
      rw [visibleRule, if_pos hfast, (rules_agree rows hheights l he htip).1]
    · rfl

lemma resolveBatchLoop_eq {α : Type*} (blob : α → Option (VersionList heightOf W)) (keys : List α) :
    resolveBatchLoop p (resolveTargetBlockhash p stateAt) cache (keys.map blob)
      = keys.map fun key => resolveSingle p (blob key) stateAt := by
  induction keys generalizing cache with
  | nil => rfl
  | cons key keys ih =>
    rw [map_cons, map_cons, resolveBatchLoop, resolveBatchItem_eq rows hheights, ih]

variable [DecidableEq T]

lemma resolveTxPointerLoop_eq (done : List (Option ℕ)) (txids : List T) :
    resolveTxPointerLoop p (resolveTargetBlockhash p stateAt) cache
        (done ++ List.replicate txids.length none) (txids.zipIdx done.length)
      = done ++ txids.map (resolveTxPointerIdV2 p stateAt) := by
  induction txids generalizing cache done with
  | nil => simp [resolveTxPointerLoop]
  | cons txid txids ih =>
    have hnext : ∀ (cache : Memo p.tree.blockhashForHeight) (v : Option ℕ),
        resolveTxPointerLoop p (resolveTargetBlockhash p stateAt) cache
            (done ++ v :: List.replicate txids.length none) (txids.zipIdx (done.length + 1))
          = done ++ v :: txids.map (resolveTxPointerIdV2 p stateAt) := by
      intro cache v
      simpa using ih cache (done ++ [v])
    rw [zipIdx_cons, resolveTxPointerLoop, length_cons, replicate_succ, map_cons, resolveTxPointerIdV2]
    cases hget : p.blobs.txPackedOutflowPos.get txid with
    | none => exact hnext cache none
    | some l =>
      have hset : ∀ v : Option ℕ, (done ++ none :: List.replicate txids.length none).set done.length v
          = done ++ v :: List.replicate txids.length none := by
        simp
      dsimp only
      rw [hset, hnext, resolveBatchItem_eq rows hheights]

variable {lookups : List (T × ℕ)} {idx : ℕ}

omit rows hheights in
lemma resolveTxPointerLoop_of_notMem (target : Option H) (out : List (Option ℕ))
    (h : idx ∉ lookups.map Prod.snd) :
    (resolveTxPointerLoop p target cache out lookups)[idx]? = out[idx]? := by
  induction lookups generalizing cache out with
  | nil => rfl
  | cons lookup lookups ih =>
    rw [map_cons, mem_cons, not_or] at h
    rw [resolveTxPointerLoop]
    split
    · exact ih cache out h.2
    · rw [ih _ _ h.2, getElem?_set_ne (Ne.symm h.1)]

lemma resolveTxPointerLoop_of_mem {out : List (Option ℕ)}
    (hnodup : (lookups.map Prod.snd).Nodup) {txid : T} (hmem : (txid, idx) ∈ lookups)
    (hidx : idx < out.length) {id : ℕ} (hid : resolveTxPointerIdV2 p stateAt txid = some id) :
    (resolveTxPointerLoop p (resolveTargetBlockhash p stateAt) cache out lookups)[idx]?
      = some (some id) := by
  induction lookups generalizing cache out with
  | nil => simp at hmem
  | cons lookup lookups ih =>
    rw [map_cons, nodup_cons] at hnodup
    rcases mem_cons.1 hmem with rfl | hrest
    · rw [resolveTxPointerLoop]
      rw [resolveTxPointerIdV2] at hid
      cases hget : p.blobs.txPackedOutflowPos.get txid with
      | none => simp [hget, resolveSingle] at hid
      | some l =>
        rw [hget] at hid
        rw [resolveTxPointerLoop_of_notMem _ _ _ hnodup.1, getElem?_set_self hidx,
          resolveBatchItem_eq rows hheights, hid]
    · rw [resolveTxPointerLoop]
      split
      · exact ih cache hnodup.2 hrest hidx
      · exact ih _ hnodup.2 hrest (by rwa [length_set])

end

/-- The visibility rules agree. For every block of the chain a single resolver selects the newest
entry whose block is that block or an ancestor of it; for the active tip the walk, the active-chain
check and the height check give the same answer on every entry; and the batch resolvers return,
position by position, what the single resolvers return. -/
theorem resolvers_agree [DecidableEq T] (rows : ChainRows p.tree chain)
    (hheights : ∀ c ∈ chain, c.height = heightOf c.hash) :
    (∀ (l : VersionList heightOf W), ∀ c ∈ chain, IsNewest (OnBranch chain c.hash) l.entries
      (resolveVisibleEntry p l.entries (some c.hash))) ∧
    (∀ (l : VersionList heightOf W), ∀ e ∈ l.entries, ∀ tip ∈ chain.getLast?,
      p.blockhashIsOnActiveChain e.blockhash
          = decide (p.tree.blockhashForHeight e.height = some e.blockhash) ∧
        p.blockhashIsOnActiveChain e.blockhash
          = versionVisibleForTarget p (some tip.hash) e.blockhash) ∧
    (∀ stateAt txids, resolveTxPointerIdsBatchV2 p none stateAt txids
      = txids.map (resolveTxPointerIdV2 p stateAt)) ∧
    (∀ stateAt outpoints, resolveOutpointIdsBatchV2 p stateAt outpoints
      = outpoints.map fun o => resolveOutpointIdV2 p stateAt o.1 o.2) ∧
    ∀ stateAt ids, resolveOutpointSpentByIdsBatchV2 p stateAt ids
      = ids.map (resolveOutpointSpentByIdV2 p stateAt) := by
  refine ⟨fun l c hc => resolveVisibleEntry_isNewest rows hheights l hc,
    fun l e he tip htip => rules_agree rows hheights l he htip, fun stateAt txids => ?_,
    fun stateAt outpoints => resolveBatchLoop_eq rows hheights stateAt ∅ _ outpoints,
    fun stateAt ids => resolveBatchLoop_eq rows hheights stateAt ∅ _ ids⟩
  have hall : (txids.zipIdx.filter fun entry : T × ℕ => (none : Option (T → Bool)).all fun f =>
      f entry.1) = txids.zipIdx := filter_eq_self.2 fun _ _ => rfl
  rw [resolveTxPointerIdsBatchV2, hall]
  exact resolveTxPointerLoop_eq rows hheights stateAt ∅ [] txids

end Rules

/-- A tree with blocks 1 and 2 at heights 5 and 6, and a pointer written by block 1 and by an orphan
at height 6. -/
def forkedProvider : EssentialsProvider ℕ ℕ ℕ ℕ (fun hash : ℕ => if hash = 1 then 5 else 6) where
  tree :=
    { db :=
        { TreeRows.empty ℕ ℕ ℕ ℕ with
          heightBlock := ((∅ : Table ℕ ℕ).put 5 1).put 6 2
          blockHeight := ((∅ : Table ℕ ℕ).put 1 5).put 2 6
          blockParent := ((∅ : Table ℕ ℕ).put 1 0).put 2 1 }
      state := ⟨0, some 2, none, none, none⟩ }
  blobs := ⟨(∅ : Table (ℕ × ℕ) _).put (9, 0) ((VersionList.new 1 70).put 3 71), ∅, ∅⟩
  viewBlockhash := none

theorem resolvers_agree_forked :
    ∃ chain : List (Commit ℕ ℕ ℕ), ChainRows forkedProvider.tree chain ∧ chain.length = 2 ∧
      resolveOutpointIdsBatchV2 forkedProvider .latest [(9, 0), (8, 0)] = [some 70, none] ∧
      resolveOutpointIdsBatchV2 forkedProvider .latest [(9, 0), (8, 0)]
        = [resolveOutpointIdV2 forkedProvider .latest 9 0,
          resolveOutpointIdV2 forkedProvider .latest 8 0] := by
  have hrows : ChainRows forkedProvider.tree
      [⟨5, 1, 0, fun _ => none⟩, ⟨6, 2, 1, fun _ => none⟩] := by
    refine ⟨⟨by simp, by simp⟩, fun height hash => ?_, fun hash height => ?_, ?_, rfl⟩
    · simp only [forkedProvider, Table.get_put]
      split_ifs <;> simp_all [eq_comm]
    · simp only [forkedProvider, Table.get_put]
      split_ifs <;> simp_all [eq_comm]
    · simp [forkedProvider, Table.get_put]
  refine ⟨_, hrows, rfl, by decide, ?_⟩
  exact (resolvers_agree (W := ℕ) hrows (by simp)).2.2.2.1 .latest [(9, 0), (8, 0)]

end Espo.Essentials
