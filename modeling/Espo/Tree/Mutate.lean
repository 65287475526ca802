import Espo.Tree.Denote

/-!
# One write refines one update of the map (`mutate_node`, `apply_single`)

A mutated node is replaced by one node or, after a split, by two with a separator between them.
Both are a chain over the range of the old node, so the replacement goes back into the parent's
chain by `Chain.route`, and the cases of a split need no argument of their own.
-/

namespace Espo.TreeDb
open Lib List

variable {K V Id : Type*}

/-- The separator between the nodes of an outcome. -/
def MutationOutcome.separators : MutationOutcome K Id → List K
  | .node _ => []
  | .split _ _ separator => [separator]

/-- The nodes of an outcome, from left to right. -/
def MutationOutcome.ids : MutationOutcome K Id → List Id
  | .node id => [id]
  | .split left right _ => [left, right]

namespace NodeStore
variable [LinearOrder K] [DecidableEq Id] [NodeHash K V Id] {s : NodeStore K V Id} {d : ℕ}
  {lo : WithBot K} {hi : WithTop K}

lemma storeLeaf_spec (hs : s.WF) {entries : List (LeafEntry K V)} (next : Option Id)
    (hsorted : SortedEntries entries) (hrange : ∀ e ∈ entries, InRange lo hi e.key)
    (hlen : entries.length ≤ maxLeafEntries + 1) :
    ∃ out t, s.storeLeaf entries next = some (out, t) ∧ t.WF ∧ Grows s t ∧
      Chain (Denotes t.look 0) lo hi out.separators out.ids entries := by
  have hleaf : ∀ (n : LeafNode K V Id) (c : Id), c ∈ (BptreeNode.leaf n).children →
      ∀ t : NodeStore K V Id, ∃ n', t.look c = some n' :=
    fun n c hc => absurd hc not_mem_nil
  unfold storeLeaf
  split_ifs with hfit
  · refine ⟨_, _, rfl, hs.storeNodeWithCtx fun c hc => hleaf _ c hc s,
      grows_storeNodeWithCtx hs _, .last ⟨⟨next, ?_⟩, hsorted, hrange, hfit⟩⟩
    exact look_storeNodeWithCtx_self hs _
  · -- split in half: neither part is empty, so the separator lies inside the range
    have hmax : maxLeafEntries = 128 := rfl
    have hmid : entries.length / 2 < entries.length := by omega
    have hpos : 0 < entries.length := by omega
    simp only [getElem?_eq_getElem hmid]
    set first := entries[entries.length / 2] with hfirst
    set right := s.storeNodeWithCtx (.leaf ⟨entries.drop (entries.length / 2), next⟩) with hright
    have hrightWF : right.2.WF := hs.storeNodeWithCtx fun c hc => hleaf _ c hc s
    have hrightLook : right.2.look right.1 = some (.leaf ⟨entries.drop (entries.length / 2), next⟩) :=
      look_storeNodeWithCtx_self hs _
    have hgrow := grows_storeNodeWithCtx hrightWF
      (.leaf ⟨entries.take (entries.length / 2), some right.1⟩)
    refine ⟨_, _, rfl, hrightWF.storeNodeWithCtx fun c hc => hleaf _ c hc _,
      (grows_storeNodeWithCtx hs _).trans hgrow, ?_⟩
    have hcut : entries = entries.take (entries.length / 2) ++ entries.drop (entries.length / 2) :=
      (take_append_drop _ _).symm
    have hdrop : entries.drop (entries.length / 2)
        = first :: entries.drop (entries.length / 2 + 1) := drop_eq_getElem_cons hmid
    have hsplit := hsorted
    rw [SortedEntries, hcut, pairwise_append] at hsplit
    obtain ⟨hsl, hsr, hlr⟩ := hsplit
    have hleft : ∀ e ∈ entries.take (entries.length / 2), e.key < first.key :=
      fun e he => hlr e he first (by rw [hdrop]; exact mem_cons_self)
    have hge : ∀ e ∈ entries.drop (entries.length / 2), first.key ≤ e.key := by
      intro e he
      rw [hdrop] at he hsr
      rcases mem_cons.1 he with rfl | he
      · exact le_rfl
      · exact ((pairwise_cons.1 hsr).1 e he).le
    have hzero : entries[0] ∈ entries.take (entries.length / 2) := by
      rw [mem_take_iff_getElem]
      exact ⟨0, by omega, rfl⟩
    have hlofirst : lo < (first.key : WithBot K) :=
      (hrange _ (getElem_mem hpos)).1.trans_lt (WithBot.coe_lt_coe.2 (hleft _ hzero))
    have hfirsthi : (first.key : WithTop K) < hi := (hrange _ (getElem_mem hmid)).2
    rw [hcut]
    refine .cons ⟨⟨some right.1, ?_⟩, hsl, ?_, ?_⟩ hlofirst hfirsthi
      (.last ⟨⟨next, ?_⟩, hsr, ?_, ?_⟩)
    · rw [← hcut]
      exact look_storeNodeWithCtx_self hrightWF _
    · exact fun e he => ⟨(hrange e (mem_of_mem_take he)).1, WithTop.coe_lt_coe.2 (hleft e he)⟩
    · rw [length_take]
      omega
    · rw [← hcut]
      exact hgrow.look _ _ hrightLook
    · exact fun e he => ⟨WithBot.coe_le_coe.2 (hge e he), (hrange e (mem_of_mem_drop he)).2⟩
    · rw [length_drop]
      omega

variable {m : List (LeafEntry K V)}

omit [DecidableEq Id] [NodeHash K V Id] in
/-- The children of a chain of stored subtrees can be found. -/
private theorem look_children {look : Id → Option (BptreeNode K V Id)} {keys : List K}
    {children : List Id} (hchain : Chain (Denotes look d) lo hi keys children m) :
    ∀ c ∈ children, ∃ n, look c = some n := by
  intro c hc
  obtain ⟨_, _, _, hden⟩ := hchain.exists_of_mem hc
  exact hden.look_eq

lemma storeInternal_spec (hs : s.WF) {keys : List K} {children : List Id}
    (hchain : Chain (Denotes s.look d) lo hi keys children m)
    (hlen : keys.length ≤ maxInternalKeys + 1) :
    ∃ out t, s.storeInternal keys children = some (out, t) ∧ t.WF ∧ Grows s t ∧
      Chain (Denotes t.look (d + 1)) lo hi out.separators out.ids m := by
  have hfound := look_children hchain
  unfold storeInternal
  split_ifs with hfit
  · have hgrow := grows_storeNodeWithCtx hs (.internal ⟨keys, children⟩)
    refine ⟨_, _, rfl, hs.storeNodeWithCtx hfound, hgrow, .last ⟨keys, children, ?_, hfit, ?_⟩⟩
    · exact look_storeNodeWithCtx_self hs _
    · exact hchain.mono fun _ _ _ _ => Denotes.mono hgrow.look
  · -- the separator in the middle moves up, the chain is cut there
    have hmid : keys.length / 2 < keys.length := by omega
    have hchildren := hchain.length_eq
    simp only [getElem?_eq_getElem hmid]
    set mid := keys.length / 2 with hmiddef
    have hkeys : keys = keys.take mid ++ keys[mid] :: keys.drop (mid + 1) := by
      rw [← drop_eq_getElem_cons hmid, take_append_drop]
    have hcs : children = children.take (mid + 1) ++ children.drop (mid + 1) :=
      (take_append_drop _ _).symm
    have hcut := hchain
    rw [hkeys, hcs] at hcut
    obtain ⟨ml, mr, rfl, hlo, hhi, hl, hr⟩ :=
      hcut.split (by rw [length_take, length_take]; omega)
    set left := s.storeNodeWithCtx (.internal ⟨keys.take mid, children.take (mid + 1)⟩) with hleft
    have hgl : Grows s left.2 := grows_storeNodeWithCtx hs _
    have hleftWF : left.2.WF := hs.storeNodeWithCtx (look_children hl)
    have hleftLook := look_storeNodeWithCtx_self hs
      (.internal ⟨keys.take mid, children.take (mid + 1)⟩)
    have hr' := hr.mono fun _ _ _ _ => Denotes.mono hgl.look
    have hgr := grows_storeNodeWithCtx hleftWF
      (.internal ⟨keys.drop (mid + 1), children.drop (mid + 1)⟩)
    refine ⟨_, _, rfl, hleftWF.storeNodeWithCtx (look_children hr'), hgl.trans hgr, ?_⟩
    refine .cons ⟨keys.take mid, children.take (mid + 1), hgr.look _ _ hleftLook, ?_, ?_⟩ hlo hhi
      (.last ⟨keys.drop (mid + 1), children.drop (mid + 1), ?_, ?_, ?_⟩)
    · rw [length_take]
      omega
    · exact hl.mono fun _ _ _ _ => Denotes.mono (hgl.trans hgr).look
    · exact look_storeNodeWithCtx_self hleftWF _
    · rw [length_drop]
      omega
    · exact hr'.mono fun _ _ _ _ => Denotes.mono hgr.look

variable [DecidableEq V]

/-- Writing a key below a stored node: enough levels are used, the store stays well-formed and only
grows, and the outcome replaces the node over its range, with the key written. -/
theorem mutateNode_spec {levels : ℕ} (hs : s.WF) {id : Id} (hlevels : d < levels)
    (h : Denotes s.look d lo hi id m) {key : K} (hk : InRange lo hi key) (value : Option V) :
    ∃ out t m', s.mutateNode levels id key value = some (out, t) ∧ t.WF ∧ Grows s t ∧
      Chain (Denotes t.look d) lo hi out.separators out.ids m' ∧
      contents m' = Function.update (contents m) key value := by
  obtain ⟨k, rfl⟩ : ∃ k, levels = k + d + 1 := ⟨levels - d - 1, by omega⟩
  clear hlevels
  induction d generalizing lo hi id m with
  | zero =>
    have hleaf := h
    obtain ⟨⟨next, hlook⟩, hsorted, hrange, hlen⟩ := h
    obtain ⟨hcont, hsorted', hmem, hlen', hsame⟩ := editEntries_spec hsorted key value
    have hrange' : ∀ e ∈ (editEntries m key value).1, InRange lo hi e.key := by
      intro e he
      rcases hmem e he with hek | hold
      · rw [hek]
        exact hk
      · exact hrange e hold
    rw [mutateNode, loadNodeWithCtx_of_look hlook]
    dsimp only
    split_ifs with hchanged
    · obtain ⟨out, t, heq, hwf, hgrow, hchain⟩ :=
        storeLeaf_spec hs next hsorted' hrange' (by omega)
      exact ⟨out, t, _, heq, hwf, hgrow, hchain, hcont⟩
    · have hunchanged := hsame (Bool.eq_false_of_not_eq_true hchanged)
      exact ⟨_, s, m, rfl, hs, Grows.refl s, .last hleaf, by rw [← hcont, hunchanged]⟩
  | succ d ih =>
    obtain ⟨keys, children, hlook, hlen, hchain⟩ := h
    obtain ⟨a, b, c, m₁, mc, m₂, hc, hden, hab, rfl, h₁, h₂, -, -, hctx⟩ :=
      hchain.route (fun _ _ _ _ => Denotes.inRange) hk
    obtain ⟨out, t, m', heq, hwf, hgrow, hout, hcont⟩ := ih hden hab
    -- the outcome of the child goes back into the chain, over the grown store
    have hnew := hctx (Denotes t.look d) (fun _ _ _ _ => Denotes.mono hgrow.look) _ _ _ hout
    have hcont' := contents_update_middle h₁ h₂ hcont
    set idx := upperBound keys key with hidxdef
    have hidx : idx ≤ keys.length := upperBound_le_length keys key
    have hidx' : idx < children.length := by rw [hchain.length_eq]; omega
    have hc' : children[idx] = c := by
      rw [getElem?_eq_getElem hidx'] at hc
      exact Option.some_inj.1 hc
    rw [mutateNode, loadNodeWithCtx_of_look hlook]
    dsimp only
    rw [childIndexForKey_eq hchain.separators_sorted, hc]
    dsimp only
    rw [← Nat.add_assoc, heq]
    cases out with
    | node newChild =>
      have hset : children.take idx ++ (MutationOutcome.ids (K := K) (.node newChild)
          ++ children.drop (idx + 1)) = children.set idx newChild := by
        rw [set_eq_take_append_cons_drop, if_pos hidx']
        rfl
      rw [hset] at hnew
      simp only [MutationOutcome.separators, nil_append, take_append_drop] at hnew
      dsimp only
      split_ifs with hsame
      · rw [hsame, ← hc', set_getElem_self] at hnew
        exact ⟨_, t, _, rfl, hwf, hgrow,
          .last ⟨keys, children, hgrow.look _ _ hlook, hlen, hnew⟩, hcont'⟩
      · obtain ⟨out, u, heq, hwf', hgrow', hchain'⟩ := storeInternal_spec hwf hnew (by omega)
        exact ⟨out, u, _, heq, hwf', hgrow.trans hgrow', hchain', hcont'⟩
    | split left right separator =>
      have hkeys : keys.take idx ++ (MutationOutcome.separators (.split left right separator)
          ++ keys.drop idx) = keys.insertIdx idx separator := by
        rw [insertIdx_eq_take_append_cons_drop hidx]
        rfl
      have hset : children.take idx ++ (MutationOutcome.ids (.split left right separator)
          ++ children.drop (idx + 1)) = (children.set idx left).insertIdx (idx + 1) right := by
        rw [insertIdx_eq_take_append_cons_drop (by rw [length_set]; omega),
          set_eq_take_append_cons_drop, if_pos hidx', take_append, drop_append,
          length_take, Nat.min_eq_left hidx'.le]
        simp [MutationOutcome.ids, take_take]
      rw [hkeys, hset] at hnew
      obtain ⟨out, u, heq, hwf', hgrow', hchain'⟩ := storeInternal_spec hwf hnew
        (by rw [length_insertIdx_of_le_length hidx]; omega)
      exact ⟨out, u, _, heq, hwf', hgrow.trans hgrow', hchain', hcont'⟩

omit [NodeHash K V Id] [DecidableEq V] in
lemma depth_lt_levels {id : Id} (h : Denotes s.look d lo hi id m) : d < s.levels := by
  have hids : ∀ i n, s.look i = some n → i ∈ s.pending.keys ∪ s.disk.keys := by
    intro i n hi
    rw [look, Option.or_eq_some_iff] at hi
    rcases hi with hi | ⟨-, hi⟩
    · exact Finset.mem_union_left _ (Table.mem_keys_of_get hi)
    · exact Finset.mem_union_right _ (Table.mem_keys_of_get hi)
  have hlt := h.depth_lt hids
  have hcard : (s.pending.keys ∪ s.disk.keys).card ≤ s.pending.card + s.disk.card :=
    Finset.card_union_le _ _
  unfold levels
  omega

lemma applySingle_spec (hs : s.WF) {root : Id} (h : RootDenotes s.look root m) (key : K)
    (value : Option V) :
    ∃ root' t m', s.applySingle root key value = some (root', t) ∧ t.WF ∧ Grows s t ∧
      RootDenotes t.look root' m' ∧ contents m' = Function.update (contents m) key value := by
  obtain ⟨d, hd⟩ := h
  obtain ⟨out, t, m', heq, hwf, hgrow, hchain, hcont⟩ :=
    mutateNode_spec hs (depth_lt_levels hd) hd (inRange_bot_top key) value
  rw [applySingle, heq]
  cases out with
  | node id =>
    cases hchain with
    | last hden => exact ⟨id, t, m', rfl, hwf, hgrow, ⟨d, hden⟩, hcont⟩
  | split left right separator =>
    -- a new root above the two halves
    have hgrow' := grows_storeNodeWithCtx hwf (.internal ⟨[separator], [left, right]⟩)
    refine ⟨_, _, m', rfl, hwf.storeNodeWithCtx (look_children hchain), hgrow.trans hgrow',
      ⟨d + 1, [separator], [left, right], ?_, by simp [maxInternalKeys], ?_⟩, hcont⟩
    · exact look_storeNodeWithCtx_self hwf _
    · exact hchain.mono fun _ _ _ _ => Denotes.mono hgrow'.look

end NodeStore
end Espo.TreeDb
