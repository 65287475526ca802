import Espo.Tree.Db

/-!
# The tree as a chain of commits

What the tree database is for: it keeps a chain of blocks, each with the map its block left behind.
`Indexed t chain` says that a database holds exactly such a chain; every operation on the database is
the corresponding operation on the chain, and everything that can be observed at the database is a
function of the chain. Rows that orphaned blocks leave behind are not part of the chain and are
bounded only as far as the operations need it.
-/

namespace Espo.TreeDb
open Lib List Option

/-- A committed block and the map its root holds. -/
structure Commit (K V H : Type*) where
  height : ℕ
  hash : H
  parent : H
  view : K → Option V

section Defs
variable {K V H : Type*}

/-- The map at the tip of a chain. -/
def tipView (chain : List (Commit K V H)) : K → Option V :=
  (chain.getLast?.map Commit.view).getD fun _ => none

/-- A block at this height and on this parent extends the chain. -/
def Follows (chain : List (Commit K V H)) (height : ℕ) (parent : H) : Prop :=
  ∀ c ∈ chain.getLast?, height = c.height + 1 ∧ parent = c.hash

/-- Blocks stand on their predecessors, at consecutive heights, under different hashes. -/
structure Linked (chain : List (Commit K V H)) : Prop where
  link : chain.IsChain fun a b => b.height = a.height + 1 ∧ b.parent = a.hash
  nodup : (chain.map Commit.hash).Nodup

end Defs

section Linked
variable {K V H : Type*} {chain : List (Commit K V H)}

lemma Linked.nil : Linked ([] : List (Commit K V H)) := ⟨isChain_nil, nodup_nil⟩

section
variable (h : Linked chain)
include h

lemma Linked.snoc {c : Commit K V H} (hfollows : Follows chain c.height c.parent)
    (hnew : c.hash ∉ chain.map Commit.hash) : Linked (chain ++ [c]) := by
  constructor
  · rw [isChain_append]
    refine ⟨h.link, isChain_singleton c, fun a ha b hb => ?_⟩
    obtain rfl : c = b := by simpa using hb
    exact hfollows a ha
  · rw [map_append, nodup_append]
    refine ⟨h.nodup, nodup_singleton _, fun a ha b hb => ?_⟩
    rintro rfl
    exact hnew ((mem_singleton.1 hb) ▸ ha)

lemma Linked.take (n : ℕ) : Linked (chain.take n) := by
  refine ⟨h.link.take n, ?_⟩
  rw [map_take]
  exact h.nodup.sublist (take_sublist n _)

variable {a b : Commit K V H}

lemma Linked.height_getElem {i j : ℕ} (ha : chain[i]? = some a) (hb : chain[j]? = some b)
    (hij : i ≤ j) : b.height = a.height + (j - i) := by
  induction j, hij using Nat.le_induction generalizing b with
  | base =>
    obtain rfl : a = b := some_inj.1 (ha.symm.trans hb)
    simp
  | succ j hij ih =>
    obtain ⟨hlt, rfl⟩ := List.getElem?_eq_some_iff.1 hb
    have hprev : chain[j]? = some chain[j] := getElem?_eq_getElem (by omega)
    have hstep := (isChain_iff_getElem.1 h.link j hlt).1
    have hprevHeight := ih hprev
    omega

lemma Linked.eq_of_height (ha : a ∈ chain) (hb : b ∈ chain) (heq : a.height = b.height) :
    a = b := by
  obtain ⟨i, hi⟩ := getElem?_of_mem ha
  obtain ⟨j, hj⟩ := getElem?_of_mem hb
  have hij : i = j := by
    rcases le_total i j with hle | hle
    · have hcount := h.height_getElem hi hj hle
      omega
    · have hcount := h.height_getElem hj hi hle
      omega
  subst hij
  exact some_inj.1 (hi.symm.trans hj)

lemma Linked.eq_of_hash (ha : a ∈ chain) (hb : b ∈ chain) (heq : a.hash = b.hash) : a = b :=
  inj_on_of_nodup_map h.nodup ha hb heq

lemma Linked.height_lt {height : ℕ} {parent : H} (hfollows : Follows chain height parent)
    (ha : a ∈ chain) : a.height < height := by
  obtain ⟨i, hi⟩ := getElem?_of_mem ha
  obtain ⟨hlt, -⟩ := List.getElem?_eq_some_iff.1 hi
  have hlast : chain[chain.length - 1]? = some chain[chain.length - 1] :=
    getElem?_eq_getElem (by omega)
  have hcount := h.height_getElem hi hlast (by omega)
  have hnext := (hfollows _ (by rw [getLast?_eq_getElem?, hlast]; rfl)).1
  omega

end

end Linked

/-! ## Databases that hold a chain -/

section Indexed
variable {K V Id H : Type*} [LinearOrder K] [DecidableEq Id] [DecidableEq H] [NodeHash K V Id]

/-- Node rows and roots that every operation can work on: also the roots of orphaned blocks hold a
tree, since a block can be begun on them. -/
structure Sound (db : TreeRows K V Id H) : Prop where
  wf : (⟨db.nodes, none⟩ : NodeStore K V Id).WF
  emptyLeaf : db.nodes.get (emptyRootId K V Id) = some emptyLeaf
  blockRoot : ∀ hash root, db.blockRoot.get hash = some root → ∃ view, Stores db.nodes root view

/-- The height, hash and parent rows and the active block are those of the chain. -/
structure ChainRows (t : VersionedTreeDb K V Id H) (chain : List (Commit K V H)) : Prop where
  linked : Linked chain
  heights : ∀ height hash, t.db.heightBlock.get height = some hash ↔
    ∃ c ∈ chain, c.height = height ∧ c.hash = hash
  hashes : ∀ hash height, t.db.blockHeight.get hash = some height ↔
    ∃ c ∈ chain, c.height = height ∧ c.hash = hash
  parents : ∀ c ∈ chain, t.db.blockParent.get c.hash = some c.parent
  activeBlock : t.state.activeBlock = chain.getLast?.map Commit.hash

/-- The database is idle and holds exactly the chain. -/
structure Indexed (t : VersionedTreeDb K V Id H) (chain : List (Commit K V H)) : Prop extends
    ChainRows t chain where
  sound : Sound t.db
  idle : t.state.currentBlock = none
  unpinned : t.state.pinnedRoot = none ∧ t.state.pinUntilHeight = none
  roots : ∀ c ∈ chain, ∃ root, t.db.blockRoot.get c.hash = some root ∧
    Stores t.db.nodes root c.view
  activeRoot : t.state.activeRoot
    = (chain.getLast?.bind fun c => t.db.blockRoot.get c.hash).getD (emptyRootId K V Id)
  /-- What a restart would load. -/
  synced : (VersionedTreeDb.new t.db).state = t.state

/-- A block is in flight on a database that holds the chain. -/
structure Working (t : VersionedTreeDb K V Id H) (chain : List (Commit K V H)) (height : ℕ)
    (hash parent : H) (view : K → Option V) : Prop where
  base : Indexed t.abortBlock chain
  current : ∃ root, t.state.currentBlock = some ⟨height, hash, parent, root⟩ ∧
    Stores t.db.nodes root view

variable {t : VersionedTreeDb K V Id H} {chain : List (Commit K V H)} {height : ℕ}
  {hash parent : H} {view : K → Option V}

lemma Sound.stores_empty {db : TreeRows K V Id H} (h : Sound db) :
    Stores db.nodes (emptyRootId K V Id) fun _ => none := by
  refine ⟨[], ⟨0, ⟨none, ?_⟩, List.Pairwise.nil, by simp, by simp⟩, rfl⟩
  exact h.emptyLeaf

section
variable (h : Indexed t chain)
include h

lemma Indexed.blockRoot_last {c : Commit K V H} (hc : chain.getLast? = some c) :
    t.db.blockRoot.get c.hash = some t.state.activeRoot := by
  obtain ⟨root, hroot, -⟩ := h.roots c (mem_of_getLast? hc)
  rw [h.activeRoot, hc, bind_some, hroot]
  rfl

lemma Indexed.stores_active : Stores t.db.nodes t.state.activeRoot (tipView chain) := by
  cases hlast : chain.getLast? with
  | none =>
    rw [h.activeRoot, tipView, hlast]
    exact h.sound.stores_empty
  | some c =>
    obtain ⟨root, hroot, hstores⟩ := h.roots c (mem_of_getLast? hlast)
    have hactive := h.blockRoot_last hlast
    rw [hroot] at hactive
    rw [← some_inj.1 hactive, tipView, hlast]
    exact hstores

lemma Indexed.activeRoot_eq : t.activeRoot = t.state.activeRoot := by
  rw [VersionedTreeDb.activeRoot, h.unpinned.1]
  rfl

omit h in
lemma Indexed.fresh : Indexed (VersionedTreeDb.new (TreeRows.empty K V Id H)) [] where
  linked := Linked.nil
  heights := by simp [VersionedTreeDb.new, TreeRows.empty]
  hashes := by simp [VersionedTreeDb.new, TreeRows.empty]
  parents := by simp
  activeBlock := rfl
  sound :=
    { wf := initDisk_wf
      emptyLeaf := Table.get_put_self _ _ _
      blockRoot := by simp [VersionedTreeDb.new, TreeRows.empty] }
  idle := rfl
  unpinned := ⟨rfl, rfl⟩
  roots := by simp
  activeRoot := rfl
  synced := rfl

/-! ## Operations on the chain -/

lemma Indexed.grow {nodes : Table Id (BptreeNode K V Id)}
    (hwf : (⟨nodes, none⟩ : NodeStore K V Id).WF) (hext : Table.Extends t.db.nodes nodes) :
    Indexed ⟨{ t.db with nodes := nodes }, t.state⟩ chain where
  sound :=
    { wf := hwf
      emptyLeaf := hext _ _ h.sound.emptyLeaf
      blockRoot := fun hash root hroot =>
        (h.sound.blockRoot hash root hroot).imp fun _ hview => hview.mono hext }
  linked := h.linked
  idle := h.idle
  unpinned := h.unpinned
  heights := h.heights
  hashes := h.hashes
  parents := h.parents
  roots := fun c hc => (h.roots c hc).imp fun _ hroot => ⟨hroot.1, hroot.2.mono hext⟩
  activeBlock := h.activeBlock
  activeRoot := h.activeRoot
  synced := h.synced

/-- A block that goes in flight can be dropped again. -/
theorem Indexed.abort_withCurrentBlock (ctx : BlockContext Id H) :
    Indexed (t.withCurrentBlock ctx).abortBlock chain := by
  have hstate : { t.state with currentBlock := none } = t.state := by rw [← h.idle]
  have heq : (t.withCurrentBlock ctx).abortBlock = t := congrArg (VersionedTreeDb.mk t.db) hstate
  rw [heq]
  exact h

/-- Whatever parent a block is begun on, it works on a stored map. -/
theorem Indexed.begin_ok {t' : VersionedTreeDb K V Id H}
    (hbegin : t.beginBlock height hash parent = .ok t') :
    ∃ view, Working t' chain height hash parent view := by
  have hroot : t.rootForBlockhash parent = t.db.blockRoot.get parent := by
    simp [VersionedTreeDb.rootForBlockhash, h.idle]
  rw [VersionedTreeDb.beginBlock, hroot] at hbegin
  cases hparent : t.db.blockRoot.get parent with
  | some root =>
    simp only [hparent, Except.ok.injEq] at hbegin
    obtain ⟨view, hview⟩ := h.sound.blockRoot parent root hparent
    subst hbegin
    exact ⟨view, h.abort_withCurrentBlock _, root, rfl, hview⟩
  | none =>
    simp only [hparent] at hbegin
    split_ifs at hbegin with hguard
    obtain rfl := Except.ok.inj hbegin
    exact ⟨fun _ => none, h.abort_withCurrentBlock _, _, rfl, h.sound.stores_empty⟩

/-- A block that extends the chain is begun on the map of the tip. On an empty chain this asks that
no root be stored for its parent, since that root would be used. -/
theorem Indexed.beginBlock (hash : H) (hfollows : Follows chain height parent)
    (hfirst : chain = [] → t.db.blockRoot.get parent = none) :
    ∃ t', t.beginBlock height hash parent = .ok t' ∧ t'.db = t.db ∧
      Working t' chain height hash parent (tipView chain) := by
  have hroot : t.rootForBlockhash parent = t.db.blockRoot.get parent := by
    simp [VersionedTreeDb.rootForBlockhash, h.idle]
  cases hlast : chain.getLast? with
  | none =>
    have hnil : chain = [] := getLast?_eq_none_iff.1 hlast
    have hactive : t.state.activeBlock = none := by rw [h.activeBlock, hlast]; rfl
    have hempty : t.state.activeRoot = emptyRootId K V Id := by rw [h.activeRoot, hlast]; rfl
    refine ⟨t.withCurrentBlock ⟨height, hash, parent, emptyRootId K V Id⟩, ?_, rfl,
      h.abort_withCurrentBlock _, _, rfl, ?_⟩
    · rw [VersionedTreeDb.beginBlock, hroot, hfirst hnil]
      simp only [hactive, hempty, true_or, and_self, if_true]
    · rw [tipView, hlast]
      exact h.sound.stores_empty
  | some c =>
    obtain ⟨-, rfl⟩ := hfollows c hlast
    refine ⟨t.withCurrentBlock ⟨height, hash, c.hash, t.state.activeRoot⟩, ?_, rfl,
      h.abort_withCurrentBlock _, _, rfl, h.stores_active⟩
    rw [VersionedTreeDb.beginBlock, hroot, h.blockRoot_last hlast]

end

section
variable (h : Working t chain height hash parent view)
include h

lemma Working.chainRows : ChainRows t chain :=
  ⟨h.base.linked, h.base.heights, h.base.hashes, h.base.parents, h.base.activeBlock⟩

lemma Working.write [DecidableEq V] (w : TreeWrite K V) :
    Working (t.write w) chain height hash parent (writeAll view w.changes) := by
  obtain ⟨root, hctx, hview⟩ := h.current
  obtain ⟨root', nodes, heq, hwf, hext, hview'⟩ :=
    VersionedTreeDb.write_spec (t := t) h.base.sound.wf hctx hview w
  rw [heq]
  exact ⟨h.base.grow hwf hext, root', rfl, hview'⟩

lemma Working.abortBlock : Indexed t.abortBlock chain := h.base

lemma Working.finishBlock (hfollows : Follows chain height parent)
    (hnew : hash ∉ chain.map Commit.hash) :
    Indexed t.finishBlock (chain ++ [⟨height, hash, parent, view⟩]) := by
  obtain ⟨root, hctx, hview⟩ := h.current
  have hpin : t.state.pinUntilHeight = none := h.base.unpinned.2
  have hpinned : t.state.pinnedRoot = none := h.base.unpinned.1
  have hsynced := h.base.synced
  simp only [VersionedTreeDb.new, VersionedTreeDb.abortBlock, TreeState.mk.injEq] at hsynced
  have hne : ∀ c ∈ chain, c.hash ≠ hash := fun c hc heq =>
    hnew (heq ▸ List.mem_map_of_mem hc)
  have hlt : ∀ c ∈ chain, c.height < height := fun c hc => h.base.linked.height_lt hfollows hc
  have heq : t.finishBlock
      = ⟨{ t.db with
            blockRoot := t.db.blockRoot.put hash root
            heightBlock := t.db.heightBlock.put height hash
            blockHeight := t.db.blockHeight.put hash height
            blockParent := t.db.blockParent.put hash parent
            metaActiveRoot := some root
            metaActiveBlock := some hash },
          ⟨root, some hash, none, none, none⟩⟩ := by
    simp [VersionedTreeDb.finishBlock, VersionedTreeDb.finishRows, VersionedTreeDb.finishState,
      hctx, hpin, hpinned]
  rw [heq]
  refine
    { sound := ⟨h.base.sound.wf, h.base.sound.emptyLeaf, ?blockRoot⟩
      linked := h.base.linked.snoc hfollows hnew
      idle := rfl
      unpinned := ⟨rfl, rfl⟩
      heights := ?heights
      hashes := ?hashes
      parents := ?parents
      roots := ?roots
      activeBlock := by simp
      activeRoot := by simp
      synced := by simp [VersionedTreeDb.new, hsynced, hpin, hpinned] }
  case blockRoot =>
    intro hash' root' hroot'
    rw [Table.get_put] at hroot'
    split_ifs at hroot' with hhash
    · exact ⟨view, (some_inj.1 hroot') ▸ hview⟩
    · exact h.base.sound.blockRoot hash' root' hroot'
  case heights =>
    -- the new height is above all others
    intro height' hash'
    simp only [Table.get_put]
    split_ifs with hheight
    · subst hheight
      have hnone : ¬∃ c ∈ chain, c.height = height' ∧ c.hash = hash' :=
        fun ⟨c, hc, hcheight, _⟩ => (hlt c hc).ne hcheight
      simp [hnone]
    · have hold := h.base.heights height' hash'
      simp only [VersionedTreeDb.abortBlock] at hold
      simp [hold, Ne.symm hheight]
  case hashes =>
    intro hash' height'
    simp only [Table.get_put]
    split_ifs with hhash
    · subst hhash
      have hnone : ¬∃ c ∈ chain, c.height = height' ∧ c.hash = hash' :=
        fun ⟨c, hc, _, hchash⟩ => hne c hc hchash
      simp [hnone]
    · have hold := h.base.hashes hash' height'
      simp only [VersionedTreeDb.abortBlock] at hold
      simp [hold, Ne.symm hhash]
  case parents =>
    intro c hc
    rcases mem_append.1 hc with hc | hc
    · rw [Table.get_put_of_ne _ _ (hne c hc)]
      exact h.base.parents c hc
    · obtain rfl := mem_singleton.1 hc
      exact Table.get_put_self _ _ _
  case roots =>
    intro c hc
    rcases mem_append.1 hc with hc | hc
    · rw [Table.get_put_of_ne _ _ (hne c hc)]
      exact h.base.roots c hc
    · obtain rfl := mem_singleton.1 hc
      exact ⟨root, Table.get_put_self _ _ _, hview⟩

end

variable {c : Commit K V H}

omit [LinearOrder K] [DecidableEq H] in
lemma Linked.staleHeight_iff (h : Linked chain) (n : ℕ) (hc : c ∈ chain) :
    VersionedTreeDb.staleHeight ((chain.take n).getLast?.map Commit.height) c.height = false ↔
      c ∈ chain.take n := by
  obtain ⟨i, hi⟩ := getElem?_of_mem hc
  have hmem : c ∈ chain.take n ↔ i < n := by
    constructor
    · intro htake
      obtain ⟨j, hj⟩ := getElem?_of_mem htake
      rw [getElem?_take] at hj
      split_ifs at hj with hjn
      rcases le_total i j with hle | hle
      · omega
      · have hcount := h.height_getElem hj hi hle
        omega
    · intro hin
      exact mem_of_getElem? (by rw [getElem?_take, if_pos hin]; exact hi)
  obtain ⟨hlt, -⟩ := List.getElem?_eq_some_iff.1 hi
  rw [hmem]
  by_cases hn : n = 0
  · simp [VersionedTreeDb.staleHeight, hn]
  · have hk : min n chain.length - 1 < chain.length := by omega
    have hlast : (chain.take n).getLast? = some chain[min n chain.length - 1] := by
      rw [getLast?_eq_getElem?, length_take, getElem?_take, if_pos (by omega),
        getElem?_eq_getElem hk]
    have hlast' := getElem?_eq_getElem hk
    simp only [hlast, VersionedTreeDb.staleHeight, map_some, getD_some,
      decide_eq_false_iff_not]
    rcases le_total i (min n chain.length - 1) with hle | hle
    · have hcount := h.height_getElem hi hlast' hle
      omega
    · have hcount := h.height_getElem hlast' hi hle
      omega

lemma Indexed.mem_staleHashes (h : Indexed t chain) (n : ℕ) (hc : c ∈ chain) :
    c.hash ∈ (t.db.heightBlock.filter fun height _ =>
        VersionedTreeDb.staleHeight ((chain.take n).getLast?.map Commit.height) height).values ↔
      c ∉ chain.take n := by
  rw [Table.mem_values]
  simp only [Table.get_filter, filter_eq_some_iff]
  rw [← h.linked.staleHeight_iff n hc, Bool.not_eq_false]
  constructor
  · rintro ⟨height, hheight, hstale⟩
    obtain ⟨c', hc', rfl, hhash⟩ := (h.heights _ _).1 hheight
    rwa [h.linked.eq_of_hash hc' hc hhash] at hstale
  · intro hstale
    exact ⟨c.height, (h.heights _ _).2 ⟨c, hc, rfl, rfl⟩, hstale⟩

/-- A rewind to the last height of a prefix, or to nothing when the prefix is empty, succeeds and
leaves the prefix. -/
theorem Indexed.rewindToHeight (h : Indexed t chain) (n : ℕ) :
    ∃ t', t.rewindToHeight ((chain.take n).getLast?.map Commit.height) = .ok t' ∧
      t'.db.blockRoot = t.db.blockRoot ∧ Indexed t' (chain.take n) := by
  have hsub : ∀ c ∈ chain.take n, c ∈ chain := fun c hc => mem_of_mem_take hc
  set root := ((chain.take n).getLast?.bind fun c => t.db.blockRoot.get c.hash).getD
    (emptyRootId K V Id) with hrootdef
  have hpointers : t.rewindPointers ((chain.take n).getLast?.map Commit.height)
      = .ok (root, (chain.take n).getLast?.map Commit.hash) := by
    cases hlast : (chain.take n).getLast? with
    | none =>
      rw [hrootdef, hlast]
      rfl
    | some c =>
      have hc := hsub c (mem_of_getLast? hlast)
      obtain ⟨root', hroot', -⟩ := h.roots c hc
      have hheight : t.db.heightBlock.get c.height = some c.hash :=
        (h.heights _ _).2 ⟨c, hc, rfl, rfl⟩
      simp [VersionedTreeDb.rewindPointers, VersionedTreeDb.blockhashForHeight,
        VersionedTreeDb.rootForBlockhash, h.idle, hheight, hroot', hrootdef, hlast]
  refine ⟨⟨VersionedTreeDb.rewindRows t.db ((chain.take n).getLast?.map Commit.height) root
      ((chain.take n).getLast?.map Commit.hash),
      ⟨root, (chain.take n).getLast?.map Commit.hash, none, none, none⟩⟩,
    by rw [VersionedTreeDb.rewindToHeight, hpointers], rfl, ?_⟩
  refine
    { sound := ⟨h.sound.wf, h.sound.emptyLeaf, h.sound.blockRoot⟩
      linked := h.linked.take n
      idle := rfl
      unpinned := ⟨rfl, rfl⟩
      heights := fun height hash => ?_
      hashes := fun hash height => ?_
      parents := fun c hc => h.parents c (hsub c hc)
      roots := fun c hc => h.roots c (hsub c hc)
      activeBlock := rfl
      activeRoot := rfl
      synced := rfl }
  · simp only [VersionedTreeDb.rewindRows, Table.get_filter, filter_eq_some_iff, h.heights,
      Bool.not_eq_true']
    constructor
    · rintro ⟨⟨c, hc, rfl, rfl⟩, hstale⟩
      exact ⟨c, (h.linked.staleHeight_iff n hc).1 hstale, rfl, rfl⟩
    · rintro ⟨c, hc, rfl, rfl⟩
      exact ⟨⟨c, hsub c hc, rfl, rfl⟩, (h.linked.staleHeight_iff n (hsub c hc)).2 hc⟩
  · simp only [VersionedTreeDb.rewindRows, Table.get_filter, filter_eq_some_iff, h.hashes,
      decide_eq_true_eq]
    constructor
    · rintro ⟨⟨c, hc, rfl, rfl⟩, hstale⟩
      rw [h.mem_staleHashes n hc, not_not] at hstale
      exact ⟨c, hstale, rfl, rfl⟩
    · rintro ⟨c, hc, rfl, rfl⟩
      rw [h.mem_staleHashes n (hsub c hc), not_not]
      exact ⟨⟨c, hsub c hc, rfl, rfl⟩, hc⟩

/-! ## Observations -/

omit [LinearOrder K] [DecidableEq Id] [NodeHash K V Id] in
lemma ChainRows.ancestorAt (h : ChainRows t chain) {j : ℕ} (hc : chain[j]? = some c) {steps : ℕ}
    (hsteps : steps ≤ j) :
    ∃ a, chain[j - steps]? = some a ∧ t.ancestorAt steps c.hash = some a.hash := by
  induction steps generalizing j c with
  | zero => exact ⟨c, hc, rfl⟩
  | succ steps ih =>
    obtain ⟨hlt, rfl⟩ := List.getElem?_eq_some_iff.1 hc
    have hj : j - 1 + 1 = j := by omega
    have hprev : chain[j - 1]? = some chain[j - 1] := getElem?_eq_getElem (by omega)
    have hlink := (isChain_iff_getElem.1 h.linked.link (j - 1) (by omega)).2
    simp only [hj] at hlink
    have hparent : t.parentForBlockhash chain[j].hash = some chain[j - 1].hash := by
      rw [VersionedTreeDb.parentForBlockhash, h.parents _ (getElem_mem hlt), hlink]
    obtain ⟨a, ha, heq⟩ := ih hprev (by omega)
    refine ⟨a, ?_, ?_⟩
    · rwa [show j - (steps + 1) = j - 1 - steps by omega]
    · rw [VersionedTreeDb.ancestorAt, hparent]
      exact heq

omit [LinearOrder K] [DecidableEq Id] [NodeHash K V Id] in
/-- `is_ancestor` is the order of the chain. -/
theorem ChainRows.isAncestor_iff (h : ChainRows t chain) (ancestor descendant : H) :
    t.isAncestor ancestor descendant = true ↔
      ∃ (i j : ℕ) (a d : Commit K V H), i ≤ j ∧ chain[i]? = some a ∧ chain[j]? = some d ∧
        a.hash = ancestor ∧ d.hash = descendant := by
  constructor
  · intro hanc
    unfold VersionedTreeDb.isAncestor at hanc
    split at hanc
    · rename_i ha hd heqa heqd
      obtain ⟨a, hamem, rfl, rfl⟩ := (h.hashes _ _).1 heqa
      obtain ⟨d, hdmem, rfl, rfl⟩ := (h.hashes _ _).1 heqd
      split_ifs at hanc with hle
      obtain ⟨i, hi⟩ := getElem?_of_mem hamem
      obtain ⟨j, hj⟩ := getElem?_of_mem hdmem
      have hij : i ≤ j := by
        by_contra hji
        have hcount := h.linked.height_getElem hj hi (by omega)
        omega
      exact ⟨i, j, a, d, hij, hi, hj, rfl, rfl⟩
    · simp at hanc
  · rintro ⟨i, j, a, d, hij, hi, hj, rfl, rfl⟩
    have hcount := h.linked.height_getElem hi hj hij
    have heqa : t.heightForBlockhash a.hash = some a.height :=
      (h.hashes _ _).2 ⟨a, mem_of_getElem? hi, rfl, rfl⟩
    have heqd : t.heightForBlockhash d.hash = some d.height :=
      (h.hashes _ _).2 ⟨d, mem_of_getElem? hj, rfl, rfl⟩
    obtain ⟨b, hb, heq⟩ := h.ancestorAt hj (Nat.sub_le j i)
    rw [show j - (j - i) = i by omega, hi] at hb
    cases hb
    unfold VersionedTreeDb.isAncestor
    rw [heqa, heqd]
    dsimp only
    rw [if_neg (by omega), show d.height - a.height = j - i by omega, heq]
    exact decide_eq_true rfl

/-- What can be observed at a database: reads and scans at the active root and at the roots of the
given blocks, and everything about heights, hashes and ancestry. -/
structure ObservablyEq (hashes : List H) (t t' : VersionedTreeDb K V Id H) : Prop where
  get : ∀ key, t.get key = t'.get key
  rangeEntries : ∀ start endExclusive,
    t.rangeEntries start endExclusive = t'.rangeEntries start endExclusive
  rangeEntriesPage : ∀ start endExclusive offset limit reverse,
    rangeEntriesPageAtRoot t.db.nodes t.activeRoot start endExclusive offset limit reverse
      = rangeEntriesPageAtRoot t'.db.nodes t'.activeRoot start endExclusive offset limit reverse
  activeBlockhash : t.activeBlockhash = t'.activeBlockhash
  blockhashForHeight : ∀ height, t.blockhashForHeight height = t'.blockhashForHeight height
  heightForBlockhash : ∀ hash, t.heightForBlockhash hash = t'.heightForBlockhash hash
  isAncestor : ∀ ancestor descendant,
    t.isAncestor ancestor descendant = t'.isAncestor ancestor descendant
  indexedHeightBounds : t.indexedHeightBounds = t'.indexedHeightBounds
  blockRoots : ∀ hash ∈ hashes, ∃ root root', t.rootForBlockhash hash = some root ∧
    t'.rootForBlockhash hash = some root' ∧
    (∀ key, getAtRoot t.db.nodes root key = getAtRoot t'.db.nodes root' key) ∧
    (∀ start endExclusive, rangeEntriesAtRoot t.db.nodes root start endExclusive
      = rangeEntriesAtRoot t'.db.nodes root' start endExclusive) ∧
    ∀ start endExclusive offset limit reverse,
      rangeEntriesPageAtRoot t.db.nodes root start endExclusive offset limit reverse
        = rangeEntriesPageAtRoot t'.db.nodes root' start endExclusive offset limit reverse

/-- Databases that hold one chain cannot be told apart. -/
theorem Indexed.observablyEq {t' : VersionedTreeDb K V Id H} (h : Indexed t chain)
    (h' : Indexed t' chain) : ObservablyEq (chain.map Commit.hash) t t' := by
  have hactive : Stores t.db.nodes t.activeRoot (tipView chain) := by
    rw [h.activeRoot_eq]
    exact h.stores_active
  have hactive' : Stores t'.db.nodes t'.activeRoot (tipView chain) := by
    rw [h'.activeRoot_eq]
    exact h'.stores_active
  have hheights : t.db.heightBlock = t'.db.heightBlock := by
    refine Table.ext_get fun height => ext fun hash => ?_
    rw [h.heights, h'.heights]
  have hhashes : t.db.blockHeight = t'.db.blockHeight := by
    refine Table.ext_get fun hash => ext fun height => ?_
    rw [h.hashes, h'.hashes]
  refine
    { get := fun key => ?_
      rangeEntries := hactive.rangeEntriesAtRoot_eq hactive'
      rangeEntriesPage := hactive.rangeEntriesPageAtRoot_eq hactive'
      activeBlockhash := h.activeBlock.trans h'.activeBlock.symm
      blockhashForHeight := fun height => by rw [VersionedTreeDb.blockhashForHeight, hheights]; rfl
      heightForBlockhash := fun hash => by rw [VersionedTreeDb.heightForBlockhash, hhashes]; rfl
      isAncestor := fun ancestor descendant => ?_
      indexedHeightBounds := by simp only [VersionedTreeDb.indexedHeightBounds, hheights]
      blockRoots := fun hash hhash => ?_ }
  · rw [VersionedTreeDb.get, VersionedTreeDb.get, hactive.getAtRoot_eq, hactive'.getAtRoot_eq]
  · rw [Bool.eq_iff_iff, h.isAncestor_iff, h'.isAncestor_iff]
  · obtain ⟨c, hc, rfl⟩ := List.mem_map.1 hhash
    obtain ⟨root, hroot, hstores⟩ := h.roots c hc
    obtain ⟨root', hroot', hstores'⟩ := h'.roots c hc
    refine ⟨root, root', by simp [VersionedTreeDb.rootForBlockhash, h.idle, hroot],
      by simp [VersionedTreeDb.rootForBlockhash, h'.idle, hroot'], fun key => ?_,
      hstores.rangeEntriesAtRoot_eq hstores', hstores.rangeEntriesPageAtRoot_eq hstores'⟩
    rw [hstores.getAtRoot_eq, hstores'.getAtRoot_eq]

end Indexed

end Espo.TreeDb
