import Espo.Tree.Db

/-!
# Reorg detection (`detect_first_divergence_height`)

The indexer compares the hashes it stored per height with those of the node, walking down from the
lower of the two tips. A height without a stored hash ends the walk without an answer, the first
agreement ends it with the height above, and at genesis a difference is the answer itself.

The answer is the bottom of the unbroken run of differing heights that ends at the tip, provided
that run rests on an agreement or on genesis.
-/

namespace Espo.Indexer
open Lib TreeDb

variable {K V Id H : Type*} [DecidableEq H]

/-- `get_block_hash` of a node whose active chain ends at `coreTip`: no hash above its tip. -/
def getBlockHash (core : ℕ → H) (coreTip height : ℕ) : Option H :=
  if height ≤ coreTip then some (core height) else none

/-- One turn of the loop at height `h`: what the function returns there, or `none` if the hashes
differ and the walk goes on. -/
def divergenceTurn (tree : VersionedTreeDb K V Id H) (rpc : ℕ → Option H) (checkTip h : ℕ) :
    Option (Option ℕ) :=
  match rpc h, tree.blockhashForHeight h with
  -- the node has no hash to compare with
  | none, _ => some none
  -- not indexed yet: absence is not evidence of a reorg
  | some _, none => some none
  | some chainHash, some stored =>
    if stored = chainHash then
      if h = checkTip then some none else some (some (h + 1))
    else none

/-- The loop of `detect_first_divergence_height` at height `genesis + n`. -/
def divergenceLoop (tree : VersionedTreeDb K V Id H) (rpc : ℕ → Option H) (checkTip genesis : ℕ) :
    ℕ → Option ℕ
  | 0 => (divergenceTurn tree rpc checkTip genesis).getD (some genesis)
  | n + 1 =>
    (divergenceTurn tree rpc checkTip (genesis + (n + 1))).getD
      (divergenceLoop tree rpc checkTip genesis n)

/-- `detect_first_divergence_height`. The loop variable stays between genesis and the tip, so its
saturating steps are plain ones. -/
def detectFirstDivergenceHeight (tree : Option (VersionedTreeDb K V Id H)) (rpc : ℕ → Option H)
    (indexedTip activeTip genesisHeight : ℕ) : Option ℕ :=
  match tree with
  | none => none
  | some tree =>
    if min indexedTip activeTip < genesisHeight then none
    else divergenceLoop tree rpc (min indexedTip activeTip) genesisHeight
      (min indexedTip activeTip - genesisHeight)

/-- The hash stored at the height is not the node's. -/
def Differs (tree : VersionedTreeDb K V Id H) (core : ℕ → H) (height : ℕ) : Prop :=
  ∃ stored, tree.blockhashForHeight height = some stored ∧ stored ≠ core height

/-- The hash stored at the height is the node's. -/
def Agrees (tree : VersionedTreeDb K V Id H) (core : ℕ → H) (height : ℕ) : Prop :=
  tree.blockhashForHeight height = some (core height)

instance (tree : VersionedTreeDb K V Id H) (core : ℕ → H) (height : ℕ) :
    Decidable (Agrees tree core height) :=
  inferInstanceAs (Decidable (_ = _))

/-- The bottom `d` of the differing heights that reach up to the tip without a break, resting on
genesis or on an agreement. -/
structure ForkBase (tree : VersionedTreeDb K V Id H) (core : ℕ → H) (genesis checkTip d : ℕ) :
    Prop where
  lower : genesis ≤ d
  upper : d ≤ checkTip
  differs : ∀ k, d ≤ k → k ≤ checkTip → Differs tree core k
  base : d = genesis ∨ Agrees tree core (d - 1)

variable {tree : VersionedTreeDb K V Id H} {core : ℕ → H} {genesis checkTip coreTip d h : ℕ}

section
omit [DecidableEq H]

lemma Differs.not_agrees (hdiff : Differs tree core h) : ¬ Agrees tree core h := by
  intro hagree
  obtain ⟨stored, hstored, hne⟩ := hdiff
  have heq : some stored = some (core h) := hstored.symm.trans hagree
  exact hne (Option.some.inj heq)

/-- A stored hash differs from the node's or agrees with it. -/
theorem missing_or_agrees_or_differs (tree : VersionedTreeDb K V Id H) (core : ℕ → H) (h : ℕ) :
    tree.blockhashForHeight h = none ∨ Agrees tree core h ∨ Differs tree core h := by
  cases hstored : tree.blockhashForHeight h with
  | none => exact .inl rfl
  | some stored =>
    right
    by_cases heq : stored = core h
    · exact .inl (by rw [Agrees, hstored, heq])
    · exact .inr ⟨stored, hstored, heq⟩

end

/-! ## One turn -/

lemma divergenceTurn_of_missing (hstored : tree.blockhashForHeight h = none) (rpc : ℕ → Option H) :
    divergenceTurn tree rpc checkTip h = some none := by
  unfold divergenceTurn
  rw [hstored]
  cases rpc h <;> rfl

lemma divergenceTurn_of_agrees (hcore : h ≤ coreTip) (hagree : Agrees tree core h) :
    divergenceTurn tree (getBlockHash core coreTip) checkTip h =
      some (if h = checkTip then none else some (h + 1)) := by
  unfold divergenceTurn getBlockHash
  rw [if_pos hcore, hagree]
  simp only [if_true]
  split_ifs <;> rfl

lemma divergenceTurn_of_differs (hcore : h ≤ coreTip) (hdiff : Differs tree core h) :
    divergenceTurn tree (getBlockHash core coreTip) checkTip h = none := by
  obtain ⟨stored, hstored, hne⟩ := hdiff
  unfold divergenceTurn getBlockHash
  rw [if_pos hcore, hstored]
  exact if_neg hne

lemma differs_of_divergenceTurn (hcore : h ≤ coreTip)
    (hturn : divergenceTurn tree (getBlockHash core coreTip) checkTip h = none) :
    Differs tree core h := by
  rcases missing_or_agrees_or_differs tree core h with hmissing | hagree | hdiff
  · rw [divergenceTurn_of_missing hmissing] at hturn
    simp at hturn
  · rw [divergenceTurn_of_agrees hcore hagree] at hturn
    simp at hturn
  · exact hdiff

/-- A turn that ends the walk, at a height above which everything differs, gives the base right
above it, if there is one. -/
theorem divergenceTurn_eq_some_iff {answer : Option ℕ} (hcore : checkTip ≤ coreTip)
    (hgenesis : genesis ≤ h) (htip : h ≤ checkTip)
    (habove : ∀ k, h < k → k ≤ checkTip → Differs tree core k)
    (hturn : divergenceTurn tree (getBlockHash core coreTip) checkTip h = some answer) :
    answer = some d ↔ d ≤ h + 1 ∧ ForkBase tree core genesis checkTip d := by
  -- the height does not differ, so a base at or below `h + 1` is `h + 1` itself
  have hnot : ¬ Differs tree core h := by
    intro hdiff
    rw [divergenceTurn_of_differs (by omega) hdiff] at hturn
    exact Option.some_ne_none _ hturn.symm
  have hlast : d ≤ h + 1 → ForkBase tree core genesis checkTip d → d = h + 1 := by
    intro hle hbase
    have hlt : ¬ d ≤ h := fun hd => hnot (hbase.differs h hd htip)
    omega
  rcases missing_or_agrees_or_differs tree core h with hmissing | hagree | hdiff
  · rw [divergenceTurn_of_missing hmissing] at hturn
    constructor
    · intro heq
      simp_all
    · rintro ⟨hle, hbase⟩
      have hd := hlast hle hbase
      rcases hbase.base with hgen | hagree
      · omega
      · rw [hd, Nat.add_sub_cancel, Agrees, hmissing] at hagree
        simp at hagree
  · rw [divergenceTurn_of_agrees (by omega) hagree] at hturn
    have hanswer := Option.some.inj hturn
    by_cases heq : h = checkTip
    · rw [if_pos heq] at hanswer
      constructor
      · intro hd
        simp [← hanswer] at hd
      · rintro ⟨hle, hbase⟩
        have hd := hlast hle hbase
        have hupper := hbase.upper
        omega
    · rw [if_neg heq] at hanswer
      rw [← hanswer]
      constructor
      · intro hd
        have hd : h + 1 = d := Option.some.inj hd
        subst hd
        exact ⟨le_rfl, by omega, by omega, fun k hk hle => habove k (by omega) hle,
          .inr (by simpa using hagree)⟩
      · rintro ⟨hle, hbase⟩
        rw [hlast hle hbase]
  · exact absurd hdiff hnot

/-! ## The walk -/

/-- The loop from a height above which everything differs finds the base at or below it, or right
above it. -/
theorem divergenceLoop_eq_some_iff (hcore : checkTip ≤ coreTip) (n : ℕ)
    (hn : genesis + n ≤ checkTip)
    (habove : ∀ k, genesis + n < k → k ≤ checkTip → Differs tree core k) :
    divergenceLoop tree (getBlockHash core coreTip) checkTip genesis n = some d ↔
      d ≤ genesis + n + 1 ∧ ForkBase tree core genesis checkTip d := by
  induction n with
  | zero =>
    unfold divergenceLoop
    cases hturn : divergenceTurn tree (getBlockHash core coreTip) checkTip genesis with
    | some answer => exact divergenceTurn_eq_some_iff hcore le_rfl (by omega) habove hturn
    | none =>
      have hdiff : Differs tree core genesis := differs_of_divergenceTurn (by omega) hturn
      constructor
      · intro hd
        have hd : genesis = d := Option.some.inj hd
        subst hd
        refine ⟨by omega, le_rfl, by omega, fun k hk hle => ?_, .inl rfl⟩
        rcases hk.eq_or_lt with heq | hlt
        · exact heq ▸ hdiff
        · exact habove k (by omega) hle
      · rintro ⟨hle, hbase⟩
        have hlower := hbase.lower
        have hd : d = genesis := by
          rcases hbase.base with hgen | hagree
          · exact hgen
          · by_contra hne
            have hd : d - 1 = genesis := by omega
            exact hdiff.not_agrees (hd ▸ hagree)
        rw [hd]
        rfl
  | succ n ih =>
    unfold divergenceLoop
    cases hturn : divergenceTurn tree (getBlockHash core coreTip) checkTip (genesis + (n + 1)) with
    | some answer => exact divergenceTurn_eq_some_iff hcore (by omega) (by omega) habove hturn
    | none =>
      have hdiff : Differs tree core (genesis + (n + 1)) :=
        differs_of_divergenceTurn (by omega) hturn
      have hbelow : ∀ k, genesis + n < k → k ≤ checkTip → Differs tree core k := by
        intro k hk hle
        by_cases heq : k = genesis + (n + 1)
        · exact heq ▸ hdiff
        · exact habove k (by omega) hle
      show divergenceLoop tree (getBlockHash core coreTip) checkTip genesis n = some d ↔ _
      rw [ih (by omega) hbelow]
      constructor
      · rintro ⟨hle, hbase⟩
        exact ⟨by omega, hbase⟩
      · rintro ⟨hle, hbase⟩
        refine ⟨?_, hbase⟩
        have hne : d ≠ genesis + (n + 1) + 1 := by
          intro heq
          rcases hbase.base with hgen | hagree
          · omega
          · rw [heq] at hagree
            exact hdiff.not_agrees hagree
        omega

/-- The function returns the base of the fork, and nothing when there is none. -/
theorem detectFirstDivergenceHeight_eq_some_iff {indexedTip : ℕ}
    (hgenesis : genesis ≤ min indexedTip coreTip) :
    detectFirstDivergenceHeight (some tree) (getBlockHash core coreTip) indexedTip coreTip genesis =
      some d ↔ ForkBase tree core genesis (min indexedTip coreTip) d := by
  unfold detectFirstDivergenceHeight
  dsimp only
  rw [if_neg (by omega), divergenceLoop_eq_some_iff (by omega) _ (by omega)
    (fun k hk hle => absurd hle (by omega))]
  constructor
  · intro hd
    exact hd.2
  · intro hbase
    have hupper := hbase.upper
    exact ⟨by omega, hbase⟩

omit [DecidableEq H] in
/-- When every height is stored and agreement carries over to the heights below, the fork below a
differing height has a base. -/
theorem exists_forkBase (hstored : ∀ k, genesis ≤ k → k ≤ checkTip → tree.blockhashForHeight k ≠ none)
    (hdown : ∀ j k, genesis ≤ j → j ≤ k → k ≤ checkTip → Agrees tree core k → Agrees tree core j)
    (hlower : genesis ≤ h) (hupper : h ≤ checkTip) (hdiff : Differs tree core h) :
    ∃ d ≤ h, ForkBase tree core genesis checkTip d := by
  -- the base is the lowest height of the interval that differs
  have hexists : ∃ k, genesis ≤ k ∧ k ≤ h ∧ Differs tree core k := ⟨h, hlower, le_rfl, hdiff⟩
  classical
  obtain ⟨hge, hle, hd⟩ := Nat.find_spec hexists
  refine ⟨Nat.find hexists, hle, hge, by omega, fun k hk hkt => ?_, ?_⟩
  · rcases missing_or_agrees_or_differs tree core k with hmissing | hagree | hk'
    · exact absurd hmissing (hstored k (by omega) hkt)
    · exact absurd (hdown _ k hge hk hkt hagree) hd.not_agrees
    · exact hk'
  · by_cases hgen : Nat.find hexists = genesis
    · exact .inl hgen
    · right
      have hbelow := Nat.find_min hexists (m := Nat.find hexists - 1) (by omega)
      rcases missing_or_agrees_or_differs tree core (Nat.find hexists - 1) with hm | hagree | hd'
      · exact absurd hm (hstored _ (by omega) (by omega))
      · exact hagree
      · exact absurd ⟨by omega, by omega, hd'⟩ hbelow

/-- Below a differing height `h`, the function answers exactly when the differing heights reach from
the tip down past `h` to a height that rests on genesis or on an agreement. That is the case for
every differing height of a map without gaps whose agreements carry over to lower heights, as they
do for two parent-linked chains. Without a differing height there is no answer. -/
theorem detectFirstDivergenceHeight_complete (tree : VersionedTreeDb K V Id H) (core : ℕ → H)
    (indexedTip coreTip genesis : ℕ) (hgenesis : genesis ≤ min indexedTip coreTip) :
    (∀ h, genesis ≤ h → h ≤ min indexedTip coreTip → Differs tree core h →
      ((∃ d, detectFirstDivergenceHeight (some tree) (getBlockHash core coreTip) indexedTip coreTip
          genesis = some d ∧ d ≤ h) ↔
        ∃ d ≤ h, ForkBase tree core genesis (min indexedTip coreTip) d)) ∧
    ((∀ k, genesis ≤ k → k ≤ min indexedTip coreTip → tree.blockhashForHeight k ≠ none) →
      (∀ j k, genesis ≤ j → j ≤ k → k ≤ min indexedTip coreTip → Agrees tree core k →
        Agrees tree core j) →
      ∀ h, genesis ≤ h → h ≤ min indexedTip coreTip → Differs tree core h →
        ∃ d, detectFirstDivergenceHeight (some tree) (getBlockHash core coreTip) indexedTip coreTip
          genesis = some d ∧ d ≤ h) ∧
    ((∀ h stored, genesis ≤ h → h ≤ min indexedTip coreTip →
        tree.blockhashForHeight h = some stored → stored = core h) →
      detectFirstDivergenceHeight (some tree) (getBlockHash core coreTip) indexedTip coreTip
        genesis = none) := by
  have hexact : ∀ h, (∃ d, detectFirstDivergenceHeight (some tree) (getBlockHash core coreTip)
      indexedTip coreTip genesis = some d ∧ d ≤ h) ↔
        ∃ d ≤ h, ForkBase tree core genesis (min indexedTip coreTip) d := by
    intro h
    constructor
    · rintro ⟨d, hd, hle⟩
      exact ⟨d, hle, (detectFirstDivergenceHeight_eq_some_iff hgenesis).mp hd⟩
    · rintro ⟨d, hle, hbase⟩
      exact ⟨d, (detectFirstDivergenceHeight_eq_some_iff hgenesis).mpr hbase, hle⟩
  refine ⟨fun h _ _ _ => hexact h, fun hstored hdown h hlower hupper hdiff => ?_, fun hall => ?_⟩
  · exact (hexact h).mpr (exists_forkBase hstored hdown hlower hupper hdiff)
  · rw [Option.eq_none_iff_forall_ne_some]
    intro d hd
    have hbase := (detectFirstDivergenceHeight_eq_some_iff hgenesis).mp hd
    obtain ⟨stored, hstored, hne⟩ := hbase.differs d le_rfl hbase.upper
    exact hne (hall d stored hbase.lower hbase.upper hstored)

/-- A tree that stores the given hashes and nothing else. -/
def treeOfHashes (hashes : List (ℕ × ℕ)) : VersionedTreeDb ℕ ℕ ℕ ℕ where
  db := { TreeRows.empty ℕ ℕ ℕ ℕ with heightBlock := Table.putAll ∅ hashes }
  state := ⟨0, none, none, none, none⟩

/-- A fork of the last two of three indexed blocks is found at the lower of them. -/
theorem detectFirstDivergenceHeight_complete_forked :
    ∃ d, detectFirstDivergenceHeight (some (treeOfHashes [(5, 1), (6, 2), (7, 3)]))
      (getBlockHash (fun h => if h = 5 then 1 else 0) 7) 7 7 5 = some d ∧ d ≤ 7 := by
  have hcomplete := detectFirstDivergenceHeight_complete (treeOfHashes [(5, 1), (6, 2), (7, 3)])
    (fun h => if h = 5 then 1 else 0) 7 7 5 (by decide)
  have hbase : ForkBase (treeOfHashes [(5, 1), (6, 2), (7, 3)]) (fun h => if h = 5 then 1 else 0)
      5 (min 7 7) 6 := by
    refine ⟨by decide, by decide, fun k hk hle => ?_, .inr (by decide)⟩
    obtain rfl | rfl : k = 6 ∨ k = 7 := by omega
    · exact ⟨2, by decide, by decide⟩
    · exact ⟨3, by decide, by decide⟩
  exact (hcomplete.1 7 (by decide) (by decide) ⟨3, by decide, by decide⟩).mpr ⟨6, by decide, hbase⟩

/-- A differing height is missed when the tip agrees, and also when the differing heights rest on a
height that was never indexed. -/
theorem detectFirstDivergenceHeight_misses :
    (Differs (treeOfHashes [(5, 1), (6, 2)]) (fun h => if h = 6 then 2 else 0) 5 ∧
      detectFirstDivergenceHeight (some (treeOfHashes [(5, 1), (6, 2)]))
        (getBlockHash (fun h => if h = 6 then 2 else 0) 6) 6 6 5 = none) ∧
    (Differs (treeOfHashes [(6, 2)]) (fun _ => 0) 6 ∧
      detectFirstDivergenceHeight (some (treeOfHashes [(6, 2)])) (getBlockHash (fun _ => 0) 6)
        6 6 5 = none) :=
  ⟨⟨⟨1, by decide, by decide⟩, by decide⟩, ⟨2, by decide, by decide⟩, by decide⟩

end Espo.Indexer
