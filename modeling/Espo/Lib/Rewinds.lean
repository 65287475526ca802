import Espo.Lib.Instances

/-!
# Runs of blocks and rewinds

A store that is changed by blocks, keeps the state after every block, and goes back to an earlier one when
it is rewound. A block may fail, and the run ends then.

Whatever a run does, the blocks that are left and their states form a chain in which every state comes from
the one before (`Snapshots`). So what holds along every chain holds after every run.
-/

namespace Lib.Rewinds

/-- A block, or a rewind over some blocks. -/
inductive Event (B : Type*) where
  | block (b : B)
  | rewind (blocks : ℕ)

variable {S B : Type*} (apply : S → B → Option S) (init : S) (chain : List (B × S))

/-- The state after the last block. Blocks stand with the state after them, the last one first. -/
def current : S := (chain.head?.map Prod.snd).getD init

/-- One event; `none` is a block that fails. -/
def step : Event B → Option (List (B × S))
  | .block b => (apply (current init chain) b).map fun s => (b, s) :: chain
  | .rewind blocks => some (chain.drop blocks)

/-- All events. -/
def run (events : List (Event B)) : Option (List (B × S)) :=
  events.foldlM (step apply init) chain

/-- Every block of a run meets a condition on it and the chain before it. -/
def Meets (ok : List (B × S) → B → Prop) : List (B × S) → List (Event B) → Prop
  | _, [] => True
  | chain, .block b :: events =>
    ok chain b ∧ ∀ chain', step apply init chain (.block b) = some chain' → Meets ok chain' events
  | chain, .rewind blocks :: events => Meets ok (chain.drop blocks) events

/-- A chain in which every state comes from the one before, by a block that meets a condition. -/
inductive Snapshots (ok : List (B × S) → B → Prop) : List (B × S) → Prop
  | nil : Snapshots ok []
  | cons {chain : List (B × S)} {b : B} {s : S} :
      Snapshots ok chain → ok chain b → apply (current init chain) b = some s →
        Snapshots ok ((b, s) :: chain)

variable {apply init} {ok : List (B × S) → B → Prop} {chain chain' : List (B × S)}

@[simp]
lemma current_nil : current init ([] : List (B × S)) = init := rfl

@[simp]
lemma current_cons (b : B) (s : S) (chain : List (B × S)) : current init ((b, s) :: chain) = s := rfl

lemma step_block_eq_some {b : B} :
    step apply init chain (.block b) = some chain' ↔
      ∃ s, apply (current init chain) b = some s ∧ (b, s) :: chain = chain' :=
  Option.map_eq_some_iff

lemma Snapshots.drop (h : Snapshots apply init ok chain) (n : ℕ) :
    Snapshots apply init ok (chain.drop n) := by
  induction h generalizing n with
  | nil =>
    rw [List.drop_nil]
    exact Snapshots.nil
  | cons hchain hok happly ih =>
    cases n with
    | zero => exact Snapshots.cons hchain hok happly
    | succ n => exact ih n

lemma meets_of_forall (hok : ∀ chain b, ok chain b) (chain : List (B × S)) (events : List (Event B)) :
    Meets apply init ok chain events := by
  induction events generalizing chain with
  | nil => trivial
  | cons event events ih =>
    cases event with
    | block b => exact ⟨hok chain b, fun chain' _ => ih chain'⟩
    | rewind blocks => exact ih (chain.drop blocks)

lemma snapshots_of_run {events : List (Event B)} (h : Snapshots apply init ok chain)
    (hmeets : Meets apply init ok chain events) (hrun : run apply init chain events = some chain') :
    Snapshots apply init ok chain' := by
  induction events generalizing chain with
  | nil =>
    cases hrun
    exact h
  | cons event events ih =>
    rw [run, List.foldlM_cons, Option.bind_eq_bind, Option.bind_eq_some_iff] at hrun
    obtain ⟨mid, hstep, hrest⟩ := hrun
    cases event with
    | block b =>
      obtain ⟨s, happly, rfl⟩ := step_block_eq_some.1 hstep
      exact ih (h.cons hmeets.1 happly) (hmeets.2 _ hstep) hrest
    | rewind blocks =>
      cases hstep
      exact ih (h.drop blocks) hmeets hrest

/-- What blocks keep holds at the end of every chain. -/
theorem Snapshots.invariant {P : S → Prop} (hinit : P init)
    (hstep : ∀ chain b s, ok chain b → P (current init chain) → apply (current init chain) b = some s → P s)
    (h : Snapshots apply init ok chain) : P (current init chain) := by
  induction h with
  | nil => exact hinit
  | cons _ hok happly ih => exact hstep _ _ _ hok ih happly

end Lib.Rewinds
