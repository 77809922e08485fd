import Blockz.Core.Blockchain

/-!
# Proof of stake

`consensus/pos.go`. The proposer of a height is taken from the active set in turn. `VerifyHeader`
compares it with the coinbase of the header, and keeps for every height and validator the hash of
the header it has seen, so that a second one is refused. The hash is written before the rest of
the block is checked, and it stays when the block is refused later.

The engine has no method `CalculateBlockWeight`.

* `PoSEngine.verifyHeader_step` — a header is refused and leaves no trace, or it is accepted and its
  hash is recorded.
* `PoSEngine.verifyHeader_eq_ok` — an accepted header names the selected proposer, and the engine
  had no other header of that proposer at that height.
-/

namespace Blockz

open Effect

/-- `consensus.PoSEngine`. -/
structure PoSEngine where
  validators : Finmap fun _ : Address => UInt64
  activeSet : List Address
  -- height, then validator, to the hash of the header
  seenHeaders : Finmap fun _ : UInt32 => Finmap fun _ : Address => Hash

namespace PoSEngine

/-- `NewPoSEngine`. -/
def newPoSEngine : PoSEngine where
  validators := ∅
  activeSet := []
  seenHeaders := ∅

/-- `PoSEngine.AddValidator`. An address that is added twice stands in the active set twice. -/
def addValidator (addr : Address) (stake : UInt64) (pos : PoSEngine) : PoSEngine :=
  { pos with
    validators := pos.validators.insert addr stake
    activeSet := pos.activeSet ++ [addr] }

/-- `PoSEngine.selectProposerLocked`, which `SelectProposer` calls under the lock. -/
def selectProposer (pos : PoSEngine) (height : UInt32) : Outcome Err Address :=
  if pos.activeSet.length = 0 then .err .noActiveValidators
  else Outcome.deref pos.activeSet[height.toNat % pos.activeSet.length]?

/-- `pos.seenHeaders[height]`, where a missing map reads as an empty one. -/
def seenAt (pos : PoSEngine) (height : UInt32) : Finmap fun _ : Address => Hash :=
  (pos.seenHeaders.lookup height).getD ∅

/-- The map of a height is created when it is missing. -/
def openHeight (height : UInt32) (pos : PoSEngine) : PoSEngine :=
  { pos with seenHeaders := pos.seenHeaders.insert height (pos.seenAt height) }

/-- `pos.seenHeaders[height][addr] = hash`. -/
def recordHeader (height : UInt32) (addr : Address) (hash : Hash) (pos : PoSEngine) : PoSEngine :=
  { pos with
    seenHeaders := pos.seenHeaders.insert height ((pos.seenAt height).insert addr hash) }

/-- Nothing else is recorded for this validator at this height. -/
def NotDoubleSigned (pos : PoSEngine) (height : UInt32) (addr : Address) (hash : Hash) : Prop :=
  ∀ existing ∈ (pos.seenAt height).lookup addr, existing = hash

instance (pos : PoSEngine) (height : UInt32) (addr : Address) (hash : Hash) :
    Decidable (pos.NotDoubleSigned height addr hash) :=
  inferInstanceAs (Decidable (∀ existing ∈ (pos.seenAt height).lookup addr, existing = hash))

/-- `PoSEngine.Slash`. An address without a stake is left alone. -/
def slash (addr : Address) (pos : PoSEngine) : PoSEngine :=
  match pos.validators.lookup addr with
  | none => pos
  | some stake =>
    { pos with
      validators := pos.validators.insert addr (stake / 2)
      activeSet := pos.activeSet.filter (· ≠ addr) }

/-- `PoSEngine.Prepare`: the header with the selected proposer as its coinbase. -/
def prepare (pos : PoSEngine) (h : Header) : Outcome Err Header := do
  let proposer ← pos.selectProposer h.height
  pure { h with coinbase := proposer }

/-- `PoSEngine.Seal`. -/
def sealBlock (h : Header) : Outcome Err Header := .ok h

/-- `PoSEngine.CheckSlashing`. The receiver is not read, and the hashes are not compared. -/
def checkSlashing (h₁ h₂ : Header) : Option Address :=
  if h₁.height = h₂.height ∧ h₁.coinbase = h₂.coinbase then some h₁.coinbase else none

variable (P : Primitives)

/-- `PoSEngine.VerifyHeader`. -/
def verifyHeader (h : Header) : Act PoSEngine Err Unit := do
  let pos ← Act.get
  let expected ← Act.lift (pos.selectProposer h.height)
  Act.lift (Outcome.require (expected = h.coinbase)
    (.unexpectedProposer h.coinbase h.height expected))
  Act.modify (openHeight h.height)
  Act.lift (Outcome.require (pos.NotDoubleSigned h.height h.coinbase (BlockHasher.hash P h))
    (.doubleSigned h.coinbase h.height))
  Act.modify (recordHeader h.height h.coinbase (BlockHasher.hash P h))

instance : ConsensusEngine P PoSEngine where
  verifyHeader := verifyHeader P
  slash := some slash
  calculateBlockWeight := none

variable {P}

/-! ### The record of headers -/

theorem seenAt_insert (pos : PoSEngine) (height i : UInt32) (m : Finmap fun _ : Address => Hash) :
    { pos with seenHeaders := pos.seenHeaders.insert height m }.seenAt i =
      if i = height then m else pos.seenAt i := by
  unfold seenAt
  by_cases hi : i = height
  · subst hi
    rw [if_pos rfl, Finmap.lookup_insert]
    rfl
  · rw [if_neg hi, Finmap.lookup_insert_of_ne _ hi]

/-- Writing what is there changes nothing. -/
theorem insert_seenAt {pos : PoSEngine} {height : UInt32} {addr : Address} {hash : Hash}
    (hseen : (pos.seenAt height).lookup addr = some hash) :
    { pos with seenHeaders := pos.seenHeaders.insert height (pos.seenAt height) } = pos := by
  have hopen : pos.seenHeaders.lookup height = some (pos.seenAt height) := by
    unfold seenAt at hseen ⊢
    cases hm : pos.seenHeaders.lookup height with
    | some m => rfl
    | none =>
      rw [hm] at hseen
      exact absurd hseen (by simp)
  have hsame : pos.seenHeaders.insert height (pos.seenAt height) = pos.seenHeaders := by
    refine Finmap.ext_lookup fun i => ?_
    by_cases hi : i = height
    · subst hi
      rw [Finmap.lookup_insert, hopen]
    · rw [Finmap.lookup_insert_of_ne _ hi]
  rw [hsame]

theorem recordHeader_of_seen {pos : PoSEngine} {height : UInt32} {addr : Address} {hash : Hash}
    (hseen : (pos.seenAt height).lookup addr = some hash) :
    recordHeader height addr hash pos = pos := by
  have hinner : (pos.seenAt height).insert addr hash = pos.seenAt height := by
    refine Finmap.ext_lookup fun a => ?_
    by_cases ha : a = addr
    · subst ha
      rw [Finmap.lookup_insert, hseen]
    · rw [Finmap.lookup_insert_of_ne _ ha]
  unfold recordHeader
  rw [hinner]
  exact insert_seenAt hseen

/-- Opening a height and then writing into it is one write. -/
theorem recordHeader_openHeight (height : UInt32) (addr : Address) (hash : Hash)
    (pos : PoSEngine) :
    recordHeader height addr hash (openHeight height pos) = recordHeader height addr hash pos := by
  unfold recordHeader openHeight
  rw [seenAt_insert, if_pos rfl, Finmap.insert_insert]

theorem lookup_seenAt_recordHeader (height i : UInt32) (addr a : Address) (hash : Hash)
    (pos : PoSEngine) :
    ((recordHeader height addr hash pos).seenAt i).lookup a =
      if i = height ∧ a = addr then some hash else (pos.seenAt i).lookup a := by
  unfold recordHeader
  rw [seenAt_insert]
  by_cases hi : i = height
  · subst hi
    rw [if_pos rfl]
    by_cases ha : a = addr
    · subst ha
      rw [if_pos ⟨rfl, rfl⟩, Finmap.lookup_insert]
    · rw [if_neg fun h => ha h.2, Finmap.lookup_insert_of_ne _ ha]
  · rw [if_neg hi, if_neg fun h => hi h.1]

/-! ### What checking a header can do -/

/-- The ways in which `VerifyHeader` ends. Only an accepted header leaves a trace. -/
inductive VerifyStep (P : Primitives) (h : Header) (pos : PoSEngine) :
    Outcome Err Unit → PoSEngine → Prop
  | notProposer {o : Outcome Err Unit} (stop : ∀ u, o ≠ .ok u)
      (other : pos.selectProposer h.height ≠ .ok h.coinbase) : VerifyStep P h pos o pos
  | doubleSigned (proposer : pos.selectProposer h.height = .ok h.coinbase)
      (seen : ¬ pos.NotDoubleSigned h.height h.coinbase (BlockHasher.hash P h)) :
      VerifyStep P h pos (.err (.doubleSigned h.coinbase h.height)) pos
  | accepted (proposer : pos.selectProposer h.height = .ok h.coinbase)
      (unseen : pos.NotDoubleSigned h.height h.coinbase (BlockHasher.hash P h)) :
      VerifyStep P h pos (.ok ()) (recordHeader h.height h.coinbase (BlockHasher.hash P h) pos)

/-- **Every call of `VerifyHeader` is one of the listed steps.** -/
theorem verifyHeader_step (h : Header) (pos : PoSEngine) :
    VerifyStep P h pos (verifyHeader P h pos).1 (verifyHeader P h pos).2 := by
  unfold verifyHeader
  rw [Act.get_bind_apply]
  by_cases hproposer : pos.selectProposer h.height = .ok h.coinbase
  · have hright : (Outcome.require (h.coinbase = h.coinbase)
        (.unexpectedProposer h.coinbase h.height h.coinbase) : Outcome Err Unit) = .ok () :=
      Outcome.require_eq_ok.mpr rfl
    rw [hproposer, Act.bind_apply_ok (Act.lift_apply _ _), hright,
      Act.bind_apply_ok (Act.lift_apply _ _), Act.modify_bind_apply]
    by_cases hunseen : pos.NotDoubleSigned h.height h.coinbase (BlockHasher.hash P h)
    · rw [Outcome.require_eq_ok.mpr hunseen, Act.bind_apply_ok (Act.lift_apply _ _),
        Act.modify_apply, recordHeader_openHeight]
      exact .accepted hproposer hunseen
    · have hseen := hunseen
      unfold NotDoubleSigned at hseen
      simp only [not_forall] at hseen
      obtain ⟨existing, hexisting, -⟩ := hseen
      -- the height was open, so opening it has changed nothing
      have hopen : openHeight h.height pos = pos := insert_seenAt hexisting
      rw [Outcome.require_eq_err.mpr ⟨hunseen, rfl⟩, Act.bind_apply_err (Act.lift_apply _ _), hopen]
      exact .doubleSigned hproposer hunseen
  · cases hselect : pos.selectProposer h.height with
    | ok expected =>
      have hother : ¬ expected = h.coinbase := fun heq => hproposer (by rw [hselect, heq])
      rw [Act.bind_apply_ok (Act.lift_apply _ _), Outcome.require_eq_err.mpr ⟨hother, rfl⟩,
        Act.bind_apply_err (Act.lift_apply _ _)]
      exact .notProposer (by simp) hproposer
    | err e =>
      rw [Act.bind_apply_err (Act.lift_apply _ _)]
      exact .notProposer (by simp) hproposer
    | panic p =>
      rw [Act.bind_apply_panic (Act.lift_apply _ _)]
      exact .notProposer (by simp) hproposer
    | outOfFuel =>
      rw [Act.bind_apply_outOfFuel (Act.lift_apply _ _)]
      exact .notProposer (by simp) hproposer

/-- **What an accepted header satisfies.** -/
theorem verifyHeader_eq_ok {h : Header} {pos pos' : PoSEngine}
    (hok : verifyHeader P h pos = (.ok (), pos')) :
    pos.selectProposer h.height = .ok h.coinbase ∧
      pos.NotDoubleSigned h.height h.coinbase (BlockHasher.hash P h) := by
  have hstep := verifyHeader_step (P := P) h pos
  rw [hok] at hstep
  cases hstep with
  | notProposer stop _ => exact absurd rfl (stop ())
  | accepted proposer unseen => exact ⟨proposer, unseen⟩

/-- The proposer's header is accepted when no other one of theirs is recorded. -/
theorem verifyHeader_of_unseen {h : Header} {pos : PoSEngine}
    (proposer : pos.selectProposer h.height = .ok h.coinbase)
    (hunseen : pos.NotDoubleSigned h.height h.coinbase (BlockHasher.hash P h)) :
    verifyHeader P h pos =
      (.ok (), recordHeader h.height h.coinbase (BlockHasher.hash P h) pos) := by
  have hstep := verifyHeader_step (P := P) h pos
  rcases hcall : verifyHeader P h pos with ⟨o, pos'⟩
  rw [hcall] at hstep
  cases hstep with
  | notProposer _ other => exact absurd proposer other
  | doubleSigned _ seen => exact absurd hunseen seen
  | accepted _ _ => rfl

/-- The first header of the proposer at a height is accepted. -/
theorem verifyHeader_of_free {h : Header} {pos : PoSEngine}
    (proposer : pos.selectProposer h.height = .ok h.coinbase)
    (hfree : (pos.seenAt h.height).lookup h.coinbase = none) :
    verifyHeader P h pos =
      (.ok (), recordHeader h.height h.coinbase (BlockHasher.hash P h) pos) := by
  apply verifyHeader_of_unseen proposer
  intro existing hexisting
  rw [hfree] at hexisting
  exact absurd hexisting (by simp)

/-- A header with another hash than the recorded one is refused. -/
theorem verifyHeader_of_seen {h : Header} {pos : PoSEngine} {existing : Hash}
    (proposer : pos.selectProposer h.height = .ok h.coinbase)
    (hseen : (pos.seenAt h.height).lookup h.coinbase = some existing)
    (hne : existing ≠ BlockHasher.hash P h) :
    verifyHeader P h pos = (.err (.doubleSigned h.coinbase h.height), pos) := by
  have hstep := verifyHeader_step (P := P) h pos
  rcases hcall : verifyHeader P h pos with ⟨o, pos'⟩
  rw [hcall] at hstep
  cases hstep with
  | notProposer _ other => exact absurd proposer other
  | doubleSigned _ _ => rfl
  | accepted _ unseen => exact absurd (unseen existing hseen) hne

end PoSEngine

end Blockz
