import Blockz.Chain.Authenticity

/-!
# What a rejected block leaves in the engine

Under proof of stake the header check comes before the signature check, and it records the hash of
every header that it accepts. A block that is refused afterwards, by `Block.Verify`, has left its
hash behind; the honest block of the same proposer and height is then refused as a double signature.

* `validate_keeps` — a block that takes no free slot leaves the chain as it was, to the last field.
* `validate_poisons` — a block that takes one leaves its hash there, whatever the verdict is.
* `verdicts_eq_iff` — a rejected block changes no later verdict exactly when it takes no free slot.
-/

namespace Blockz

open Effect

namespace Blockchain

open PoSEngine

variable {S : Type} {P : Primitives}

/-- The block stands in the right place, its coinbase is the proposer of that height, and no header
of that proposer is recorded there yet. -/
def TakesFreeSlot (P : Primitives) (bc : Blockchain PoSEngine S) (pos : PoSEngine) (b : Block) :
    Prop :=
  ∃ h, b.header = some h ∧ bc.checkPosition P b h = .ok () ∧
    pos.selectProposer h.height = .ok h.coinbase ∧ (pos.seenAt h.height).lookup h.coinbase = none

/-! ### One submission -/

theorem verifyConsensus_some {bc : Blockchain PoSEngine S} {pos : PoSEngine}
    (hengine : bc.consensus = some pos) (h : Header) :
    verifyConsensus P h bc =
      ((verifyHeader P h pos).1, { bc with consensus := some (verifyHeader P h pos).2 }) := by
  unfold verifyConsensus
  rw [hengine]
  rfl

/-- Whatever the block is worth, validation leaves the engine as the header check left it. -/
theorem validate_state {bc : Blockchain PoSEngine S} {b : Block} {h : Header}
    (hh : b.header = some h) (hpos : bc.checkPosition P b h = .ok ()) :
    (validateBlockLocked P b bc).2 = (verifyConsensus P h bc).2 := by
  rw [validateBlockLocked_of_position hh hpos]
  rcases hcall : verifyConsensus P h bc with ⟨o, bc₁⟩
  cases o with
  | ok _ =>
    rw [Act.bind_apply_ok hcall]
    rfl
  | err e => rw [Act.bind_apply_err hcall]
  | panic p => rw [Act.bind_apply_panic hcall]
  | outOfFuel => rw [Act.bind_apply_outOfFuel hcall]

/-- **A block that takes no free slot leaves no trace.** -/
theorem validate_keeps {bc : Blockchain PoSEngine S} {pos : PoSEngine} {b : Block}
    (hengine : bc.consensus = some pos) (hfree : ¬ TakesFreeSlot P bc pos b) :
    (validateBlockLocked P b bc).2 = bc := by
  by_cases hplaced : ∃ h, b.header = some h ∧ bc.checkPosition P b h = .ok ()
  case neg =>
    exact validateBlockLocked_of_misplaced fun h hh hpos => hplaced ⟨h, hh, hpos⟩
  case pos =>
    obtain ⟨h, hh, hpos⟩ := hplaced
    have hsame : { bc with consensus := some pos } = bc := by rw [← hengine]
    rw [validate_state hh hpos, verifyConsensus_some hengine]
    have hstep := verifyHeader_step (P := P) h pos
    rcases hcall : verifyHeader P h pos with ⟨o, pos'⟩
    rw [hcall] at hstep
    cases hstep with
    | notProposer _ _ => exact hsame
    | doubleSigned _ _ => exact hsame
    | accepted proposer unseen =>
      -- the slot is taken, and the header in it has the same hash
      cases hseen : (pos.seenAt h.height).lookup h.coinbase with
      | none => exact absurd ⟨h, hh, hpos, proposer, hseen⟩ hfree
      | some existing =>
        have heq := unseen existing hseen
        rw [heq] at hseen
        change { bc with consensus := some (recordHeader _ _ _ pos) } = bc
        rw [recordHeader_of_seen hseen]
        exact hsame

/-- **A block that takes a free slot keeps it**, also when it is refused. -/
theorem validate_poisons {bc : Blockchain PoSEngine S} {pos : PoSEngine} {b : Block} {h : Header}
    (hengine : bc.consensus = some pos) (hh : b.header = some h)
    (hpos : bc.checkPosition P b h = .ok ())
    (proposer : pos.selectProposer h.height = .ok h.coinbase)
    (hfree : (pos.seenAt h.height).lookup h.coinbase = none) :
    (validateBlockLocked P b bc).2 =
      { bc with
        consensus := some (recordHeader h.height h.coinbase (BlockHasher.hash P h) pos) } := by
  rw [validate_state hh hpos, verifyConsensus_some hengine, verifyHeader_of_free proposer hfree]

/-- The verdict on the first header of the proposer is the block's own. -/
theorem validate_of_free {bc : Blockchain PoSEngine S} {pos : PoSEngine} {b : Block} {h : Header}
    (hengine : bc.consensus = some pos) (hh : b.header = some h)
    (hpos : bc.checkPosition P b h = .ok ())
    (proposer : pos.selectProposer h.height = .ok h.coinbase)
    (hfree : (pos.seenAt h.height).lookup h.coinbase = none) :
    (validateBlockLocked P b bc).1 = b.verify P := by
  have hcall := verifyConsensus_some (P := P) hengine h
  rw [verifyHeader_of_free proposer hfree] at hcall
  rw [validateBlockLocked_of_position hh hpos, Act.bind_apply_ok hcall]
  rfl

/-- Where another hash is recorded, no block is good enough. -/
theorem validate_of_seen {bc : Blockchain PoSEngine S} {pos : PoSEngine} {b : Block} {h : Header}
    {existing : Hash} (hengine : bc.consensus = some pos) (hh : b.header = some h)
    (hpos : bc.checkPosition P b h = .ok ())
    (proposer : pos.selectProposer h.height = .ok h.coinbase)
    (hseen : (pos.seenAt h.height).lookup h.coinbase = some existing)
    (hne : existing ≠ BlockHasher.hash P h) :
    (validateBlockLocked P b bc).1 = .err (.doubleSigned h.coinbase h.height) := by
  have hcall := verifyConsensus_some (P := P) hengine h
  rw [verifyHeader_of_seen proposer hseen hne] at hcall
  rw [validateBlockLocked_of_position hh hpos, Act.bind_apply_err hcall]

/-! ### Two futures -/

/-- A later use of the validator: on its own, or at the start of `AddBlock`. -/
inductive Submission
  | validateBlock (b : Block)
  | addBlock (fuel : ℕ) (b : Block)

def Submission.block : Submission → Block
  | validateBlock b => b
  | addBlock _ b => b

variable [Storage P S]

/-- The chain after a submission. -/
def Submission.next (P : Primitives) [Storage P S] (bc : Blockchain PoSEngine S) :
    Submission → Blockchain PoSEngine S
  | validateBlock b => (validateBlockLocked P b bc).2
  | addBlock fuel b => (Blockchain.addBlock P fuel b bc).2

/-- What `ValidateBlockLocked` answers to one submission after the other. -/
def verdicts (P : Primitives) [Storage P S] :
    List Submission → Blockchain PoSEngine S → List (Outcome Err Unit)
  | [], _ => []
  | sub :: subs, bc => (validateBlockLocked P sub.block bc).1 :: verdicts P subs (sub.next P bc)

omit [Storage P S] in
/-- The place of a block is its height and its link. -/
theorem checkPosition_of_slot {bc : Blockchain PoSEngine S} {b b' : Block} {h h' : Header}
    (hok : bc.checkPosition P b h = .ok ()) (hheight : h'.height = h.height)
    (hprev : h'.prevBlockHash = h.prevBlockHash) : bc.checkPosition P b' h' = .ok () := by
  rw [checkPosition_eq_ok] at hok ⊢
  rwa [hheight, hprev]

/-- **When a rejected block changes no later verdict.** Some other header for the same slot has
another hash, as every hash function that is not constant provides. -/
theorem verdicts_eq_iff {bc bc' : Blockchain PoSEngine S} {pos : PoSEngine} {b : Block} {e : Err}
    (hreject : validateBlockLocked P b bc = (.err e, bc')) (hengine : bc.consensus = some pos)
    (hother : ∀ h, b.header = some h → ∃ h' : Header, h'.height = h.height ∧
      h'.coinbase = h.coinbase ∧ h'.prevBlockHash = h.prevBlockHash ∧
      BlockHasher.hash P h ≠ BlockHasher.hash P h') :
    (∀ subs, verdicts P subs bc' = verdicts P subs bc) ↔ ¬ TakesFreeSlot P bc pos b := by
  have hbc' : (validateBlockLocked P b bc).2 = bc' := by rw [hreject]
  constructor
  · rintro hsame ⟨h, hh, hpos, proposer, hfree⟩
    obtain ⟨h', hheight, hcoinbase, hprev, hne⟩ := hother h hh
    rw [← hbc', validate_poisons hengine hh hpos proposer hfree] at hsame
    -- an unsigned block with the other header: refused for its missing signature, or before that
    set rival : Block := { header := some h', transactions := [] } with hrival
    have hplaced : bc.checkPosition P rival h' = .ok () :=
      checkPosition_of_slot hpos hheight hprev
    have hproposer' : pos.selectProposer h'.height = .ok h'.coinbase := by
      rw [hheight, hcoinbase, proposer]
    have hfree' : (pos.seenAt h'.height).lookup h'.coinbase = none := by
      rw [hheight, hcoinbase, hfree]
    have hseen : ((recordHeader h.height h.coinbase (BlockHasher.hash P h) pos).seenAt
        h'.height).lookup h'.coinbase = some (BlockHasher.hash P h) := by
      rw [lookup_seenAt_recordHeader, if_pos ⟨hheight, hcoinbase⟩]
    have hbefore := validate_of_free hengine (b := rival) rfl hplaced hproposer' hfree'
    have hafter : (validateBlockLocked P rival { bc with
        consensus := some (recordHeader h.height h.coinbase (BlockHasher.hash P h) pos) }).1 = _ :=
      validate_of_seen rfl rfl hplaced hproposer' hseen hne
    have hhead := List.head_eq_of_cons_eq (hsame [.validateBlock rival])
    change (validateBlockLocked P rival _).1 = (validateBlockLocked P rival bc).1 at hhead
    rw [hafter, hbefore] at hhead
    exact absurd hhead (by simp [hrival, Block.verify])
  · intro hfree subs
    rw [← hbc', validate_keeps hengine hfree]

/-- A block in the name of the proposer that nobody has signed. -/
def unsignedHeader : Header := { authenticHeader with nonce := 1 }

def unsignedBlock : Block := { header := some unsignedHeader, transactions := [] }

/-- The criterion for the unsigned block. -/
theorem verdicts_eq_iff_unsignedBlock :
    (validateBlockLocked .sample unsignedBlock stakedChain).1 = .err .blockUnsigned ∧
      ((∀ subs, verdicts .sample subs (validateBlockLocked .sample unsignedBlock stakedChain).2 =
          verdicts .sample subs stakedChain) ↔
        ¬ TakesFreeSlot .sample stakedChain stakedEngine unsignedBlock) := by
  have hreject :
      (validateBlockLocked .sample unsignedBlock stakedChain).1 = .err .blockUnsigned := by
    decide +kernel
  have hcall : validateBlockLocked .sample unsignedBlock stakedChain =
      (.err .blockUnsigned, (validateBlockLocked .sample unsignedBlock stakedChain).2) :=
    Act.eq_mk_of_fst hreject
  have hengine : stakedChain.consensus = some stakedEngine := rfl
  refine ⟨hreject, verdicts_eq_iff hcall hengine ?_⟩
  rintro h hh
  obtain rfl : unsignedHeader = h := Option.some.inj hh
  exact ⟨authenticHeader, rfl, rfl, rfl, by decide +kernel⟩

/-- **An unsigned block locks the proposer out.** The proposer's block is accepted by the chain as
it is. Once the unsigned block has been submitted and refused, it is refused as a double signature.
-/
theorem validate_refuses_after_rejected :
    (validateBlockLocked .sample unsignedBlock stakedChain).1 = .err .blockUnsigned ∧
      (validateBlockLocked .sample authenticBlock stakedChain).1 = .ok () ∧
      (validateBlockLocked .sample authenticBlock
          (validateBlockLocked .sample unsignedBlock stakedChain).2).1 =
        .err (.doubleSigned (sampleAddress 1) 1) := by
  decide +kernel

end Blockchain

end Blockz
