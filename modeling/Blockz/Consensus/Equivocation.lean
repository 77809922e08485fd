import Blockz.Consensus.PoS
import Blockz.Crypto.Instance
import Blockz.Framework.History

/-!
# No two headers from one proposer at one height

A proof-of-stake engine is driven by four calls: validators are added and slashed, headers are
prepared and checked. Membership changes move the map from heights to proposers; the record of seen
headers is not touched by them, and an entry of it is never replaced by another hash.

* `Recorded` — every accepted header is in the record, under its height and its coinbase.
* `Recorded.driven` — every call keeps that.
* `no_equivocation` — over every sequence of calls the accepted headers of one height and one
  coinbase have one hash, and an accepted header is accepted again as long as the active set is the
  same.
-/

namespace Blockz

open Effect

namespace PoSEngine

/-- The calls that drive an engine. -/
inductive Drive
  | addValidator (addr : Address) (stake : UInt64)
  | slash (addr : Address)
  | prepare (h : Header)
  | verifyHeader (h : Header)

/-- One call, its answer, and the engine it leaves. -/
def Driven (P : Primitives) (pos : PoSEngine) : Drive → Outcome Err Unit → PoSEngine → Prop
  | .addValidator addr stake, o, pos' => o = .ok () ∧ pos' = pos.addValidator addr stake
  | .slash addr, o, pos' => o = .ok () ∧ pos' = pos.slash addr
  | .prepare h, o, pos' => (o = do let _ ← pos.prepare h; pure ()) ∧ pos' = pos
  | .verifyHeader h, o, pos' => PoSEngine.verifyHeader P h pos = (o, pos')

variable {P : Primitives}

/-- The calls recorded in `es` include one that has accepted `h`. -/
def Accepted (es : List (Drive × Outcome Err Unit)) (h : Header) : Prop :=
  (Drive.verifyHeader h, .ok ()) ∈ es

/-- Every header of `hs` is in the record. -/
def Recorded (P : Primitives) (hs : Header → Prop) (pos : PoSEngine) : Prop :=
  ∀ h, hs h → (pos.seenAt h.height).lookup h.coinbase = some (BlockHasher.hash P h)

theorem seenAt_addValidator (addr : Address) (stake : UInt64) (pos : PoSEngine) (i : UInt32) :
    (pos.addValidator addr stake).seenAt i = pos.seenAt i := rfl

theorem seenAt_slash (addr : Address) (pos : PoSEngine) (i : UInt32) :
    (pos.slash addr).seenAt i = pos.seenAt i := by
  unfold slash
  split <;> rfl

/-- A header that passes the check comes to the record and drives nothing out of it. -/
theorem Recorded.recordHeader {hs : Header → Prop} {pos : PoSEngine} {g : Header}
    (hpos : Recorded P hs pos)
    (unseen : pos.NotDoubleSigned g.height g.coinbase (BlockHasher.hash P g)) :
    Recorded P (fun h => hs h ∨ h = g)
      (PoSEngine.recordHeader g.height g.coinbase (BlockHasher.hash P g) pos) := by
  intro h hh
  rw [lookup_seenAt_recordHeader]
  by_cases hslot : h.height = g.height ∧ h.coinbase = g.coinbase
  · rw [if_pos hslot]
    rcases hh with hold | rfl
    · -- the slot was taken, and only the same hash gets past the check
      have hseen := hpos h hold
      rw [hslot.1, hslot.2] at hseen
      rw [unseen _ hseen]
    · rfl
  · rw [if_neg hslot]
    rcases hh with hold | rfl
    · exact hpos h hold
    · exact absurd ⟨rfl, rfl⟩ hslot

/-- **An entry is never replaced.** What is recorded stays recorded, and an accepted header comes to
it. -/
theorem Recorded.driven {hs : Header → Prop} {pos pos' : PoSEngine} {d : Drive}
    {o : Outcome Err Unit} (hpos : Recorded P hs pos) (hcall : Driven P pos d o pos') :
    Recorded P (fun h => hs h ∨ d = .verifyHeader h ∧ o = .ok ()) pos' := by
  -- the calls that do not check a header leave the record alone
  have hkept : ∀ {pos' : PoSEngine}, (∀ i, pos'.seenAt i = pos.seenAt i) →
      (∀ h, ¬ d = .verifyHeader h) →
      Recorded P (fun h => hs h ∨ d = .verifyHeader h ∧ o = .ok ()) pos' := by
    intro pos' hseen hother h hh
    rw [hseen]
    exact hpos h (hh.resolve_right fun hd => hother h hd.1)
  cases d with
  | addValidator addr stake =>
    obtain ⟨-, rfl⟩ := hcall
    exact hkept (seenAt_addValidator addr stake pos) fun h => by simp
  | slash addr =>
    obtain ⟨-, rfl⟩ := hcall
    exact hkept (seenAt_slash addr pos) fun h => by simp
  | prepare h =>
    obtain ⟨-, rfl⟩ := hcall
    exact hkept (fun _ => rfl) fun h => by simp
  | verifyHeader g =>
    change PoSEngine.verifyHeader P g pos = (o, pos') at hcall
    have hstep := verifyHeader_step (P := P) g pos
    rw [hcall] at hstep
    cases hstep with
    | notProposer stop _ =>
      intro h hh
      exact hpos h (hh.resolve_right fun hd => stop () hd.2)
    | doubleSigned _ _ =>
      intro h hh
      exact hpos h (hh.resolve_right fun hd => by simp at hd)
    | accepted _ unseen =>
      intro h hh
      refine hpos.recordHeader unseen h (hh.imp_right fun hd => ?_)
      exact (Drive.verifyHeader.inj hd.1).symm

/-- The record over a whole run. -/
theorem Recorded.run {hs : Header → Prop} {pos pos' : PoSEngine}
    {es : List (Drive × Outcome Err Unit)} (hrun : History (Driven P) pos es pos')
    (hpos : Recorded P hs pos) : Recorded P (fun h => hs h ∨ Accepted es h) pos' := by
  refine hrun.recorded (fun es pos' => Recorded P (fun h => hs h ∨ Accepted es h) pos') ?_ ?_
  · intro h hh
    exact hpos h (hh.resolve_right List.not_mem_nil)
  · intro es pos d o pos' _ hpos hcall h hh
    refine hpos.driven hcall h ?_
    rcases hh with hold | hmem
    · exact Or.inl (Or.inl hold)
    · rcases List.mem_append.mp hmem with hmem | hlast
      · exact Or.inl (Or.inr hmem)
      · obtain ⟨hd, ho⟩ := Prod.mk.inj (List.mem_singleton.mp hlast)
        exact Or.inr ⟨hd.symm, ho.symm⟩

/-- The active set alone decides who proposes. -/
theorem selectProposer_congr {pos pos' : PoSEngine} (hactive : pos'.activeSet = pos.activeSet)
    (height : UInt32) : pos'.selectProposer height = pos.selectProposer height := by
  unfold selectProposer
  rw [hactive]

/-- **Proof of stake does not accept equivocation.** Over every sequence of calls, two accepted
headers of one height and one coinbase have the same hash. A header that was accepted is accepted
again after any further calls, if the active set is what it was. -/
theorem no_equivocation :
    (∀ {pos₀ pos : PoSEngine} {es : List (Drive × Outcome Err Unit)},
        History (Driven P) pos₀ es pos → ∀ h₁ h₂, Accepted es h₁ → Accepted es h₂ →
        h₁.height = h₂.height → h₁.coinbase = h₂.coinbase →
        BlockHasher.hash P h₁ = BlockHasher.hash P h₂) ∧
      ∀ {pos₁ pos₂ pos₃ : PoSEngine} {es : List (Drive × Outcome Err Unit)} {h : Header},
        verifyHeader P h pos₁ = (.ok (), pos₂) → History (Driven P) pos₂ es pos₃ →
        pos₃.activeSet = pos₁.activeSet → (verifyHeader P h pos₃).1 = .ok () := by
  constructor
  · intro pos₀ pos es hrun h₁ h₂ hacc₁ hacc₂ hheight hcoinbase
    have hnone : Recorded P (fun _ => False) pos₀ := fun _ => False.elim
    have hrec := hnone.run hrun
    have hseen₁ := hrec h₁ (Or.inr hacc₁)
    have hseen₂ := hrec h₂ (Or.inr hacc₂)
    rw [hheight, hcoinbase, hseen₂] at hseen₁
    exact (Option.some.inj hseen₁).symm
  · intro pos₁ pos₂ pos₃ es h haccept hlater hactive
    have hnone : Recorded P (fun _ => False) pos₁ := fun _ => False.elim
    have hfirst := hnone.driven (show Driven P pos₁ (.verifyHeader h) (.ok ()) pos₂ from haccept)
    have hseen := hfirst.run hlater h (Or.inl (Or.inr ⟨rfl, rfl⟩))
    have hproposer : pos₃.selectProposer h.height = .ok h.coinbase := by
      rw [selectProposer_congr hactive]
      exact (verifyHeader_eq_ok haccept).1
    have hunseen : pos₃.NotDoubleSigned h.height h.coinbase (BlockHasher.hash P h) := by
      intro existing hexisting
      exact Option.some.inj (hexisting.symm.trans hseen)
    rw [verifyHeader_of_unseen hproposer hunseen]

/-- An engine with one validator. -/
def soleValidator : PoSEngine := newPoSEngine.addValidator (sampleAddress 1) 10

/-- A header of that validator, and another one for the same height. -/
def firstHeader : Header := sampleHeader sampleGenesis [] (sampleAddress 1)

def rivalHeader : Header := { firstHeader with nonce := 1 }

/-- The engine once it has accepted the header, and a second validator has come and gone. -/
def afterFirst : PoSEngine :=
  recordHeader 1 (sampleAddress 1) (BlockHasher.hash .sample firstHeader) soleValidator

def afterVisit : PoSEngine :=
  (afterFirst.addValidator (sampleAddress 2) 5).slash (sampleAddress 2)

/-- The header is accepted a second time, and the other one is not accepted at all. -/
theorem no_equivocation_visit :
    (verifyHeader .sample firstHeader afterVisit).1 = .ok () ∧
      ∀ o pos, Driven .sample afterVisit (.verifyHeader rivalHeader) o pos → o ≠ .ok () := by
  have hfirst : verifyHeader .sample firstHeader soleValidator = (.ok (), afterFirst) :=
    verifyHeader_of_free (by decide) rfl
  have hvisit : ∀ {pos₀ : PoSEngine} {es : List (Drive × Outcome Err Unit)},
      History (Driven .sample) pos₀ es afterFirst → History (Driven .sample) pos₀
        (es ++ [(.addValidator (sampleAddress 2) 5, .ok ())] ++
          [(.slash (sampleAddress 2), .ok ())]) afterVisit :=
    fun hpast => .call (.call hpast ⟨rfl, rfl⟩) ⟨rfl, rfl⟩
  constructor
  · exact no_equivocation.2 hfirst (hvisit .start) (by decide)
  · rintro o pos hrival rfl
    have hpast : History (Driven .sample) soleValidator [(.verifyHeader firstHeader, .ok ())]
        afterFirst := .call .start hfirst
    have hrun := (hvisit hpast).call hrival
    have hsame := no_equivocation.1 hrun firstHeader rivalHeader (by simp [Accepted])
      (by simp [Accepted]) rfl rfl
    exact absurd hsame (by decide +kernel)

end PoSEngine

end Blockz
