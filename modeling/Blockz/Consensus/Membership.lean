import Blockz.Consensus.Equivocation

/-!
# Who is a validator

`AddValidator` gives an address a stake and a seat in the active set, and a second call gives it
another seat. `Slash` takes all seats of an address away, but only if the address has a stake. The
two fields therefore have to be seen together: every address with a seat has a stake (`Registered`),
and so no seat escapes `Slash`.

`slashed_stays_out` says what follows for a whole history of an engine: between `Slash(v)` and the
next `AddValidator(v)` the address has no part in consensus.
-/

namespace Blockz

open Effect

namespace PoSEngine

variable {P : Primitives} {pos pos' : PoSEngine} {v : Address}

/-! ### Stakes and seats after a slashing -/

theorem lookup_validators_slash (a v : Address) (pos : PoSEngine) :
    (slash a pos).validators.lookup v =
      if v = a then (pos.validators.lookup a).map (· / 2) else pos.validators.lookup v := by
  unfold slash
  cases ha : pos.validators.lookup a with
  | none =>
    by_cases hv : v = a
    · rw [if_pos hv, hv, ha]
      rfl
    · rw [if_neg hv]
  | some stake =>
    by_cases hv : v = a
    · subst hv
      rw [if_pos rfl]
      exact Finmap.lookup_insert _
    · rw [if_neg hv]
      exact Finmap.lookup_insert_of_ne _ hv

theorem mem_validators_slash (a v : Address) (pos : PoSEngine) :
    v ∈ (slash a pos).validators ↔ v ∈ pos.validators := by
  rw [← Finmap.lookup_isSome, ← Finmap.lookup_isSome, lookup_validators_slash]
  by_cases hv : v = a
  · rw [if_pos hv, hv, Option.isSome_map]
  · rw [if_neg hv]

/-- Only a registered address loses its seats. -/
theorem mem_activeSet_slash (a v : Address) (pos : PoSEngine) :
    v ∈ (slash a pos).activeSet ↔ v ∈ pos.activeSet ∧ (v = a → v ∉ pos.validators) := by
  unfold slash
  cases ha : pos.validators.lookup a with
  | none =>
    have hnot : a ∉ pos.validators := Finmap.lookup_eq_none.mp ha
    refine ⟨fun hv => ⟨hv, ?_⟩, fun hv => hv.1⟩
    rintro rfl
    exact hnot
  | some stake =>
    have hmem : a ∈ pos.validators := Finmap.mem_of_lookup_eq_some ha
    change v ∈ pos.activeSet.filter (· ≠ a) ↔ _
    rw [List.mem_filter, decide_eq_true_iff]
    refine and_congr_right fun _ => ⟨fun hne heq => absurd heq hne, fun himp heq => ?_⟩
    subst heq
    exact himp rfl hmem

/-! ### What each call does to the two fields -/

/-- Validators and active set are the same. -/
structure SameStakes (pos pos' : PoSEngine) : Prop where
  validators : pos'.validators = pos.validators
  activeSet : pos'.activeSet = pos.activeSet

instance : Std.Refl SameStakes where
  refl _ := ⟨rfl, rfl⟩

instance : IsTrans PoSEngine SameStakes where
  trans _ _ _ h₁ h₂ := ⟨h₂.1.trans h₁.1, h₂.2.trans h₁.2⟩

/-- Checking a header touches neither the stakes nor the seats. -/
theorem verifyHeader_moves (h : Header) : Act.Moves SameStakes (verifyHeader P h) := by
  refine Act.Moves.get.bind fun pos => (Act.Moves.lift _).bind fun expected => ?_
  refine (Act.Moves.lift _).bind fun _ => Act.Moves.bind (fun _ => ⟨rfl, rfl⟩) fun _ => ?_
  exact (Act.Moves.lift _).bind fun _ _ => ⟨rfl, rfl⟩

theorem SameStakes.of_verifyHeader {h : Header} {o : Outcome Err Unit}
    (hcall : verifyHeader P h pos = (o, pos')) : SameStakes pos pos' := by
  have hsame := verifyHeader_moves (P := P) h pos
  rwa [hcall] at hsame

/-- Every address with a seat has a stake. -/
def Registered (pos : PoSEngine) : Prop := ∀ a ∈ pos.activeSet, a ∈ pos.validators

theorem Registered.driven {d : Drive} {o : Outcome Err Unit} (hpos : pos.Registered)
    (hcall : Driven P pos d o pos') : pos'.Registered := by
  intro a ha
  cases d with
  | addValidator addr stake =>
    obtain ⟨-, rfl⟩ := hcall
    refine Finmap.mem_insert.mpr ?_
    rcases List.mem_append.mp ha with hold | hnew
    · exact Or.inr (hpos a hold)
    · exact Or.inl (List.mem_singleton.mp hnew)
  | slash addr =>
    obtain ⟨-, rfl⟩ := hcall
    rw [mem_validators_slash]
    exact hpos a ((mem_activeSet_slash addr a pos).mp ha).1
  | prepare h =>
    obtain ⟨-, rfl⟩ := hcall
    exact hpos a ha
  | verifyHeader h =>
    have hsame : SameStakes pos pos' := .of_verifyHeader hcall
    rw [hsame.activeSet] at ha
    rw [hsame.validators]
    exact hpos a ha

/-- An address without a seat gets one from `AddValidator` only. -/
theorem Driven.not_mem {d : Drive} {o : Outcome Err Unit} (hcall : Driven P pos d o pos')
    (hout : v ∉ pos.activeSet) (hother : ∀ stake, d ≠ .addValidator v stake) :
    v ∉ pos'.activeSet := by
  cases d with
  | addValidator addr stake =>
    obtain ⟨-, rfl⟩ := hcall
    intro hmem
    rcases List.mem_append.mp hmem with hold | hnew
    · exact hout hold
    · obtain rfl : v = addr := List.mem_singleton.mp hnew
      exact hother stake rfl
  | slash addr =>
    obtain ⟨-, rfl⟩ := hcall
    exact fun hmem => hout ((mem_activeSet_slash addr v pos).mp hmem).1
  | prepare h =>
    obtain ⟨-, rfl⟩ := hcall
    exact hout
  | verifyHeader h =>
    rw [(SameStakes.of_verifyHeader hcall).activeSet]
    exact hout

/-! ### Without a seat -/

/-- The proposer of a height has a seat; on an empty active set there is none. -/
theorem selectProposer_cases (pos : PoSEngine) (height : UInt32) :
    (∃ a ∈ pos.activeSet, pos.selectProposer height = .ok a) ∨
      pos.selectProposer height = .err .noActiveValidators := by
  unfold selectProposer
  by_cases hempty : pos.activeSet.length = 0
  · rw [if_pos hempty]
    exact Or.inr rfl
  · have hlt : height.toNat % pos.activeSet.length < pos.activeSet.length :=
      Nat.mod_lt _ (Nat.pos_of_ne_zero hempty)
    rw [if_neg hempty, List.getElem?_eq_getElem hlt]
    exact Or.inl ⟨_, List.getElem_mem hlt, rfl⟩

/-- The address has no part in consensus. -/
structure ShutOut (P : Primitives) (pos : PoSEngine) (v : Address) : Prop where
  inactive : v ∉ pos.activeSet
  notSelected : ∀ height, pos.selectProposer height ≠ .ok v
  notPrepared : ∀ h h', pos.prepare h = .ok h' → h'.coinbase ≠ v
  rejected : ∀ h, h.coinbase = v → ∃ e, verifyHeader P h pos = (.err e, pos)

theorem shutOut_of_not_mem (hout : v ∉ pos.activeSet) : ShutOut P pos v := by
  have hselect : ∀ height, pos.selectProposer height ≠ .ok v := by
    intro height hv
    rcases pos.selectProposer_cases height with ⟨a, ha, hok⟩ | herr
    · obtain rfl : a = v := Outcome.ok.inj (hok.symm.trans hv)
      exact hout ha
    · rw [herr] at hv
      exact nomatch hv
  refine ⟨hout, hselect, ?_, ?_⟩
  · rintro h h' hprep rfl
    obtain ⟨proposer, hproposer, hh'⟩ := Outcome.bind_eq_ok.mp hprep
    obtain rfl := Outcome.ok.inj hh'
    exact hselect h.height hproposer
  · rintro h rfl
    unfold verifyHeader
    rw [Act.get_bind_apply]
    rcases pos.selectProposer_cases h.height with ⟨a, ha, hok⟩ | herr
    · have hother : a ≠ h.coinbase := fun heq => hout (heq ▸ ha)
      rw [hok, Act.bind_apply_ok (Act.lift_apply _ _), Outcome.require_eq_err.mpr ⟨hother, rfl⟩,
        Act.bind_apply_err (Act.lift_apply _ _)]
      exact ⟨_, rfl⟩
    · rw [herr, Act.bind_apply_err (Act.lift_apply _ _)]
      exact ⟨_, rfl⟩

/-- `v` has been slashed, and it has not been added since. -/
def SlashedSince (es : List (Drive × Outcome Err Unit)) (v : Address) : Prop :=
  ∃ pre o post, es = pre ++ [(.slash v, o)] ++ post ∧
    ∀ stake o, (Drive.addValidator v stake, o) ∉ post

/-- **A slashed validator stays out** until it is added again, and seats go with stakes at all
times. -/
theorem slashed_stays_out {es : List (Drive × Outcome Err Unit)}
    (hrun : History (Driven P) newPoSEngine es pos) :
    pos.Registered ∧ ∀ v, SlashedSince es v → ShutOut P pos v := by
  have hregistered : ∀ {es : List (Drive × Outcome Err Unit)} {pos : PoSEngine},
      History (Driven P) newPoSEngine es pos → pos.Registered := fun hrun =>
    hrun.invariant Registered (fun a ha => absurd ha List.not_mem_nil)
      fun _ _ _ _ hpos hcall => hpos.driven hcall
  refine ⟨hregistered hrun, ?_⟩
  rintro v ⟨pre, o, post, rfl, hpost⟩
  obtain ⟨mid, hslash, hafter⟩ := hrun.split
  obtain ⟨before, hbefore, -, hmid⟩ := hslash.last_call
  obtain rfl : mid = before.slash v := hmid
  -- every seat of `v` was one of a registered address
  have hgone : v ∉ (before.slash v).activeSet := by
    intro hmem
    obtain ⟨hseat, hunregistered⟩ := (mem_activeSet_slash v v before).mp hmem
    exact hunregistered rfl (hregistered hbefore v hseat)
  refine shutOut_of_not_mem ?_
  refine hafter.recorded (fun post pos => (∀ stake o, (Drive.addValidator v stake, o) ∉ post) →
    v ∉ pos.activeSet) (fun _ => hgone) ?_ hpost
  intro post pos d o pos' _ ih hcall hnone
  refine hcall.not_mem (ih fun stake o hmem => hnone stake o (List.mem_append_left _ hmem)) ?_
  rintro stake rfl
  exact hnone stake o (List.mem_append_right _ (List.mem_singleton_self _))

/-- A validator with two seats is slashed, and another one joins. -/
def afterSlashing : PoSEngine :=
  (((newPoSEngine.addValidator (sampleAddress 1) 10).addValidator (sampleAddress 1) 20).slash
    (sampleAddress 1)).addValidator (sampleAddress 2) 5

/-- Both seats are gone, and the newcomer proposes at every height. -/
theorem slashed_stays_out_twoSeats :
    ShutOut .sample afterSlashing (sampleAddress 1) ∧
      afterSlashing.selectProposer 7 = .ok (sampleAddress 2) := by
  have hjoined : History (Driven .sample) newPoSEngine
      [(.addValidator (sampleAddress 1) 10, .ok ()), (.addValidator (sampleAddress 1) 20, .ok ()),
        (.slash (sampleAddress 1), .ok ()), (.addValidator (sampleAddress 2) 5, .ok ())]
      afterSlashing :=
    .cons ⟨rfl, rfl⟩ (.cons ⟨rfl, rfl⟩ (.cons ⟨rfl, rfl⟩ (.cons ⟨rfl, rfl⟩ .start)))
  have hslashed : SlashedSince
      [(.addValidator (sampleAddress 1) 10, .ok ()), (.addValidator (sampleAddress 1) 20, .ok ()),
        (.slash (sampleAddress 1), .ok ()), (.addValidator (sampleAddress 2) 5, .ok ())]
      (sampleAddress 1) := by
    refine ⟨[(.addValidator (sampleAddress 1) 10, .ok ()),
      (.addValidator (sampleAddress 1) 20, .ok ())], .ok (),
      [(.addValidator (sampleAddress 2) 5, .ok ())], rfl, fun stake o hmem => ?_⟩
    obtain ⟨hother, -⟩ := Prod.mk.inj (List.mem_singleton.mp hmem)
    exact absurd (Drive.addValidator.inj hother).1 (by decide)
  exact ⟨(slashed_stays_out hjoined).2 _ hslashed, by decide⟩

end PoSEngine

end Blockz
