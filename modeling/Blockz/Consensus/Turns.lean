import Blockz.Consensus.Membership
import Mathlib.Data.List.Dedup
import Mathlib.Data.Nat.ModEq

/-!
# Turns

The proposer of a height is the validator at the place `height % n` of the active set. Over `n`
consecutive heights every place comes up once (`existsUnique_mod_eq`), so every validator has one
turn if it has one seat. `AddValidator` does not look whether the address has a seat already: a
second call, say to change a stake, gives it another turn and takes one from the validators behind
it.

* `takesTurns_iff` — on one active set.
* `turns_iff_newSeat` — along a history: every validator has one turn in every round, at all times,
  exactly if `AddValidator` is called for addresses without a seat only.
-/

namespace Blockz

open Effect

namespace PoSEngine

variable {P : Primitives} {pos pos' : PoSEngine}

/-- Every residue comes up once among `n` consecutive numbers. -/
theorem existsUnique_mod_eq {n i : ℕ} (hi : i < n) (h : ℕ) :
    ∃! k, (h ≤ k ∧ k < h + n) ∧ k % n = i := by
  have hpos : 0 < n := Nat.zero_lt_of_lt hi
  have hplace : (h + (i + n - h % n) % n) % n = i := by
    have hround : h + (i + n - h % n) = i + n * (h / n + 1) := by
      have hlt := Nat.mod_lt h hpos
      have hdiv := Nat.div_add_mod h n
      rw [Nat.mul_add, Nat.mul_one]
      omega
    rw [Nat.add_mod_mod, hround, Nat.add_mul_mod_self_left, Nat.mod_eq_of_lt hi]
  refine ⟨h + (i + n - h % n) % n, ⟨⟨Nat.le_add_right _ _, ?_⟩, hplace⟩, ?_⟩
  · exact Nat.add_lt_add_left (Nat.mod_lt _ hpos) h
  · -- two numbers of the window that agree modulo `n` are one
    rintro k ⟨⟨hle, hup⟩, hk⟩
    obtain ⟨a, rfl⟩ := Nat.exists_eq_add_of_le hle
    have hmod : h + a ≡ h + (i + n - h % n) % n [MOD n] := hk.trans hplace.symm
    congr 1
    exact (Nat.ModEq.add_left_cancel' h hmod).eq_of_lt_of_lt (by omega) (Nat.mod_lt _ hpos)

/-- Every validator has one seat, and over as many heights as there are validators it is selected
once. -/
structure TakesTurns (pos : PoSEngine) : Prop where
  seats : pos.activeSet.Nodup
  turns : ∀ h, h + pos.activeSet.dedup.length ≤ 2 ^ 32 → ∀ v ∈ pos.activeSet,
    ∃! k, (h ≤ k ∧ k < h + pos.activeSet.dedup.length) ∧
      pos.selectProposer (UInt32.ofNat k) = .ok v

/-- Who is selected, by the place. -/
theorem selectProposer_eq_ok_iff (hseats : pos.activeSet.Nodup) {i k : ℕ}
    (hi : i < pos.activeSet.length) (hk : k < 2 ^ 32) :
    pos.selectProposer (UInt32.ofNat k) = .ok pos.activeSet[i] ↔ k % pos.activeSet.length = i := by
  have hmod : k % pos.activeSet.length < pos.activeSet.length := Nat.mod_lt _ (by omega)
  unfold selectProposer
  rw [if_neg (by omega), UInt32.toNat_ofNat_of_lt' hk, List.getElem?_eq_getElem hmod,
    Outcome.deref_eq_ok, Option.some.injEq]
  exact hseats.getElem_inj_iff

theorem takesTurns_iff : pos.TakesTurns ↔ pos.activeSet.Nodup := by
  refine ⟨TakesTurns.seats, fun hseats => ⟨hseats, fun h hround v hv => ?_⟩⟩
  obtain ⟨i, hi, rfl⟩ := List.getElem_of_mem hv
  rw [hseats.dedup] at hround ⊢
  refine (existsUnique_congr fun k => ?_).mpr (existsUnique_mod_eq hi h)
  exact and_congr_right fun hk => selectProposer_eq_ok_iff hseats hi (by omega)

/-! ### Along a history -/

/-- `AddValidator` is called for an address without a seat. -/
def NewSeat (pos : PoSEngine) : Drive → Prop
  | .addValidator addr _ => addr ∉ pos.activeSet
  | _ => True

/-- **One call.** -/
theorem nodup_driven_iff (hseats : pos.activeSet.Nodup) {d : Drive} {o : Outcome Err Unit}
    (hcall : Driven P pos d o pos') : pos'.activeSet.Nodup ↔ pos.NewSeat d := by
  cases d with
  | addValidator addr stake =>
    obtain ⟨-, rfl⟩ := hcall
    show (pos.activeSet ++ [addr]).Nodup ↔ addr ∉ pos.activeSet
    rw [← List.concat_eq_append, List.nodup_concat]
    exact and_iff_left hseats
  | slash addr =>
    obtain ⟨-, rfl⟩ := hcall
    refine iff_of_true ?_ trivial
    unfold slash
    split
    · exact hseats
    · exact hseats.filter _
  | prepare h =>
    obtain ⟨-, rfl⟩ := hcall
    exact iff_of_true hseats trivial
  | verifyHeader h =>
    rw [(SameStakes.of_verifyHeader hcall).activeSet]
    exact iff_of_true hseats trivial

/-- **One turn each, in every round**, at all times of a history, exactly if no address is added
while it has a seat. -/
theorem turns_iff_newSeat (es : List (Drive × Outcome Err Unit)) (pos : PoSEngine) :
    (∀ q, Passes (Driven P) newPoSEngine es pos q → q.TakesTurns) ↔
      ∀ q d, Takes (Driven P) newPoSEngine es pos q d → q.NewSeat d := by
  simp only [takesTurns_iff]
  exact History.passes_iff_takes List.nodup_nil
    fun _ _ _ _ _ _ hseats hcall => nodup_driven_iff hseats hcall

/-- A validator changes its stake before another one joins. -/
def restaked : PoSEngine :=
  ((newPoSEngine.addValidator (sampleAddress 1) 10).addValidator (sampleAddress 1)
    20).addValidator (sampleAddress 2) 5

/-- **A validator without a turn.** The first one has two seats, so it proposes at both heights of
the first round and the second one at neither. -/
theorem restaked_takes_two_turns :
    History (Driven .sample) newPoSEngine
        [(.addValidator (sampleAddress 1) 10, .ok ()), (.addValidator (sampleAddress 1) 20, .ok ()),
          (.addValidator (sampleAddress 2) 5, .ok ())] restaked ∧
      restaked.activeSet.dedup.length = 2 ∧
      restaked.selectProposer 0 = .ok (sampleAddress 1) ∧
      restaked.selectProposer 1 = .ok (sampleAddress 1) ∧ ¬ restaked.TakesTurns := by
  refine ⟨.cons ⟨rfl, rfl⟩ (.cons ⟨rfl, rfl⟩ (.cons ⟨rfl, rfl⟩ .start)), by decide, by decide,
    by decide, fun hturns => ?_⟩
  have hseats := hturns.seats
  revert hseats
  decide

end PoSEngine

end Blockz
