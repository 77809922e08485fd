import Blockz.Chain.Restart
import Blockz.Core.VMTrace

/-!
# More steps do not change an answer

`EVM.Run` has no bound of its own on the number of its rounds, so the model gives it one, and
`AddBlock` inherits the argument. A call that comes back within a number of rounds comes back with
the same answer and the same state for every larger number. Two successful calls on one block and
one chain therefore agree, whatever their bounds were (`Succeeded.unique`).
-/

namespace Blockz

open Effect

variable {P : Primitives} {fuel fuel' : ℕ}

theorem executeTransaction_extends (hle : fuel ≤ fuel') (tx : Transaction) :
    Act.Extends (executeTransaction P fuel tx) (executeTransaction P fuel' tx) := by
  refine Act.Extends.bind ?_ fun _ => Act.Extends.refl _
  unfold runContract
  split
  · refine (Act.Extends.refl _).bind fun fromAddr => ?_
    exact ((EVM.run_extends hle).on).bind fun _ => Act.Extends.refl _
  · exact Act.Extends.refl _

theorem executeTransactions_extends (hle : fuel ≤ fuel') (txx : List Transaction) :
    Act.Extends (executeTransactions P fuel txx) (executeTransactions P fuel' txx) :=
  Act.Extends.forEach (executeTransaction_extends hle)

/-- Transactions that run through within some number of rounds do so within any larger one. -/
theorem executeTransactions_ok_of_le {txx : List Transaction} {ws ws' : WorldState}
    (hle : fuel ≤ fuel') (hok : executeTransactions P fuel txx ws = (.ok (), ws')) :
    executeTransactions P fuel' txx ws = (.ok (), ws') := by
  have hend : (executeTransactions P fuel txx ws).1 ≠ .outOfFuel := by
    rw [hok]
    exact fun h => nomatch h
  rw [executeTransactions_extends hle txx ws hend, hok]

namespace Blockchain

variable {E S : Type} [ConsensusEngine P E] [Storage P S]

theorem addBlock_extends (hle : fuel ≤ fuel') (b : Block) :
    Act.Extends (addBlock P fuel b : Act (Blockchain E S) Err Unit) (addBlock P fuel' b) := by
  refine (Act.Extends.refl (validateBlockLocked P b)).bind fun _ => ?_
  refine Act.Extends.bind ?_ fun _ => Act.Extends.refl _
  exact (executeTransactions_extends hle b.transactions).on

theorem addBlock_ok_of_le {b : Block} {bc bc' : Blockchain E S} (hle : fuel ≤ fuel')
    (hok : addBlock P fuel b bc = (.ok (), bc')) : addBlock P fuel' b bc = (.ok (), bc') := by
  have hend : (addBlock P fuel b bc).1 ≠ .outOfFuel := by
    rw [hok]
    exact fun h => nomatch h
  rw [addBlock_extends hle b bc hend, hok]

/-- Successful calls on one block agree. -/
theorem Succeeded.unique {bc bc₁ bc₂ : Blockchain E S} {b : Block} {o₁ o₂ : Outcome Err Unit}
    (h₁ : Succeeded P bc b o₁ bc₁) (h₂ : Succeeded P bc b o₂ bc₂) : bc₁ = bc₂ := by
  obtain ⟨rfl, fuel₁, hcall₁⟩ := h₁
  obtain ⟨rfl, fuel₂, hcall₂⟩ := h₂
  have hmax₁ := addBlock_ok_of_le (Nat.le_max_left fuel₁ fuel₂) hcall₁
  have hmax₂ := addBlock_ok_of_le (Nat.le_max_right fuel₁ fuel₂) hcall₂
  exact (Prod.mk.inj (hmax₁.symm.trans hmax₂)).2

end Blockchain

end Blockz
