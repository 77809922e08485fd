import Blockz.Chain.Fuel

/-!
# Transactions that execute everywhere

Whether a transaction executes depends in general on the world state that it finds. For some it does
not. Of these any number execute one after the other, in any order and from any state.

* `Transaction.Tame` — a transaction that verifies, and executes in every world state.
* `executeTransactions_of_tame` — so does every list of such transactions.
-/

namespace Blockz

open Effect

variable {P : Primitives}

/-- The transaction verifies, and in every world state it executes. -/
structure Transaction.Tame (P : Primitives) (tx : Transaction) : Prop where
  verified : tx.verify P = .ok ()
  executes : ∀ ws, ∃ fuel ws', executeTransaction P fuel tx ws = (.ok (), ws')

/-- It is a matter of the exported fields. -/
theorem Transaction.Tame.congr {tx tx' : Transaction} (h : tx.Tame P)
    (hexp : tx'.exported = tx.exported) : tx'.Tame P := by
  have hverify : ∀ tx : Transaction, tx.exported.verify P = tx.verify P := fun _ => rfl
  have hexec : ∀ (tx : Transaction) fuel,
      executeTransaction P fuel tx.exported = executeTransaction P fuel tx := fun _ _ => rfl
  refine ⟨?_, fun ws => ?_⟩
  · rw [← hverify, hexp, hverify]
    exact h.verified
  · obtain ⟨fuel, ws', hok⟩ := h.executes ws
    refine ⟨fuel, ws', ?_⟩
    rw [← hexec, hexp, hexec]
    exact hok

theorem executeTransaction_ok_of_le {fuel fuel' : ℕ} {tx : Transaction} {ws ws' : WorldState}
    (hle : fuel ≤ fuel') (hok : executeTransaction P fuel tx ws = (.ok (), ws')) :
    executeTransaction P fuel' tx ws = (.ok (), ws') := by
  have hend : (executeTransaction P fuel tx ws).1 ≠ .outOfFuel := by
    rw [hok]
    exact fun h => nomatch h
  rw [executeTransaction_extends hle tx ws hend, hok]

/-- **A list of them executes.** -/
theorem executeTransactions_of_tame {txx : List Transaction} (htame : ∀ tx ∈ txx, tx.Tame P)
    (ws : WorldState) :
    ∃ fuel₀, ∀ fuel ≥ fuel₀, ∃ ws', executeTransactions P fuel txx ws = (.ok (), ws') := by
  induction txx generalizing ws with
  | nil => exact ⟨0, fun _ _ => ⟨ws, rfl⟩⟩
  | cons tx txx ih =>
    obtain ⟨fuel₁, ws₁, hfirst⟩ := (htame tx List.mem_cons_self).executes ws
    obtain ⟨fuel₂, hrest⟩ := ih (fun tx htx => htame tx (List.mem_cons_of_mem _ htx)) ws₁
    -- the bound on the rounds of the machine has to do for all of them
    refine ⟨max fuel₁ fuel₂, fun fuel hle => ?_⟩
    obtain ⟨ws', hloop⟩ := hrest fuel ((Nat.le_max_right _ _).trans hle)
    refine ⟨ws', ?_⟩
    unfold executeTransactions
    rw [Act.forEach_cons, Act.bind_apply_ok
      (executeTransaction_ok_of_le ((Nat.le_max_left _ _).trans hle) hfirst)]
    exact hloop

end Blockz
