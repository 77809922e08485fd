import Blockz.Framework.History

/-!
# Pre- and postconditions for a machine

A machine that goes from state to state by a relation, such as the loop of an interpreter. A triple
says that the machine, started in a state of the one kind, comes to a state of the other kind, and
in how many steps. It is about total correctness: the steps are there.

* `Triple.of_step`, `Triple.seq` — the rules: one step, and one stretch of code after another.
-/

namespace Effect

variable {σ ι ρ : Type}

/-- From every state of `A` the machine comes to a state of `B`, in `n` steps. -/
def Triple (step : σ → ι → ρ → σ → Prop) (A : σ → Prop) (n : ℕ) (B : σ → Prop) : Prop :=
  ∀ s, A s → ∃ es s', es.length = n ∧ History step s es s' ∧ B s'

namespace Triple

variable {step : σ → ι → ρ → σ → Prop} {A B D : σ → Prop} {m n : ℕ}

theorem of_step (h : ∀ s, A s → ∃ i o s', step s i o s' ∧ B s') : Triple step A 1 B := by
  intro s hs
  obtain ⟨i, o, s', hstep, hs'⟩ := h s hs
  exact ⟨[(i, o)], s', rfl, .call .start hstep, hs'⟩

theorem seq (h : Triple step A m B) (h' : Triple step B n D) : Triple step A (m + n) D := by
  intro s hs
  obtain ⟨es, s₁, hm, hrun, hs₁⟩ := h s hs
  obtain ⟨es', s₂, hn, hrun', hs₂⟩ := h' s₁ hs₁
  refine ⟨es ++ es', s₂, ?_, hrun.append hrun', hs₂⟩
  rw [List.length_append, hm, hn]

end Triple

end Effect
