import Blockz.Framework.History
import Mathlib.Logic.Function.Basic

/-!
# Families of components

Components of one kind, any number of them, each with its own state. They take their steps in any
order, one component at a time (`Swarm`). What can arrive at a component depends on the states of
all of them; where every component keeps a record of what it has sent, that is enough to say which
messages may be delivered, late, again and again, or never.

* `Swarm.each` — a predicate on components and on what has arrived so far, kept by every step.
* `Swarm.alone` — what one component can do while the others stand still.
* `Swarm.restrict` — a condition that the steps of a run have met, as a part of the steps.
* `Swarm.led` — a relation between one distinguished component and each of the others. If the
  distinguished one steps, all of them have to keep up; if another one steps, only that one has.
* `part` — what a list says about one component.
-/

namespace Effect

variable {κ σ ι ρ : Type} [DecidableEq κ]

/-- One component takes a step. -/
inductive Swarm (step : σ → ι → ρ → σ → Prop) (arrives : (κ → σ) → κ → ι → Prop) (c : κ → σ) :
    κ × ι → ρ → (κ → σ) → Prop
  | turn {k : κ} {i : ι} {o : ρ} {s' : σ} (arrival : arrives c k i) (call : step (c k) i o s') :
      Swarm step arrives c (k, i) o (Function.update c k s')

namespace Swarm

variable {step : σ → ι → ρ → σ → Prop} {arrives : (κ → σ) → κ → ι → Prop} {c c' : κ → σ}
  {es : List ((κ × ι) × ρ)}

/-- **Every component by itself**, given that all of them are as they should be. -/
theorem each {I : κ → List ((κ × ι) × ρ) → σ → Prop}
    (hrun : History (Swarm step arrives) c es c') (hstart : ∀ k, I k [] (c k))
    (hmono : ∀ k es e s, I k es s → I k (es ++ [e]) s)
    (hstep : ∀ es c k i o s', (∀ k, I k es (c k)) → arrives c k i → step (c k) i o s' →
      I k (es ++ [((k, i), o)]) s') : ∀ k, I k es (c' k) := by
  refine hrun.recorded (fun es c => ∀ k, I k es (c k)) hstart ?_
  rintro es c _ o _ _ hall ⟨arrival, call⟩ k'
  rename_i k i s'
  by_cases heq : k' = k
  · subst heq
    rw [Function.update_self]
    exact hstep es c k' i o s' hall arrival call
  · rw [Function.update_of_ne heq]
    exact hmono k' es _ _ (hall k')

/-- A run of one component, while the others stand still. -/
theorem alone {k : κ} {s' : σ} {calls : List (ι × ρ)} (hrun : History step (c k) calls s')
    (harrives : ∀ s, ∀ e ∈ calls, arrives (Function.update c k s) k e.1) :
    History (Swarm step arrives) c (calls.map fun e => ((k, e.1), e.2))
      (Function.update c k s') := by
  induction hrun with
  | start =>
    rw [Function.update_eq_self]
    exact .start
  | @call calls mid s'' i o past last ih =>
    have hpast := ih fun s e he => harrives s e (List.mem_append_left _ he)
    have hlast := harrives mid (i, o) (List.mem_append_right _ List.mem_cons_self)
    have hturn : Swarm step arrives (Function.update c k mid) (k, i) o
        (Function.update (Function.update c k mid) k s'') := by
      refine .turn hlast ?_
      rwa [Function.update_self]
    rw [Function.update_idem] at hturn
    rw [List.map_append]
    exact hpast.call hturn

/-- A condition that all steps of a run have met. -/
theorem restrict {Q : ι → ρ → Prop} (hrun : History (Swarm step arrives) c es c')
    (hQ : ∀ e ∈ es, Q e.1.2 e.2) :
    History (Swarm (fun s i o s' => step s i o s' ∧ Q i o) arrives) c es c' := by
  induction hrun with
  | start => exact .start
  | call past last ih =>
    have hlast := hQ _ (List.mem_append_right _ List.mem_cons_self)
    refine (ih fun e he => hQ e (List.mem_append_left _ he)).call ?_
    cases last with
    | turn arrival call => exact .turn arrival ⟨call, hlast⟩

/-- **One component and the others.** -/
theorem led {v : κ} {R : κ → σ → σ → Prop} (hrun : History (Swarm step arrives) c es c')
    (hstart : ∀ k, R k (c v) (c k))
    (hlead : ∀ c i o s', (∀ k, R k (c v) (c k)) → arrives c v i → step (c v) i o s' →
      R v s' s' ∧ ∀ k, k ≠ v → R k s' (c k))
    (hfollow : ∀ c k i o s', k ≠ v → (∀ k, R k (c v) (c k)) → arrives c k i →
      step (c k) i o s' → R k (c v) s') : ∀ k, R k (c' v) (c' k) := by
  refine hrun.invariant (fun c => ∀ k, R k (c v) (c k)) hstart ?_
  rintro c _ o _ hall ⟨arrival, call⟩ k'
  rename_i k i s'
  by_cases hv : k = v
  · subst hv
    obtain ⟨hself, hothers⟩ := hlead c i o s' hall arrival call
    rw [Function.update_self]
    by_cases heq : k' = k
    · subst heq
      rwa [Function.update_self]
    · rw [Function.update_of_ne heq]
      exact hothers k' heq
  · rw [Function.update_of_ne (Ne.symm hv)]
    by_cases heq : k' = k
    · subst heq
      rw [Function.update_self]
      exact hfollow c k' i o s' hv hall arrival call
    · rw [Function.update_of_ne heq]
      exact hall k'

end Swarm

/-! ### Lists about all components -/

variable {α ε : Type} {k : κ}

/-- What concerns one component. -/
def part (k : κ) (xs : List (κ × α)) : List α :=
  xs.filterMap fun x => if x.1 = k then some x.2 else none

@[simp] theorem part_nil : part k ([] : List (κ × α)) = [] := rfl

@[simp] theorem part_self (a : α) : part k [(k, a)] = [a] := by
  simp [part]

theorem part_of_ne {j : κ} (a : α) (hne : j ≠ k) : part k [(j, a)] = [] := by
  simp [part, hne]

theorem mem_part {xs : List (κ × α)} {a : α} : a ∈ part k xs ↔ (k, a) ∈ xs := by
  simp [part]

theorem part_flatMap (f : ε → List (κ × α)) (es : List ε) :
    part k (es.flatMap f) = es.flatMap fun e => part k (f e) :=
  List.filterMap_flatMap

end Effect
