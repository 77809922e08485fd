import Mathlib.Data.List.Induction
import Mathlib.Tactic.Common

/-!
# Histories of calls

A component is driven by calls that arrive one after the other. `History step s es s'` says that
the calls and answers recorded in `es`, oldest first, lead from `s` to `s'`. The step relation
takes the call, its answer and both states, so one history covers accepted and refused calls alike.

* `History.invariant` — a predicate on states that every step keeps holds at the end of a history.
* `History.recorded` — the same for a predicate that also speaks about the calls made so far.
* `History.conserved` — what a system was given is what it has given out and what it holds.
* `History.simulated` — a history of one system, seen as a history of another one.
* `History.split` — a history is a first part and a second one that starts where the first ends.
* `Passes`, `Takes` — the states on the way and the steps on the way.
* `History.passes_iff_takes` — if every step keeps a predicate exactly under a condition, the
  predicate holds all the way just when every step meets the condition.
* `runAll`, `answers`, `Along` — the same for a machine that can be run: where a list of calls
  leads, what is answered, and a condition on every call that can be evaluated (`Along.takes`).
-/

namespace Effect

variable {σ ι ρ : Type}

/-- The calls `es` with their answers, oldest first, lead from `s` to the last state. -/
inductive History (step : σ → ι → ρ → σ → Prop) (s : σ) : List (ι × ρ) → σ → Prop
  | start : History step s [] s
  | call {es : List (ι × ρ)} {s' s'' : σ} {i : ι} {o : ρ} (past : History step s es s')
      (last : step s' i o s'') : History step s (es ++ [(i, o)]) s''

namespace History

variable {step : σ → ι → ρ → σ → Prop} {s s' : σ} {es : List (ι × ρ)}

/-- A predicate on the calls made so far and the state they lead to, kept by every step. -/
theorem recorded (I : List (ι × ρ) → σ → Prop) (h : History step s es s') (hstart : I [] s)
    (hstep : ∀ es s' i o s'', History step s es s' → I es s' → step s' i o s'' →
      I (es ++ [(i, o)]) s'') : I es s' := by
  induction h with
  | start => exact hstart
  | call past last ih => exact hstep _ _ _ _ _ past ih last

/-- A predicate on states, kept by every step. -/
theorem invariant (I : σ → Prop) (h : History step s es s') (hstart : I s)
    (hstep : ∀ s' i o s'', I s' → step s' i o s'' → I s'') : I s' :=
  h.recorded (fun _ => I) hstart fun _ s' i o s'' _ hI hs => hstep s' i o s'' hI hs

/-- A history can be put behind a call. -/
theorem cons {mid : σ} {i : ι} {o : ρ} (first : step s i o mid) (h : History step mid es s') :
    History step s ((i, o) :: es) s' := by
  induction h with
  | start => exact .call .start first
  | call past last ih => exact ih.call last

/-- Two histories one after the other. -/
theorem append {mid : σ} {es₁ es₂ : List (ι × ρ)} (h₁ : History step s es₁ mid)
    (h₂ : History step mid es₂ s') : History step s (es₁ ++ es₂) s' := by
  induction h₂ with
  | start =>
    rw [List.append_nil]
    exact h₁
  | call _ last ih =>
    rw [← List.append_assoc]
    exact ih.call last

/-- **What goes in comes out.** If a step takes the old contents and what it is given to what it
gives out and the new contents, then so does a history: nothing is lost, nothing is doubled, and
the order is kept. -/
theorem conserved {α : Type} (contents : σ → List α) (put got : ι × ρ → List α)
    (h : History step s es s')
    (hstep : ∀ s i o s', step s i o s' → contents s ++ put (i, o) = got (i, o) ++ contents s') :
    contents s ++ es.flatMap put = es.flatMap got ++ contents s' := by
  induction h with
  | start => rw [List.flatMap_nil, List.flatMap_nil, List.append_nil, List.nil_append]
  | @call es mid s'' i o past last ih =>
    calc contents s ++ (es ++ [(i, o)]).flatMap put
        = (contents s ++ es.flatMap put) ++ put (i, o) := by
          rw [List.flatMap_append, List.flatMap_singleton, List.append_assoc]
      _ = es.flatMap got ++ (contents mid ++ put (i, o)) := by rw [ih, List.append_assoc]
      _ = es.flatMap got ++ (got (i, o) ++ contents s'') := by rw [hstep mid i o s'' last]
      _ = (es ++ [(i, o)]).flatMap got ++ contents s'' := by
          rw [List.flatMap_append, List.flatMap_singleton, List.append_assoc]

/-- **Refinement.** Each step of the one system is some steps of the other, as seen through `view`,
or none; then so is each history. -/
theorem simulated {τ κ υ : Type} {step' : τ → κ → υ → τ → Prop} (view : σ → τ)
    {label : ι × ρ → List (κ × υ)} (I : σ → Prop) (h : History step s es s') (hstart : I s)
    (hstep : ∀ s i o s', I s → step s i o s' →
      I s' ∧ History step' (view s) (label (i, o)) (view s')) :
    I s' ∧ History step' (view s) (es.flatMap label) (view s') := by
  induction h with
  | start => exact ⟨hstart, .start⟩
  | @call es mid s'' i o past last ih =>
    obtain ⟨hmid, hpast⟩ := ih
    obtain ⟨hlast, hnext⟩ := hstep mid i o s'' hmid last
    refine ⟨hlast, ?_⟩
    rw [List.flatMap_append, List.flatMap_singleton]
    exact hpast.append hnext

theorem eq_of_nil (h : History step s [] s') : s' = s := by
  generalize hnil : ([] : List (ι × ρ)) = es at h
  cases h with
  | start => rfl
  | call _ _ => exact absurd hnil (by simp)

/-- The last call of a history. -/
theorem last_call {e : ι × ρ} (h : History step s (es ++ [e]) s') :
    ∃ mid, History step s es mid ∧ step mid e.1 e.2 s' := by
  generalize hall : es ++ [e] = all at h
  cases h with
  | start => exact absurd hall (by simp)
  | @call past mid _ i o hpast hlast =>
    obtain ⟨rfl, rfl⟩ := List.append_singleton_inj.mp hall
    exact ⟨mid, hpast, hlast⟩

/-- A history can be cut anywhere. -/
theorem split {es₁ es₂ : List (ι × ρ)} (h : History step s (es₁ ++ es₂) s') :
    ∃ mid, History step s es₁ mid ∧ History step mid es₂ s' := by
  induction es₂ using List.reverseRecOn generalizing s' with
  | nil =>
    rw [List.append_nil] at h
    exact ⟨s', h, .start⟩
  | append_singleton es₂ e ih =>
    rw [← List.append_assoc] at h
    obtain ⟨before, hbefore, hlast⟩ := h.last_call
    obtain ⟨mid, hfirst, hsecond⟩ := ih hbefore
    exact ⟨mid, hfirst, hsecond.call hlast⟩

theorem split_cons {i : ι} {o : ρ} (h : History step s ((i, o) :: es) s') :
    ∃ mid, step s i o mid ∧ History step mid es s' := by
  rw [← List.singleton_append] at h
  obtain ⟨mid, hfirst, hrest⟩ := h.split
  rw [← List.nil_append [(i, o)]] at hfirst
  obtain ⟨start, hstart, hstep⟩ := hfirst.last_call
  rw [hstart.eq_of_nil] at hstep
  exact ⟨mid, hstep, hrest⟩

/-- **Two histories over matching calls end in one state**, if matching calls do the same. -/
theorem agree {R : ι × ρ → ι × ρ → Prop} {s'' : σ} {es' : List (ι × ρ)} (h : History step s es s')
    (h' : History step s es' s'') (hes : List.Forall₂ R es es')
    (hstep : ∀ {s t t' e e'}, R e e' → step s e.1 e.2 t → step s e'.1 e'.2 t' → t = t') :
    s' = s'' := by
  induction hes generalizing s with
  | nil => rw [h.eq_of_nil, h'.eq_of_nil]
  | cons hmatch _ ih =>
    obtain ⟨mid, hfirst, hrest⟩ := h.split_cons
    obtain ⟨mid', hfirst', hrest'⟩ := h'.split_cons
    obtain rfl := hstep hmatch hfirst hfirst'
    exact ih hrest hrest'

end History

/-! ### On the way -/

/-- The calls `es` lead from `s` to `s'` by way of `mid`. -/
def Passes (step : σ → ι → ρ → σ → Prop) (s : σ) (es : List (ι × ρ)) (s' mid : σ) : Prop :=
  ∃ es₁ es₂, es = es₁ ++ es₂ ∧ History step s es₁ mid ∧ History step mid es₂ s'

/-- On the way from `s` to `s'` the call `i` is made in the state `mid`. -/
def Takes (step : σ → ι → ρ → σ → Prop) (s : σ) (es : List (ι × ρ)) (s' mid : σ) (i : ι) : Prop :=
  ∃ es₁ o next es₂, es = es₁ ++ (i, o) :: es₂ ∧ History step s es₁ mid ∧ step mid i o next ∧
    History step next es₂ s'

namespace History

variable {step : σ → ι → ρ → σ → Prop} {s s' : σ} {es : List (ι × ρ)}

theorem not_takes_nil {mid : σ} {i : ι} : ¬ Takes step s [] s' mid i := by
  rintro ⟨es₁, o, next, es₂, hnil, -⟩
  exact absurd hnil.symm (by simp)

/-- The first step, or one behind it. -/
theorem takes_cons {mid : σ} {i j : ι} {o : ρ} (h : Takes step s ((i, o) :: es) s' mid j) :
    (mid = s ∧ j = i) ∨ ∃ next, step s i o next ∧ Takes step next es s' mid j := by
  obtain ⟨es₁, o', next, es₂, hes, hpast, hcall, hrest⟩ := h
  cases es₁ with
  | nil =>
    have hhead := (List.cons.inj hes).1
    exact Or.inl ⟨hpast.eq_of_nil, (Prod.mk.inj hhead).1.symm⟩
  | cons e es₁ =>
    obtain ⟨rfl, rfl⟩ := List.cons.inj hes
    obtain ⟨second, hfirst, hsecond⟩ := hpast.split_cons
    exact Or.inr ⟨second, hfirst, es₁, o', next, es₂, rfl, hsecond, hcall, hrest⟩

/-- A predicate that every step keeps, if the step meets a condition, holds all the way. -/
theorem passes_of_takes {I : σ → Prop} {C : σ → ι → Prop} (hstart : I s)
    (hstep : ∀ es₁ mid i o next, History step s es₁ mid → I mid → C mid i →
      step mid i o next → I next)
    (hC : ∀ mid i, Takes step s es s' mid i → C mid i) :
    ∀ mid, Passes step s es s' mid → I mid := by
  rintro mid ⟨es₁, es₂, hes, hpast, hrest⟩
  -- by induction on the part of the history before `mid`
  refine hpast.recorded (fun es₁ mid => ∀ es₂, es = es₁ ++ es₂ → History step mid es₂ s' → I mid)
    (fun _ _ _ => hstart) ?_ es₂ hes hrest
  intro es₁ mid i o next hpast ih hlast es₂ hes hrest
  rw [List.append_assoc, List.singleton_append] at hes
  exact hstep es₁ mid i o next hpast (ih _ hes (hrest.cons hlast))
    (hC mid i ⟨es₁, o, next, es₂, hes, hpast, hlast, hrest⟩) hlast

/-- **Exactly under a condition.** What every step keeps just when it meets a condition holds all
the way just when all steps meet it. -/
theorem passes_iff_takes {I : σ → Prop} {C : σ → ι → Prop} (hstart : I s)
    (hstep : ∀ es₁ mid i o next, History step s es₁ mid → I mid → step mid i o next →
      (I next ↔ C mid i)) :
    (∀ mid, Passes step s es s' mid → I mid) ↔ ∀ mid i, Takes step s es s' mid i → C mid i := by
  constructor
  · rintro hI mid i ⟨es₁, o, next, es₂, hes, hpast, hcall, hrest⟩
    have hmid : I mid := hI mid ⟨es₁, _, hes, hpast, hrest.cons hcall⟩
    have hnext : I next := by
      refine hI next ⟨es₁ ++ [(i, o)], es₂, ?_, hpast.call hcall, hrest⟩
      rw [hes, List.append_assoc, List.singleton_append]
    exact (hstep es₁ mid i o next hpast hmid hcall).mp hnext
  · intro hC
    exact passes_of_takes hstart
      (fun es₁ mid i o next hpast hmid hcond hcall =>
        (hstep es₁ mid i o next hpast hmid hcall).mpr hcond) hC

end History

/-! ### Machines -/

section Machine

variable (move : σ → ι → ρ × σ)

/-- Where the calls lead, made one after the other. -/
def runAll (s : σ) (is : List ι) : σ := is.foldl (fun s i => (move s i).2) s

/-- The calls with their answers. -/
def answers : σ → List ι → List (ι × ρ)
  | _, [] => []
  | s, i :: is => (i, (move s i).1) :: answers (move s i).2 is

/-- Every call is made in a state that meets a condition. -/
def Along (C : σ → ι → Prop) : σ → List ι → Prop
  | _, [] => True
  | s, i :: is => C s i ∧ Along C (move s i).2 is

instance Along.decidable (C : σ → ι → Prop) [∀ s i, Decidable (C s i)] :
    ∀ (s : σ) (is : List ι), Decidable (Along move C s is)
  | _, [] => inferInstanceAs (Decidable True)
  | s, i :: is =>
    have := Along.decidable C (move s i).2 is
    inferInstanceAs (Decidable (C s i ∧ Along move C (move s i).2 is))

variable {move}

theorem history_runAll (s : σ) (is : List ι) :
    History (fun s i o s' => move s i = (o, s')) s (answers move s is) (runAll move s is) := by
  induction is generalizing s with
  | nil => exact .start
  | cons i is ih => exact (ih (move s i).2).cons rfl

theorem Along.takes {C : σ → ι → Prop} {s s' mid : σ} {is : List ι} {i : ι}
    (h : Along move C s is)
    (htake : Takes (fun s i o s' => move s i = (o, s')) s (answers move s is) s' mid i) :
    C mid i := by
  induction is generalizing s with
  | nil => exact absurd htake History.not_takes_nil
  | cons j is ih =>
    rcases History.takes_cons htake with ⟨rfl, rfl⟩ | ⟨next, hnext, hrest⟩
    · exact h.1
    · obtain ⟨-, rfl⟩ := Prod.mk.inj hnext
      exact ih h.2 hrest

end Machine

end Effect
