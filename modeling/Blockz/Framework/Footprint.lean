import Blockz.Framework.Effect
import Mathlib.Data.Set.Lattice
import Mathlib.Order.CompletePartialOrder

/-!
# Calls with a footprint

A state is read through keys: `view s k` is what `s` holds at `k`. A call is local to a set of keys
when it leaves everything outside the set alone, and when what it does depends on nothing outside
the set.

* `Act.Respects` — the judgment for the second half: states that are related by `R` give the same
  outcome and related states. Like `Act.Moves` it is proved once for each primitive call and is
  closed under sequencing.
* `LocalTo` — both halves. Calls that are local to parts of a set follow one another within the set
  (`LocalTo.mono`, `LocalTo.bind`).
* `LocalTo.commute` — calls with disjoint footprints commute, whatever their outcomes are.
-/

namespace Effect

variable {σ τ ε α β κ ν : Type}

/-! ### Two runs of one call -/

/-- On related states `m` has one outcome, and it leaves related states. -/
def Act.Respects (R : σ → σ → Prop) (m : Act σ ε α) : Prop :=
  ∀ s s', R s s' → (m s).1 = (m s').1 ∧ R (m s).2 (m s').2

namespace Act.Respects

variable {R : σ → σ → Prop}

theorem lift (o : Outcome ε α) : Act.Respects R (Act.lift o : Act σ ε α) :=
  fun _ _ h => ⟨rfl, h⟩

theorem pure (a : α) : Act.Respects R (Pure.pure a : Act σ ε α) := fun _ _ h => ⟨rfl, h⟩

theorem modify {f : σ → σ} (hf : ∀ s s', R s s' → R (f s) (f s')) :
    Act.Respects R (Act.modify f : Act σ ε Unit) := fun s s' h => ⟨rfl, hf s s' h⟩

theorem bind {m : Act σ ε α} {f : α → Act σ ε β} (hm : Act.Respects R m)
    (hf : ∀ a, Act.Respects R (f a)) : Act.Respects R (m >>= f) := by
  intro s s' h
  obtain ⟨hout, hrel⟩ := hm s s' h
  rcases hs : m s with ⟨o, t⟩
  rcases hs' : m s' with ⟨o', t'⟩
  rw [hs, hs'] at hout hrel
  obtain rfl : o = o' := hout
  cases o with
  | ok a =>
    rw [Act.bind_apply_ok hs, Act.bind_apply_ok hs']
    exact hf a t t' hrel
  | err e =>
    rw [Act.bind_apply_err hs, Act.bind_apply_err hs']
    exact ⟨rfl, hrel⟩
  | panic p =>
    rw [Act.bind_apply_panic hs, Act.bind_apply_panic hs']
    exact ⟨rfl, hrel⟩
  | outOfFuel =>
    rw [Act.bind_apply_outOfFuel hs, Act.bind_apply_outOfFuel hs']
    exact ⟨rfl, hrel⟩

/-- Reading something that related states have in common. -/
theorem read {g : σ → β} {f : β → Act σ ε α} (hg : ∀ s s', R s s' → g s = g s')
    (hf : ∀ b, Act.Respects R (f b)) : Act.Respects R (Act.get >>= fun s => f (g s)) := by
  intro s s' h
  rw [Act.get_bind_apply, Act.get_bind_apply, hg s s' h]
  exact hf (g s') s s' h

/-- A condition that related states have in common sends both the same way. -/
theorem ite {c : σ → Prop} [DecidablePred c] {m₁ m₂ : Act σ ε α}
    (hc : ∀ s s', R s s' → (c s ↔ c s')) (h₁ : Act.Respects R m₁) (h₂ : Act.Respects R m₂) :
    Act.Respects R fun s => if c s then m₁ s else m₂ s := by
  intro s s' h
  by_cases hcond : c s
  · simp only [if_pos hcond, if_pos ((hc s s' h).mp hcond)]
    exact h₁ s s' h
  · simp only [if_neg hcond, if_neg fun h' => hcond ((hc s s' h).mpr h')]
    exact h₂ s s' h

/-- A call on a component, given how the relation on the whole and the one on the component go
together. -/
theorem on {Q : τ → τ → Prop} {read : σ → τ} {write : τ → σ → σ} {m : Act τ ε α}
    (hm : Act.Respects Q m) (hread : ∀ s s', R s s' → Q (read s) (read s'))
    (hwrite : ∀ s s' t t', R s s' → Q t t' → R (write t s) (write t' s')) :
    Act.Respects R (Act.on read write m) := by
  intro s s' h
  obtain ⟨hout, hrel⟩ := hm _ _ (hread s s' h)
  exact ⟨hout, hwrite s s' _ _ h hrel⟩

end Act.Respects

/-! ### Footprints -/

section Footprints

variable (view : σ → κ → ν) (K : Set κ)

/-- The two states hold the same on `K`. -/
def AgreeOn (s s' : σ) : Prop := ∀ k ∈ K, view s k = view s' k

/-- Nothing outside `K` has changed. -/
def SameOutside (s s' : σ) : Prop := ∀ k, k ∉ K → view s' k = view s k

instance : Std.Refl (SameOutside view K) where
  refl _ := fun _ _ => rfl

instance : IsTrans σ (SameOutside view K) where
  trans _ _ _ h₁ h₂ := fun k hk => (h₂ k hk).trans (h₁ k hk)

/-- `m` reads and writes nothing but `K`. -/
structure LocalTo (m : Act σ ε α) : Prop where
  reads : Act.Respects (AgreeOn view K) m
  writes : Act.Moves (SameOutside view K) m

end Footprints

namespace LocalTo

variable {view : σ → κ → ν} {K K₁ K₂ : Set κ} {m m₁ : Act σ ε α} {m₂ : Act σ ε β}

theorem lift (o : Outcome ε α) : LocalTo view K (Act.lift o : Act σ ε α) :=
  ⟨.lift o, .lift o⟩

theorem bind {f : α → Act σ ε β} (hm : LocalTo view K m) (hf : ∀ a, LocalTo view K (f a)) :
    LocalTo view K (m >>= f) :=
  ⟨hm.reads.bind fun a => (hf a).reads, hm.writes.bind fun a => (hf a).writes⟩

/-- Wrapping an error changes neither the reads nor the writes. -/
theorem mapErr (h : LocalTo view K m) (f : ε → ε) : LocalTo view K (Act.mapErr f m) := by
  have hstate : ∀ s, (Act.mapErr f m s).2 = (m s).2 := by
    intro s
    unfold Act.mapErr
    split <;> simp_all
  constructor
  · intro s s' hagree
    obtain ⟨hout, hrel⟩ := h.reads s s' hagree
    refine ⟨?_, by rwa [hstate, hstate]⟩
    rcases hs : m s with ⟨o, t⟩
    rcases hs' : m s' with ⟨o', t'⟩
    rw [hs, hs'] at hout
    obtain rfl : o = o' := hout
    unfold Act.mapErr
    rw [hs, hs']
    cases o <;> rfl
  · intro s
    rw [hstate]
    exact h.writes s

/-- A larger footprint. What is added to it is not written, so it stays as it was in both runs. -/
theorem mono (h : LocalTo view K₁ m) (hle : K₁ ⊆ K₂) : LocalTo view K₂ m := by
  constructor
  · intro s s' hagree
    obtain ⟨hout, hrel⟩ := h.reads s s' fun k hk => hagree k (hle hk)
    refine ⟨hout, fun k hk => ?_⟩
    by_cases hk₁ : k ∈ K₁
    · exact hrel k hk₁
    · rw [h.writes s k hk₁, h.writes s' k hk₁]
      exact hagree k hk
  · exact fun s k hk => h.writes s k fun hk₁ => hk (hle hk₁)

/-- **Disjoint footprints commute.** Each call finds on its own keys what it would have found if the
other one had not been there. -/
theorem commute (h₁ : LocalTo view K₁ m₁) (h₂ : LocalTo view K₂ m₂) (hdisj : Disjoint K₁ K₂)
    {s s₁ s₂ : σ} {o₁ : Outcome ε α} {o₂ : Outcome ε β} (hm₁ : m₁ s = (o₁, s₁))
    (hm₂ : m₂ s₁ = (o₂, s₂)) :
    ∃ t₁ t₂, m₂ s = (o₂, t₁) ∧ m₁ t₁ = (o₁, t₂) ∧ ∀ k, view t₂ k = view s₂ k := by
  have hnot₁ : ∀ k ∈ K₂, k ∉ K₁ := fun k hk₂ hk₁ => Set.disjoint_left.mp hdisj hk₁ hk₂
  have hnot₂ : ∀ k ∈ K₁, k ∉ K₂ := fun k hk₁ hk₂ => Set.disjoint_left.mp hdisj hk₁ hk₂
  have hw₁ : SameOutside view K₁ s s₁ := by
    have hw := h₁.writes s
    rwa [hm₁] at hw
  have hw₂ : SameOutside view K₂ s₁ s₂ := by
    have hw := h₂.writes s₁
    rwa [hm₂] at hw
  -- the second call on the first state
  obtain ⟨hout₂, hagree₂⟩ := h₂.reads s s₁ fun k hk => (hw₁ k (hnot₁ k hk)).symm
  rw [hm₂] at hout₂ hagree₂
  have hw₂' : SameOutside view K₂ s (m₂ s).2 := h₂.writes s
  -- and the first call after it
  obtain ⟨hout₁, hagree₁⟩ := h₁.reads (m₂ s).2 s fun k hk => hw₂' k (hnot₂ k hk)
  rw [hm₁] at hout₁ hagree₁
  have hw₁' : SameOutside view K₁ (m₂ s).2 (m₁ (m₂ s).2).2 := h₁.writes _
  refine ⟨(m₂ s).2, (m₁ (m₂ s).2).2, Act.eq_mk_of_fst hout₂, Act.eq_mk_of_fst hout₁, fun k => ?_⟩
  by_cases hk₁ : k ∈ K₁
  · rw [hagree₁ k hk₁, hw₂ k (hnot₂ k hk₁)]
  · rw [hw₁' k hk₁]
    by_cases hk₂ : k ∈ K₂
    · exact hagree₂ k hk₂
    · rw [hw₂' k hk₂, hw₂ k hk₂, hw₁ k hk₁]

end LocalTo

end Effect
