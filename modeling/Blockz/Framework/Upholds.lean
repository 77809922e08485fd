import Blockz.Framework.Effect

/-!
# Invariants with an answer

`Act.Moves` says where a call takes the state, whatever its outcome. Often this is not enough for
the rest of the program, which goes on with the answer: what was read has to be known to be good.

`Act.Upholds I Q m` says that `m`, on a state with `I`, leaves a state with `I` however it ends, and
that an answer it returns has `Q`. There is one rule for each construct. The rule for `get` is where
the invariant enters the answer, and the rule for a sequence is where it is used.
-/

namespace Effect

namespace Act

variable {σ τ ε α β : Type}

/-- `m` keeps the invariant, and what it returns has the property. -/
def Upholds (I : σ → Prop) (Q : α → Prop) (m : Act σ ε α) : Prop :=
  ∀ s, I s → I (m s).2 ∧ ∀ a, (m s).1 = .ok a → Q a

variable {I : σ → Prop} {Q : α → Prop} {R : β → Prop} {m : Act σ ε α}

theorem Upholds.pure {a : α} (ha : Q a) : Upholds I Q (Pure.pure a : Act σ ε α) := by
  intro s hs
  refine ⟨hs, fun b hb => ?_⟩
  obtain rfl := Outcome.ok.inj hb
  exact ha

theorem Upholds.lift {o : Outcome ε α} (ho : ∀ a, o = .ok a → Q a) :
    Upholds I Q (Act.lift o : Act σ ε α) :=
  fun _ hs => ⟨hs, ho⟩

/-- What is read off the state has the invariant. -/
theorem Upholds.get : Upholds I I (Act.get : Act σ ε σ) := by
  intro s hs
  refine ⟨hs, fun s' hs' => ?_⟩
  obtain rfl := Outcome.ok.inj hs'
  exact hs

theorem Upholds.modify {f : σ → σ} (hf : ∀ s, I s → I (f s)) :
    Upholds I (fun _ => True) (Act.modify f : Act σ ε Unit) :=
  fun s hs => ⟨hf s hs, fun _ _ => trivial⟩

/-- The second call may rely on what the first one returns. -/
theorem Upholds.bind {f : α → Act σ ε β} (hm : Upholds I Q m)
    (hf : ∀ a, Q a → Upholds I R (f a)) : Upholds I R (m >>= f) := by
  intro s hs
  obtain ⟨hI, hQ⟩ := hm s hs
  rcases h : m s with ⟨o, s'⟩
  rw [h] at hI hQ
  cases o with
  | ok a =>
    rw [bind_apply_ok h]
    exact hf a (hQ a rfl) s' hI
  | err e =>
    rw [bind_apply_err h]
    exact ⟨hI, fun _ hb => nomatch hb⟩
  | panic p =>
    rw [bind_apply_panic h]
    exact ⟨hI, fun _ hb => nomatch hb⟩
  | outOfFuel =>
    rw [bind_apply_outOfFuel h]
    exact ⟨hI, fun _ hb => nomatch hb⟩

/-- A call that moves the state along a relation under which the invariant is kept. -/
theorem Upholds.of_moves {M : σ → σ → Prop} (hm : Moves M m)
    (hM : ∀ s s', M s s' → I s → I s') : Upholds I (fun _ => True) m :=
  fun s hs => ⟨hM s _ (hm s) hs, fun _ _ => trivial⟩

/-- A call whose error is handed on as a value. -/
theorem Upholds.attempt (hm : Upholds I Q m) :
    Upholds I (fun r => ∀ a, r = .ok a → Q a) (Act.attempt m) := by
  intro s hs
  obtain ⟨hI, hQ⟩ := hm s hs
  unfold Act.attempt
  rcases h : m s with ⟨_ | _ | _ | _, s'⟩ <;> rw [h] at hI hQ
  · refine ⟨hI, fun r hr a ha => hQ a ?_⟩
    obtain rfl := Outcome.ok.inj hr
    exact congrArg Outcome.ok (Except.ok.inj ha)
  · refine ⟨hI, fun r hr a ha => ?_⟩
    obtain rfl := Outcome.ok.inj hr
    exact nomatch ha
  · exact ⟨hI, fun _ hr => nomatch hr⟩
  · exact ⟨hI, fun _ hr => nomatch hr⟩

/-- A loop whose rounds keep the invariant. -/
theorem Upholds.forEach {body : α → Act σ ε Unit} {xs : List α}
    (h : ∀ x ∈ xs, Upholds I (fun _ => True) (body x)) :
    Upholds I (fun _ => True) (Act.forEach body xs) := by
  induction xs with
  | nil => exact Upholds.pure trivial
  | cons x xs ih =>
    rw [forEach_cons]
    exact (h x List.mem_cons_self).bind fun _ _ =>
      ih fun y hy => h y (List.mem_cons_of_mem x hy)

/-- A call on a component. -/
theorem Upholds.on {J : τ → Prop} {read : σ → τ} {write : τ → σ → σ} {m : Act τ ε α}
    (hm : Upholds J Q m) (hread : ∀ s, I s → J (read s))
    (hwrite : ∀ s t, I s → J t → I (write t s)) : Upholds I Q (Act.on read write m) := by
  intro s hs
  obtain ⟨hJ, hQ⟩ := hm (read s) (hread s hs)
  exact ⟨hwrite s _ hs hJ, hQ⟩

end Act

end Effect
