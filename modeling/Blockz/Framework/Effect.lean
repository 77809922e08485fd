import Mathlib.Tactic.Common
import Mathlib.Order.Defs.Unbundled

/-!
# Effectful calls whose writes survive a failure

A Go function works on memory in place. When it returns an error, or panics halfway, everything it
wrote before that point stays written: there is no roll-back unless the function performs one. A
call is therefore modelled as a map from the state it finds to *both* its outcome and the state it
leaves (`Act`), and not as a map into `Except`, which would drop the state on the failure branch.

* `Outcome` — how a call ends: it returns a value, returns an error, panics, or is still running
  when the step budget of a loop is used up (`Outcome.outOfFuel`, the model's reading of a call
  that has not come back yet).
* `Act` — state in, outcome and state out; `Act.bind` runs the second call on the state the first
  one leaves, and stops at the first outcome that is not `Outcome.ok`.
* `Act.forEach` — a `for range` loop with an early return; `forEach_stop` says where it stops.
* `Act.Moves` — the frame judgment `Act.Moves R m`, by which `m` moves the state along `R`
  whatever its outcome is. It is closed under sequencing and under the loop as soon as `R` is a
  preorder, so a frame condition is proved once for each primitive call.
* `Act.Extends` — `m'` agrees with `m` wherever `m` has not used up its budget; also closed under
  sequencing and under the loop. `Act.Ends m` says that `m` needs no budget.
* `Act.Tracks` — `m'` does to a view of the state what `m` does to the state.
-/

namespace Effect

/-- The run-time panics of Go that the models distinguish. -/
inductive Panic
  -- A nil pointer was dereferenced.
  | nilDereference
  -- A slice expression was out of range.
  | sliceBounds
  -- An allocation was larger than the runtime can serve.
  | allocation
  -- An unchecked type assertion failed.
  | typeAssertion
  -- The program itself has called `panic`.
  | raised
  deriving DecidableEq, Repr

/-- How a call ends. -/
inductive Outcome (ε α : Type)
  | ok (a : α)
  | err (e : ε)
  | panic (p : Panic)
  | outOfFuel
  deriving DecidableEq, Repr

namespace Outcome

variable {ε α β : Type}

/-- The call came back to its caller, with a value or with an error. -/
def Returns : Outcome ε α → Prop
  | ok _ => True
  | err _ => True
  | panic _ => False
  | outOfFuel => False

instance : DecidablePred (Returns : Outcome ε α → Prop)
  | ok _ => inferInstanceAs (Decidable True)
  | err _ => inferInstanceAs (Decidable True)
  | panic _ => inferInstanceAs (Decidable False)
  | outOfFuel => inferInstanceAs (Decidable False)

@[simp] theorem not_returns_panic (p : Panic) : ¬ (panic p : Outcome ε α).Returns := id

/-- The value that was returned, if any. -/
def toOption : Outcome ε α → Option α
  | ok a => some a
  | err _ => none
  | panic _ => none
  | outOfFuel => none

theorem toOption_eq_some {o : Outcome ε α} {a : α} : o.toOption = some a ↔ o = ok a := by
  cases o <;> simp [toOption]

/-- Continue with `f` on a value; any other outcome passes through. -/
def bind (o : Outcome ε α) (f : α → Outcome ε β) : Outcome ε β :=
  match o with
  | ok a => f a
  | err e => err e
  | panic p => panic p
  | outOfFuel => outOfFuel

instance : Monad (Outcome ε) where
  pure := ok
  bind := bind

@[simp] theorem bind_ok (a : α) (f : α → Outcome ε β) : (ok a : Outcome ε α) >>= f = f a := rfl

@[simp] theorem bind_err (e : ε) (f : α → Outcome ε β) :
    (err e : Outcome ε α) >>= f = err e := rfl

@[simp] theorem bind_panic (p : Panic) (f : α → Outcome ε β) :
    (panic p : Outcome ε α) >>= f = panic p := rfl

@[simp] theorem bind_outOfFuel (f : α → Outcome ε β) :
    (outOfFuel : Outcome ε α) >>= f = outOfFuel := rfl

/-- A sequence succeeds exactly when its first half and then its second half do. -/
theorem bind_eq_ok {o : Outcome ε α} {f : α → Outcome ε β} {b : β} :
    o >>= f = ok b ↔ ∃ a, o = ok a ∧ f a = ok b := by
  cases o <;> simp

/-- A check: go on when `c` holds, return the error otherwise. -/
def require (c : Prop) [Decidable c] (e : ε) : Outcome ε Unit :=
  if c then ok () else err e

@[simp] theorem require_eq_ok {c : Prop} [Decidable c] {e : ε} :
    require c e = ok () ↔ c := by
  unfold require
  split <;> simp_all

/-- A check in front of a computation. -/
theorem require_bind_eq_ok {c : Prop} [Decidable c] {e : ε} {f : Unit → Outcome ε α} {a : α} :
    (require c e >>= f) = ok a ↔ c ∧ f () = ok a := by
  rw [bind_eq_ok]
  constructor
  · rintro ⟨_, hc, hf⟩
    exact ⟨require_eq_ok.mp hc, hf⟩
  · rintro ⟨hc, hf⟩
    exact ⟨(), require_eq_ok.mpr hc, hf⟩

theorem require_eq_err {c : Prop} [Decidable c] {e e' : ε} :
    require c e = err e' ↔ ¬ c ∧ e = e' := by
  unfold require
  split <;> simp_all

/-- Reading through a pointer: a nil pointer panics. -/
def deref : Option α → Outcome ε α
  | some a => ok a
  | none => panic .nilDereference

@[simp] theorem deref_some (a : α) : (deref (some a) : Outcome ε α) = ok a := rfl

@[simp] theorem deref_none : (deref none : Outcome ε α) = panic .nilDereference := rfl

theorem deref_eq_ok {o : Option α} {a : α} : (deref o : Outcome ε α) = ok a ↔ o = some a := by
  cases o <;> simp [deref]

/-- The outcome of a function that has no error result: a value or a panic. -/
def ofExcept : Except Panic α → Outcome ε α
  | .ok a => ok a
  | .error p => panic p

theorem ofExcept_eq_ok {x : Except Panic α} {a : α} :
    (ofExcept x : Outcome ε α) = ok a ↔ x = .ok a := by
  cases x <;> simp [ofExcept]

/-- Check every element in turn and stop at the first one that does not pass. -/
def checkAll (check : α → Outcome ε Unit) : List α → Outcome ε Unit
  | [] => ok ()
  | x :: xs => check x >>= fun _ => checkAll check xs

@[simp] theorem checkAll_nil (check : α → Outcome ε Unit) : checkAll check [] = ok () := rfl

/-- A list passes exactly when each of its elements does. -/
theorem checkAll_eq_ok {check : α → Outcome ε Unit} {xs : List α} :
    checkAll check xs = ok () ↔ ∀ x ∈ xs, check x = ok () := by
  induction xs with
  | nil => simp
  | cons x xs ih =>
    simp only [checkAll, bind_eq_ok, List.forall_mem_cons, ih]
    exact ⟨fun ⟨_, hx, hxs⟩ => ⟨hx, hxs⟩, fun ⟨hx, hxs⟩ => ⟨(), hx, hxs⟩⟩

/-- A list fails with an error exactly when the first element that does not pass returns it. -/
theorem checkAll_eq_err {check : α → Outcome ε Unit} {xs : List α} {e : ε} :
    checkAll check xs = err e ↔
      ∃ pre x post, xs = pre ++ x :: post ∧ (∀ y ∈ pre, check y = ok ()) ∧ check x = err e := by
  induction xs with
  | nil => simp
  | cons x xs ih =>
    constructor
    · intro h
      cases hx : check x with
      | ok u =>
        simp only [checkAll, hx, bind_ok] at h
        obtain ⟨pre, y, post, rfl, hpre, hy⟩ := ih.mp h
        refine ⟨x :: pre, y, post, rfl, ?_, hy⟩
        exact List.forall_mem_cons.mpr ⟨hx, hpre⟩
      | err e' =>
        simp only [checkAll, hx, bind_err, err.injEq] at h
        exact ⟨[], x, xs, rfl, by simp, by rw [hx, h]⟩
      | panic p => simp [checkAll, hx] at h
      | outOfFuel => simp [checkAll, hx] at h
    · rintro ⟨pre, y, post, hsplit, hpre, hy⟩
      cases pre with
      | nil =>
        obtain ⟨rfl, rfl⟩ := List.cons.inj hsplit
        simp [checkAll, hy]
      | cons z pre =>
        obtain ⟨rfl, rfl⟩ := List.cons.inj hsplit
        have hx := hpre x List.mem_cons_self
        simp only [checkAll, hx, bind_ok]
        exact ih.mpr ⟨pre, y, post, rfl, fun w hw => hpre w (List.mem_cons_of_mem _ hw), hy⟩

/-! ### Coming back -/

theorem returns_iff {o : Outcome ε α} : o.Returns ↔ (∀ p, o ≠ panic p) ∧ o ≠ outOfFuel := by
  cases o <;> simp [Returns]

theorem returns_bind {o : Outcome ε α} {f : α → Outcome ε β} :
    (o >>= f).Returns ↔ o.Returns ∧ ∀ a, o = ok a → (f a).Returns := by
  cases o <;> simp [Returns]

theorem returns_require {c : Prop} [Decidable c] {e : ε} : (require c e).Returns := by
  unfold require
  split <;> trivial

theorem returns_deref {o : Option α} : (deref o : Outcome ε α).Returns ↔ o.isSome = true := by
  cases o <;> simp [deref, Returns]

/-- A list comes back exactly when every element does that the loop reaches. -/
theorem returns_checkAll {check : α → Outcome ε Unit} {xs : List α} :
    (checkAll check xs).Returns ↔
      ∀ pre x post, xs = pre ++ x :: post → (∀ y ∈ pre, check y = ok ()) → (check x).Returns := by
  induction xs with
  | nil => exact iff_of_true trivial fun pre x post h => absurd h (by simp)
  | cons x xs ih =>
    rw [checkAll, returns_bind, ih]
    constructor
    · rintro ⟨hx, hxs⟩ pre y post hsplit hpre
      cases pre with
      | nil =>
        obtain ⟨rfl, rfl⟩ := List.cons.inj hsplit
        exact hx
      | cons z pre =>
        obtain ⟨rfl, rfl⟩ := List.cons.inj hsplit
        obtain ⟨hz, hpre⟩ := List.forall_mem_cons.mp hpre
        exact hxs () hz pre y post rfl hpre
    · intro hall
      refine ⟨hall [] x xs rfl (by simp), fun _ hx pre y post hsplit hpre => ?_⟩
      refine hall (x :: pre) y post ?_ (List.forall_mem_cons.mpr ⟨hx, hpre⟩)
      rw [hsplit]
      rfl

/-- The call comes back, or it dereferences nil. -/
def ReturnsOrNil (o : Outcome ε α) : Prop := o.Returns ∨ o = panic .nilDereference

theorem Returns.orNil {o : Outcome ε α} (h : o.Returns) : o.ReturnsOrNil := Or.inl h

theorem ReturnsOrNil.eq_nil {o : Outcome ε α} (h : o.ReturnsOrNil) (hnot : ¬ o.Returns) :
    o = panic .nilDereference := h.resolve_left hnot

theorem returnsOrNil_deref (o : Option α) : (deref o : Outcome ε α).ReturnsOrNil := by
  cases o with
  | none => exact Or.inr rfl
  | some a => exact Or.inl trivial

theorem ReturnsOrNil.bind {o : Outcome ε α} {f : α → Outcome ε β} (ho : o.ReturnsOrNil)
    (hf : ∀ a, o = ok a → (f a).ReturnsOrNil) : (o >>= f).ReturnsOrNil := by
  cases o with
  | ok a => exact hf a rfl
  | err e => exact Or.inl trivial
  | panic p =>
    obtain rfl : p = .nilDereference := panic.inj (ho.eq_nil id)
    exact Or.inr rfl
  | outOfFuel => exact absurd (ho.eq_nil id) (by simp)

theorem returnsOrNil_checkAll {check : α → Outcome ε Unit} {xs : List α}
    (h : ∀ x ∈ xs, (check x).ReturnsOrNil) : (checkAll check xs).ReturnsOrNil := by
  induction xs with
  | nil => exact Or.inl trivial
  | cons x xs ih =>
    rw [List.forall_mem_cons] at h
    exact h.1.bind fun _ _ => ih h.2

end Outcome

/-- A call on a state of type `σ`: its outcome, together with the state it leaves behind. -/
def Act (σ ε α : Type) : Type := σ → Outcome ε α × σ

namespace Act

variable {σ τ ε α β : Type}

/-- Run `f` on the value and the state that `m` returns; stop where `m` stops. -/
def bind (m : Act σ ε α) (f : α → Act σ ε β) : Act σ ε β := fun s =>
  match m s with
  | (.ok a, s') => f a s'
  | (.err e, s') => (.err e, s')
  | (.panic p, s') => (.panic p, s')
  | (.outOfFuel, s') => (.outOfFuel, s')

instance : Monad (Act σ ε) where
  pure a := fun s => (.ok a, s)
  bind := bind

/-- An outcome that was computed without touching the state. -/
def lift (o : Outcome ε α) : Act σ ε α := fun s => (o, s)

/-- Read the state. -/
def get : Act σ ε σ := fun s => (.ok s, s)

/-- Write the state. -/
def modify (f : σ → σ) : Act σ ε Unit := fun s => (.ok (), f s)

/-- Run a call on one component of a larger state. -/
def on (read : σ → τ) (write : τ → σ → σ) (m : Act τ ε α) : Act σ ε α := fun s =>
  ((m (read s)).1, write (m (read s)).2 s)

/-- Wrap the error that a call returns. -/
def mapErr (f : ε → ε) (m : Act σ ε α) : Act σ ε α := fun s =>
  match m s with
  | (.err e, s') => (.err (f e), s')
  | r => r

/-- Run a call and hand its error to the caller as a value. -/
def attempt (m : Act σ ε α) : Act σ ε (Except ε α) := fun s =>
  match m s with
  | (.ok a, s') => (.ok (.ok a), s')
  | (.err e, s') => (.ok (.error e), s')
  | (.panic p, s') => (.panic p, s')
  | (.outOfFuel, s') => (.outOfFuel, s')

/-- `for _, x := range xs`, with a body that may return early. -/
def forEach (body : α → Act σ ε Unit) : List α → Act σ ε Unit
  | [] => fun s => (.ok (), s)
  | x :: xs => (body x).bind fun _ => forEach body xs

/-! ### Running a sequence -/

@[simp] theorem pure_apply (a : α) (s : σ) : (pure a : Act σ ε α) s = (.ok a, s) := rfl

@[simp] theorem lift_apply (o : Outcome ε α) (s : σ) : (lift o : Act σ ε α) s = (o, s) := rfl

@[simp] theorem get_apply (s : σ) : (get : Act σ ε σ) s = (.ok s, s) := rfl

@[simp] theorem modify_apply (f : σ → σ) (s : σ) :
    (modify f : Act σ ε Unit) s = (.ok (), f s) := rfl

@[simp] theorem on_apply (read : σ → τ) (write : τ → σ → σ) (m : Act τ ε α) (s : σ) :
    on read write m s = ((m (read s)).1, write (m (read s)).2 s) := rfl

/-- A call with a known outcome, as a pair. -/
theorem eq_mk_of_fst {m : Act σ ε α} {s : σ} {o : Outcome ε α} (h : (m s).1 = o) :
    m s = (o, (m s).2) := Prod.ext h rfl

theorem bind_apply_ok {m : Act σ ε α} {s s' : σ} {a : α} (h : m s = (.ok a, s'))
    (f : α → Act σ ε β) : (m >>= f) s = f a s' := by
  change m.bind f s = _
  rw [bind, h]

theorem bind_apply_err {m : Act σ ε α} {s s' : σ} {e : ε} (h : m s = (.err e, s'))
    (f : α → Act σ ε β) : (m >>= f) s = (.err e, s') := by
  change m.bind f s = _
  rw [bind, h]

theorem bind_apply_panic {m : Act σ ε α} {s s' : σ} {p : Panic} (h : m s = (.panic p, s'))
    (f : α → Act σ ε β) : (m >>= f) s = (.panic p, s') := by
  change m.bind f s = _
  rw [bind, h]

theorem bind_apply_outOfFuel {m : Act σ ε α} {s s' : σ} (h : m s = (.outOfFuel, s'))
    (f : α → Act σ ε β) : (m >>= f) s = (.outOfFuel, s') := by
  change m.bind f s = _
  rw [bind, h]

instance : LawfulMonad (Act σ ε) := LawfulMonad.mk' (Act σ ε)
  (fun m => by
    funext s
    show bind m pure s = m s
    unfold bind
    rcases m s with ⟨_ | _ | _ | _, s'⟩ <;> rfl)
  (fun _ _ => rfl)
  (fun m f g => by
    funext s
    show bind (bind m f) g s = bind m (fun a => bind (f a) g) s
    unfold bind
    rcases m s with ⟨_ | _ | _ | _, s'⟩ <;> rfl)

/-- A sequence ends where its first half ends, unless that returned a value. -/
theorem bind_apply_stop {m : Act σ ε α} {s s' : σ} {o : Outcome ε α} (h : m s = (o, s'))
    (hne : ∀ a, o ≠ .ok a) (f : α → Act σ ε α) : (m >>= f) s = (o, s') := by
  cases o with
  | ok a => exact absurd rfl (hne a)
  | err e => exact bind_apply_err h f
  | panic p => exact bind_apply_panic h f
  | outOfFuel => exact bind_apply_outOfFuel h f

/-- The second half then leaves the state alone, whatever it would return. -/
theorem bind_snd_stop {m : Act σ ε α} {s s' : σ} {o : Outcome ε α} (h : m s = (o, s'))
    (hne : ∀ a, o ≠ .ok a) (f : α → Act σ ε β) : ((m >>= f) s).2 = s' := by
  cases o with
  | ok a => exact absurd rfl (hne a)
  | err e => rw [bind_apply_err h]
  | panic p => rw [bind_apply_panic h]
  | outOfFuel => rw [bind_apply_outOfFuel h]

/-- A sequence on a component is a sequence of calls on it. -/
theorem on_bind {read : σ → τ} {write : τ → σ → σ} (hread : ∀ t s, read (write t s) = t)
    (hwrite : ∀ t t' s, write t (write t' s) = write t s) (m : Act τ ε α) (f : α → Act τ ε β) :
    on read write (m >>= f) = on read write m >>= fun a => on read write (f a) := by
  funext s
  rw [on_apply]
  rcases hm : m (read s) with ⟨o, t⟩
  have hon : on read write m s = (o, write t s) := by rw [on_apply, hm]
  cases o with
  | ok a => rw [bind_apply_ok hm, bind_apply_ok hon, on_apply, hread, hwrite]
  | err e => rw [bind_apply_err hm, bind_apply_err hon]
  | panic p => rw [bind_apply_panic hm, bind_apply_panic hon]
  | outOfFuel => rw [bind_apply_outOfFuel hm, bind_apply_outOfFuel hon]

/-- A sequence returns a value exactly when both halves do, one after the other. -/
theorem bind_eq_ok {m : Act σ ε α} {f : α → Act σ ε β} {s s'' : σ} {b : β} :
    (m >>= f) s = (.ok b, s'') ↔ ∃ a s', m s = (.ok a, s') ∧ f a s' = (.ok b, s'') := by
  rcases hm : m s with ⟨o, s'⟩
  cases o with
  | ok a => rw [bind_apply_ok hm]; simp
  | err e => rw [bind_apply_err hm]; simp
  | panic p => rw [bind_apply_panic hm]; simp
  | outOfFuel => rw [bind_apply_outOfFuel hm]; simp

/-- A sequence returns an error when its first half does, or when the second half does on the
state the first half left. -/
theorem bind_eq_err {m : Act σ ε α} {f : α → Act σ ε β} {s s'' : σ} {e : ε} :
    (m >>= f) s = (.err e, s'') ↔
      m s = (.err e, s'') ∨ ∃ a s', m s = (.ok a, s') ∧ f a s' = (.err e, s'') := by
  rcases hm : m s with ⟨o, s'⟩
  cases o with
  | ok a => rw [bind_apply_ok hm]; simp
  | err e => rw [bind_apply_err hm]; simp
  | panic p => rw [bind_apply_panic hm]; simp
  | outOfFuel => rw [bind_apply_outOfFuel hm]; simp

theorem get_bind_apply (f : σ → Act σ ε β) (s : σ) : (get >>= f) s = f s s := rfl

theorem modify_bind_apply (g : σ → σ) (f : Unit → Act σ ε β) (s : σ) :
    (modify g >>= f) s = f () (g s) := rfl

/-- A check in front of a call: the call runs on the state the check found. -/
theorem lift_bind_eq_ok {o : Outcome ε α} {f : α → Act σ ε β} {s s' : σ} {b : β} :
    (lift o >>= f) s = (.ok b, s') ↔ ∃ a, o = .ok a ∧ f a s = (.ok b, s') := by
  rw [bind_eq_ok]
  constructor
  · rintro ⟨a, s₁, hlift, hf⟩
    obtain ⟨ho, rfl⟩ := Prod.mk.inj hlift
    exact ⟨a, ho, hf⟩
  · rintro ⟨a, ho, hf⟩
    exact ⟨a, s, by rw [lift_apply, ho], hf⟩

/-- The check has passed, or the state is as it was and there is no result. -/
theorem lift_bind_cases {o : Outcome ε α} {f : α → Act σ ε β} {s s' : σ} {r : Outcome ε β}
    (hcall : (lift o >>= f) s = (r, s')) :
    (∃ a, o = .ok a ∧ f a s = (r, s')) ∨ r.toOption = none ∧ s' = s := by
  cases o with
  | ok a => exact Or.inl ⟨a, rfl, hcall⟩
  | err e => cases hcall; exact Or.inr ⟨rfl, rfl⟩
  | panic p => cases hcall; exact Or.inr ⟨rfl, rfl⟩
  | outOfFuel => cases hcall; exact Or.inr ⟨rfl, rfl⟩

/-! ### The loop -/

theorem returns_bind {m : Act σ ε α} {f : α → Act σ ε β} {s : σ} :
    ((m >>= f) s).1.Returns ↔
      (m s).1.Returns ∧ ∀ a s', m s = (.ok a, s') → (f a s').1.Returns := by
  rcases hm : m s with ⟨o, s'⟩
  cases o with
  | ok a => rw [bind_apply_ok hm]; simp [Outcome.Returns]
  | err e => rw [bind_apply_err hm]; simp [Outcome.Returns]
  | panic p => rw [bind_apply_panic hm]; simp
  | outOfFuel => rw [bind_apply_outOfFuel hm]; simp [Outcome.Returns]

theorem attempt_snd (m : Act σ ε α) (s : σ) : (attempt m s).2 = (m s).2 := by
  unfold attempt
  rcases m s with ⟨_ | _ | _ | _, s'⟩ <;> rfl

theorem attempt_eq_ok {m : Act σ ε α} {s s' : σ} {a : α} :
    attempt m s = (.ok (.ok a), s') ↔ m s = (.ok a, s') := by
  unfold attempt
  rcases m s with ⟨_ | _ | _ | _, _⟩ <;> simp

theorem returns_attempt {m : Act σ ε α} {s : σ} :
    (attempt m s).1.Returns ↔ (m s).1.Returns := by
  unfold attempt
  rcases m s with ⟨_ | _ | _ | _, s'⟩ <;> exact Iff.rfl

@[simp] theorem forEach_nil (body : α → Act σ ε Unit) (s : σ) :
    forEach body [] s = (.ok (), s) := rfl

theorem forEach_cons (body : α → Act σ ε Unit) (x : α) (xs : List α) :
    forEach body (x :: xs) = body x >>= fun _ => forEach body xs := rfl

/-- A loop that succeeds goes on with one more round. -/
theorem forEach_concat {body : α → Act σ ε Unit} {xs : List α} {x : α} {s s' s'' : σ}
    (h : forEach body xs s = (.ok (), s')) (hx : body x s' = (.ok (), s'')) :
    forEach body (xs ++ [x]) s = (.ok (), s'') := by
  induction xs generalizing s with
  | nil =>
    obtain ⟨-, rfl⟩ := Prod.mk.inj h
    rw [List.nil_append, forEach_cons, bind_apply_ok hx, forEach_nil]
  | cons y xs ih =>
    rw [forEach_cons, bind_eq_ok] at h
    obtain ⟨_, s₁, hy, hrest⟩ := h
    rw [List.cons_append, forEach_cons, bind_apply_ok hy]
    exact ih hrest

/-- **Where a loop stops.** A loop ends without success exactly when some element ends so on the
state that the elements before it, all successful, have produced. -/
theorem forEach_stop {body : α → Act σ ε Unit} {xs : List α} {s s'' : σ} {o : Outcome ε Unit}
    (stop : ∀ u, o ≠ .ok u) :
    forEach body xs s = (o, s'') ↔
      ∃ pre x post s', xs = pre ++ x :: post ∧ forEach body pre s = (.ok (), s') ∧
        body x s' = (o, s'') := by
  induction xs generalizing s with
  | nil =>
    refine iff_of_false (fun h => stop () (Prod.mk.inj h).1.symm) ?_
    rintro ⟨pre, x, post, _, hsplit, -⟩
    exact absurd hsplit (by simp)
  | cons x xs ih =>
    rcases hx : body x s with ⟨o₁, s₁⟩
    rw [forEach_cons]
    by_cases hok : o₁ = .ok ()
    · subst hok
      rw [bind_apply_ok hx, ih]
      constructor
      · rintro ⟨pre, y, post, s', rfl, hpre, hy⟩
        refine ⟨x :: pre, y, post, s', rfl, ?_, hy⟩
        rw [forEach_cons, bind_apply_ok hx, hpre]
      · rintro ⟨pre, y, post, s', hsplit, hpre, hy⟩
        cases pre with
        | nil =>
          obtain ⟨rfl, rfl⟩ := List.cons.inj hsplit
          obtain rfl : s = s' := (Prod.mk.inj hpre).2
          exact absurd (Prod.mk.inj (hy.symm.trans hx)).1 (stop ())
        | cons z pre =>
          obtain ⟨rfl, rfl⟩ := List.cons.inj hsplit
          rw [forEach_cons, bind_apply_ok hx] at hpre
          exact ⟨pre, y, post, s', rfl, hpre, hy⟩
    · rw [bind_apply_stop hx fun _ => hok]
      constructor
      · intro h
        exact ⟨[], x, xs, s, rfl, rfl, hx.trans h⟩
      · rintro ⟨pre, y, post, s', hsplit, hpre, hy⟩
        cases pre with
        | nil =>
          obtain ⟨rfl, rfl⟩ := List.cons.inj hsplit
          obtain rfl : s = s' := (Prod.mk.inj hpre).2
          exact hx.symm.trans hy
        | cons z pre =>
          obtain ⟨rfl, rfl⟩ := List.cons.inj hsplit
          rw [forEach_cons, bind_apply_stop hx fun _ => hok] at hpre
          exact absurd (Prod.mk.inj hpre).1 hok

/-! ### Frames -/

/-- Whatever its outcome, `m` moves the state along `R`. -/
def Moves (R : σ → σ → Prop) (m : Act σ ε α) : Prop := ∀ s, R s (m s).2

section Frames

variable {R : σ → σ → Prop}

theorem Moves.of_call {m : Act σ ε α} {s s' : σ} {o : Outcome ε α} (hm : Moves R m)
    (hcall : m s = (o, s')) : R s s' := by
  have hs := hm s
  rwa [hcall] at hs

theorem Moves.lift [Std.Refl R] (o : Outcome ε α) : Moves R (lift o : Act σ ε α) :=
  fun s => Std.Refl.refl s

theorem Moves.pure [Std.Refl R] (a : α) : Moves R (pure a : Act σ ε α) :=
  fun s => Std.Refl.refl s

theorem Moves.get [Std.Refl R] : Moves R (get : Act σ ε σ) :=
  fun s => Std.Refl.refl s

/-- Frames compose. The intermediate state is the one the first call leaves, also when the second
call fails. -/
theorem Moves.bind [IsTrans σ R] {m : Act σ ε α} {f : α → Act σ ε β} (hm : Moves R m)
    (hf : ∀ a, Moves R (f a)) : Moves R (m >>= f) := by
  intro s
  have h₁ := hm s
  rcases h : m s with ⟨o, s'⟩
  rw [h] at h₁
  cases o with
  | ok a =>
    rw [bind_apply_ok h]
    exact trans_of R h₁ (hf a s')
  | err e => rwa [bind_apply_err h]
  | panic p => rwa [bind_apply_panic h]
  | outOfFuel => rwa [bind_apply_outOfFuel h]

/-- Along a relation that does not compose, one of the two calls may only read. -/
theorem Moves.lift_bind [Std.Refl R] {o : Outcome ε α} {f : α → Act σ ε β}
    (hf : ∀ a, Moves R (f a)) : Moves R (Act.lift o >>= f) := by
  intro s
  cases o with
  | ok a => exact hf a s
  | err e => exact Std.Refl.refl s
  | panic p => exact Std.Refl.refl s
  | outOfFuel => exact Std.Refl.refl s

theorem Moves.bind_reads {m : Act σ ε α} {f : α → Act σ ε β} (hm : Moves R m)
    (hf : ∀ a s, (f a s).2 = s) : Moves R (m >>= f) := by
  intro s
  have h₁ := hm s
  rcases h : m s with ⟨o, s'⟩
  rw [h] at h₁
  cases o with
  | ok a => rwa [bind_apply_ok h, hf a s']
  | err e => rwa [bind_apply_err h]
  | panic p => rwa [bind_apply_panic h]
  | outOfFuel => rwa [bind_apply_outOfFuel h]

theorem Moves.attempt {m : Act σ ε α} (hm : Moves R m) : Moves R (Act.attempt m) := by
  intro s
  rw [attempt_snd]
  exact hm s

/-- A loop stays inside the frame of its body. -/
theorem Moves.forEach [Std.Refl R] [IsTrans σ R] {body : α → Act σ ε Unit} {xs : List α}
    (h : ∀ x ∈ xs, Moves R (body x)) : Moves R (forEach body xs) := by
  induction xs with
  | nil => exact fun s => Std.Refl.refl s
  | cons x xs ih =>
    rw [forEach_cons]
    exact Moves.bind (h x List.mem_cons_self)
      (fun _ => ih fun y hy => h y (List.mem_cons_of_mem _ hy))

end Frames

/-! ### Budgets -/

/-- `m'` does what `m` does, wherever `m` comes to an end within its budget. -/
def Extends (m m' : Act σ ε α) : Prop := ∀ s, (m s).1 ≠ .outOfFuel → m' s = m s

theorem Extends.refl (m : Act σ ε α) : Extends m m := fun _ _ => rfl

theorem Extends.bind {m m' : Act σ ε α} {f f' : α → Act σ ε β} (hm : Extends m m')
    (hf : ∀ a, Extends (f a) (f' a)) : Extends (m >>= f) (m' >>= f') := by
  intro s hend
  have hsame := hm s
  rcases h : m s with ⟨o, s'⟩
  rw [h] at hsame
  cases o with
  | ok a =>
    rw [bind_apply_ok h] at hend ⊢
    rw [bind_apply_ok (hsame (by simp))]
    exact hf a s' hend
  | err e => rw [bind_apply_err h, bind_apply_err (hsame (by simp))]
  | panic p => rw [bind_apply_panic h, bind_apply_panic (hsame (by simp))]
  | outOfFuel =>
    rw [bind_apply_outOfFuel h] at hend
    exact absurd rfl hend

theorem Extends.forEach {body body' : α → Act σ ε Unit} {xs : List α}
    (h : ∀ x, Extends (body x) (body' x)) : Extends (forEach body xs) (forEach body' xs) := by
  induction xs with
  | nil => exact Extends.refl _
  | cons x xs ih =>
    rw [forEach_cons, forEach_cons]
    exact (h x).bind fun _ => ih

theorem Extends.on {read : σ → τ} {write : τ → σ → σ} {m m' : Act τ ε α} (h : Extends m m') :
    Extends (on read write m) (on read write m') := by
  intro s hend
  rw [on_apply, on_apply, h (read s) hend]

/-- `m` never uses up a budget. -/
def Ends (m : Act σ ε α) : Prop := ∀ s, (m s).1 ≠ .outOfFuel

theorem Ends.pure (a : α) : Ends (Pure.pure a : Act σ ε α) := fun _ h => nomatch h

theorem Ends.lift {o : Outcome ε α} (ho : o ≠ .outOfFuel) : Ends (lift o : Act σ ε α) :=
  fun _ => ho

theorem Ends.bind {m : Act σ ε α} {f : α → Act σ ε β} (hm : Ends m) (hf : ∀ a, Ends (f a)) :
    Ends (m >>= f) := by
  intro s
  have hend := hm s
  rcases h : m s with ⟨o, s'⟩
  rw [h] at hend
  cases o with
  | ok a =>
    rw [bind_apply_ok h]
    exact hf a s'
  | err e =>
    rw [bind_apply_err h]
    exact fun he => nomatch he
  | panic p =>
    rw [bind_apply_panic h]
    exact fun hp => nomatch hp
  | outOfFuel => exact absurd rfl hend

theorem Ends.on {read : σ → τ} {write : τ → σ → σ} {m : Act τ ε α} (h : Ends m) :
    Ends (on read write m) := fun s => h (read s)

/-! ### Views -/

/-- `m'` does to the view of a state what `m` does to the state, and ends in the same way. -/
def Tracks (view : σ → τ) (m : Act σ ε α) (m' : Act τ ε α) : Prop :=
  ∀ s, m' (view s) = ((m s).1, view (m s).2)

variable {view : σ → τ}

theorem Tracks.lift (o : Outcome ε α) : Tracks view (lift o) (lift o) := fun _ => rfl

theorem Tracks.bind {m : Act σ ε α} {m' : Act τ ε α} {f : α → Act σ ε β} {f' : α → Act τ ε β}
    (hm : Tracks view m m') (hf : ∀ a, Tracks view (f a) (f' a)) :
    Tracks view (m >>= f) (m' >>= f') := by
  intro s
  have hseen := hm s
  rcases h : m s with ⟨o, s'⟩
  rw [h] at hseen
  cases o with
  | ok a =>
    rw [bind_apply_ok h, bind_apply_ok hseen]
    exact hf a s'
  | err e => rw [bind_apply_err h, bind_apply_err hseen]
  | panic p => rw [bind_apply_panic h, bind_apply_panic hseen]
  | outOfFuel => rw [bind_apply_outOfFuel h, bind_apply_outOfFuel hseen]

theorem Tracks.forEach {body : α → Act σ ε Unit} {body' : α → Act τ ε Unit} (xs : List α)
    (h : ∀ x, Tracks view (body x) (body' x)) :
    Tracks view (forEach body xs) (forEach body' xs) := by
  induction xs with
  | nil => exact fun _ => rfl
  | cons x xs ih =>
    rw [forEach_cons, forEach_cons]
    exact (h x).bind fun _ => ih

end Act

end Effect
