import Mathlib.Data.List.DropRight
import Mathlib.Tactic.Common

/-!
# Stores that lose their last writes

Writes to a store reach the disk one after the other and in the order in which they were made. When
the program dies, the disk has the writes up to some point.

* `Journal` — what was on the disk when the store was opened, and the writes since then.
* `Journal.crash` — what is on the disk when the last `k` writes are lost.
* `Always` — a condition on everything that a crash can leave. It may speak of the number of writes
  that are lost. `Always.record` is the rule for one write: what held with `k` lost writes is asked
  for with one more, and of the new states there is only the one with no write lost.
-/

/-- A store with the writes that were made to it since it was opened, oldest first. -/
structure Journal (σ ω : Type*) where
  settled : σ
  log : List ω

namespace Journal

variable {σ ω : Type*}

/-- The store as it is opened. -/
def reopen (s : σ) : Journal σ ω := ⟨s, []⟩

/-- One more write. -/
def record (w : ω) (j : Journal σ ω) : Journal σ ω := ⟨j.settled, j.log ++ [w]⟩

variable (apply : σ → ω → σ)

/-- What a reader of the running store sees. -/
def current (j : Journal σ ω) : σ := j.log.foldl apply j.settled

/-- What the next start finds when the last `k` writes are lost. -/
def crash (k : ℕ) (j : Journal σ ω) : σ := (j.log.rdrop k).foldl apply j.settled

variable {apply}

@[simp] theorem current_reopen (s : σ) : (reopen s : Journal σ ω).current apply = s := rfl

@[simp] theorem current_record (w : ω) (j : Journal σ ω) :
    (j.record w).current apply = apply (j.current apply) w := by
  unfold current record
  rw [List.foldl_append]
  rfl

theorem crash_zero (j : Journal σ ω) : j.crash apply 0 = j.current apply := by
  unfold crash
  rw [List.rdrop_zero]
  rfl

theorem crash_reopen (s : σ) (k : ℕ) : (reopen s : Journal σ ω).crash apply k = s := by
  unfold crash
  rw [show (reopen s : Journal σ ω).log = [] from rfl, List.rdrop_nil]
  rfl

theorem crash_record_succ (w : ω) (j : Journal σ ω) (k : ℕ) :
    (j.record w).crash apply (k + 1) = j.crash apply k := by
  unfold crash
  rw [show (j.record w).log = j.log ++ [w] from rfl, List.rdrop_concat_succ]
  rfl

/-! ### Conditions on what a crash leaves -/

variable (apply) in
/-- However many writes are lost, what is left meets the condition for this number. -/
def Always (I : ℕ → σ → Prop) (j : Journal σ ω) : Prop := ∀ k, I k (j.crash apply k)

variable {I I' : ℕ → σ → Prop} {j : Journal σ ω} {w : ω}

theorem Always.reopen {s : σ} (h : ∀ k, I k s) : Always apply I (.reopen s : Journal σ ω) := by
  intro k
  rw [crash_reopen]
  exact h k

/-- **One write.** Only the state that it leaves is new. -/
theorem Always.record (h : Always apply I j) (hlost : ∀ k s, I k s → I' (k + 1) s)
    (hwritten : I' 0 (apply (j.current apply) w)) : Always apply I' (j.record w) := by
  intro k
  cases k with
  | zero =>
    rw [crash_zero, current_record]
    exact hwritten
  | succ k =>
    rw [crash_record_succ]
    exact hlost k _ (h k)

end Journal
