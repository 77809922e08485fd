import Mathlib.Data.List.Induction
import Mathlib.Logic.Function.Basic
import Mathlib.Tactic.Common

/-!
# Replaying a log of writes

A store is a function from keys to values, and a log lists the writes that were made to it, oldest
first. `replay m log` is the store that they leave.

* `replay_apply` — at a key stands what was written there last, and otherwise what stood there
  before.
* `replay_block` — writes at consecutive positions.
* `replay_flatMap_filter` — a writer that does not write at a key is not seen there.
* `replay_eq_self_iff` — a log leaves no trace exactly when the last write at each of its keys
  restored what stood there before.
-/

namespace WriteLog

variable {κ ν : Type*} [DecidableEq κ]

/-- The store after the writes of a log. -/
def replay (m : κ → ν) (log : List (κ × ν)) : κ → ν :=
  log.foldl (fun m w => Function.update m w.1 w.2) m

/-- What a log wrote last at a key. -/
def last (log : List (κ × ν)) (k : κ) : Option ν :=
  (log.reverse.find? fun w => decide (w.1 = k)).map Prod.snd

@[simp] theorem replay_nil (m : κ → ν) : replay m [] = m := rfl

theorem replay_cons (m : κ → ν) (w : κ × ν) (log : List (κ × ν)) :
    replay m (w :: log) = replay (Function.update m w.1 w.2) log := rfl

theorem replay_append (m : κ → ν) (log log' : List (κ × ν)) :
    replay m (log ++ log') = replay (replay m log) log' :=
  List.foldl_append

theorem last_concat (log : List (κ × ν)) (w : κ × ν) (k : κ) :
    last (log ++ [w]) k = if w.1 = k then some w.2 else last log k := by
  unfold last
  rw [List.reverse_append, List.reverse_singleton, List.singleton_append, List.find?_cons]
  by_cases h : w.1 = k
  · rw [if_pos h, decide_eq_true h]
    rfl
  · rw [if_neg h, decide_eq_false h]

/-- **The last write at a key stands.** -/
theorem replay_apply (m : κ → ν) (log : List (κ × ν)) (k : κ) :
    replay m log k = (last log k).getD (m k) := by
  induction log using List.reverseRecOn with
  | nil => rfl
  | append_singleton log w ih =>
    rw [replay_append, replay_cons, replay_nil, last_concat]
    by_cases h : w.1 = k
    · rw [if_pos h, ← h, Function.update_self]
      rfl
    · rw [if_neg h, Function.update_of_ne (Ne.symm h), ih]

theorem replay_congr {m m' : κ → ν} {k : κ} (h : m k = m' k) (log : List (κ × ν)) :
    replay m log k = replay m' log k := by
  rw [replay_apply, replay_apply, h]

/-- The writes of a list at the positions from `a` on. -/
def block (a : ℕ) (values : List ν) : List (ℕ × ν) := (values.zipIdx a).map Prod.swap

/-- What a block leaves at a position: the value that it has for it, if it reaches there. -/
theorem replay_block (m : ℕ → ν) (a : ℕ) (values : List ν) (i : ℕ) :
    replay m (block a values) i = if a ≤ i then values.getD (i - a) (m i) else m i := by
  induction values generalizing m a with
  | nil => exact (ite_self _).symm
  | cons v values ih =>
    show replay (Function.update m a v) (block (a + 1) values) i = _
    rw [ih]
    rcases Nat.lt_trichotomy i a with hlt | rfl | hgt
    · rw [if_neg (by omega), if_neg (by omega), Function.update_of_ne (Nat.ne_of_lt hlt)]
    · rw [if_neg (by omega), if_pos (Nat.le_refl i), Function.update_self, Nat.sub_self]
      rfl
    · -- the position is one of the rest
      have hnext : i - a = i - (a + 1) + 1 := by omega
      rw [if_pos (Nat.succ_le_of_lt hgt), if_pos (Nat.le_of_lt hgt),
        Function.update_of_ne (Nat.ne_of_gt hgt), hnext]
      rfl

/-- At a key only those writers matter that write there. -/
theorem replay_flatMap_filter {α : Type*} (m : κ → ν) (writes : α → List (κ × ν)) (k : κ)
    {p : α → Prop} [DecidablePred p] (xs : List α)
    (hp : ∀ x ∈ xs, ¬ p x → ∀ m, replay m (writes x) k = m k) :
    replay m (xs.flatMap writes) k = replay m ((xs.filter p).flatMap writes) k := by
  induction xs generalizing m with
  | nil => rfl
  | cons x xs ih =>
    have hrest := fun y hy => hp y (List.mem_cons_of_mem x hy)
    rw [List.flatMap_cons, replay_append, ih _ hrest]
    by_cases hx : p x
    · have hkept : (x :: xs).filter p = x :: xs.filter p :=
        List.filter_cons_of_pos (decide_eq_true hx)
      rw [hkept, List.flatMap_cons, replay_append]
    · have hdropped : (x :: xs).filter p = xs.filter p :=
        List.filter_cons_of_neg (by rwa [decide_eq_true_iff])
      rw [hdropped]
      exact replay_congr (hp x List.mem_cons_self hx m) _

/-- **When a log leaves no trace.** -/
theorem replay_eq_self_iff (m : κ → ν) (log : List (κ × ν)) :
    replay m log = m ↔ ∀ k v, last log k = some v → m k = v := by
  constructor
  · intro h k v hlast
    rw [← h, replay_apply, hlast]
    rfl
  · intro h
    funext k
    rw [replay_apply]
    cases hlast : last log k with
    | none => rfl
    | some v => exact (h k v hlast).symm

end WriteLog
