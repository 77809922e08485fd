import Mathlib.Data.Finmap
import Mathlib.Data.Finsupp.Weight
import Mathlib.Tactic.Ring

/-!
# Ledgers with exact balances

A ledger assigns to each holder a natural number, and is zero outside a finite set: it is a
finitely supported function `α →₀ ℕ`, and what it holds altogether is `Finsupp.degree`. Balances
here are exact, so the operations are total and nothing wraps. A program that keeps its balances in
machine words is compared with this ledger: as long as the total fits into a word, so does every
balance (`Finsupp.le_degree`), and the word arithmetic is the exact one.

* `mint` and `move` — create value at a holder, and pass value from one holder to another, who may
  be the same one.
* `Flow l l' out` — what a sequence of moves can do: the total is kept, and no holder `a` loses
  more than `out a`.
* `ofFinmap` — the ledger read off a finite map of accounts.
-/

namespace Ledger

open Finsupp

variable {α : Type*}

/-- Create `n` at `a`. -/
noncomputable def mint (l : α →₀ ℕ) (a : α) (n : ℕ) : α →₀ ℕ := l + single a n

/-- Pass `n` from `a` to `b`. -/
noncomputable def move (l : α →₀ ℕ) (a b : α) (n : ℕ) : α →₀ ℕ := l - single a n + single b n

@[simp] theorem degree_mint (l : α →₀ ℕ) (a : α) (n : ℕ) :
    (mint l a n).degree = l.degree + n := by
  rw [mint, map_add, degree_single]

theorem le_mint (l : α →₀ ℕ) (a b : α) (n : ℕ) : l b ≤ mint l a n b := by
  rw [mint, Finsupp.add_apply]
  exact Nat.le_add_right _ _

/-- Passing on what is there keeps the total. -/
theorem degree_move {l : α →₀ ℕ} {a : α} {n : ℕ} (h : n ≤ l a) (b : α) :
    (move l a b n).degree = l.degree := by
  have hle : single a n ≤ l := single_le_iff.mpr h
  have hsplit : (l - single a n).degree + (single a n).degree = l.degree := by
    rw [← map_add, tsub_add_cancel_of_le hle]
  rw [degree_single] at hsplit
  rw [move, map_add, degree_single, hsplit]

/-- Only the payer can lose, and no more than the amount passed on. -/
theorem le_move (l : α →₀ ℕ) (a b c : α) (n : ℕ) :
    l c ≤ move l a b n c + single a n c := by
  rw [move, Finsupp.add_apply, Finsupp.tsub_apply]
  omega

/-! ### What a sequence of moves can do -/

/-- The total is kept, and no holder `a` loses more than `out a`. -/
structure Flow (l l' : α →₀ ℕ) (out : α → ℕ) : Prop where
  total : l'.degree = l.degree
  debit : ∀ a, l a ≤ l' a + out a

namespace Flow

theorem refl (l : α →₀ ℕ) : Flow l l 0 where
  total := rfl
  debit _ := Nat.le_add_right _ _

theorem move {l : α →₀ ℕ} {a : α} {n : ℕ} (h : n ≤ l a) (b : α) :
    Flow l (Ledger.move l a b n) (single a n) where
  total := degree_move h b
  debit c := le_move l a b c n

/-- One flow after the other: the losses add up. -/
theorem trans {l₁ l₂ l₃ : α →₀ ℕ} {out out' : α → ℕ} (h₁ : Flow l₁ l₂ out)
    (h₂ : Flow l₂ l₃ out') : Flow l₁ l₃ (out + out') where
  total := h₂.total.trans h₁.total
  debit a := by
    have h₃ := h₁.debit a
    have h₄ := h₂.debit a
    rw [Pi.add_apply]
    omega

theorem mono {l l' : α →₀ ℕ} {out out' : α → ℕ} (h : Flow l l' out) (hle : ∀ a, out a ≤ out' a) :
    Flow l l' out' where
  total := h.total
  debit a := (h.debit a).trans (Nat.add_le_add_left (hle a) _)

end Flow

/-! ### The ledger of a finite map -/

section OfFinmap

variable {β : Type*} [DecidableEq α]

/-- The ledger of a finite map of accounts, each worth `worth`. -/
noncomputable def ofFinmap (worth : β → ℕ) (m : Finmap fun _ : α => β) : α →₀ ℕ :=
  onFinset m.keys (fun a => ((m.lookup a).map worth).getD 0) (by
    intro a ha
    rw [Finmap.mem_keys, ← Finmap.lookup_isSome]
    cases h : m.lookup a with
    | none => simp [h] at ha
    | some b => rfl)

theorem ofFinmap_apply (worth : β → ℕ) (m : Finmap fun _ : α => β) (a : α) :
    ofFinmap worth m a = ((m.lookup a).map worth).getD 0 := rfl

/-- The total of the ledger is the sum over the entries of the map. -/
theorem degree_ofFinmap (worth : β → ℕ) (m : Finmap fun _ : α => β) :
    (ofFinmap worth m).degree = ∑ a ∈ m.keys, ((m.lookup a).map worth).getD 0 := by
  change ∑ a ∈ (ofFinmap worth m).support, ofFinmap worth m a = _
  refine Finset.sum_subset support_onFinset_subset ?_
  intro a _ ha
  exact notMem_support_iff.mp ha

/-- Overwriting one account changes the ledger at that holder alone. -/
theorem ofFinmap_insert (worth : β → ℕ) (m : Finmap fun _ : α => β) (a : α) (b : β) :
    ofFinmap worth (m.insert a b) = (ofFinmap worth m).update a (worth b) := by
  ext c
  rw [ofFinmap_apply, update_apply, ofFinmap_apply]
  by_cases h : c = a
  · subst h
    simp
  · rw [Finmap.lookup_insert_of_ne _ h, if_neg h]

end OfFinmap

end Ledger
