import Mathlib.Data.Finmap

/-!
# Several maps in one

A flat map from strings to strings holds the entries of several maps, each under keys of its own.
The code of a key is a string, and an entry is kept as a string that can be read back.

* `Holds` — under the codes of its keys, the flat map has what reads as the entries of `m`.
* `Holds.insert` — a write through the code is a write to `m`.
* `Holds.insert_apart` — a write to a key that is no code of this map is not seen by it.
-/

namespace Keyspace

variable {κ β γ ν : Type} [DecidableEq κ] [DecidableEq β]

/-- The entries of `m` stand in `flat`, under the codes of their keys; `reads` says what is taken
for which value. -/
def Holds (code : κ → List β) (reads : γ → ν → Prop) (flat : Finmap fun _ : List β => γ)
    (m : Finmap fun _ : κ => ν) : Prop :=
  ∀ k, Option.Rel reads (flat.lookup (code k)) (m.lookup k)

variable {code : κ → List β} {reads : γ → ν → Prop} {flat : Finmap fun _ : List β => γ}
  {m : Finmap fun _ : κ => ν}

theorem holds_empty : Holds code reads ∅ ∅ := by
  intro k
  rw [Finmap.lookup_empty, Finmap.lookup_empty]
  exact .none

theorem Holds.insert (h : Holds code reads flat m) (hcode : Function.Injective code) {k : κ} {c : γ}
    {x : ν} (hread : reads c x) : Holds code reads (flat.insert (code k) c) (m.insert k x) := by
  intro j
  by_cases hj : j = k
  · rw [hj, Finmap.lookup_insert, Finmap.lookup_insert]
    exact .some hread
  · rw [Finmap.lookup_insert_of_ne _ (hcode.ne hj), Finmap.lookup_insert_of_ne _ hj]
    exact h j

theorem Holds.insert_apart (h : Holds code reads flat m) {key : List β}
    (hapart : ∀ k, code k ≠ key) (c : γ) : Holds code reads (flat.insert key c) m := by
  intro j
  rw [Finmap.lookup_insert_of_ne _ (hapart j)]
  exact h j

omit [DecidableEq κ] [DecidableEq β] in
/-- Codes of different lengths are apart, whatever they have in common. -/
theorem ne_of_length {ι : Type} {code' : ι → List β} {n n' : ℕ} (hlen : ∀ k, (code k).length = n)
    (hlen' : ∀ k, (code' k).length = n') (hne : n ≠ n') (k : κ) (k' : ι) : code k ≠ code' k' := by
  intro heq
  rw [← hlen k, heq, hlen' k'] at hne
  exact hne rfl

end Keyspace
