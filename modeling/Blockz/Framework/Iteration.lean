import Mathlib.Data.Finmap

/-!
# Walking over a finite map

A loop over a finite map visits every entry once, in an order that is not specified. `Lists l m`
says that `l` is such an order for `m`.

* `Lists.toFinmap_eq` — an order determines the map;
* `Lists.unique` — a map with at most one entry has one order;
* `Lists.exists_ne` — a map with two entries has more than one.
-/

namespace Iteration

variable {α : Type} {β : α → Type}

/-- The entries of `m`, each once, in some order. -/
def Lists (l : List (Sigma β)) (m : Finmap β) : Prop := (l : Multiset (Sigma β)) = m.entries

theorem exists_lists (m : Finmap β) : ∃ l, Lists l m := Quot.exists_rep m.entries

namespace Lists

variable {l l' : List (Sigma β)} {m : Finmap β}

theorem nodupKeys (h : Lists l m) : l.NodupKeys := by
  have hm := m.nodupKeys
  rw [← h] at hm
  exact Multiset.coe_nodupKeys.mp hm

theorem length_eq (h : Lists l m) : l.length = m.keys.card := by
  have hkeys : m.keys.card = m.entries.card := Multiset.card_map Sigma.fst m.entries
  rw [hkeys, ← h]
  rfl

theorem toFinmap_eq [DecidableEq α] (h : Lists l m) : l.toFinmap = m := by
  obtain ⟨entries, hentries⟩ := m
  obtain rfl : (l : Multiset (Sigma β)) = entries := h
  exact Finmap.ext_lookup fun a => List.dlookup_dedupKeys a l

theorem unique (hm : m.keys.card ≤ 1) (h : Lists l m) (h' : Lists l' m) : l = l' := by
  have hperm : l.Perm l' := Multiset.coe_eq_coe.mp (h.trans h'.symm)
  rw [← h.length_eq] at hm
  match l, hm with
  | [], _ => exact (List.nil_perm.mp hperm).symm
  | [x], _ => exact List.singleton_perm.mp hperm

/-- The first two entries in the other order. -/
theorem exists_ne (hm : 1 < m.keys.card) (h : Lists l m) : ∃ l', Lists l' m ∧ l' ≠ l := by
  have hnodup := h.nodupKeys
  rw [← h.length_eq] at hm
  match l, hm with
  | x :: y :: rest, _ =>
    refine ⟨y :: x :: rest, ?_, ?_⟩
    · exact (Multiset.coe_eq_coe.mpr (List.Perm.swap x y rest)).trans h
    · intro heq
      have hxy : y = x := (List.cons.inj heq).1
      rw [hxy] at hnodup
      exact absurd hnodup (by simp)

end Lists

end Iteration
