import Blockz.Network.TxPool

/-!
# A collection through any sequence of calls

`TxSortedMap` of `network/txpool.go` keeps every transaction twice: in a map, under its hash, and in
a list. `Remove` finds the one in the list by deep equality with the one in the map. Whatever the
calls were, both hold the same transactions.

* `standing` — what the calls leave, read off the calls themselves: an `Add` counts unless a later
  call takes its hash out, and they come in the order of the calls.
* `txx_performAll` — the list is the first transaction of each hash among those that stand.
* `Represents` — the map agrees with the list.
-/

namespace Blockz

namespace TxSortedMap

/-- A call that may change a collection. -/
inductive Call
  | add (tx : Transaction)
  | remove (h : Hash)
  | clear

/-- The call takes out what has the hash. -/
def Call.Drops : Call → Hash → Prop
  | .add _, _ => False
  | .remove h, k => k = h
  | .clear, _ => True

instance (c : Call) (k : Hash) : Decidable (c.Drops k) :=
  match c with
  | .add _ => inferInstanceAs (Decidable False)
  | .remove h => inferInstanceAs (Decidable (k = h))
  | .clear => inferInstanceAs (Decidable True)

variable (P : Primitives)

/-- A call. -/
def perform (c : Call) (t : TxSortedMap) : TxSortedMap :=
  match c with
  | .add tx => t.add P tx
  | .remove h => t.remove h
  | .clear => t.clear

/-- The calls, one after the other. -/
def performAll (calls : List Call) (t : TxSortedMap) : TxSortedMap :=
  calls.foldl (fun t c => perform P c t) t

/-- The transactions that were added and that no later call has taken out, in the order of the
calls. -/
def standing : List Call → List Transaction
  | [] => []
  | .add tx :: later =>
    if ∃ c ∈ later, c.Drops (tx.hash P) then standing later else tx.cacheHash P :: standing later
  | .remove _ :: later => standing later
  | .clear :: later => standing later

/-- Map and list of a collection after the calls. -/
structure Represents (calls : List Call) (t : TxSortedMap) : Prop where
  -- the keys of the map are the hashes of the list
  keys : ∀ h, h ∈ t.lookup ↔ ∃ tx ∈ t.txx, tx.hash P = h
  -- each hash occurs once
  once : (t.txx.map (Transaction.hash P)).Nodup
  -- the entry of a hash is the transaction of the list that has it
  entry : ∀ h tx, t.lookup.lookup h = some tx ↔ tx ∈ t.txx ∧ tx.hash P = h
  count : t.count = t.txx.length
  -- what was added and has survived, in the order of the calls
  order : t.txx = Window.firsts (Transaction.hash P) (standing P calls)

/-- `Remove` takes out the entry of the hash and nothing else, from the map and from the list. -/
structure RemovesExactly (h : Hash) (t t' : TxSortedMap) : Prop where
  list : t'.txx = t.txx.filter fun tx => tx.hash P ≠ h
  gone : t'.lookup.lookup h = none
  kept : ∀ k, k ≠ h → t'.lookup.lookup k = t.lookup.lookup k

variable {P} {t : TxSortedMap}

/-! ### One call -/

theorem indexed_clear (t : TxSortedMap) : Indexed P t.clear := indexed_new

theorem Indexed.perform (ht : Indexed P t) (c : Call) : Indexed P (perform P c t) := by
  cases c with
  | add tx => exact ht.add tx
  | remove h => exact ht.remove h
  | clear => exact indexed_clear t

theorem Indexed.removesExactly (ht : Indexed P t) (h : Hash) :
    RemovesExactly P h t (t.remove h) where
  list := ht.txx_remove h
  gone := Finmap.lookup_erase h t.lookup
  kept _ hk := Finmap.lookup_erase_ne hk

/-! ### What stands after one more call -/

/-- One more call takes out what it drops, and adds its own transaction. -/
theorem standing_concat (calls : List Call) (c : Call) :
    standing P (calls ++ [c]) =
      ((standing P calls).filter fun tx => ¬ c.Drops (tx.hash P)) ++ standing P [c] := by
  induction calls with
  | nil => rfl
  | cons first calls ih =>
    cases first with
    | remove h => exact ih
    | clear => exact ih
    | add tx =>
      rw [List.cons_append, standing, standing, ih]
      have hlater : (∃ c' ∈ calls ++ [c], c'.Drops (tx.hash P)) ↔
          (∃ c' ∈ calls, c'.Drops (tx.hash P)) ∨ c.Drops (tx.hash P) := by
        simp only [List.mem_append, List.mem_singleton, or_and_right, exists_or, exists_eq_left]
      by_cases hbefore : ∃ c' ∈ calls, c'.Drops (tx.hash P)
      · rw [if_pos (hlater.mpr (Or.inl hbefore)), if_pos hbefore]
      rw [if_neg hbefore]
      by_cases hnow : c.Drops (tx.hash P)
      · -- it has stood until now
        rw [if_pos (hlater.mpr (Or.inr hnow)), List.filter_cons_of_neg]
        simpa only [Transaction.hash_cacheHash, decide_eq_true_iff, not_not] using hnow
      · rw [if_neg fun h => (hlater.mp h).elim hbefore hnow, List.filter_cons_of_pos,
          List.cons_append]
        simpa only [Transaction.hash_cacheHash, decide_eq_true_iff] using hnow

/-! ### All calls -/

theorem performAll_concat (calls : List Call) (c : Call) (t : TxSortedMap) :
    performAll P (calls ++ [c]) t = perform P c (performAll P calls t) :=
  List.foldl_append

theorem indexed_performAll (calls : List Call) : Indexed P (performAll P calls new) := by
  induction calls using List.reverseRecOn with
  | nil => exact indexed_new
  | append_singleton calls c ih =>
    rw [performAll_concat]
    exact ih.perform c

/-- **Insertion order.** -/
theorem txx_performAll (calls : List Call) :
    (performAll P calls new).txx = Window.firsts (Transaction.hash P) (standing P calls) := by
  induction calls using List.reverseRecOn with
  | nil => rfl
  | append_singleton calls c ih =>
    have ht := indexed_performAll (P := P) calls
    rw [performAll_concat, standing_concat]
    cases c with
    | add tx =>
      -- an `Add` drops nothing
      have hall : ((standing P calls).filter fun tx' => ¬ (Call.add tx).Drops (tx'.hash P)) =
          standing P calls := List.filter_eq_self.mpr fun _ _ => rfl
      rw [hall, standing, if_neg (by simp), standing, Window.firsts_concat, ← ih]
      exact ht.txx_add tx
    | remove h =>
      rw [standing, standing, List.append_nil]
      show (TxSortedMap.remove h _).txx =
        Window.firsts _ ((standing P calls).filter fun tx => tx.hash P ≠ h)
      rw [ht.txx_remove, ih, Window.firsts_filter]
    | clear =>
      -- a `Clear` drops everything
      have hnone : ((standing P calls).filter fun tx => ¬ Call.clear.Drops (tx.hash P)) = [] :=
        List.filter_eq_nil_iff.mpr fun _ _ h => nomatch h
      rw [hnone]
      rfl

/-- **The representation invariant.** After any sequence of calls the map and the list hold the same
transactions, and `Remove` takes one out of both. -/
theorem represents_performAll (calls : List Call) :
    Represents P calls (performAll P calls new) ∧
      ∀ h, RemovesExactly P h (performAll P calls new) ((performAll P calls new).remove h) := by
  have ht := indexed_performAll (P := P) calls
  refine ⟨⟨fun h => ?_, ht.nodup, ht.lookup_iff, ht.count_eq, txx_performAll calls⟩,
    ht.removesExactly⟩
  rw [ht.mem_lookup, List.mem_map]

end TxSortedMap

end Blockz
