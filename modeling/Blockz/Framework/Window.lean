import Mathlib.Data.List.DropRight
import Mathlib.Data.List.Nodup

/-!
# Windows over a stream

Items arrive one after the other and every item has a key. A window of a fixed size keeps the last
of them and gives up its oldest item for a new one. A register keeps the first item of each key.

* `evict`, `enter` — the oldest item goes when the window is full; an item comes in unless its key
  is there.
* `rtake_concat` — a window that evicts and then takes the new item holds the last items that came.
* `firsts_concat` — a register that admits holds the first item of each key that came.
* `firsts_filter` — a key can be taken out of the register or out of the stream.
* `enter_evict_eq_self_iff` — what it takes for an item whose key is there to change nothing.
* `subset_enter_evict_iff` — what it takes for a register to stay inside the window.
-/

namespace Window

variable {α κ : Type} [DecidableEq κ] {key : α → κ}

/-- The oldest item goes when there are `size` of them. -/
def evict (size : ℕ) (xs : List α) : List α := if xs.length = size then xs.tail else xs

/-- The item comes in at the end, unless its key is there. -/
def enter (key : α → κ) (x : α) (xs : List α) : List α :=
  if key x ∈ xs.map key then xs else xs ++ [x]

/-- The first item of each key, in the order in which they came. -/
def firsts (key : α → κ) : List α → List α
  | [] => []
  | x :: xs => x :: (firsts key xs).filter fun y => key y ≠ key x

theorem enter_of_mem {x : α} {xs : List α} (hmem : key x ∈ xs.map key) : enter key x xs = xs :=
  if_pos hmem

theorem enter_of_notMem {x : α} {xs : List α} (hmem : key x ∉ xs.map key) :
    enter key x xs = xs ++ [x] :=
  if_neg hmem

theorem enter_eq_self_iff {x : α} {xs : List α} : enter key x xs = xs ↔ key x ∈ xs.map key := by
  refine ⟨fun heq => ?_, enter_of_mem⟩
  by_contra hmem
  rw [enter_of_notMem hmem] at heq
  exact absurd (congrArg List.length heq) (by simp)

theorem evict_of_ne {size : ℕ} {xs : List α} (hne : xs.length ≠ size) : evict size xs = xs :=
  if_neg hne

theorem evict_of_cons {size : ℕ} {x : α} {xs : List α} (hfull : (x :: xs).length = size) :
    evict size (x :: xs) = xs :=
  if_pos hfull

theorem evict_sublist (size : ℕ) (xs : List α) : (evict size xs).Sublist xs := by
  unfold evict
  split
  · exact List.tail_sublist xs
  · exact List.Sublist.refl xs

/-- Behind an eviction there is room for one item. -/
theorem length_evict_lt {size : ℕ} {xs : List α} (hpos : 0 < size) (hle : xs.length ≤ size) :
    (evict size xs).length < size := by
  by_cases hfull : xs.length = size
  · unfold evict
    rw [if_pos hfull, List.length_tail]
    omega
  · rw [evict_of_ne hfull]
    omega

theorem length_enter_le (x : α) (xs : List α) : (enter key x xs).length ≤ xs.length + 1 := by
  unfold enter
  split
  · exact Nat.le_succ _
  · rw [List.length_append, List.length_singleton]

theorem subset_enter (x : α) (xs : List α) : xs ⊆ enter key x xs := by
  unfold enter
  split
  · exact fun _ => id
  · exact fun _ => List.mem_append_left _

theorem mem_enter {x y : α} {xs : List α} (hmem : y ∈ enter key x xs) : y ∈ xs ∨ y = x := by
  unfold enter at hmem
  split at hmem
  · exact Or.inl hmem
  · rcases List.mem_append.mp hmem with hold | hnew
    · exact Or.inl hold
    · exact Or.inr (List.mem_singleton.mp hnew)

/-! ### The last items -/

/-- **A sliding window.** The last `size` items, after one more has come. -/
theorem rtake_concat {size : ℕ} (hpos : 0 < size) (xs : List α) (x : α) :
    (xs ++ [x]).rtake size = evict size (xs.rtake size) ++ [x] := by
  obtain ⟨k, rfl⟩ : ∃ k, size = k + 1 := ⟨size - 1, by omega⟩
  rw [List.rtake_concat_succ]
  congr 1
  unfold evict List.rtake
  rw [List.length_drop]
  by_cases hfull : k + 1 ≤ xs.length
  · rw [if_pos (by omega), List.tail_drop]
    congr 1
    omega
  · rw [if_neg (by omega)]
    congr 1
    omega

/-! ### The first items -/

theorem map_key_firsts (xs : List α) (k : κ) :
    k ∈ (firsts key xs).map key ↔ k ∈ xs.map key := by
  induction xs with
  | nil => rfl
  | cons x xs ih =>
    rw [firsts, List.map_cons, List.map_cons, List.mem_cons, List.mem_cons, ← ih]
    -- the filter takes out the key of `x` only, and that key stands in front
    by_cases hk : k = key x
    · simp [hk]
    · simp only [hk, false_or, List.mem_map, List.mem_filter, decide_eq_true_eq]
      constructor
      · rintro ⟨y, ⟨hy, -⟩, rfl⟩
        exact ⟨y, hy, rfl⟩
      · rintro ⟨y, hy, rfl⟩
        exact ⟨y, ⟨hy, hk⟩, rfl⟩

/-- **A register of first items**, after one more item has come. -/
theorem firsts_concat (xs : List α) (x : α) :
    firsts key (xs ++ [x]) = enter key x (firsts key xs) := by
  induction xs with
  | nil => rfl
  | cons y xs ih =>
    have hkeys := @map_key_firsts _ _ _ key (y :: xs) (key x)
    rw [List.map_cons, List.mem_cons] at hkeys
    rw [List.cons_append, firsts, ih]
    by_cases hx : key x ∈ xs.map key
    · rw [enter_of_mem ((map_key_firsts xs _).mpr hx), enter_of_mem (hkeys.mpr (Or.inr hx)), firsts]
    · rw [enter_of_notMem (fun hmem => hx ((map_key_firsts xs _).mp hmem)), List.filter_append]
      by_cases hxy : key x = key y
      · -- the new item has the key of the first, so it is filtered out again
        rw [enter_of_mem (hkeys.mpr (Or.inl hxy)), List.filter_cons_of_neg (by simpa using hxy),
          List.filter_nil, List.append_nil, firsts]
      · rw [enter_of_notMem (fun hmem => (hkeys.mp hmem).elim hxy hx), firsts,
          List.filter_cons_of_pos (by simpa using hxy), List.filter_nil, List.cons_append]

theorem firsts_filter (k : κ) (xs : List α) :
    firsts key (xs.filter fun x => key x ≠ k) = (firsts key xs).filter fun x => key x ≠ k := by
  induction xs with
  | nil => rfl
  | cons x xs ih =>
    by_cases hx : key x = k
    · -- the items behind it with the same key go as well
      rw [List.filter_cons_of_neg (by simpa using hx), ih, firsts,
        List.filter_cons_of_neg (by simpa using hx), hx, List.filter_filter]
      simp only [Bool.and_self]
    · rw [List.filter_cons_of_pos (by simpa using hx), firsts, ih, firsts,
        List.filter_cons_of_pos (by simpa using hx), List.filter_filter, List.filter_filter]
      congr 2
      funext y
      exact Bool.and_comm _ _

/-! ### An item that is there -/

/-- A window that evicts before it looks whether the key is there stays as it is only if it was not
full, or holds nothing but the very item. -/
theorem enter_evict_eq_self_iff {size : ℕ} {x : α} {xs : List α} (hnodup : (xs.map key).Nodup)
    (hmem : key x ∈ xs.map key) :
    enter key x (evict size xs) = xs ↔ xs.length ≠ size ∨ xs = [x] := by
  by_cases hfull : xs.length = size
  · rw [or_iff_right (not_not_intro hfull)]
    cases xs with
    | nil => exact absurd hmem List.not_mem_nil
    | cons o rest =>
      rw [evict_of_cons hfull]
      rw [List.map_cons, List.nodup_cons] at hnodup
      by_cases hrest : key x ∈ rest.map key
      · -- another item has the key, and the oldest is gone
        rw [enter_of_mem hrest]
        constructor
        · intro heq
          exact absurd (congrArg List.length heq) (by simp)
        · intro heq
          rw [(List.cons.inj heq).2] at hrest
          exact absurd hrest List.not_mem_nil
      · rw [enter_of_notMem hrest]
        cases rest with
        | nil => exact ⟨Eq.symm, Eq.symm⟩
        | cons r rest =>
          -- the item comes in at the other end
          refine iff_of_false (fun heq => ?_) (fun heq => nomatch (List.cons.inj heq).2)
          have hr : r = o := (List.cons.inj heq).1
          exact hnodup.1 (by rw [List.map_cons, hr]; exact List.mem_cons_self)
  · rw [evict_of_ne hfull, enter_of_mem hmem]
    exact iff_of_true rfl (Or.inl hfull)

/-! ### A register beside a window -/

/-- A register that is not evicted from stays inside the window only if the item that leaves the
window is not in the register, or comes in again. -/
theorem subset_enter_evict_iff {size : ℕ} {x : α} {xs ys : List α} (hnodup : (xs.map key).Nodup)
    (hsub : ys ⊆ xs) :
    (if key x ∈ (evict size xs).map key then ys else enter key x ys) ⊆
        enter key x (evict size xs) ↔
      (xs.length = size → ∀ o, xs.head? = some o → o ∈ ys → o = x) := by
  have hys : ys ⊆ if key x ∈ (evict size xs).map key then ys else enter key x ys := by
    split
    · exact fun _ => id
    · exact subset_enter x ys
  constructor
  · intro hin hfull o hhead ho
    obtain ⟨rest, rfl⟩ := List.head?_eq_some_iff.mp hhead
    rw [evict_of_cons hfull] at hin hys
    -- the item that has left is in the window only if it has come in again
    refine (mem_enter (hin (hys ho))).resolve_left fun hrest => ?_
    exact (List.nodup_cons.mp hnodup).1 (List.mem_map_of_mem hrest)
  · intro hleft
    have hkept : ys ⊆ enter key x (evict size xs) := by
      intro y hy
      by_cases hfull : xs.length = size
      · cases xs with
        | nil => exact absurd (hsub hy) List.not_mem_nil
        | cons o rest =>
          rw [evict_of_cons hfull]
          rcases List.mem_cons.mp (hsub hy) with rfl | hrest
          · -- it has come in again, and nothing else has its key
            obtain rfl := hleft hfull y rfl hy
            rw [enter_of_notMem (List.nodup_cons.mp hnodup).1]
            exact List.mem_append_right _ List.mem_cons_self
          · exact subset_enter x rest hrest
      · rw [evict_of_ne hfull]
        exact subset_enter x xs (hsub hy)
    split
    · exact hkept
    · rename_i hnew
      intro y hy
      rcases mem_enter hy with hold | rfl
      · exact hkept hold
      · rw [enter_of_notMem hnew]
        exact List.mem_append_right _ List.mem_cons_self

end Window
