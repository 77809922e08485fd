import Mathlib.Data.List.Basic
import Mathlib.Tactic.Common

/-!
# Slices

A slice is a view of an array: where it starts, how many items it has, and how many the array could
take from there on. Several slices may look at the same array, and an operation on one of them may
then change what another one reads. `append` writes behind the items of a slice as long as there is
room, and moves to a new array when there is none; which capacity the new array gets is left to a
`Growth`.

* `Heap.read` — the items of a slice.
* `Heap.read_append`, `Heap.read_pop` — what the operations do to the slice itself.
* `Heap.read_append_of_apart` — what they leave alone: other arrays, and whatever ends before the
  place that is written to.
* `Replaced`, `Appended` — the same for a slice that is followed through a sequence of operations.
-/

namespace Slices

/-- A view of an array. -/
structure Slice where
  -- the number of the allocation
  array : ℕ
  offset : ℕ
  len : ℕ
  cap : ℕ

/-- The arrays that were allocated, by their numbers. -/
structure Heap (α : Type) where
  cells : ℕ → ℕ → α
  next : ℕ

/-- How much room a new array gets: at least what is needed. -/
structure Growth where
  cap : ℕ → ℕ → ℕ
  enough : ∀ old needed, needed ≤ cap old needed

namespace Slice

/-- `s[:j]`. -/
def upTo (s : Slice) (j : ℕ) : Slice := { s with len := j }

/-- `s[i:]`. -/
def behind (s : Slice) (i : ℕ) : Slice := ⟨s.array, s.offset + i, s.len - i, s.cap - i⟩

/-- The slice does not reach beyond its room, and its array exists. -/
structure Valid {α : Type} (h : Heap α) (s : Slice) : Prop where
  allocated : s.array < h.next
  room : s.len ≤ s.cap

/-- Nothing of `t` is at or behind the end of `s`. -/
def Apart (t s : Slice) : Prop := t.array ≠ s.array ∨ t.offset + t.len ≤ s.offset + s.len

end Slice

namespace Heap

variable {α : Type}

/-- The items of a slice. -/
def read (h : Heap α) (s : Slice) : List α :=
  (List.range s.len).map fun i => h.cells s.array (s.offset + i)

/-- The items `xs` are written to an array, from position `p` on. -/
def write (h : Heap α) (array p : ℕ) (xs : List α) : Heap α :=
  { h with cells := fun a i =>
      if a = array ∧ p ≤ i then xs.getD (i - p) (h.cells a i) else h.cells a i }

/-- A new array with the items `xs`. -/
def allocate (h : Heap α) (xs : List α) (cap : ℕ) : Slice × Heap α :=
  (⟨h.next, 0, xs.length, cap⟩, { h.write h.next 0 xs with next := h.next + 1 })

/-- `[]T{}`. -/
def empty (h : Heap α) : Slice × Heap α := h.allocate [] 0

/-- `append(s, xs...)`. -/
def append (G : Growth) (h : Heap α) (s : Slice) (xs : List α) : Slice × Heap α :=
  if s.len + xs.length ≤ s.cap then
    ({ s with len := s.len + xs.length }, h.write s.array (s.offset + s.len) xs)
  else h.allocate (h.read s ++ xs) (G.cap s.cap (s.len + xs.length))

/-- `append(s[:i], s[i+1:]...)`. The items to append are read before they are written. -/
def pop (G : Growth) (h : Heap α) (s : Slice) (i : ℕ) : Slice × Heap α :=
  h.append G (s.upTo i) (h.read (s.behind (i + 1)))

variable {h : Heap α} {s t : Slice} {xs : List α} {G : Growth}

/-! ### Reading -/

@[simp] theorem length_read (h : Heap α) (s : Slice) : (h.read s).length = s.len := by
  unfold read
  rw [List.length_map, List.length_range]

theorem getElem?_read {i : ℕ} (hi : i < s.len) :
    (h.read s)[i]? = some (h.cells s.array (s.offset + i)) := by
  unfold read
  rw [List.getElem?_map, List.getElem?_range hi, Option.map_some]

theorem read_upTo {j : ℕ} (hj : j ≤ s.len) : h.read (s.upTo j) = (h.read s).take j := by
  unfold read Slice.upTo
  rw [← List.map_take, List.take_range, Nat.min_eq_left hj]

theorem read_behind (h : Heap α) (s : Slice) (i : ℕ) :
    h.read (s.behind i) = (h.read s).drop i := by
  apply List.ext_getElem?
  intro j
  rw [List.getElem?_drop]
  by_cases hj : i + j < s.len
  · have hlt : j < (s.behind i).len := Nat.lt_sub_iff_add_lt'.mpr hj
    rw [getElem?_read hlt, getElem?_read hj]
    show some (h.cells s.array (s.offset + i + j)) = some (h.cells s.array (s.offset + (i + j)))
    rw [Nat.add_assoc]
  · have hge : s.len - i ≤ j := by omega
    rw [List.getElem?_eq_none, List.getElem?_eq_none]
    · rw [length_read]
      omega
    · rw [length_read]
      exact hge

/-! ### Writing -/

/-- Other arrays, and what is before the place, stay. -/
theorem read_write_of_apart {array p : ℕ} (hapart : t.array ≠ array ∨ t.offset + t.len ≤ p) :
    (h.write array p xs).read t = h.read t := by
  unfold read
  refine List.map_congr_left fun i hi => ?_
  have hlt : i < t.len := List.mem_range.mp hi
  refine if_neg fun hin => ?_
  rcases hapart with hne | hle
  · exact hne hin.1
  · omega

/-- A slice that ends where the writing starts, and one that has the items as well. -/
theorem read_write_behind (h : Heap α) (s : Slice) (xs : List α) :
    (h.write s.array (s.offset + s.len) xs).read { s with len := s.len + xs.length } =
      h.read s ++ xs := by
  apply List.ext_getElem?
  intro i
  by_cases hi : i < s.len
  · -- an item of the slice
    rw [getElem?_read (Nat.lt_add_right _ hi), List.getElem?_append_left (by rwa [length_read]),
      getElem?_read hi]
    refine congrArg some (if_neg fun hin => ?_)
    have hle : s.offset + s.len ≤ s.offset + i := hin.2
    omega
  · rw [List.getElem?_append_right (by rw [length_read]; omega), length_read]
    by_cases hlt : i < s.len + xs.length
    · -- an item that was written
      rw [getElem?_read hlt, List.getElem?_eq_getElem (by omega)]
      refine congrArg some ((if_pos ⟨rfl, by show s.offset + s.len ≤ s.offset + i; omega⟩).trans ?_)
      show xs.getD (s.offset + i - (s.offset + s.len)) _ = _
      rw [Nat.add_sub_add_left, List.getD_eq_getElem?_getD, List.getElem?_eq_getElem (by omega),
        Option.getD_some]
    · rw [List.getElem?_eq_none (by rw [length_read]; exact Nat.le_of_not_lt hlt),
        List.getElem?_eq_none (by omega)]

theorem read_allocate (h : Heap α) (xs : List α) (cap : ℕ) :
    (h.allocate xs cap).2.read (h.allocate xs cap).1 = xs := by
  have hwrite := read_write_behind h ⟨h.next, 0, 0, cap⟩ xs
  show (h.write h.next 0 xs).read ⟨h.next, 0, xs.length, cap⟩ = xs
  rw [show h.read ⟨h.next, 0, 0, cap⟩ = [] from rfl, List.nil_append] at hwrite
  simpa only [Nat.zero_add] using hwrite

theorem read_allocate_of_valid (ht : t.Valid h) (xs : List α) (cap : ℕ) :
    (h.allocate xs cap).2.read t = h.read t :=
  read_write_of_apart (h := h) (Or.inl (Nat.ne_of_lt ht.allocated))

/-! ### Operations -/

/-- **`append` on the slice itself.** -/
theorem read_append (G : Growth) (h : Heap α) (s : Slice) (xs : List α) :
    (h.append G s xs).2.read (h.append G s xs).1 = h.read s ++ xs := by
  unfold append
  split
  · exact read_write_behind h s xs
  · exact read_allocate h _ _

/-- **`append` and the other slices.** -/
theorem read_append_of_apart (G : Growth) (ht : t.Valid h) (hapart : t.Apart s) (xs : List α) :
    (h.append G s xs).2.read t = h.read t := by
  unfold append
  split
  · exact read_write_of_apart hapart
  · exact read_allocate_of_valid ht _ _

/-- **`pop`** takes one item out. -/
theorem read_pop (G : Growth) (h : Heap α) {i : ℕ} (hi : i < s.len) :
    (h.pop G s i).2.read (h.pop G s i).1 = (h.read s).eraseIdx i := by
  unfold pop
  rw [read_append, read_upTo (Nat.le_of_lt hi), read_behind, List.eraseIdx_eq_take_drop_succ]

/-- It stays on the array of the slice. -/
theorem pop_eq (G : Growth) (h : Heap α) {i : ℕ} (hs : s.Valid h) (hi : i < s.len) :
    h.pop G s i = ({ s with len := s.len - 1 },
      h.write s.array (s.offset + i) (h.read (s.behind (i + 1)))) := by
  have hlen : i + (h.read (s.behind (i + 1))).length = s.len - 1 := by
    rw [length_read]
    show i + (s.len - (i + 1)) = s.len - 1
    omega
  have hfits : i + (h.read (s.behind (i + 1))).length ≤ s.cap := by
    have hroom := hs.room
    omega
  unfold pop append
  refine (if_pos hfits).trans ?_
  show (Slice.mk s.array s.offset (i + (h.read (s.behind (i + 1))).length) s.cap, _) = _
  rw [hlen]
  rfl

/-! ### Validity -/

theorem next_le_append (G : Growth) (h : Heap α) (s : Slice) (xs : List α) :
    h.next ≤ (h.append G s xs).2.next := by
  unfold append
  split
  · exact Nat.le_refl _
  · exact Nat.le_succ _

theorem valid_append (hs : s.Valid h) (xs : List α) :
    (h.append G s xs).1.Valid (h.append G s xs).2 := by
  unfold append
  split
  · rename_i hfits
    exact ⟨hs.allocated, hfits⟩
  · refine ⟨Nat.lt_succ_self _, ?_⟩
    show (h.read s ++ xs).length ≤ _
    rw [List.length_append, length_read]
    exact G.enough _ _

/-- `append` goes on with the array of the slice, or with one that is new. -/
theorem array_append (G : Growth) (h : Heap α) (s : Slice) (xs : List α) :
    ((h.append G s xs).1.array = s.array ∧ (h.append G s xs).1.offset = s.offset ∧
        s.len ≤ (h.append G s xs).1.len) ∨ (h.append G s xs).1.array = h.next := by
  unfold append
  split
  · exact Or.inl ⟨rfl, rfl, Nat.le_add_right _ _⟩
  · exact Or.inr rfl

end Heap

/-! ### What becomes of a slice -/

variable {α : Type} {h h' : Heap α} {s s' t : Slice}

/-- A slice stays valid when more is allocated. -/
theorem Slice.Valid.mono (hs : s.Valid h) (hle : h.next ≤ h'.next) : s.Valid h' :=
  ⟨Nat.lt_of_lt_of_le hs.allocated hle, hs.room⟩

/-- The slice `s` has become `s'`, on the same array or on a new one. What is on other arrays is as
it was. -/
structure Replaced (h h' : Heap α) (s s' : Slice) : Prop where
  valid : s'.Valid h'
  next : h.next ≤ h'.next
  array : s'.array = s.array ∨ h.next ≤ s'.array
  others : ∀ t : Slice, t.Valid h → t.array ≠ s.array → h'.read t = h.read t

/-- Moreover nothing was written before the end of `s`. -/
structure Appended (h h' : Heap α) (s s' : Slice) : Prop extends Replaced h h' s s' where
  kept : ∀ t : Slice, t.Valid h → t.Apart s → h'.read t = h.read t
  apart : ∀ t : Slice, t.Valid h → t.Apart s → t.Apart s'

/-- Another array stays another array. -/
theorem Replaced.array_ne (hr : Replaced h h' s s') (ht : t.Valid h) (hne : t.array ≠ s.array) :
    t.array ≠ s'.array := by
  rcases hr.array with hsame | hnew
  · rwa [hsame]
  · exact Nat.ne_of_lt (Nat.lt_of_lt_of_le ht.allocated hnew)

theorem Replaced.pop (G : Growth) (hs : s.Valid h) {i : ℕ} (hi : i < s.len) :
    Replaced h (h.pop G s i).2 s (h.pop G s i).1 := by
  rw [Heap.pop_eq G h hs hi]
  refine ⟨⟨hs.allocated, Nat.le_trans (Nat.sub_le _ _) hs.room⟩, Nat.le_refl _, Or.inl rfl, ?_⟩
  exact fun t _ hne => Heap.read_write_of_apart (Or.inl hne)

theorem Appended.refl (hs : s.Valid h) : Appended h h s s where
  valid := hs
  next := Nat.le_refl _
  array := Or.inl rfl
  others _ _ _ := rfl
  kept _ _ _ := rfl
  apart _ _ := id

theorem Appended.append (G : Growth) (hs : s.Valid h) (xs : List α) :
    Appended h (h.append G s xs).2 s (h.append G s xs).1 where
  valid := Heap.valid_append hs xs
  next := Heap.next_le_append G h s xs
  array := by
    rcases Heap.array_append G h s xs with ⟨harray, -, -⟩ | hnew
    · exact Or.inl harray
    · exact Or.inr (Nat.le_of_eq hnew.symm)
  others _ ht hne := Heap.read_append_of_apart G ht (Or.inl hne) xs
  kept _ ht hapart := Heap.read_append_of_apart G ht hapart xs
  apart _ ht hapart := by
    rcases Heap.array_append G h s xs with ⟨harray, hoffset, hlen⟩ | hnew
    · -- on the same array the slice has only become longer
      rcases hapart with hne | hle
      · exact Or.inl (harray ▸ hne)
      · refine Or.inr (Nat.le_trans hle ?_)
        rw [hoffset]
        exact Nat.add_le_add_left hlen _
    · exact Or.inl (hnew ▸ Nat.ne_of_lt ht.allocated)

/-- A new slice in the place of another one. -/
theorem Appended.empty (h : Heap α) (s : Slice) : Appended h h.empty.2 s h.empty.1 where
  valid := ⟨Nat.lt_succ_self _, Nat.le_refl _⟩
  next := Nat.le_succ _
  array := Or.inr (Nat.le_refl _)
  others _ ht _ := Heap.read_allocate_of_valid ht [] 0
  kept _ ht _ := Heap.read_allocate_of_valid ht [] 0
  apart _ ht _ := Or.inl (Nat.ne_of_lt ht.allocated)

end Slices
