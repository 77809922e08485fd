import Blockz.Core.VM

/-!
# The memory of the machine

`Memory.Get` and `Memory.Set` grow the store before they slice it. The sum of offset and size is a
`uint64`, and so is its rounding to whole words: either of them may wrap, and then the store is too
short for the slice or even shorter than before.

* `InBounds` — the accesses that succeed: the bytes are there, or the store can be grown to hold
  them. No access of size zero grows it.
* `get_of_inBounds`, `set_of_inBounds` — such an access, byte by byte. Bytes that were never written
  are zero (`byteAt_grown`), so growing the store is not visible.
* `get_of_not_inBounds`, `set_of_not_inBounds` — every other access panics, wherever a sum wraps.
-/

namespace Blockz

open Effect

namespace Memory

/-- The store is no larger than an allocation can be. -/
def Allocated (P : Primitives) (m : Memory) : Prop := m.store.length ≤ P.maxAlloc

/-- The bytes are in the store, or there is something to read and the store can be grown. -/
def InBounds (P : Primitives) (m : Memory) (offset size : UInt64) : Prop :=
  offset.toNat + size.toNat ≤ m.store.length ∨
    0 < size.toNat ∧ (offset.toNat + size.toNat + 31) / 32 * 32 ≤ P.maxAlloc

instance (P : Primitives) (m : Memory) (offset size : UInt64) :
    Decidable (m.InBounds P offset size) :=
  inferInstanceAs (Decidable (_ ∨ _))

/-- The memory that an access in bounds leaves. -/
def grown (m : Memory) (offset size : UInt64) : Memory :=
  if offset.toNat + size.toNat ≤ m.store.length then m
  else
    ⟨m.store ++
      List.replicate ((offset.toNat + size.toNat + 31) / 32 * 32 - m.store.length) 0⟩

/-- The bytes of `written` in place of those from `offset` on. -/
def overwritten (m : Memory) (offset : ℕ) (written : List UInt8) : Memory :=
  ⟨m.store.take offset ++ written ++ m.store.drop (offset + written.length)⟩

variable {P : Primitives} {m : Memory} {offset size : UInt64}

/-- Only the length of the store matters. -/
theorem inBounds_congr {m' : Memory} (h : m.store.length = m'.store.length) :
    m.InBounds P offset size ↔ m'.InBounds P offset size := by
  unfold InBounds
  rw [h]

/-! ### Growing -/

theorem le_length_grown (m : Memory) (offset size : UInt64) :
    offset.toNat + size.toNat ≤ (m.grown offset size).store.length := by
  unfold grown
  split
  · assumption
  · rw [List.length_append, List.length_replicate]
    omega

theorem length_le_grown (m : Memory) (offset size : UInt64) :
    m.store.length ≤ (m.grown offset size).store.length := by
  unfold grown
  split
  · exact le_rfl
  · rw [List.length_append]
    exact Nat.le_add_right _ _

/-- The store grows by whole words. -/
theorem wholeWords_grown (h : 32 ∣ m.store.length) (offset size : UInt64) :
    32 ∣ (m.grown offset size).store.length := by
  unfold grown
  split
  · exact h
  · rw [List.length_append, List.length_replicate]
    omega

/-- Growing is not visible: the new bytes are zero, as are those behind the end. -/
theorem byteAt_grown (m : Memory) (offset size : UInt64) (i : ℕ) :
    Bytes.byteAt (m.grown offset size).store i = Bytes.byteAt m.store i := by
  unfold grown
  split
  · rfl
  · rw [Bytes.byteAt_append, Bytes.byteAt_zeros]
    split
    · rfl
    · next hi => rw [Bytes.byteAt_of_le (Nat.not_lt.mp hi)]

theorem Allocated.grown (hm : m.Allocated P) (h : m.InBounds P offset size) :
    (m.grown offset size).Allocated P := by
  unfold Allocated Memory.grown at *
  split
  · exact hm
  · next hbeyond =>
    obtain ⟨-, hround⟩ := h.resolve_left hbeyond
    rw [List.length_append, List.length_replicate]
    omega

/-- Rounding up to whole words wraps in the sum only. -/
theorem toNat_wholeWords (n : UInt64) :
    ((n + 31) / 32 * 32).toNat = (n.toNat + 31) % 2 ^ 64 / 32 * 32 := by
  have h31 : (31 : UInt64).toNat = 31 := rfl
  have h32 : (32 : UInt64).toNat = 32 := rfl
  rw [UInt64.toNat_mul, UInt64.toNat_div, UInt64.toNat_add, h31, h32]
  omega

theorem makeBytes_of_le {n : UInt64} (h : n.toNat ≤ P.maxAlloc) :
    makeBytes P n = .ok (List.replicate n.toNat 0) := by
  unfold makeBytes
  rw [if_pos h]

/-- Without a wrap the runtime grows the store to whole words. -/
theorem expand_of_inBounds (h : m.InBounds P offset size) :
    expand P offset size m = (.ok (), m.grown offset size) := by
  have hmax := P.maxAlloc_le
  have hsum : (offset + size).toNat = (offset.toNat + size.toNat) % 2 ^ 64 := UInt64.toNat_add _ _
  unfold expand grown
  by_cases hin : offset.toNat + size.toNat ≤ m.store.length
  · have hneeded : ¬ m.store.length < (offset + size).toNat := by
      rw [hsum]
      exact Nat.not_lt.mpr (le_trans (Nat.mod_le _ _) hin)
    rw [if_pos hin, if_neg hneeded, ite_self]
  · obtain ⟨hpos, hround⟩ := h.resolve_left hin
    have hsize : size ≠ 0 := fun h0 => absurd hpos (by rw [h0]; decide)
    have hneeded : (offset + size).toNat = offset.toNat + size.toNat := by omega
    have hwords : ((offset + size + 31) / 32 * 32).toNat =
        (offset.toNat + size.toNat + 31) / 32 * 32 := by
      rw [toNat_wholeWords, hneeded]
      omega
    rw [if_neg hsize, if_pos (by omega), if_neg hin, makeBytes_of_le (hwords ▸ hround), hwords]
    simp only [List.length_replicate, List.drop_replicate]
    rw [List.take_of_length_le (by omega)]

/-- The bytes of a slice that is within the store. -/
theorem slice_of_le (hm : m.Allocated P) (h : offset.toNat + size.toNat ≤ m.store.length) :
    slice offset size m = (.ok (Bytes.window m.store offset.toNat size.toNat), m) := by
  have hmax := P.maxAlloc_le
  have hsum : (offset + size).toNat = offset.toNat + size.toNat := by
    rw [UInt64.toNat_add]
    unfold Allocated at hm
    omega
  unfold slice
  rw [hsum, if_pos ⟨Nat.le_add_right _ _, h⟩, Bytes.take_drop_eq_window h]

/-! ### Accesses in bounds -/

/-- **`Get` in bounds** reads the bytes at the offset, zeros where none were written. -/
theorem get_of_inBounds (hm : m.Allocated P) (h : m.InBounds P offset size) :
    get P offset size m =
      (.ok (Bytes.window m.store offset.toNat size.toNat), m.grown offset size) := by
  have hlength := le_length_grown m offset size
  have hgrown := hm.grown h
  have hsize : size.toNat ≤ P.maxAlloc := by
    unfold Allocated at hgrown
    omega
  have hread : Bytes.window (m.grown offset size).store offset.toNat size.toNat =
      Bytes.window m.store offset.toNat size.toNat :=
    Bytes.window_congr fun _ _ => byteAt_grown _ _ _ _
  unfold get
  rw [Act.bind_apply_ok (expand_of_inBounds h), makeBytes_of_le hsize,
    Act.bind_apply_ok (Act.lift_apply _ _), slice_of_le hgrown hlength, hread]

/-- **`Set` in bounds** writes the bytes at the offset. -/
theorem set_of_inBounds (hm : m.Allocated P) (h : m.InBounds P offset size) {value : List UInt8}
    (hvalue : value.length = size.toNat) :
    set P offset size value m =
      (.ok (), (m.grown offset size).overwritten offset.toNat value) := by
  unfold set
  rw [Act.bind_apply_ok (expand_of_inBounds h),
    Act.bind_apply_ok (slice_of_le (hm.grown h) (le_length_grown m offset size)), ← hvalue,
    List.take_length]
  rfl

@[simp] theorem overwritten_nil (m : Memory) (offset : ℕ) : m.overwritten offset [] = m := by
  unfold overwritten
  rw [List.append_nil, List.length_nil, Nat.add_zero, List.take_append_drop]

theorem length_overwritten {written : List UInt8} {i : ℕ}
    (h : i + written.length ≤ m.store.length) :
    (m.overwritten i written).store.length = m.store.length := by
  unfold overwritten
  rw [List.length_append, List.length_append, List.length_take, List.length_drop]
  omega

/-- A write does not change the length of a store that was grown for it. -/
theorem length_written {value : List UInt8} (hvalue : value.length ≤ size.toNat) :
    ((m.grown offset size).overwritten offset.toNat value).store.length =
      (m.grown offset size).store.length :=
  length_overwritten (le_trans (Nat.add_le_add_left hvalue _) (le_length_grown m offset size))

/-- What a write leaves at a position. -/
theorem byteAt_written {value : List UInt8} (hvalue : value.length ≤ size.toNat) (i : ℕ) :
    Bytes.byteAt ((m.grown offset size).overwritten offset.toNat value).store i =
      if offset.toNat ≤ i ∧ i < offset.toNat + value.length then
        Bytes.byteAt value (i - offset.toNat)
      else Bytes.byteAt m.store i := by
  have hlength := le_trans (Nat.add_le_add_left hvalue _) (le_length_grown m offset size)
  unfold overwritten
  rw [Bytes.byteAt_overwrite hlength, byteAt_grown]

theorem Allocated.written (hm : m.Allocated P) (h : m.InBounds P offset size) {value : List UInt8}
    (hvalue : value.length ≤ size.toNat) :
    ((m.grown offset size).overwritten offset.toNat value).Allocated P := by
  unfold Allocated
  rw [length_written hvalue]
  exact hm.grown h

/-! ### Accesses out of bounds -/

/-- A slice is refused in a store that ends before it, and this is so when its end has wrapped. -/
theorem slice_of_short (h : m.store.length < offset.toNat + size.toNat) :
    slice offset size m = (.panic .sliceBounds, m) := by
  have hsum : (offset + size).toNat = (offset.toNat + size.toNat) % 2 ^ 64 := UInt64.toNat_add _ _
  have hoffset := offset.toNat_lt
  have hsize := size.toNat_lt
  unfold slice
  rw [if_neg]
  rintro ⟨hle, hin⟩
  omega

/-- Out of bounds the store cannot be grown, or a sum has wrapped and the slice is refused. -/
theorem expand_of_not_inBounds (h : ¬ m.InBounds P offset size) :
    expand P offset size m = (.panic .allocation, m) ∨
      ∃ m', expand P offset size m = (.ok (), m') ∧
        slice offset size m' = (.panic .sliceBounds, m') := by
  obtain ⟨hbeyond, hround⟩ := not_or.mp h
  -- where the store is not grown, it is too short for the slice as it is
  have hrefused : slice offset size m = (.panic .sliceBounds, m) :=
    slice_of_short (Nat.not_le.mp hbeyond)
  unfold expand
  by_cases hsize : size = 0
  · rw [if_pos hsize]
    exact Or.inr ⟨m, rfl, hrefused⟩
  rw [if_neg hsize]
  by_cases hneeded : m.store.length < (offset + size).toNat
  · rw [if_pos hneeded]
    by_cases halloc : ((offset + size + 31) / 32 * 32).toNat ≤ P.maxAlloc
    · -- a sum has wrapped, and what is allocated is too short
      have hpos : 0 < size.toNat := Nat.pos_of_ne_zero fun h0 => hsize (UInt64.toNat_inj.mp h0)
      have hlarge := Nat.not_le.mp fun hle => hround ⟨hpos, hle⟩
      rw [makeBytes_of_le halloc]
      refine Or.inr ⟨_, rfl, slice_of_short ?_⟩
      rw [toNat_wholeWords, UInt64.toNat_add] at halloc
      rw [List.length_append, List.length_take, List.length_drop, List.length_replicate,
        toNat_wholeWords, UInt64.toNat_add]
      omega
    · unfold makeBytes
      rw [if_neg halloc]
      exact Or.inl rfl
  · rw [if_neg hneeded]
    exact Or.inr ⟨m, rfl, hrefused⟩

/-- The panics of a slice expression and of an allocation. -/
def OfMemory (p : Panic) : Prop := p = .sliceBounds ∨ p = .allocation

theorem get_of_not_inBounds (h : ¬ m.InBounds P offset size) :
    ∃ p, OfMemory p ∧ (get P offset size m).1 = .panic p := by
  unfold get
  rcases expand_of_not_inBounds h with hexpand | ⟨m', hexpand, hslice⟩
  · exact ⟨_, Or.inr rfl, by rw [Act.bind_apply_panic hexpand]⟩
  · rw [Act.bind_apply_ok hexpand]
    unfold makeBytes
    split
    · exact ⟨_, Or.inl rfl, by rw [Act.bind_apply_ok (Act.lift_apply _ _), hslice]⟩
    · exact ⟨_, Or.inr rfl, by rw [Act.bind_apply_panic (Act.lift_apply _ _)]⟩

theorem set_of_not_inBounds (h : ¬ m.InBounds P offset size) (value : List UInt8) :
    ∃ p, OfMemory p ∧ (set P offset size value m).1 = .panic p := by
  unfold set
  rcases expand_of_not_inBounds h with hexpand | ⟨m', hexpand, hslice⟩
  · exact ⟨_, Or.inr rfl, by rw [Act.bind_apply_panic hexpand]⟩
  · exact ⟨_, Or.inl rfl, by rw [Act.bind_apply_ok hexpand, Act.bind_apply_panic hslice]⟩

end Memory

end Blockz
