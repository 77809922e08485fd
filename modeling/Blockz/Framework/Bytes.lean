import Mathlib.Data.List.GetD
import Mathlib.Data.Nat.Digits.Lemmas

/-!
# Big-endian byte strings

Numbers travel as big-endian byte strings. `Bytes.toNat` reads one, and `Bytes.ofNat` writes the
shortest one, so that zero is the empty string.

* `toNat_ofNat` — reading gives back what was written, also behind zero bytes (`toNat_padLeft`);
* `toNat_lt`, `length_ofNat_le` — a width in bytes bounds the number, and the other way round;
* `toNat_inj` — strings of one length are told apart by their numbers;
* `padLeft_ofNat` — the string of a fixed width, digit by digit (`Bytes.bigEndian`).

A byte string is also read at positions, with zeros behind its end (`Bytes.byteAt`, `Bytes.window`).
-/

namespace Bytes

/-- The number that a big-endian byte string denotes. -/
def toNat (bs : List UInt8) : ℕ := Nat.ofDigits 256 (bs.reverse.map UInt8.toNat)

/-- The shortest big-endian byte string of a number; the empty string for zero. -/
def ofNat (n : ℕ) : List UInt8 := ((Nat.digits 256 n).map UInt8.ofNat).reverse

/-- Zero bytes on the left, up to `width` bytes. -/
def padLeft (width : ℕ) (bs : List UInt8) : List UInt8 :=
  List.replicate (width - bs.length) 0 ++ bs

/-- The first `width` bytes, with zero bytes on the right where the string is shorter. -/
def padRight (width : ℕ) (bs : List UInt8) : List UInt8 :=
  bs.take width ++ List.replicate (width - bs.length) 0

theorem length_padLeft {width : ℕ} {bs : List UInt8} (h : bs.length ≤ width) :
    (padLeft width bs).length = width := by
  unfold padLeft
  rw [List.length_append, List.length_replicate]
  omega

theorem digits_lt (bs : List UInt8) : ∀ d ∈ bs.reverse.map UInt8.toNat, d < 256 := by
  intro d hd
  obtain ⟨b, -, rfl⟩ := List.mem_map.mp hd
  exact b.toNat_lt

theorem toNat_lt (bs : List UInt8) : toNat bs < 256 ^ bs.length := by
  have hlt := Nat.ofDigits_lt_base_pow_length (by norm_num) (digits_lt bs)
  rwa [List.length_map, List.length_reverse] at hlt

/-- Strings of one length are told apart by their numbers. -/
theorem toNat_inj {bs bs' : List UInt8} (hlen : bs.length = bs'.length) :
    toNat bs = toNat bs' ↔ bs = bs' := by
  refine ⟨fun h => ?_, congrArg toNat⟩
  have hdigits : bs.reverse.map UInt8.toNat = bs'.reverse.map UInt8.toNat := by
    refine Nat.ofDigits_inj_of_len_eq (by norm_num) ?_ (digits_lt bs) (digits_lt bs') h
    rw [List.length_map, List.length_map, List.length_reverse, List.length_reverse, hlen]
  exact List.reverse_inj.mp (List.map_injective_iff.mpr (fun _ _ => UInt8.toNat_inj.mp) hdigits)

/-- The shortest string of a number is no longer than any width that holds it. -/
theorem length_ofNat_le {n width : ℕ} (hn : n < 256 ^ width) : (ofNat n).length ≤ width := by
  unfold ofNat
  rw [List.length_reverse, List.length_map, Nat.digits_length_le_iff (by norm_num)]
  exact hn

theorem toNat_ofNat (n : ℕ) : toNat (ofNat n) = n := by
  have hback : ∀ d ∈ Nat.digits 256 n, (UInt8.toNat ∘ UInt8.ofNat) d = id d := by
    intro d hd
    exact UInt8.toNat_ofNat_of_lt' (Nat.digits_lt_base (by norm_num) hd)
  unfold toNat ofNat
  rw [List.reverse_reverse, List.map_map, List.map_congr_left hback, List.map_id,
    Nat.ofDigits_digits]

/-- Zero bytes in front do not change the number. -/
theorem toNat_padLeft (width : ℕ) (bs : List UInt8) : toNat (padLeft width bs) = toNat bs := by
  unfold toNat padLeft
  rw [List.reverse_append, List.map_append, List.reverse_replicate, List.map_replicate,
    Nat.ofDigits_append]
  have hzero : Nat.ofDigits 256 (List.replicate (width - bs.length) (UInt8.toNat 0)) = 0 :=
    Nat.ofDigits_replicate_zero
  rw [hzero, Nat.mul_zero, Nat.add_zero]

/-! ### Fixed width -/

/-- The big-endian byte string of `width` bytes: at each position the digit that belongs there. -/
def bigEndian (width n : ℕ) : List UInt8 :=
  (List.range width).map fun j => UInt8.ofNat (n / 256 ^ (width - 1 - j))

@[simp] theorem length_bigEndian (width n : ℕ) : (bigEndian width n).length = width := by
  rw [bigEndian, List.length_map, List.length_range]

theorem toNat_concat (bs : List UInt8) (b : UInt8) :
    toNat (bs ++ [b]) = b.toNat + 256 * toNat bs := by
  unfold toNat
  rw [List.reverse_concat, List.map_cons, Nat.ofDigits_cons]

/-- The last digit, behind those of the quotient. -/
theorem bigEndian_succ (width n : ℕ) :
    bigEndian (width + 1) n = bigEndian width (n / 256) ++ [UInt8.ofNat n] := by
  unfold bigEndian
  rw [List.range_succ, List.map_append, List.map_singleton]
  congr 1
  · refine List.map_congr_left fun j hj => ?_
    have hexp : width + 1 - 1 - j = (width - 1 - j) + 1 := by
      have := List.mem_range.mp hj
      omega
    rw [hexp, Nat.pow_succ', Nat.div_div_eq_div_mul]
  · rw [Nat.add_sub_cancel, Nat.sub_self, Nat.pow_zero, Nat.div_one]

theorem toNat_bigEndian {width n : ℕ} (hn : n < 256 ^ width) : toNat (bigEndian width n) = n := by
  induction width generalizing n with
  | zero =>
    obtain rfl : n = 0 := by omega
    rfl
  | succ width ih =>
    have hquot : n / 256 < 256 ^ width := Nat.div_lt_of_lt_mul (by rwa [← Nat.pow_succ'])
    rw [bigEndian_succ, toNat_concat, ih hquot, UInt8.toNat_ofNat']
    exact Nat.mod_add_div n 256

/-- The shortest string behind zeros has the digit that belongs there at each position. -/
theorem padLeft_ofNat {width n : ℕ} (hn : n < 256 ^ width) :
    padLeft width (ofNat n) = bigEndian width n := by
  apply (toNat_inj _).mp
  · rw [toNat_padLeft, toNat_ofNat, toNat_bigEndian hn]
  · rw [length_padLeft (length_ofNat_le hn), length_bigEndian]

/-! ### Positions -/

/-- The byte at a position, zero behind the end. -/
def byteAt (bs : List UInt8) (i : ℕ) : UInt8 := bs.getD i 0

/-- The `n` bytes from position `i` on, zeros behind the end. -/
def window (bs : List UInt8) (i n : ℕ) : List UInt8 := (List.range n).map fun j => byteAt bs (i + j)

@[simp] theorem length_window (bs : List UInt8) (i n : ℕ) : (window bs i n).length = n := by
  rw [window, List.length_map, List.length_range]

theorem window_congr {bs bs' : List UInt8} {i i' n : ℕ}
    (h : ∀ j < n, byteAt bs (i + j) = byteAt bs' (i' + j)) : window bs i n = window bs' i' n :=
  List.map_congr_left fun j hj => h j (List.mem_range.mp hj)

/-- Two strings of one length with the same bytes. -/
theorem ext_byteAt {bs bs' : List UInt8} (hlen : bs.length = bs'.length)
    (h : ∀ i < bs.length, byteAt bs i = byteAt bs' i) : bs = bs' := by
  refine List.ext_getElem hlen fun i hi hi' => ?_
  have hbyte := h i hi
  unfold byteAt at hbyte
  rwa [List.getD_eq_getElem _ _ hi, List.getD_eq_getElem _ _ hi'] at hbyte

theorem byteAt_of_le {bs : List UInt8} {i : ℕ} (h : bs.length ≤ i) : byteAt bs i = 0 :=
  List.getD_eq_default _ _ h

theorem byteAt_drop (bs : List UInt8) (i j : ℕ) : byteAt (bs.drop i) j = byteAt bs (i + j) := by
  unfold byteAt
  rw [List.getD_eq_getElem?_getD, List.getD_eq_getElem?_getD, List.getElem?_drop]

theorem byteAt_take {bs : List UInt8} {i j : ℕ} (h : j < i) :
    byteAt (bs.take i) j = byteAt bs j := by
  unfold byteAt
  rw [List.getD_eq_getElem?_getD, List.getD_eq_getElem?_getD, List.getElem?_take_of_lt h]

theorem byteAt_append (bs cs : List UInt8) (i : ℕ) :
    byteAt (bs ++ cs) i = if i < bs.length then byteAt bs i else byteAt cs (i - bs.length) := by
  unfold byteAt
  split
  · next h => rw [List.getD_append _ _ _ _ h]
  · next h => rw [List.getD_append_right _ _ _ _ (Nat.not_lt.mp h)]

@[simp] theorem byteAt_zeros (n i : ℕ) : byteAt (List.replicate n 0) i = 0 := by
  unfold byteAt
  rw [List.getD_eq_getElem?_getD, List.getElem?_replicate]
  split <;> rfl

theorem byteAt_window {bs : List UInt8} {i n j : ℕ} (h : j < n) :
    byteAt (window bs i n) j = byteAt bs (i + j) := by
  have hlen : j < (window bs i n).length := by rwa [length_window]
  unfold byteAt at *
  rw [List.getD_eq_getElem _ _ hlen]
  simp [window, byteAt]

theorem window_eq_iff {bs bs' : List UInt8} {i i' n : ℕ} :
    window bs i n = window bs' i' n ↔ ∀ j < n, byteAt bs (i + j) = byteAt bs' (i' + j) := by
  refine ⟨fun h j hj => ?_, window_congr⟩
  rw [← byteAt_window hj, h, byteAt_window hj]

/-- Inside the string a window is a part of it. -/
theorem take_drop_eq_window {bs : List UInt8} {i n : ℕ} (h : i + n ≤ bs.length) :
    (bs.drop i).take n = window bs i n := by
  have hlen : ((bs.drop i).take n).length = n := by
    rw [List.length_take, List.length_drop]
    omega
  refine ext_byteAt (by rw [hlen, length_window]) fun j hj => ?_
  rw [hlen] at hj
  rw [byteAt_take hj, byteAt_drop, byteAt_window hj]

/-- A copy into `n` zero bytes, from position `i` on. -/
theorem padRight_drop (bs : List UInt8) (i n : ℕ) : padRight n (bs.drop i) = window bs i n := by
  have hlen : (padRight n (bs.drop i)).length = n := by
    unfold padRight
    rw [List.length_append, List.length_take, List.length_replicate]
    omega
  refine ext_byteAt (by rw [hlen, length_window]) fun j hj => ?_
  rw [hlen] at hj
  rw [byteAt_window hj]
  unfold padRight
  rw [byteAt_append, List.length_take, List.length_drop]
  split
  · rw [byteAt_take hj, byteAt_drop]
  · rw [byteAt_zeros, byteAt_of_le (by omega)]

/-- Writing a string over the bytes from position `i` on. -/
theorem byteAt_overwrite {bs written : List UInt8} {i : ℕ} (h : i + written.length ≤ bs.length)
    (j : ℕ) :
    byteAt (bs.take i ++ written ++ bs.drop (i + written.length)) j =
      if i ≤ j ∧ j < i + written.length then byteAt written (j - i) else byteAt bs j := by
  have hfront : (bs.take i).length = i := by
    rw [List.length_take]
    omega
  rw [byteAt_append, byteAt_append, List.length_append, hfront]
  by_cases hlow : j < i
  · rw [if_pos (by omega), if_pos hlow, if_neg (by omega), byteAt_take hlow]
  · by_cases hhigh : j < i + written.length
    · rw [if_pos hhigh, if_neg hlow, if_pos ⟨Nat.not_lt.mp hlow, hhigh⟩]
    · rw [if_neg hhigh, if_neg fun h => hhigh h.2, byteAt_drop]
      congr 1
      omega

private def hexDigit (n : ℕ) : Char :=
  "0123456789abcdef".toList.getD n '0'

/-- `hex.EncodeToString`. -/
def toHex (bs : List UInt8) : String :=
  String.ofList (bs.flatMap fun b => [hexDigit (b.toNat / 16), hexDigit (b.toNat % 16)])

end Bytes
