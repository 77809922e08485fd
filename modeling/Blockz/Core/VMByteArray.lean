import Blockz.Core.VMOffsets

/-!
# The memory as an array of bytes

To those who call `Set`, `Set32` and `Get` of `core/vm.go` the memory is an array of bytes without
end that is zero at first. What the code has is a slice of whole words that grows when an address
behind its end is used, and `make` does not allocate whatever is asked for.

* `lastWritten` — the array that a sequence of calls leaves: at each address the byte that was
  written there last, or zero.
* `Refines` — every call of a sequence comes back, and does to the slice what it does to the array.
* `Mirrors` — the slice and the array after the calls of a history, kept by every call
  (`Mirrors.after`).
* `refines_iff` — a sequence of calls refines the array exactly when the words of every call can be
  allocated.
-/

namespace Blockz

open Effect WriteLog

namespace Memory

/-- `NewMemory`. -/
def new : Memory := ⟨[]⟩

/-- A call on a memory. -/
inductive Call
  | set (offset size : UInt64) (value : List UInt8)
  | set32 (offset : UInt64) (val : ℕ)
  | get (offset size : UInt64)
  deriving DecidableEq

namespace Call

/-- The first address of a call. -/
def offset : Call → UInt64
  | .set offset _ _ => offset
  | .set32 offset _ => offset
  | .get offset _ => offset

/-- How many addresses a call is about. -/
def size : Call → UInt64
  | .set _ size _ => size
  | .set32 _ _ => 32
  | .get _ size => size

/-- There is something to read or to write, `Set` has as many bytes as it is told, and `Set32` has a
word. -/
def Regular : Call → Prop
  | .set _ size value => 0 < size.toNat ∧ value.length = size.toNat
  | .set32 _ val => val < 2 ^ 256
  | .get _ size => 0 < size.toNat

/-- What a call is to write: a word in big-endian form. -/
def bytes : Call → List UInt8
  | .set _ _ value => value
  | .set32 _ val => Bytes.bigEndian 32 val
  | .get _ _ => []

/-- The writes of a call, with the address of each byte. -/
def writes (c : Call) : List (ℕ × UInt8) := block c.offset.toNat c.bytes

/-- The words up to the last address of the call can be allocated. -/
def Fits (P : Primitives) (c : Call) : Prop :=
  (c.offset.toNat + c.size.toNat + 31) / 32 * 32 ≤ P.maxAlloc

instance (c : Call) : Decidable c.Regular :=
  match c with
  | .set _ _ _ => inferInstanceAs (Decidable (_ ∧ _))
  | .set32 _ _ => inferInstanceAs (Decidable (_ < _))
  | .get _ _ => inferInstanceAs (Decidable (_ < _))

instance (P : Primitives) (c : Call) : Decidable (c.Fits P) := inferInstanceAs (Decidable (_ ≤ _))

end Call

variable (P : Primitives)

/-- A call, with the bytes that `Get` returns. -/
def perform : Call → Act Memory Err (List UInt8)
  | .set offset size value => do
    set P offset size value
    pure []
  | .set32 offset val => do
    set32 P offset val
    pure []
  | .get offset size => get P offset size

/-- A call that comes back. -/
def Answered (m : Memory) (c : Call) (answer : List UInt8) (m' : Memory) : Prop :=
  perform P c m = (.ok answer, m')

/-- The byte that the calls have written last at an address, zero if they have not written there. -/
def lastWritten (calls : List Call) (a : ℕ) : UInt8 :=
  (last (calls.flatMap Call.writes) a).getD 0

/-- What a call answers and leaves, behind the calls of the past. -/
structure Refined (past : List Call) (c : Call) (m : Memory) (answer : List UInt8)
    (m' : Memory) : Prop where
  -- `Get` returns what was written last at each of its addresses
  reads : ∀ offset size, c = .get offset size →
    answer = (List.range size.toNat).map fun j => lastWritten past (offset.toNat + j)
  -- the bytes of the memory are those of the array
  bytes : ∀ a, Bytes.byteAt m'.store a = lastWritten (past ++ [c]) a
  -- `Get` changes no byte
  keeps : ∀ offset size, c = .get offset size → ∀ a,
    Bytes.byteAt m'.store a = Bytes.byteAt m.store a
  -- in a machine with this memory, `MLOAD` returns the word that `MSTORE` writes by this call
  loads : ∀ offset val, c = .set32 offset val → ∀ evm : EVM, evm.Words → evm.memory = m →
    (EVM.storeThenLoad P offset.toNat val offset.toNat evm).1 = .ok val
  wholeWords : 32 ∣ m'.store.length
  grows : m.store.length ≤ m'.store.length
  -- the memory covers every address that was used
  covers : ∀ c' ∈ past ++ [c], c'.offset.toNat + c'.size.toNat ≤ m'.store.length

/-- **The memory refines the array.** Every call is reached and comes back, and does what it does to
the array. -/
def Refines (calls : List Call) : Prop :=
  ∀ past c rest, calls = past ++ c :: rest →
    ∃ es m answer m', es.map Prod.fst = past ∧ History (Answered P) new es m ∧
      Answered P m c answer m' ∧ Refined P past c m answer m'

/-- A memory that stands for the array after the calls of the past. -/
structure Mirrors (past : List Call) (m : Memory) : Prop where
  allocated : m.Allocated P
  wholeWords : 32 ∣ m.store.length
  bytes : Bytes.byteAt m.store = lastWritten past
  covers : ∀ c ∈ past, c.offset.toNat + c.size.toNat ≤ m.store.length

variable {P} {m m' : Memory} {c : Call} {past calls : List Call} {answer : List UInt8}

/-! ### One call -/

namespace Call

theorem Regular.size_pos (h : c.Regular) : 0 < c.size.toNat := by
  cases c with
  | set offset size value => exact h.1
  | set32 offset val => exact Nat.zero_lt_succ 31
  | get offset size => exact h

theorem Regular.length_bytes_le (h : c.Regular) : c.bytes.length ≤ c.size.toNat := by
  cases c with
  | set offset size value => exact h.2.le
  | set32 offset val => exact (Bytes.length_bigEndian 32 val).le
  | get offset size => exact Nat.zero_le _

/-- What `Get` returns from a memory. -/
def found (c : Call) (m : Memory) : List UInt8 :=
  match c with
  | .get offset size => Bytes.window m.store offset.toNat size.toNat
  | _ => []

/-- The memory that a call leaves. -/
def after (c : Call) (m : Memory) : Memory :=
  (m.grown c.offset c.size).overwritten c.offset.toNat c.bytes

end Call

theorem set32_bigEndian {val : ℕ} (h : val < 2 ^ 256) (offset : UInt64) (m : Memory) :
    set32 P offset val m = set P offset 32 (Bytes.bigEndian 32 val) m := by
  rw [EVM.set32_eq h, Bytes.padLeft_ofNat (lt_of_lt_of_le h (by norm_num))]

theorem perform_of_inBounds (hm : m.Allocated P) (hc : c.Regular)
    (h : m.InBounds P c.offset c.size) : Answered P m c (c.found m) (c.after m) := by
  unfold Answered
  cases c with
  | set offset size value =>
    have hin : m.InBounds P offset size := h
    rw [perform, Act.bind_apply_ok (set_of_inBounds hm hin hc.2)]
    rfl
  | set32 offset val =>
    have hin : m.InBounds P offset 32 := h
    have hset := set_of_inBounds hm hin (Bytes.length_bigEndian 32 val)
    rw [perform, Act.bind_apply_ok ((set32_bigEndian hc offset m).trans hset)]
    rfl
  | get offset size =>
    -- a read leaves the memory as a write of no bytes would
    have hkept : (Call.get offset size).after m = m.grown offset size := overwritten_nil _ _
    rw [hkept]
    exact get_of_inBounds hm h

theorem perform_of_not_inBounds (hc : c.Regular) (h : ¬ m.InBounds P c.offset c.size) :
    ∃ p, (perform P c m).1 = .panic p := by
  cases c with
  | set offset size value =>
    have hout : ¬ m.InBounds P offset size := h
    obtain ⟨p, -, hset⟩ := set_of_not_inBounds hout value
    exact ⟨p, by rw [perform, Act.bind_apply_panic (Act.eq_mk_of_fst hset)]⟩
  | set32 offset val =>
    have hout : ¬ m.InBounds P offset 32 := h
    obtain ⟨p, -, hset⟩ := set_of_not_inBounds hout (Bytes.bigEndian 32 val)
    rw [← set32_bigEndian hc] at hset
    exact ⟨p, by rw [perform, Act.bind_apply_panic (Act.eq_mk_of_fst hset)]⟩
  | get offset size =>
    obtain ⟨p, -, hget⟩ := get_of_not_inBounds h
    exact ⟨p, hget⟩

/-- A call that comes back was in bounds. -/
theorem Answered.inBounds (hc : c.Regular) (h : Answered P m c answer m') :
    m.InBounds P c.offset c.size := by
  by_contra hout
  obtain ⟨p, hp⟩ := perform_of_not_inBounds hc hout
  rw [h] at hp
  cases hp

theorem Answered.eq_after (hm : m.Allocated P) (hc : c.Regular) (h : Answered P m c answer m') :
    m' = c.after m := by
  have hsame := h.symm.trans (perform_of_inBounds hm hc (h.inBounds hc))
  exact (Prod.mk.inj hsame).2

theorem length_after (hc : c.Regular) :
    (c.after m).store.length = (m.grown c.offset c.size).store.length :=
  length_written hc.length_bytes_le

theorem length_le_after (hc : c.Regular) : m.store.length ≤ (c.after m).store.length := by
  rw [length_after hc]
  exact length_le_grown m c.offset c.size

theorem covers_after (hc : c.Regular) :
    c.offset.toNat + c.size.toNat ≤ (c.after m).store.length := by
  rw [length_after hc]
  exact le_length_grown m c.offset c.size

/-! ### The array -/

theorem lastWritten_eq_replay (calls : List Call) :
    lastWritten calls = replay (fun _ => 0) (calls.flatMap Call.writes) := by
  funext a
  rw [replay_apply]
  rfl

theorem lastWritten_concat (past : List Call) (c : Call) :
    lastWritten (past ++ [c]) = replay (lastWritten past) c.writes := by
  rw [lastWritten_eq_replay, lastWritten_eq_replay, List.flatMap_append, replay_append,
    List.flatMap_singleton]

theorem mirrors_new : Mirrors P [] new where
  allocated := Nat.zero_le _
  wholeWords := Nat.dvd_zero 32
  bytes := by
    funext a
    exact Bytes.byteAt_of_le (Nat.zero_le a)
  covers _ hmem := absurd hmem List.not_mem_nil

/-- In whole words a call is in bounds when its words can be allocated. -/
theorem Mirrors.inBounds_iff (hm : Mirrors P past m) (hc : c.Regular) :
    m.InBounds P c.offset c.size ↔ c.Fits P := by
  have hlen := hm.allocated
  have hwords := hm.wholeWords
  have hpos := hc.size_pos
  unfold InBounds Call.Fits
  unfold Allocated at hlen
  -- bytes that are in the store end in one of its words, and the store was allocated
  omega

/-- **A call keeps the memory and the array together.** -/
theorem Mirrors.after (hm : Mirrors P past m) (hc : c.Regular)
    (h : m.InBounds P c.offset c.size) : Mirrors P (past ++ [c]) (c.after m) where
  allocated := hm.allocated.written h hc.length_bytes_le
  wholeWords := by
    rw [length_after hc]
    exact wholeWords_grown hm.wholeWords c.offset c.size
  bytes := by
    -- growing adds zeros, and the array is zero there
    unfold Call.after
    rw [EVM.byteAt_written_eq hc.length_bytes_le, hm.bytes, lastWritten_concat]
    rfl
  covers c' hmem := by
    rcases List.mem_append.mp hmem with hold | hlast
    · exact le_trans (hm.covers c' hold) (length_le_after hc)
    · rw [List.mem_singleton.mp hlast]
      exact covers_after hc

/-! ### A word -/

/-- The word that `MSTORE` has written. -/
theorem window_storedAt (evm : EVM) (o : ℕ) {v : ℕ} (hv : v < 2 ^ 256) :
    Bytes.window (evm.storedAt o v).store (o % 2 ^ 64) 32 = Bytes.padLeft 32 (Bytes.ofNat v) := by
  have hlen := EVM.length_wordBytes hv
  refine Bytes.ext_byteAt (by rw [hlen, Bytes.length_window]) fun j hj => ?_
  rw [Bytes.length_window] at hj
  rw [Bytes.byteAt_window hj, EVM.byteAt_storedAt evm o hv,
    if_pos ⟨Nat.le_add_right _ _, Nat.add_lt_add_left hj _⟩, Nat.add_sub_cancel_left]

/-- **`MLOAD` returns what `MSTORE` has written** at the same offset, if the store is in bounds. -/
theorem storeThenLoad_same {evm : EVM} {o v : ℕ} (hs : evm.Sound P) (ho : o < 2 ^ 256)
    (hv : v < 2 ^ 256) (h : evm.memory.InBounds P (UInt64.ofNat o) 32) :
    (EVM.storeThenLoad P o v o evm).1 = .ok v := by
  -- the load finds the bytes in the memory that the store has grown
  have hboth : EVM.BothInBounds P evm o o := ⟨h, Or.inl (le_length_grown _ _ _)⟩
  rw [EVM.storeThenLoad_ok hs ho hv ho hboth, window_storedAt evm o hv, Bytes.toNat_padLeft,
    Bytes.toNat_ofNat]

/-! ### All calls -/

theorem Mirrors.refined (hm : Mirrors P past m) (hc : c.Regular)
    (h : m.InBounds P c.offset c.size) : Refined P past c m (c.found m) (c.after m) := by
  have hafter := hm.after hc h
  refine ⟨?_, fun a => congrFun hafter.bytes a, ?_, ?_, hafter.wholeWords, length_le_after hc,
    hafter.covers⟩
  · rintro offset size rfl
    rw [← hm.bytes]
    rfl
  · rintro offset size rfl a
    -- the log of a read is empty
    rw [hafter.bytes, lastWritten_concat, ← hm.bytes]
    rfl
  · rintro offset val rfl evm hw rfl
    have hoffset : offset.toNat < 2 ^ 256 := lt_trans offset.toNat_lt (by norm_num)
    refine storeThenLoad_same ⟨hw, hm.allocated⟩ hoffset hc ?_
    rw [UInt64.ofNat_toNat]
    exact h

/-- **The run lemma.** The memory after the calls of a history mirrors the array after them. -/
theorem mirrors_of_history {es : List (Call × List UInt8)} (h : History (Answered P) new es m)
    (hcalls : ∀ c ∈ es.map Prod.fst, c.Regular) : Mirrors P (es.map Prod.fst) m := by
  refine h.recorded (fun es m => (∀ c ∈ es.map Prod.fst, c.Regular) → Mirrors P (es.map Prod.fst) m)
    (fun _ => mirrors_new) ?_ hcalls
  intro es m c answer m' _ ih hlast hcalls
  rw [List.map_append, List.map_singleton] at hcalls ⊢
  have hc : c.Regular := hcalls c (List.mem_append_right _ List.mem_cons_self)
  have hm := ih fun c' hmem => hcalls c' (List.mem_append_left _ hmem)
  rw [hlast.eq_after hm.allocated hc]
  exact hm.after hc (hlast.inBounds hc)

/-- Calls whose words can be allocated all come back. -/
theorem exists_history (calls : List Call) (hcalls : ∀ c ∈ calls, c.Regular)
    (hfits : ∀ c ∈ calls, c.Fits P) :
    ∃ es m, es.map Prod.fst = calls ∧ History (Answered P) new es m := by
  induction calls using List.reverseRecOn with
  | nil => exact ⟨[], new, rfl, .start⟩
  | append_singleton calls c ih =>
    have hmem : c ∈ calls ++ [c] := List.mem_append_right _ List.mem_cons_self
    obtain ⟨es, m, rfl, hrun⟩ := ih (fun c' h' => hcalls c' (List.mem_append_left _ h'))
      (fun c' h' => hfits c' (List.mem_append_left _ h'))
    -- the memory so far is in whole words, so the words of this call are all it needs
    have hm := mirrors_of_history hrun fun c' h' => hcalls c' (List.mem_append_left _ h')
    have hin := (hm.inBounds_iff (hcalls c hmem)).mpr (hfits c hmem)
    refine ⟨es ++ [(c, c.found m)], c.after m, by rw [List.map_append, List.map_singleton], ?_⟩
    exact hrun.call (perform_of_inBounds hm.allocated (hcalls c hmem) hin)

theorem Refines.fits (hcalls : ∀ c ∈ calls, c.Regular) (h : Refines P calls) :
    ∀ c ∈ calls, c.Fits P := by
  intro c hmem
  obtain ⟨past, rest, hsplit⟩ := List.append_of_mem hmem
  obtain ⟨es, m, answer, m', rfl, hrun, hanswer, -⟩ := h past c rest hsplit
  have hm := mirrors_of_history hrun fun c' h' =>
    hcalls c' (hsplit ▸ List.mem_append_left _ h')
  exact (hm.inBounds_iff (hcalls c hmem)).mp (hanswer.inBounds (hcalls c hmem))

theorem refines_of_fits (hcalls : ∀ c ∈ calls, c.Regular) (hfits : ∀ c ∈ calls, c.Fits P) :
    Refines P calls := by
  rintro past c rest rfl
  have hmem : c ∈ past ++ c :: rest := List.mem_append_right _ List.mem_cons_self
  have hpast : ∀ c' ∈ past, c' ∈ past ++ c :: rest := fun c' h' => List.mem_append_left _ h'
  obtain ⟨es, m, rfl, hrun⟩ := exists_history past (fun c' h' => hcalls c' (hpast c' h'))
    (fun c' h' => hfits c' (hpast c' h'))
  have hm := mirrors_of_history hrun fun c' h' => hcalls c' (hpast c' h')
  have hin := (hm.inBounds_iff (hcalls c hmem)).mpr (hfits c hmem)
  exact ⟨es, m, c.found m, c.after m, rfl, hrun,
    perform_of_inBounds hm.allocated (hcalls c hmem) hin, hm.refined (hcalls c hmem) hin⟩

/-- **When the memory is an array of bytes.** Exactly when the words up to the last address of every
call can be allocated; a call that asks for more panics, whether or not a sum wraps. -/
theorem refines_iff (hcalls : ∀ c ∈ calls, c.Regular) :
    Refines P calls ↔ ∀ c ∈ calls, c.Fits P :=
  ⟨Refines.fits hcalls, refines_of_fits hcalls⟩

/-- A word, two bytes across its end, and reads over both. -/
def overlappingCalls : List Call :=
  [.set32 0 7, .set 31 2 [1, 2], .get 0 32, .get 30 4, .set32 40 (2 ^ 256 - 1), .get 64 32]

theorem refines_iff_overlappingCalls : Refines .sample overlappingCalls :=
  (refines_iff (by decide +kernel)).mpr (by decide +kernel)

/-- `Get` of a word at `2 ^ 63`. -/
def farCall : Call := .get (UInt64.ofNat (2 ^ 63)) 32

/-- **`Get` at `2 ^ 63` panics**, although no sum wraps. -/
theorem get_far_panics :
    farCall.Regular ∧ farCall.offset.toNat + farCall.size.toNat + 31 < 2 ^ 64 ∧
      (perform .sample farCall new).1 = .panic .allocation ∧ ¬ Refines .sample [farCall] := by
  have hregular : ∀ c ∈ [farCall], c.Regular := by decide +kernel
  refine ⟨by decide +kernel, by decide +kernel, by decide +kernel, fun h => ?_⟩
  have hfits := h.fits hregular farCall List.mem_cons_self
  exact absurd hfits (by decide +kernel)

end Memory

end Blockz
