import Blockz.Core.VMWords

/-!
# Offsets of more than 64 bits

Offsets are words of 256 bits, and the machine cuts them to 64 bits before it reads the call data or
the memory. Two offsets with the same low 64 bits are then the same place.

* `loadsCallData_iff` — `CALLDATALOAD` honours an offset exactly when it has at most 64 bits or
  there are only zeros at its low 64 bits.
* `hidden_iff` — an `MLOAD` does not see what an `MSTORE` has written exactly when their offsets are
  a word apart after the cut, or one of the two is out of bounds and panics.
* `seesOnlyNear` — in a run whose offsets have at most 64 bits an `MLOAD` sees the writes near its
  own address and no others. The memory is the replay of a log of writes at full addresses
  (`run_memory`).
-/

namespace Blockz

open Effect WriteLog

namespace EVM

/-- A word at one of the offsets does not overlap a word at the other. -/
def Apart (o o' : ℕ) : Prop := o + 32 ≤ o' ∨ o' + 32 ≤ o

/-- `CALLDATALOAD` pushes the 32 bytes at its offset, with zeros behind the end of the call data. -/
def LoadsCallData (P : Primitives) (evm : EVM) : Prop :=
  exec P .calldataload evm = (.ok none, { evm with
    stack := ⟨Bytes.toNat (Bytes.window evm.callData (evm.operand 0) 32) ::
      (evm.popped 1).stack.data⟩ })

/-- `MSTORE` of a word at an offset, and then an `MLOAD`. -/
def storeThenLoad (P : Primitives) (o v o' : ℕ) : Act EVM Err ℕ := do
  push v
  push o
  let _ ← exec P .mstore
  push o'
  let _ ← exec P .mload
  pop

/-- Whatever word is stored at `o`, the word that is loaded at `o'` is the same. -/
def Hidden (P : Primitives) (evm : EVM) (o o' : ℕ) : Prop :=
  ∀ v v' w w', v < 2 ^ 256 → v' < 2 ^ 256 → (storeThenLoad P o v o' evm).1 = .ok w →
    (storeThenLoad P o v' o' evm).1 = .ok w' → w = w'

variable {P : Primitives} {evm head : EVM} {fuel n : ℕ} {o v o' : ℕ}

/-! ### Call data -/

theorem toNat_window_lt (bs : List UInt8) (i : ℕ) :
    Bytes.toNat (Bytes.window bs i 32) < 2 ^ 256 := by
  have hlt := Bytes.toNat_lt (Bytes.window bs i 32)
  rw [Bytes.length_window] at hlt
  exact lt_of_lt_of_le hlt (by norm_num)

theorem toNat_window_inj {bs bs' : List UInt8} {i i' : ℕ} :
    Bytes.toNat (Bytes.window bs i 32) = Bytes.toNat (Bytes.window bs' i' 32) ↔
      ∀ j < 32, Bytes.byteAt bs (i + j) = Bytes.byteAt bs' (i' + j) := by
  rw [Bytes.toNat_inj (by rw [Bytes.length_window, Bytes.length_window]), Bytes.window_eq_iff]

theorem loadsCallData_iff (hdata : evm.callData.length < 2 ^ 63) :
    LoadsCallData P evm ↔ evm.operand 0 < 2 ^ 64 ∨
      ∀ j < 32, Bytes.byteAt evm.callData (evm.operand 0 % 2 ^ 64 + j) = 0 := by
  have hsame : LoadsCallData P evm ↔ ∀ j < 32,
      Bytes.byteAt evm.callData (evm.operand 0 % 2 ^ 64 + j) =
        Bytes.byteAt evm.callData (evm.operand 0 + j) := by
    unfold LoadsCallData
    rw [exec_calldataload, Stack.push_natCast (toNat_window_lt _ _), UInt64.toNat_ofNat',
      ← toNat_window_inj]
    constructor
    · -- the words on top are equal, so their bytes are
      intro h
      exact (List.cons.inj (congrArg (fun r => r.2.stack.data) h)).1
    · intro h
      rw [h]
  rw [hsame]
  by_cases hlt : evm.operand 0 < 2 ^ 64
  · rw [Nat.mod_eq_of_lt hlt]
    exact iff_of_true (fun _ _ => rfl) (Or.inl hlt)
  · -- nothing is there at the full offset
    have hbehind : ∀ j, Bytes.byteAt evm.callData (evm.operand 0 + j) = 0 := by
      intro j
      apply Bytes.byteAt_of_le
      omega
    constructor
    · intro h
      exact Or.inr fun j hj => (h j hj).trans (hbehind j)
    · intro h j hj
      exact (h.resolve_left hlt j hj).trans (hbehind j).symm

/-! ### A store and a load -/

/-- The memory after an `MSTORE` in bounds. -/
def storedAt (evm : EVM) (o v : ℕ) : Memory :=
  (evm.memory.grown (UInt64.ofNat o) 32).overwritten (UInt64.ofNat o).toNat
    (Bytes.padLeft 32 (Bytes.ofNat v))

/-- Both the store and the load are in bounds. -/
def BothInBounds (P : Primitives) (evm : EVM) (o o' : ℕ) : Prop :=
  evm.memory.InBounds P (UInt64.ofNat o) 32 ∧
    (evm.memory.grown (UInt64.ofNat o) 32).InBounds P (UInt64.ofNat o') 32

theorem byteAt_storedAt (evm : EVM) (o : ℕ) (hv : v < 2 ^ 256) (i : ℕ) :
    Bytes.byteAt (evm.storedAt o v).store i =
      if o % 2 ^ 64 ≤ i ∧ i < o % 2 ^ 64 + 32 then
        Bytes.byteAt (Bytes.padLeft 32 (Bytes.ofNat v)) (i - o % 2 ^ 64)
      else Bytes.byteAt evm.memory.store i := by
  unfold storedAt
  rw [Memory.byteAt_written (length_wordBytes hv).le, length_wordBytes hv, UInt64.toNat_ofNat']

/-- The word that an `MLOAD` in bounds pushes. -/
theorem exec_mload_of_inBounds (hm : evm.memory.Allocated P)
    (h : evm.memory.InBounds P (UInt64.ofNat (evm.operand 0)) 32) :
    exec P .mload evm = (.ok none, { evm with
      stack := ⟨Bytes.toNat (Bytes.window evm.memory.store (evm.operand 0 % 2 ^ 64) 32) ::
        (evm.popped 1).stack.data⟩
      memory := evm.memory.grown (UInt64.ofNat (evm.operand 0)) 32 }) := by
  rw [exec_mload (Memory.get_of_inBounds hm h), UInt64.toNat_ofNat']
  exact congrArg (fun stack => (Outcome.ok none, { evm with
    stack := stack
    memory := evm.memory.grown (UInt64.ofNat (evm.operand 0)) 32 }))
    (Stack.push_natCast (toNat_window_lt _ _) _)

/-- The machine with a word on top. -/
def pushed (evm : EVM) (w : ℕ) : EVM := { evm with stack := ⟨w :: evm.stack.data⟩ }

theorem push_pushed {α : Type} {w : ℕ} (hw : w < 2 ^ 256) (f : Unit → Act EVM Err α) (evm : EVM) :
    (push w >>= f) evm = f () (evm.pushed w) := by
  rw [push_bind, Stack.push_natCast hw]
  rfl

theorem Sound.pushed (hs : evm.Sound P) {w : ℕ} (hw : w < 2 ^ 256) : (evm.pushed w).Sound P := by
  refine ⟨fun x hx => ?_, hs.memory⟩
  rcases List.mem_cons.mp hx with rfl | hold
  · exact hw
  · exact hs.words x hold

/-- The store, if it is in bounds. -/
theorem exec_mstore_pushed (hs : evm.Sound P) (ho : o < 2 ^ 256) (hv : v < 2 ^ 256)
    (h : evm.memory.InBounds P (UInt64.ofNat o) 32) :
    exec P .mstore ((evm.pushed v).pushed o) =
      (.ok none, { evm with memory := evm.storedAt o v }) := by
  have hwords : ((evm.pushed v).pushed o).Words := ((hs.pushed hv).pushed ho).words
  apply exec_mstore
  rw [set32_eq (hwords.operand_lt 1)]
  exact Memory.set_of_inBounds hs.memory h (length_wordBytes hv)

theorem storedAt_allocated (hs : evm.Sound P) (hv : v < 2 ^ 256)
    (h : evm.memory.InBounds P (UInt64.ofNat o) 32) : (evm.storedAt o v).Allocated P :=
  hs.memory.written h (length_wordBytes hv).le

theorem length_storedAt (evm : EVM) (o : ℕ) (hv : v < 2 ^ 256) :
    (evm.storedAt o v).store.length =
      (evm.memory.grown (UInt64.ofNat o) 32).store.length :=
  Memory.length_written (length_wordBytes hv).le

theorem storeThenLoad_eq (P : Primitives) (evm : EVM) (ho : o < 2 ^ 256) (hv : v < 2 ^ 256) :
    storeThenLoad P o v o' evm =
      (exec P .mstore >>= fun _ => push o' >>= fun _ => exec P .mload >>= fun _ => pop)
        ((evm.pushed v).pushed o) := by
  unfold storeThenLoad
  rw [push_pushed hv, push_pushed ho]

theorem load_ok (hm : evm.memory.Allocated P) (h : evm.memory.InBounds P (UInt64.ofNat o) 32) :
    ((exec P .mload >>= fun _ => pop) (evm.pushed o)).1 =
      .ok (Bytes.toNat (Bytes.window evm.memory.store (o % 2 ^ 64) 32)) := by
  have hmload : exec P .mload (evm.pushed o) = _ := exec_mload_of_inBounds hm h
  rw [Act.bind_apply_ok hmload, pop_eq]
  rfl

theorem load_panics (hs : evm.Sound P) (ho : o < 2 ^ 256)
    (h : ¬ evm.memory.InBounds P (UInt64.ofNat o) 32) :
    ∃ p, ((exec P .mload >>= fun _ => pop) (evm.pushed o)).1 = .panic p := by
  have haccess : access .mload (evm.pushed o) = some (UInt64.ofNat o, 32) := rfl
  obtain ⟨p, -, hp⟩ := exec_of_not_inBounds (P := P) (hs.pushed ho).words haccess h
  exact ⟨p, by rw [Act.bind_apply_panic (Act.eq_mk_of_fst hp)]⟩

/-- **In bounds** the two instructions give the word that is at the reduced offset after the store.
-/
theorem storeThenLoad_ok (hs : evm.Sound P) (ho : o < 2 ^ 256) (hv : v < 2 ^ 256)
    (ho' : o' < 2 ^ 256) (h : BothInBounds P evm o o') :
    (storeThenLoad P o v o' evm).1 =
      .ok (Bytes.toNat (Bytes.window (evm.storedAt o v).store (o' % 2 ^ 64) 32)) := by
  rw [storeThenLoad_eq P evm ho hv, Act.bind_apply_ok (exec_mstore_pushed hs ho hv h.1),
    push_pushed ho']
  exact load_ok (storedAt_allocated hs hv h.1)
    ((Memory.inBounds_congr (length_storedAt evm o hv)).mpr h.2)

/-- **Out of bounds** one of them panics. -/
theorem storeThenLoad_panics (hs : evm.Sound P) (ho : o < 2 ^ 256) (hv : v < 2 ^ 256)
    (ho' : o' < 2 ^ 256) (h : ¬ BothInBounds P evm o o') :
    ∃ p, (storeThenLoad P o v o' evm).1 = .panic p := by
  rw [storeThenLoad_eq P evm ho hv]
  by_cases hstore : evm.memory.InBounds P (UInt64.ofNat o) 32
  · have hload : ¬ (evm.storedAt o v).InBounds P (UInt64.ofNat o') 32 := fun hload =>
      h ⟨hstore, (Memory.inBounds_congr (length_storedAt evm o hv)).mp hload⟩
    rw [Act.bind_apply_ok (exec_mstore_pushed hs ho hv hstore), push_pushed ho']
    have hs' : ({ evm with memory := evm.storedAt o v } : EVM).Sound P :=
      ⟨hs.words, storedAt_allocated hs hv hstore⟩
    exact load_panics hs' ho' hload
  · have haccess : access .mstore ((evm.pushed v).pushed o) = some (UInt64.ofNat o, 32) := rfl
    obtain ⟨p, -, hp⟩ :=
      exec_of_not_inBounds (P := P) ((hs.pushed hv).pushed ho).words haccess hstore
    exact ⟨p, by rw [Act.bind_apply_panic (Act.eq_mk_of_fst hp)]⟩

/-- Words that are apart after the cut do not see each other, and others do. -/
theorem storedAt_congr_iff (evm : EVM) (o o' : ℕ) :
    (∀ v v', v < 2 ^ 256 → v' < 2 ^ 256 →
        Bytes.toNat (Bytes.window (evm.storedAt o v).store (o' % 2 ^ 64) 32) =
          Bytes.toNat (Bytes.window (evm.storedAt o v').store (o' % 2 ^ 64) 32)) ↔
      Apart (o % 2 ^ 64) (o' % 2 ^ 64) := by
  constructor
  · intro h
    by_contra hoverlap
    -- zero and the greatest word differ in every byte, so in one that both words cover
    have hdiffer : ∀ k < 32, Bytes.byteAt (Bytes.padLeft 32 (Bytes.ofNat 0)) k ≠
        Bytes.byteAt (Bytes.padLeft 32 (Bytes.ofNat (2 ^ 256 - 1))) k := by decide +kernel
    obtain ⟨j, hj, hlow, hhigh⟩ : ∃ j < 32,
        o % 2 ^ 64 ≤ o' % 2 ^ 64 + j ∧ o' % 2 ^ 64 + j < o % 2 ^ 64 + 32 := by
      unfold Apart at hoverlap
      exact ⟨o % 2 ^ 64 - o' % 2 ^ 64, by omega, by omega, by omega⟩
    have hbyte := toNat_window_inj.mp (h 0 (2 ^ 256 - 1) (by norm_num) (by norm_num)) j hj
    rw [byteAt_storedAt evm o (by norm_num), byteAt_storedAt evm o (by norm_num),
      if_pos ⟨hlow, hhigh⟩, if_pos ⟨hlow, hhigh⟩] at hbyte
    exact hdiffer _ (by omega) hbyte
  · intro hapart v v' hv hv'
    apply toNat_window_inj.mpr
    intro j hj
    have houtside : ¬ (o % 2 ^ 64 ≤ o' % 2 ^ 64 + j ∧ o' % 2 ^ 64 + j < o % 2 ^ 64 + 32) := by
      unfold Apart at hapart
      omega
    rw [byteAt_storedAt evm o hv, byteAt_storedAt evm o hv', if_neg houtside, if_neg houtside]

theorem hidden_iff (hs : evm.Sound P) (ho : o < 2 ^ 256) (ho' : o' < 2 ^ 256) :
    Hidden P evm o o' ↔ Apart (o % 2 ^ 64) (o' % 2 ^ 64) ∨ ¬ BothInBounds P evm o o' := by
  by_cases h : BothInBounds P evm o o'
  · rw [← storedAt_congr_iff evm o o']
    constructor
    · intro hhidden
      exact Or.inl fun v v' hv hv' => hhidden v v' _ _ hv hv' (storeThenLoad_ok hs ho hv ho' h)
        (storeThenLoad_ok hs ho hv' ho' h)
    · intro hsame v v' w w' hv hv' hw hw'
      rw [storeThenLoad_ok hs ho hv ho' h] at hw
      rw [storeThenLoad_ok hs ho hv' ho' h] at hw'
      rw [← Outcome.ok.inj hw, ← Outcome.ok.inj hw']
      exact (hsame.resolve_right (not_not.mpr h)) v v' hv hv'
  · -- nothing is loaded at all
    refine iff_of_true (fun v v' w w' hv _ hw _ => ?_) (Or.inr h)
    obtain ⟨p, hp⟩ := storeThenLoad_panics hs ho hv ho' h
    rw [hp] at hw
    cases hw

/-! ### Whole runs -/

/-- The word at an address of a memory without end. -/
def wordAt (m : ℕ → UInt8) (o : ℕ) : ℕ := Bytes.toNat ((List.range 32).map fun j => m (o + j))

/-- The bytes that a round writes into the memory, with the full address of each. -/
def memoryWrites (evm : EVM) : List (ℕ × UInt8) :=
  block (evm.operand 0) (evm.bytesWritten evm.opcode)

instance (o o' : ℕ) : Decidable (Apart o o') := inferInstanceAs (Decidable (_ ∨ _))

variable (P) in
/-- What the rounds of a run write whose offset is not apart from `o`. -/
def writesNear (fuel : ℕ) (evm : EVM) (o : ℕ) : List (ℕ × UInt8) :=
  ((heads P fuel evm).filter fun s => ¬ Apart (s.operand 0) o).flatMap memoryWrites

/-- The offsets at which the run loads and stores have at most 64 bits. -/
def NarrowOffsets (P : Primitives) (evm : EVM) : Prop :=
  ∀ s, Reaches P evm s → s.Funded →
    s.opcode = .mload ∨ s.opcode = .mstore ∨ s.opcode = .mstore8 → s.operand 0 < 2 ^ 64

/-- **An `MLOAD` sees only what was written near its offset.** It pushes the word that these writes
leave at its own address, or it panics. -/
def SeesOnlyNear (P : Primitives) (evm : EVM) : Prop :=
  ∀ n head, run P n evm = (.outOfFuel, head) → head.Funded → head.opcode = .mload →
    (∃ p, (step P head).1 = .panic p) ∨ ∃ next, step P head = (.ok none, next) ∧
      next.stack.data = wordAt (replay (Bytes.byteAt evm.memory.store)
        (writesNear P n evm (head.operand 0))) (head.operand 0) :: (head.popped 1).stack.data

/-- Only stores write. -/
theorem bytesWritten_cases (op : OpCode) (evm : EVM) :
    evm.bytesWritten op = [] ∨ (op = .mstore ∨ op = .mstore8) ∧
      ∃ size, access op evm = some (UInt64.ofNat (evm.operand 0), size) := by
  cases op
  case mstore => exact Or.inr ⟨Or.inl rfl, _, rfl⟩
  case mstore8 => exact Or.inr ⟨Or.inr rfl, _, rfl⟩
  all_goals exact Or.inl rfl

/-- A write into the memory as a log. -/
theorem byteAt_written_eq {m : Memory} {offset size : UInt64} {value : List UInt8}
    (hvalue : value.length ≤ size.toNat) :
    Bytes.byteAt ((m.grown offset size).overwritten offset.toNat value).store =
      replay (Bytes.byteAt m.store) (block offset.toNat value) := by
  funext i
  rw [Memory.byteAt_written hvalue, replay_block]
  by_cases hlow : offset.toNat ≤ i
  · by_cases hhigh : i < offset.toNat + value.length
    · have hin : i - offset.toNat < value.length := by omega
      rw [if_pos ⟨hlow, hhigh⟩, if_pos hlow, List.getD_eq_getElem _ _ hin]
      exact List.getD_eq_getElem _ _ hin
    · rw [if_neg fun h => hhigh h.2, if_pos hlow, List.getD_eq_default _ _ (by omega)]
  · rw [if_neg fun h => hlow h.1, if_neg hlow]

/-- A round writes what its log says. -/
theorem step_memory (hs : evm.Sound P) (h : evm.Funded)
    (hnarrow : evm.opcode = .mstore ∨ evm.opcode = .mstore8 → evm.operand 0 < 2 ^ 64)
    (hok : ∀ p, (step P evm).1 ≠ .panic p) :
    Bytes.byteAt (step P evm).2.memory.store =
      replay (Bytes.byteAt evm.memory.store) (memoryWrites evm) := by
  have hpaid : evm.paid.Sound P := hs.paid
  rw [step_of_funded h] at hok ⊢
  have hin := accessible_of_not_panic hpaid.words hok
  unfold memoryWrites
  cases haccess : access evm.opcode evm.paid with
  | none =>
    -- what does not access the memory does not write it
    have hnothing : evm.bytesWritten evm.opcode = [] := by
      rcases bytesWritten_cases evm.opcode evm.paid with hnil | ⟨-, size, hsome⟩
      · exact hnil
      · rw [haccess] at hsome
        cases hsome
    rw [(exec_of_access_none (P := P) hpaid.words haccess).2, hnothing]
    rfl
  | some a =>
    obtain ⟨offset, size⟩ := a
    obtain ⟨o, stack, memory, retData, hexec, -, hmemory⟩ :=
      exec_of_inBounds hpaid haccess (hin _ haccess)
    have hblock : block offset.toNat (evm.bytesWritten evm.opcode) =
        block (evm.operand 0) (evm.bytesWritten evm.opcode) := by
      rcases bytesWritten_cases evm.opcode evm.paid with hnil | ⟨hstore, _, hsome⟩
      · rw [show evm.bytesWritten evm.opcode = [] from hnil]
        rfl
      · -- a store, whose offset is not cut
        obtain ⟨rfl, -⟩ := Prod.mk.inj (Option.some.inj (haccess.symm.trans hsome))
        have hoffset : (UInt64.ofNat (evm.paid.operand 0)).toNat = evm.operand 0 :=
          UInt64.toNat_ofNat_of_lt' (hnarrow hstore)
        rw [hoffset]
    rw [hexec, ← hblock]
    show Bytes.byteAt memory.store = _
    rw [hmemory]
    exact byteAt_written_eq (length_bytesWritten_le hpaid.words haccess)

/-- The memory after any number of rounds. -/
theorem run_memory (hs : evm.Sound P) (hnarrow : NarrowOffsets P evm)
    (hrun : ∀ p, (run P fuel evm).1 ≠ .panic p) :
    Bytes.byteAt (run P fuel evm).2.memory.store =
      replay (Bytes.byteAt evm.memory.store) ((heads P fuel evm).flatMap memoryWrites) :=
  run_replay (fun s => Bytes.byteAt s.memory.store) memoryWrites
    (fun s hreach hfunded => step_memory (hreach.sound hs) hfunded fun hstore =>
      hnarrow s hreach hfunded (Or.inr hstore)) hrun

/-- A round with an offset that is apart does not write there. -/
theorem replay_memoryWrites_of_apart {s : EVM} (hw : s.Words) (hapart : Apart (s.operand 0) o)
    {j : ℕ} (hj : j < 32) (m : ℕ → UInt8) : replay m (memoryWrites s) (o + j) = m (o + j) := by
  have hlen : (s.bytesWritten s.opcode).length ≤ 32 := by
    rcases bytesWritten_cases s.opcode s with hnil | ⟨hstore, -⟩
    · rw [hnil]
      exact Nat.zero_le _
    · rcases hstore with hop | hop
      · rw [hop]
        exact (length_wordBytes (hw.operand_lt 1)).le
      · rw [hop]
        exact Nat.succ_le_succ (Nat.zero_le _)
  unfold memoryWrites
  unfold Apart at hapart
  rw [replay_block]
  split
  · rw [List.getD_eq_default _ _ (by omega)]
  · rfl

/-- The word at an offset, in a run whose offsets are not cut. -/
theorem wordAt_near (hs : evm.Sound P) (hnarrow : NarrowOffsets P evm)
    (hrun : run P n evm = (.outOfFuel, head)) (o : ℕ) :
    Bytes.toNat (Bytes.window head.memory.store o 32) =
      wordAt (replay (Bytes.byteAt evm.memory.store) (writesNear P n evm o)) o := by
  have hmemory := run_memory hs hnarrow (not_panic_of_outOfFuel hrun)
  rw [hrun] at hmemory
  refine congrArg Bytes.toNat (List.map_congr_left fun j hj => ?_)
  show Bytes.byteAt head.memory.store (o + j) = _
  rw [hmemory]
  apply replay_flatMap_filter
  -- the rounds that are left out write elsewhere
  intro s hmem hapart
  have hwords : s.Words := ((Reaches.of_mem_heads hmem).sound hs).words
  exact replay_memoryWrites_of_apart hwords (not_not.mp hapart) (List.mem_range.mp hj)

theorem seesOnlyNear (hs : evm.Sound P) (hnarrow : NarrowOffsets P evm) : SeesOnlyNear P evm := by
  intro n head hrun hfunded hop
  have hreach : Reaches P evm head := reaches_iff.mpr ⟨n, hrun⟩
  have hpaid : head.paid.Sound P := (hreach.sound hs).paid
  rw [step_of_funded hfunded, hop]
  by_cases hin : head.paid.memory.InBounds P (UInt64.ofNat (head.paid.operand 0)) 32
  · refine Or.inr ⟨_, exec_mload_of_inBounds hpaid.memory hin, ?_⟩
    have hlt : head.paid.operand 0 < 2 ^ 64 := hnarrow head hreach hfunded (Or.inl hop)
    show Bytes.toNat (Bytes.window head.memory.store (head.paid.operand 0 % 2 ^ 64) 32) :: _ = _
    rw [Nat.mod_eq_of_lt hlt, wordAt_near hs hnarrow hrun]
    rfl
  · obtain ⟨p, -, hp⟩ : ∃ p, Memory.OfMemory p ∧ (exec P .mload head.paid).1 = .panic p :=
      exec_of_not_inBounds hpaid.words rfl hin
    exact Or.inl ⟨p, hp⟩

/-! ### Full offsets -/

/-- **When offsets are honoured in full.** For `CALLDATALOAD`, for an `MSTORE` followed by an
`MLOAD` a word apart from it, and along a run. -/
theorem full_offsets_iff (hs : evm.Sound P) (hdata : evm.callData.length < 2 ^ 63) :
    (LoadsCallData P evm ↔ evm.operand 0 < 2 ^ 64 ∨
        ∀ j < 32, Bytes.byteAt evm.callData (evm.operand 0 % 2 ^ 64 + j) = 0) ∧
      (∀ o o', o < 2 ^ 256 → o' < 2 ^ 256 → Apart o o' →
        (Hidden P evm o o' ↔ Apart (o % 2 ^ 64) (o' % 2 ^ 64) ∨ ¬ BothInBounds P evm o o')) ∧
      (NarrowOffsets P evm → SeesOnlyNear P evm) := by
  refine ⟨loadsCallData_iff hdata, ?_, seesOnlyNear hs⟩
  intro o o' ho ho' _
  exact hidden_iff hs ho ho'

/-- `PUSH1 0; MLOAD`, with a byte of call data. -/
def loadingEVM : EVM :=
  newEVM [0x60, 0, 0x51] [1] WorldState.new Address.zero Address.zero 0 100

/-- At small offsets everything is as it should be. -/
theorem full_offsets_iff_loadingEVM :
    LoadsCallData .sample loadingEVM ∧ Hidden .sample loadingEVM 0 32 ∧
      SeesOnlyNear .sample loadingEVM := by
  obtain ⟨hcall, hhidden, hnear⟩ := full_offsets_iff (P := .sample)
    (newEVM_sound .sample [0x60, 0, 0x51] [1] WorldState.new Address.zero Address.zero 0 100)
    (by decide)
  refine ⟨hcall.mpr (Or.inl (by decide)), ?_, hnear ?_⟩
  · exact (hhidden 0 32 (by norm_num) (by norm_num) (by decide)).mpr (Or.inl (by decide))
  · intro s hreach _ _
    have hend : (run .sample 3 loadingEVM).1 ≠ .outOfFuel := by decide +kernel
    have hsmall : ∀ n < 3, (run .sample n loadingEVM).2.operand 0 < 2 ^ 64 := by decide +kernel
    obtain ⟨n, hn, hrun⟩ := Reaches.within hreach hend
    obtain rfl : (run .sample n loadingEVM).2 = s := congrArg Prod.snd hrun
    exact hsmall n hn

/-- `PUSH9 2^64; CALLDATALOAD`. -/
def distantCallDataCode : List UInt8 := [0x68, 1, 0, 0, 0, 0, 0, 0, 0, 0, 0x35]

/-- `PUSH1 7; PUSH1 0; MSTORE; PUSH9 2^64; MLOAD`. -/
def distantLoadCode : List UInt8 :=
  [0x60, 7, 0x60, 0, 0x52, 0x68, 1, 0, 0, 0, 0, 0, 0, 0, 0, 0x51]

/-- **Offset `2^64` is taken for offset 0.** `CALLDATALOAD` pushes a byte of the call data, where
all is zero, and `MLOAD` the word that was stored at 0. -/
theorem distant_offsets_seen :
    (run .sample 9 (newEVM distantCallDataCode [1] WorldState.new Address.zero Address.zero 0
        100)).2.stack.data = [256 ^ 31] ∧
      Bytes.toNat (Bytes.window [1] (2 ^ 64) 32) = 0 ∧
      Apart 0 (2 ^ 64) ∧ (run .sample 9 (bare distantLoadCode)).2.stack.data = [7] := by
  refine ⟨?_, ?_, by decide, ?_⟩ <;> decide +kernel

end EVM

end Blockz
