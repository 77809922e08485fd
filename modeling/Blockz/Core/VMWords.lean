import Blockz.Core.VMInstruction
import Blockz.Core.VMSafety
import Mathlib.Data.BitVec

/-!
# Arithmetic on words

The machine computes with numbers of any size and sign, and cuts a result to 256 bits when it is
pushed. The abstract machine computes with words of 256 bits: `wordStep` is what an instruction does
to a stack of them, the top first, with zero for an operand that is missing. `exact_words` says that
the two agree at every head of every run.

The comparison rests on two facts. Pushing a number is pushing the word that it denotes modulo `2 ^
256` (`push_ofInt`), and taking a number to its word goes through sums, differences and products.
The other operations cannot leave the range, so they are compared as numbers.

`DUP` and `SWAP` do not read zero for a word that is missing: they refuse.
-/

namespace Blockz

open Effect

/-- A word of the machine. -/
abbrev Word := BitVec 256

namespace Word

/-- A truth value as a word. -/
def ofProp (p : Prop) [Decidable p] : Word := if p then 1 else 0

/-- Two operands, the top first, are replaced by a result. -/
def binary (f : Word → Word → Word) (s : List Word) : List Word :=
  f (s.getD 0 0) (s.getD 1 0) :: s.drop 2

end Word

/-- **The instructions on stacks of words.** There is no result for `DUP` and `SWAP` on a stack that
is too short, and for the instructions that are not about words. -/
def OpCode.wordStep : OpCode → List Word → Option (List Word)
  | .add, s => some (Word.binary (fun x y => x + y) s)
  | .sub, s => some (Word.binary (fun x y => x - y) s)
  | .mul, s => some (Word.binary (fun x y => x * y) s)
  | .div, s => some (Word.binary (fun x y => if y = 0 then 0 else x / y) s)
  | .lt, s => some (Word.binary (fun x y => Word.ofProp (x < y)) s)
  | .gt, s => some (Word.binary (fun x y => Word.ofProp (y < x)) s)
  | .eq, s => some (Word.binary (fun x y => Word.ofProp (x = y)) s)
  | .iszero, s => some (Word.ofProp (s.getD 0 0 = 0) :: s.drop 1)
  | .and, s => some (Word.binary (fun x y => x &&& y) s)
  | .or, s => some (Word.binary (fun x y => x ||| y) s)
  | .dup n, s => if s.length < n then none else some (s.getD (n - 1) 0 :: s)
  | .swap n, s =>
    if s.length ≤ n then none else some ((s.set 0 (s.getD n 0)).set n (s.getD 0 0))
  | _, _ => none

/-! ### Numbers and words -/

theorem Stack.push_ofInt (s : Stack) (v : ℤ) :
    s.push v = ⟨(BitVec.ofInt 256 v).toNat :: s.data⟩ := by
  unfold Stack.push
  rw [EVM.land_max256, BitVec.toNat_ofInt]
  rfl

theorem Stack.push_natCast {n : ℕ} (hn : n < 2 ^ 256) (s : Stack) : s.push n = ⟨n :: s.data⟩ := by
  rw [Stack.push_ofInt, BitVec.ofInt_natCast, BitVec.toNat_ofNat, Nat.mod_eq_of_lt hn]

namespace EVM

/-- The stack of the machine as a stack of words. -/
def wordStack (evm : EVM) : List Word := evm.stack.data.map (BitVec.ofNat 256)

variable {P : Primitives} {evm head : EVM} {op : OpCode}

theorem length_wordStack (evm : EVM) : evm.wordStack.length = evm.stack.data.length :=
  List.length_map _

theorem getD_wordStack (evm : EVM) (i : ℕ) :
    evm.wordStack.getD i 0 = BitVec.ofNat 256 (evm.operand i) :=
  List.getD_map _ _ _

/-- A number of a word comes back from it. -/
theorem Words.toNat_operand (hw : evm.Words) (i : ℕ) :
    (BitVec.ofNat 256 (evm.operand i)).toNat = evm.operand i := by
  rw [BitVec.toNat_ofNat, Nat.mod_eq_of_lt (hw.operand_lt i)]

/-- So do those of a stack. -/
theorem Words.toNat_stack (hw : evm.Words) : evm.wordStack.map BitVec.toNat = evm.stack.data := by
  have hback : ∀ w ∈ evm.stack.data, (BitVec.ofNat 256 w).toNat = w := by
    intro w hmem
    rw [BitVec.toNat_ofNat, Nat.mod_eq_of_lt (hw w hmem)]
  calc evm.wordStack.map BitVec.toNat
      = evm.stack.data.map fun w => (BitVec.ofNat 256 w).toNat := List.map_map
    _ = evm.stack.data.map id := List.map_congr_left hback
    _ = evm.stack.data := List.map_id _

theorem Words.toNat_drop (hw : evm.Words) (n : ℕ) :
    (evm.wordStack.drop n).map BitVec.toNat = (evm.popped n).stack.data := by
  rw [List.map_drop, hw.toNat_stack]
  rfl

/-! ### Two operands -/

/-- A function on numbers computes a function on words. -/
def Computes (f : ℤ → ℤ → ℤ) (g : Word → Word → Word) : Prop :=
  ∀ x y : ℕ, x < 2 ^ 256 → y < 2 ^ 256 →
    BitVec.ofInt 256 (f x y) = g (BitVec.ofNat 256 x) (BitVec.ofNat 256 y)

theorem binary_exact {f : ℤ → ℤ → ℤ} {g : Word → Word → Word} (hfg : Computes f g)
    (hw : evm.Words) :
    EVM.binary f evm = (.ok none, { evm with
      stack := ⟨(Word.binary g evm.wordStack).map BitVec.toNat⟩ }) := by
  unfold Word.binary
  rw [binary_eq, Stack.push_ofInt, hfg _ _ (hw.operand_lt 0) (hw.operand_lt 1), List.map_cons,
    getD_wordStack, getD_wordStack, hw.toNat_drop]

theorem computes_add : Computes (fun x y => x + y) fun x y => x + y := by
  intro x y _ _
  rw [BitVec.ofInt_add, BitVec.ofInt_natCast, BitVec.ofInt_natCast]

/-- A negative difference wraps. -/
theorem computes_sub : Computes (fun x y => x - y) fun x y => x - y := by
  intro x y _ _
  calc BitVec.ofInt 256 ((x : ℤ) - y)
      = BitVec.ofInt 256 (x + -y) := by rw [sub_eq_add_neg]
    _ = BitVec.ofNat 256 x + -BitVec.ofNat 256 y := by
      rw [BitVec.ofInt_add, BitVec.ofInt_neg, BitVec.ofInt_natCast, BitVec.ofInt_natCast]
    _ = BitVec.ofNat 256 x - BitVec.ofNat 256 y := (BitVec.sub_eq_add_neg _ _).symm

theorem computes_mul : Computes (fun x y => x * y) fun x y => x * y := by
  intro x y _ _
  rw [BitVec.ofInt_mul, BitVec.ofInt_natCast, BitVec.ofInt_natCast]

theorem computes_and : Computes Int.land fun x y => x &&& y := by
  intro x y _ _
  show BitVec.ofInt 256 ((x &&& y : ℕ) : ℤ) = _
  rw [BitVec.ofInt_natCast, BitVec.ofNat_and]

theorem computes_or : Computes Int.lor fun x y => x ||| y := by
  intro x y _ _
  show BitVec.ofInt 256 ((x ||| y : ℕ) : ℤ) = _
  rw [BitVec.ofInt_natCast, BitVec.ofNat_or]

/-- Numbers of words are equal when the words are. -/
theorem ofNat_inj {x y : ℕ} (hx : x < 2 ^ 256) (hy : y < 2 ^ 256) :
    BitVec.ofNat 256 x = BitVec.ofNat 256 y ↔ x = y := by
  rw [BitVec.toNat_eq, BitVec.toNat_ofNat, BitVec.toNat_ofNat, Nat.mod_eq_of_lt hx,
    Nat.mod_eq_of_lt hy]

theorem ofNat_lt {x y : ℕ} (hx : x < 2 ^ 256) (hy : y < 2 ^ 256) :
    BitVec.ofNat 256 x < BitVec.ofNat 256 y ↔ x < y := by
  rw [BitVec.lt_def, BitVec.toNat_ofNat, BitVec.toNat_ofNat, Nat.mod_eq_of_lt hx,
    Nat.mod_eq_of_lt hy]

theorem computes_div :
    Computes (fun x y => if y = 0 then 0 else x / y) fun x y => if y = 0 then 0 else x / y := by
  intro x y hx hy
  have hzero : BitVec.ofNat 256 y = 0 ↔ y = 0 := ofNat_inj hy (by norm_num)
  show BitVec.ofInt 256 (if (y : ℤ) = 0 then 0 else (x : ℤ) / y) =
    if BitVec.ofNat 256 y = 0 then 0 else BitVec.ofNat 256 x / BitVec.ofNat 256 y
  by_cases h : y = 0
  · rw [if_pos (Nat.cast_eq_zero.mpr h), if_pos (hzero.mpr h)]
    rfl
  · rw [if_neg fun h' => h (Nat.cast_eq_zero.mp h'), if_neg fun h' => h (hzero.mp h')]
    apply BitVec.eq_of_toNat_eq
    have hquot : x / y < 2 ^ 256 := lt_of_le_of_lt (Nat.div_le_self x y) hx
    rw [← Int.natCast_div, BitVec.ofInt_natCast, BitVec.toNat_udiv, BitVec.toNat_ofNat,
      BitVec.toNat_ofNat, BitVec.toNat_ofNat, Nat.mod_eq_of_lt hx, Nat.mod_eq_of_lt hy,
      Nat.mod_eq_of_lt hquot]

/-- The truth values of the comparisons. -/
theorem ofInt_ite {p q : Prop} [Decidable p] [Decidable q] (h : q ↔ p) :
    BitVec.ofInt 256 (if p then 1 else 0) = Word.ofProp q := by
  unfold Word.ofProp
  by_cases hp : p
  · rw [if_pos hp, if_pos (h.mpr hp)]
    rfl
  · rw [if_neg hp, if_neg fun hq => hp (h.mp hq)]
    rfl

theorem computes_lt : Computes (fun x y => if x < y then 1 else 0) fun x y => Word.ofProp (x < y) :=
  fun _ _ hx hy => ofInt_ite ((ofNat_lt hx hy).trans Nat.cast_lt.symm)

theorem computes_gt : Computes (fun x y => if y < x then 1 else 0) fun x y => Word.ofProp (y < x) :=
  fun _ _ hx hy => ofInt_ite ((ofNat_lt hy hx).trans Nat.cast_lt.symm)

theorem computes_eq : Computes (fun x y => if x = y then 1 else 0) fun x y => Word.ofProp (x = y) :=
  fun _ _ hx hy => ofInt_ite ((ofNat_inj hx hy).trans Nat.cast_inj.symm)

/-! ### Instructions and runs -/

/-- **An instruction on words** does to the stack what it does to a stack of words, and nothing
else. -/
theorem exec_word (hw : evm.Words) {s : List Word} (h : op.wordStep evm.wordStack = some s) :
    exec P op evm = (.ok none, { evm with stack := ⟨s.map BitVec.toNat⟩ }) := by
  cases op <;> simp only [OpCode.wordStep, reduceCtorEq, Option.some.injEq] at h
  case add => subst h; exact binary_exact computes_add hw
  case sub => subst h; exact binary_exact computes_sub hw
  case mul => subst h; exact binary_exact computes_mul hw
  case div => subst h; simp only [exec]; exact binary_exact computes_div hw
  case lt => subst h; simp only [exec]; exact binary_exact computes_lt hw
  case gt => subst h; simp only [exec]; exact binary_exact computes_gt hw
  case eq => subst h; simp only [exec]; exact binary_exact computes_eq hw
  case and => subst h; exact binary_exact computes_and hw
  case or => subst h; exact binary_exact computes_or hw
  case iszero =>
    subst h
    have hzero : BitVec.ofNat 256 (evm.operand 0) = 0 ↔ evm.operand 0 = 0 :=
      ofNat_inj (hw.operand_lt 0) (by norm_num)
    rw [exec_iszero, Stack.push_ofInt, ofInt_ite hzero, List.map_cons, getD_wordStack,
      hw.toNat_drop]
  case dup n =>
    rw [length_wordStack] at h
    split at h
    · cases h
    · next hlong =>
      obtain rfl := Option.some.inj h
      have hpush := Stack.push_natCast (hw.operand_lt (n - 1)) evm.stack
      simp only [exec, dupWord]
      rw [if_neg hlong, List.map_cons, getD_wordStack, hw.toNat_operand, hw.toNat_stack]
      exact congrArg (fun stack => (_, { evm with stack := stack })) hpush
  case swap n =>
    rw [length_wordStack] at h
    split at h
    · cases h
    · next hlong =>
      obtain rfl := Option.some.inj h
      simp only [exec, swapWord]
      rw [if_neg hlong, List.map_set, List.map_set, getD_wordStack, getD_wordStack,
        hw.toNat_operand, hw.toNat_operand, hw.toNat_stack]
      rfl

/-- The stack holds words at every head and at the end. -/
theorem run_words (hs : evm.Sound P) (fuel : ℕ) : (run P fuel evm).2.Words := by
  obtain ⟨head, hreach, hend | ⟨hend, hlast⟩⟩ := run_cases P fuel evm
  · rw [hend]
    exact (hreach.sound hs).words
  · rw [hend]
    by_cases hfunded : head.Funded
    · rw [run_of_last hfunded (hlast hfunded)]
      exact step_words hfunded (hreach.sound hs).words
    · rw [run_of_unfunded hfunded]
      exact (hreach.sound hs).words

/-- Wherever the run is cut or ends, the stack holds words. At every head an instruction on words
does what it does on a stack of words, and a `DUP` or `SWAP` that reaches below the stack is an
error that changes nothing. -/
structure ExactWords (P : Primitives) (evm : EVM) : Prop where
  range : ∀ fuel, ∀ w ∈ (run P fuel evm).2.stack.data, w < 2 ^ 256
  exact : ∀ head, Reaches P evm head → head.Funded → ∀ s,
    head.opcode.wordStep head.wordStack = some s →
      step P head = (.ok none, { head.paid with stack := ⟨s.map BitVec.toNat⟩ })
  dup : ∀ head, Reaches P evm head → head.Funded → ∀ n, head.opcode = .dup n →
    head.stack.data.length < n → step P head = (.err .dupOutOfBounds, head.paid)
  swap : ∀ head, Reaches P evm head → head.Funded → ∀ n, head.opcode = .swap n →
    head.stack.data.length ≤ n → step P head = (.err .swapOutOfBounds, head.paid)

variable (P) in
/-- **Word arithmetic is exact**, at every head of every run. -/
theorem exact_words (code callData : List UInt8) (ws : WorldState) (contract caller : Address)
    (value : ℤ) (gasLimit : UInt64) :
    ExactWords P (newEVM code callData ws contract caller value gasLimit) := by
  have hs := newEVM_sound P code callData ws contract caller value gasLimit
  refine ⟨run_words hs, ?_, ?_, ?_⟩
  · intro head hreach hfunded s h
    have hwords : head.paid.Words := (hreach.sound hs).words
    rw [step_of_funded hfunded]
    exact exec_word hwords h
  · intro head hreach hfunded n hop hshort
    rw [step_of_funded hfunded, hop]
    exact exec_dup_of_short hshort
  · intro head hreach hfunded n hop hshort
    rw [step_of_funded hfunded, hop]
    exact exec_swap_of_short hshort

/-- **`DUP1` on an empty stack** does not push a zero, and `SWAP1` on a single word does not
exchange it with one. -/
theorem dup_of_missing :
    (step .sample (bare [0x80])).1 = .err .dupOutOfBounds ∧
      (run .sample 9 (bare [0x60, 1, 0x90])).1 = .err .swapOutOfBounds := by
  constructor <;> decide +kernel

end EVM

end Blockz
