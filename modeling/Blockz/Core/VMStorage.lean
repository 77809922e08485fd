import Blockz.Core.VMWords
import Blockz.Framework.WriteLog

/-!
# Contract storage

`SSTORE` writes a word under a word, and `SLOAD` reads it back. In between the key is padded and
hashed, and the value is cut to its shortest byte string, with a single zero byte for zero. The
storage of an account as the machine sees it is a function from words to words
(`WorldState.storage`).

* `stored` — the log of the storage writes of a run.
* `run_view` — the state that a run leaves, read in any way that follows the single writes, is the
  replay of the log. The storage is one such reading, provided that the hash has no collisions on
  keys (`storage_setAccountState`).
* `storageMap` — at every head of a run `SLOAD` pushes what the log wrote last under the key, and
  otherwise what the storage held before the run.
-/

namespace Blockz

open Effect WriteLog

/-- **SHA-256 has no collisions on 32-byte inputs.** -/
def Primitives.NoCollisions (P : Primitives) : Prop :=
  ∀ x y : List UInt8, x.length = 32 → y.length = 32 → P.sha256 x = P.sha256 y → x = y

/-! ### The storage of an account -/

namespace WorldState

/-- The bytes under a key in the storage of an account. -/
def stateAt (ws : WorldState) (a : Address) (key : Hash) : Option (List UInt8) :=
  (ws.getAccountState a key).toOption

/-- The storage of an account as a function from words to words; an absent word is zero. -/
def storage (P : Primitives) (ws : WorldState) (a : Address) (k : Word) : Word :=
  BitVec.ofNat 256 (Bytes.toNat ((ws.stateAt a (EVM.wordKey P k.toNat)).getD []))

/-- It is the storage of the account that is there or would be created. -/
theorem stateAt_eq (ws : WorldState) (a : Address) (key : Hash) :
    ws.stateAt a key = (ws.account a).storage.lookup key := by
  unfold stateAt getAccountState account
  cases ws.accounts.lookup a with
  | none =>
    have hempty : Finmap.lookup key (newAccount 0).storage = none := Finmap.lookup_empty key
    exact hempty.symm
  | some acc =>
    simp only [Option.getD_some]
    cases acc.storage.lookup key with
    | none => rfl
    | some value => rfl

/-- Only an account that exists has entries. -/
theorem getAccount_of_stateAt {ws : WorldState} {a : Address} {key : Hash} {value : List UInt8}
    (h : ws.stateAt a key = some value) : ws.getAccount a = some (ws.account a) := by
  unfold getAccount account
  cases hlookup : ws.accounts.lookup a with
  | some acc => rfl
  | none =>
    unfold stateAt getAccountState at h
    rw [hlookup] at h
    cases h

/-- One write changes one key of one account. -/
theorem stateAt_setAccountState (ws : WorldState) (a : Address) (key : Hash) (value : List UInt8) :
    (ws.setAccountState a key value).stateAt a =
      Function.update (ws.stateAt a) key (some value) := by
  funext key'
  unfold setAccountState
  rw [stateAt_eq, account_updateAccount, if_pos rfl]
  by_cases h : key' = key
  · rw [h, Finmap.lookup_insert, Function.update_self]
  · rw [Finmap.lookup_insert_of_ne _ h, Function.update_of_ne h, stateAt_eq]

/-- An update that keeps the storage of the account it writes keeps every storage. -/
theorem stateAt_updateAccount {a : Address} {f : Account → Account}
    (hf : ∀ acc, (f acc).storage = acc.storage) (ws : WorldState) (b : Address) (key : Hash) :
    (ws.updateAccount a f).stateAt b key = ws.stateAt b key := by
  rw [stateAt_eq, account_updateAccount, stateAt_eq]
  split
  · next h => rw [hf, h]
  · rfl

/-- So does a write at another account. -/
theorem stateAt_updateAccount_of_ne {a b : Address} (h : b ≠ a) (f : Account → Account)
    (ws : WorldState) (key : Hash) : (ws.updateAccount a f).stateAt b key = ws.stateAt b key := by
  rw [stateAt_eq, account_updateAccount, if_neg h, stateAt_eq]

end WorldState

namespace EVM

variable {P : Primitives} {evm head : EVM} {fuel : ℕ}

/-! ### Keys and values -/

theorem toNat_storedBytes (v : ℕ) : Bytes.toNat (storedBytes v) = v := by
  unfold storedBytes
  split
  · next h =>
    rw [h]
    rfl
  · exact Bytes.toNat_ofNat v

/-- Different words have different keys. -/
theorem wordKey_injective (hP : P.NoCollisions) {k k' : Word}
    (h : wordKey P k.toNat = wordKey P k'.toNat) : k = k' := by
  have hpadded := hP _ _ (length_wordBytes k.isLt) (length_wordBytes k'.isLt) h
  apply BitVec.eq_of_toNat_eq
  calc k.toNat
      = Bytes.toNat (Bytes.padLeft 32 (Bytes.ofNat k.toNat)) := by
        rw [Bytes.toNat_padLeft, Bytes.toNat_ofNat]
    _ = Bytes.toNat (Bytes.padLeft 32 (Bytes.ofNat k'.toNat)) := by rw [hpadded]
    _ = k'.toNat := by rw [Bytes.toNat_padLeft, Bytes.toNat_ofNat]

/-- **One `SSTORE` is one write to the map of words**, also of a zero. -/
theorem storage_setAccountState (hP : P.NoCollisions) (ws : WorldState) (a : Address) (k v : Word) :
    (ws.setAccountState a (wordKey P k.toNat) (storedBytes v.toNat)).storage P a =
      Function.update (ws.storage P a) k v := by
  funext k'
  unfold WorldState.storage
  rw [WorldState.stateAt_setAccountState]
  by_cases h : k' = k
  · rw [h, Function.update_self, Function.update_self, Option.getD_some, toNat_storedBytes,
      BitVec.ofNat_toNat, BitVec.setWidth_eq]
  · have hkey : wordKey P k'.toNat ≠ wordKey P k.toNat := fun hk => h (wordKey_injective hP hk)
    rw [Function.update_of_ne hkey, Function.update_of_ne h]

/-! ### The log of a run -/

/-- What the round at a head stores: the key and the value. -/
def storageWrite (evm : EVM) : List (Word × Word) :=
  if evm.opcode = .sstore then
    [(BitVec.ofNat 256 (evm.operand 0), BitVec.ofNat 256 (evm.operand 1))]
  else []

variable (P) in
/-- What a run stores, oldest first. -/
def stored (fuel : ℕ) (evm : EVM) : List (Word × Word) := (heads P fuel evm).flatMap storageWrite

/-- A round writes to the world state what its instruction stores. -/
theorem step_state (hw : evm.Words) (h : evm.Funded) :
    (step P evm).2.state = evm.storageWrite.foldl (fun ws w =>
      ws.setAccountState evm.contract (wordKey P w.1.toNat) (storedBytes w.2.toNat)) evm.state := by
  have hpaid : evm.paid.Words := hw
  unfold storageWrite
  rw [step_of_funded h]
  by_cases hop : evm.opcode = .sstore
  · rw [if_pos hop, hop, exec_sstore_eq hpaid, List.foldl_cons, List.foldl_nil,
      hw.toNat_operand, hw.toNat_operand]
    rfl
  · rw [if_neg hop]
    exact exec_sameState hop evm.paid

/-- **What a run leaves**, in any reading of the world state that follows the single writes, is the
replay of its log. -/
theorem run_view {κ ν : Type} [DecidableEq κ] (view : WorldState → κ → ν)
    (carry : Word × Word → κ × ν) (hs : evm.Sound P)
    (hview : ∀ ws w, view (ws.setAccountState evm.contract (wordKey P w.1.toNat)
      (storedBytes w.2.toNat)) = Function.update (view ws) (carry w).1 (carry w).2)
    (hrun : ∀ p, (run P fuel evm).1 ≠ .panic p) :
    view (run P fuel evm).2.state = replay (view evm.state) ((stored P fuel evm).map carry) := by
  unfold stored
  rw [List.map_flatMap]
  refine run_replay (fun s => view s.state) _ ?_ hrun
  intro s hreach hfunded _
  -- the contract is the same at every head
  rw [step_state (hreach.sound hs).words hfunded, hreach.frame.contract]
  unfold storageWrite
  split
  · exact hview s.state _
  · rfl

theorem run_storage (hP : P.NoCollisions) (hs : evm.Sound P)
    (hrun : ∀ p, (run P fuel evm).1 ≠ .panic p) :
    (run P fuel evm).2.state.storage P evm.contract =
      replay (evm.state.storage P evm.contract) (stored P fuel evm) := by
  have hreplay := run_view (fun ws => ws.storage P evm.contract) id hs
    (fun ws w => storage_setAccountState hP ws evm.contract w.1 w.2) hrun
  rw [List.map_id] at hreplay
  exact hreplay

/-! ### Loads and stores -/

/-- The word that `SLOAD` pushes. -/
theorem ofNat_load (hw : evm.Words) (i : ℕ) :
    BitVec.ofNat 256 (evm.load (wordKey P (evm.operand i))) =
      evm.state.storage P evm.contract (BitVec.ofNat 256 (evm.operand i)) := by
  unfold load WorldState.storage WorldState.stateAt
  rw [hw.toNat_operand]
  cases evm.state.getAccountState evm.contract (wordKey P (evm.operand i)) <;> rfl

/-- **Storage is a map from words to words.** After any number of rounds `SLOAD` pushes what was
stored last under its key, and if nothing was, what the storage held when the run began; `SSTORE`
changes the word under its key and no other. -/
structure StorageMap (P : Primitives) (evm : EVM) : Prop where
  load : ∀ n head, run P n evm = (.outOfFuel, head) → head.Funded → head.opcode = .sload →
    step P head = (.ok none, { head.paid with
      stack := ⟨((last (stored P n evm) (BitVec.ofNat 256 (head.operand 0))).getD
        (evm.state.storage P evm.contract (BitVec.ofNat 256 (head.operand 0)))).toNat ::
          (head.popped 1).stack.data⟩ })
  store : ∀ n head, run P n evm = (.outOfFuel, head) → head.Funded → head.opcode = .sstore →
    ∃ head', step P head = (.ok none, head') ∧
      head'.state.storage P evm.contract =
        Function.update (head.state.storage P evm.contract) (BitVec.ofNat 256 (head.operand 0))
          (BitVec.ofNat 256 (head.operand 1))

theorem storageMap (hP : P.NoCollisions) (hs : evm.Sound P) : StorageMap P evm := by
  constructor
  · intro n head hrun hfunded hop
    have hreach : Reaches P evm head := reaches_iff.mpr ⟨n, hrun⟩
    have hwords : head.paid.Words := (hreach.sound hs).words
    have hheld : head.state.storage P evm.contract =
        replay (evm.state.storage P evm.contract) (stored P n evm) := by
      rw [← run_storage hP hs (not_panic_of_outOfFuel hrun), hrun]
    have hload : BitVec.ofNat 256 (head.load (wordKey P (head.operand 0))) =
        (last (stored P n evm) (BitVec.ofNat 256 (head.operand 0))).getD
          (evm.state.storage P evm.contract (BitVec.ofNat 256 (head.operand 0))) := by
      rw [ofNat_load (hreach.sound hs).words, hreach.frame.contract, hheld, replay_apply]
    rw [step_of_funded hfunded, hop, exec_sload hwords, Stack.push_ofInt, BitVec.ofInt_natCast,
      ← hload]
    rfl
  · intro n head hrun hfunded hop
    have hreach : Reaches P evm head := reaches_iff.mpr ⟨n, hrun⟩
    have hwords : head.Words := (hreach.sound hs).words
    have hpaid : head.paid.Words := hwords
    have hstep : (step P head).1 = .ok none := by
      rw [step_of_funded hfunded, hop, exec_sstore_eq hpaid]
    refine ⟨_, Act.eq_mk_of_fst hstep, ?_⟩
    rw [step_state hwords hfunded, hreach.frame.contract]
    unfold storageWrite
    rw [if_pos hop, List.foldl_cons, List.foldl_nil]
    exact storage_setAccountState hP _ _ _ _

end EVM

end Blockz
