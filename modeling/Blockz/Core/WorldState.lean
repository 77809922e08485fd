import Blockz.Errors
import Blockz.Framework.Effect
import Blockz.Framework.Ledger
import Mathlib.Tactic.Linarith

/-!
# Accounts and the world state

`core/account.go` and `core/world_state.go`. The world state maps addresses to accounts, and code
hashes to bytecode. Five of its functions look an account up, create it with `NewAccount(0)` when
it is missing, and then write one of its fields through the pointer: they are instances of
`WorldState.updateAccount`.

Balances and nonces are `uint64`. The ledger of a world state (`WorldState.ledger`) holds the same
balances as exact numbers, and `WorldState.supply` is their sum. Three theorems say what the
operations that touch a balance do to it:

* `ledger_updateAccount_of_balance` — an update that keeps the balance keeps the ledger;
* `ledger_addBalance` — a reward is a `Ledger.mint`, provided that the new total fits a `uint64`;
* `ledger_debitCredit` — a paid transfer is a `Ledger.move`, provided that the total fits. It
  covers a transfer to oneself, where the debit and the credit go through the same pointer.
-/

namespace Blockz

open Effect

/-- `core.Account`. -/
structure Account where
  nonce : UInt64
  balance : UInt64
  codeHash : Hash
  storageRoot : Hash
  storage : Finmap fun _ : Hash => List UInt8

/-- `NewAccount`. -/
def newAccount (balance : UInt64) : Account where
  nonce := 0
  balance := balance
  codeHash := Hash.zero
  storageRoot := Hash.zero
  storage := ∅

/-- `core.WorldState`. -/
structure WorldState where
  accounts : Finmap fun _ : Address => Account
  contractCode : Finmap fun _ : Hash => List UInt8

namespace WorldState

/-- `NewWorldState`. -/
def new : WorldState where
  accounts := ∅
  contractCode := ∅

/-- `CreateGenesisState`; the allocations are given as a list with one entry per address. -/
def createGenesisState (allocs : List (Address × UInt64)) : WorldState where
  accounts := allocs.foldl (fun m alloc => m.insert alloc.1 (newAccount alloc.2)) ∅
  contractCode := ∅

/-- `WorldState.GetAccount`. -/
def getAccount (ws : WorldState) (addr : Address) : Option Account := ws.accounts.lookup addr

/-- The account at an address, or the one that would be created there. -/
def account (ws : WorldState) (addr : Address) : Account :=
  (ws.accounts.lookup addr).getD (newAccount 0)

/-- Look up the account, create it when it is missing, and write through the pointer. -/
def updateAccount (ws : WorldState) (addr : Address) (f : Account → Account) : WorldState :=
  { ws with accounts := ws.accounts.insert addr (f (ws.account addr)) }

/-- `WorldState.GetBalance`. -/
def getBalance (ws : WorldState) (addr : Address) : UInt64 :=
  match ws.accounts.lookup addr with
  | some acc => acc.balance
  | none => 0

/-- `WorldState.GetNonce`. -/
def getNonce (ws : WorldState) (addr : Address) : UInt64 :=
  match ws.accounts.lookup addr with
  | some acc => acc.nonce
  | none => 0

/-- `WorldState.IncrementNonce`. -/
def incrementNonce (ws : WorldState) (addr : Address) : WorldState :=
  ws.updateAccount addr fun acc => { acc with nonce := acc.nonce + 1 }

/-- `WorldState.AddBalance`. -/
def addBalance (ws : WorldState) (addr : Address) (amount : UInt64) : WorldState :=
  ws.updateAccount addr fun acc => { acc with balance := acc.balance + amount }

/-- The two writes of a transfer, in the order of the source. When `src` and `dst` are one
address, the second write sees the first. -/
def debitCredit (ws : WorldState) (src dst : Address) (value : UInt64) : WorldState :=
  (ws.updateAccount src fun acc => { acc with balance := acc.balance - value }).addBalance dst value

/-- `WorldState.Transfer`. Nothing is written before the three checks have passed; the credit is
not checked. -/
def transfer (src dst : Address) (value : UInt64) : Act WorldState Err Unit := fun ws =>
  if value = 0 then (.err .zeroTransfer, ws)
  else match ws.accounts.lookup src with
    | none => (.err (.senderMissing src), ws)
    | some acc =>
      if acc.balance < value then (.err (.insufficientBalance src acc.balance value), ws)
      else (.ok (), ws.debitCredit src dst value)

/-- `WorldState.SubBalance`. -/
def subBalance (addr : Address) (amount : UInt64) : Act WorldState Err Unit := fun ws =>
  match ws.accounts.lookup addr with
  | none => (.err (.accountMissing addr), ws)
  | some acc =>
    if acc.balance < amount then (.err (.insufficientToSubtract addr acc.balance amount), ws)
    else (.ok (), ws.updateAccount addr fun acc => { acc with balance := acc.balance - amount })

/-- `WorldState.SetAccountState`. -/
def setAccountState (ws : WorldState) (addr : Address) (key : Hash) (value : List UInt8) :
    WorldState :=
  ws.updateAccount addr fun acc => { acc with storage := acc.storage.insert key value }

/-- `WorldState.GetAccountState`. -/
def getAccountState (ws : WorldState) (addr : Address) (key : Hash) :
    Outcome Err (List UInt8) :=
  match ws.accounts.lookup addr with
  | none => .err (.accountNotFound addr)
  | some acc =>
    match acc.storage.lookup key with
    | none => .err (.keyNotFound key addr)
    | some value => .ok value

/-! ### Reading after writing -/

variable (ws : WorldState)

theorem getBalance_eq (a : Address) : ws.getBalance a = (ws.account a).balance := by
  unfold getBalance account
  cases ws.accounts.lookup a <;> rfl

theorem getNonce_eq (a : Address) : ws.getNonce a = (ws.account a).nonce := by
  unfold getNonce account
  cases ws.accounts.lookup a <;> rfl

theorem lookup_updateAccount (a b : Address) (f : Account → Account) :
    (ws.updateAccount a f).accounts.lookup b =
      if b = a then some (f (ws.account a)) else ws.accounts.lookup b := by
  unfold updateAccount
  by_cases h : b = a
  · subst h
    rw [if_pos rfl, Finmap.lookup_insert]
  · rw [if_neg h, Finmap.lookup_insert_of_ne _ h]

theorem account_updateAccount (a b : Address) (f : Account → Account) :
    (ws.updateAccount a f).account b = if b = a then f (ws.account a) else ws.account b := by
  unfold account
  rw [lookup_updateAccount]
  split <;> rfl

/-- The account that an update writes exists afterwards. -/
theorem mem_updateAccount (a : Address) (f : Account → Account) :
    a ∈ (ws.updateAccount a f).accounts := by
  rw [← Finmap.lookup_isSome, lookup_updateAccount, if_pos rfl]
  rfl

theorem getBalance_updateAccount (a b : Address) (f : Account → Account) :
    (ws.updateAccount a f).getBalance b =
      if b = a then (f (ws.account a)).balance else ws.getBalance b := by
  rw [getBalance_eq, account_updateAccount, getBalance_eq]
  split <;> rfl

theorem getNonce_updateAccount (a b : Address) (f : Account → Account) :
    (ws.updateAccount a f).getNonce b =
      if b = a then (f (ws.account a)).nonce else ws.getNonce b := by
  rw [getNonce_eq, account_updateAccount, getNonce_eq]
  split <;> rfl

theorem getNonce_incrementNonce (a b : Address) :
    (ws.incrementNonce a).getNonce b = if b = a then ws.getNonce a + 1 else ws.getNonce b := by
  unfold incrementNonce
  rw [getNonce_updateAccount, ← getNonce_eq]

/-- An update that keeps the nonce of the account it writes keeps every nonce. -/
theorem getNonce_updateAccount_of_nonce {a : Address} {f : Account → Account}
    (hf : ∀ acc, (f acc).nonce = acc.nonce) (b : Address) :
    (ws.updateAccount a f).getNonce b = ws.getNonce b := by
  rw [getNonce_updateAccount]
  split
  · next h => rw [h, hf, getNonce_eq]
  · rfl

theorem getNonce_debitCredit (src dst : Address) (value : UInt64) (b : Address) :
    (ws.debitCredit src dst value).getNonce b = ws.getNonce b := by
  unfold debitCredit addBalance
  rw [getNonce_updateAccount_of_nonce, getNonce_updateAccount_of_nonce] <;> exact fun _ => rfl

theorem getNonce_addBalance (a : Address) (amount : UInt64) (b : Address) :
    (ws.addBalance a amount).getNonce b = ws.getNonce b := by
  unfold addBalance
  rw [getNonce_updateAccount_of_nonce]
  exact fun _ => rfl

/-! ### The ledger -/

/-- The balances as exact numbers. -/
noncomputable def ledger : Address →₀ ℕ :=
  Ledger.ofFinmap (fun acc : Account => acc.balance.toNat) ws.accounts

/-- The exact sum of all account balances. -/
def supply : ℕ := ∑ a ∈ ws.accounts.keys, (ws.getBalance a).toNat

theorem ledger_apply (a : Address) : ws.ledger a = (ws.getBalance a).toNat := by
  unfold ledger getBalance
  rw [Ledger.ofFinmap_apply]
  cases ws.accounts.lookup a <;> rfl

theorem supply_eq_degree : ws.supply = ws.ledger.degree := by
  unfold supply ledger
  rw [Ledger.degree_ofFinmap]
  refine Finset.sum_congr rfl fun a _ => ?_
  unfold getBalance
  cases ws.accounts.lookup a <;> rfl

theorem getBalance_le_supply (a : Address) : (ws.getBalance a).toNat ≤ ws.supply := by
  rw [supply_eq_degree, ← ledger_apply]
  exact Finsupp.le_degree a _

theorem ledger_updateAccount (a : Address) (f : Account → Account) :
    (ws.updateAccount a f).ledger = ws.ledger.update a (f (ws.account a)).balance.toNat :=
  Ledger.ofFinmap_insert _ _ _ _

/-- Writing any field but the balance leaves the ledger as it was, also when the write creates
the account. -/
theorem ledger_updateAccount_of_balance {a : Address} {f : Account → Account}
    (hf : ∀ acc, (f acc).balance = acc.balance) : (ws.updateAccount a f).ledger = ws.ledger := by
  rw [ledger_updateAccount, hf, ← getBalance_eq, ← ledger_apply, Finsupp.update_self]

/-- A reward mints, as long as the total still fits. -/
theorem ledger_addBalance {a : Address} {amount : UInt64}
    (hfit : ws.supply + amount.toNat < 2 ^ 64) :
    (ws.addBalance a amount).ledger = Ledger.mint ws.ledger a amount.toNat := by
  have hle := ws.getBalance_le_supply a
  have hadd : (ws.getBalance a + amount).toNat = (ws.getBalance a).toNat + amount.toNat := by
    rw [UInt64.toNat_add]
    omega
  ext b
  rw [Ledger.mint, Finsupp.add_apply, ledger_apply, ledger_apply]
  unfold addBalance
  rw [getBalance_updateAccount]
  by_cases hb : b = a
  · subst hb
    rw [if_pos rfl, ← getBalance_eq, hadd, Finsupp.single_eq_same]
  · rw [if_neg hb, Finsupp.single_eq_of_ne hb, Nat.add_zero]

/-- The two writes of a transfer move the value, as long as the sender has it and the total fits.
The credit cannot wrap: the receiver holds at most what the sender does not. -/
theorem ledger_debitCredit {src dst : Address} {value : UInt64}
    (hhas : value.toNat ≤ (ws.getBalance src).toNat) (hfit : ws.supply < 2 ^ 64) :
    (ws.debitCredit src dst value).ledger = Ledger.move ws.ledger src dst value.toNat := by
  -- the debit alone, as an exact ledger
  have hdebit : (ws.updateAccount src fun acc => { acc with balance := acc.balance - value }).ledger
      = ws.ledger - Finsupp.single src value.toNat := by
    ext b
    rw [Finsupp.tsub_apply, ledger_apply, ledger_apply, getBalance_updateAccount]
    by_cases hb : b = src
    · subst hb
      rw [if_pos rfl, ← getBalance_eq, Finsupp.single_eq_same]
      exact UInt64.toNat_sub_of_le _ _ (UInt64.le_iff_toNat_le.mpr hhas)
    · rw [if_neg hb, Finsupp.single_eq_of_ne hb, Nat.sub_zero]
  have hsplit : (ws.ledger - Finsupp.single src value.toNat).degree + value.toNat
      = ws.ledger.degree := by
    have hle : Finsupp.single src value.toNat ≤ ws.ledger :=
      Finsupp.single_le_iff.mpr (by rwa [ledger_apply])
    have hsum := congrArg Finsupp.degree (tsub_add_cancel_of_le hle)
    rwa [map_add, Finsupp.degree_single] at hsum
  unfold debitCredit
  rw [ledger_addBalance, hdebit]
  · rfl
  · rw [supply_eq_degree, hdebit, hsplit, ← supply_eq_degree]
    exact hfit

/-! ### Transfers -/

variable {ws}

/-- What `Transfer` can do: fail and leave everything in place, or move a positive value that the
sender has. -/
theorem transfer_cases (src dst : Address) (value : UInt64) (ws : WorldState) :
    (∃ e, transfer src dst value ws = (.err e, ws)) ∨
      (transfer src dst value ws = (.ok (), ws.debitCredit src dst value) ∧
        src ∈ ws.accounts ∧ value.toNat ≤ (ws.getBalance src).toNat) := by
  unfold transfer
  split
  · exact Or.inl ⟨_, rfl⟩
  · cases hacc : ws.accounts.lookup src with
    | none => exact Or.inl ⟨_, rfl⟩
    | some acc =>
      by_cases hlt : acc.balance < value
      · simp only [if_pos hlt]
        exact Or.inl ⟨_, rfl⟩
      · simp only [if_neg hlt]
        refine Or.inr ⟨trivial, Finmap.mem_of_lookup_eq_some hacc, ?_⟩
        have hbal : ws.getBalance src = acc.balance := by
          unfold getBalance
          rw [hacc]
        rw [hbal]
        exact UInt64.le_iff_toNat_le.mp (UInt64.not_lt.mp hlt)

end WorldState

end Blockz
