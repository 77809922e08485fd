import Blockz.Core.LevelDBStore
import Blockz.Framework.Journal

/-!
# The writes of `Put`

`LevelDBStore.Put` is not one write but several: the block under its height, the block under its
hash, and each transaction under its hash. They are made one after the other and not as a batch, so
a program that dies in between leaves some of them.

Here is the store with its journal. It runs the code of `LevelDBStore`, and a write goes to the
journal.

* `tracks_put` — seen without the journal, it is the store of `LevelDBStore`.
* `lawfulStorage` — so the chain may rely on it in the same way.
-/

namespace Blockz

open Effect

namespace LevelDBStore

variable {C : StoreCodecs}

/-- A write reaches the database. -/
def applyWrite (s : LevelDBStore C) (w : List UInt8 × List UInt8) : LevelDBStore C :=
  ⟨s.db.insert w.1 w.2⟩

end LevelDBStore

/-- `core.LevelDBStore`, with the writes since it was opened. -/
structure JournaledStore (C : StoreCodecs) where
  journal : Journal (LevelDBStore C) (List UInt8 × List UInt8)

namespace JournaledStore

open LevelDBStore (heightKey hashKey txKey)

variable (P : Primitives) {C : StoreCodecs}

/-- `NewLevelDBStore`, on a directory with the given contents. -/
def newLevelDBStore (s : LevelDBStore C) : JournaledStore C := ⟨.reopen s⟩

/-- The contents of the database. -/
def current (j : JournaledStore C) : LevelDBStore C := j.journal.current LevelDBStore.applyWrite

/-- What is in the directory when the program has died and its last `lost` writes are not there. -/
def crash (lost : ℕ) (j : JournaledStore C) : LevelDBStore C :=
  j.journal.crash LevelDBStore.applyWrite lost

/-- `db.Put`. -/
def write (key value : List UInt8) : Act (JournaledStore C) Err Unit :=
  Act.modify fun j => ⟨j.journal.record (key, value)⟩

/-- The body of the loop of `Put`. -/
def putTransaction (tx : Transaction) : Act (JournaledStore C) Err Unit := do
  let data ← Act.lift (C.transaction.encode tx)
  write (txKey (tx.hash P)) data

/-- `LevelDBStore.Put`. -/
def put (b : Block) : Act (JournaledStore C) Err Unit := do
  let data ← Act.lift (C.block.encode b)
  let h ← Act.lift (Outcome.deref b.header)
  write (heightKey h.height) data
  write (hashKey (b.hash P h)) data
  Act.forEach (putTransaction P) b.transactions

instance : Storage P (JournaledStore C) where
  put := put P
  get j := j.current.get
  getByHash j := j.current.getByHash
  getTxByHash j := j.current.getTxByHash

variable {P}

/-! ### Without the journal -/

theorem current_record (w : List UInt8 × List UInt8) (j : JournaledStore C) :
    (⟨j.journal.record w⟩ : JournaledStore C).current = j.current.applyWrite w :=
  Journal.current_record w j.journal

theorem tracks_write (key value : List UInt8) :
    Act.Tracks current (write key value) (LevelDBStore.write (C := C) key value) :=
  fun j => Prod.ext rfl (current_record (key, value) j).symm

theorem tracks_putTransaction (tx : Transaction) :
    Act.Tracks current (putTransaction P tx) (LevelDBStore.putTransaction (C := C) P tx) :=
  (Act.Tracks.lift _).bind fun _ => tracks_write _ _

/-- **The journal is not seen.** `Put` answers as it does without it, and leaves the database that
it leaves without it. -/
theorem tracks_put (b : Block) : Act.Tracks current (put P b) (LevelDBStore.put (C := C) P b) := by
  refine (Act.Tracks.lift _).bind fun _ => (Act.Tracks.lift _).bind fun _ => ?_
  refine (tracks_write _ _).bind fun _ => (tracks_write _ _).bind fun _ => ?_
  exact Act.Tracks.forEach _ tracks_putTransaction

theorem current_put (b : Block) (j : JournaledStore C) :
    (Storage.put P b j).2.current = (Storage.put P b j.current).2 :=
  (congrArg Prod.snd (tracks_put b j)).symm

theorem lawfulStorage (hgob : ∀ b, C.Carries b) : LawfulStorage P (JournaledStore C) := by
  have := LevelDBStore.lawfulStorage (P := P) hgob
  refine ⟨fun j b h hh => ?_, fun j b h hh => ?_, fun j b h i hh hi => ?_⟩
  · have hok := LawfulStorage.put_ok (P := P) j.current hh
    exact (congrArg Prod.fst (tracks_put b j)).symm.trans hok
  · obtain ⟨b', hget, hheader⟩ := LawfulStorage.get_put_self (P := P) j.current hh
    refine ⟨b', ?_, hheader⟩
    show (Storage.put P b j).2.current.get h.height = _
    rw [current_put]
    exact hget
  · show (Storage.put P b j).2.current.get i = j.current.get i
    rw [current_put]
    exact LawfulStorage.get_put_of_ne (P := P) j.current hh hi

end JournaledStore

end Blockz
