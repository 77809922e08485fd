import Blockz.Core.Storage
import Blockz.Crypto.Instance
import Blockz.Framework.Keyspace

/-!
# The store on disk

`core/leveldb_storage.go`. The database is one map from byte strings to byte strings, and the store
keeps three indexes in it: blocks by height, blocks by hash, transactions by hash. Each index has a
prefix of its own, but `block_` and `blockhash_` have a common beginning and what follows a prefix
is binary, so the prefixes alone do not keep the indexes apart. The lengths do: a key has 10, 42 or
35 bytes.

* `Refines` — the database holds the three maps of a `MemoryStore`, in gob.
* `Refines.put` — `Put` on both stores keeps that and answers the same.
* `levelDB_refines_memory` — after any sequence of `Put` calls the two stores answer every question
  alike, up to unexported fields.
-/

namespace Blockz

open Effect

/-- The gob encodings of what a store keeps. -/
structure StoreCodecs where
  block : GobCodec Block
  transaction : GobCodec Transaction

/-- `core.LevelDBStore`. The database is a map that does not fail. -/
structure LevelDBStore (C : StoreCodecs) where
  db : Finmap fun _ : List UInt8 => List UInt8

namespace LevelDBStore

/-! ### Keys -/

def blockPrefix : List UInt8 := ascii "block_"

def blockHashPrefix : List UInt8 := ascii "blockhash_"

def txPrefix : List UInt8 := ascii "tx_"

/-- `heightToBytes`: four bytes, the most significant one first. -/
def heightToBytes (h : UInt32) : List UInt8 :=
  [(h >>> 24).toUInt8, (h >>> 16).toUInt8, (h >>> 8).toUInt8, h.toUInt8]

def heightKey (height : UInt32) : List UInt8 := blockPrefix ++ heightToBytes height

def hashKey (hash : Hash) : List UInt8 := blockHashPrefix ++ hash.bytes

def txKey (hash : Hash) : List UInt8 := txPrefix ++ hash.bytes

theorem heightToBytes_injective : Function.Injective heightToBytes := by
  intro a b h
  simp only [heightToBytes, List.cons.injEq, ← UInt8.toNat_inj, UInt32.toNat_toUInt8,
    UInt32.toNat_shiftRight, Nat.shiftRight_eq_div_pow, and_true] at h
  obtain ⟨h₃, h₂, h₁, h₀⟩ := h
  have ha := a.toNat_lt
  have hb := b.toNat_lt
  rw [← UInt32.toNat_inj]
  change a.toNat / 2 ^ 24 % 256 = b.toNat / 2 ^ 24 % 256 at h₃
  change a.toNat / 2 ^ 16 % 256 = b.toNat / 2 ^ 16 % 256 at h₂
  change a.toNat / 2 ^ 8 % 256 = b.toNat / 2 ^ 8 % 256 at h₁
  omega

theorem heightKey_injective : Function.Injective heightKey := fun _ _ h =>
  heightToBytes_injective (List.append_cancel_left h)

theorem hash_bytes_injective : Function.Injective Hash.bytes := by
  rintro ⟨a, ha⟩ ⟨b, hb⟩ rfl
  rfl

theorem hashKey_injective : Function.Injective hashKey := fun _ _ h =>
  hash_bytes_injective (List.append_cancel_left h)

theorem txKey_injective : Function.Injective txKey := fun _ _ h =>
  hash_bytes_injective (List.append_cancel_left h)

theorem length_heightKey (height : UInt32) : (heightKey height).length = 10 := rfl

theorem length_hashKey (hash : Hash) : (hashKey hash).length = 42 := by
  rw [hashKey, List.length_append, hash.length_eq]
  rfl

theorem length_txKey (hash : Hash) : (txKey hash).length = 35 := by
  rw [txKey, List.length_append, hash.length_eq]
  rfl

theorem heightKey_ne_hashKey (height : UInt32) (hash : Hash) : heightKey height ≠ hashKey hash :=
  Keyspace.ne_of_length length_heightKey length_hashKey (by norm_num) height hash

theorem heightKey_ne_txKey (height : UInt32) (hash : Hash) : heightKey height ≠ txKey hash :=
  Keyspace.ne_of_length length_heightKey length_txKey (by norm_num) height hash

theorem hashKey_ne_txKey (hash hash' : Hash) : hashKey hash ≠ txKey hash' :=
  Keyspace.ne_of_length length_hashKey length_txKey (by norm_num) hash hash'

/-! ### The four operations -/

variable (P : Primitives) {C : StoreCodecs}

/-- The store on a database without entries. -/
def new : LevelDBStore C := ⟨∅⟩

/-- `db.Put`. -/
def write (key value : List UInt8) : Act (LevelDBStore C) Err Unit :=
  Act.modify fun s => ⟨s.db.insert key value⟩

/-- The body of the loop of `Put`. -/
def putTransaction (tx : Transaction) : Act (LevelDBStore C) Err Unit := do
  let data ← Act.lift (C.transaction.encode tx)
  write (txKey (tx.hash P)) data

/-- `LevelDBStore.Put`. -/
def put (b : Block) : Act (LevelDBStore C) Err Unit := do
  let data ← Act.lift (C.block.encode b)
  let h ← Act.lift (Outcome.deref b.header)
  write (heightKey h.height) data
  write (hashKey (b.hash P h)) data
  Act.forEach (putTransaction P) b.transactions

/-- `db.Get`, and the decoder on what it returns. -/
def read {ν : Type} (s : LevelDBStore C) (codec : GobCodec ν) (key : List UInt8) (missing : Err) :
    Outcome Err ν :=
  match s.db.lookup key with
  | none => .err (.missingInDatabase missing)
  | some data => codec.decode data

/-- `LevelDBStore.Get`. -/
def get (s : LevelDBStore C) (height : UInt32) : Outcome Err Block :=
  s.read C.block (heightKey height) (.blockNotFound height)

/-- `LevelDBStore.GetByHash`. -/
def getByHash (s : LevelDBStore C) (hash : Hash) : Outcome Err Block :=
  s.read C.block (hashKey hash) (.blockHashNotFound hash)

/-- `LevelDBStore.GetTxByHash`. -/
def getTxByHash (s : LevelDBStore C) (hash : Hash) : Outcome Err Transaction :=
  s.read C.transaction (txKey hash) (.transactionNotFound hash)

instance : Storage P (LevelDBStore C) where
  put := put P
  get := get
  getByHash := getByHash
  getTxByHash := getTxByHash

end LevelDBStore

/-! ### Comparing stores -/

/-- The store after `Put` was called on each of the blocks, whatever it answered. -/
def Storage.puts {S : Type} (P : Primitives) [Storage P S] (blocks : List Block) (s : S) : S :=
  blocks.foldl (fun s b => (Storage.put P b s).2) s

/-- Both fail, or both return a value and the values have the same exported fields. -/
inductive SameAnswer {ν : Type} (exported : ν → ν) : Outcome Err ν → Outcome Err ν → Prop
  | failed (e e' : Err) : SameAnswer exported (.err e) (.err e')
  | found {x x' : ν} (same : exported x' = exported x) : SameAnswer exported (.ok x) (.ok x')

theorem SameAnswer.of_ok {ν : Type} {exported : ν → ν} {o o' : Outcome Err ν} {x : ν}
    (h : SameAnswer exported o o') (ho : o = .ok x) :
    ∃ x', o' = .ok x' ∧ exported x' = exported x := by
  cases h with
  | failed e e' => exact nomatch ho
  | found same =>
    obtain rfl := Outcome.ok.inj ho
    exact ⟨_, rfl, same⟩

/-- Two stores that cannot be told apart by what they return. -/
structure Storage.SameReads {S S' : Type} (P : Primitives) [Storage P S] [Storage P S'] (s : S)
    (s' : S') : Prop where
  get : ∀ height, SameAnswer Block.exported (Storage.get P s height) (Storage.get P s' height)
  getByHash : ∀ hash,
    SameAnswer Block.exported (Storage.getByHash P s hash) (Storage.getByHash P s' hash)
  getTxByHash : ∀ hash,
    SameAnswer Transaction.exported (Storage.getTxByHash P s hash) (Storage.getTxByHash P s' hash)

/-! ### What the database stands for -/

/-- The bytes decode to the value, up to what gob does not carry. -/
def GobCodec.Reads {ν : Type} (c : GobCodec ν) (carried : ν → ν) (bytes : List UInt8) (x : ν) :
    Prop :=
  ∃ y, c.decode bytes = .ok y ∧ carried y = carried x

/-- Gob carries the block and each of its transactions. -/
structure StoreCodecs.Carries (C : StoreCodecs) (b : Block) : Prop where
  block : C.block.RoundTrips Block.exported b
  transaction : ∀ tx ∈ b.transactions, C.transaction.RoundTrips Transaction.exported tx

namespace LevelDBStore

variable {P : Primitives} {C : StoreCodecs} {m : MemoryStore} {s : LevelDBStore C} {b : Block}

/-- The database holds the three maps of a `MemoryStore`. -/
structure Refines (m : MemoryStore) (s : LevelDBStore C) : Prop where
  blocks : Keyspace.Holds heightKey (C.block.Reads Block.exported) s.db m.blocks
  blockByHash : Keyspace.Holds hashKey (C.block.Reads Block.exported) s.db m.blockByHash
  txByHash : Keyspace.Holds txKey (C.transaction.Reads Transaction.exported) s.db m.txByHash

theorem refines_new : Refines MemoryStore.new (new : LevelDBStore C) :=
  ⟨Keyspace.holds_empty, Keyspace.holds_empty, Keyspace.holds_empty⟩

/-- The first two writes of `Put`. -/
theorem Refines.insert_block (h : Refines m s) {data : List UInt8} {x : Block}
    (hread : C.block.Reads Block.exported data x) (height : UInt32) (hash : Hash) :
    Refines { m with
        blocks := m.blocks.insert height x
        blockByHash := m.blockByHash.insert hash x }
      (⟨(s.db.insert (heightKey height) data).insert (hashKey hash) data⟩ : LevelDBStore C) where
  blocks := (h.blocks.insert heightKey_injective hread).insert_apart
    (fun i => heightKey_ne_hashKey i hash) data
  blockByHash := (h.blockByHash.insert_apart
    (fun i => (heightKey_ne_hashKey height i).symm) data).insert hashKey_injective hread
  txByHash := (h.txByHash.insert_apart (fun i => (heightKey_ne_txKey height i).symm)
    data).insert_apart (fun i => (hashKey_ne_txKey hash i).symm) data

/-- The write for one transaction. -/
theorem Refines.insert_transaction (h : Refines m s) {data : List UInt8} {tx : Transaction}
    (hread : C.transaction.Reads Transaction.exported data tx) (hash : Hash) :
    Refines { m with txByHash := m.txByHash.insert hash tx }
      (⟨s.db.insert (txKey hash) data⟩ : LevelDBStore C) where
  blocks := h.blocks.insert_apart (fun i => heightKey_ne_txKey i hash) data
  blockByHash := h.blockByHash.insert_apart (fun i => hashKey_ne_txKey i hash) data
  txByHash := h.txByHash.insert txKey_injective hread

theorem putTransaction_apply {tx : Transaction} {data : List UInt8}
    (hencode : C.transaction.encode tx = .ok data) (s : LevelDBStore C) :
    putTransaction P tx s = (.ok (), ⟨s.db.insert (txKey (tx.hash P)) data⟩) := by
  unfold putTransaction
  rw [hencode]
  rfl

/-- The loop over the transactions. A later transaction with the same hash replaces an earlier one
in both stores. -/
theorem Refines.insert_transactions (txx : List Transaction)
    (hgob : ∀ tx ∈ txx, C.transaction.RoundTrips Transaction.exported tx) :
    ∀ {m : MemoryStore} {s : LevelDBStore C}, Refines m s →
      ∃ s', Act.forEach (putTransaction P) txx s = (.ok (), s') ∧
        Refines { m with
            txByHash := List.foldl (fun ts (tx : Transaction) => ts.insert tx.cachedHash tx)
              m.txByHash (txx.map (Transaction.cacheHash P)) } s' := by
  induction txx with
  | nil => exact fun {m s} h => ⟨s, rfl, h⟩
  | cons tx txx ih =>
    intro m s h
    obtain ⟨data, hencode, hdecode⟩ := hgob tx List.mem_cons_self
    have hread : C.transaction.Reads Transaction.exported data (tx.cacheHash P) :=
      ⟨_, hdecode, rfl⟩
    rw [Act.forEach_cons, Act.bind_apply_ok (putTransaction_apply hencode s)]
    exact ih (fun tx' h' => hgob tx' (List.mem_cons_of_mem _ h'))
      (h.insert_transaction hread (tx.hash P))

/-- **`Put` on both stores.** The answers are the same, and what they stand for stays the same. -/
theorem Refines.put (h : Refines m s) (hgob : C.Carries b) :
    (Storage.put P b s).1 = (Storage.put P b m).1 ∧
      Refines (Storage.put P b m).2 (Storage.put P b s).2 := by
  obtain ⟨data, hencode, hdecode⟩ := hgob.block
  cases hh : b.header with
  | none =>
    -- both read the height before they write anything
    have hmem : Storage.put P b m = (.panic .nilDereference, m) := by
      change MemoryStore.put P b m = _
      unfold MemoryStore.put
      rw [hh]
      rfl
    have hdisk : Storage.put P b s = (.panic .nilDereference, s) := by
      change LevelDBStore.put P b s = _
      unfold LevelDBStore.put
      rw [hencode, hh]
      rfl
    rw [hmem, hdisk]
    exact ⟨rfl, h⟩
  | some hd =>
    have hread : C.block.Reads Block.exported data (MemoryStore.cached P b hd) := by
      refine ⟨_, hdecode, ?_⟩
      unfold MemoryStore.cached Block.exported
      simp only [List.map_map]
      rfl
    obtain ⟨s', hloop, hrefines⟩ := Refines.insert_transactions (P := P) b.transactions
      hgob.transaction (h.insert_block hread hd.height (b.hash P hd))
    have hdisk : Storage.put P b s = (.ok (), s') := by
      change LevelDBStore.put P b s = _
      unfold LevelDBStore.put
      rw [hencode, hh]
      exact hloop
    rw [MemoryStore.put_apply hh, hdisk]
    exact ⟨rfl, hrefines⟩

/-! ### Questions to both stores -/

/-- One question, to the map and to the database that holds it. -/
theorem sameAnswer_of_holds {κ ν : Type} [DecidableEq κ] {code : κ → List UInt8}
    {codec : GobCodec ν} {exported : ν → ν} {index : Finmap fun _ : κ => ν}
    (h : Keyspace.Holds code (codec.Reads exported) s.db index) (key : κ) (missing : Err) :
    SameAnswer exported (MemoryStore.find index key missing)
      (s.read codec (code key) missing) := by
  have hkey := h key
  unfold MemoryStore.find LevelDBStore.read
  cases hm : index.lookup key with
  | none =>
    rw [hm] at hkey
    cases hs : s.db.lookup (code key) with
    | none => exact .failed _ _
    | some data =>
      rw [hs] at hkey
      exact nomatch hkey
  | some x =>
    rw [hm] at hkey
    cases hs : s.db.lookup (code key) with
    | none =>
      rw [hs] at hkey
      exact nomatch hkey
    | some data =>
      rw [hs] at hkey
      cases hkey with
      | some hread =>
        obtain ⟨y, hdecode, hsame⟩ := hread
        simp only [hdecode]
        exact .found hsame

theorem Refines.sameReads (h : Refines m s) : Storage.SameReads P m s where
  get height := sameAnswer_of_holds h.blocks height _
  getByHash hash := sameAnswer_of_holds h.blockByHash hash _
  getTxByHash hash := sameAnswer_of_holds h.txByHash hash _

theorem Refines.puts (h : Refines m s) {blocks : List Block} (hgob : ∀ b ∈ blocks, C.Carries b) :
    Refines (Storage.puts P blocks m) (Storage.puts P blocks s) := by
  induction blocks generalizing m s with
  | nil => exact h
  | cons b blocks ih =>
    have hfirst := (h.put (P := P) (hgob b List.mem_cons_self)).2
    exact ih hfirst fun b' hb' => hgob b' (List.mem_cons_of_mem _ hb')

/-- **The store on disk refines the one in memory.** After any sequence of `Put` calls every
question to the two stores fails on both or is answered by values with the same exported fields. -/
theorem levelDB_refines_memory (blocks : List Block) (hgob : ∀ b ∈ blocks, C.Carries b) :
    Storage.SameReads P (Storage.puts P blocks MemoryStore.new)
      (Storage.puts P blocks (new : LevelDBStore C)) :=
  (refines_new.puts hgob).sameReads

omit C in
/-- What is asked of gob can be had. -/
theorem exists_carrying : ∃ C : StoreCodecs, ∀ b, C.Carries b := by
  obtain ⟨block, hblock⟩ := GobCodec.exists_roundTrips Block.exported
  obtain ⟨transaction, htransaction⟩ := GobCodec.exists_roundTrips Transaction.exported
  exact ⟨⟨block, transaction⟩, fun b => ⟨hblock b, fun tx _ => htransaction tx⟩⟩

/-- Two blocks at one height, with the same transaction hash: the second one is found. -/
theorem levelDB_refines_memory_sameHeight :
    ∃ C : StoreCodecs, ∃ b, Storage.get .sample (Storage.puts .sample
        [sampleBlock sampleGenesis [sampleTransfer 1 0] (sampleAddress 1),
          sampleBlock sampleGenesis [sampleTransfer 2 0] (sampleAddress 1)]
        (new : LevelDBStore C)) 1 = .ok b ∧
      b.exported = sampleBlock sampleGenesis [sampleTransfer 2 0] (sampleAddress 1) := by
  obtain ⟨C, hgob⟩ := exists_carrying
  have hsame := (levelDB_refines_memory (P := .sample)
    [sampleBlock sampleGenesis [sampleTransfer 1 0] (sampleAddress 1),
      sampleBlock sampleGenesis [sampleTransfer 2 0] (sampleAddress 1)] fun b _ => hgob b).get 1
  refine ⟨C, ?_⟩
  exact hsame.of_ok (x := MemoryStore.cached .sample
    (sampleBlock sampleGenesis [sampleTransfer 2 0] (sampleAddress 1))
    (sampleHeader sampleGenesis [sampleTransfer 2 0] (sampleAddress 1))) (by decide +kernel)

/-! ### A lawful store -/

/-- Every height has the entry it had. -/
def SameHeights (s s' : LevelDBStore C) : Prop :=
  ∀ i, s'.db.lookup (heightKey i) = s.db.lookup (heightKey i)

instance : Std.Refl (SameHeights (C := C)) where
  refl _ _ := rfl

instance : IsTrans (LevelDBStore C) SameHeights where
  trans _ _ _ h₁ h₂ i := (h₂ i).trans (h₁ i)

theorem write_sameHeights {key : List UInt8} (hapart : ∀ i, heightKey i ≠ key)
    (data : List UInt8) : Act.Moves (SameHeights (C := C)) (write key data) :=
  fun _ i => Finmap.lookup_insert_of_ne _ (hapart i)

theorem putTransaction_sameHeights (tx : Transaction) :
    Act.Moves (SameHeights (C := C)) (putTransaction P tx) :=
  (Act.Moves.lift _).bind fun data =>
    write_sameHeights (fun i => heightKey_ne_txKey i (tx.hash P)) data

theorem putTransactions_ok {txx : List Transaction}
    (hgob : ∀ tx ∈ txx, C.transaction.RoundTrips Transaction.exported tx) (s : LevelDBStore C) :
    (Act.forEach (putTransaction P) txx s).1 = .ok () := by
  induction txx generalizing s with
  | nil => rfl
  | cons tx txx ih =>
    obtain ⟨data, hencode, -⟩ := hgob tx List.mem_cons_self
    rw [Act.forEach_cons, Act.bind_apply_ok (putTransaction_apply hencode s)]
    exact ih (fun tx' h' => hgob tx' (List.mem_cons_of_mem _ h')) _

/-- `Put` succeeds, and of the heights it changes the entry of one. -/
theorem put_of_carries (hgob : C.Carries b) {h : Header} (hh : b.header = some h)
    (s : LevelDBStore C) :
    ∃ data s', Storage.put P b s = (.ok (), s') ∧ C.block.decode data = .ok b.exported ∧
      ∀ i, s'.db.lookup (heightKey i) =
        if i = h.height then some data else s.db.lookup (heightKey i) := by
  obtain ⟨data, hencode, hdecode⟩ := hgob.block
  let written : LevelDBStore C := ⟨s.db.insert (heightKey h.height) data⟩
  let indexed : LevelDBStore C := ⟨written.db.insert (hashKey (b.hash P h)) data⟩
  have hput : Storage.put P b s = Act.forEach (putTransaction P) b.transactions indexed := by
    change LevelDBStore.put P b s = _
    unfold LevelDBStore.put
    rw [hencode, hh]
    rfl
  have hkept : SameHeights written (Storage.put P b s).2 := by
    rw [hput]
    refine IsTrans.trans written indexed _ ?_ ?_
    · exact write_sameHeights (fun i => heightKey_ne_hashKey i _) data written
    · exact Act.Moves.forEach (fun tx _ => putTransaction_sameHeights tx) indexed
  have hok : (Storage.put P b s).1 = .ok () := by
    rw [hput]
    exact putTransactions_ok hgob.transaction indexed
  refine ⟨data, _, Prod.ext hok rfl, hdecode, fun i => (hkept i).trans ?_⟩
  by_cases hi : i = h.height
  · rw [if_pos hi, hi]
    exact Finmap.lookup_insert _
  · rw [if_neg hi]
    exact Finmap.lookup_insert_of_ne _ (heightKey_injective.ne hi)

/-- Where gob carries every block, the chain may rely on this store as on the other one. -/
theorem lawfulStorage (hgob : ∀ b, C.Carries b) : LawfulStorage P (LevelDBStore C) where
  put_ok s b h hh := by
    obtain ⟨data, s', hput, -⟩ := put_of_carries (P := P) (hgob b) hh s
    rw [hput]
  get_put_self s b h hh := by
    obtain ⟨data, s', hput, hdecode, hlookup⟩ := put_of_carries (P := P) (hgob b) hh s
    refine ⟨b.exported, ?_, hh⟩
    rw [hput]
    show s'.read C.block (heightKey h.height) _ = _
    unfold LevelDBStore.read
    rw [hlookup, if_pos rfl]
    exact hdecode
  get_put_of_ne s b h i hh hi := by
    obtain ⟨data, s', hput, -, hlookup⟩ := put_of_carries (P := P) (hgob b) hh s
    rw [hput]
    show s'.read C.block (heightKey i) _ = s.read C.block (heightKey i) _
    unfold LevelDBStore.read
    rw [hlookup, if_neg hi]

theorem faithfulStorage (hgob : ∀ b, C.Carries b) : FaithfulStorage P (LevelDBStore C) where
  toLawfulStorage := lawfulStorage hgob
  exported_put_self s b b' h hh hget := by
    obtain ⟨data, s', hput, hdecode, hlookup⟩ := put_of_carries (P := P) (hgob b) hh s
    rw [hput] at hget
    change s'.read C.block (heightKey h.height) _ = _ at hget
    unfold LevelDBStore.read at hget
    rw [hlookup, if_pos rfl] at hget
    rw [← Outcome.ok.inj (hdecode.symm.trans hget), Block.exported_exported]

end LevelDBStore

end Blockz
