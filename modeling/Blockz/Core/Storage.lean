import Blockz.Core.Block
import Mathlib.Data.Finmap
import Mathlib.Data.List.Induction

/-!
# Block stores

`core/storage.go`. `Storage` is the interface through which the chain reaches its blocks, and
`MemoryStore` the implementation by three maps. `LawfulStorage` says what a caller relies on: `Put`
succeeds, a block is found again under its height with the header it was put with, and a `Put`
leaves the other heights alone. `FaithfulStorage` adds that the rest of the block comes back as
well.
-/

namespace Blockz

open Effect

/-- `core.Storage`. -/
class Storage (P : Primitives) (S : Type) where
  put : Block → Act S Err Unit
  get : S → UInt32 → Outcome Err Block
  getByHash : S → Hash → Outcome Err Block
  getTxByHash : S → Hash → Outcome Err Transaction

/-- A store that returns what was put into it. The block that comes back has the exported fields of
the one that went in; its header is one of them. -/
class LawfulStorage (P : Primitives) (S : Type) [Storage P S] : Prop where
  put_ok : ∀ (s : S) {b : Block} {h : Header}, b.header = some h →
    (Storage.put P b s).1 = .ok ()
  get_put_self : ∀ (s : S) {b : Block} {h : Header}, b.header = some h →
    ∃ b', Storage.get P (Storage.put P b s).2 h.height = .ok b' ∧ b'.header = some h
  get_put_of_ne : ∀ (s : S) {b : Block} {h : Header} {i : UInt32}, b.header = some h →
    i ≠ h.height → Storage.get P (Storage.put P b s).2 i = Storage.get P s i

/-- A store that returns the exported fields of a block as they were put into it, and not only its
header. -/
class FaithfulStorage (P : Primitives) (S : Type) [Storage P S] : Prop extends
    LawfulStorage P S where
  exported_put_self : ∀ (s : S) {b b' : Block} {h : Header}, b.header = some h →
    Storage.get P (Storage.put P b s).2 h.height = .ok b' → b'.exported = b.exported

/-- `core.MemoryStore`. -/
structure MemoryStore where
  blocks : Finmap fun _ : UInt32 => Block
  blockByHash : Finmap fun _ : Hash => Block
  txByHash : Finmap fun _ : Hash => Transaction

namespace MemoryStore

/-- `NewMemoryStorage`. -/
def new : MemoryStore where
  blocks := ∅
  blockByHash := ∅
  txByHash := ∅

variable (P : Primitives)

/-- The block as it stands in the store. The store keeps the pointer it was given, and `Put` calls
`Hash` on the block and on each of its transactions, so their caches are filled. -/
def cached (b : Block) (h : Header) : Block :=
  { b with
    cachedHash := b.hash P h
    transactions := b.transactions.map (Transaction.cacheHash P) }

/-- The three map updates of `Put`. -/
def insertBlock (s : MemoryStore) (b : Block) (h : Header) : MemoryStore where
  blocks := s.blocks.insert h.height (cached P b h)
  blockByHash := s.blockByHash.insert (b.hash P h) (cached P b h)
  txByHash := (cached P b h).transactions.foldl (fun m tx => m.insert tx.cachedHash tx) s.txByHash

/-- `MemoryStore.Put`. -/
def put (b : Block) : Act MemoryStore Err Unit := do
  let h ← Act.lift (Outcome.deref b.header)
  Act.modify fun s => s.insertBlock P b h

/-- A map lookup, with the error for a missing key. -/
def find {α β : Type} [DecidableEq α] (m : Finmap fun _ : α => β) (key : α) (missing : Err) :
    Outcome Err β :=
  match m.lookup key with
  | some b => .ok b
  | none => .err missing

/-- `MemoryStore.Get`. -/
def get (s : MemoryStore) (height : UInt32) : Outcome Err Block :=
  find s.blocks height (.blockNotFound height)

/-- `MemoryStore.GetByHash`. -/
def getByHash (s : MemoryStore) (hash : Hash) : Outcome Err Block :=
  find s.blockByHash hash (.blockHashNotFound hash)

/-- `MemoryStore.GetTxByHash`. -/
def getTxByHash (s : MemoryStore) (hash : Hash) : Outcome Err Transaction :=
  find s.txByHash hash (.transactionNotFound hash)

instance : Storage P MemoryStore where
  put := put P
  get := get
  getByHash := getByHash
  getTxByHash := getTxByHash

variable {P}

theorem find_eq_ok {α β : Type} [DecidableEq α] {m : Finmap fun _ : α => β} {key : α}
    {missing : Err} {b : β} : find m key missing = .ok b ↔ m.lookup key = some b := by
  unfold find
  cases m.lookup key <;> simp

theorem put_apply {b : Block} {h : Header} (hh : b.header = some h) (s : MemoryStore) :
    Storage.put P b s = (.ok (), s.insertBlock P b h) := by
  change put P b s = _
  unfold put
  rw [hh]
  rfl

/-! ### The index of transactions -/

/-- The last of the transactions that has the hash, as the store keeps it. -/
def lastWith (P : Primitives) (txx : List Transaction) (hash : Hash) : Option Transaction :=
  ((txx.map (Transaction.cacheHash P)).filter fun tx => tx.cachedHash = hash).getLast?

/-- What is indexed later covers what was indexed before. -/
theorem lastWith_append (txx txx' : List Transaction) (hash : Hash) :
    lastWith P (txx ++ txx') hash = (lastWith P txx' hash).or (lastWith P txx hash) := by
  unfold lastWith
  rw [List.map_append, List.filter_append, List.getLast?_append]

/-- It has the hash, and none behind it has. -/
theorem lastWith_eq_some {txx : List Transaction} {hash : Hash} {tx : Transaction} :
    lastWith P txx hash = some tx ↔
      ∃ pre tx' post, txx = pre ++ tx' :: post ∧ tx'.cacheHash P = tx ∧ tx'.hash P = hash ∧
        ∀ tx'' ∈ post, tx''.hash P ≠ hash := by
  have hfind : lastWith P txx hash =
      (txx.reverse.find? fun tx' => tx'.hash P = hash).map (Transaction.cacheHash P) := by
    unfold lastWith
    rw [List.getLast?_filter, ← List.map_reverse, List.find?_map]
    rfl
  rw [hfind, Option.map_eq_some_iff]
  constructor
  · rintro ⟨tx', hfound, heq⟩
    obtain ⟨hhash, post, pre, hsplit, hpost⟩ := List.find?_eq_some_iff_append.mp hfound
    refine ⟨pre.reverse, tx', post.reverse, ?_, heq, of_decide_eq_true hhash, ?_⟩
    · rw [← List.reverse_reverse txx, hsplit, List.reverse_append, List.reverse_cons,
        List.append_assoc, List.singleton_append]
    · intro tx'' hmem
      simpa using hpost tx'' (List.mem_reverse.mp hmem)
  · rintro ⟨pre, tx', post, rfl, heq, hhash, hpost⟩
    refine ⟨tx', List.find?_eq_some_iff_append.mpr ⟨decide_eq_true hhash, post.reverse,
      pre.reverse, ?_, ?_⟩, heq⟩
    · rw [List.reverse_append, List.reverse_cons, List.append_assoc, List.singleton_append]
    · intro tx'' hmem
      simpa using hpost tx'' (List.mem_reverse.mp hmem)

theorem exists_lastWith {txx : List Transaction} {tx : Transaction} (hmem : tx ∈ txx) :
    ∃ tx', lastWith P txx (tx.hash P) = some tx' := by
  have hfiltered : tx.cacheHash P ∈
      (txx.map (Transaction.cacheHash P)).filter fun tx' => tx'.cachedHash = tx.hash P :=
    List.mem_filter.mpr ⟨List.mem_map_of_mem hmem, decide_eq_true rfl⟩
  exact ⟨_, List.getLast?_eq_some_getLast (List.ne_nil_of_mem hfiltered)⟩

theorem lookup_txByHash_insertBlock (s : MemoryStore) (b : Block) (h : Header) (hash : Hash) :
    (s.insertBlock P b h).txByHash.lookup hash =
      (lastWith P b.transactions hash).or (s.txByHash.lookup hash) := by
  show ((b.transactions.map (Transaction.cacheHash P)).foldl
    (fun m tx => m.insert tx.cachedHash tx) s.txByHash).lookup hash = _
  unfold lastWith
  induction b.transactions.map (Transaction.cacheHash P) using List.reverseRecOn with
  | nil => rfl
  | append_singleton txx tx ih =>
    rw [List.foldl_append, List.foldl_cons, List.foldl_nil, List.filter_append,
      List.getLast?_append]
    by_cases hhash : tx.cachedHash = hash
    · rw [List.filter_cons_of_pos (by simpa using hhash), ← hhash, Finmap.lookup_insert]
      rfl
    · rw [List.filter_cons_of_neg (by simpa using hhash),
        Finmap.lookup_insert_of_ne _ (Ne.symm hhash), ih]
      rfl

instance : LawfulStorage P MemoryStore where
  put_ok s b h hh := by rw [put_apply hh]
  get_put_self s b h hh := by
    refine ⟨cached P b h, ?_, hh⟩
    rw [put_apply hh]
    exact find_eq_ok.mpr (Finmap.lookup_insert _)
  get_put_of_ne s b h i hh hi := by
    rw [put_apply hh]
    change find (s.blocks.insert h.height (cached P b h)) i _ = find s.blocks i _
    unfold find
    rw [Finmap.lookup_insert_of_ne _ hi]

instance : FaithfulStorage P MemoryStore where
  exported_put_self s b b' h hh hget := by
    rw [put_apply hh] at hget
    have hlookup := (Finmap.lookup_insert s.blocks).symm.trans (find_eq_ok.mp hget)
    rw [← Option.some.inj hlookup]
    unfold cached Block.exported
    rw [List.map_map]
    rfl

end MemoryStore

end Blockz
