import Blockz.Chain.Processes
import Blockz.Chain.Restart
import Blockz.Core.Journaled
import Blockz.Framework.Upholds

/-!
# Crashes

A node that keeps its blocks in LevelDB may die at any moment, and the last writes may be missing
from its directory. The next start reads the headers by height and asks for nothing else.

* `Consistent` — the blocks of a list of headers are in the database, and some of them in the
  indexes by hash as well.
* `Recoverable` — what a crash leaves: the blocks up to some height, all of them indexed but the
  last.
* `Intact.put` — `Put` keeps the store such that any crash leaves something recoverable. The block
  goes in by height first, and this is the one write that makes the chain longer.
* `Session` — one life of a node, from `NewBlockchain` to a crash. The sessions are processes of
  their own, which need not agree in the hash of a header.
* `crash_recovery` — after any number of sessions the directory opens, with a chain that has all
  that an earlier start has found and misses at most as many blocks as writes were lost.
* `torn_stays` — what a crash has kept from an index by hash is never put there again.
-/

namespace Blockz

open Effect

variable {P : Primitives} {Ps : Set Primitives} {C : StoreCodecs}

/-- The hashes that the block and its transactions have cached are unset or right. -/
structure Block.HashesRight (P : Primitives) (b : Block) : Prop where
  block : b.CacheCorrect P
  transaction : ∀ tx ∈ b.transactions, tx.hash P = TxHasher.hash P tx

namespace LevelDBStore

variable {s s' : LevelDBStore C} {w : List UInt8 × List UInt8}

/-! ### The heights and the indexes by hash -/

/-- The blocks of the headers are there, at their heights. This can be said without a process: a
height is its own key. -/
def Stores (s : LevelDBStore C) (hs : List Header) : Prop := ∀ P : Primitives, Holds P s hs

theorem stores_of_holds {hs : List Header} (hold : Holds P s hs) : s.Stores hs :=
  fun _ => ⟨hold.get, hold.missing⟩

/-- What is found under a hash has this hash in one of the processes. -/
structure Sound (Ps : Set Primitives) (s : LevelDBStore C) : Prop where
  block : ∀ hash b, s.getByHash hash = .ok b →
    ∃ h, b.header = some h ∧ ∃ P ∈ Ps, BlockHasher.hash P h = hash
  transaction : ∀ hash tx, s.getTxByHash hash = .ok tx → ∃ P ∈ Ps, TxHasher.hash P tx = hash

/-- The block of the header is found at its height. Under the hash that one of the processes gives
it there is a block, and under the hash of each of its transactions a transaction. -/
def Indexed (Ps : Set Primitives) (s : LevelDBStore C) (h : Header) : Prop :=
  ∃ b, s.get h.height = .ok b ∧ b.header = some h ∧ ∃ P ∈ Ps,
    (∃ b', s.getByHash (BlockHasher.hash P h) = .ok b') ∧
    ∀ tx ∈ b.transactions, ∃ tx', s.getTxByHash (TxHasher.hash P tx) = .ok tx'

/-! ### One write -/

theorem read_applyWrite_self {ν : Type} (codec : GobCodec ν) (key data : List UInt8)
    (missing : Err) : (s.applyWrite (key, data)).read codec key missing = codec.decode data := by
  unfold read applyWrite
  rw [Finmap.lookup_insert]

theorem read_applyWrite_of_ne {ν : Type} {codec : GobCodec ν} {key : List UInt8} {missing : Err}
    (hne : key ≠ w.1) : (s.applyWrite w).read codec key missing = s.read codec key missing := by
  unfold read applyWrite
  rw [Finmap.lookup_insert_of_ne _ hne]

variable (P C) in
/-- A write to an index by hash, of something that has the hash. -/
inductive Entry : List UInt8 × List UInt8 → Prop
  | block {data : List UInt8} {b : Block} {h : Header} (decode : C.block.decode data = .ok b)
      (header : b.header = some h) : Entry (hashKey (BlockHasher.hash P h), data)
  | transaction {data : List UInt8} {tx : Transaction}
      (decode : C.transaction.decode data = .ok tx) : Entry (txKey (TxHasher.hash P tx), data)

/-- The heights are as they were, and what was found by hash is still found. -/
structure Grows (s s' : LevelDBStore C) : Prop where
  heights : SameHeights s s'
  blocks : ∀ hash b, s.getByHash hash = .ok b → ∃ b', s'.getByHash hash = .ok b'
  transactions : ∀ hash tx, s.getTxByHash hash = .ok tx → ∃ tx', s'.getTxByHash hash = .ok tx'

theorem Grows.refl (s : LevelDBStore C) : Grows s s :=
  ⟨fun _ => rfl, fun _ b hb => ⟨b, hb⟩, fun _ tx htx => ⟨tx, htx⟩⟩

theorem Grows.trans {s'' : LevelDBStore C} (h : Grows s s') (h' : Grows s' s'') : Grows s s'' := by
  refine ⟨fun i => (h'.heights i).trans (h.heights i), fun hash b hb => ?_, fun hash tx htx => ?_⟩
  · obtain ⟨b', hb'⟩ := h.blocks hash b hb
    exact h'.blocks hash b' hb'
  · obtain ⟨tx', htx'⟩ := h.transactions hash tx htx
    exact h'.transactions hash tx' htx'

theorem Entry.grows (hw : Entry P C w) (s : LevelDBStore C) : Grows s (s.applyWrite w) := by
  cases hw with
  | @block data b h decode header =>
    refine ⟨fun i => Finmap.lookup_insert_of_ne _ (heightKey_ne_hashKey i _), ?_, ?_⟩
    · intro hash b' hb'
      by_cases heq : hash = BlockHasher.hash P h
      · subst heq
        exact ⟨b, (read_applyWrite_self C.block _ data _).trans decode⟩
      · exact ⟨b', (read_applyWrite_of_ne (hashKey_injective.ne heq)).trans hb'⟩
    · intro hash tx htx
      exact ⟨tx, (read_applyWrite_of_ne (hashKey_ne_txKey _ hash).symm).trans htx⟩
  | @transaction data tx decode =>
    refine ⟨fun i => Finmap.lookup_insert_of_ne _ (heightKey_ne_txKey i _), ?_, ?_⟩
    · intro hash b hb
      exact ⟨b, (read_applyWrite_of_ne (hashKey_ne_txKey hash _)).trans hb⟩
    · intro hash tx' htx'
      by_cases heq : hash = TxHasher.hash P tx
      · subst heq
        exact ⟨tx, (read_applyWrite_self C.transaction _ data _).trans decode⟩
      · exact ⟨tx', (read_applyWrite_of_ne (txKey_injective.ne heq)).trans htx'⟩

theorem Entry.sound (hP : P ∈ Ps) (hw : Entry P C w) (hs : Sound Ps s) :
    Sound Ps (s.applyWrite w) := by
  cases hw with
  | @block data b h decode header =>
    refine ⟨fun hash b' hb' => ?_, fun hash tx htx => ?_⟩
    · by_cases heq : hash = BlockHasher.hash P h
      · subst heq
        have hread := (read_applyWrite_self C.block _ data _).symm.trans hb'
        obtain rfl := Outcome.ok.inj (decode.symm.trans hread)
        exact ⟨h, header, P, hP, rfl⟩
      · exact hs.block hash b' ((read_applyWrite_of_ne (hashKey_injective.ne heq)).symm.trans hb')
    · exact hs.transaction hash tx
        ((read_applyWrite_of_ne (hashKey_ne_txKey _ hash).symm).symm.trans htx)
  | @transaction data tx decode =>
    refine ⟨fun hash b hb => ?_, fun hash tx' htx' => ?_⟩
    · exact hs.block hash b ((read_applyWrite_of_ne (hashKey_ne_txKey hash _)).symm.trans hb)
    · by_cases heq : hash = TxHasher.hash P tx
      · subst heq
        have hread := (read_applyWrite_self C.transaction _ data _).symm.trans htx'
        obtain rfl := Outcome.ok.inj (decode.symm.trans hread)
        exact ⟨P, hP, rfl⟩
      · exact hs.transaction hash tx'
          ((read_applyWrite_of_ne (txKey_injective.ne heq)).symm.trans htx')

theorem get_of_sameHeights (h : SameHeights s s') (i : UInt32) : s'.get i = s.get i := by
  unfold get read
  rw [h i]

theorem Grows.indexed (h : Grows s s') {x : Header} (hx : Indexed Ps s x) : Indexed Ps s' x := by
  obtain ⟨b, hget, hheader, P, hP, ⟨b', hb'⟩, htx⟩ := hx
  refine ⟨b, (get_of_sameHeights h.heights _).trans hget, hheader, P, hP, h.blocks _ b' hb', ?_⟩
  intro tx hmem
  obtain ⟨tx', htx'⟩ := htx tx hmem
  exact h.transactions _ tx' htx'

theorem Stores.of_sameHeights {hs : List Header} (hold : s.Stores hs) (h : SameHeights s s') :
    s'.Stores hs := by
  refine fun P => ⟨fun i x hx => ?_, fun j hj => ?_⟩
  · obtain ⟨b, hget, hheader⟩ := (hold P).get i x hx
    exact ⟨b, (get_of_sameHeights h _).trans hget, hheader⟩
  · obtain ⟨e, hget⟩ := (hold P).missing j hj
    exact ⟨e, (get_of_sameHeights h _).trans hget⟩

/-! ### What the database has -/

/-- The database has the blocks of `hs`. Those of `done` are in the indexes, apart from the ones in
`torn`. -/
structure Consistent (Ps : Set Primitives) (torn : Set Header) (hs done : List Header)
    (s : LevelDBStore C) : Prop where
  stores : s.Stores hs
  sound : Sound Ps s
  indexed : ∀ h ∈ done, h ∈ torn ∨ Indexed Ps s h

variable {torn : Set Header} {opened hs done : List Header} {h : Header} {k : ℕ}

/-- A write to an index. -/
theorem Consistent.entry (hs' : Consistent Ps torn hs done s) (hP : P ∈ Ps) (hw : Entry P C w) :
    Consistent Ps torn hs done (s.applyWrite w) where
  stores := hs'.stores.of_sameHeights (hw.grows s).heights
  sound := hw.sound hP hs'.sound
  indexed x hx := (hs'.indexed x hx).imp id (hw.grows s).indexed

/-- Of the writes of `Put` only the first one is to a height. -/
theorem sameHeights_put {b : Block} {data : List UInt8} (hencode : C.block.encode b = .ok data)
    (hheader : b.header = some h) (s : LevelDBStore C) :
    SameHeights (s.applyWrite (heightKey h.height, data)) (Storage.put P b s).2 := by
  have hput : Storage.put P b s = (write (hashKey (b.hash P h)) data >>= fun _ =>
      Act.forEach (putTransaction P) b.transactions) (s.applyWrite (heightKey h.height, data)) := by
    change LevelDBStore.put P b s = _
    unfold LevelDBStore.put
    rw [hencode, hheader]
    rfl
  have hindex := write_sameHeights (C := C) (fun i => heightKey_ne_hashKey i (b.hash P h)) data
  rw [hput]
  exact (hindex.bind fun _ => Act.Moves.forEach fun tx _ => putTransaction_sameHeights tx) _

/-- The write that makes the chain longer. The new block is in no index yet. -/
theorem Consistent.height (P : Primitives) (hgob : ∀ b, C.Carries b) {b : Block} {data : List UInt8}
    (hcons : Consistent Ps torn hs hs s) (hheader : b.header = some h)
    (hheight : h.height.toNat = hs.length) (hplaced : ∀ x ∈ hs, x.height ≠ h.height)
    (hencode : C.block.encode b = .ok data) :
    Consistent Ps torn (hs ++ [h]) hs (s.applyWrite (heightKey h.height, data)) := by
  have := lawfulStorage (P := P) hgob
  have hhash : ∀ x, hashKey x ≠ heightKey h.height := fun x => (heightKey_ne_hashKey _ x).symm
  have htx : ∀ x, txKey x ≠ heightKey h.height := fun x => (heightKey_ne_txKey _ x).symm
  refine ⟨?_, ⟨fun hash b' hb' => ?_, fun hash tx htx' => ?_⟩, fun x hx => ?_⟩
  · -- the later writes of `Put` are not seen at the heights
    have hlater := sameHeights_put (P := P) hencode hheader s
    have hold := stores_of_holds ((hcons.stores P).put hheader hheight)
    exact hold.of_sameHeights fun i => (hlater i).symm
  · exact hcons.sound.block hash b' ((read_applyWrite_of_ne (hhash hash)).symm.trans hb')
  · exact hcons.sound.transaction hash tx ((read_applyWrite_of_ne (htx hash)).symm.trans htx')
  · refine (hcons.indexed x hx).imp id ?_
    rintro ⟨b', hget, hheader', Q, hQ, ⟨b'', hb''⟩, hall⟩
    refine ⟨b', ?_, hheader', Q, hQ, ⟨b'', (read_applyWrite_of_ne (hhash _)).trans hb''⟩, ?_⟩
    · exact (read_applyWrite_of_ne (heightKey_injective.ne (hplaced x hx))).trans hget
    · intro tx hmem
      obtain ⟨tx', htx'⟩ := hall tx hmem
      exact ⟨tx', (read_applyWrite_of_ne (htx _)).trans htx'⟩

/-! ### What a crash leaves -/

/-- Of a chain with the headers `hs` the database has the first ones, `opened` among them. At most
`k` are missing, and the last one that is there need not be in the indexes. -/
def Recoverable (Ps : Set Primitives) (opened : List Header) (torn : Set Header)
    (hs : List Header) (k : ℕ) (s : LevelDBStore C) : Prop :=
  ∃ kept, opened <+: kept ∧ kept <+: hs ∧ hs.length ≤ kept.length + k ∧
    Consistent Ps torn kept kept.dropLast s

/-- One more write was lost. -/
theorem Recoverable.later (hrec : Recoverable Ps opened torn hs k s) :
    Recoverable Ps opened torn hs (k + 1) s := by
  obtain ⟨kept, hopened, hkept, hlength, hcons⟩ := hrec
  exact ⟨kept, hopened, hkept, by omega, hcons⟩

/-- One more write was lost, and it was that of a new block. -/
theorem Recoverable.lost (hrec : Recoverable Ps opened torn hs k s) (h : Header) :
    Recoverable Ps opened torn (hs ++ [h]) (k + 1) s := by
  obtain ⟨kept, hopened, hkept, hlength, hcons⟩ := hrec
  refine ⟨kept, hopened, hkept.trans (List.prefix_append hs [h]), ?_, hcons⟩
  rw [List.length_append, List.length_singleton]
  omega

/-- No write was lost. -/
theorem Consistent.recoverable (hcons : Consistent Ps torn (hs ++ [h]) hs s)
    (hopened : opened <+: hs) : Recoverable Ps opened torn (hs ++ [h]) k s := by
  refine ⟨hs ++ [h], hopened.trans (List.prefix_append hs [h]), List.prefix_rfl, by omega, ?_⟩
  rwa [List.dropLast_concat]

end LevelDBStore

/-- A store that is opened has what is in its directory. -/
theorem LevelDBStore.Stores.reopened {s : LevelDBStore C} {hs : List Header}
    (hold : s.Stores hs) : Holds P (JournaledStore.newLevelDBStore s) hs :=
  ⟨(hold P).get, (hold P).missing⟩

/-! ### `Put` -/

namespace JournaledStore

open LevelDBStore

variable {torn : Set Header} {opened hs : List Header} {h : Header} {j : JournaledStore C}

/-- `Put` is at work on the block of `h`. -/
structure Putting (Ps : Set Primitives) (opened : List Header) (torn : Set Header)
    (hs : List Header) (h : Header) (j : JournaledStore C) : Prop where
  always : j.journal.Always applyWrite (Recoverable Ps opened torn (hs ++ [h]))
  current : Consistent Ps torn (hs ++ [h]) hs j.current
  opened : opened <+: hs

theorem Putting.entry {w : List UInt8 × List UInt8} (hj : Putting Ps opened torn hs h j)
    (hP : P ∈ Ps) (hw : Entry P C w) : Putting Ps opened torn hs h ⟨j.journal.record w⟩ := by
  have hcurrent : Consistent Ps torn (hs ++ [h]) hs (j.current.applyWrite w) :=
    hj.current.entry hP hw
  refine ⟨?_, ?_, hj.opened⟩
  · exact hj.always.record (fun _ _ => Recoverable.later) (hcurrent.recoverable hj.opened)
  · rwa [current_record]

/-- The loop over the transactions. -/
theorem Putting.transactions (hP : P ∈ Ps) (txx : List Transaction)
    (hgob : ∀ tx ∈ txx, C.transaction.RoundTrips Transaction.exported tx)
    (hhash : ∀ tx ∈ txx, tx.hash P = TxHasher.hash P tx) :
    ∀ {j : JournaledStore C}, Putting Ps opened torn hs h j →
      Putting Ps opened torn hs h (Act.forEach (putTransaction P) txx j).2 ∧
        Grows j.current (Act.forEach (putTransaction P) txx j).2.current ∧
        ∀ tx ∈ txx, ∃ tx', (Act.forEach (putTransaction P) txx j).2.current.getTxByHash
          (TxHasher.hash P tx) = .ok tx' := by
  induction txx with
  | nil => exact fun hj => ⟨hj, .refl _, by simp⟩
  | cons tx txx ih =>
    intro j hj
    obtain ⟨data, hencode, hdecode⟩ := hgob tx List.mem_cons_self
    have hcall : putTransaction P tx j =
        (.ok (), ⟨j.journal.record (txKey (TxHasher.hash P tx), data)⟩) := by
      unfold putTransaction
      rw [hencode, hhash tx List.mem_cons_self]
      rfl
    -- the transaction comes back without its unexported fields, which are not hashed
    have hw : Entry P C (txKey (TxHasher.hash P tx.exported), data) := .transaction hdecode
    have hread : (j.current.applyWrite (txKey (TxHasher.hash P tx), data)).getTxByHash
        (TxHasher.hash P tx) = .ok tx.exported :=
      (read_applyWrite_self C.transaction _ data _).trans hdecode
    obtain ⟨hput, hgrows, hfound⟩ := ih (fun tx' h' => hgob tx' (List.mem_cons_of_mem _ h'))
      (fun tx' h' => hhash tx' (List.mem_cons_of_mem _ h')) (hj.entry hP hw)
    rw [current_record] at hgrows
    rw [Act.forEach_cons, Act.bind_apply_ok hcall]
    refine ⟨hput, (hw.grows _).trans hgrows, fun tx' hmem => ?_⟩
    rcases List.mem_cons.mp hmem with rfl | hmem
    · exact hgrows.transactions _ _ hread
    · exact hfound tx' hmem

/-- A store between two calls of `Put`, on which there are the blocks of `hs`. -/
structure Intact (Ps : Set Primitives) (opened : List Header) (torn : Set Header)
    (hs : List Header) (j : JournaledStore C) : Prop where
  always : j.journal.Always applyWrite (Recoverable Ps opened torn hs)
  current : Consistent Ps torn hs hs j.current
  opened : opened <+: hs

/-- **`Put` on the next block.** It can die after any of its writes. -/
theorem Intact.put (hgob : ∀ b, C.Carries b) (hP : P ∈ Ps) {b : Block}
    (hj : Intact Ps opened torn hs j)
    (hheader : b.header = some h) (hheight : h.height.toNat = hs.length)
    (hplaced : ∀ x ∈ hs, x.height ≠ h.height) (hright : b.HashesRight P) :
    Intact Ps opened torn (hs ++ [h]) (Storage.put P b j).2 := by
  obtain ⟨data, hencode, hdecode⟩ := (hgob b).block
  let j₁ : JournaledStore C := ⟨j.journal.record (heightKey h.height, data)⟩
  let j₂ : JournaledStore C := ⟨j₁.journal.record (hashKey (BlockHasher.hash P h), data)⟩
  have hcall : Storage.put P b j = Act.forEach (putTransaction P) b.transactions j₂ := by
    change JournaledStore.put P b j = _
    unfold JournaledStore.put
    rw [hencode, hheader]
    show Act.forEach _ _ (⟨j₁.journal.record (hashKey (b.hash P h), data)⟩ : JournaledStore C) = _
    rw [hright.block.hash_eq hheader]
  -- the block under its height
  have hfirst : j₁.current = j.current.applyWrite (heightKey h.height, data) := current_record _ j
  have hplace : Putting Ps opened torn hs h j₁ := by
    have hcurrent := hj.current.height P hgob hheader hheight hplaced hencode
    refine ⟨?_, hfirst ▸ hcurrent, hj.opened⟩
    exact hj.always.record (fun _ _ hrec => hrec.lost h) (hcurrent.recoverable hj.opened)
  have hget : j₁.current.get h.height = .ok b.exported := by
    rw [hfirst]
    exact (read_applyWrite_self C.block _ data _).trans hdecode
  -- the block under its hash
  have hw : Entry P C (hashKey (BlockHasher.hash P h), data) :=
    .block (b := b.exported) hdecode hheader
  have hsecond : j₂.current = j₁.current.applyWrite (hashKey (BlockHasher.hash P h), data) :=
    current_record _ j₁
  have hblock : j₂.current.getByHash (BlockHasher.hash P h) = .ok b.exported := by
    rw [hsecond]
    exact (read_applyWrite_self C.block _ data _).trans hdecode
  have hgrows : Grows j₁.current j₂.current := hsecond ▸ hw.grows j₁.current
  -- the transactions under theirs
  obtain ⟨hput, hgrows', hfound⟩ :=
    Putting.transactions hP b.transactions (hgob b).transaction hright.transaction
      (hplace.entry hP hw)
  rw [hcall]
  refine ⟨hput.always, ⟨hput.current.stores, hput.current.sound, fun x hx => ?_⟩,
    hj.opened.trans (List.prefix_append hs [h])⟩
  rcases List.mem_append.mp hx with hold | hnew
  · exact hput.current.indexed x hold
  · obtain rfl := List.mem_singleton.mp hnew
    refine Or.inr ⟨b.exported, ?_, hheader, P, hP, hgrows'.blocks _ _ hblock, fun tx hmem => ?_⟩
    · exact (get_of_sameHeights (hgrows.trans hgrows').heights _).trans hget
    · obtain ⟨tx', hmem', rfl⟩ := List.mem_map.mp hmem
      exact hfound tx' hmem'

end JournaledStore

/-! ### A session -/

/-- Every header has its position for its height, and points to the one before by the hash that one
of the processes gives it. -/
structure Linked (Ps : Set Primitives) (hs : List Header) : Prop where
  height : ∀ (i : ℕ) (h : Header), hs[i]? = some h → h.height.toNat = i
  link : hs.IsChain fun g h => ∃ P ∈ Ps, h.prevBlockHash = BlockHasher.hash P g

namespace Linked

variable {hs kept : List Header} {h : Header}

theorem mono (hl : Linked Ps hs) (hkept : kept <+: hs) : Linked Ps kept := by
  obtain ⟨rest, rfl⟩ := hkept
  refine ⟨fun i x hx => ?_, (List.isChain_append.mp hl.link).1⟩
  have hlt : i < kept.length := (List.getElem?_eq_some_iff.mp hx).1
  exact hl.height i x ((List.getElem?_append_left hlt).trans hx)

theorem concat (hl : Linked Ps hs) (hheight : h.height.toNat = hs.length)
    (hlink : ∀ prev ∈ hs.getLast?, ∃ P ∈ Ps, h.prevBlockHash = BlockHasher.hash P prev) :
    Linked Ps (hs ++ [h]) := by
  refine ⟨fun i x hx => ?_, List.isChain_append.mpr ⟨hl.link, .singleton h, ?_⟩⟩
  · rcases Blockchain.getElem?_concat_cases hx with hold | ⟨rfl, rfl⟩
    · exact hl.height i x hold
    · exact hheight
  · intro prev hprev y hy
    obtain rfl := Option.some.inj hy
    exact hlink prev hprev

/-- No header has the height of the next one. -/
theorem height_ne (hl : Linked Ps hs) (hheight : h.height.toNat = hs.length) :
    ∀ x ∈ hs, x.height ≠ h.height := by
  intro x hx heq
  obtain ⟨i, hlt, hi⟩ := List.mem_iff_getElem.mp hx
  have hpos := hl.height i x (List.getElem?_eq_some_iff.mpr ⟨hlt, hi⟩)
  rw [heq, hheight] at hpos
  omega

end Linked

namespace Blockchain

open JournaledStore LevelDBStore

variable {E : Type} [ConsensusEngine P E] {genesis : Block} {g : Header}

/-- `NewBlockchain` on a store without blocks puts the genesis block there. -/
theorem newBlockchain_of_holds_nil {S : Type} [Storage P S] [LawfulStorage P S] {s : S}
    (hold : Holds P s []) (hg : genesis.header = some g) (fuel : ℕ) :
    (newBlockchain P fuel genesis s : Outcome Err (Blockchain E S)) =
      .ok { empty s WorldState.new (some 0) with
        headers := [g], store := (Storage.put P genesis s).2 } := by
  obtain ⟨e, hget⟩ := hold.missing 0 (Nat.zero_le _)
  have hadd : addBlockWithoutValidationLocked P genesis
      (empty s WorldState.new (some 0) : Blockchain E S) =
        (.ok (), { empty s WorldState.new (some 0) with
          headers := [g], store := (Storage.put P genesis s).2 }) := by
    unfold addBlockWithoutValidationLocked
    rw [hg, Outcome.deref_some, Act.bind_apply_ok (Act.lift_apply _ _), Act.modify_bind_apply,
      Act.bind_apply_ok (show addWeight P g _ = (.ok (), _) from rfl), Act.on_apply]
    exact Prod.ext (LawfulStorage.put_ok s hg) rfl
  unfold newBlockchain
  simp only [hget, hadd, Outcome.bind_ok]
  rfl

/-- `NewBlockchain` on a store with blocks, however many rounds the loop is given. -/
theorem eq_of_newBlockchain {S : Type} [Storage P S] {s : S} {hs : List Header} {fuel : ℕ}
    {bc : Blockchain E S} (hold : Holds P s hs) (hpos : 0 < hs.length) (hroom : hs.length < 2 ^ 32)
    (hnew : newBlockchain P fuel genesis s = .ok bc) :
    bc = { empty s WorldState.new (some 0) with headers := hs } := by
  obtain ⟨b, hget, -⟩ := hold.get 0 _ (List.getElem?_eq_getElem hpos)
  have hzeroth : Storage.get P s 0 = .ok b := hget
  unfold newBlockchain at hnew
  simp only [hzeroth] at hnew
  obtain ⟨hs', hload, hbc⟩ := Outcome.bind_eq_ok.mp hnew
  obtain rfl : hs = hs' :=
    loadHeaders_unique (loadHeaders_of_holds hold hroom _ 0 (Nat.zero_add _)) hload
  exact (Outcome.ok.inj hbc).symm

variable {torn : Set Header} {opened hs : List Header} {d : LevelDBStore C}
  {bc bc' : Blockchain E (JournaledStore C)}

/-- A chain whose store is intact. -/
structure Running (Ps : Set Primitives) (opened : List Header) (torn : Set Header)
    (bc : Blockchain E (JournaledStore C)) : Prop where
  intact : Intact Ps opened torn bc.headers bc.store
  linked : Linked Ps bc.headers
  nonempty : 0 < bc.headers.length
  fits : bc.headers.length ≤ 2 ^ 32

/-- The chain with which a session begins. -/
theorem Running.start (hgob : ∀ b, C.Carries b) (hP : P ∈ Ps) (hg : genesis.header = some g)
    (hzero : g.height = 0) (hright : genesis.HashesRight P) {fuel : ℕ} {c : Option E}
    (hd : Consistent Ps torn hs hs d) (hlinked : Linked Ps hs) (hroom : hs.length < 2 ^ 32)
    (hnew : newBlockchain P fuel genesis (newLevelDBStore d) = .ok bc) :
    Running Ps hs torn { bc with consensus := c } := by
  have := JournaledStore.lawfulStorage (P := P) hgob
  have hold : Holds P (newLevelDBStore d) hs := hd.stores.reopened
  have hstart : Intact Ps hs torn hs (newLevelDBStore d) := by
    refine ⟨.reopen fun k => ?_, hd, List.prefix_rfl⟩
    refine ⟨hs, List.prefix_rfl, List.prefix_rfl, by omega, hd.stores, hd.sound, fun h hmem => ?_⟩
    exact hd.indexed h (List.mem_of_mem_dropLast hmem)
  rcases Nat.eq_zero_or_pos hs.length with hempty | hpos
  · -- the genesis block is the first one
    obtain rfl := List.eq_nil_of_length_eq_zero hempty
    have hfirst : g.height.toNat = ([] : List Header).length := by
      rw [hzero]
      rfl
    rw [newBlockchain_of_holds_nil hold hg] at hnew
    obtain rfl := Outcome.ok.inj hnew
    refine ⟨hstart.put hgob hP hg hfirst (by simp) hright, ?_, Nat.one_pos, ?_⟩
    · exact hlinked.concat hfirst (by simp)
    · show 1 ≤ 2 ^ 32
      norm_num
  · -- the headers are read from the store, which stays as it is
    obtain rfl := eq_of_newBlockchain hold hpos hroom hnew
    exact ⟨hstart, hlinked, hpos, hroom.le⟩

variable (P) in
/-- A call of `AddBlock` that came back, on a block whose cached hashes are unset or right. -/
def Returned (bc : Blockchain E (JournaledStore C)) (b : Block) (o : Outcome Err Unit)
    (bc' : Blockchain E (JournaledStore C)) : Prop :=
  b.HashesRight P ∧ o.Returns ∧ ∃ fuel, addBlock P fuel b bc = (o, bc')

/-- What such a call does to headers and store. -/
theorem Returned.cases {b : Block} {o : Outcome Err Unit} (hcall : Returned P bc b o bc') :
    (bc'.headers = bc.headers ∧ bc'.store = bc.store) ∨
      ∃ h c', Valid P bc b h c' ∧ bc'.headers = bc.headers ++ [h] ∧
        bc'.store = (Storage.put P b bc.store).2 := by
  obtain ⟨-, hreturns, fuel, hcall⟩ := hcall
  cases AddStep.of_call hcall with
  | invalid _ _ => exact Or.inl ⟨rfl, rfl⟩
  | aborted _ _ _ => exact Or.inl ⟨rfl, rfl⟩
  | crashed _ _ _ => exact absurd hreturns (Outcome.not_returns_panic _)
  | @appended c' h ws total _ s valid _ _ put =>
    refine Or.inr ⟨h, c', valid, rfl, ?_⟩
    show s = _
    rw [put]

theorem Running.returned (hgob : ∀ b, C.Carries b) (hP : P ∈ Ps) {b : Block} {o : Outcome Err Unit}
    (hbc : Running Ps opened torn bc) (hcall : Returned P bc b o bc') :
    Running Ps opened torn bc' := by
  rcases hcall.cases with ⟨hheaders, hstore⟩ | ⟨h, c', valid, hheaders, hstore⟩
  · refine ⟨?_, ?_, ?_, ?_⟩ <;> rw [hheaders]
    · rw [hstore]
      exact hbc.intact
    · exact hbc.linked
    · exact hbc.nonempty
    · exact hbc.fits
  · obtain ⟨hroom, hheight, prev, hprev, hlink⟩ := valid.extends hbc.nonempty hbc.fits
    have hlast : bc.headers.getLast? = some prev := by
      rw [List.getLast?_eq_getElem?]
      exact hprev
    refine ⟨?_, ?_, ?_, ?_⟩ <;> rw [hheaders]
    · rw [hstore]
      exact hbc.intact.put hgob hP valid.header hheight (hbc.linked.height_ne hheight) hcall.1
    · refine hbc.linked.concat hheight fun prev' hprev' => ?_
      rw [hlast] at hprev'
      rw [← Option.some.inj hprev']
      exact ⟨P, hP, hlink⟩
    · simp
    · rw [List.length_append, List.length_singleton]
      omega

/-- How a session has ended. -/
structure Ended (C : StoreCodecs) where
  -- of the chain when the program died
  headers : List Header
  -- what the program has left in its directory
  directory : LevelDBStore C

/-! ### Sessions -/

section Sessions

variable {E : Type} [∀ P, ConsensusEngine P E]

variable (E) in
/-- One life of a node, with the number of writes that are lost at its end. A program that dies in
the middle of a `Put` loses those writes which it has not made. Each session is a process of its
own, one of `Ps`: gob may number its types in another way there, and then the same header has
another hash. -/
def Session (Ps : Set Primitives) (genesis : Block) (d : LevelDBStore C) (lost : ℕ) (r : Ended C)
    (d' : LevelDBStore C) : Prop :=
  ∃ P ∈ Ps, ∃ (fuel : ℕ) (c : Option E) (es : List (Block × Outcome Err Unit))
    (bc₀ bc : Blockchain E (JournaledStore C)),
    newBlockchain P fuel genesis (newLevelDBStore d) = .ok bc₀ ∧
      History (Returned P) { bc₀ with consensus := c } es bc ∧
      r = ⟨bc.headers, bc.store.crash lost⟩ ∧ d' = r.directory

variable {es : List (ℕ × Ended C)} {kept : List Header} {lost : ℕ} {r : Ended C}
  {d' : LevelDBStore C}

/-- The headers that were the last ones in what a session left. -/
def tornIn (es : List (ℕ × Ended C)) : Set Header :=
  {h | ∃ e ∈ es, ∃ below, e.2.directory.Stores (below ++ [h])}

/-- What the sessions have left: the blocks of `kept`. -/
structure Recovered (Ps : Set Primitives) (es : List (ℕ × Ended C)) (d : LevelDBStore C)
    (kept : List Header) : Prop where
  consistent : Consistent Ps (tornIn es) kept kept d
  linked : Linked Ps kept
  -- what a session has left is there after all the later ones
  earlier : ∀ e ∈ es, ∃ before, e.2.directory.Stores before ∧ before <+: kept
  -- the last session has lost a block for each lost write at the most
  last : ∀ past e, es = past ++ [e] →
    kept <+: e.2.headers ∧ e.2.headers.length ≤ kept.length + e.1

theorem Recovered.new : Recovered Ps [] (LevelDBStore.new : LevelDBStore C) [] := by
  refine ⟨⟨fun P => ⟨by simp, ?_⟩, ⟨?_, ?_⟩, by simp⟩, ⟨by simp, .nil⟩, by simp, by simp⟩
  · exact fun j _ => ⟨.missingInDatabase (.blockNotFound j), rfl⟩
  · exact fun hash b hb => nomatch (show Outcome.err _ = Outcome.ok b from hb)
  · exact fun hash tx htx => nomatch (show Outcome.err _ = Outcome.ok tx from htx)

/-- **One session.** -/
theorem Recovered.session (hgob : ∀ b, C.Carries b) (hg : genesis.header = some g)
    (hzero : g.height = 0) (hright : ∀ P ∈ Ps, genesis.HashesRight P)
    (hd : Recovered Ps es d kept)
    (hroom : kept.length < 2 ^ 32) (hsession : Session E Ps genesis d lost r d') :
    ∃ kept', Recovered Ps (es ++ [(lost, r)]) d' kept' ∧ kept <+: kept' := by
  obtain ⟨Q, hQ, fuel, c, calls, bc₀, bc, hnew, hrun, rfl, rfl⟩ := hsession
  have hstart :=
    Running.start (c := c) hgob hQ hg hzero (hright Q hQ) hd.consistent hd.linked hroom hnew
  have hbc := hrun.invariant _ hstart fun _ _ _ _ hbc hcall => hbc.returned hgob hQ hcall
  obtain ⟨kept', hopened, hkept, hlength, hcons⟩ := hbc.intact.always lost
  refine ⟨kept', ⟨⟨hcons.stores, hcons.sound, fun h hmem => ?_⟩, hbc.linked.mono hkept, ?_, ?_⟩,
    hopened⟩
  · rcases List.eq_nil_or_concat' kept' with rfl | ⟨below, top, rfl⟩
    · exact absurd hmem List.not_mem_nil
    rcases List.mem_append.mp hmem with hbelow | htop
    · -- torn in an earlier session, or indexed
      have hmem' : h ∈ (below ++ [top]).dropLast := by rwa [List.dropLast_concat]
      refine (hcons.indexed h hmem').imp (fun ⟨e, he, hlast⟩ => ?_) id
      exact ⟨e, List.mem_append_left _ he, hlast⟩
    · -- the last block is one that this session may have torn
      obtain rfl := List.mem_singleton.mp htop
      exact Or.inl ⟨_, List.mem_append_right es List.mem_cons_self, below, hcons.stores⟩
  · intro e he
    rcases List.mem_append.mp he with hold | hnow
    · obtain ⟨before, hbefore, hgrown⟩ := hd.earlier e hold
      exact ⟨before, hbefore, hgrown.trans hopened⟩
    · obtain rfl := List.mem_singleton.mp hnow
      exact ⟨kept', hcons.stores, List.prefix_rfl⟩
  · intro past e heq
    obtain ⟨-, rfl⟩ := List.append_singleton_inj.mp heq
    exact ⟨hkept, hlength⟩

/-- The same for a session that has not filled the heights. -/
theorem Recovered.length_lt (hd : Recovered Ps (es ++ [(lost, r)]) d kept)
    (hroom : r.headers.length < 2 ^ 32) : kept.length < 2 ^ 32 :=
  (hd.last es _ rfl).1.length_le.trans_lt hroom

/-- All sessions. -/
theorem exists_recovered (hgob : ∀ b, C.Carries b) (hg : genesis.header = some g)
    (hzero : g.height = 0) (hright : ∀ P ∈ Ps, genesis.HashesRight P)
    (hrun : History (Session E Ps genesis) (LevelDBStore.new : LevelDBStore C) es d)
    (hroom : ∀ e ∈ es, e.2.headers.length < 2 ^ 32) :
    ∃ kept, Recovered Ps es d kept ∧ kept.length < 2 ^ 32 := by
  induction hrun with
  | start => exact ⟨[], .new, by norm_num⟩
  | @call es _ _ lost r past last ih =>
    obtain ⟨kept, hd, hfits⟩ := ih fun e he => hroom e (List.mem_append_left _ he)
    obtain ⟨kept', hd', -⟩ := hd.session hgob hg hzero hright hfits last
    exact ⟨kept', hd', hd'.length_lt (hroom _ (List.mem_append_right es List.mem_cons_self))⟩

/-- The header of a block that is found is among those that are kept. -/
theorem Recovered.mem (hd : Recovered Ps es d kept) {b : Block} {h : Header}
    (hget : Storage.get P d h.height = .ok b) (hheader : b.header = some h) : h ∈ kept := by
  have hlt : h.height.toNat < kept.length := by
    by_contra hge
    obtain ⟨e, hmissing⟩ := (hd.consistent.stores P).missing h.height (Nat.le_of_not_lt hge)
    exact nomatch hget.symm.trans hmissing
  obtain ⟨b', hget', hheader'⟩ :=
    (hd.consistent.stores P).get h.height.toNat _ (List.getElem?_eq_getElem hlt)
  rw [UInt32.ofNat_toNat] at hget'
  obtain rfl := Outcome.ok.inj (hget.symm.trans hget')
  rw [Option.some.inj (hheader.symm.trans hheader')]
  exact List.getElem_mem hlt

theorem Recovered.get (hd : Recovered Ps es d kept) {h : Header} (hmem : h ∈ kept) :
    ∃ b, Storage.get P d h.height = .ok b ∧ b.header = some h := by
  obtain ⟨i, hlt, hi⟩ := List.mem_iff_getElem.mp hmem
  have hpos := List.getElem?_eq_some_iff.mpr ⟨hlt, hi⟩
  rw [height_eq_ofNat (hd.linked.height i h hpos)]
  exact (hd.consistent.stores P).get i h hpos

/-- No crash leaves anything under the hash. -/
def Lacks (hash : Hash) (j : JournaledStore C) : Prop :=
  j.journal.Always applyWrite fun _ s => s.db.lookup (hashKey hash) = none

variable {hash : Hash}

theorem Lacks.write {key : List UInt8} (hne : hashKey hash ≠ key) (data : List UInt8) :
    Act.Upholds (Lacks (C := C) hash) (fun _ => True) (JournaledStore.write key data) := by
  refine Act.Upholds.modify fun j hj => Journal.Always.record hj (fun _ _ h => h) ?_
  have hcurrent : j.current.db.lookup (hashKey hash) = none := by
    have hzero := hj 0
    rwa [Journal.crash_zero] at hzero
  exact (Finmap.lookup_insert_of_ne _ hne).trans hcurrent

theorem Lacks.put {b : Block} (hne : ∀ h, b.header = some h → b.hash P h ≠ hash) :
    Act.Upholds (Lacks (C := C) hash) (fun _ => True) (JournaledStore.put P b) := by
  refine (Act.Upholds.lift fun _ _ => trivial).bind fun data (_ : True) => ?_
  refine (Act.Upholds.lift fun h hh => Outcome.deref_eq_ok.mp hh).bind fun h hheader => ?_
  refine (Lacks.write (heightKey_ne_hashKey _ _).symm data).bind fun _ _ => ?_
  refine (Lacks.write (hashKey_injective.ne (hne h hheader).symm) data).bind fun _ _ => ?_
  refine Act.Upholds.forEach fun tx _ => ?_
  exact (Act.Upholds.lift fun _ _ => trivial).bind fun data (_ : True) =>
    Lacks.write (hashKey_ne_txKey _ _) data

/-- A session in which no block with the hash is added. -/
theorem Recovered.lacks (hgob : ∀ b, C.Carries b) (hg : genesis.header = some g)
    (hzero : g.height = 0) (hright : ∀ P ∈ Ps, genesis.HashesRight P)
    (hd : Recovered Ps es d kept) (hroom : kept.length < 2 ^ 32) {h : Header} (hmem : h ∈ kept)
    (hlost : d.db.lookup (hashKey hash) = none) (hsession : Session E Ps genesis d lost r d')
    (honly : ∀ x ∈ r.headers, ∀ P ∈ Ps, BlockHasher.hash P x = hash → x = h) :
    d'.db.lookup (hashKey hash) = none := by
  obtain ⟨Q, hQ, fuel, c, calls, bc₀, bc, hnew, hrun, rfl, rfl⟩ := hsession
  have hstart :=
    Running.start (c := c) hgob hQ hg hzero (hright Q hQ) hd.consistent hd.linked hroom hnew
  -- the blocks that come in have other heights, hence other headers
  have hbc : Running Ps kept (tornIn es) bc ∧
      ((∀ x ∈ bc.headers, BlockHasher.hash Q x = hash → x = h) → Lacks hash bc.store) := by
    refine hrun.invariant (fun bc => Running Ps kept (tornIn es) bc ∧
      ((∀ x ∈ bc.headers, BlockHasher.hash Q x = hash → x = h) → Lacks hash bc.store))
      ⟨hstart, fun _ => ?_⟩ ?_
    · obtain rfl := eq_of_newBlockchain hd.consistent.stores.reopened
        (List.length_pos_of_mem hmem) hroom hnew
      exact .reopen fun _ => hlost
    · rintro bc b o bc' ⟨hbc, hlacks⟩ hcall
      refine ⟨hbc.returned hgob hQ hcall, fun honly => ?_⟩
      rcases hcall.cases with ⟨hheaders, hstore⟩ | ⟨x, c', valid, hheaders, hstore⟩
      · rw [hstore]
        exact hlacks (hheaders ▸ honly)
      · rw [hheaders] at honly
        have hbefore := hlacks fun y hy => honly y (List.mem_append_left _ hy)
        obtain ⟨-, hheight, -⟩ := valid.extends hbc.nonempty hbc.fits
        have hother : h.height ≠ x.height :=
          hbc.linked.height_ne hheight h (hbc.intact.opened.subset hmem)
        rw [hstore]
        refine (Lacks.put (fun y hy => ?_) bc.store hbefore).1
        obtain rfl := Option.some.inj (valid.header.symm.trans hy)
        rw [hcall.1.block.hash_eq hy]
        intro heq
        have hsame := honly x (List.mem_append_right _ List.mem_cons_self) heq
        exact hother (congrArg Header.height hsame.symm)
  exact hbc.2 (fun x hx => honly x hx Q hQ) lost

/-- **What a crash has torn stays torn.** A start finds a block at its height and not by its hash,
because a crash came between the two writes. No later session repairs this, as long as no other
header has the same hash in any process: the block is at its height ever after, and never found by
its hash. A process that gives the block another hash would write under another key, and does not
write it again. -/
theorem torn_stays (hgob : ∀ b, C.Carries b) (hg : genesis.header = some g)
    (hzero : g.height = 0) (hright : ∀ P ∈ Ps, genesis.HashesRight P)
    {es es' : List (ℕ × Ended C)} {mid : LevelDBStore C}
    (hfirst : History (Session E Ps genesis) (LevelDBStore.new : LevelDBStore C) es mid)
    (hrun : History (Session E Ps genesis) mid es' d)
    (hroom : ∀ e ∈ es ++ es', e.2.headers.length < 2 ^ 32) {b : Block} {h : Header}
    (hget : Storage.get P mid h.height = .ok b) (hheader : b.header = some h)
    (hlost : mid.db.lookup (hashKey (BlockHasher.hash P h)) = none)
    (honly : ∀ e ∈ es', ∀ x ∈ e.2.headers, ∀ Q ∈ Ps,
      BlockHasher.hash Q x = BlockHasher.hash P h → x = h) :
    (∃ b', Storage.get P d h.height = .ok b' ∧ b'.header = some h) ∧
      Storage.getByHash P d (BlockHasher.hash P h) =
        .err (.missingInDatabase (.blockHashNotFound (BlockHasher.hash P h))) := by
  suffices hd : ∃ kept, Recovered Ps (es ++ es') d kept ∧ kept.length < 2 ^ 32 ∧ h ∈ kept ∧
      d.db.lookup (hashKey (BlockHasher.hash P h)) = none by
    obtain ⟨kept, hd, -, hmem, hnone⟩ := hd
    refine ⟨hd.get hmem, ?_⟩
    show d.read C.block _ _ = _
    unfold LevelDBStore.read
    rw [hnone]
  induction hrun with
  | start =>
    rw [List.append_nil] at hroom ⊢
    obtain ⟨kept, hd, hfits⟩ := exists_recovered hgob hg hzero hright hfirst hroom
    exact ⟨kept, hd, hfits, hd.mem hget hheader, hlost⟩
  | @call es₂ d d' lost r past last ih =>
    rw [← List.append_assoc] at hroom ⊢
    obtain ⟨kept, hd, hfits, hmem, hnone⟩ :=
      ih (fun e he => hroom e (List.mem_append_left _ he))
        fun e he => honly e (List.mem_append_left _ he)
    obtain ⟨kept', hd', hgrown⟩ := hd.session hgob hg hzero hright hfits last
    refine ⟨kept', hd', ?_, hgrown.subset hmem, ?_⟩
    · exact hd'.length_lt (hroom _ (List.mem_append_right _ List.mem_cons_self))
    · exact hd.lacks hgob hg hzero hright hfits hmem hnone last
        (honly _ (List.mem_append_right _ List.mem_cons_self))

end Sessions

/-! ### A genesis block that is torn -/

section Sample

/-- The chain on another store. -/
def withStore {S S' : Type} (bc : Blockchain E S) (s : S') : Blockchain E S' where
  store := s
  headers := bc.headers
  consensus := bc.consensus
  worldState := bc.worldState
  totalDifficulty := bc.totalDifficulty

/-- Whether a block is accepted is no matter of the store. -/
theorem addBlock_withStore {S S' : Type} [Storage P S] [Storage P S'] [LawfulStorage P S']
    {bc bc' : Blockchain E S} {fuel : ℕ} {b : Block} (hok : addBlock P fuel b bc = (.ok (), bc'))
    (s : S') :
    addBlock P fuel b (bc.withStore s) = (.ok (), bc'.withStore (Storage.put P b s).2) := by
  obtain ⟨h, c', ws, total, s₀, valid, executed, weight, -, rfl⟩ := addBlock_eq_ok hok
  have hverify : verifyConsensus P h (bc.withStore s) =
      (.ok (), { bc.withStore s with consensus := c' }) := by
    cases bc with
    | mk s₁ hs c ws₁ total₁ =>
      cases c with
      | none =>
        obtain rfl := valid.consensus_of_none rfl
        rfl
      | some e =>
        obtain ⟨e', rfl, hengine⟩ := valid.consensus_of_some rfl
        show ((ConsensusEngine.verifyHeader P h e).1, _) = _
        rw [hengine]
  have hvalid : Valid P (bc.withStore s) b h c' := by
    refine ⟨valid.header, ?_, hverify, valid.verify⟩
    exact checkPosition_eq_ok.mpr (checkPosition_eq_ok.mp valid.position)
  have hput := LawfulStorage.put_ok (P := P) s valid.header
  exact addBlock_of_stages hvalid executed weight (Act.eq_mk_of_fst hput)

/-- A process that encodes a header first, and one that has encoded a `Message` before. -/
def freshProcess : Primitives := Primitives.sample.inProcess sampleGob []

def laterProcess : Primitives := Primitives.sample.inProcess sampleGob [.message]

theorem exists_addBlock_freshBlock :
    ∃ bc, addBlock freshProcess 1 freshBlock sampleChain = (.ok (), bc) ∧
      bc.headers = [sampleGenesis, freshHeader] := by
  have hok : (addBlock freshProcess 1 freshBlock sampleChain).1 = .ok () := by decide +kernel
  exact ⟨_, Act.eq_mk_of_fst hok, by decide +kernel⟩

theorem sampleGenesisBlock_hashesRight (P : Primitives) : sampleGenesisBlock.HashesRight P :=
  ⟨fun _ _ => Or.inl rfl, fun _ hmem => absurd hmem List.not_mem_nil⟩

/-- The program dies between the two writes for the genesis block. The next session, which numbers
the types in another way, adds a block on top of it. -/
theorem exists_tornRun (hgob : ∀ b, C.Carries b) : ∃ mid d : LevelDBStore C,
    History (Session PoWEngine {freshProcess, laterProcess} sampleGenesisBlock) LevelDBStore.new
        [(1, ⟨[sampleGenesis], mid⟩)] mid ∧
      History (Session PoWEngine {freshProcess, laterProcess} sampleGenesisBlock) mid
        [(0, ⟨[sampleGenesis, freshHeader], d⟩)] d ∧
      Storage.get laterProcess mid 0 = .ok sampleGenesisBlock ∧
      mid.db.lookup (hashKey (BlockHasher.hash laterProcess sampleGenesis)) = none := by
  have := JournaledStore.lawfulStorage (P := laterProcess) hgob
  have := JournaledStore.lawfulStorage (P := freshProcess) hgob
  obtain ⟨data, hencode, hdecode⟩ := (hgob sampleGenesisBlock).block
  let mid : LevelDBStore C := LevelDBStore.new.applyWrite (heightKey 0, data)
  have hfirst : History (Session PoWEngine {freshProcess, laterProcess} sampleGenesisBlock)
      LevelDBStore.new [(1, ⟨[sampleGenesis], mid⟩)] mid := by
    refine .call .start ⟨laterProcess, Or.inr rfl, 1, none, [], _, _,
      newBlockchain_of_holds_nil (g := sampleGenesis) ?_ rfl 1, .start, ?_, rfl⟩
    · exact ⟨by simp, fun j _ => ⟨.missingInDatabase (.blockNotFound j), rfl⟩⟩
    · refine congrArg (Ended.mk [sampleGenesis]) ?_
      show mid = (JournaledStore.put laterProcess sampleGenesisBlock _).2.crash 1
      unfold JournaledStore.put
      rw [hencode]
      rfl
  have hget : Storage.get laterProcess mid 0 = .ok sampleGenesisBlock := by
    show mid.read C.block (heightKey 0) (.blockNotFound 0) = _
    exact (read_applyWrite_self C.block _ data _).trans hdecode
  have hlost : mid.db.lookup (hashKey (BlockHasher.hash laterProcess sampleGenesis)) = none :=
    Finmap.lookup_insert_of_ne _ (heightKey_ne_hashKey _ _).symm
  -- the second session begins with the one header
  obtain ⟨kept, hd, hfits⟩ := exists_recovered hgob (g := sampleGenesis) rfl rfl
    (fun P _ => sampleGenesisBlock_hashesRight P) hfirst (by simp)
  have hmem : sampleGenesis ∈ kept := hd.mem (h := sampleGenesis) hget rfl
  have hkept : kept = [sampleGenesis] := by
    have hle := (hd.last [] _ rfl).1
    exact hle.eq_of_length (hle.length_le.antisymm (List.length_pos_of_mem hmem))
  subst hkept
  have hnew := newBlockchain_of_holds (P := freshProcess) (E := PoWEngine)
    hd.consistent.stores.reopened Nat.one_pos hfits sampleGenesisBlock
  obtain ⟨bc, hok, hheaders⟩ := exists_addBlock_freshBlock
  have hfresh : freshBlock.HashesRight freshProcess :=
    ⟨fun _ _ => Or.inl rfl, fun _ hmem => absurd hmem List.not_mem_nil⟩
  have hcall : Returned freshProcess (sampleChain.withStore (newLevelDBStore mid)) freshBlock
      (.ok ()) _ := ⟨hfresh, trivial, 1, addBlock_withStore hok (newLevelDBStore mid)⟩
  exact ⟨mid, _, hfirst, .call .start ⟨freshProcess, Or.inl rfl, _, none, _, _, _, hnew,
    .call .start hcall, congrArg (Ended.mk · _) hheaders.symm, rfl⟩, hget, hlost⟩

/-- The genesis block is not found by its hash after the second session either. -/
theorem torn_stays_genesis : ∃ (C : StoreCodecs) (es : List (ℕ × Ended C)) (d : LevelDBStore C),
    History (Session PoWEngine {freshProcess, laterProcess} sampleGenesisBlock) LevelDBStore.new
        es d ∧
      es.length = 2 ∧
      (∃ b, Storage.get laterProcess d 0 = .ok b ∧ b.header = some sampleGenesis) ∧
      ∃ e, Storage.getByHash laterProcess d (BlockHasher.hash laterProcess sampleGenesis) =
        .err e := by
  obtain ⟨C, hgob⟩ := exists_carrying
  obtain ⟨mid, d, hfirst, hthen, hget, hlost⟩ := exists_tornRun hgob
  have hother : ∀ P ∈ [freshProcess, laterProcess],
      BlockHasher.hash P freshHeader ≠ BlockHasher.hash laterProcess sampleGenesis := by
    intro P hP
    rcases List.mem_cons.mp hP with rfl | hP
    · decide +kernel
    · obtain rfl := List.mem_singleton.mp hP
      decide +kernel
  have hstays := torn_stays hgob (g := sampleGenesis) rfl rfl
    (fun P _ => sampleGenesisBlock_hashesRight P) hfirst hthen (by simp) hget (h := sampleGenesis)
    rfl hlost fun e he x hx P hP heq => by
      obtain rfl := List.mem_singleton.mp he
      rcases List.mem_cons.mp hx with rfl | hx
      · rfl
      · obtain rfl := List.mem_singleton.mp hx
        exact absurd heq (hother P (by simpa using hP))
  exact ⟨_, _, d, hfirst.append hthen, rfl, hstays.1, _, hstays.2⟩

end Sample

end Blockchain

end Blockz
