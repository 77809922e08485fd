import Blockz.Chain.Step
import Blockz.Framework.Gob

/-!
# Block hashes in two processes

The hash of a header is the hash of its gob encoding, and a gob encoding contains the numbers that
the process has given to the types of the value. A header has three of them: `Header` itself, `Hash`
and `Address`. The numbers depend on what the process has encoded before its first header.

`Primitives.inProcess` is what the library functions are in a process with a given past. Within one
process the hash function is fixed once a header has been encoded (`headerIds_append`), which is why
nothing goes wrong as long as all nodes live in one process. Nodes that encode a header before
anything else, as a node with an empty store does when it stores the genesis block, agree with each
other (`headerIds_of_fresh`). In general two processes agree on a hash, and on the link of a block
to its predecessor, exactly when they have given the three types the same numbers.
-/

namespace Blockz

open Effect

/-- The types of the repository that gob gives a number to. -/
inductive GobType
  -- structs
  | header | transaction | signature | block | account
  | message | getBlocksMessage | blocksMessage | statusMessage | sharePeersMessage
  -- arrays, and types that encode themselves
  | hash | address | publicKey | bigInt
  -- what the descriptor of `PublicKey` goes on to: the struct in its field `Key`, and `*big.Int`,
  -- which gets a number besides that of `big.Int`
  | ecdsaPublicKey | bigIntPointer
  -- `[]*Transaction`, `[]*Header`, `[]*Block`, `[]NetAddr` and the map of `Account.Storage`
  | transactions | headers | blocks | netAddrs | storage
  deriving DecidableEq, Repr

/-- The values that the repository hands to an encoder. -/
inductive Encoded
  | header | transaction | block | account
  | message | getBlocksMessage | blocksMessage | statusMessage | sharePeersMessage
  deriving DecidableEq, Repr

namespace Encoded

/-- The types that get a number when the value is encoded: a struct before its fields, in the order
of the fields, and a slice or a map after its elements. The descriptors are sent when all of these
have their numbers. The one of `PublicKey` is followed by those of its exported field, although the
key encodes itself, and this gives numbers to two more types. -/
def types : Encoded → List GobType
  | header => [.header, .hash, .address]
  | transaction => [.transaction, .address, .publicKey, .signature, .bigInt, .ecdsaPublicKey,
      .bigIntPointer]
  | block => [.block, .header, .hash, .address, .transaction, .publicKey, .signature, .bigInt,
      .transactions, .headers, .ecdsaPublicKey, .bigIntPointer]
  | account => [.account, .hash, .storage]
  | message => [.message]
  | getBlocksMessage => [.getBlocksMessage]
  | blocksMessage => [.blocksMessage, .block, .header, .hash, .address, .transaction, .publicKey,
      .signature, .bigInt, .transactions, .headers, .blocks, .ecdsaPublicKey, .bigIntPointer]
  | statusMessage => [.statusMessage]
  | sharePeersMessage => [.sharePeersMessage, .netAddrs]

end Encoded

/-- The numbered types of a process, after the encodings of `history`. -/
def registryOf (history : List Encoded) : List GobType :=
  history.foldl (fun reg e => Gob.register reg e.types) []

/-- How gob writes a header, given the numbers of `Header`, `Hash` and `Address`, and the first
number that a process gives to a type. -/
structure HeaderGob where
  firstUserId : ℕ
  write : List ℕ → Header → List UInt8

variable {G : HeaderGob}

/-- The numbers that a header is written with. The types that are new get theirs on this occasion.
-/
def headerIds (G : HeaderGob) (history : List Encoded) : List ℕ :=
  Encoded.header.types.map
    (Gob.idOf G.firstUserId (Gob.register (registryOf history) Encoded.header.types))

/-- The library functions in a process that has made the encodings of `history`. -/
def Primitives.inProcess (P : Primitives) (G : HeaderGob) (history : List Encoded) : Primitives :=
  { P with gobHeader := G.write (headerIds G history) }

/-! ### The numbers of one process -/

theorem registryOf_concat (history : List Encoded) (e : Encoded) :
    registryOf (history ++ [e]) = Gob.register (registryOf history) e.types := by
  unfold registryOf
  rw [List.foldl_append]
  rfl

theorem registryOf_append (history later : List Encoded) :
    registryOf history <+: registryOf (history ++ later) := by
  induction later using List.reverseRecOn with
  | nil => rw [List.append_nil]
  | append_singleton later e ih =>
    rw [← List.append_assoc, registryOf_concat]
    exact ih.trans (Gob.register_extends _ e.types)

theorem mem_registryOf {history : List Encoded} {e : Encoded} (he : e ∈ history) {t : GobType}
    (ht : t ∈ e.types) : t ∈ registryOf history := by
  obtain ⟨before, behind, rfl⟩ := List.append_of_mem he
  have hnow : t ∈ registryOf (before ++ [e]) := by
    rw [registryOf_concat]
    exact Gob.mem_register ht
  have hlater := registryOf_append (before ++ [e]) behind
  rw [List.append_assoc] at hlater
  exact hlater.subset hnow

/-- **Within a process the numbers are fixed** from the first header on. -/
theorem headerIds_append {history : List Encoded} (hheader : Encoded.header ∈ history)
    (later : List Encoded) : headerIds G (history ++ later) = headerIds G history := by
  have hknown : ∀ t ∈ Encoded.header.types, t ∈ registryOf history := fun t ht =>
    mem_registryOf hheader ht
  have hgrown := registryOf_append history later
  unfold headerIds
  rw [Gob.register_of_subset hknown, Gob.register_of_subset fun t ht => hgrown.subset (hknown t ht)]
  exact List.map_congr_left fun t ht => Gob.idOf_extended (hknown t ht) hgrown

/-- A process that starts with a header has the first three numbers for it. -/
theorem headerIds_of_fresh (G : HeaderGob) (later : List Encoded) :
    headerIds G (.header :: later) =
      [G.firstUserId, G.firstUserId + 1, G.firstUserId + 2] := by
  rw [← List.singleton_append, headerIds_append (List.mem_singleton_self _)]
  rfl

example : headerIds ⟨64, fun _ _ => []⟩ [.transaction] = [71, 72, 65] := by decide

/-! ### Two processes -/

namespace Blockchain

variable {P : Primitives} {E S : Type}

/-- The link is the last check of the position. -/
theorem checkPosition_of_link {bc : Blockchain E S} {b : Block} {h prev : Header}
    (hnew : ¬ bc.hasBlockLocked h.height) (hnext : h.height = bc.heightLocked + 1)
    (hprev : bc.getHeaderLocked (h.height - 1) = .ok prev) :
    bc.checkPosition P b h = .ok () ↔ BlockHasher.hash P prev = h.prevBlockHash := by
  rw [checkPosition_eq_ok]
  constructor
  · rintro ⟨-, -, prev', hprev', hhash⟩
    rwa [Outcome.ok.inj (hprev.symm.trans hprev')]
  · exact fun hhash => ⟨hnew, hnext, prev, hprev, hhash⟩

/-- **When two processes agree.** They compute the same hash of a header, and the one accepts the
link of a block that the other has made on top of it, exactly when they have given the types of a
header the same numbers. The numbers are asked to show in the encoding, and SHA-256 not to collide
on the two strings. -/
theorem hash_eq_iff_of_processes {history history' : List Encoded} {prev : Header}
    (hvisible : G.write (headerIds G history) prev = G.write (headerIds G history') prev →
      headerIds G history = headerIds G history')
    (hsha : Set.InjOn P.sha256
      {G.write (headerIds G history) prev, G.write (headerIds G history') prev}) :
    (BlockHasher.hash (P.inProcess G history) prev =
        BlockHasher.hash (P.inProcess G history') prev ↔
      headerIds G history = headerIds G history') ∧
    ∀ {E S : Type} {bc : Blockchain E S} {b : Block} {h : Header},
      ¬ bc.hasBlockLocked h.height → h.height = bc.heightLocked + 1 →
      bc.getHeaderLocked (h.height - 1) = .ok prev →
      h.prevBlockHash = BlockHasher.hash (P.inProcess G history) prev →
      (bc.checkPosition (P.inProcess G history') b h = .ok () ↔
        headerIds G history = headerIds G history') := by
  have hhash : BlockHasher.hash (P.inProcess G history) prev =
      BlockHasher.hash (P.inProcess G history') prev ↔
        headerIds G history = headerIds G history' := by
    constructor
    · intro heq
      exact hvisible (hsha (Set.mem_insert _ _) (Set.mem_insert_of_mem _ rfl) heq)
    · intro hids
      unfold Primitives.inProcess
      rw [hids]
  refine ⟨hhash, fun hnew hnext hprev hlink => ?_⟩
  rw [checkPosition_of_link hnew hnext hprev, hlink, eq_comm, hhash]

/-- A gob that writes the numbers in front of the fields. -/
def sampleGob : HeaderGob where
  firstUserId := 64
  write ids h := ids.map UInt8.ofNat ++ sampleHeaderFields h

/-- A fresh node, and one that has encoded a `Message` before its first header. -/
theorem hash_eq_iff_of_processes_message :
    (BlockHasher.hash (Primitives.sample.inProcess sampleGob []) sampleGenesis =
        BlockHasher.hash (Primitives.sample.inProcess sampleGob [.message]) sampleGenesis ↔
      headerIds sampleGob [] = headerIds sampleGob [.message]) :=
  (hash_eq_iff_of_processes (fun h => absurd h (by decide +kernel))
    (Set.injOn_pair.mpr fun h => absurd h (by decide +kernel))).1

/-- The block that the fresh node makes on top of the genesis block. -/
def freshHeader : Header :=
  { sampleHeader sampleGenesis [] (sampleAddress 1) with
    prevBlockHash := BlockHasher.hash (Primitives.sample.inProcess sampleGob []) sampleGenesis }

def freshBlock : Block where
  header := some freshHeader
  transactions := []
  validator := sampleKey.publicKey
  signature := some (sampleSignature
    (freshHeader.bytes (Primitives.sample.inProcess sampleGob [])))

/-- **One header, two hashes.** The fresh node accepts the block. The node that has encoded a
`Message` first, as a restarted node does in `sendGetPeers`, refuses it for its link. -/
theorem addBlock_refuses_link_of_process :
    BlockHasher.hash (Primitives.sample.inProcess sampleGob []) sampleGenesis ≠
        BlockHasher.hash (Primitives.sample.inProcess sampleGob [.message]) sampleGenesis ∧
      (addBlock (Primitives.sample.inProcess sampleGob []) 1 freshBlock sampleChain).1 = .ok () ∧
      (addBlock (Primitives.sample.inProcess sampleGob [.message]) 1 freshBlock sampleChain).1 =
        .err (.invalidPrevHash freshHeader.prevBlockHash) := by
  decide +kernel

end Blockchain

end Blockz
