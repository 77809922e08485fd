import Blockz.Crypto.Instance
import Blockz.Framework.Framing

/-!
# The data hash binds the contents of a block

`CalculateDataHash` writes the encodings of the transactions and then those of the evidence headers
into one buffer, with no lengths and no separators, and hashes the buffer. The two lists can still
be told from the buffer if the encodings are prefix-free as a whole (`Primitives.DelimitsRecords`):
each frame ends where it says, and the first frame of a header cannot be mistaken for one more
transaction.

* `encodeAll_eq_ok` — the buffer as one stream of frames.
* `dataHash_binding` — equal hashes have equal lists; a block that verifies has no other contents
  under its data hash.
-/

namespace Blockz

open Effect

/-- **Encodings that delimit themselves.** An encoding of a transaction or a header that is the
beginning of another one is that of the same exported fields, and the two kinds are never beginnings
of each other. -/
structure Primitives.DelimitsRecords (P : Primitives) : Prop where
  transactions : ∀ (tx tx' : Transaction) (bytes bytes' : List UInt8),
    P.gobTransaction tx.exported = .ok bytes → P.gobTransaction tx'.exported = .ok bytes' →
      bytes <+: bytes' → tx.exported = tx'.exported
  headers : ∀ h h', P.gobHeader h <+: P.gobHeader h' → h = h'
  apart : ∀ (tx : Transaction) (bytes : List UInt8) (h : Header),
    P.gobTransaction tx.exported = .ok bytes → ¬ bytes <+: P.gobHeader h ∧ ¬ P.gobHeader h <+: bytes

namespace DataHash

/-- A record of the buffer. -/
abbrev Record := Transaction ⊕ Header

/-- The records in the order in which they are written. -/
def records (txx : List Transaction) (evidence : List Header) : List Record :=
  txx.map Sum.inl ++ evidence.map Sum.inr

def content : Record → Record
  | .inl tx => .inl tx.exported
  | .inr h => .inr h

section

variable (P : Primitives)

/-- What is written for a record; for a transaction that gob refuses there is nothing. -/
def frame : Record → List UInt8
  | .inl tx => (P.gobTransaction tx.exported).toOption.getD []
  | .inr h => P.gobHeader h

/-- The records that gob can write. -/
def Writable : Set Record := fun r =>
  ∀ tx, r = .inl tx → ∃ bytes, P.gobTransaction tx.exported = .ok bytes

/-- What is hashed. -/
def buffer (txx : List Transaction) (evidence : List Header) : List UInt8 :=
  (records txx evidence).flatMap (frame P)

end

variable {P : Primitives}

theorem frame_inl {tx : Transaction} {bytes : List UInt8}
    (hok : P.gobTransaction tx.exported = .ok bytes) : frame P (.inl tx) = bytes := by
  show (P.gobTransaction tx.exported).toOption.getD [] = bytes
  rw [hok]
  rfl

theorem encodeAll_eq_ok {txx : List Transaction} {bytes : List UInt8}
    (hok : Transaction.encodeAll P txx = .ok bytes) :
    bytes = (txx.map Sum.inl).flatMap (frame P) ∧ ∀ r ∈ txx.map Sum.inl, r ∈ Writable P := by
  induction txx generalizing bytes with
  | nil => exact ⟨(Outcome.ok.inj hok).symm, fun _ hr => absurd hr List.not_mem_nil⟩
  | cons tx txx ih =>
    obtain ⟨first, hfirst, hok⟩ := Outcome.bind_eq_ok.mp hok
    obtain ⟨rest, hrest, hok⟩ := Outcome.bind_eq_ok.mp hok
    obtain ⟨hbytes, hwritable⟩ := ih hrest
    obtain rfl := Outcome.ok.inj hok
    rw [List.map_cons, List.flatMap_cons, frame_inl hfirst, ← hbytes]
    refine ⟨rfl, fun r hr => ?_⟩
    rcases List.mem_cons.mp hr with rfl | hr
    · rintro _ ⟨rfl⟩
      exact ⟨first, hfirst⟩
    · exact hwritable r hr

/-- **The hash is that of the buffer**, if there is one. -/
theorem calculateDataHash_eq_ok {txx : List Transaction} {evidence : List Header} {hash : Hash}
    (hok : calculateDataHash P txx evidence = .ok hash) :
    hash = P.sha256 (buffer P txx evidence) ∧ ∀ r ∈ records txx evidence, r ∈ Writable P := by
  obtain ⟨bytes, hbytes, hok⟩ := Outcome.bind_eq_ok.mp hok
  obtain ⟨hframes, hwritable⟩ := encodeAll_eq_ok hbytes
  refine ⟨?_, fun r hr => ?_⟩
  · have hheaders :
        evidence.flatMap (Header.bytes P) = (evidence.map Sum.inr).flatMap (frame P) := by
      rw [List.flatMap_map]
      rfl
    unfold buffer records
    rw [List.flatMap_append, ← hframes, ← hheaders]
    exact (Outcome.ok.inj hok).symm
  · rcases List.mem_append.mp hr with htx | hh
    · exact hwritable r htx
    · rintro tx rfl
      obtain ⟨h, -, hne⟩ := List.mem_map.mp hh
      exact nomatch hne

/-! ### Reading the buffer -/

theorem prefixFree (hP : P.DelimitsRecords) :
    Framing.PrefixFree (frame P) content (Writable P) := by
  rintro (tx | h) ha (tx' | h') hb hpre
  · obtain ⟨bytes, hok⟩ := ha tx rfl
    obtain ⟨bytes', hok'⟩ := hb tx' rfl
    rw [frame_inl hok, frame_inl hok'] at hpre
    have hsame := hP.transactions tx tx' bytes bytes' hok hok' hpre
    exact ⟨congrArg (fun e => (P.gobTransaction e).toOption.getD []) hsame, congrArg Sum.inl hsame⟩
  · obtain ⟨bytes, hok⟩ := ha tx rfl
    rw [frame_inl hok] at hpre
    exact absurd hpre (hP.apart tx bytes h' hok).1
  · obtain ⟨bytes, hok⟩ := hb tx' rfl
    rw [frame_inl hok] at hpre
    exact absurd hpre (hP.apart tx' bytes h hok).2
  · obtain rfl := hP.headers h h' hpre
    exact ⟨rfl, rfl⟩

/-- The empty string is the beginning of everything, so it is not an encoding. -/
theorem frame_ne_nil (hP : P.DelimitsRecords) : ∀ r ∈ Writable P, frame P r ≠ [] := by
  rintro (tx | h) hr hnil
  · obtain ⟨bytes, hok⟩ := hr tx rfl
    rw [frame_inl hok] at hnil
    subst hnil
    exact (hP.apart tx [] sampleGenesis hok).1 List.nil_prefix
  · -- a header with an empty encoding would be every header
    have hall : ∀ h', h = h' := fun h' => hP.headers h h' (by
      rw [show P.gobHeader h = [] from hnil]
      exact List.nil_prefix)
    have hversion := congrArg Header.version (hall { h with version := h.version + 1 })
    simp at hversion

/-- Each kind can be read off the list of records by itself. -/
theorem filterMap_getLeft_records (txx : List Transaction) (evidence : List Header) :
    (records txx evidence).filterMap Sum.getLeft? = txx := by
  unfold records
  rw [List.filterMap_append, List.filterMap_map, List.filterMap_map]
  have hkept : txx.filterMap (Sum.getLeft? ∘ (Sum.inl : Transaction → Record)) = txx :=
    List.filterMap_some
  have hdropped : evidence.filterMap (Sum.getLeft? ∘ (Sum.inr : Header → Record)) = [] :=
    List.filterMap_eq_nil_iff.mpr fun _ _ => rfl
  rw [hkept, hdropped, List.append_nil]

theorem filterMap_getRight_records (txx : List Transaction) (evidence : List Header) :
    (records txx evidence).filterMap Sum.getRight? = evidence := by
  unfold records
  rw [List.filterMap_append, List.filterMap_map, List.filterMap_map]
  have hkept : evidence.filterMap (Sum.getRight? ∘ (Sum.inr : Header → Record)) = evidence :=
    List.filterMap_some
  have hdropped : txx.filterMap (Sum.getRight? ∘ (Sum.inl : Transaction → Record)) = [] :=
    List.filterMap_eq_nil_iff.mpr fun _ _ => rfl
  rw [hkept, hdropped, List.nil_append]

theorem buffer_inj (hP : P.DelimitsRecords) {txx txx' : List Transaction}
    {evidence evidence' : List Header}
    (hr : ∀ r ∈ records txx evidence, r ∈ Writable P)
    (hr' : ∀ r ∈ records txx' evidence', r ∈ Writable P)
    (heq : buffer P txx evidence = buffer P txx' evidence') :
    txx.map Transaction.exported = txx'.map Transaction.exported ∧ evidence = evidence' := by
  have hcontent := (prefixFree hP).map_content (frame_ne_nil hP) hr hr' heq
  have hsplit : ∀ txx evidence, (records txx evidence).map content =
      records (txx.map Transaction.exported) evidence := by
    intro txx evidence
    unfold records
    rw [List.map_append, List.map_map, List.map_map, List.map_map]
    rfl
  rw [hsplit, hsplit] at hcontent
  have hleft := congrArg (List.filterMap Sum.getLeft?) hcontent
  have hright := congrArg (List.filterMap Sum.getRight?) hcontent
  rw [filterMap_getLeft_records, filterMap_getLeft_records] at hleft
  rw [filterMap_getRight_records, filterMap_getRight_records] at hright
  exact ⟨hleft, hright⟩

/-- Lists with the same data hash agree in their exported fields. -/
theorem lists_eq_of_hash_eq (hP : P.DelimitsRecords) {txx txx' : List Transaction}
    {evidence evidence' : List Header} {hash : Hash}
    (hsha : Set.InjOn P.sha256 {buffer P txx evidence, buffer P txx' evidence'})
    (hok : calculateDataHash P txx evidence = .ok hash)
    (hok' : calculateDataHash P txx' evidence' = .ok hash) :
    txx.map Transaction.exported = txx'.map Transaction.exported ∧ evidence = evidence' := by
  obtain ⟨heq, hwritable⟩ := calculateDataHash_eq_ok hok
  obtain ⟨heq', hwritable'⟩ := calculateDataHash_eq_ok hok'
  refine buffer_inj hP hwritable hwritable' ?_
  exact hsha (Set.mem_insert _ _) (Set.mem_insert_of_mem _ rfl) (heq.symm.trans heq')

/-- Two blocks that verify under one data hash have the same contents. -/
theorem contents_eq_of_verify (hP : P.DelimitsRecords) {b b' : Block}
    (hsha : Set.InjOn P.sha256
      {buffer P b.transactions b.evidence, buffer P b'.transactions b'.evidence})
    (hverify : b.verify P = .ok ()) (hverify' : b'.verify P = .ok ())
    (hdata : b.header.map Header.dataHash = b'.header.map Header.dataHash) :
    b.transactions.map Transaction.exported = b'.transactions.map Transaction.exported ∧
      b.evidence = b'.evidence := by
  obtain ⟨-, h, -, hh, -, -, hhash⟩ := Block.verify_eq_ok hverify
  obtain ⟨-, h', -, hh', -, -, hhash'⟩ := Block.verify_eq_ok hverify'
  rw [hh, hh', Option.map_some, Option.map_some, Option.some.injEq] at hdata
  rw [← hdata] at hhash'
  exact lists_eq_of_hash_eq hP hsha hhash hhash'

end DataHash

open DataHash

/-- **The data hash is binding.** Lists with the same data hash agree record by record, in their
exported fields. Two blocks that verify under one data hash have the same transactions and the same
evidence, in the same order. SHA-256 is asked not to collide on the two buffers that are hashed. -/
theorem dataHash_binding {P : Primitives} (hP : P.DelimitsRecords) :
    (∀ txx evidence txx' evidence' hash,
      Set.InjOn P.sha256 {buffer P txx evidence, buffer P txx' evidence'} →
      calculateDataHash P txx evidence = .ok hash → calculateDataHash P txx' evidence' = .ok hash →
        txx.map Transaction.exported = txx'.map Transaction.exported ∧ evidence = evidence') ∧
    ∀ b b' : Block, Set.InjOn P.sha256
        {buffer P b.transactions b.evidence, buffer P b'.transactions b'.evidence} →
      b.verify P = .ok () → b'.verify P = .ok () →
      b.header.map Header.dataHash = b'.header.map Header.dataHash →
        b.transactions.map Transaction.exported = b'.transactions.map Transaction.exported ∧
          b.evidence = b'.evidence := by
  constructor
  · intro txx evidence txx' evidence' hash hsha hok hok'
    exact lists_eq_of_hash_eq hP hsha hok hok'
  · intro b b' hsha hverify hverify' hdata
    exact contents_eq_of_verify hP hsha hverify hverify' hdata

/-- The data hashes of these blocks tell their transactions apart. -/
def BindsTransactions (P : Primitives) (bs : Set Block) : Prop :=
  ∀ b ∈ bs, ∀ b' ∈ bs, b.verify P = .ok () → b'.verify P = .ok () →
    b.header.map Header.dataHash = b'.header.map Header.dataHash →
      b.transactions.map Transaction.exported = b'.transactions.map Transaction.exported

theorem BindsTransactions.mono {P : Primitives} {bs bs' : Set Block}
    (hbinds : BindsTransactions P bs') (hsub : bs ⊆ bs') : BindsTransactions P bs :=
  fun b hb b' hb' => hbinds b (hsub hb) b' (hsub hb')

/-- They do if SHA-256 does not collide on the buffers. -/
theorem bindsTransactions_of_delimits {P : Primitives} (hP : P.DelimitsRecords) {bs : Set Block}
    (hsha : Set.InjOn P.sha256 (Set.image (fun b => buffer P b.transactions b.evidence) bs)) :
    BindsTransactions P bs := by
  intro b hb b' hb' hverify hverify' hdata
  refine (contents_eq_of_verify hP (hsha.mono ?_) hverify hverify' hdata).1
  exact Set.pair_subset ⟨b, hb, rfl⟩ ⟨b', hb', rfl⟩

/-! ### Encodings of that kind -/

/-- A number in unary, with its end marked. -/
def unary (n : ℕ) : List UInt8 := List.replicate n 1 ++ [0]

theorem eq_of_unary_isPrefix {n m : ℕ} (hpre : unary n <+: unary m) : n = m := by
  induction n generalizing m with
  | zero =>
    cases m with
    | zero => rfl
    | succ m => exact absurd (List.cons_prefix_cons.mp hpre).1 (by decide)
  | succ n ih =>
    cases m with
    | zero => exact absurd (List.cons_prefix_cons.mp hpre).1 (by decide)
    | succ m => rw [ih (List.cons_prefix_cons.mp hpre).2]

/-- Transactions and headers by their numbers, behind a byte for the kind. -/
def Primitives.numbered (sha256 : List UInt8 → Hash) (transaction : Transaction → ℕ)
    (header : Header → ℕ) : Primitives :=
  { Primitives.sample with
    sha256 := sha256
    gobTransaction := fun tx => .ok (0 :: unary (transaction tx))
    gobHeader := fun h => 1 :: unary (header h) }

theorem delimitsRecords_numbered (sha256 : List UInt8 → Hash) {transaction : Transaction → ℕ}
    {header : Header → ℕ} (htx : Function.Injective transaction) (hh : Function.Injective header) :
    (Primitives.numbered sha256 transaction header).DelimitsRecords where
  transactions tx tx' bytes bytes' hok hok' hpre := by
    obtain rfl := Outcome.ok.inj hok
    obtain rfl := Outcome.ok.inj hok'
    exact htx (eq_of_unary_isPrefix (List.cons_prefix_cons.mp hpre).2)
  headers h h' hpre := hh (eq_of_unary_isPrefix (List.cons_prefix_cons.mp hpre).2)
  apart tx bytes h hok := by
    obtain rfl := Outcome.ok.inj hok
    exact ⟨fun hpre => absurd (List.cons_prefix_cons.mp hpre).1 (by decide),
      fun hpre => absurd (List.cons_prefix_cons.mp hpre).1 (by decide)⟩

/-- A transaction is not taken for a header of evidence. -/
theorem dataHash_binding_kinds :
    ∃ P : Primitives, P.DelimitsRecords ∧
      calculateDataHash P [sampleTransfer 0 0] [] ≠ calculateDataHash P [] [sampleGenesis] := by
  obtain ⟨transaction, htx⟩ := exists_injective_nat Transaction
  obtain ⟨header, hh⟩ := exists_injective_nat Header
  -- a digest that tells the two buffers apart by their first byte
  let sha256 : List UInt8 → Hash := fun bytes =>
    if bytes.head? = some 0 then Hash.zero else sampleDigest [1]
  have hP := delimitsRecords_numbered sha256 htx hh
  have hsha : Set.InjOn sha256
      {buffer (.numbered sha256 transaction header) [sampleTransfer 0 0] [],
        buffer (.numbered sha256 transaction header) [] [sampleGenesis]} :=
    Set.injOn_pair.mpr fun heq => absurd heq (by decide : Hash.zero ≠ sampleDigest [1])
  refine ⟨_, hP, fun heq => ?_⟩
  obtain ⟨hnone, -⟩ := (dataHash_binding hP).1 [sampleTransfer 0 0] [] [] [sampleGenesis] _ hsha rfl
    heq.symm
  exact absurd hnone (List.cons_ne_nil _ _)

end Blockz
