import Blockz.Core.WorldState
import Blockz.Crypto.Instance
import Blockz.Framework.Framing
import Blockz.Framework.Iteration
import Mathlib.Data.List.Sort

/-!
# The state root

`Account.Encode` in `core/account.go`, and `SetCode`, `GetCode` and `StateRoot` in
`core/world_state.go`. `StateRoot` ranges over the map of accounts, sorts the addresses, and hashes
the concatenation of addresses and encoded accounts; gob ranges over the storage map of each account
while it encodes it. Go leaves both orders open. They are the two components of a `Walk`, and one
evaluation of `StateRoot` is its value for one walk.

* `combined_congr` — the order of the accounts does not reach the hash: sorting removes it.
* `stateRoot_binding` — different account maps have different roots, whatever the walks are, if the
  encoding of an account delimits itself.
-/

namespace Blockz

open Effect Iteration Framing

/-- An account as gob writes it: the entries of the storage map stand in the order of the visit. -/
structure AccountFields where
  nonce : UInt64
  balance : UInt64
  codeHash : Hash
  storageRoot : Hash
  entries : List (Σ _ : Hash, List UInt8)

/-- What `DecodeAccount` makes of the fields: the order of the entries is gone. -/
def AccountFields.account (f : AccountFields) : Account where
  nonce := f.nonce
  balance := f.balance
  codeHash := f.codeHash
  storageRoot := f.storageRoot
  storage := f.entries.toFinmap

def Account.fields (acc : Account) (entries : List (Σ _ : Hash, List UInt8)) : AccountFields where
  nonce := acc.nonce
  balance := acc.balance
  codeHash := acc.codeHash
  storageRoot := acc.storageRoot
  entries := entries

theorem Account.account_fields {acc : Account} {entries : List (Σ _ : Hash, List UInt8)}
    (h : Lists entries acc.storage) : (acc.fields entries).account = acc := by
  unfold AccountFields.account fields
  rw [h.toFinmap_eq]

/-- A fresh gob encoder applied to an account. -/
abbrev AccountEncoder := AccountFields → Except Err (List UInt8)

/-- `Account.Encode`, the storage being visited in the order of `entries`. -/
def Account.encode (gob : AccountEncoder) (acc : Account)
    (entries : List (Σ _ : Hash, List UInt8)) : Except Err (List UInt8) :=
  gob (acc.fields entries)

namespace WorldState

/-- `WorldState.SetCode`. -/
def setCode (P : Primitives) (ws : WorldState) (addr : Address) (code : List UInt8) : WorldState :=
  let ws' := ws.updateAccount addr fun acc => { acc with codeHash := P.sha256 code }
  { ws' with contractCode := ws'.contractCode.insert (P.sha256 code) code }

/-- `WorldState.GetCode`; `none` is the nil slice. -/
def getCode (ws : WorldState) (addr : Address) : Option (List UInt8) :=
  match ws.accounts.lookup addr with
  | none => none
  | some acc => ws.contractCode.lookup acc.codeHash

/-! ### Sorting the addresses -/

/-- The loop of the comparison: the first byte that differs decides. -/
def lessBytes : List UInt8 → List UInt8 → Bool
  | x :: xs, y :: ys => if x ≠ y then x < y else lessBytes xs ys
  | _, _ => false

/-- The comparison that `StateRoot` hands to `sort.Slice`. -/
def less (a b : Address) : Bool := lessBytes a.bytes b.bytes

/-- `sort.Slice(addrs, less)`. -/
def sortAddrs (addrs : List Address) : List Address :=
  addrs.insertionSort fun a b => less b a = false

theorem lessBytes_iff : ∀ {xs ys : List UInt8}, xs.length = ys.length →
    (lessBytes xs ys = true ↔ xs < ys)
  | [], [], _ => by simp [lessBytes]
  | x :: xs, y :: ys, hlen => by
    rw [lessBytes, List.cons_lt_cons_iff]
    by_cases hxy : x = y
    · rw [if_neg (not_not.mpr hxy), lessBytes_iff (Nat.succ.inj hlen)]
      exact ⟨fun h => Or.inr ⟨hxy, h⟩, fun h => (h.resolve_left (hxy ▸ UInt8.lt_irrefl _)).2⟩
    · rw [if_pos hxy, decide_eq_true_iff]
      exact ⟨Or.inl, fun h => h.resolve_right fun h => hxy h.1⟩

/-- Not greater, by the comparison of the source, is the lexicographic order. -/
theorem less_eq_false_iff (a b : Address) : less b a = false ↔ a.bytes ≤ b.bytes := by
  have hlen : b.bytes.length = a.bytes.length := b.length_eq.trans a.length_eq.symm
  rw [← List.not_lt, ← lessBytes_iff hlen, Bool.not_eq_true]
  rfl

theorem pairwise_sortAddrs (addrs : List Address) :
    (sortAddrs addrs).Pairwise fun a b => a.bytes ≤ b.bytes := by
  -- the comparison of the source is a total preorder, as insertion sort needs
  have : Std.Total fun a b : Address => less b a = false := by
    refine ⟨fun a b => ?_⟩
    rw [less_eq_false_iff, less_eq_false_iff]
    exact List.le_total _ _
  have : IsTrans Address fun a b => less b a = false := by
    refine ⟨fun a b c hab hbc => ?_⟩
    rw [less_eq_false_iff] at *
    exact List.le_trans hab hbc
  refine (List.pairwise_insertionSort (fun a b => less b a = false) addrs).imp ?_
  exact fun h => (less_eq_false_iff _ _).mp h

/-- Sorting forgets the order in which the addresses came. -/
theorem sortAddrs_eq_of_perm {xs ys : List Address} (h : xs.Perm ys) :
    sortAddrs xs = sortAddrs ys := by
  have hperm : (sortAddrs xs).Perm (sortAddrs ys) :=
    (List.perm_insertionSort _ xs).trans (h.trans (List.perm_insertionSort _ ys).symm)
  refine hperm.eq_of_pairwise ?_ (pairwise_sortAddrs xs) (pairwise_sortAddrs ys)
  -- addresses that come before each other have the same bytes, and so are the same
  intro a b _ _ hab hba
  have hbytes := List.le_antisymm hab hba
  cases a
  cases b
  simp_all

theorem mem_sortAddrs {addrs : List Address} {a : Address} : a ∈ sortAddrs addrs ↔ a ∈ addrs :=
  (List.perm_insertionSort _ addrs).mem_iff

/-! ### One evaluation -/

/-- The orders in which one evaluation visits the accounts, and the storage of each of them. -/
structure Walk (accounts : Finmap fun _ : Address => Account) where
  addrs : List Address
  addrs_eq : (addrs : Multiset Address) = accounts.keys.val
  entries : Address → List (Σ _ : Hash, List UInt8)
  lists : ∀ addr acc, accounts.lookup addr = some acc → Lists (entries addr) acc.storage

variable {accounts : Finmap fun _ : Address => Account}

/-- What one address adds to the hashed bytes. An account that cannot be encoded is passed over. -/
def contribution (gob : AccountEncoder) (accounts : Finmap fun _ : Address => Account)
    (entries : Address → List (Σ _ : Hash, List UInt8)) (addr : Address) : List UInt8 :=
  match accounts.lookup addr with
  | none => []  -- not reached: the addresses come from the map
  | some acc =>
    match acc.encode gob (entries addr) with
    | .error _ => []
    | .ok data => addr.bytes ++ data

/-- The bytes that are hashed. -/
def combined (gob : AccountEncoder) (walk : Walk accounts) : List UInt8 :=
  (sortAddrs walk.addrs).flatMap (contribution gob accounts walk.entries)

/-- `WorldState.StateRoot`, for one walk over the maps. -/
def stateRoot (P : Primitives) (gob : AccountEncoder) (ws : WorldState) (walk : Walk ws.accounts) :
    Hash :=
  P.sha256 (combined gob walk)

theorem Walk.mem_addrs (walk : Walk accounts) {a : Address} : a ∈ walk.addrs ↔ a ∈ accounts := by
  rw [← Multiset.mem_coe, walk.addrs_eq, ← Finmap.mem_keys]
  rfl

theorem Walk.sortAddrs_eq (walk walk' : Walk accounts) :
    sortAddrs walk.addrs = sortAddrs walk'.addrs :=
  sortAddrs_eq_of_perm (Multiset.coe_eq_coe.mp (walk.addrs_eq.trans walk'.addrs_eq.symm))

/-- Some walk exists. -/
theorem Walk.nonempty (accounts : Finmap fun _ : Address => Account) :
    Nonempty (Walk accounts) := by
  obtain ⟨addrs, haddrs⟩ := Quot.exists_rep accounts.keys.val
  have hentries : ∀ addr, ∃ entries, ∀ acc, accounts.lookup addr = some acc →
      Lists entries acc.storage := by
    intro addr
    cases hacc : accounts.lookup addr with
    | none => exact ⟨[], fun acc h => absurd h (by simp)⟩
    | some acc =>
      obtain ⟨entries, hlists⟩ := exists_lists acc.storage
      exact ⟨entries, fun acc' h => Option.some.inj h ▸ hlists⟩
  choose entries hlists using hentries
  exact ⟨⟨addrs, haddrs, entries, hlists⟩⟩

/-- **The order of the accounts does not reach the hash.** -/
theorem combined_congr {gob : AccountEncoder} {walk walk' : Walk accounts}
    (h : ∀ addr ∈ accounts, contribution gob accounts walk.entries addr =
      contribution gob accounts walk'.entries addr) :
    combined gob walk = combined gob walk' := by
  unfold combined
  rw [walk.sortAddrs_eq walk']
  refine List.flatMap_congr fun addr hmem => h addr ?_
  exact walk'.mem_addrs.mp (mem_sortAddrs.mp hmem)

/-! ### The root binds the accounts -/

/-- The encoding of an account of `accs` delimits itself, and decodes to the account, in whatever
order its storage was visited. -/
def SelfDelimiting (gob : AccountEncoder) (accs : Set Account) : Prop :=
  ∃ decode : List UInt8 → Option (Account × List UInt8), ∀ acc ∈ accs, ∀ entries,
    Lists entries acc.storage →
      ∃ data, acc.encode gob entries = .ok data ∧ ∀ rest, decode (data ++ rest) = some (acc, rest)

/-- The accounts of a map. -/
def occurring (accounts : Finmap fun _ : Address => Account) : Set Account :=
  {acc | ∃ addr, accounts.lookup addr = some acc}

/-- The encoded bytes, where there are any. -/
def encoded (gob : AccountEncoder) (f : AccountFields) : List UInt8 :=
  match gob f with
  | .ok data => data
  | .error _ => []

theorem encoded_of_ok {gob : AccountEncoder} {acc : Account}
    {entries : List (Σ _ : Hash, List UInt8)} {data : List UInt8}
    (h : acc.encode gob entries = .ok data) : encoded gob (acc.fields entries) = data := by
  unfold encoded
  rw [show gob (acc.fields entries) = .ok data from h]

/-- The records that an evaluation writes one after the other. -/
def records (walk : Walk accounts) : List (Address × AccountFields) :=
  (sortAddrs walk.addrs).map fun addr =>
    (addr, ((accounts.lookup addr).getD (newAccount 0)).fields (walk.entries addr))

theorem mem_records {walk : Walk accounts} {x : Address × AccountFields} (hx : x ∈ records walk) :
    ∃ acc, accounts.lookup x.1 = some acc ∧ x.2 = acc.fields (walk.entries x.1) := by
  obtain ⟨addr, hmem, rfl⟩ := List.mem_map.mp hx
  obtain ⟨acc, hacc⟩ := Finmap.mem_iff.mp (walk.mem_addrs.mp (mem_sortAddrs.mp hmem))
  refine ⟨acc, hacc, ?_⟩
  rw [hacc]
  rfl

/-- What is left of the records once they are decoded: the map itself. -/
theorem mem_map_records (walk : Walk accounts) {addr : Address} {acc : Account} :
    (addr, acc) ∈ (records walk).map (fun x => (x.1, x.2.account)) ↔
      accounts.lookup addr = some acc := by
  constructor
  · intro hmem
    obtain ⟨x, hx, heq⟩ := List.mem_map.mp hmem
    obtain ⟨acc', hacc', hfields⟩ := mem_records hx
    obtain ⟨rfl, rfl⟩ := Prod.mk.inj heq
    rw [hacc', hfields, Account.account_fields (walk.lists _ _ hacc')]
  · intro hacc
    have hmem : addr ∈ sortAddrs walk.addrs :=
      mem_sortAddrs.mpr (walk.mem_addrs.mpr (Finmap.mem_of_lookup_eq_some hacc))
    refine List.mem_map.mpr ⟨_, List.mem_map_of_mem hmem, ?_⟩
    rw [hacc]
    exact congrArg (Prod.mk addr) (Account.account_fields (walk.lists _ _ hacc))

theorem combined_eq_flatMap {gob : AccountEncoder} {walk : Walk accounts} {accs : Set Account}
    (hgob : SelfDelimiting gob accs) (hall : occurring accounts ⊆ accs) :
    combined gob walk =
      (records walk).flatMap fun x => x.1.bytes ++ encoded gob x.2 := by
  unfold combined records
  rw [List.flatMap_map]
  refine List.flatMap_congr fun addr hmem => ?_
  obtain ⟨acc, hacc⟩ := Finmap.mem_iff.mp (walk.mem_addrs.mp (mem_sortAddrs.mp hmem))
  obtain ⟨decode, hdecode⟩ := hgob
  obtain ⟨data, hdata, -⟩ := hdecode acc (hall ⟨addr, hacc⟩) _ (walk.lists addr acc hacc)
  simp only [contribution, hacc, hdata, Option.getD_some, encoded_of_ok hdata]

/-- An address from its bytes. -/
def addressOf (bs : List UInt8) : Address :=
  if h : bs.length = 20 then ⟨bs, h⟩ else Address.zero

theorem addressOf_bytes (a : Address) : addressOf a.bytes = a := dif_pos a.length_eq

/-- **The hashed bytes determine the accounts.** The address has 20 bytes and the encoding behind it
ends by itself, so the concatenation is read back record by record. -/
theorem accounts_eq_of_combined_eq {accounts' : Finmap fun _ : Address => Account}
    {gob : AccountEncoder} {walk : Walk accounts} {walk' : Walk accounts'}
    (hgob : SelfDelimiting gob (occurring accounts ∪ occurring accounts'))
    (heq : combined gob walk = combined gob walk') : accounts = accounts' := by
  rw [combined_eq_flatMap hgob Set.subset_union_left,
    combined_eq_flatMap hgob Set.subset_union_right] at heq
  obtain ⟨decode, hdecode⟩ := hgob
  -- the fields whose encoding is read back
  set known : Set AccountFields := {f | ∃ acc ∈ occurring accounts ∪ occurring accounts',
    ∃ entries, Lists entries acc.storage ∧ f = acc.fields entries} with hknown
  have hframes : Framing.Delimits decode (encoded gob) AccountFields.account known := by
    rintro f ⟨acc, hacc, entries, hlists, rfl⟩ rest
    obtain ⟨data, hdata, hread⟩ := hdecode acc hacc entries hlists
    rw [encoded_of_ok hdata, hread, Account.account_fields hlists]
  have hkeyed := hframes.keyed Address.length_eq addressOf_bytes
  have hcontent := hkeyed.prefixFree.map_content ?_ ?_ ?_ heq
  · -- equal lists of records are equal maps
    refine Finmap.ext_lookup fun addr => Option.ext fun acc => ?_
    rw [← mem_map_records walk, ← mem_map_records walk', hcontent]
  · -- no record is empty
    intro x _ hnil
    have hlen := x.1.length_eq
    rw [(List.append_eq_nil_iff.mp hnil).1] at hlen
    exact absurd hlen (by simp)
  · intro x hx
    obtain ⟨acc, hacc, hfields⟩ := mem_records hx
    exact ⟨acc, Or.inl ⟨x.1, hacc⟩, _, walk.lists _ _ hacc, hfields⟩
  · intro x hx
    obtain ⟨acc, hacc, hfields⟩ := mem_records hx
    exact ⟨acc, Or.inr ⟨x.1, hacc⟩, _, walk'.lists _ _ hacc, hfields⟩

/-- **The state root is binding.** World states with different accounts have different roots, in
whatever orders the maps are visited. SHA-256 is asked not to collide on the two strings that are
hashed. -/
theorem stateRoot_binding {P : Primitives} {gob : AccountEncoder} {ws ws' : WorldState}
    (hgob : SelfDelimiting gob (occurring ws.accounts ∪ occurring ws'.accounts))
    (walk : Walk ws.accounts) (walk' : Walk ws'.accounts)
    (hsha : Set.InjOn P.sha256 {combined gob walk, combined gob walk'})
    (hdiff : ws.accounts ≠ ws'.accounts) :
    ws.stateRoot P gob walk ≠ ws'.stateRoot P gob walk' := by
  intro hroot
  have hcombined : combined gob walk = combined gob walk' :=
    hsha (Set.mem_insert _ _) (Set.mem_insert_of_mem _ rfl) hroot
  exact hdiff (accounts_eq_of_combined_eq hgob hcombined)

/-! ### A concrete encoder -/

/-- One choice of the encoder: the fields, and the entries behind their number. -/
def sampleEncoder : AccountEncoder := fun f =>
  .ok (fixedBytes 8 f.nonce.toNat ++ fixedBytes 8 f.balance.toNat ++ f.codeHash.bytes ++
    f.storageRoot.bytes ++ fixedBytes 8 f.entries.length ++
    f.entries.flatMap fun e => e.1.bytes ++ fixedBytes 8 e.2.length ++ e.2)

/-- A hash from its bytes. -/
def hashOf (bs : List UInt8) : Hash := if h : bs.length = 32 then ⟨bs, h⟩ else Hash.zero

theorem hashOf_bytes (h : Hash) : hashOf h.bytes = h := dif_pos h.length_eq

theorem length_fixedBytes (width n : ℕ) : (fixedBytes width n).length = width :=
  Bytes.length_bigEndian width n

theorem toNat_fixedBytes (n : ℕ) (hn : n < 2 ^ 64) : Bytes.toNat (fixedBytes 8 n) = n := by
  have hfits : n < 256 ^ 8 := hn
  exact Bytes.toNat_bigEndian hfits

def uint64Of (bs : List UInt8) : UInt64 := UInt64.ofNat (Bytes.toNat bs)

theorem uint64Of_fixedBytes (n : UInt64) : uint64Of (fixedBytes 8 n.toNat) = n := by
  unfold uint64Of
  rw [toNat_fixedBytes n.toNat n.toNat_lt, UInt64.ofNat_toNat]

/-- An entry of the storage: the key, and the value behind its length. -/
def entryFrame (e : Hash × List UInt8) : List UInt8 :=
  e.1.bytes ++ (fixedBytes 8 e.2.length ++ e.2)

def parseEntry : List UInt8 → Option ((Hash × List UInt8) × List UInt8) :=
  parseKeyed 32 hashOf
    (parseCounted 8 Bytes.toNat fun bs => bs.head?.map fun b => (b, bs.tail))

theorem delimits_entryFrame : Delimits parseEntry entryFrame id {e | e.2.length < 2 ^ 64} :=
  (delimits_string (length_fixedBytes 8) toNat_fixedBytes).keyed Hash.length_eq hashOf_bytes

/-- The account behind the frames of its fields. -/
def sampleDecoder (bs : List UInt8) : Option (Account × List UInt8) := do
  let ((nonce, balance, codeHash, storageRoot, entries), rest) ←
    parseKeyed 8 uint64Of (parseKeyed 8 uint64Of (parseKeyed 32 hashOf (parseKeyed 32 hashOf
      (parseCounted 8 Bytes.toNat parseEntry)))) bs
  pure (⟨nonce, balance, codeHash, storageRoot, (entries.map fun e => ⟨e.1, e.2⟩).toFinmap⟩, rest)

/-- Storage that can be counted in 64 bits. -/
def Counted (acc : Account) : Prop :=
  acc.storage.keys.card < 2 ^ 64 ∧ ∀ e ∈ acc.storage.entries, e.2.length < 2 ^ 64

/-- **This encoding delimits itself.** -/
theorem selfDelimiting_sampleEncoder : SelfDelimiting sampleEncoder {acc | Counted acc} := by
  refine ⟨sampleDecoder, fun acc ⟨hcard, hvalues⟩ entries hlists => ⟨_, rfl, fun rest => ?_⟩⟩
  -- the frames are nested: nonce, balance, the two hashes, and the entries behind their number
  have hframes := ((((delimits_entryFrame.counted (length_fixedBytes 8) toNat_fixedBytes).keyed
    Hash.length_eq hashOf_bytes).keyed Hash.length_eq hashOf_bytes).keyed
      (fun n : UInt64 => length_fixedBytes 8 n.toNat) uint64Of_fixedBytes).keyed
        (fun n : UInt64 => length_fixedBytes 8 n.toNat) uint64Of_fixedBytes
  set pairs : List (Hash × List UInt8) := entries.map fun e => (e.1, e.2) with hpairs
  have hmem : pairs.length < 2 ^ 64 ∧ ∀ e ∈ pairs, e.2.length < 2 ^ 64 := by
    constructor
    · rw [hpairs, List.length_map, hlists.length_eq]
      exact hcard
    · intro e he
      obtain ⟨e', he', rfl⟩ := List.mem_map.mp he
      exact hvalues e' (hlists ▸ he')
  have hback : pairs.map (fun e => (⟨e.1, e.2⟩ : Σ _ : Hash, List UInt8)) = entries := by
    rw [hpairs, List.map_map]
    exact List.map_id entries
  -- what the encoder writes, bracketed as the frames are
  have hframe : fixedBytes 8 acc.nonce.toNat ++ fixedBytes 8 acc.balance.toNat ++
      acc.codeHash.bytes ++ acc.storageRoot.bytes ++ fixedBytes 8 entries.length ++
      entries.flatMap (fun e => e.1.bytes ++ fixedBytes 8 e.2.length ++ e.2) =
      fixedBytes 8 acc.nonce.toNat ++ (fixedBytes 8 acc.balance.toNat ++ (acc.codeHash.bytes ++
        (acc.storageRoot.bytes ++ (fixedBytes 8 pairs.length ++ pairs.flatMap entryFrame)))) := by
    rw [hpairs, List.length_map, List.flatMap_map]
    simp only [entryFrame, List.append_assoc]
  have hparse := hframes (acc.nonce, acc.balance, acc.codeHash, acc.storageRoot, pairs) hmem rest
  show sampleDecoder ((_ ++ _ ++ _ ++ _ ++ _ ++ _) ++ rest) = _
  unfold sampleDecoder Account.fields
  rw [hframe, hparse]
  simp only [List.map_id, Option.bind_eq_bind, Option.bind_some, Option.pure_def, hback,
    hlists.toFinmap_eq]

/-! ### Two contracts -/

/-- The account of a contract with these storage entries. -/
def contractAccount (storage : Finmap fun _ : Hash => List UInt8) : Account :=
  { newAccount 0 with storage := storage }

/-- The storage of the first contract, with two entries. -/
def firstStorage : Finmap fun _ : Hash => List UInt8 :=
  (Finmap.insert (sampleDigest [1]) [1] ∅).insert (sampleDigest [2]) [2]

/-- The second contract has stored `value`. -/
def secondStorage (value : UInt8) : Finmap fun _ : Hash => List UInt8 :=
  Finmap.insert (sampleDigest [1]) [value] ∅

def contracts (value : UInt8) : WorldState :=
  ((new.setAccountState (sampleAddress 1) (sampleDigest [1]) [1]).setAccountState
    (sampleAddress 1) (sampleDigest [2]) [2]).setAccountState
      (sampleAddress 2) (sampleDigest [1]) [value]

theorem lookup_contracts (value : UInt8) (addr : Address) :
    (contracts value).accounts.lookup addr =
      if addr = sampleAddress 2 then some (contractAccount (secondStorage value))
      else if addr = sampleAddress 1 then some (contractAccount firstStorage) else none := by
  unfold contracts setAccountState
  rw [lookup_updateAccount]
  split
  · rfl
  · rw [lookup_updateAccount]
    split
    · rfl
    · next hne =>
      rw [lookup_updateAccount, if_neg hne]
      rfl

theorem contracts_cases {value : UInt8} {addr : Address} {acc : Account}
    (h : (contracts value).accounts.lookup addr = some acc) :
    addr = sampleAddress 2 ∧ acc = contractAccount (secondStorage value) ∨
      addr = sampleAddress 1 ∧ acc = contractAccount firstStorage := by
  rw [lookup_contracts] at h
  split at h
  · next heq => exact Or.inl ⟨heq, (Option.some.inj h).symm⟩
  · split at h
    · next heq => exact Or.inr ⟨heq, (Option.some.inj h).symm⟩
    · exact nomatch h

theorem lists_firstStorage :
    Lists [⟨sampleDigest [1], [1]⟩, ⟨sampleDigest [2], [2]⟩] firstStorage := by
  unfold Iteration.Lists
  decide +kernel

def contractsWalk (value : UInt8) : Walk (contracts value).accounts where
  addrs := [sampleAddress 2, sampleAddress 1]
  addrs_eq := rfl
  entries addr :=
    if addr = sampleAddress 2 then [⟨sampleDigest [1], [value]⟩]
    else [⟨sampleDigest [1], [1]⟩, ⟨sampleDigest [2], [2]⟩]
  lists addr acc h := by
    rcases contracts_cases h with ⟨rfl, rfl⟩ | ⟨rfl, rfl⟩
    · rfl
    · exact lists_firstStorage

theorem counted_of_lists {acc : Account} {entries : List (Σ _ : Hash, List UInt8)}
    (hlists : Lists entries acc.storage) (hlength : entries.length < 2 ^ 64)
    (hvalues : ∀ e ∈ entries, e.2.length < 2 ^ 64) : Counted acc := by
  refine ⟨hlists.length_eq ▸ hlength, fun e he => hvalues e ?_⟩
  rwa [← hlists, Multiset.mem_coe] at he

theorem counted_contracts {value : UInt8} {acc : Account}
    (h : acc ∈ occurring (contracts value).accounts) : Counted acc := by
  obtain ⟨addr, hacc⟩ := h
  refine counted_of_lists ((contractsWalk value).lists addr acc hacc) ?_ ?_
  · by_cases haddr : addr = sampleAddress 2 <;> simp [contractsWalk, haddr]
  · by_cases haddr : addr = sampleAddress 2 <;> simp [contractsWalk, haddr]

/-- Two states that differ in one byte of storage have different roots. -/
theorem stateRoot_binding_contracts :
    (contracts 3).stateRoot .sample sampleEncoder (contractsWalk 3) ≠
      (contracts 4).stateRoot .sample sampleEncoder (contractsWalk 4) := by
  obtain ⟨decode, hdecode⟩ := selfDelimiting_sampleEncoder
  refine stateRoot_binding ⟨decode, fun acc hacc => hdecode acc ?_⟩ _ _
    (Set.injOn_pair.mpr fun h => absurd h (by decide +kernel)) fun hsame => ?_
  · rcases hacc with hacc | hacc
    · exact counted_contracts hacc
    · exact counted_contracts hacc
  · have hlookup := congrArg (Finmap.lookup (sampleAddress 2)) hsame
    rw [lookup_contracts, lookup_contracts, if_pos rfl, if_pos rfl, Option.some.injEq] at hlookup
    have hvalue := congrArg (fun acc => acc.storage.lookup (sampleDigest [1])) hlookup
    exact absurd hvalue (by decide +kernel)

end WorldState

end Blockz
