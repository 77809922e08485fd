import Blockz.Chain.Engines
import Blockz.Chain.Production

/-!
# A node's own block on its own chain

`createNewBlock` makes a block from the last header and the pending transactions and hands it to
`AddBlock`. What the two functions do has to fit together: height, link and data hash are written by
the one and checked by the other, the engine seals what it verifies, and the key signs what is
verified under its public half. `Assembled` collects what a finished block carries.

* `Assembled.valid` — such a block passes validation on the chain it was made for, if the engine
  accepts what it has sealed. Proof of work does (`Assembled.verifyConsensus_pow`).
* `addBlock_assembled_iff` — so it is accepted exactly when the chain has room, the transactions
  execute one after the other, and the engine can weigh a block. The first and the last are matters
  of the node; the second is up to whoever has submitted a transaction.
-/

namespace Blockz

open Effect

/-- `ecdsa.Verify` accepts what `ecdsa.Sign` has made, under the matching key. -/
def Primitives.CorrectSignature (P : Primitives) : Prop :=
  ∀ key data rand r s, P.ecdsaSign key data rand = .ok (r, s) →
    P.ecdsaVerify key.publicKey data r s = true

theorem Primitives.IdealSignature.correct {P : Primitives} (hP : P.IdealSignature) :
    P.CorrectSignature :=
  fun key data rand r s hsign => (hP key data rand r s hsign data).mpr rfl

theorem Signature.verify_of_correct {P : Primitives} (hP : P.CorrectSignature) {key : PrivateKey}
    {data : List UInt8} {rand : ℕ} {sig : Signature} (hsign : key.sign P data rand = .ok sig) :
    sig.verify P key.publicKey data = .ok true := by
  obtain ⟨⟨r, s⟩, hrs, hsig⟩ := Outcome.bind_eq_ok.mp hsign
  obtain rfl := Outcome.ok.inj hsig
  exact congrArg Outcome.ok (hP key.key data rand r s hrs)

/-! ### What the engines leave alone -/

/-- The fields that tie a header to its place and to the content of the block. -/
structure SameLink (h h' : Header) : Prop where
  height : h'.height = h.height
  prevBlockHash : h'.prevBlockHash = h.prevBlockHash
  dataHash : h'.dataHash = h.dataHash

/-- An engine that prepares and seals a header without moving it. -/
class LawfulSealing (P : Primitives) (E : Type) [SealingEngine P E] : Prop where
  prepare_link : ∀ (e : E) h h', SealingEngine.prepare P e h = .ok h' → SameLink h h'
  seal_link : ∀ (e : E) tick h h', SealingEngine.sealBlock P e tick h = .ok h' → SameLink h h'

instance (P : Primitives) : LawfulSealing P PoWEngine where
  prepare_link pow h h' hprep := by
    obtain rfl := Outcome.ok.inj hprep
    exact ⟨rfl, rfl, rfl⟩
  seal_link pow tick h h' hseal := by
    obtain ⟨target, -, hmine⟩ := Outcome.bind_eq_ok.mp hseal
    obtain ⟨nonce, rfl, -⟩ := PoWEngine.mine_eq_ok hmine
    exact ⟨rfl, rfl, rfl⟩

instance (P : Primitives) : LawfulSealing P PoSEngine where
  prepare_link pos h h' hprep := by
    obtain ⟨proposer, -, hh⟩ := Outcome.bind_eq_ok.mp hprep
    obtain rfl := Outcome.ok.inj hh
    exact ⟨rfl, rfl, rfl⟩
  seal_link _ _ h h' hseal := by
    obtain rfl := Outcome.ok.inj hseal
    exact ⟨rfl, rfl, rfl⟩

instance (P : Primitives) : (k : ConsensusType) → SealingEngine P k.Engine
  | .pow => inferInstanceAs (SealingEngine P PoWEngine)
  | .pos => inferInstanceAs (SealingEngine P PoSEngine)

instance (P : Primitives) : (k : ConsensusType) → LawfulSealing P k.Engine
  | .pow => inferInstanceAs (LawfulSealing P PoWEngine)
  | .pos => inferInstanceAs (LawfulSealing P PoSEngine)

/-- The bits that an engine asks for; proof of stake asks for none. -/
def ConsensusType.targetDifficulty : (k : ConsensusType) → k.Engine → Option UInt64
  | .pow, e => some (PoWEngine.targetDifficulty e)
  | .pos, _ => none

namespace Blockchain

variable {E S : Type} {P : Primitives}

/-! ### The finished block -/

section Assembled

variable [SealingEngine P E]

/-- What the block carries that `createNewBlock` hands to `AddBlock`; `current` is the header it was
made on. -/
structure Assembled (P : Primitives) [SealingEngine P E] (bc : Blockchain E S) (key : PrivateKey)
    (txx : List Transaction) (tick : Tick) (b : Block) (current h : Header) : Prop where
  tip : bc.getHeaderLocked bc.heightLocked = .ok current
  header : b.header = some h
  transactions : b.transactions = txx
  evidence : b.evidence = []
  height : h.height = current.height + 1
  prevBlockHash : h.prevBlockHash = BlockHasher.hash P current
  dataHash : calculateDataHash P txx [] = .ok h.dataHash
  validator : b.validator = key.publicKey
  signature : ∃ sig, b.signature = some sig ∧ key.sign P (h.bytes P) tick.rand = .ok sig
  -- what the engine has written, with the coinbase in between
  sealed : ∃ (h₁ h₂ : Header) (coinbase : Address),
    bc.withEngine (SealingEngine.prepare P) h₁ = .ok h₂ ∧
      bc.withEngine (fun e => SealingEngine.sealBlock P e tick) { h₂ with coinbase := coinbase } =
        .ok h

omit [SealingEngine P E] in
theorem withEngine_link {bc : Blockchain E S} {f : E → Header → Outcome Err Header}
    (hf : ∀ e h h', f e h = .ok h' → SameLink h h') {h h' : Header}
    (hok : bc.withEngine f h = .ok h') : SameLink h h' := by
  unfold withEngine at hok
  split at hok
  · obtain rfl := Outcome.ok.inj hok
    exact ⟨rfl, rfl, rfl⟩
  · exact hf _ h h' hok

theorem assembleBlock_spec [LawfulSealing P E] {bc : Blockchain E S} {key : PrivateKey}
    {txx : List Transaction} {tick : Tick} {b : Block}
    (hok : assembleBlock P bc key txx tick = .ok b) :
    ∃ current h, Assembled P bc key txx tick b current h := by
  obtain ⟨current, htip, hbuild⟩ := Outcome.bind_eq_ok.mp hok
  obtain ⟨h₁, h₂, h, hbuilt⟩ := buildBlock_spec hbuild
  obtain ⟨coinbase, hsealed⟩ := hbuilt.sealed
  obtain ⟨sig, hsig, rfl⟩ := hbuilt.signed
  have hlink₂ := withEngine_link LawfulSealing.prepare_link hbuilt.prepared
  have hlink₃ := withEngine_link (fun e => LawfulSealing.seal_link e tick) hsealed
  refine ⟨current, h, htip, rfl, rfl, rfl, ?_, ?_, ?_, rfl, ⟨sig, rfl, hsig⟩,
    ⟨h₁, h₂, coinbase, hbuilt.prepared, hsealed⟩⟩
  · rw [hlink₃.height]
    exact hlink₂.height.trans hbuilt.height
  · rw [hlink₃.prevBlockHash]
    exact hlink₂.prevBlockHash.trans hbuilt.prevBlockHash
  · rw [hlink₃.dataHash]
    exact hbuilt.dataHash.trans (congrArg Outcome.ok hlink₂.dataHash.symm)

end Assembled

/-! ### The last header -/

/-- The last header stands at its own height. -/
structure TipNumbered (bc : Blockchain E S) : Prop where
  pos : 0 < bc.headers.length
  fits : bc.headers.length ≤ 2 ^ 32
  tip : ∀ h, bc.headers[bc.headers.length - 1]? = some h → h.height.toNat + 1 = bc.headers.length

/-- The last header can be read, as long as its position is a `uint32`. -/
theorem TipNumbered.exists_header {bc : Blockchain E S} (htip : bc.TipNumbered)
    (hroom : bc.headers.length < 2 ^ 32) :
    ∃ current, bc.getHeaderLocked bc.heightLocked = .ok current := by
  have hlast := toNat_heightLocked htip.pos htip.fits
  have hpos := htip.pos
  have hlt : bc.heightLocked.toNat < bc.headers.length := by omega
  have hbelow : ¬ UInt32.ofNat bc.headers.length ≤ bc.heightLocked := by
    rw [UInt32.le_iff_toNat_le, UInt32.toNat_ofNat', Nat.mod_eq_of_lt hroom]
    omega
  unfold getHeaderLocked
  rw [if_neg hbelow, List.getElem?_eq_getElem hlt]
  exact ⟨_, rfl⟩

theorem TipNumbered.of_headers {bc bc' : Blockchain E S} (htip : bc.TipNumbered)
    (hheaders : bc'.headers = bc.headers) : bc'.TipNumbered := by
  obtain ⟨hpos, hfits, hlast⟩ := htip
  refine ⟨?_, ?_, fun h hh => ?_⟩
  · rwa [hheaders]
  · rwa [hheaders]
  · rw [hheaders] at hh ⊢
    exact hlast h hh

/-- Every call of `AddBlock` keeps that, however it ends. -/
theorem TipNumbered.addBlock [ConsensusEngine P E] [Storage P S] {fuel : ℕ}
    {bc bc' : Blockchain E S} {b : Block} {o : Outcome Err Unit} (htip : bc.TipNumbered)
    (hstep : AddStep P fuel bc b o bc') : bc'.TipNumbered := by
  -- a header is appended by a valid block only
  have happend : ∀ {bc' : Blockchain E S} {h : Header} {c' : Option E}, Valid P bc b h c' →
      bc'.headers = bc.headers ++ [h] → bc'.TipNumbered := by
    intro bc' h c' valid hheaders
    obtain ⟨hroom, hheight, -⟩ := valid.extends htip.pos htip.fits
    have hlen : bc'.headers.length = bc.headers.length + 1 := by
      rw [hheaders, List.length_append, List.length_singleton]
    refine ⟨by omega, by omega, fun h' hh' => ?_⟩
    rw [hlen, Nat.add_sub_cancel, hheaders, List.getElem?_concat_length] at hh'
    obtain rfl := Option.some.inj hh'
    rw [hlen, hheight]
  cases hstep with
  | invalid _ _ => exact htip.of_headers rfl
  | aborted _ _ _ => exact htip.of_headers rfl
  | crashed valid _ _ => exact happend valid rfl
  | appended valid _ _ _ => exact happend valid rfl

namespace Assembled

variable [SealingEngine P E] {bc : Blockchain E S} {key : PrivateKey} {txx : List Transaction}
  {tick : Tick} {b : Block} {current h : Header}

theorem toNat_current (ha : Assembled P bc key txx tick b current h) (htip : bc.TipNumbered) :
    current.height.toNat + 1 = bc.headers.length := by
  refine htip.tip current ?_
  have hlast := ha.tip
  unfold getHeaderLocked at hlast
  split at hlast
  · exact nomatch hlast
  · rw [toNat_heightLocked htip.pos htip.fits] at hlast
    exact Outcome.deref_eq_ok.mp hlast

/-- The block has the next height and points to the last header. -/
theorem position (ha : Assembled P bc key txx tick b current h) (htip : bc.TipNumbered)
    (hroom : bc.headers.length < 2 ^ 32) : bc.checkPosition P b h = .ok () := by
  have hcurrent := ha.toNat_current htip
  have hlocked := toNat_heightLocked htip.pos htip.fits
  have hsame : current.height = bc.heightLocked := by
    rw [← UInt32.toNat_inj, hlocked]
    omega
  have hnext : h.height = bc.heightLocked + 1 := by rw [ha.height, hsame]
  have hheight : h.height.toNat = bc.headers.length := by
    rw [hnext, UInt32.toNat_add, hlocked]
    have hone : (1 : UInt32).toNat = 1 := rfl
    have hpos := htip.pos
    rw [hone]
    omega
  refine checkPosition_eq_ok.mpr ⟨?_, hnext, current, ?_, ha.prevBlockHash.symm⟩
  · intro htaken
    have hle := UInt32.le_iff_toNat_le.mp htaken
    have hpos := htip.pos
    rw [hheight, hlocked] at hle
    omega
  · have hprev : h.height - 1 = bc.heightLocked := by
      rw [hnext]
      exact UInt32.add_sub_cancel _ _
    rw [hprev]
    exact ha.tip

/-- It verifies if its transactions do. -/
theorem verify (ha : Assembled P bc key txx tick b current h) (hP : P.CorrectSignature)
    (htxx : ∀ tx ∈ txx, tx.verify P = .ok ()) : b.verify P = .ok () := by
  obtain ⟨sig, hsig, hsign⟩ := ha.signature
  have hvalid := Signature.verify_of_correct hP hsign
  unfold Block.verify
  simp only [hsig, ha.header, ha.validator, ha.transactions, ha.evidence, Outcome.deref_some,
    Outcome.bind_ok, hvalid, ha.dataHash, Outcome.require_bind_eq_ok]
  refine ⟨trivial, Outcome.bind_eq_ok.mpr ⟨(), Outcome.checkAll_eq_ok.mpr htxx, ?_⟩⟩
  exact Outcome.require_eq_ok.mpr trivial

end Assembled

/-! ### The engine -/

section Engine

variable {key : PrivateKey} {txx : List Transaction} {tick : Tick} {b : Block} {current h : Header}

theorem verifyConsensus_none [ConsensusEngine P E] {bc : Blockchain E S}
    (hc : bc.consensus = none) (h : Header) : (verifyConsensus P h bc).1 = .ok () := by
  unfold verifyConsensus
  rw [hc]

/-- What proof of work has sealed it accepts, with the bits that it asks for. -/
theorem Assembled.verifyHeader_pow {bc : Blockchain PoWEngine S} {pow : PoWEngine}
    (ha : Assembled P bc key txx tick b current h) (hc : bc.consensus = some pow) :
    h.difficulty = pow.targetDifficulty ∧ PoWEngine.verifyHeader P h = .ok () := by
  obtain ⟨h₁, h₂, coinbase, hprepare, hseal⟩ := ha.sealed
  unfold withEngine at hprepare hseal
  rw [hc] at hprepare hseal
  obtain rfl := Outcome.ok.inj hprepare
  obtain ⟨target, htarget, hmine⟩ := Outcome.bind_eq_ok.mp hseal
  obtain ⟨hmem, rfl⟩ := PoWEngine.lsh_eq_ok.mp (Outcome.ofExcept_eq_ok.mp htarget)
  obtain ⟨nonce, rfl, hle⟩ := PoWEngine.mine_eq_ok hmine
  exact ⟨rfl, PoWEngine.verifyHeader_eq_ok.mpr ⟨hmem, hle⟩⟩

theorem Assembled.verifyConsensus_pow {bc : Blockchain PoWEngine S}
    (ha : Assembled P bc key txx tick b current h) : (verifyConsensus P h bc).1 = .ok () := by
  cases hc : bc.consensus with
  | none => exact verifyConsensus_none hc h
  | some pow =>
    unfold verifyConsensus
    rw [hc]
    exact (ha.verifyHeader_pow hc).2

/-- **A node's own block is valid** if its engine accepts it. -/
theorem Assembled.valid [ConsensusEngine P E] [SealingEngine P E] {bc : Blockchain E S}
    (ha : Assembled P bc key txx tick b current h) (hP : P.CorrectSignature)
    (htip : bc.TipNumbered) (hroom : bc.headers.length < 2 ^ 32)
    (htxx : ∀ tx ∈ txx, tx.verify P = .ok ()) (hcons : (verifyConsensus P h bc).1 = .ok ()) :
    (validateBlockLocked P b bc).1 = .ok () := by
  rw [validateBlockLocked_of_position ha.header (ha.position htip hroom),
    Act.bind_apply_ok (Act.eq_mk_of_fst hcons), ha.verify hP htxx]
  rfl

end Engine

/-! ### When it is accepted -/

section Accepted

variable [Storage P S] {key : PrivateKey} {txx : List Transaction} {tick : Tick} {b : Block}
  {current h : Header}

/-- What an accepted block says about the chain and the transactions. -/
theorem Assembled.of_addBlock [ConsensusEngine P E] [SealingEngine P E] {bc : Blockchain E S}
    (ha : Assembled P bc key txx tick b current h) (htip : bc.TipNumbered) {fuel : ℕ}
    (hok : (addBlock P fuel b bc).1 = .ok ()) :
    bc.headers.length < 2 ^ 32 ∧ (validateBlockLocked P b bc).1 = .ok () ∧
      (executeTransactions P fuel txx bc.worldState).1 = .ok () := by
  obtain ⟨h', c', ws, total, s, valid, executed, -⟩ := addBlock_eq_ok (Act.eq_mk_of_fst hok)
  refine ⟨(valid.extends htip.pos htip.fits).1, ?_, ?_⟩
  · rw [valid.validate]
  · rw [← ha.transactions, executed]

/-- **When a node accepts its own block.** The chain has room, the transactions execute, and no
engine is installed or one that can weigh the block. -/
theorem addBlock_assembled_iff [LawfulStorage P S] (k : ConsensusType) {bc : Blockchain k.Engine S}
    (ha : Assembled P bc key txx tick b current h) (hP : P.CorrectSignature)
    (htip : bc.TipNumbered) (htxx : ∀ tx ∈ txx, tx.verify P = .ok ()) :
    (∃ fuel, (addBlock P fuel b bc).1 = .ok ()) ↔
      bc.headers.length < 2 ^ 32 ∧
        (∃ fuel, (executeTransactions P fuel txx bc.worldState).1 = .ok ()) ∧
        ∀ e, bc.consensus = some e → bc.totalDifficulty.isSome = true ∧
          ∃ d, k.targetDifficulty e = some d ∧ d.toNat ≤ 256 := by
  -- a valid block whose transactions run is accepted if the engine can weigh it
  have hready : ∀ {fuel : ℕ}, (validateBlockLocked P b bc).1 = .ok () →
      (executeTransactions P fuel txx bc.worldState).1 = .ok () → Ready P fuel bc b h := by
    intro fuel hvalid hexec
    rw [← ha.transactions] at hexec
    exact .of_lawful ha.header hvalid hexec
  constructor
  · rintro ⟨fuel, hok⟩
    obtain ⟨hroom, hvalid, hexec⟩ := ha.of_addBlock htip hok
    refine ⟨hroom, ⟨fuel, hexec⟩, fun e he => ?_⟩
    have ready := hready hvalid hexec
    rcases (ready.appends_iff_engine k).mp (ready.addBlock_ok_iff.mp hok) with
      hnone | ⟨rfl, htotal, hdiff⟩
    · rw [hnone] at he
      exact nomatch he
    · obtain ⟨hsealed, -⟩ := Assembled.verifyHeader_pow (S := S) (P := P) ha he
      refine ⟨htotal, _, rfl, ?_⟩
      rwa [← hsealed]
  · rintro ⟨hroom, ⟨fuel, hexec⟩, hengine⟩
    refine ⟨fuel, ?_⟩
    cases hc : bc.consensus with
    | none =>
      have ready := hready (ha.valid hP htip hroom htxx (verifyConsensus_none hc h)) hexec
      exact ready.addBlock_ok_iff.mpr ((ready.appends_iff_engine k).mpr (Or.inl hc))
    | some e =>
      obtain ⟨htotal, d, hd, hdiff⟩ := hengine e hc
      cases k with
      | pos => exact nomatch hd
      | pow =>
        obtain rfl := Option.some.inj hd
        obtain ⟨hsealed, -⟩ := Assembled.verifyHeader_pow (S := S) (P := P) ha hc
        have hcons := Assembled.verifyConsensus_pow (S := S) (P := P) ha
        have ready := hready (ha.valid hP htip hroom htxx hcons) hexec
        refine ready.addBlock_ok_iff.mpr ((ready.appends_iff_engine .pow).mpr (Or.inr ?_))
        refine ⟨rfl, htotal, ?_⟩
        rwa [hsealed]

end Accepted

end Blockchain

end Blockz
