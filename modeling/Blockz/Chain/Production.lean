import Blockz.Consensus.PoS
import Blockz.Consensus.PoW

/-!
# How a node makes a block

`Server.createNewBlock`, up to its call of `AddBlock`: a block on top of the current header with the
pending transactions, prepared by the engine, given the validator's address as its coinbase, sealed
by the engine and signed. The two methods of `core.ConsensusEngine` that only production uses are in
the class `SealingEngine`. `buildBlock_spec` lists what the steps have left in a block that was
built.

Nothing on this path computes a state root. `SealingEngine` asks its instances to leave the field
alone, and `assembleBlock_stateRoot` concludes that a node's own block carries the zero hash there.
-/

namespace Blockz

open Effect

/-- What the outside contributes to one tick of the validator loop. -/
structure Tick where
  -- `time.Now().UnixNano()`
  now : Int64
  -- whether ten seconds have passed when the mining counter has reached a value
  late : UInt64 → Bool
  -- the rounds that the mining loop is given
  rounds : ℕ
  -- what `rand.Reader` yields to `ecdsa.Sign`
  rand : ℕ

/-- `Prepare` and `Seal` of `core.ConsensusEngine`. -/
class SealingEngine (P : Primitives) (E : Type) where
  prepare : E → Header → Outcome Err Header
  sealBlock : E → Tick → Header → Outcome Err Header
  stateRoot_prepare : ∀ e h h', prepare e h = .ok h' → h'.stateRoot = h.stateRoot
  stateRoot_sealBlock : ∀ e tick h h', sealBlock e tick h = .ok h' → h'.stateRoot = h.stateRoot

/-- The loop stops at the first nonce that meets the target, if it stops with one. -/
theorem PoWEngine.mine_first {P : Primitives} {late : UInt64 → Bool} {target : ℕ} {h h' : Header}
    {fuel : ℕ} {n : UInt64} (hmine : mine P late target h fuel n = .ok h') :
    ∃ nonce, h' = { h with nonce := nonce } ∧ nonce.toNat < 2 ^ 64 - 1 ∧
      (BlockHasher.hash P h').toNat ≤ target ∧
        ∀ m : UInt64, n ≤ m → m < nonce →
          ¬ (BlockHasher.hash P { h with nonce := m }).toNat ≤ target := by
  induction fuel generalizing n with
  | zero => exact absurd hmine (by simp [mine])
  | succ fuel ih =>
    unfold mine at hmine
    split at hmine
    case isFalse => exact absurd hmine (by simp)
    case isTrue hlt =>
      have hbound : n.toNat < 2 ^ 64 - 1 := UInt64.lt_iff_toNat_lt.mp hlt
      split at hmine
      case isTrue hmeets =>
        obtain rfl := Outcome.ok.inj hmine
        exact ⟨n, rfl, hbound, hmeets, fun m hle hm => absurd hm (UInt64.not_lt.mpr hle)⟩
      case isFalse hmisses =>
        split at hmine
        case isTrue => exact absurd hmine (by simp)
        case isFalse =>
          obtain ⟨nonce, hh, hsmall, hmeets, hfirst⟩ := ih hmine
          refine ⟨nonce, hh, hsmall, hmeets, fun m hle hm => ?_⟩
          -- it is the nonce that has just been tried, or one that was tried later
          rcases eq_or_ne m n with rfl | hne
          · exact hmisses
          · refine hfirst m ?_ hm
            have hnat : m.toNat ≠ n.toNat := fun heq => hne (UInt64.toNat_inj.mp heq)
            rw [UInt64.le_iff_toNat_le] at hle ⊢
            rw [UInt64.toNat_add]
            have hone : (1 : UInt64).toNat = 1 := rfl
            rw [hone]
            omega

/-- Mining writes the nonce. -/
theorem PoWEngine.mine_eq_ok {P : Primitives} {late : UInt64 → Bool} {target : ℕ} {h h' : Header}
    {fuel : ℕ} {n : UInt64} (hmine : mine P late target h fuel n = .ok h') :
    ∃ nonce, h' = { h with nonce := nonce } ∧ (BlockHasher.hash P h').toNat ≤ target := by
  obtain ⟨nonce, hh, -, hle, -⟩ := mine_first hmine
  exact ⟨nonce, hh, hle⟩

instance (P : Primitives) : SealingEngine P PoWEngine where
  prepare pow h := .ok (pow.prepare h)
  sealBlock pow tick h := pow.sealBlock P tick.late tick.rounds h
  stateRoot_prepare pow h h' hprep := by
    obtain rfl := Outcome.ok.inj hprep
    rfl
  stateRoot_sealBlock pow tick h h' hseal := by
    obtain ⟨target, -, hmine⟩ := Outcome.bind_eq_ok.mp hseal
    obtain ⟨nonce, rfl, -⟩ := PoWEngine.mine_eq_ok hmine
    rfl

instance (P : Primitives) : SealingEngine P PoSEngine where
  prepare pos h := pos.prepare h
  sealBlock _ _ h := PoSEngine.sealBlock h
  stateRoot_prepare pos h h' hprep := by
    obtain ⟨proposer, -, hh⟩ := Outcome.bind_eq_ok.mp hprep
    obtain rfl := Outcome.ok.inj hh
    rfl
  stateRoot_sealBlock _ _ h h' hseal := by
    obtain rfl := Outcome.ok.inj hseal
    rfl

namespace Blockchain

variable {E S : Type} (P : Primitives) [SealingEngine P E]

/-- A step of the engine, if one is installed. -/
def withEngine (bc : Blockchain E S) (f : E → Header → Outcome Err Header) (h : Header) :
    Outcome Err Header :=
  match bc.consensus with
  | none => .ok h
  | some e => f e h

/-- `Server.createNewBlock`, from the reading of the current header to the call of `AddBlock`. -/
def buildBlock (bc : Blockchain E S) (key : PrivateKey) (currentHeader : Header)
    (txx : List Transaction) (tick : Tick) : Outcome Err Block := do
  let block ← newBlockFromPrevHeader P currentHeader txx tick.now
  let header ← Outcome.deref block.header
  let header ← bc.withEngine (SealingEngine.prepare P) header
  let coinbase ← key.publicKey.address P
  let header ← bc.withEngine (fun e => SealingEngine.sealBlock P e tick)
    { header with coinbase := coinbase }
  { block with header := some header }.sign P key tick.rand

/-- `Server.createNewBlock`, up to the call of `AddBlock`. -/
def assembleBlock (bc : Blockchain E S) (key : PrivateKey) (txx : List Transaction) (tick : Tick) :
    Outcome Err Block := do
  let currentHeader ← bc.getHeaderLocked bc.heightLocked
  bc.buildBlock P key currentHeader txx tick

variable {P}

/-- How a block was built on the header `current`: its header as `NewBlockFromPrevHeader` has made
it, as the engine has prepared it, and as the engine has sealed it. -/
structure Built (P : Primitives) [SealingEngine P E] (bc : Blockchain E S) (key : PrivateKey)
    (current : Header) (txx : List Transaction) (tick : Tick) (b : Block)
    (h₁ h₂ h : Header) : Prop where
  height : h₁.height = current.height + 1
  prevBlockHash : h₁.prevBlockHash = BlockHasher.hash P current
  dataHash : calculateDataHash P txx [] = .ok h₁.dataHash
  stateRoot : h₁.stateRoot = Hash.zero
  prepared : bc.withEngine (SealingEngine.prepare P) h₁ = .ok h₂
  sealed : ∃ coinbase, bc.withEngine (fun e => SealingEngine.sealBlock P e tick)
    { h₂ with coinbase := coinbase } = .ok h
  signed : ∃ sig, key.sign P (h.bytes P) tick.rand = .ok sig ∧
    b = { newBlock h txx with validator := key.publicKey, signature := some sig }

theorem buildBlock_spec {bc : Blockchain E S} {key : PrivateKey} {currentHeader : Header}
    {txx : List Transaction} {tick : Tick} {b : Block}
    (hok : buildBlock P bc key currentHeader txx tick = .ok b) :
    ∃ h₁ h₂ h, Built P bc key currentHeader txx tick b h₁ h₂ h := by
  obtain ⟨block, hblock, hok⟩ := Outcome.bind_eq_ok.mp hok
  obtain ⟨h₁, hh₁, hok⟩ := Outcome.bind_eq_ok.mp hok
  obtain ⟨h₂, hprepare, hok⟩ := Outcome.bind_eq_ok.mp hok
  obtain ⟨coinbase, -, hok⟩ := Outcome.bind_eq_ok.mp hok
  obtain ⟨h₃, hseal, hsign⟩ := Outcome.bind_eq_ok.mp hok
  -- the block before and after it is signed
  obtain ⟨dataHash, hdata, hnew⟩ := Outcome.bind_eq_ok.mp hblock
  obtain rfl := Outcome.ok.inj hnew
  obtain rfl := Option.some.inj (Outcome.deref_eq_ok.mp hh₁)
  obtain ⟨h₄, hh₄, hsign⟩ := Outcome.bind_eq_ok.mp hsign
  obtain rfl := Option.some.inj (Outcome.deref_eq_ok.mp hh₄)
  obtain ⟨sig, hsig, hb⟩ := Outcome.bind_eq_ok.mp hsign
  obtain rfl := Outcome.ok.inj hb
  exact ⟨_, h₂, h₃, rfl, rfl, hdata, rfl, hprepare, ⟨coinbase, hseal⟩, ⟨sig, hsig, rfl⟩⟩

/-- The block has the transactions that it was made of. -/
theorem buildBlock_transactions {bc : Blockchain E S} {key : PrivateKey} {currentHeader : Header}
    {txx : List Transaction} {tick : Tick} {b : Block}
    (hok : buildBlock P bc key currentHeader txx tick = .ok b) : b.transactions = txx := by
  obtain ⟨h₁, h₂, h, hbuilt⟩ := buildBlock_spec hok
  obtain ⟨sig, -, rfl⟩ := hbuilt.signed
  rfl

omit [SealingEngine P E] in
theorem withEngine_stateRoot {bc : Blockchain E S} {f : E → Header → Outcome Err Header}
    (hf : ∀ e h h', f e h = .ok h' → h'.stateRoot = h.stateRoot) {h h' : Header}
    (hok : bc.withEngine f h = .ok h') : h'.stateRoot = h.stateRoot := by
  unfold withEngine at hok
  split at hok
  · rw [Outcome.ok.inj hok]
  · exact hf _ h h' hok

/-- **A node's own block commits to nothing.** -/
theorem assembleBlock_stateRoot {bc : Blockchain E S} {key : PrivateKey} {txx : List Transaction}
    {tick : Tick} {b : Block} (hok : assembleBlock P bc key txx tick = .ok b) :
    ∃ h, b.header = some h ∧ h.stateRoot = Hash.zero := by
  obtain ⟨current, -, hbuild⟩ := Outcome.bind_eq_ok.mp hok
  obtain ⟨h₁, h₂, h, hbuilt⟩ := buildBlock_spec hbuild
  obtain ⟨coinbase, hsealed⟩ := hbuilt.sealed
  obtain ⟨sig, -, rfl⟩ := hbuilt.signed
  have hseal := withEngine_stateRoot (fun e => SealingEngine.stateRoot_sealBlock e tick) hsealed
  have hprepare := withEngine_stateRoot SealingEngine.stateRoot_prepare hbuilt.prepared
  refine ⟨h, rfl, ?_⟩
  calc h.stateRoot
      = h₂.stateRoot := hseal
    _ = h₁.stateRoot := hprepare
    _ = Hash.zero := hbuilt.stateRoot

end Blockchain

end Blockz
