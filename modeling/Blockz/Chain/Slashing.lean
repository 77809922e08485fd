import Blockz.Chain.Authenticity
import Blockz.Chain.Supply
import Blockz.Consensus.Membership

/-!
# Whom the evidence punishes

`AddBlock` slashes the producer of every header in the evidence of a block, one header at a time.
It does not look for a second header, does not compare heights or hashes, and does not remember
whom it has punished: a validator loses half of its stake for each header that names it. Nor can it
tell whether the validator has made the header, since a header carries no signature of its own. So
the runs here keep a record of the calls of `Block.Sign`, and an offence is one of that record.

* `PoSEngine.stake_slashAll`, `PoSEngine.mem_activeSet_slashAll` — what the loop over the evidence
  does to a stake and to the active set.
* `punished_iff` — a call punishes exactly those whom its evidence names and who have something to
  lose. That the evidence convicts them is not part of it.
* `offences` — the heights at which a validator has signed two headers that are in the evidence.
* `slashing_sound_of_run` — in a run whose evidence is proportionate (`Proportionate`), nobody is
  punished without an offence, and nobody more than once for an offence.
-/

namespace Blockz

open Effect

namespace PoSEngine

/-! ### Stakes and seats -/

/-- What an address has staked; nothing, when it is not registered. -/
def stake (pos : PoSEngine) (v : Address) : ℕ := ((pos.validators.lookup v).getD 0).toNat

/-- The loop over the evidence. -/
def slashAll (evidence : List Header) (pos : PoSEngine) : PoSEngine :=
  evidence.foldl (fun e h => slash h.coinbase e) pos

theorem stake_slash (a v : Address) (pos : PoSEngine) :
    (slash a pos).stake v = if v = a then pos.stake v / 2 else pos.stake v := by
  unfold stake
  rw [lookup_validators_slash]
  by_cases hv : v = a
  · subst hv
    rw [if_pos rfl, if_pos rfl]
    cases pos.validators.lookup v with
    | none => rfl
    | some s => exact UInt64.toNat_div s 2
  · rw [if_neg hv, if_neg hv]

/-- **A stake is halved once for each header that names its owner.** -/
theorem stake_slashAll (evidence : List Header) (v : Address) (pos : PoSEngine) :
    (slashAll evidence pos).stake v =
      pos.stake v / 2 ^ evidence.countP (fun h => h.coinbase = v) := by
  induction evidence generalizing pos with
  | nil => exact (Nat.div_one _).symm
  | cons h evidence ih =>
    have hcons : slashAll (h :: evidence) pos = slashAll evidence (slash h.coinbase pos) := rfl
    rw [hcons, ih, stake_slash, List.countP_cons]
    by_cases hv : v = h.coinbase
    · rw [if_pos hv, if_pos (decide_eq_true hv.symm), Nat.div_div_eq_div_mul, pow_succ']
    · rw [if_neg hv, if_neg fun heq => hv (of_decide_eq_true heq).symm, Nat.add_zero]

theorem mem_activeSet_slashAll (evidence : List Header) (v : Address) (pos : PoSEngine) :
    v ∈ (slashAll evidence pos).activeSet ↔
      v ∈ pos.activeSet ∧ ((∃ h ∈ evidence, h.coinbase = v) → v ∉ pos.validators) := by
  induction evidence generalizing pos with
  | nil =>
    refine ⟨fun hv => ⟨hv, ?_⟩, fun hv => hv.1⟩
    rintro ⟨h, hmem, -⟩
    exact absurd hmem List.not_mem_nil
  | cons h evidence ih =>
    have hcons : slashAll (h :: evidence) pos = slashAll evidence (slash h.coinbase pos) := rfl
    rw [hcons, ih, mem_activeSet_slash, mem_validators_slash, and_assoc]
    refine and_congr_right fun _ => ⟨?_, fun himp => ⟨?_, ?_⟩⟩
    · rintro ⟨hhead, htail⟩ ⟨x, hx, rfl⟩
      rcases List.mem_cons.mp hx with rfl | hx
      · exact hhead rfl
      · exact htail ⟨x, hx, rfl⟩
    · rintro rfl
      exact himp ⟨h, List.mem_cons_self, rfl⟩
    · rintro ⟨x, hx, rfl⟩
      exact himp ⟨x, List.mem_cons_of_mem _ hx, rfl⟩

/-! ### Punishment -/

/-- The address has a stake, or a seat that `Slash` takes away. -/
def AtStake (pos : PoSEngine) (v : Address) : Prop :=
  0 < pos.stake v ∨ v ∈ pos.activeSet ∧ v ∈ pos.validators

/-- The stake was reduced, or the address was removed from the active set. -/
def Punished (pos pos' : PoSEngine) (v : Address) : Prop :=
  pos'.stake v < pos.stake v ∨ v ∈ pos.activeSet ∧ v ∉ pos'.activeSet

theorem SameStakes.stake_eq {pos pos' : PoSEngine} (h : SameStakes pos pos') (v : Address) :
    pos'.stake v = pos.stake v := by
  unfold stake
  rw [h.validators]

theorem SameStakes.not_punished {pos pos' : PoSEngine} (h : SameStakes pos pos') (v : Address) :
    ¬ Punished pos pos' v := by
  rintro (hlt | ⟨hmem, hnot⟩)
  · rw [h.stake_eq] at hlt
    exact absurd hlt (lt_irrefl _)
  · rw [h.activeSet] at hnot
    exact hnot hmem

/-- The loop punishes those whom the evidence names and who have something to lose. -/
theorem punished_slashAll_iff {pos pos₁ : PoSEngine} (hsame : SameStakes pos pos₁)
    (evidence : List Header) (v : Address) :
    Punished pos (slashAll evidence pos₁) v ↔
      (∃ h ∈ evidence, h.coinbase = v) ∧ AtStake pos v := by
  have hnamed : 0 < evidence.countP (fun h => h.coinbase = v) ↔ ∃ h ∈ evidence, h.coinbase = v := by
    rw [List.countP_pos_iff]
    simp only [decide_eq_true_iff]
  unfold Punished AtStake
  rw [stake_slashAll, mem_activeSet_slashAll, hsame.stake_eq, hsame.activeSet, hsame.validators,
    ← hnamed]
  constructor
  · rintro (hlt | ⟨hseat, hgone⟩)
    · -- something was divided, and not by one
      refine ⟨?_, Or.inl (Nat.zero_lt_of_lt hlt)⟩
      rw [Nat.pos_iff_ne_zero]
      intro hzero
      rw [hzero, pow_zero, Nat.div_one] at hlt
      exact absurd hlt (lt_irrefl _)
    · rw [not_and, Classical.not_imp, not_not] at hgone
      obtain ⟨hcount, hreg⟩ := hgone hseat
      exact ⟨hcount, Or.inr ⟨hseat, hreg⟩⟩
  · rintro ⟨hcount, hstake | ⟨hseat, hreg⟩⟩
    · exact Or.inl (Nat.div_lt_self hstake (Nat.one_lt_two_pow hcount.ne'))
    · exact Or.inr ⟨hseat, fun hkept => hkept.2 hcount hreg⟩

end PoSEngine

namespace Blockchain

open PoSEngine

variable {S : Type} {P : Primitives} [Storage P S]

/-- The call comes to the evidence: the block is valid, and its transactions have run. -/
def Reaches (P : Primitives) (fuel : ℕ) (bc : Blockchain PoSEngine S) (b : Block) : Prop :=
  (validateBlockLocked P b bc).1 = .ok () ∧
    (executeTransactions P fuel b.transactions bc.worldState).1 = .ok ()

/-- **The engine over one call of `AddBlock`.** -/
theorem addBlock_engine {bc bc' : Blockchain PoSEngine S} {pos : PoSEngine} {fuel : ℕ} {b : Block}
    {o : Outcome Err Unit} (hcall : addBlock P fuel b bc = (o, bc'))
    (hengine : bc.consensus = some pos) :
    ∃ pos₁, SameStakes pos pos₁ ∧
      ((Reaches P fuel bc b ∧ bc'.consensus = some (slashAll b.evidence pos₁)) ∨
        (¬ Reaches P fuel bc b ∧ bc'.consensus = some pos₁)) := by
  have hvalid : ∀ {h : Header} {c' : Option PoSEngine}, Valid P bc b h c' →
      ∃ pos₁, c' = some pos₁ ∧ SameStakes pos pos₁ := by
    intro h c' valid
    obtain ⟨pos₁, rfl, hverify⟩ := valid.consensus_of_some hengine
    exact ⟨pos₁, rfl, .of_verifyHeader hverify⟩
  have hreached : ∀ {h : Header} {c' : Option PoSEngine} {ws : WorldState}, Valid P bc b h c' →
      executeTransactions P fuel b.transactions bc.worldState = (.ok (), ws) →
      Reaches P fuel bc b := by
    intro h c' ws valid executed
    exact ⟨by rw [valid.validate], by rw [executed]⟩
  cases AddStep.of_call hcall with
  | @invalid _ c' refused stop =>
    have hrel : Option.Rel SameStakes bc.consensus (validateBlockLocked P b bc).2.consensus :=
      validateBlockLocked_engine verifyHeader_moves b bc
    rw [refused, hengine] at hrel
    change Option.Rel SameStakes (some pos) c' at hrel
    cases hrel with
    | some hsame =>
      -- a refused block may still have been recorded by the check of its header
      refine ⟨_, hsame, Or.inr ⟨fun hreach => ?_, rfl⟩⟩
      have haccepted := hreach.1
      rw [refused] at haccepted
      exact stop () haccepted
  | aborted valid executed stop =>
    obtain ⟨pos₁, rfl, hsame⟩ := hvalid valid
    refine ⟨pos₁, hsame, Or.inr ⟨fun hreach => ?_, rfl⟩⟩
    have hran := hreach.2
    rw [executed] at hran
    exact stop () hran
  -- slashing comes before the weight, so a call that crashes there has slashed
  | crashed valid executed _ =>
    obtain ⟨pos₁, rfl, hsame⟩ := hvalid valid
    exact ⟨pos₁, hsame, Or.inl ⟨hreached valid executed, rfl⟩⟩
  | appended valid executed _ _ =>
    obtain ⟨pos₁, rfl, hsame⟩ := hvalid valid
    exact ⟨pos₁, hsame, Or.inl ⟨hreached valid executed, rfl⟩⟩

/-- **Whom a call punishes.** Whoever has something to lose and is named in evidence that the call
comes to. One header is enough, whatever its height and hash are. -/
theorem punished_iff {bc bc' : Blockchain PoSEngine S} {pos : PoSEngine} {fuel : ℕ} {b : Block}
    {o : Outcome Err Unit} (hcall : addBlock P fuel b bc = (o, bc'))
    (hengine : bc.consensus = some pos) :
    ∃ pos', bc'.consensus = some pos' ∧ ∀ v, Punished pos pos' v ↔
      Reaches P fuel bc b ∧ (∃ h ∈ b.evidence, h.coinbase = v) ∧ AtStake pos v := by
  obtain ⟨pos₁, hsame, ⟨hreach, hpos'⟩ | ⟨hnot, hpos'⟩⟩ := addBlock_engine hcall hengine
  · refine ⟨_, hpos', fun v => ?_⟩
    rw [punished_slashAll_iff hsame]
    exact (and_iff_right hreach).symm
  · refine ⟨_, hpos', fun v => ?_⟩
    exact iff_of_false (hsame.not_punished v) fun h => hnot h.1

/-! ### Convictions -/

/-- The headers of the evidence that name `v` and that `v` has signed. -/
def ownHeaders (signed : List (Address × Header)) (evidence : List Header) (v : Address) :
    List Header :=
  evidence.filter fun h => h.coinbase = v ∧ (v, h) ∈ signed

/-- The heights at which the evidence holds two headers of `v` with different hashes, both of which
`v` has signed. -/
def offences (P : Primitives) (signed : List (Address × Header)) (evidence : List Header)
    (v : Address) : Finset UInt32 :=
  (((ownHeaders signed evidence v).filter fun h₁ => ∃ h₂ ∈ ownHeaders signed evidence v,
    h₂.height = h₁.height ∧ BlockHasher.hash P h₂ ≠ BlockHasher.hash P h₁).map
      Header.height).toFinset

/-- Whatever `v` has signed for a height has one hash. -/
def SignedOnce (P : Primitives) (signed : List (Address × Header)) (v : Address) : Prop :=
  ∀ h₁ h₂, (v, h₁) ∈ signed → (v, h₂) ∈ signed → h₁.height = h₂.height →
    BlockHasher.hash P h₁ = BlockHasher.hash P h₂

section Offences

variable {signed signed' : List (Address × Header)} {evidence : List Header} {v : Address}

theorem mem_ownHeaders {h : Header} :
    h ∈ ownHeaders signed evidence v ↔ h ∈ evidence ∧ h.coinbase = v ∧ (v, h) ∈ signed := by
  unfold ownHeaders
  rw [List.mem_filter, decide_eq_true_iff]

theorem mem_offences {height : UInt32} :
    height ∈ offences P signed evidence v ↔ ∃ h₁ ∈ ownHeaders signed evidence v,
      ∃ h₂ ∈ ownHeaders signed evidence v, h₁.height = height ∧ h₂.height = height ∧
        BlockHasher.hash P h₂ ≠ BlockHasher.hash P h₁ := by
  unfold offences
  simp only [List.mem_toFinset, List.mem_map, List.mem_filter, decide_eq_true_iff]
  constructor
  · rintro ⟨h₁, ⟨hmem₁, h₂, hmem₂, hheight, hne⟩, rfl⟩
    exact ⟨h₁, hmem₁, h₂, hmem₂, rfl, hheight, hne⟩
  · rintro ⟨h₁, hmem₁, h₂, hmem₂, rfl, hheight, hne⟩
    exact ⟨h₁, ⟨hmem₁, h₂, hmem₂, hheight, hne⟩, rfl⟩

/-- What has been an offence stays one when more is signed. -/
theorem offences_mono (hsigned : signed ⊆ signed') :
    offences P signed evidence v ⊆ offences P signed' evidence v := by
  have hown : ∀ {h}, h ∈ ownHeaders signed evidence v → h ∈ ownHeaders signed' evidence v := by
    intro h hmem
    obtain ⟨hevidence, hv, hby⟩ := mem_ownHeaders.mp hmem
    exact mem_ownHeaders.mpr ⟨hevidence, hv, hsigned hby⟩
  intro height hheight
  obtain ⟨h₁, hmem₁, h₂, hmem₂, hrest⟩ := mem_offences.mp hheight
  exact mem_offences.mpr ⟨h₁, hown hmem₁, h₂, hown hmem₂, hrest⟩

/-- Nobody who signs once for a height has committed an offence. -/
theorem SignedOnce.offences_eq_empty (honce : SignedOnce P signed v) (evidence : List Header) :
    offences P signed evidence v = ∅ := by
  refine Finset.eq_empty_of_forall_notMem fun height hheight => ?_
  obtain ⟨h₁, hmem₁, h₂, hmem₂, hh₁, hh₂, hne⟩ := mem_offences.mp hheight
  have hby₁ := (mem_ownHeaders.mp hmem₁).2.2
  have hby₂ := (mem_ownHeaders.mp hmem₂).2.2
  exact hne (honce h₂ h₁ hby₂ hby₁ (hh₂.trans hh₁.symm))

/-- Evidence that convicts names the culprit more often than it proves offences. -/
theorem card_offences_lt (hsome : (offences P signed evidence v).Nonempty) :
    (offences P signed evidence v).card < evidence.countP (fun h => h.coinbase = v) := by
  set own := ownHeaders signed evidence v with hown
  have hsub : offences P signed evidence v ⊆ (own.map Header.height).toFinset := by
    intro height hheight
    obtain ⟨h₁, hmem₁, -, -, rfl, -, -⟩ := mem_offences.mp hheight
    exact List.mem_toFinset.mpr (List.mem_map_of_mem hmem₁)
  -- two of the headers that `v` has signed have the same height
  obtain ⟨height, hheight⟩ := hsome
  obtain ⟨h₁, hmem₁, h₂, hmem₂, hh₁, hh₂, hne⟩ := mem_offences.mp hheight
  have hdup : ¬ (own.map Header.height).Nodup := by
    intro hnodup
    have heq := List.inj_on_of_nodup_map hnodup hmem₁ hmem₂ (hh₁.trans hh₂.symm)
    exact hne (by rw [heq])
  have hlt : (own.map Header.height).toFinset.card < own.length := by
    have hlen : (own.map Header.height).length = own.length := List.length_map _
    rw [← hlen]
    refine lt_of_le_of_ne (List.toFinset_card_le _) fun hcard => hdup ?_
    exact Multiset.toFinset_card_eq_card_iff_nodup.mp hcard
  have hnamed : own.length ≤ evidence.countP (fun h => h.coinbase = v) := by
    rw [hown, ownHeaders, ← List.countP_eq_length_filter]
    refine List.countP_mono_left fun h _ hh => ?_
    exact decide_eq_true (of_decide_eq_true hh).1
  calc (offences P signed evidence v).card
      ≤ (own.map Header.height).toFinset.card := Finset.card_le_card hsub
    _ < own.length := hlt
    _ ≤ evidence.countP (fun h => h.coinbase = v) := hnamed

end Offences

/-! ### Soundness -/

/-- Punished only with a conviction, and not more than once for an offence. -/
structure SoundlyPunished (P : Primitives) (signed : List (Address × Header))
    (evidence : List Header) (pos pos' : PoSEngine) (v : Address) : Prop where
  convicted : Punished pos pos' v → (offences P signed evidence v).Nonempty
  once : pos.stake v / 2 ^ (offences P signed evidence v).card ≤ pos'.stake v

/-- Everybody with something to lose whom the evidence names is convicted by it, and has a stake so
small that being halved once for each offence uses it up. -/
def Proportionate (P : Primitives) (signed : List (Address × Header)) (evidence : List Header)
    (pos : PoSEngine) : Prop :=
  ∀ v, (∃ h ∈ evidence, h.coinbase = v) → AtStake pos v →
    (offences P signed evidence v).Nonempty ∧
      pos.stake v < 2 ^ (offences P signed evidence v).card

/-- **When a call punishes soundly.** The evidence names a convicted validator at least twice for an
offence, so its stake is halved too often unless nothing is left of it anyway. -/
theorem soundlyPunished_iff {bc bc' : Blockchain PoSEngine S} {pos : PoSEngine} {fuel : ℕ}
    {b : Block} {o : Outcome Err Unit} (signed : List (Address × Header))
    (hcall : addBlock P fuel b bc = (o, bc')) (hengine : bc.consensus = some pos) :
    ∃ pos', bc'.consensus = some pos' ∧
      ((∀ v, SoundlyPunished P signed b.evidence pos pos' v) ↔
        (Reaches P fuel bc b → Proportionate P signed b.evidence pos)) := by
  obtain ⟨pos₁, hsame, ⟨hreach, hpos'⟩ | ⟨hnot, hpos'⟩⟩ := addBlock_engine hcall hengine
  · refine ⟨_, hpos', ⟨fun hsound _ v hnamed hstake => ?_, fun hprop v => ?_⟩⟩
    · have hsome := (hsound v).convicted ((punished_slashAll_iff hsame _ v).mpr ⟨hnamed, hstake⟩)
      refine ⟨hsome, ?_⟩
      -- the stake was divided by more than the offences allow, so the bound is zero
      have hlt := card_offences_lt hsome
      have honce := (hsound v).once
      rw [stake_slashAll, hsame.stake_eq] at honce
      obtain ⟨n, hn⟩ := Nat.exists_eq_add_of_lt hlt
      -- the halvings that come on top of the offences
      rw [hn, Nat.add_assoc, pow_add, ← Nat.div_div_eq_div_mul] at honce
      by_contra hge
      have hpos : 0 < pos.stake v / 2 ^ (offences P signed b.evidence v).card :=
        Nat.div_pos (not_lt.mp hge) (Nat.two_pow_pos _)
      have hself := Nat.div_lt_self hpos (Nat.one_lt_two_pow n.succ_ne_zero)
      exact absurd honce (not_le.mpr hself)
    · -- a small stake is used up by its offences alone, so no halving is one too many
      have hiff := punished_slashAll_iff hsame b.evidence v
      by_cases hpunished : Punished pos (slashAll b.evidence pos₁) v
      · obtain ⟨hnamed, hstake⟩ := hiff.mp hpunished
        obtain ⟨hsome, hlt⟩ := hprop hreach v hnamed hstake
        refine ⟨fun _ => hsome, ?_⟩
        rw [Nat.div_eq_of_lt hlt]
        exact Nat.zero_le _
      · refine ⟨fun h => absurd h hpunished, ?_⟩
        exact (Nat.div_le_self _ _).trans (not_lt.mp fun hlt => hpunished (Or.inl hlt))
  · -- the call did not come to the evidence
    refine ⟨_, hpos', iff_of_true (fun v => ?_) fun hreach => absurd hreach hnot⟩
    refine ⟨fun h => absurd h (hsame.not_punished v), ?_⟩
    rw [hsame.stake_eq]
    exact Nat.div_le_self _ _

/-! ### Runs -/

/-- A chain, and who has signed which headers so far, on whatever node. -/
structure Watched (S : Type) where
  chain : Blockchain PoSEngine S
  -- the address of the key, and the header
  signed : List (Address × Header)

/-- What happens in a run. -/
inductive Deed
  -- somebody calls `b.Sign(key)`
  | sign (key : PrivateKey) (b : Block)
  -- the node calls `AddBlock`
  | addBlock (b : Block)
  deriving DecidableEq

/-- The evidence that a call is given. -/
def Deed.evidence : Deed → List Header
  | .sign _ _ => []
  | .addBlock b => b.evidence

/-- A step of a run. A call of `AddBlock`, however it ends, does not come to its evidence, or its
evidence is proportionate to what has been signed before. -/
inductive Judged (P : Primitives) [Storage P S] (w : Watched S) :
    Deed → Outcome Err Unit → Watched S → Prop
  | sign {key : PrivateKey} {b b' : Block} {h : Header} {signer : Address} {rand : ℕ}
      (header : b.header = some h) (address : key.publicKey.address P = .ok signer)
      (call : b.sign P key rand = .ok b') :
      Judged P w (.sign key b) (.ok ()) { w with signed := (signer, h) :: w.signed }
  | addBlock {b : Block} {o : Outcome Err Unit} {bc' : Blockchain PoSEngine S} {fuel : ℕ}
      (call : Blockchain.addBlock P fuel b w.chain = (o, bc'))
      (evidence : Reaches P fuel w.chain b → ∀ pos, w.chain.consensus = some pos →
        Proportionate P w.signed b.evidence pos) :
      Judged P w (.addBlock b) o { w with chain := bc' }

/-- The offences of `v` that the evidence of a run proves. -/
def offencesOf (P : Primitives) (signed : List (Address × Header))
    (es : List (Deed × Outcome Err Unit)) (v : Address) : Finset UInt32 :=
  es.toFinset.biUnion fun e => offences P signed e.1.evidence v

section Runs

variable {w w' : Watched S} {pos₀ : PoSEngine} {es : List (Deed × Outcome Err Unit)} {deed : Deed}
  {o : Outcome Err Unit}

theorem offences_subset_offencesOf (signed : List (Address × Header)) (deed : Deed)
    (o : Outcome Err Unit) (v : Address) :
    offences P signed deed.evidence v ⊆ offencesOf P signed (es ++ [(deed, o)]) v := by
  have hmem : (deed, o) ∈ (es ++ [(deed, o)]).toFinset :=
    List.mem_toFinset.mpr (List.mem_append_right _ (List.mem_singleton_self _))
  have hsub := Finset.subset_biUnion_of_mem
    (fun e : Deed × Outcome Err Unit => offences P signed e.1.evidence v) hmem
  exact hsub

theorem offencesOf_mono {signed signed' : List (Address × Header)} (hsigned : signed ⊆ signed')
    (deed : Deed) (o : Outcome Err Unit) (v : Address) :
    offencesOf P signed es v ⊆ offencesOf P signed' (es ++ [(deed, o)]) v := by
  unfold offencesOf
  refine Finset.biUnion_subset.mpr fun e he => ?_
  have hlater : e ∈ (es ++ [(deed, o)]).toFinset :=
    List.mem_toFinset.mpr (List.mem_append_left _ (List.mem_toFinset.mp he))
  exact (offences_mono hsigned).trans (Finset.subset_biUnion_of_mem
    (fun e : Deed × Outcome Err Unit => offences P signed' e.1.evidence v) hlater)

theorem Judged.signed_subset (hstep : Judged P w deed o w') :
    w.signed ⊆ w'.signed := by
  cases hstep with
  | sign _ _ _ => exact List.subset_cons_self _ _
  | addBlock _ _ => exact List.Subset.refl _

/-- One step punishes soundly. A stake that falls was smaller than the offences allow. -/
theorem Judged.sound {pos : PoSEngine} (hstep : Judged P w deed o w')
    (hengine : w.chain.consensus = some pos) :
    ∃ pos', w'.chain.consensus = some pos' ∧
      ∀ v, SoundlyPunished P w.signed deed.evidence pos pos' v ∧
        (pos.stake v ≤ pos'.stake v ∨
          pos.stake v < 2 ^ (offences P w.signed deed.evidence v).card) := by
  cases hstep with
  | sign _ _ _ =>
    -- nothing happens to the engine
    refine ⟨pos, hengine, fun v => ⟨⟨?_, Nat.div_le_self _ _⟩, Or.inl le_rfl⟩⟩
    rintro (hlt | ⟨hmem, hnot⟩)
    · exact absurd hlt (lt_irrefl _)
    · exact absurd hmem hnot
  | @addBlock b _ bc' fuel call hprop =>
    obtain ⟨pos', hpos', hsound⟩ := soundlyPunished_iff w.signed call hengine
    obtain ⟨pos'', hpos'', hpunished⟩ := punished_iff call hengine
    obtain rfl : pos' = pos'' := Option.some.inj (hpos'.symm.trans hpos'')
    refine ⟨pos', hpos', fun v => ⟨hsound.mpr (fun hreach => hprop hreach pos hengine) v, ?_⟩⟩
    rcases Nat.lt_or_ge (pos'.stake v) (pos.stake v) with hlt | hge
    · obtain ⟨hreach, hnamed, hstake⟩ := (hpunished v).mp (Or.inl hlt)
      exact Or.inr (hprop hreach pos hengine v hnamed hstake).2
    · exact Or.inl hge

/-- A stake is as large as at the start, or the offences proved since then allow it to be used
up. -/
def Accountable (P : Primitives) (pos₀ : PoSEngine) (es : List (Deed × Outcome Err Unit))
    (w : Watched S) : Prop :=
  ∃ pos, w.chain.consensus = some pos ∧ ∀ v, pos₀.stake v ≤ pos.stake v ∨
    pos₀.stake v < 2 ^ (offencesOf P w.signed es v).card

theorem Judged.accountable (hstep : Judged P w deed o w') (hw : Accountable P pos₀ es w) :
    Accountable P pos₀ (es ++ [(deed, o)]) w' := by
  obtain ⟨pos, hpos, hkept⟩ := hw
  obtain ⟨pos', hpos', hsound⟩ := hstep.sound hpos
  refine ⟨pos', hpos', fun v => ?_⟩
  have hpast : (offencesOf P w.signed es v).card ≤
      (offencesOf P w'.signed (es ++ [(deed, o)]) v).card :=
    Finset.card_le_card (offencesOf_mono hstep.signed_subset deed o v)
  have hnew : (offences P w.signed deed.evidence v).card ≤
      (offencesOf P w'.signed (es ++ [(deed, o)]) v).card :=
    Finset.card_le_card ((offences_mono hstep.signed_subset).trans
      (offences_subset_offencesOf w'.signed deed o v))
  rcases hkept v with hle | hlt
  · rcases (hsound v).2 with hle' | hlt
    · exact Or.inl (hle.trans hle')
    · refine Or.inr (lt_of_le_of_lt hle (lt_of_lt_of_le hlt ?_))
      exact Nat.pow_le_pow_right Nat.two_pos hnew
  · exact Or.inr (lt_of_lt_of_le hlt (Nat.pow_le_pow_right Nat.two_pos hpast))

end Runs

/-- **When slashing is sound.** In a run whose evidence is proportionate, every call punishes only
those who have signed two headers of one height that are in its own evidence, hence nobody who has
signed once for each height, and over the whole run nobody's stake is halved more than once for an
offence. `CheckSlashing` reports a pair of headers with different hashes only for one height and one
producer, who has committed an offence if it has signed them. -/
theorem slashing_sound_of_run {w₀ w w' : Watched S} {pos₀ : PoSEngine}
    {es : List (Deed × Outcome Err Unit)} {b : Block} {o : Outcome Err Unit}
    (hrun : History (Judged P) w₀ es w) (hcall : Judged P w (.addBlock b) o w')
    (hengine : w₀.chain.consensus = some pos₀) :
    (∃ pos pos', w.chain.consensus = some pos ∧ w'.chain.consensus = some pos' ∧
      ∀ v, (Punished pos pos' v → (offences P w.signed b.evidence v).Nonempty) ∧
        (SignedOnce P w.signed v → ¬ Punished pos pos' v) ∧
        pos₀.stake v / 2 ^ (offencesOf P w'.signed (es ++ [(.addBlock b, o)]) v).card ≤
          pos'.stake v) ∧
      ∀ h₁ h₂ a, BlockHasher.hash P h₁ ≠ BlockHasher.hash P h₂ →
        checkSlashing h₁ h₂ = some a →
        h₁.height = h₂.height ∧ h₁.coinbase = a ∧ h₂.coinbase = a ∧
          ((a, h₁) ∈ w.signed → (a, h₂) ∈ w.signed → ¬ SignedOnce P w.signed a) := by
  constructor
  · have hpast : Accountable P pos₀ es w := by
      refine hrun.recorded (Accountable P pos₀) ⟨pos₀, hengine, fun _ => Or.inl le_rfl⟩ ?_
      intro es w deed o w' _ hw hstep
      exact hstep.accountable hw
    obtain ⟨pos'', hpos'', hkept⟩ := hcall.accountable hpast
    obtain ⟨pos, hpos, -⟩ := hpast
    obtain ⟨pos', hpos', hsound⟩ := hcall.sound hpos
    obtain rfl : pos' = pos'' := Option.some.inj (hpos'.symm.trans hpos'')
    refine ⟨pos, pos', hpos, hpos',
      fun v => ⟨(hsound v).1.convicted, fun honce hpunished => ?_, ?_⟩⟩
    · have hconvicted := (hsound v).1.convicted hpunished
      rw [honce.offences_eq_empty] at hconvicted
      exact Finset.not_nonempty_empty hconvicted
    · rcases hkept v with hle | hlt
      · exact (Nat.div_le_self _ _).trans hle
      · rw [Nat.div_eq_of_lt hlt]
        exact Nat.zero_le _
  · intro h₁ h₂ a hne hcheck
    unfold checkSlashing at hcheck
    split at hcheck
    · next hsame =>
      have ha : h₁.coinbase = a := Option.some.inj hcheck
      refine ⟨hsame.1, ha, hsame.2.symm.trans ha, fun hby₁ hby₂ honce => ?_⟩
      exact hne (honce h₁ h₂ hby₁ hby₂ hsame.1)
    · exact absurd hcheck (by simp)

/-! ### Punished for two headers, and for one -/

/-- The address of `sampleKey`. -/
def signer : Address := ⟨(sampleDigest (fixedBytes 33 5)).bytes.drop 12, by decide +kernel⟩

/-- A chain whose only validator is the holder of `sampleKey`. -/
def signerChain (stake : UInt64) : Blockchain PoSEngine MemoryStore :=
  { stakedChain with consensus := some (PoSEngine.newPoSEngine.addValidator signer stake) }

/-- A header of that validator. -/
def honestHeader : Header := sampleHeader sampleGenesis [] signer

/-- The block of the validator which carries `evidence`. -/
def accusingHeader (evidence : List Header) : Header :=
  { honestHeader with dataHash := sampleDigest (evidence.flatMap (Header.bytes .sample)) }

def accusingBlock (evidence : List Header) : Block where
  header := some (accusingHeader evidence)
  transactions := []
  evidence := evidence
  validator := sampleKey.publicKey
  signature := some (sampleSignature ((accusingHeader evidence).bytes .sample))

/-- Two different headers of one height. -/
def doubleSigned : List Header := [honestHeader, { honestHeader with nonce := 1 }]

/-- The validator, who has staked 1, signs them both. -/
def signingRun : List (Deed × Outcome Err Unit) :=
  doubleSigned.map fun h => (.sign sampleKey (newBlock h []), .ok ())

/-- A call that punishes soundly: the validator has signed both headers, and half of its stake of 1
is nothing. -/
theorem slashing_sound_of_run_doubleSigned :
    ∃ w w' : Watched MemoryStore, ∃ o,
      History (Judged .sample) ⟨signerChain 1, []⟩ signingRun w ∧
        Judged .sample w (.addBlock (accusingBlock doubleSigned)) o w' ∧
        (offences .sample w.signed doubleSigned signer).Nonempty ∧
        ∃ pos pos', w.chain.consensus = some pos ∧ w'.chain.consensus = some pos' ∧
          ∀ v, (Punished pos pos' v → (offences .sample w.signed doubleSigned v).Nonempty) ∧
            (SignedOnce .sample w.signed v → ¬ Punished pos pos' v) := by
  have hsigns : ∀ h, ∃ b, (newBlock h []).sign .sample sampleKey 0 = .ok b := fun h => ⟨_, rfl⟩
  obtain ⟨b₁, hb₁⟩ := hsigns honestHeader
  obtain ⟨b₂, hb₂⟩ := hsigns { honestHeader with nonce := 1 }
  obtain ⟨w, hrun, rfl⟩ : ∃ w, History (Judged .sample) ⟨signerChain 1, []⟩ signingRun w ∧
      w = ⟨signerChain 1, (doubleSigned.map fun h => (signer, h)).reverse⟩ :=
    ⟨_, .cons (.sign rfl rfl hb₁) (.cons (.sign rfl rfl hb₂) .start), rfl⟩
  have hoffences : (offences .sample (doubleSigned.map fun h => (signer, h)).reverse doubleSigned
      signer).Nonempty ∧ (PoSEngine.newPoSEngine.addValidator signer 1).stake signer <
        2 ^ (offences .sample (doubleSigned.map fun h => (signer, h)).reverse doubleSigned
          signer).card := by
    decide +kernel
  have hprop : Proportionate .sample (doubleSigned.map fun h => (signer, h)).reverse doubleSigned
      (PoSEngine.newPoSEngine.addValidator signer 1) := by
    rintro v ⟨h, hmem, rfl⟩ -
    have hproducer : h.coinbase = signer := by
      rcases List.mem_pair.mp hmem with rfl | rfl
      · rfl
      · rfl
    rw [hproducer]
    exact hoffences
  obtain ⟨o, bc', hadd⟩ : ∃ o bc',
      addBlock .sample 1 (accusingBlock doubleSigned) (signerChain 1) = (o, bc') :=
    ⟨_, _, Prod.mk.eta.symm⟩
  have hcall : Judged .sample
      ⟨signerChain 1, (doubleSigned.map fun h => (signer, h)).reverse⟩
      (.addBlock (accusingBlock doubleSigned)) o
      ⟨bc', (doubleSigned.map fun h => (signer, h)).reverse⟩ := by
    refine .addBlock hadd fun _ pos hpos => ?_
    obtain rfl : PoSEngine.newPoSEngine.addValidator signer 1 = pos := Option.some.inj hpos
    exact hprop
  obtain ⟨⟨pos, pos', hpos, hpos', hsound⟩, -⟩ := slashing_sound_of_run hrun hcall rfl
  exact ⟨_, _, _, hrun, hcall, hoffences.1, pos, pos', hpos, hpos',
    fun v => ⟨(hsound v).1, (hsound v).2.1⟩⟩

/-- **Punished without an offence.** The validator has signed one header, and a block offers it
three times as evidence. It is accepted, the stake of 10 is halved three times, and the seat is
lost. Evidence that is made up, two headers of a validator who has signed nothing, does the same.
`CheckSlashing` reports one header handed in twice. -/
theorem addBlock_slashes_without_offence :
    (validateBlockLocked .sample (accusingBlock (List.replicate 3 honestHeader))
        (signerChain 10)).1 = .ok () ∧
      ((signerChain 10).consensus.map fun pos => (pos.stake signer, pos.activeSet)) =
        some (10, [signer]) ∧
      (addBlock .sample 1 (accusingBlock (List.replicate 3 honestHeader))
          (signerChain 10)).2.consensus.map (fun pos => (pos.stake signer, pos.activeSet)) =
        some (1, []) ∧
      offences .sample [(signer, honestHeader)] (List.replicate 3 honestHeader) signer = ∅ ∧
      (addBlock .sample 1 (accusingBlock doubleSigned) (signerChain 10)).2.consensus.map
          (fun pos => (pos.stake signer, pos.activeSet)) = some (2, []) ∧
      offences .sample [] doubleSigned signer = ∅ ∧
      checkSlashing honestHeader honestHeader = some signer := by
  decide +kernel

end Blockchain

end Blockz
