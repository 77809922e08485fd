import Blockz.Network.Unblocked

/-!
# Transactions with the same data

The pool knows a transaction by its hash, and the hash is that of `Data` alone. What the generator
sends differs in the signer and the signature, so all of it is one transaction to a pool: the first
one is taken in, and the others are dropped before they are verified. A network that gets nothing
else puts one of them into a block and goes on with empty blocks.

The argument follows the first transaction through the producer. At each moment the transactions in
its blocks, those that are pending and the one that is about to become pending are together no more
than one if the pool knows the hash, and none otherwise (`Process.Single`). Between two concurrent
calls of `ProcessTransaction` this would break, as both may find the hash missing; the messages of a
transport go through one loop.

* `Call.Fits` — a call of `ProcessTransaction` is at a stage that agrees with the pool.
* `Production.Within` — `createNewBlock` works with transactions that are still pending.
* `Process.Single.step` — a turn of the producer keeps the invariant.
* `repeated_once` — in every run, at most one transaction is in the blocks of a process.
-/

namespace Blockz

open Effect

variable {P : Primitives} {C : Codecs} {H : Hash}

/-! ### The pool -/

/-- Whether the pool knows the hash, as a number. -/
def TxPool.known (H : Hash) (p : TxPool) : ℕ := if p.all.contains H then 1 else 0

/-- A call that has made its transaction known and not yet pending. -/
def Call.owed (c : Call) : ℕ := if c.stage = .add .addPending then 1 else 0

/-- The call is about the hash, which gets known in the course of it. -/
def Call.Fits (P : Primitives) (H : Hash) (p : TxPool) (c : Call) : Prop :=
  c.tx.hash P = H ∧
    match c.stage with
    | .lookup => True
    -- behind the call of `Add` on `all`
    | .add .addPending => p.all.contains H
    -- the pool was asked, and nobody else adds to it
    | _ => ¬ p.all.contains H

def Handler.owed : Handler → ℕ
  | .submitting c => c.owed
  | _ => 0

def Handler.Fits (P : Primitives) (H : Hash) (p : TxPool) : Handler → Prop
  | .submitting c => c.Fits P H p
  | _ => True

theorem Handler.Fits.congr {h : Handler} {p p' : TxPool} (hh : h.Fits P H p)
    (hall : p'.all = p.all) : h.Fits P H p' := by
  cases h with
  | submitting c =>
    unfold Handler.Fits Call.Fits at hh ⊢
    rwa [hall]
  | _ => trivial

section Intake

variable {E S : Type}

/-- From one state of the loop to the next. What has become pending, or is about to, is covered by
what has become known. -/
structure Intake (P : Primitives) (H : Hash) (h : Handler) (n : Node E S) (h' : Handler)
    (n' : Node E S) : Prop where
  fits : h'.Fits P H n'.memPool
  grows : n.memPool.pending.txx.length ≤ n'.memPool.pending.txx.length
  covered : n'.memPool.pending.txx.length + h'.owed + n.memPool.known H ≤
    n.memPool.pending.txx.length + h.owed + n'.memPool.known H

/-- The pool is as it was, and nothing is owed. -/
theorem Intake.of_memPool {h h' : Handler} {n n' : Node E S} (hsame : n'.memPool = n.memPool)
    (hfits : h'.Fits P H n.memPool) (howed : h'.owed = 0) : Intake P H h n h' n' := by
  refine ⟨?_, ?_, ?_⟩
  · rwa [hsame]
  · rw [hsame]
  · rw [hsame, howed]
    omega

theorem TxSortedMap.length_txx_add (tx : Transaction) (t : TxSortedMap) :
    t.txx.length ≤ (t.add P tx).txx.length ∧ (t.add P tx).txx.length ≤ t.txx.length + 1 := by
  unfold TxSortedMap.add
  split
  · exact ⟨le_rfl, Nat.le_succ _⟩
  · exact ⟨by simp, by simp⟩

theorem TxSortedMap.contains_add (tx : Transaction) (t : TxSortedMap) :
    (t.add P tx).contains (tx.hash P) := by
  unfold TxSortedMap.add TxSortedMap.contains
  split
  · assumption
  · exact Finmap.mem_insert.mpr (Or.inl rfl)

theorem TxSortedMap.not_contains_remove {t : TxSortedMap} (h : Hash) (hnot : ¬ t.contains H) :
    ¬ (t.remove h).contains H := by
  intro hmem
  exact hnot (Finmap.mem_erase.mp hmem).2

/-- A step of `ProcessTransaction` in the loop. -/
theorem Call.Fits.step {c : Call} {now : Int64} {n n' : Node E S} {o : Outcome Err (Option Call)}
    (hc : c.Fits P H n.memPool) (hcall : c.step P now n = (o, n')) :
    Intake P H (.submitting c) n (o.toOption.join.elim .idle .submitting) n' := by
  obtain ⟨tx, stage⟩ := c
  obtain ⟨hhash, hstage⟩ := hc
  cases stage with
  | lookup =>
    -- a hash that is known ends the call
    cases hcall
    refine .of_memPool rfl ?_ ?_
    · show Handler.Fits P H _ (Option.elim (if _ then none else some _) _ _)
      split
      · trivial
      · next hnot =>
        rw [hhash] at hnot
        exact ⟨hhash, hnot⟩
    · show Handler.owed (Option.elim (if _ then none else some _) _ _) = 0
      split <;> rfl
  | verify =>
    rcases Act.lift_bind_cases hcall with ⟨_, -, hlaunch⟩ | ⟨hnone, rfl⟩
    · cases hlaunch
      exact .of_memPool rfl ⟨(tx.hash_seenAt now).trans hhash, hstage⟩ rfl
    · rw [hnone]
      exact .of_memPool rfl trivial rfl
  | add stage =>
    cases stage with
    | count =>
      cases hcall
      show Intake P H _ n (Option.elim (Call.adding tx (if _ then .first else .contains)) _ _) _
      split
      · exact .of_memPool rfl ⟨hhash, hstage⟩ rfl
      · exact .of_memPool rfl ⟨hhash, hstage⟩ rfl
    | first =>
      -- the oldest entry is only read
      have heq : (Act.lift (n.memPool.oldestHash P) >>= fun h =>
          pure (some ⟨tx, .add (.remove h)⟩) : Act (Node E S) Err (Option Call)) n = (o, n') := by
        rw [← hcall]
        show _ = (Node.onPool (Act.lift (n.memPool.oldestHash P) >>= _) >>= _) n
        cases n.memPool.oldestHash P <;> rfl
      rcases Act.lift_bind_cases heq with ⟨h, -, hnext⟩ | ⟨hnone, rfl⟩
      · cases hnext
        exact .of_memPool rfl ⟨hhash, hstage⟩ rfl
      · rw [hnone]
        exact .of_memPool rfl trivial rfl
    | remove h =>
      -- the entry that makes room is another one
      cases hcall
      have hnot : ¬ n.memPool.all.contains H := hstage
      have hremoved := TxSortedMap.not_contains_remove h hnot
      refine ⟨⟨hhash, hremoved⟩, le_rfl, ?_⟩
      show _ + 0 + (if n.memPool.all.contains H then 1 else 0) ≤
        _ + 0 + (if (n.memPool.all.remove h).contains H then 1 else 0)
      rw [if_neg hnot, if_neg hremoved]
      exact le_rfl
    | contains =>
      cases hcall
      show Intake P H _ n (Option.elim (Call.adding tx (if _ then .addAll else .done)) _ _) _
      split
      · exact .of_memPool rfl ⟨hhash, hstage⟩ rfl
      · exact .of_memPool rfl trivial rfl
    | addAll =>
      -- from here on the hash is known, and the transaction is owed to the pending ones
      cases hcall
      have hnot : ¬ n.memPool.all.contains H := hstage
      have hadded := TxSortedMap.contains_add (P := P) tx n.memPool.all
      rw [hhash] at hadded
      refine ⟨⟨hhash, hadded⟩, le_rfl, ?_⟩
      show _ + 1 + (if n.memPool.all.contains H then 1 else 0) ≤
        _ + 0 + (if (n.memPool.all.add P tx).contains H then 1 else 0)
      rw [if_neg hnot, if_pos hadded]
      exact le_rfl
    | addPending =>
      cases hcall
      obtain ⟨hgrows, hone⟩ := TxSortedMap.length_txx_add (P := P) tx n.memPool.pending
      exact ⟨trivial, hgrows, Nat.add_le_add_right hone _⟩
    | done =>
      cases hcall
      exact .of_memPool rfl trivial rfl

/-! ### The other handlers -/

/-- The pool is the same. -/
def Node.SamePool (n n' : Node E S) : Prop := n'.memPool = n.memPool

instance Node.samePool_refl : Std.Refl (Node.SamePool : Node E S → Node E S → Prop) where
  refl _ := rfl

instance Node.samePool_trans : IsTrans (Node E S) Node.SamePool where
  trans _ _ _ h₁ h₂ := Eq.trans h₂ h₁

theorem Node.upholds_samePool {α : Type} {m : Act (Node E S) Err α} {n : Node E S}
    (hm : Act.Moves Node.SamePool m) : Act.Upholds (Node.SamePool n) (fun _ => True) m :=
  Act.Upholds.of_moves hm fun _ _ hstep hs => Eq.trans hstep hs

theorem Node.samePool_of_spoke {α : Type} {m : Act (Node E S) Err α} {n : Node E S}
    (hm : Act.Moves (Node.Spoke C .any) m) : Act.Upholds (Node.SamePool n) (fun _ => True) m :=
  Node.upholds_samePool fun n => (hm n).memPool

/-- A call on the chain leaves the pool alone. -/
theorem Node.samePool_onChain {α : Type} (m : Act (Blockchain E S) Err α) :
    Act.Moves Node.SamePool (Node.onChain m) := fun _ => rfl

/-- What a handling goes on with, if it is none of a transaction. -/
def Handler.Other : Handler → Prop
  | .submitting _ => False
  | _ => True

theorem Handler.Other.fits {h : Handler} (hh : h.Other) (p : TxPool) :
    h.Fits P H p ∧ h.owed = 0 := by
  cases h with
  | submitting c => exact hh.elim
  | _ => exact ⟨trivial, rfl⟩

/-- A call that leaves the pool alone. -/
theorem Intake.of_upholds {h : Handler} {n n' : Node E S} {m : Act (Node E S) Err Handler}
    {o : Outcome Err Handler} (hup : Act.Upholds n.SamePool Handler.Other m)
    (hcall : m n = (o, n')) : Intake P H h n (o.toOption.getD .idle) n' := by
  obtain ⟨hsame, hnext⟩ := hup n rfl
  rw [hcall] at hsame hnext
  have hother : (o.toOption.getD .idle).Other := by
    cases o with
    | ok h' => exact hnext h' rfl
    | err e => trivial
    | panic e => trivial
    | outOfFuel => trivial
  obtain ⟨hfits, howed⟩ := hother.fits (P := P) (H := H) n.memPool
  exact .of_memPool hsame hfits howed

variable [ConsensusEngine P E] [Storage P S]

/-- **A step of the loop.** -/
theorem Handler.Fits.step {h : Handler} {fuel : ℕ} {now : Int64} {n n' : Node E S}
    {o : Outcome Err Handler} (hh : h.Fits P H n.memPool)
    (hcall : h.step P C fuel now n = (o, n')) : Intake P H h n (o.toOption.getD .idle) n' := by
  have hquiet : Act.Upholds n.SamePool Handler.Other (h.step P C fuel now) →
      Intake P H h n (o.toOption.getD .idle) n' := fun hup => .of_upholds hup hcall
  cases h with
  | idle => exact hquiet (Act.Upholds.pure trivial)
  | submitting c =>
    rcases hstep : c.step P now n with ⟨r, n₁⟩
    have hintake := Call.Fits.step hh hstep
    have heq : (c.step P now >>= fun next => pure (next.elim .idle .submitting) :
        Act (Node E S) Err Handler) n = (o, n') := hcall
    cases r with
    | ok next =>
      rw [Act.bind_apply_ok hstep] at heq
      cases heq
      exact hintake
    | err e => rw [Act.bind_apply_err hstep] at heq; cases heq; exact hintake
    | panic e => rw [Act.bind_apply_panic hstep] at heq; cases heq; exact hintake
    | outOfFuel => rw [Act.bind_apply_outOfFuel hstep] at heq; cases heq; exact hintake
  | adding sender b =>
    refine hquiet ?_
    exact (Node.upholds_samePool (Act.Moves.attempt (Node.samePool_onChain _))).bind
      fun _ _ => Act.Upholds.pure trivial
  | added sender b result =>
    refine hquiet ?_
    cases result with
    | ok _ =>
      have hlaunch : Act.Moves Node.SamePool
          (Node.launch (.block b) : Act (Node E S) Err Unit) := fun _ => rfl
      exact (Node.upholds_samePool hlaunch).bind fun _ _ => Act.Upholds.pure trivial
    | error e =>
      show Act.Upholds _ _ (if _ then _ else if _ then _ else _)
      split
      · exact Act.Upholds.pure trivial
      · split
        · exact Act.Upholds.pure trivial
        · exact Act.Upholds.lift fun _ hr => nomatch hr
  | asking sender last =>
    refine hquiet (Act.Upholds.get.bind fun _ _ => ?_)
    exact (Node.samePool_of_spoke (Node.onServer_spoke (Server.sendGetBlocks_spoke sender _))).bind
      fun _ _ => Act.Upholds.pure trivial
  | bounding sender first =>
    exact hquiet (Act.Upholds.get.bind fun _ _ => Act.Upholds.pure trivial)
  | collecting sender i last blocks =>
    refine hquiet (Act.Upholds.get.bind fun _ _ => ?_)
    split
    · exact (Node.upholds_samePool (Act.Moves.lift _)).bind fun _ _ => Act.Upholds.pure trivial
    · refine (Node.upholds_samePool (Act.Moves.lift _)).bind fun data _ => ?_
      have hcarried : ∀ id, Marking.any.Carried C ((newMessage .blocks data).bytes id) :=
        fun id => Marking.carried_any _
      exact (Node.samePool_of_spoke (Node.onServer_spoke (Server.send_spoke sender hcarried))).bind
        fun _ _ => Act.Upholds.pure trivial
  | batch rest =>
    cases rest with
    | nil => exact hquiet (Act.Upholds.pure trivial)
    | cons b rest =>
      exact hquiet ((Node.upholds_samePool (Node.samePool_onChain _)).bind
        fun _ _ => Act.Upholds.pure trivial)

omit [ConsensusEngine P E] [Storage P S] in
/-- The start of a handling. -/
theorem Handler.start_intake {moment : Moment} {msg : DecodedMessage} {n n' : Node E S}
    {o : Outcome Err Handler} (hmsg : ∀ tx, msg.data = .transaction tx → tx.hash P = H)
    (hcall : Handler.start C moment msg n = (o, n')) :
    Intake P H .idle n (o.toOption.getD .idle) n' := by
  have hquiet : Act.Upholds n.SamePool Handler.Other (Handler.start C moment msg) →
      Intake P H .idle n (o.toOption.getD .idle) n' := fun hup => .of_upholds hup hcall
  obtain ⟨sender, data⟩ := msg
  cases data with
  | transaction tx =>
    cases hcall
    exact .of_memPool rfl ⟨hmsg tx rfl, trivial⟩ rfl
  | block b => exact hquiet (Act.Upholds.pure trivial)
  | getBlocks req =>
    refine hquiet (Act.Upholds.get.bind fun _ _ => Act.Upholds.pure ?_)
    split <;> trivial
  | blocks received => exact hquiet (Act.Upholds.pure trivial)
  | status st =>
    refine hquiet (Act.Upholds.get.bind fun _ _ => Act.Upholds.pure ?_)
    split <;> trivial
  | getStatus =>
    refine hquiet ?_
    exact (Node.samePool_of_spoke (Node.onServer_spoke
      (Server.processGetStatusMessage_spoke sender))).bind fun _ _ => Act.Upholds.pure trivial
  | getPeers =>
    refine hquiet ?_
    exact (Node.samePool_of_spoke (Node.handleGetPeers_spoke moment sender)).bind
      fun _ _ => Act.Upholds.pure trivial
  | sharePeers peers =>
    refine hquiet ?_
    exact (Node.samePool_of_spoke (Node.handleSharePeers_spoke (C := C) peers)).bind
      fun _ _ => Act.Upholds.pure trivial

end Intake

/-! ### The block that is being made -/

/-- What is pending and in no block of the chain. -/
def Production.left (pending : ℕ) : Production → ℕ
  -- `ClearPending` comes next, whatever has become pending since the block was made
  | .added _ => 0
  | _ => pending

/-- The transactions that `createNewBlock` has read are still pending. -/
def Production.Within (pending : ℕ) : Production → Prop
  | .pendingRead _ txx => txx.length ≤ pending
  | .signed b => b.transactions.length ≤ pending
  | _ => True

theorem Production.Within.mono {p : Production} {m k : ℕ} (hp : p.Within m) (hle : m ≤ k) :
    p.Within k := by
  cases p with
  | pendingRead h txx => exact Nat.le_trans hp hle
  | signed b => exact Nat.le_trans hp hle
  | _ => trivial

theorem Production.left_le (p : Production) {m k : ℕ} (hle : m ≤ k) :
    p.left k + m ≤ p.left m + k := by
  cases p with
  | added b => exact Nat.add_le_add_left hle 0
  | _ => exact (Nat.add_comm k m).le

section Production

variable {E S : Type} [ConsensusEngine P E] [SealingEngine P E] [Storage P S]

/-- From one state of `createNewBlock` to the next. -/
structure Production.Moves (p : Production) (n : Node E S) (p' : Production) (n' : Node E S) :
    Prop where
  within : p'.Within n'.memPool.pending.txx.length
  all : n'.memPool.all = n.memPool.all
  left : p'.left n'.memPool.pending.txx.length ≤ p.left n.memPool.pending.txx.length

/-- A step of `createNewBlock`, however it ends. -/
theorem Production.Within.step {p : Production} {fuel : ℕ} {key : PrivateKey} {tick : Tick}
    {n n' : Node E S} {o : Outcome Err Production} (hp : p.Within n.memPool.pending.txx.length)
    (hcall : p.step P fuel key tick n = (o, n')) :
    p.Moves n (o.toOption.getD .idle) n' := by
  cases p with
  | idle =>
    rcases Act.lift_bind_cases hcall with ⟨_, -, hread⟩ | ⟨hnone, rfl⟩
    · cases hread
      exact ⟨trivial, rfl, le_rfl⟩
    · rw [hnone]
      exact ⟨trivial, rfl, le_rfl⟩
  | headerRead h =>
    cases hcall
    exact ⟨le_rfl, rfl, le_rfl⟩
  | pendingRead h txx =>
    rcases Act.lift_bind_cases hcall with ⟨b, hbuild, hsigned⟩ | ⟨hnone, rfl⟩
    · cases hsigned
      refine ⟨?_, rfl, le_rfl⟩
      show b.transactions.length ≤ _
      rw [Blockchain.buildBlock_transactions hbuild]
      exact hp
    · rw [hnone]
      exact ⟨trivial, rfl, le_rfl⟩
  | signed b =>
    have hsame : n.SamePool n' :=
      Act.Moves.of_call ((Node.samePool_onChain _).bind fun _ => Act.Moves.pure _) hcall
    have hpool : n'.memPool = n.memPool := hsame
    have heq : (Node.onChain (Blockchain.addBlock P fuel b) >>= fun _ => pure (.added b) :
        Act (Node E S) Err Production) n = (o, n') := hcall
    cases o with
    | ok p' =>
      obtain ⟨_, _, -, hend⟩ := Act.bind_eq_ok.mp heq
      cases hend
      exact ⟨trivial, congrArg TxPool.all hpool, Nat.zero_le _⟩
    | err e => exact ⟨trivial, congrArg TxPool.all hpool, by rw [hpool]; exact le_rfl⟩
    | panic e => exact ⟨trivial, congrArg TxPool.all hpool, by rw [hpool]; exact le_rfl⟩
    | outOfFuel => exact ⟨trivial, congrArg TxPool.all hpool, by rw [hpool]; exact le_rfl⟩
  | added b =>
    cases hcall
    exact ⟨trivial, rfl, le_rfl⟩

end Production

/-! ### The producer -/

/-- How many transactions the blocks of the calls have. -/
def Blockchain.carried (es : List (Block × Outcome Err Unit)) : ℕ :=
  (es.flatMap fun e => e.1.transactions).length

theorem Blockchain.carried_append (es es' : List (Block × Outcome Err Unit)) :
    carried (es ++ es') = carried es + carried es' := by
  unfold carried
  rw [List.flatMap_append, List.length_append]

theorem Blockchain.carried_concat (es : List (Block × Outcome Err Unit)) (b : Block)
    (o : Outcome Err Unit) : carried (es ++ [(b, o)]) = carried es + b.transactions.length := by
  rw [carried_append]
  unfold carried
  rw [List.flatMap_singleton]

/-- It is a matter of what is exported. -/
theorem Blockchain.carried_eq_of_added {es es' : List (Block × Outcome Err Unit)}
    (hsame : added es = added es') : carried es = carried es' := by
  have hsum : ∀ es, carried es = ((added es).map fun b => b.transactions.length).sum := by
    intro es
    unfold carried added
    rw [List.length_flatMap, List.map_map]
    refine congrArg List.sum (List.map_congr_left fun e _ => ?_)
    exact (List.length_map _).symm
  rw [hsum, hsum, hsame]

/-- What is in a block, pending, or about to be pending is one transaction, which the pool knows, or
none. -/
structure Process.Single (P : Primitives) (H : Hash) (bc₀ : Blockchain PoWEngine MemoryStore)
    (s : Process PoWEngine MemoryStore) : Prop where
  calls : ∀ id, s.calls id = none
  handler : s.handler.Fits P H s.node.memPool
  producer : s.producer.Within s.node.memPool.pending.txx.length
  chain : ∃ es, History (Blockchain.Succeeded P) bc₀ es s.node.chain ∧
    Blockchain.carried es + s.producer.left s.node.memPool.pending.txx.length + s.handler.owed ≤
      s.node.memPool.known H

section Producer

variable {bc₀ : Blockchain PoWEngine MemoryStore} {s s' : Process PoWEngine MemoryStore} {t : Turn}
  {o : Outcome Err Unit}

/-- A turn of the loop that leaves the chain alone. -/
theorem Process.Single.intake (hs : s.Single P H bc₀) {h' : Handler}
    {n' : Node PoWEngine MemoryStore} (hintake : Intake P H s.handler s.node h' n')
    (hchain : n'.chain = s.node.chain) :
    Process.Single P H bc₀ { s with node := n', handler := h' } := by
  obtain ⟨es, hes, hcount⟩ := hs.chain
  refine ⟨hs.calls, hintake.fits, hs.producer.mono hintake.grows, es, ?_, ?_⟩
  · rw [hchain]
    exact hes
  · have hgrows := hintake.grows
    have hcovered := hintake.covered
    have hleft := s.producer.left_le hgrows
    show Blockchain.carried es + s.producer.left n'.memPool.pending.txx.length + h'.owed ≤
      n'.memPool.known H
    omega

theorem Intake.of_samePool {E S : Type} {h : Handler} {n n' : Node E S}
    (hh : h.Fits P H n.memPool) (hsame : n'.memPool = n.memPool) : Intake P H h n h n' := by
  refine ⟨?_, ?_, ?_⟩
  · rwa [hsame]
  · rw [hsame]
  · rw [hsame]

/-- **A turn of the producer.** -/
theorem Process.Single.step (hs : s.Single P H bc₀) (htrails : Trails P C bc₀ s s)
    (hstep : Process.Clean P C s t o s') (hcalls : ∀ id tx, t ≠ .submit id tx)
    (hreceived : ∀ moment msg tx, t = .receive moment msg → msg.data = .transaction tx →
      tx.hash P = H) : s'.Single P H bc₀ := by
  have hchain : (∀ tick, t ≠ .produce tick) → s'.node.chain = s.node.chain := by
    intro hturn
    rcases htrails.chain_cases hstep with hsame | ⟨tick, _, ht, -⟩
    · exact hsame
    · exact absurd ht (hturn tick)
  obtain ⟨es, hes, hcount⟩ := hs.chain
  cases hstep.step with
  | submit _ => exact absurd rfl (hcalls _ _)
  | @advance id _ _ _ _ running _ _ =>
    -- no call comes from the JSON-RPC server
    rw [hs.calls id] at running
    cases running
  | @produce tick key fuel r n' held call returns =>
    have hmoves := hs.producer.step call
    have hknown : n'.memPool.known H = s.node.memPool.known H := by
      unfold TxPool.known
      rw [hmoves.all]
    have hleft := hmoves.left
    refine ⟨hs.calls, hs.handler.congr hmoves.all, hmoves.within, ?_⟩
    show ∃ es, History _ bc₀ es n'.chain ∧ Blockchain.carried es +
      (r.toOption.getD .idle).left n'.memPool.pending.txx.length + s.handler.owed ≤
        n'.memPool.known H
    by_cases hsigned : ∃ b, s.producer = .signed b
    · -- what was pending is now in a block, and does not count as pending any more
      obtain ⟨b, hb⟩ := hsigned
      have hsucceeded := hstep.produced hb
      obtain ⟨p, rfl, -⟩ := Outcome.bind_eq_ok.mp (hstep.accepted tick b rfl hb)
      have hwithin := hs.producer
      rw [hb] at call hwithin hcount
      obtain ⟨_, _, -, hend⟩ := Act.bind_eq_ok.mp call
      cases hend
      refine ⟨es ++ [(b, .ok ())], hes.call hsucceeded, ?_⟩
      have hless : b.transactions.length ≤ s.node.memPool.pending.txx.length := hwithin
      have hcount' : Blockchain.carried es + s.node.memPool.pending.txx.length + s.handler.owed ≤
        s.node.memPool.known H := hcount
      rw [Blockchain.carried_concat, hknown]
      show Blockchain.carried es + b.transactions.length + 0 + s.handler.owed ≤ _
      omega
    · have hsame : n'.chain = s.node.chain := by
        rcases htrails.chain_cases hstep with hsame | ⟨_, b, -, hb, -⟩
        · exact hsame
        · exact absurd ⟨b, hb⟩ hsigned
      refine ⟨es, ?_, ?_⟩
      · rw [hsame]
        exact hes
      · rw [hknown]
        omega
  | @receive moment msg _ _ free call _ =>
    refine hs.intake ?_ (hchain nofun)
    rw [free]
    exact Handler.start_intake (fun tx hdata => hreceived moment msg tx rfl hdata) call
  | handle call _ => exact hs.intake (hs.handler.step call) (hchain nofun)
  | @greet addr _ _ call _ =>
    have hcarried : ∀ id, Marking.any.Carried C ((newMessage .getStatus []).bytes id) :=
      fun id => Marking.carried_any _
    have hspoke := (Node.onServer_spoke (Server.send_spoke addr hcarried)).of_call call
    exact hs.intake (.of_samePool hs.handler hspoke.memPool) (hchain nofun)
  | askPeers call _ =>
    have hspoke := (Node.sendGetPeers_spoke (C := C) (K := .any) _).of_call call
    exact hs.intake (.of_samePool hs.handler hspoke.memPool) (hchain nofun)
  | meet => exact hs.intake (.of_samePool hs.handler rfl) (hchain nofun)

end Producer

/-! ### The network -/

/-- All transactions have these data. -/
def Marking.withData (d : List UInt8) : Marking where
  transaction tx := tx.data = d
  block _ := True
  transaction_congr hexp htx := (congrArg Transaction.data hexp :).trans htx
  block_congr _ _ := trivial

/-- Gob makes a new value, in which no hash is cached. -/
def Codecs.Uncached (C : Codecs) : Prop :=
  ∀ data tx, C.transaction.decode data = .ok tx → tx.cachedHash = Hash.zero

theorem Codecs.Uncached.received (hgob : C.Uncached) {rpc : RPC} {msg : DecodedMessage}
    {tx : Transaction} (hdecode : defaultRPCDecodeFunc C rpc = .ok msg)
    (hdata : msg.data = .transaction tx) : tx.cachedHash = Hash.zero := by
  unfold defaultRPCDecodeFunc at hdecode
  split at hdecode
  · cases hdecode
  · unfold decodeContent at hdecode
    split at hdecode
    · cases hdecode
    · next t _ =>
      obtain ⟨content, hcontent, hmsg⟩ := Outcome.bind_eq_ok.mp hdecode
      obtain rfl := Outcome.ok.inj hmsg
      obtain rfl : content = .transaction tx := hdata
      -- no other kind of message is decoded into a transaction
      cases t with
      | tx =>
        obtain ⟨tx', htx, hsame⟩ := Outcome.bind_eq_ok.mp hcontent
        cases hsame
        exact hgob _ _ htx
      | getStatus => cases hcontent
      | getPeers => cases hcontent
      | _ =>
        obtain ⟨_, -, hother⟩ := Outcome.bind_eq_ok.mp hcontent
        cases hother

/-- What comes from outside is a tame transaction with the data `d`, and comes through a
transport. -/
def Repeats {E S κ : Type} (P : Primitives) (C : Codecs) (d : List UInt8) (c : κ → Process E S)
    (k : κ) : Turn → Prop
  | .submit _ _ => False
  | .receive moment msg => Arrives C c k (.receive moment msg) ∨
      ∃ tx, msg.data = .transaction tx ∧ tx.Tame P ∧ tx.data = d ∧ tx.cachedHash = Hash.zero
  | _ => True

section Repeats

variable {E S κ : Type} {c : κ → Process E S} {k : κ} {t : Turn} {d : List UInt8}

theorem Repeats.feeds (h : Repeats P C d c k t) : Feeds P C c k t := by
  cases t with
  | submit id tx => exact h.elim
  | receive moment msg =>
    rcases h with harrives | ⟨tx, hdata, htame, -⟩
    · exact Or.inl harrives
    · exact Or.inr ⟨tx, hdata, htame⟩
  | _ => trivial

theorem Transaction.hash_of_uncached {tx : Transaction} (hzero : tx.cachedHash = Hash.zero) :
    tx.hash P = P.sha256 tx.data := by
  unfold Transaction.hash
  rw [hzero]
  rfl

/-- What is received has these data and no other hash than theirs. -/
theorem Repeats.received [Storage P S] (hC : C.Faithful) (hgob : C.Uncached)
    (h : Repeats P C d c k t) (hc : ∀ k, (c k).Marked P C (.withData d)) :
    ∀ moment msg, t = .receive moment msg → msg.data.Marked (.withData d) ∧
      ∀ tx, msg.data = .transaction tx → tx.hash P = P.sha256 d := by
  rintro moment msg rfl
  have hhash : ∀ {tx : Transaction}, tx.data = d → tx.cachedHash = Hash.zero →
      tx.hash P = P.sha256 d := by
    intro tx hdata hzero
    rw [Transaction.hash_of_uncached hzero, hdata]
  rcases h with harrives | ⟨tx, hdata, -, hd, hzero⟩
  · have hmarked := harrives.marked hC hc moment msg rfl
    refine ⟨hmarked, fun tx hdata => ?_⟩
    rw [hdata] at hmarked
    obtain ⟨_, _, _, -, hdecode⟩ := harrives
    exact hhash hmarked (hgob.received hdecode hdata)
  · refine ⟨?_, fun tx' hdata' => ?_⟩
    · rw [hdata]
      exact hd
    · cases hdata.symm.trans hdata'
      exact hhash hd hzero

end Repeats

section Run

variable {κ : Type} [DecidableEq κ] {v : κ} {c₀ c : κ → Process PoWEngine MemoryStore}
  {es : List ((κ × Turn) × Outcome Err Unit)} {d : List UInt8}

/-- A new process has nothing in its pool. -/
theorem Process.Single.of_newServer {fuel : ℕ} {opts : Node.ServerOpts PoWEngine MemoryStore}
    {n : Node PoWEngine MemoryStore} (hn : Node.newServer P fuel opts = .ok n) :
    Process.Single P H n.chain (.start n) := by
  obtain ⟨bc, -, hmade⟩ := Outcome.bind_eq_ok.mp hn
  obtain rfl := Outcome.ok.inj hmade
  exact ⟨fun _ => rfl, trivial, trivial, [], .start, Nat.zero_le _⟩

/-- The invariant over a run. -/
theorem single_of_run (hC : C.Faithful) (hgob : C.Uncached) (hP : P.CorrectSignature)
    (hnew : Deployed P v c₀)
    (hengine : ∀ pow, (c₀ v).node.chain.consensus = some pow → pow.targetDifficulty.toNat ≤ 256)
    (hrun : History (Swarm (Process.Step P C) (Repeats P C d)) c₀ es c) :
    History (Swarm (Process.Step P C) (Feeds P C)) c₀ es c ∧
      (∀ k, (c k).Marked P C (.withData d)) ∧
      ((c v).node.chain.headers.length < 2 ^ 32 →
        (c v).Single P (P.sha256 d) (c₀ v).node.chain) := by
  refine hrun.recorded (fun es c => History (Swarm (Process.Step P C) (Feeds P C)) c₀ es c ∧
      (∀ k, (c k).Marked P C (.withData d)) ∧ ((c v).node.chain.headers.length < 2 ^ 32 →
        (c v).Single P (P.sha256 d) (c₀ v).node.chain)) ?_ ?_
  · obtain ⟨engine, hnew⟩ := hnew
    refine ⟨.start, fun k => ?_, fun _ => ?_⟩
    · obtain ⟨fuel, opts, n, hn, hk, -⟩ := hnew k
      rw [hk]
      exact .of_newServer hn fun _ _ _ => trivial
    · obtain ⟨fuel, opts, n, hn, hv, -⟩ := hnew v
      rw [hv]
      exact .of_newServer hn
  · rintro es c _ o _ - ⟨hfed, hmarked, hsingle⟩ ⟨arrival, call⟩
    rename_i k t s'
    obtain ⟨-, hflows⟩ := flows_of_run hC hP hnew hengine hfed
    have hreceived := arrival.received hC hgob hmarked
    refine ⟨hfed.call (.turn arrival.feeds call), fun j => ?_, fun hroom => ?_⟩
    · by_cases hj : j = k
      · subst hj
        rw [Function.update_self]
        refine (hmarked j).step hC call (fun moment msg ht => (hreceived moment msg ht).1) ?_ ?_
        · rintro id tx rfl
          exact arrival.elim
        · exact fun _ _ _ _ => trivial
      · rw [Function.update_of_ne hj]
        exact hmarked j
    · by_cases hv : v = k
      · -- heights that are left now were left before
        subst hv
        rw [Function.update_self] at hroom ⊢
        obtain ⟨-, hext⟩ := call.extends (hflows v).rooted
        have hless := hext.headers.length_le.trans_lt hroom
        refine (hsingle hless).step ((hflows v).trails hless).1
          (call.clean_of_accepts ((hflows v).accepts hP hless)) ?_ ?_
        · rintro id tx rfl
          exact arrival.elim
        · exact fun moment msg tx ht hdata => (hreceived moment msg ht).2 tx hdata
      · rw [Function.update_of_ne hv] at hroom ⊢
        exact hsingle hroom

/-- **Transactions with the same data get into a block once.** A network of new processes on new
stores, with the same proof of work or none, of which one has a key. What they are sent from outside
are transactions with the same data, in any number and from any senders, that verify and execute in
every world state. Then, in every run, as long as there are heights, the chain of each process is a
copy of one that was made from the genesis block by blocks that have one transaction or none
altogether. -/
theorem repeated_once (hC : C.Faithful) (hgob : C.Uncached) (hP : P.CorrectSignature)
    (hnew : Deployed P v c₀)
    (hengine : ∀ pow, (c₀ v).node.chain.consensus = some pow → pow.targetDifficulty.toNat ≤ 256)
    (hrun : History (Swarm (Process.Step P C) (Repeats P C d)) c₀ es c)
    (hroom : (c v).node.chain.headers.length < 2 ^ 32) (k : κ) :
    ∃ blocks mid, History (Blockchain.Succeeded P) (c₀ v).node.chain blocks mid ∧
      Blockchain.Mirrors mid (c k).node.chain ∧ Blockchain.carried blocks ≤ 1 := by
  obtain ⟨hfed, -, hsingle⟩ := single_of_run hC hgob hP hnew hengine hrun
  obtain ⟨hgenesis, hflows⟩ := flows_of_run hC hP hnew hengine hfed
  obtain ⟨blocks, hblocks, hcount⟩ := (hsingle hroom).chain
  obtain ⟨es₁, es₂, mid, h⟩ := ((hflows k).trails hroom).1.copied
  refine ⟨es₁, mid, h.past, h.copy, ?_⟩
  -- the blocks of the copy are the first ones of the producer's
  have hsame : Blockchain.carried (es₁ ++ es₂) = Blockchain.carried blocks :=
    Blockchain.carried_eq_of_added
      ((Blockchain.Numbered.of_run hgenesis (h.past.append h.since)).added_eq
        (Blockchain.Numbered.of_run hgenesis hblocks))
  have hknown : (c v).node.memPool.known (P.sha256 d) ≤ 1 := by
    unfold TxPool.known
    split <;> decide
  rw [Blockchain.carried_append] at hsame
  omega

end Run

/-! ### Two transactions of the generator -/

/-- What is asked of gob can be had. -/
theorem Codecs.exists_uncached : ∃ C : Codecs, C.Faithful ∧ C.Uncached := by
  obtain ⟨C, hC, -⟩ := Codecs.exists_faithful
  refine ⟨{ C with
    transaction :=
      { C.transaction with
        decode := fun data => C.transaction.decode data >>= fun tx => .ok tx.exported } },
    ⟨?_, hC.block, hC.blocks⟩, ?_⟩
  · intro tx tx' data hencode hdecode
    obtain ⟨read, hread, hexp⟩ := Outcome.bind_eq_ok.mp hdecode
    obtain rfl := Outcome.ok.inj hexp
    have hsame : read.exported = tx.exported := hC.transaction hencode hread
    exact hsame
  · intro data tx hdecode
    obtain ⟨read, -, hexp⟩ := Outcome.bind_eq_ok.mp hdecode
    obtain rfl := Outcome.ok.inj hexp
    rfl

/-- A transaction comes in whose hash is known. -/
def droppedTurns (tx : Transaction) : List (Turn × Outcome Err Unit) :=
  [(.receive Node.sampleMoment ⟨"B", .transaction tx⟩, .ok ()), (.handle 0, .ok ())]

theorem Process.exists_dropped {s : Process PoWEngine MemoryStore} {tx : Transaction}
    (hidle : s.handler = .idle) (hknown : s.node.memPool.contains (tx.hash P)) :
    ∃ s', History (Process.Step P C) s (droppedTurns tx) s' ∧ s'.node = s.node ∧
      s'.producer = s.producer := by
  have hcall : Call.step P 0 ⟨tx, .lookup⟩ s.node = (.ok none, s.node) := by
    show (Outcome.ok (if s.node.memPool.contains (tx.hash P) then none else some _), s.node) = _
    rw [if_pos hknown]
  exact ⟨_, .cons (.receive hidle rfl trivial) <|
    .cons (.handle_ok 0 0 (Act.bind_apply_ok hcall _)) .start, rfl, rfl⟩

/-- The validator is sent two transactions with different keys, and makes a block. -/
theorem exists_repeatedRun (C : Codecs) : ∃ tx b s, TestTransaction .sample tx ∧
    tx.cachedHash = Hash.zero ∧ tx.fromKey ≠ sampleTestTransaction.fromKey ∧
    History (Process.Step .sample C) (pairStart true) (gossipTurns sampleTestTransaction ++
      droppedTurns tx ++ signingTurns Node.sampleTick) s ∧
    s.producer = .signed b ∧ b.transactions = [sampleTestTransaction.seenAt .sample 0] ∧
    s.node.chain = Blockchain.sampleChain ∧ s.node.privateKey = some sampleKey := by
  obtain ⟨tx, hmade, hzero, hother⟩ : ∃ tx, testTransaction .sample ⟨⟨⟨8, 9⟩, 10⟩⟩ 0 = .ok tx ∧
      tx.cachedHash = Hash.zero ∧ tx.fromKey ≠ sampleTestTransaction.fromKey :=
    ⟨_, rfl, rfl, by decide⟩
  have htest : TestTransaction .sample tx := ⟨_, _, tx, hmade, rfl⟩
  obtain ⟨t, ht, hpending, hall, hchain, hkey, hproducer, hidle⟩ := exists_testGossip C
  have hknown : t.node.memPool.contains (tx.hash .sample) := by
    obtain ⟨-, -, -, -, hdata, -⟩ := htest.fields
    have hsame : tx.hash .sample = (sampleTestTransaction.seenAt .sample 0).hash .sample := by
      have hcached : sampleTestTransaction.cachedHash = Hash.zero := rfl
      rw [Transaction.hash_seenAt, Transaction.hash_of_uncached hzero, hdata]
      exact (Transaction.hash_of_uncached hcached).symm
    show t.node.memPool.all.contains _
    rw [hall, hsame]
    exact TxSortedMap.contains_add _ _
  obtain ⟨u, hu, hnode, hproducer'⟩ := Process.exists_dropped (C := C) hidle hknown
  obtain ⟨b, hbuild⟩ := exists_testBlock
  have htxx := Blockchain.buildBlock_transactions hbuild
  rw [← hchain, ← hpending, ← hnode] at hbuild
  have hread : u.node.chain.getHeaderLocked u.node.chain.heightLocked = .ok sampleGenesis := by
    rw [hnode, hchain]
    rfl
  have hkey' : u.node.privateKey = some sampleKey := by rw [hnode, hkey]
  obtain ⟨s, hs, hsigned, hnode'⟩ :=
    Process.exists_signing (C := C) (hproducer'.trans hproducer) hkey' hread hbuild
  refine ⟨tx, b, s, htest, hzero, hother, (ht.append hu).append hs, hsigned, htxx, ?_, ?_⟩
  · rw [hnode', hnode, hchain]
  · rw [hnode', hkey']

/-- The theorem for a validator that is sent two of them. -/
theorem repeated_once_test : ∃ (C : Codecs) (es : List ((Bool × Turn) × Outcome Err Unit))
    (c : Bool → Process PoWEngine MemoryStore) (blocks : List (Block × Outcome Err Unit))
    (mid : Blockchain PoWEngine MemoryStore) (b : Block),
      History (Swarm (Process.Step .sample C) (Repeats .sample C sampleContract)) pairStart es c ∧
      (c true).node.chain.headers.length = 2 ∧ (c true).producer = .added b ∧
      b.transactions = [sampleTestTransaction.seenAt .sample 0] ∧
      History (Blockchain.Succeeded .sample) (pairStart true).node.chain blocks mid ∧
      Blockchain.Mirrors mid (c true).node.chain ∧ Blockchain.carried blocks ≤ 1 := by
  obtain ⟨C, hC, hgob⟩ := Codecs.exists_uncached
  have hP := sample_idealSignature.correct
  obtain ⟨tx, b, s, htest, hzero, -, hs, hb, htxx, hchain, hkey⟩ := exists_repeatedRun C
  have hrepeats : ∀ s', ∀ e ∈ gossipTurns sampleTestTransaction ++ droppedTurns tx ++
      signingTurns Node.sampleTick ++ [(.produce Node.sampleTick, .ok ())],
        Repeats .sample C sampleContract (Function.update pairStart true s') true e.1 := by
    have hsend : ∀ {c : Bool → Process PoWEngine MemoryStore} {tx : Transaction},
        TestTransaction .sample tx → tx.cachedHash = Hash.zero → Repeats .sample C sampleContract c
          true (.receive Node.sampleMoment ⟨"B", .transaction tx⟩) := by
      intro c tx htest hzero
      obtain ⟨-, -, -, -, hdata, -⟩ := htest.fields
      exact Or.inr ⟨tx, rfl, htest.tame hP, hdata, hzero⟩
    intro s' e he
    simp only [gossipTurns, droppedTurns, signingTurns, List.mem_append, List.mem_cons,
      List.not_mem_nil, or_false, List.mem_replicate] at he
    rcases he with (((rfl | ⟨-, rfl⟩) | rfl | rfl) | ⟨-, rfl⟩) | rfl
    · exact hsend testTransaction_sample rfl
    · trivial
    · exact hsend htest hzero
    · trivial
    · trivial
    · trivial
  -- up to the signed block, which is accepted
  have hsigned := Swarm.alone hs fun s' e he => hrepeats s' e (List.mem_append_left _ he)
  obtain ⟨hfed, -⟩ := single_of_run hC hgob hP deployed_pairStart nofun hsigned
  obtain ⟨-, hflows⟩ := flows_of_run hC hP deployed_pairStart nofun hfed
  have hroom : s.node.chain.headers.length < 2 ^ 32 := by
    rw [hchain]
    decide
  obtain ⟨fuel, bc, hadd⟩ := (hflows true).accepts hP hroom b hb
  have hadd' : Blockchain.addBlock .sample fuel b s.node.chain = (.ok (), bc) := hadd
  have hlast : s.producer.step .sample fuel sampleKey Node.sampleTick s.node =
      (.ok (.added b), { s.node with chain := bc }) := by
    rw [hb]
    exact Threads.production_adds hadd'
  have hrun := Swarm.alone (hs.call (.produce_ok Node.sampleTick fuel hkey hlast)) hrepeats
  have hlength : bc.headers.length = 2 := by
    rw [hchain] at hadd'
    obtain ⟨h, -, -, hheaders⟩ := Blockchain.Called.headers_of_ok
      Blockchain.reached_sampleChain.grounded.tip ⟨fuel, hadd'⟩
    rw [hheaders, List.length_append]
    rfl
  have hroom' : bc.headers.length < 2 ^ 32 := by
    rw [hlength]
    norm_num
  obtain ⟨blocks, mid, hblocks, hcopy, hcount⟩ :=
    repeated_once hC hgob hP deployed_pairStart nofun hrun hroom' true
  exact ⟨C, _, _, blocks, mid, b, hrun, hlength, rfl, htxx, hblocks, hcopy, hcount⟩

end Blockz
