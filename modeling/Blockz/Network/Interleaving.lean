import Blockz.Network.Pending
import Blockz.Network.PoolHistory

/-!
# Goroutines

`ProcessTransaction` is called by the message loop and by the goroutines of the JSON-RPC server,
`createNewBlock` by the validator loop, and `AddBlock` by both loops. Each of them locks what it
touches for one operation at a time, so the calls interleave. Here a call is a sequence of steps,
one for each operation on something that is shared, and a run is any order of the steps of any
number of calls.

* `processTransaction_eq_steps`, `createNewBlock_eq_steps` — the steps of one call, with nothing in
  between, are the call.
* `no_transaction_lost` — what was admitted is pending or in an accepted block, in every run in
  which `ClearPending` finds nothing that `createNewBlock` has not read, and in which no transaction
  is added beside a different one of the same hash.
* `pending_eq_of_outsideProduction` — the first of these is met if nothing is added between the
  reading of the pending transactions and `ClearPending`.
* `transaction_lost` — a transaction that arrives while the block is being sealed goes with the
  others, and the pool does not take it again.
-/

namespace Blockz

open Effect

/-! ### Steps of a call -/

/-- Where a call of `ProcessTransaction` stands. -/
inductive CallStage
  -- before `s.memPool.Contains`
  | lookup
  -- before `tx.Verify`
  | verify
  -- in `s.memPool.Add`
  | add (stage : TxPool.AddStage)
  deriving DecidableEq

structure Call where
  tx : Transaction
  stage : CallStage
  deriving DecidableEq

/-- The call that has come to a stage of `TxPool.Add`; at the end there is none. -/
def Call.adding (tx : Transaction) : TxPool.AddStage → Option Call
  | .done => none
  | .count => some ⟨tx, .add .count⟩
  | .first => some ⟨tx, .add .first⟩
  | .remove h => some ⟨tx, .add (.remove h)⟩
  | .contains => some ⟨tx, .add .contains⟩
  | .addAll => some ⟨tx, .add .addAll⟩
  | .addPending => some ⟨tx, .add .addPending⟩

/-- Where a call of `createNewBlock` stands. -/
inductive Production
  -- not called
  | idle
  | headerRead (currentHeader : Header)
  | pendingRead (currentHeader : Header) (txx : List Transaction)
  -- prepared, sealed and signed
  | signed (b : Block)
  -- before `s.memPool.ClearPending`
  | added (b : Block)

section Steps

variable {E S : Type} (P : Primitives)

/-- One step of a call of `ProcessTransaction`; `none` when it has returned. -/
def Call.step (now : Int64) (c : Call) : Act (Node E S) Err (Option Call) :=
  match c.stage with
  | .lookup => do
    let n ← Act.get
    pure (if n.memPool.contains (c.tx.hash P) then none else some ⟨c.tx, .verify⟩)
  | .verify => do
    Act.lift (c.tx.verify P)
    Node.launch (.transaction (c.tx.seenAt P now))
    pure (Call.adding (c.tx.seenAt P now) .count)
  | .add stage => do
    let next ← Node.onPool (TxPool.addStage P c.tx stage)
    pure (Call.adding c.tx next)

/-- One step of a call of `createNewBlock`. -/
def Production.step [ConsensusEngine P E] [SealingEngine P E] [Storage P S] (fuel : ℕ)
    (key : PrivateKey) (tick : Tick) : Production → Act (Node E S) Err Production
  | .idle => do
    let n ← Act.get
    let currentHeader ← Act.lift (n.chain.getHeaderLocked n.chain.heightLocked)
    pure (.headerRead currentHeader)
  | .headerRead currentHeader => do
    -- `Pending` takes no lock; it is one read of the slice
    let n ← Act.get
    pure (.pendingRead currentHeader n.memPool.pending.txx)
  | .pendingRead currentHeader txx => do
    let n ← Act.get
    let b ← Act.lift (n.chain.buildBlock P key currentHeader txx tick)
    pure (.signed b)
  | .signed b => do
    Node.onChain (Blockchain.addBlock P fuel b)
    pure (.added b)
  | .added b => do
    Act.modify fun n => { n with memPool := n.memPool.clearPending }
    Node.launch (.block b)
    pure .idle

/-- The steps of one call, at most `k` of them, with nothing in between. -/
def callSteps (now : Int64) : ℕ → Option Call → Act (Node E S) Err (Option Call)
  | 0, c => pure c
  | _ + 1, none => pure none
  | k + 1, some c => c.step P now >>= callSteps now k

def productionSteps [ConsensusEngine P E] [SealingEngine P E] [Storage P S] (fuel : ℕ)
    (key : PrivateKey) (tick : Tick) : ℕ → Production → Act (Node E S) Err Production
  | 0, p => pure p
  | k + 1, p => p.step P fuel key tick >>= productionSteps fuel key tick k

end Steps

/-! ### The steps are the call -/

section Sequential

variable {E S : Type} {P : Primitives}

theorem callSteps_none (now : Int64) (k : ℕ) (n : Node E S) :
    callSteps P now k none n = (.ok none, n) := by
  cases k <;> rfl

/-- A sequence of calls on the pool is a call on the pool. -/
theorem Node.onPool_bind {α β : Type} (m : Act TxPool Err α) (f : α → Act TxPool Err β) :
    (Node.onPool (m >>= f) : Act (Node E S) Err β) =
      Node.onPool m >>= fun a => Node.onPool (f a) := by
  unfold Node.onPool
  refine Act.on_bind ?_ ?_ m f
  · exact fun _ _ => rfl
  · exact fun _ _ _ => rfl

/-- In `TxPool.Add` the steps of the call are the stages of the pool. -/
theorem callSteps_adding (tx : Transaction) (now : Int64) (k : ℕ) (stage : TxPool.AddStage) :
    (callSteps P now k (Call.adding tx stage) >>= fun _ => pure () : Act (Node E S) Err Unit) =
      Node.onPool (TxPool.addStages P tx k stage >>= fun _ => pure ()) := by
  induction k generalizing stage with
  | zero => rfl
  | succ k ih =>
    by_cases hdone : stage = .done
    · subst hdone
      funext n
      have hpool : (TxPool.addStages P tx (k + 1) .done >>= fun _ => pure ()) n.memPool =
          (.ok (), n.memPool) := Act.bind_apply_ok (TxPool.addStages_done tx _) _
      unfold Node.onPool
      rw [Act.on_apply, hpool]
      exact Act.bind_apply_ok (callSteps_none now _ n) _
    · have hadding : Call.adding tx stage = some ⟨tx, .add stage⟩ := by
        cases stage <;> first | rfl | exact absurd rfl hdone
      rw [hadding, callSteps, TxPool.addStages, Call.step, bind_assoc, bind_assoc, bind_assoc,
        Node.onPool_bind]
      refine bind_congr fun next => ?_
      rw [pure_bind, ih]

/-- **The steps of a call of `ProcessTransaction` are the call.** -/
theorem processTransaction_eq_steps (tx : Transaction) (now : Int64) :
    (callSteps P now 8 (some ⟨tx, .lookup⟩) >>= fun _ => pure () : Act (Node E S) Err Unit) =
      Node.processTransaction P tx now := by
  have hlookup : ∀ n : Node E S,
      (callSteps P now 8 (some ⟨tx, .lookup⟩) >>= fun _ => pure ()) n =
        (callSteps P now 7
          (if n.memPool.contains (tx.hash P) then none else some ⟨tx, .verify⟩) >>=
            fun _ => pure ()) n := fun _ => rfl
  have hadd : (callSteps P now 6 (Call.adding (tx.seenAt P now) .count) >>= fun _ => pure () :
      Act (Node E S) Err Unit) = Node.onPool (TxPool.add P (tx.seenAt P now)) := by
    rw [callSteps_adding]
    exact congrArg Node.onPool (funext (TxPool.add_eq_stages _))
  funext n
  rw [hlookup]
  unfold Node.processTransaction
  rw [Act.get_bind_apply]
  by_cases hknown : n.memPool.contains (tx.hash P)
  · rw [if_pos hknown, if_pos hknown]
    rfl
  · rw [if_neg hknown, if_neg hknown, callSteps, Call.step, ← hadd]
    simp only [bind_assoc, pure_bind]

/-- **So are those of `createNewBlock`.** -/
theorem createNewBlock_eq_steps [ConsensusEngine P E] [SealingEngine P E] [Storage P S] (fuel : ℕ)
    (key : PrivateKey) (tick : Tick) :
    (productionSteps P fuel key tick 5 .idle >>= fun _ => pure () : Act (Node E S) Err Unit) =
      Node.createNewBlock P fuel key tick := by
  funext n
  unfold Node.createNewBlock
  simp only [productionSteps, Production.step, bind_assoc, pure_bind, Act.get_bind_apply,
    Blockchain.assembleBlock]
  cases n.chain.getHeaderLocked n.chain.heightLocked <;> rfl

end Sequential

/-! ### Runs -/

/-- A node with the calls that are under way. -/
structure Threads (E S : Type) where
  node : Node E S
  -- the calls of `ProcessTransaction`, by the goroutine
  calls : ℕ → Option Call
  -- the validator loop
  producer : Production

/-- What can happen next. -/
inductive Move
  -- a goroutine calls `ProcessTransaction`
  | submit (id : ℕ) (tx : Transaction)
  -- its call takes a step
  | advance (id : ℕ) (now : Int64)
  -- `createNewBlock` takes a step
  | produce (tick : Tick)
  -- `processBlock` or `processBlocks` calls `AddBlock`
  | deliver (b : Block)

/-- What is noted of a step. -/
inductive Event
  -- `p.pending.Add(tx)` was called
  | admitted (tx : Transaction)
  -- `AddBlock` has returned nil
  | accepted (b : Block)

def Call.event (c : Call) : Option Event :=
  if c.stage = .add .addPending then some (.admitted c.tx) else none

def Production.event : Outcome Err Production → Option Event
  | .ok (.added b) => some (.accepted b)
  | _ => none

namespace Threads

variable {E S : Type}

/-- A node on which no call is under way. -/
def start (n : Node E S) : Threads E S := ⟨n, fun _ => none, .idle⟩

/-- One step. A call that ends with an error or a panic is over. -/
inductive Step (P : Primitives) [ConsensusEngine P E] [SealingEngine P E] [Storage P S]
    (s : Threads E S) : Move → Option Event → Threads E S → Prop
  | submit {id : ℕ} {tx : Transaction} (free : s.calls id = none) :
      Step P s (.submit id tx) none
        { s with calls := Function.update s.calls id (some ⟨tx, .lookup⟩) }
  | advance {id : ℕ} {now : Int64} {c : Call} {o : Outcome Err (Option Call)} {n' : Node E S}
      (running : s.calls id = some c) (call : c.step P now s.node = (o, n')) :
      Step P s (.advance id now) c.event
        { s with node := n', calls := Function.update s.calls id o.toOption.join }
  | produce {tick : Tick} {key : PrivateKey} {fuel : ℕ} {o : Outcome Err Production}
      {n' : Node E S} (held : s.node.privateKey = some key)
      (call : s.producer.step P fuel key tick s.node = (o, n')) :
      Step P s (.produce tick) (Production.event o)
        { s with node := n', producer := o.toOption.getD .idle }
  | deliver {b : Block} {fuel : ℕ} {o : Outcome Err Unit} {bc : Blockchain E S}
      (call : Blockchain.addBlock P fuel b s.node.chain = (o, bc)) :
      Step P s (.deliver b) (if o = .ok () then some (.accepted b) else none)
        { s with node := { s.node with chain := bc } }

/-- The event is noted in the run. -/
def Noted (es : List (Move × Option Event)) (e : Event) : Prop := ∃ m, (m, some e) ∈ es

/-- The transaction is pending, up to what gob does not carry. -/
def Pending (s : Threads E S) (tx : Transaction) : Prop :=
  ∃ tx' ∈ s.node.memPool.pending.txx, tx'.exported = tx.exported

/-- A condition on the order of the steps: when `ClearPending` is called, everything that is pending
has been read for the block; and when a transaction is added to the pending ones, there is no other
one of the same hash. -/
structure Undisturbed (P : Primitives) (s : Threads E S) (m : Move) : Prop where
  cleared : ∀ tick b, m = .produce tick → s.producer = .added b →
    ∀ tx ∈ s.node.memPool.pending.txx, tx ∈ b.transactions
  distinct : ∀ id now tx, m = .advance id now → s.calls id = some ⟨tx, .add .addPending⟩ →
    ∀ tx' ∈ s.node.memPool.pending.txx, tx'.hash P = tx.hash P → tx'.exported = tx.exported

/-- One step of that kind. -/
def UndisturbedStep (P : Primitives) [ConsensusEngine P E] [SealingEngine P E] [Storage P S]
    (s : Threads E S) (m : Move) (e : Option Event) (s' : Threads E S) : Prop :=
  Undisturbed P s m ∧ Step P s m e s'

/-! ### What the steps do to the pending transactions -/

section Steps

variable {P : Primitives}

/-- A call adds its transaction to the pending ones, in one of its steps. -/
theorem pending_call {c : Call} {now : Int64} {n n' : Node E S} {o : Outcome Err (Option Call)}
    (hcall : c.step P now n = (o, n')) :
    n'.memPool.pending = if c.stage = .add .addPending then n.memPool.pending.add P c.tx
      else n.memPool.pending := by
  obtain rfl : (c.step P now n).2 = n' := congrArg Prod.snd hcall
  rcases c with ⟨tx, _ | _ | stage⟩
  · rfl
  · show ((Act.lift (tx.verify P) >>= _ : Act (Node E S) Err (Option Call)) n).2.memPool.pending = _
    cases tx.verify P <;> rfl
  · cases stage with
    | first =>
      show ((Node.onPool (Act.lift (n.memPool.oldestHash P) >>= _) >>= _ :
        Act (Node E S) Err (Option Call)) n).2.memPool.pending = _
      cases n.memPool.oldestHash P <;> rfl
    | count => rfl
    | remove h => rfl
    | contains => rfl
    | addAll => rfl
    | addPending => rfl
    | done => rfl

variable [ConsensusEngine P E] [SealingEngine P E] [Storage P S]

/-- `createNewBlock` clears the pending transactions, in its last step. -/
theorem pending_production {p : Production} {fuel : ℕ} {key : PrivateKey} {tick : Tick}
    {n n' : Node E S} {o : Outcome Err Production} (hcall : p.step P fuel key tick n = (o, n')) :
    n'.memPool.pending = n.memPool.pending ∨ n'.memPool.pending = .new ∧ ∃ b, p = .added b := by
  obtain rfl : (p.step P fuel key tick n).2 = n' := congrArg Prod.snd hcall
  cases p with
  | idle =>
    left
    show ((Act.lift (n.chain.getHeaderLocked n.chain.heightLocked) >>= _ :
      Act (Node E S) Err Production) n).2.memPool.pending = _
    cases n.chain.getHeaderLocked n.chain.heightLocked <;> rfl
  | headerRead h => exact Or.inl rfl
  | pendingRead h txx =>
    left
    show ((Act.lift (n.chain.buildBlock P key h txx tick) >>= _ :
      Act (Node E S) Err Production) n).2.memPool.pending = _
    cases n.chain.buildBlock P key h txx tick <;> rfl
  | signed b =>
    have hquiet : Act.Moves (Node.Quiet P (fun _ => True))
        (Production.step P fuel key tick (.signed b) : Act (Node E S) Err Production) :=
      (Node.addBlock_quiet fuel trivial).bind fun _ => Act.Moves.pure _
    rw [(hquiet n).memPool]
    exact Or.inl rfl
  | added b => exact Or.inr ⟨rfl, b, rfl⟩

end Steps

/-! ### Nothing is lost -/

section Accounting

variable {P : Primitives} {es : List (Move × Option Event)} {s s' : Threads E S}

theorem noted_append {m : Move} {o : Option Event} {e : Event} :
    Noted (es ++ [(m, o)]) e ↔ Noted es e ∨ o = some e := by
  unfold Noted
  simp only [List.mem_append, List.mem_singleton, Prod.mk.injEq, exists_or, exists_and_right]
  exact or_congr_right (and_iff_right ⟨m, rfl⟩ |>.trans eq_comm)

/-- What was admitted is pending or in an accepted block, and so is everything that is about to be
cleared. -/
structure Accounted (P : Primitives) (es : List (Move × Option Event)) (s : Threads E S) :
    Prop where
  indexed : s.node.memPool.pending.Indexed P
  added : ∀ b, s.producer = .added b → Noted es (.accepted b)
  kept : ∀ tx, Noted es (.admitted tx) → s.Pending tx ∨ ∃ b, Noted es (.accepted b) ∧ b.Carries tx

/-- What a step has to see to. -/
theorem Accounted.extend {m : Move} {e : Option Event} (hs : Accounted P es s)
    (hindexed : s'.node.memPool.pending.Indexed P)
    (hadded : ∀ b, s'.producer = .added b → s.producer = .added b ∨ e = some (.accepted b))
    (hpending : ∀ tx, s.Pending tx → s'.Pending tx ∨ ∃ b, Noted es (.accepted b) ∧ b.Carries tx)
    (hadmitted : ∀ tx, e = some (.admitted tx) → s'.Pending tx) :
    Accounted P (es ++ [(m, e)]) s' := by
  have hmono : ∀ tx, (∃ b, Noted es (.accepted b) ∧ b.Carries tx) →
      ∃ b, Noted (es ++ [(m, e)]) (.accepted b) ∧ b.Carries tx := by
    rintro tx ⟨b, haccepted, hcarries⟩
    exact ⟨b, noted_append.mpr (Or.inl haccepted), hcarries⟩
  refine ⟨hindexed, fun b hb => ?_, fun tx htx => ?_⟩
  · exact noted_append.mpr ((hadded b hb).imp_left (hs.added b))
  · rcases noted_append.mp htx with hold | hnew
    · rcases hs.kept tx hold with hstill | hblock
      · exact (hpending tx hstill).imp_right (hmono tx)
      · exact Or.inr (hmono tx hblock)
    · exact Or.inl (hadmitted tx hnew)

/-- A step that leaves the pending transactions alone and admits none. -/
theorem Accounted.extend_same {m : Move} {e : Option Event} (hs : Accounted P es s)
    (hpending : s'.node.memPool.pending = s.node.memPool.pending)
    (hadded : ∀ b, s'.producer = .added b → s.producer = .added b ∨ e = some (.accepted b))
    (hnot : ∀ tx, e ≠ some (.admitted tx)) : Accounted P (es ++ [(m, e)]) s' := by
  refine hs.extend ?_ hadded ?_ fun tx he => absurd he (hnot tx)
  · rw [hpending]
    exact hs.indexed
  · rintro tx ⟨tx', hmem, hexp⟩
    rw [← hpending] at hmem
    exact Or.inl ⟨tx', hmem, hexp⟩

/-- The step that adds. If the hash is there already, so is the transaction. -/
theorem Accounted.extend_add {m : Move} {tx : Transaction} (hs : Accounted P es s)
    (hproducer : s'.producer = s.producer)
    (hpending : s'.node.memPool.pending = s.node.memPool.pending.add P tx)
    (hdistinct : ∀ tx' ∈ s.node.memPool.pending.txx, tx'.hash P = tx.hash P →
      tx'.exported = tx.exported) :
    Accounted P (es ++ [(m, some (.admitted tx))]) s' := by
  refine hs.extend ?_ ?_ ?_ ?_
  · rw [hpending]
    exact hs.indexed.add tx
  · intro b hb
    exact Or.inl (hproducer.symm.trans hb)
  · rintro tx₀ ⟨tx', hmem, hexp⟩
    refine Or.inl ⟨tx', ?_, hexp⟩
    rw [hpending]
    exact TxSortedMap.subset_txx_add tx hmem
  · intro tx₀ he
    obtain rfl : tx = tx₀ := Event.admitted.inj (Option.some.inj he)
    obtain ⟨tx', hmem, hsame⟩ := hs.indexed.exists_mem_add tx
    rw [← hpending] at hmem
    refine ⟨tx', hmem, ?_⟩
    rcases hsame with ⟨hold, hhash⟩ | rfl
    · exact hdistinct tx' hold hhash
    · rfl

/-- The step that clears. What was pending is in the block, which was accepted before. -/
theorem Accounted.extend_clear {m : Move} {e : Option Event} {b : Block} (hs : Accounted P es s)
    (hb : s.producer = .added b) (hpending : s'.node.memPool.pending = .new)
    (hadded : ∀ b, s'.producer = .added b → s.producer = .added b ∨ e = some (.accepted b))
    (hnot : ∀ tx, e ≠ some (.admitted tx))
    (hcleared : ∀ tx ∈ s.node.memPool.pending.txx, tx ∈ b.transactions) :
    Accounted P (es ++ [(m, e)]) s' := by
  refine hs.extend ?_ hadded ?_ fun tx he => absurd he (hnot tx)
  · rw [hpending]
    exact TxSortedMap.indexed_new
  · rintro tx ⟨tx', hmem, hexp⟩
    exact Or.inr ⟨b, hs.added b hb, tx', hcleared tx' hmem, hexp⟩

variable [ConsensusEngine P E] [SealingEngine P E] [Storage P S]

/-- Every step keeps the account, if it is undisturbed. -/
theorem Accounted.step {m : Move} {e : Option Event} (hs : Accounted P es s)
    (hundisturbed : Undisturbed P s m) (hstep : Step P s m e s') :
    Accounted P (es ++ [(m, e)]) s' := by
  cases hstep with
  | submit _ => exact hs.extend_same rfl (fun _ => Or.inl) fun _ he => nomatch he
  | deliver _ =>
    refine hs.extend_same rfl (fun _ => Or.inl) fun tx he => ?_
    split at he <;> exact nomatch he
  | @advance id now c o n' running call =>
    have hpending := pending_call call
    by_cases hstage : c.stage = .add .addPending
    · rw [if_pos hstage] at hpending
      have hrunning : s.calls id = some ⟨c.tx, .add .addPending⟩ := by rw [running, ← hstage]
      rw [Call.event, if_pos hstage]
      exact hs.extend_add rfl hpending (hundisturbed.distinct id now c.tx rfl hrunning)
    · rw [if_neg hstage] at hpending
      rw [Call.event, if_neg hstage]
      exact hs.extend_same hpending (fun _ => Or.inl) fun _ he => nomatch he
  | @produce tick key fuel o n' _ call =>
    have hnot : ∀ tx, Production.event o ≠ some (.admitted tx) := by
      intro tx he
      unfold Production.event at he
      split at he <;> exact nomatch he
    have hadded : ∀ b, o.toOption.getD .idle = .added b →
        s.producer = .added b ∨ Production.event o = some (.accepted b) := by
      intro b hb
      cases o with
      | ok p =>
        obtain rfl : p = .added b := hb
        exact Or.inr rfl
      | err _ => exact nomatch hb
      | panic _ => exact nomatch hb
      | outOfFuel => exact nomatch hb
    rcases pending_production call with hpending | ⟨hpending, b, hb⟩
    · exact hs.extend_same hpending hadded hnot
    · exact hs.extend_clear hb hpending hadded hnot (hundisturbed.cleared tick b rfl hb)

/-- **When no transaction is lost.** From a new node on any store, in every run of any calls in
which `ClearPending` finds only what was read for the block and no transaction is added beside a
different one of the same hash: whatever was admitted is pending, or in a block that the chain has
accepted. -/
theorem no_transaction_lost {fuel : ℕ} {opts : Node.ServerOpts E S} {n₀ : Node E S}
    (hnew : Node.newServer P fuel opts = .ok n₀)
    (hrun : History (UndisturbedStep P) (start n₀) es s) :
    ∀ tx, Noted es (.admitted tx) → s.Pending tx ∨ ∃ b, Noted es (.accepted b) ∧ b.Carries tx := by
  have hstart : Accounted P [] (start n₀) := by
    refine ⟨(Node.sound_newServer hnew).pending, fun b hb => (nomatch hb), ?_⟩
    rintro tx ⟨m, hm⟩
    exact absurd hm List.not_mem_nil
  have hend : Accounted P es s :=
    hrun.recorded (Accounted P) hstart fun _ _ _ _ _ _ hs hstep => hs.step hstep.1 hstep.2
  exact hend.kept

end Accounting

/-! ### When nothing is added during production -/

section Window

variable {P : Primitives} [ConsensusEngine P E] [SealingEngine P E] [Storage P S]

/-- What `createNewBlock` has read is what is pending. -/
def UpToDate (n : Node E S) : Production → Prop
  | .idle => True
  | .headerRead _ => True
  | .pendingRead _ txx => n.memPool.pending.txx = txx
  | .signed b => n.memPool.pending.txx = b.transactions
  | .added b => n.memPool.pending.txx = b.transactions

/-- `createNewBlock` keeps that by itself. -/
theorem UpToDate.production {p : Production} {fuel : ℕ} {key : PrivateKey} {tick : Tick}
    {n n' : Node E S} {o : Outcome Err Production} (hn : UpToDate n p)
    (hcall : p.step P fuel key tick n = (o, n')) : UpToDate n' (o.toOption.getD .idle) := by
  by_cases hok : ∃ p', o = .ok p'
  case neg =>
    -- the call is over
    have hover : o.toOption = none := Option.eq_none_iff_forall_ne_some.mpr fun p' hp' =>
      hok ⟨p', Outcome.toOption_eq_some.mp hp'⟩
    rw [hover]
    trivial
  case pos =>
    obtain ⟨p', rfl⟩ := hok
    cases p with
    | idle =>
      obtain ⟨_, _, -, hcall⟩ := Act.bind_eq_ok.mp hcall
      obtain ⟨h, _, -, hcall⟩ := Act.bind_eq_ok.mp hcall
      obtain rfl := Outcome.ok.inj (Prod.mk.inj hcall).1
      trivial
    | headerRead h =>
      obtain ⟨hp', rfl⟩ := Prod.mk.inj hcall
      obtain rfl := Outcome.ok.inj hp'
      rfl
    | pendingRead h txx =>
      rw [Production.step, Act.get_bind_apply] at hcall
      obtain ⟨b, hbuild, hcall⟩ := Act.lift_bind_eq_ok.mp hcall
      obtain ⟨hp', rfl⟩ := Prod.mk.inj hcall
      obtain rfl := Outcome.ok.inj hp'
      exact hn.trans (Blockchain.buildBlock_transactions hbuild).symm
    | signed b =>
      obtain ⟨_, n₁, hadd, hcall⟩ := Act.bind_eq_ok.mp hcall
      obtain ⟨hp', rfl⟩ := Prod.mk.inj hcall
      obtain rfl := Outcome.ok.inj hp'
      have hquiet : Act.Moves (Node.Quiet P (fun _ => True))
          (Node.onChain (Blockchain.addBlock P fuel b) : Act (Node E S) Err Unit) :=
        Node.addBlock_quiet fuel trivial
      have hsame := (hquiet n).memPool
      rw [hadd] at hsame
      show n₁.memPool.pending.txx = b.transactions
      rw [hsame]
      exact hn
    | added b =>
      obtain ⟨hp', rfl⟩ := Prod.mk.inj hcall
      obtain rfl := Outcome.ok.inj hp'
      trivial

/-- A condition on the order of the steps: no transaction is added to the pending ones between the
moment when `createNewBlock` reads them and `ClearPending`. -/
def OutsideProduction (s : Threads E S) (m : Move) : Prop :=
  ∀ id now tx, m = .advance id now → s.calls id = some ⟨tx, .add .addPending⟩ →
    s.producer = .idle ∨ ∃ h, s.producer = .headerRead h

theorem UpToDate.step {s s' : Threads E S} {m : Move} {e : Option Event}
    (hs : UpToDate s.node s.producer) (houtside : s.OutsideProduction m)
    (hstep : Step P s m e s') : UpToDate s'.node s'.producer := by
  cases hstep with
  | submit _ => exact hs
  | deliver _ =>
    cases hp : s.producer <;> rw [hp] at hs <;> exact hs
  | produce _ call => exact hs.production call
  | @advance id now c o n' running call =>
    have hpending := pending_call call
    by_cases hstage : c.stage = .add .addPending
    · have hrunning : s.calls id = some ⟨c.tx, .add .addPending⟩ := by rw [running, ← hstage]
      show UpToDate n' s.producer
      rcases houtside id now c.tx rfl hrunning with hp | ⟨h, hp⟩
      · rw [hp]
        trivial
      · rw [hp]
        trivial
    · rw [if_neg hstage] at hpending
      show UpToDate n' s.producer
      cases hp : s.producer <;> rw [hp] at hs <;> first | trivial | rwa [UpToDate, hpending]

/-- **Then `ClearPending` finds what was read.** The first condition of `Undisturbed` is met in
every run in which nothing is added during production. -/
theorem pending_eq_of_outsideProduction {n : Node E S} {es : List (Move × Option Event)}
    {s : Threads E S} {b : Block}
    (hrun : History (fun s m e s' => s.OutsideProduction m ∧ Step P s m e s') (start n) es s)
    (hb : s.producer = .added b) : s.node.memPool.pending.txx = b.transactions := by
  have hstart : UpToDate (start n).node (start n).producer := trivial
  have hread : UpToDate s.node s.producer :=
    hrun.invariant (fun s => UpToDate s.node s.producer) hstart
      fun _ _ _ _ hs hstep => hs.step hstep.1 hstep.2
  rwa [hb] at hread

end Window

/-! ### A transaction that arrives during production -/

section Example

variable {P : Primitives} [ConsensusEngine P E] [SealingEngine P E] [Storage P S]
  {s : Threads E S} {e : Option Event} {n' : Node E S}

theorem Step.advance_of {id : ℕ} {now : Int64} {c : Call} {o : Outcome Err (Option Call)}
    (running : s.calls id = some c) (call : c.step P now s.node = (o, n')) (hevent : c.event = e) :
    Step P s (.advance id now) e
      { s with node := n', calls := Function.update s.calls id o.toOption.join } :=
  hevent ▸ .advance running call

theorem Step.produce_of {tick : Tick} {key : PrivateKey} (fuel : ℕ) {o : Outcome Err Production}
    (held : s.node.privateKey = some key) (call : s.producer.step P fuel key tick s.node = (o, n'))
    (hevent : Production.event o = e) :
    Step P s (.produce tick) e { s with node := n', producer := o.toOption.getD .idle } :=
  hevent ▸ .produce held call

/-- A call of `ProcessTransaction` from beginning to end. -/
def callRun (tx : Transaction) : List (Move × Option Event) :=
  [(.submit 0 tx, none), (.advance 0 0, none), (.advance 0 0, none), (.advance 0 0, none),
    (.advance 0 0, none), (.advance 0 0, none),
    (.advance 0 0, some (.admitted (tx.seenAt .sample 0)))]

theorem production_signs {key : PrivateKey} {tick : Tick} {n : Node E S} {h : Header}
    {txx : List Transaction} {b : Block} (hbuild : n.chain.buildBlock P key h txx tick = .ok b)
    (fuel : ℕ) :
    Production.step P fuel key tick (.pendingRead h txx) n = (.ok (.signed b), n) := by
  rw [Production.step, Act.get_bind_apply, hbuild, Act.bind_apply_ok (Act.lift_apply _ _)]
  rfl

theorem production_adds {key : PrivateKey} {tick : Tick} {n : Node E S} {b : Block} {fuel : ℕ}
    {bc : Blockchain E S} (hadd : Blockchain.addBlock P fuel b n.chain = (.ok (), bc)) :
    Production.step P fuel key tick (.signed b) n = (.ok (.added b), { n with chain := bc }) :=
  Act.bind_apply_ok (Node.onChain_apply hadd) _

/-- A node without an engine accepts the block it has made, if the transactions execute. -/
theorem exists_accepted {n : Node PoWEngine MemoryStore} {b : Block} (hn : n.Healthy .sample)
    (hnone : n.chain.consensus = none) (hroom : n.chain.headers.length < 2 ^ 32)
    (hb : n.chain.assembleBlock .sample sampleKey n.memPool.pending.txx Node.sampleTick = .ok b)
    (hexec : ∃ fuel, (executeTransactions .sample fuel n.memPool.pending.txx
      n.chain.worldState).1 = .ok ()) :
    ∃ fuel bc, Blockchain.addBlock .sample fuel b n.chain = (.ok (), bc) := by
  obtain ⟨current, h, hassembled⟩ := Blockchain.assembleBlock_spec hb
  obtain ⟨fuel, hok⟩ := (Blockchain.addBlock_assembled_iff .pow hassembled
    sample_idealSignature.correct hn.chain.tip hn.verified).mpr
      ⟨hroom, hexec, fun e he => nomatch hnone.symm.trans he⟩
  exact ⟨fuel, _, Act.eq_mk_of_fst hok⟩

/-- The block without transactions on top of the genesis block, and the chain that takes it. -/
theorem exists_emptyBlock : ∃ (b : Block) (fuel : ℕ) (bc : Blockchain PoWEngine MemoryStore),
    Blockchain.sampleChain.buildBlock .sample sampleKey sampleGenesis [] Node.sampleTick = .ok b ∧
      Blockchain.addBlock .sample fuel b Blockchain.sampleChain = (.ok (), bc) := by
  obtain ⟨b, hbuild⟩ : ∃ b, Blockchain.sampleChain.buildBlock .sample sampleKey sampleGenesis []
      Node.sampleTick = .ok b := ⟨_, rfl⟩
  have hhealthy := Node.Healthy.of_newServer Blockchain.holds_empty (by norm_num)
    (fun i h hh => absurd hh (by simp)) Node.newServer_sampleNode
  obtain ⟨fuel, bc, hadd⟩ := exists_accepted hhealthy rfl (Nat.one_lt_two_pow (by norm_num)) hbuild
    ⟨0, rfl⟩
  exact ⟨b, fuel, bc, hbuild, hadd⟩

/-- The block of the one transaction that a node has been sent. -/
theorem exists_transferBlock : ∃ (b : Block) (fuel : ℕ) (bc : Blockchain PoWEngine MemoryStore),
    Blockchain.sampleChain.buildBlock .sample sampleKey sampleGenesis
        [(sampleTransfer 0 0).seenAt .sample 0] Node.sampleTick = .ok b ∧
      Blockchain.addBlock .sample fuel b Blockchain.sampleChain = (.ok (), bc) := by
  obtain ⟨b, hbuild⟩ : ∃ b, Blockchain.sampleChain.buildBlock .sample sampleKey sampleGenesis
      [(sampleTransfer 0 0).seenAt .sample 0] Node.sampleTick = .ok b := ⟨_, rfl⟩
  have hrun : History (Node.Handled .sample Node.noContent) Node.sampleNode
      [(.submitted (sampleTransfer 0 0) 0, .ok ())] (Node.pendingNode (sampleTransfer 0 0)) :=
    .call .start ⟨0, rfl⟩
  have hhealthy := Node.healthy_of_run Blockchain.holds_empty (by norm_num)
    (fun i h hh => absurd hh (by simp)) Node.newServer_sampleNode hrun
  obtain ⟨fuel, bc, hadd⟩ := exists_accepted hhealthy rfl (Nat.one_lt_two_pow (by norm_num)) hbuild
    ⟨1, by decide +kernel⟩
  exact ⟨b, fuel, bc, hbuild, hadd⟩

/-- A call of `createNewBlock` from beginning to end, with the block that is accepted. -/
def blockRun (b : Block) : List (Move × Option Event) :=
  [(.produce Node.sampleTick, none), (.produce Node.sampleTick, none),
    (.produce Node.sampleTick, none), (.produce Node.sampleTick, some (.accepted b)),
    (.produce Node.sampleTick, none)]

/-- A transaction is submitted, a block is made of it, and another one is submitted. -/
def fruitfulRun (b : Block) : List (Move × Option Event) :=
  callRun (sampleTransfer 0 0) ++ (blockRun b ++ callRun (TxPool.note 1))

/-- The theorem for a run in which a block is made between two submissions. `ClearPending` finds the
first transaction, which is in the block. -/
theorem no_transaction_lost_sampleTransfer :
    ∃ b s, History (UndisturbedStep .sample) (start Node.sampleNode) (fruitfulRun b) s ∧
      b.transactions = [(sampleTransfer 0 0).seenAt .sample 0] ∧
      ∀ tx ∈ [sampleTransfer 0 0, TxPool.note 1],
        s.Pending (tx.seenAt .sample 0) ∨
          ∃ b', Noted (fruitfulRun b) (.accepted b') ∧ b'.Carries (tx.seenAt .sample 0) := by
  obtain ⟨b, fuel, bc, hbuild, hadd⟩ := exists_transferBlock
  have htxx := Blockchain.buildBlock_transactions hbuild
  have hsubmit : ∀ {s : Threads PoWEngine MemoryStore} {id tx},
      Undisturbed .sample s (.submit id tx) := ⟨nofun, nofun⟩
  -- whenever a transaction is added, none is pending
  have hadvance : ∀ {s : Threads PoWEngine MemoryStore},
      s.node.memPool.pending.txx = [] → Undisturbed .sample s (.advance 0 0) := by
    intro s hempty
    refine ⟨nofun, fun id now tx _ _ tx' hmem => ?_⟩
    rw [hempty] at hmem
    exact absurd hmem List.not_mem_nil
  have hproduce : ∀ {s : Threads PoWEngine MemoryStore}, (∀ b, s.producer ≠ .added b) →
      Undisturbed .sample s (.produce Node.sampleTick) :=
    fun hother => ⟨fun _ b _ hb => absurd hb (hother b), nofun⟩
  -- what is cleared is what was read for the block
  have hclear : ∀ {s : Threads PoWEngine MemoryStore}, s.producer = .added b →
      s.node.memPool.pending.txx = [(sampleTransfer 0 0).seenAt .sample 0] →
      Undisturbed .sample s (.produce Node.sampleTick) := by
    intro s hb hpending
    refine ⟨fun _ b' _ hb' tx hmem => ?_, nofun⟩
    obtain rfl : b = b' := Production.added.inj (hb.symm.trans hb')
    rwa [htxx, ← hpending]
  have hrun : ∃ s, History (UndisturbedStep .sample) (start Node.sampleNode) (fruitfulRun b) s :=
    ⟨_, .cons ⟨hsubmit, .submit rfl⟩ <|
      .cons ⟨hadvance rfl, .advance_of rfl rfl rfl⟩ <|
      .cons ⟨hadvance rfl, .advance_of rfl rfl rfl⟩ <|
      .cons ⟨hadvance rfl, .advance_of rfl rfl rfl⟩ <|
      .cons ⟨hadvance rfl, .advance_of rfl rfl rfl⟩ <|
      .cons ⟨hadvance rfl, .advance_of rfl rfl rfl⟩ <|
      .cons ⟨hadvance rfl, .advance_of rfl rfl rfl⟩ <|
      .cons ⟨hproduce nofun, .produce_of 0 rfl rfl rfl⟩ <|
      .cons ⟨hproduce nofun, .produce_of 0 rfl rfl rfl⟩ <|
      .cons ⟨hproduce nofun, .produce_of fuel rfl (production_signs hbuild fuel) rfl⟩ <|
      .cons ⟨hproduce nofun, .produce_of fuel rfl (production_adds hadd) rfl⟩ <|
      .cons ⟨hclear rfl rfl, .produce_of 0 rfl rfl rfl⟩ <|
      .cons ⟨hsubmit, .submit rfl⟩ <|
      .cons ⟨hadvance rfl, .advance_of rfl rfl rfl⟩ <|
      .cons ⟨hadvance rfl, .advance_of rfl rfl rfl⟩ <|
      .cons ⟨hadvance rfl, .advance_of rfl rfl rfl⟩ <|
      .cons ⟨hadvance rfl, .advance_of rfl rfl rfl⟩ <|
      .cons ⟨hadvance rfl, .advance_of rfl rfl rfl⟩ <|
      .cons ⟨hadvance rfl, .advance_of rfl rfl rfl⟩ .start⟩
  obtain ⟨s, hrun⟩ := hrun
  refine ⟨b, s, hrun, htxx, fun tx hmem => ?_⟩
  refine no_transaction_lost Node.newServer_sampleNode hrun _ ⟨.advance 0 0, ?_⟩
  rcases List.mem_pair.mp hmem with rfl | rfl <;> simp [fruitfulRun, callRun]

/-- The call comes between the reading of the pending transactions and the sealing of the block. -/
def lossyRun (tx : Transaction) (b : Block) : List (Move × Option Event) :=
  (.produce Node.sampleTick, none) :: (.produce Node.sampleTick, none) :: (callRun tx ++
    [(.produce Node.sampleTick, none), (.produce Node.sampleTick, some (.accepted b)),
      (.produce Node.sampleTick, none)])

/-- **A transaction is lost.** `createNewBlock` reads that nothing is pending, then the transaction
is admitted, and the empty block is sealed and accepted. `ClearPending` takes the transaction away.
It is in no block, and a second submission is ignored, since the pool knows its hash. -/
theorem transaction_lost :
    Node.newServer .sample 1 Node.sampleOpts = .ok Node.sampleNode ∧
      ∃ b s, History (Step .sample) (start Node.sampleNode) (lossyRun (sampleTransfer 0 0) b) s ∧
        Noted (lossyRun (sampleTransfer 0 0) b)
          (.admitted ((sampleTransfer 0 0).seenAt .sample 0)) ∧
        ¬ s.Pending ((sampleTransfer 0 0).seenAt .sample 0) ∧
        (∀ b', Noted (lossyRun (sampleTransfer 0 0) b) (.accepted b') →
          ¬ b'.Carries ((sampleTransfer 0 0).seenAt .sample 0)) ∧
        ∀ now, Node.processTransaction .sample (sampleTransfer 0 0) now s.node =
          (.ok (), s.node) := by
  obtain ⟨b, fuel, bc, hbuild, hadd⟩ := exists_emptyBlock
  have hrun : ∃ s, History (Step .sample) (start Node.sampleNode)
      (lossyRun (sampleTransfer 0 0) b) s ∧
        s.node.memPool = (Node.pendingNode (sampleTransfer 0 0)).memPool.clearPending :=
    ⟨_, .cons (.produce_of 0 rfl rfl rfl) <|
      .cons (.produce_of 0 rfl rfl rfl) <|
      .cons (.submit rfl) <|
      .cons (.advance_of rfl rfl rfl) <|
      .cons (.advance_of rfl rfl rfl) <|
      .cons (.advance_of rfl rfl rfl) <|
      .cons (.advance_of rfl rfl rfl) <|
      .cons (.advance_of rfl rfl rfl) <|
      .cons (.advance_of rfl rfl rfl) <|
      .cons (.produce_of fuel rfl (production_signs hbuild fuel) rfl) <|
      .cons (.produce_of fuel rfl (production_adds hadd) rfl) <|
      .cons (.produce_of 0 rfl rfl rfl) .start, rfl⟩
  obtain ⟨s, hrun, hpool⟩ := hrun
  have hknown : s.node.memPool.contains ((sampleTransfer 0 0).hash .sample) := by
    rw [hpool]
    decide +kernel
  refine ⟨Node.newServer_sampleNode, b, s, hrun, ⟨.advance 0 0, ?_⟩, ?_, ?_, fun now => ?_⟩
  · simp [lossyRun, callRun]
  · rintro ⟨tx', hmem, -⟩
    rw [hpool] at hmem
    exact absurd hmem List.not_mem_nil
  · rintro b' ⟨m, hm⟩ ⟨tx', hmem, -⟩
    obtain ⟨-, rfl⟩ : m = .produce Node.sampleTick ∧ b' = b := by simpa [lossyRun, callRun] using hm
    rw [Blockchain.buildBlock_transactions hbuild] at hmem
    exact absurd hmem List.not_mem_nil
  · unfold Node.processTransaction
    rw [Act.get_bind_apply, if_pos hknown]
    rfl

end Example

end Threads

end Blockz
