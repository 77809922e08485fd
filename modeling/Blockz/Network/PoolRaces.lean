import Blockz.Network.PoolHistory

/-!
# Calls of `Add` that run at the same time

The message loop and the handlers of the JSON-RPC server call `TxPool.Add` from different
goroutines. Each call on a collection is locked, the sequence of them is not: between `Count` and
`Add` of one call another one can read the same count.

A call that has found room is *holding* a place until it has called `all.Add`; a call that has found
the pool full is *replacing* the oldest transaction until it has called `all.Remove`. The pool stays
within its limit if the places that are held are counted (`Reserved`), and `Count` alone does not
count them.

* `Reserved.moved` — one step, if a call reads `Count` only when there is room for the calls under
  way.
* `races_bounded` — then the limit holds in every state, and `First` has a transaction to return.
* `races_overflow` — without that, two calls put two transactions into a pool for one, and two calls
  that replace the same transaction find the map empty.
-/

namespace Blockz

open Effect

namespace TxPool

/-- A pool with the calls of `Add` that were made on it, and where each of them stands. -/
structure Adders where
  pool : TxPool
  calls : List (Transaction × AddStage)

/-- What can happen next. -/
inductive AdderMove
  -- a goroutine calls `Add`
  | call (tx : Transaction)
  -- the call takes a step
  | advance (i : ℕ)
  -- the validator loop has made a block
  | clearPending

/-- The call has found room and has not used it yet. -/
def AddStage.holds : AddStage → Bool
  | .contains | .addAll => true
  | _ => false

/-- The call has found the pool full and has not removed anything yet. -/
def AddStage.replaces : AddStage → Bool
  | .first | .remove _ => true
  | _ => false

namespace Adders

def holding (s : Adders) : ℕ := s.calls.countP fun c => c.2.holds

def replacing (s : Adders) : ℕ := s.calls.countP fun c => c.2.replaces

/-- The call takes a step. If it ends with a panic it is over. -/
def advance (P : Primitives) (s : Adders) (i : ℕ) : Outcome Err AddStage × Adders :=
  match s.calls[i]? with
  | none => (.ok .done, s)
  | some (tx, stage) =>
    let (o, pool) := addStage P tx stage s.pool
    (o, ⟨pool, s.calls.set i (tx, o.toOption.getD .done)⟩)

def move (P : Primitives) (s : Adders) : AdderMove → Outcome Err AddStage × Adders
  | .call tx => (.ok .count, { s with calls := s.calls ++ [(tx, .count)] })
  | .advance i => s.advance P i
  | .clearPending => (.ok .done, { s with pool := s.pool.clearPending })

def Moved (P : Primitives) (s : Adders) (m : AdderMove) (o : Outcome Err AddStage) (s' : Adders) :
    Prop :=
  s.move P m = (o, s')

/-- A condition on the state before a call reads `Count`: no other call is holding a place or
replacing a transaction, or there is a place for each of them and for this one. -/
def HasRoom (s : Adders) (m : AdderMove) : Prop :=
  ∀ i tx, m = .advance i → s.calls[i]? = some (tx, .count) →
    s.replacing + s.holding = 0 ∨ s.pool.all.count + s.replacing + s.holding < s.pool.maxLength

/-- The condition can be evaluated. -/
instance HasRoom.decidable (s : Adders) : (m : AdderMove) → Decidable (HasRoom s m)
  | .call _ => isTrue nofun
  | .clearPending => isTrue nofun
  | .advance i =>
    decidable_of_iff (∀ c ∈ s.calls[i]?, c.2 = .count → s.replacing + s.holding = 0 ∨
        s.pool.all.count + s.replacing + s.holding < s.pool.maxLength)
      ⟨fun h _ tx heq hget => h (tx, .count) (AdderMove.advance.inj heq ▸ hget) rfl,
        fun h c hget hcount => h i c.1 rfl (hcount ▸ hget)⟩

variable {P : Primitives} {s s' : Adders} {maxLength : ℕ}

theorem advance_of_none {i : ℕ} (hget : s.calls[i]? = none) : s.advance P i = (.ok .done, s) := by
  unfold advance
  rw [hget]

theorem advance_of_some {i : ℕ} {tx : Transaction} {stage : AddStage}
    (hget : s.calls[i]? = some (tx, stage)) :
    s.advance P i = ((addStage P tx stage s.pool).1, ⟨(addStage P tx stage s.pool).2,
      s.calls.set i (tx, (addStage P tx stage s.pool).1.toOption.getD .done)⟩) := by
  unfold advance
  rw [hget]

/-! ### The numbers of calls -/

/-- One call moves on, and the others stay where they are. -/
theorem countP_set_add {α : Type} {l : List α} {i : ℕ} {c : α} (hget : l[i]? = some c) (a : α)
    (f : α → Bool) : (l.set i a).countP f + (f c).toNat = l.countP f + (f a).toNat := by
  obtain ⟨hlt, rfl⟩ := List.getElem?_eq_some_iff.mp hget
  have hite : ∀ b : Bool, (if b = true then 1 else 0) = b.toNat := by decide
  have hle : (f l[i]).toNat ≤ l.countP f := by
    cases hf : f l[i] with
    | false => exact Nat.zero_le _
    | true => exact List.countP_pos_iff.mpr ⟨l[i], List.getElem_mem hlt, hf⟩
  rw [List.countP_set hlt, hite, hite]
  omega

/-! ### The invariant -/

/-- The places that are held fit into the pool. A call that replaces a transaction is alone with a
full pool, and what it is about to remove is there. -/
structure Reserved (P : Primitives) (maxLength : ℕ) (s : Adders) : Prop where
  sound : s.pool.all.Indexed P
  limit : s.pool.maxLength = maxLength
  room : 0 < maxLength
  reserved : s.pool.all.count + s.holding ≤ maxLength
  alone : 0 < s.replacing → s.replacing + s.holding = 1 ∧ s.pool.all.count = maxLength
  present : ∀ c ∈ s.calls, ∀ h, c.2 = .remove h → s.pool.all.contains h

theorem reserved_start {p : TxPool} (hp : p.Sound P) (hcount : p.all.count ≤ p.maxLength) :
    Reserved P p.maxLength ⟨p, []⟩ :=
  ⟨hp.all, rfl, hp.room, hcount, fun hpos => absurd hpos (Nat.lt_irrefl 0),
    fun _ hmem => absurd hmem List.not_mem_nil⟩

theorem Reserved.count_le (hs : Reserved P maxLength s) : s.pool.all.count ≤ maxLength :=
  (Nat.le_add_right _ _).trans hs.reserved

/-- A call that is replacing finds the pool full, so there is an oldest transaction. -/
theorem Reserved.exists_first (hs : Reserved P maxLength s) (hpos : 0 < s.replacing) :
    ∃ oldest rest, s.pool.all.txx = oldest :: rest := by
  have hfull := (hs.alone hpos).2
  rw [hs.sound.count_eq] at hfull
  cases htxx : s.pool.all.txx with
  | nil =>
    rw [htxx] at hfull
    exact absurd hs.room (hfull ▸ Nat.lt_irrefl 0)
  | cons oldest rest => exact ⟨oldest, rest, rfl⟩

theorem replacing_pos {c : Transaction × AddStage} (hmem : c ∈ s.calls) (hc : c.2.replaces = true) :
    0 < s.replacing :=
  List.countP_pos_iff.mpr ⟨c, hmem, hc⟩

theorem holding_pos {c : Transaction × AddStage} (hmem : c ∈ s.calls) (hc : c.2.holds = true) :
    0 < s.holding :=
  List.countP_pos_iff.mpr ⟨c, hmem, hc⟩

/-- Nobody is replacing while a place is held. -/
theorem Reserved.replacing_eq_zero (hs : Reserved P maxLength s) (hpos : 0 < s.holding) :
    s.replacing = 0 := by
  by_contra hne
  have hone := (hs.alone (Nat.pos_of_ne_zero hne)).1
  omega

/-- If no call is replacing, none is about to remove anything. -/
theorem present_of_replacing (hzero : s.replacing = 0) :
    ∀ c ∈ s.calls, ∀ h, c.2 = .remove h → s.pool.all.contains h := by
  intro c hmem h hc
  have hpos := replacing_pos hmem (by rw [hc]; rfl)
  omega

theorem holding_set {i : ℕ} {tx : Transaction} {stage : AddStage}
    (hget : s.calls[i]? = some (tx, stage)) (pool : TxPool) (stage' : AddStage) :
    (⟨pool, s.calls.set i (tx, stage')⟩ : Adders).holding + stage.holds.toNat =
      s.holding + stage'.holds.toNat :=
  countP_set_add hget (tx, stage') fun c => c.2.holds

theorem replacing_set {i : ℕ} {tx : Transaction} {stage : AddStage}
    (hget : s.calls[i]? = some (tx, stage)) (pool : TxPool) (stage' : AddStage) :
    (⟨pool, s.calls.set i (tx, stage')⟩ : Adders).replacing + stage.replaces.toNat =
      s.replacing + stage'.replaces.toNat :=
  countP_set_add hget (tx, stage') fun c => c.2.replaces

/-- A call moves on and leaves `all` as it is. -/
theorem Reserved.set_stage (hs : Reserved P maxLength s) {i : ℕ} {tx : Transaction}
    {stage stage' : AddStage} (hget : s.calls[i]? = some (tx, stage)) {pool : TxPool}
    (hall : pool.all = s.pool.all) (hlimit : pool.maxLength = s.pool.maxLength)
    (hreserved : s.pool.all.count + s.holding + stage'.holds.toNat ≤ maxLength + stage.holds.toNat)
    (halone : stage.replaces.toNat < s.replacing + stage'.replaces.toNat →
      s.replacing + s.holding + stage'.replaces.toNat + stage'.holds.toNat =
        1 + stage.replaces.toNat + stage.holds.toNat ∧ s.pool.all.count = maxLength)
    (hremove : ∀ h, stage' = .remove h → s.pool.all.contains h) :
    Reserved P maxLength ⟨pool, s.calls.set i (tx, stage')⟩ := by
  have hh := holding_set hget pool stage'
  have hr := replacing_set hget pool stage'
  have hcount : pool.all.count = s.pool.all.count := by rw [hall]
  refine ⟨hall ▸ hs.sound, hlimit.trans hs.limit, hs.room, ?_, fun hpos => ?_,
    fun c hmem h hc => ?_⟩
  · show pool.all.count + _ ≤ maxLength
    omega
  · obtain ⟨hone, hfull⟩ := halone (by omega)
    exact ⟨by omega, hcount.trans hfull⟩
  · show pool.all.contains h
    rw [hall]
    rcases List.mem_or_eq_of_mem_set hmem with hold | rfl
    · exact hs.present c hold h hc
    · exact hremove h hc

/-! ### One step -/

section Steps

variable {i : ℕ} {tx : Transaction}

/-- `Count`: the call takes a place, or it is the only one to replace a transaction. -/
theorem Reserved.count (hs : Reserved P maxLength s) (hget : s.calls[i]? = some (tx, .count))
    (hroom : s.replacing + s.holding = 0 ∨
      s.pool.all.count + s.replacing + s.holding < maxLength) :
    Reserved P maxLength ⟨s.pool, s.calls.set i
      (tx, if s.pool.all.count = s.pool.maxLength then .first else .contains)⟩ := by
  have hle := hs.reserved
  rw [hs.limit]
  by_cases hfull : s.pool.all.count = maxLength
  · rw [if_pos hfull]
    refine hs.set_stage hget rfl rfl ?_ (fun _ => ⟨?_, hfull⟩) fun h hc => nomatch hc
    · change s.pool.all.count + s.holding + 0 ≤ maxLength + 0
      omega
    · change s.replacing + s.holding + 1 + 0 = 1 + 0 + 0
      omega
  · rw [if_neg hfull]
    -- nobody is replacing, as the pool is not full
    have hnone : s.replacing = 0 := Nat.eq_zero_of_not_pos fun hpos => hfull (hs.alone hpos).2
    refine hs.set_stage hget rfl rfl ?_ (fun hpos => ?_) fun h hc => nomatch hc
    · change s.pool.all.count + s.holding + 1 ≤ maxLength + 0
      omega
    · change 0 < s.replacing + 0 at hpos
      omega

/-- `First`: there is a transaction to return, and it is there to be removed. -/
theorem Reserved.first (hs : Reserved P maxLength s) (hget : s.calls[i]? = some (tx, .first)) :
    ∃ h, s.pool.oldestHash P = .ok h ∧
      Reserved P maxLength ⟨s.pool, s.calls.set i (tx, .remove h)⟩ := by
  have hpos := replacing_pos (List.mem_of_getElem? hget) rfl
  obtain ⟨hone, hfull⟩ := hs.alone hpos
  obtain ⟨oldest, rest, htxx⟩ := hs.exists_first hpos
  refine ⟨_, oldestHash_eq hs.sound htxx, hs.set_stage hget rfl rfl ?_ (fun _ => ⟨?_, hfull⟩) ?_⟩
  · have hle := hs.reserved
    change s.pool.all.count + s.holding + 0 ≤ maxLength + 0
    omega
  · change s.replacing + s.holding + 1 + 0 = 1 + 1 + 0
    omega
  · rintro h ⟨rfl⟩
    rw [TxSortedMap.contains, hs.sound.mem_lookup, htxx]
    exact List.mem_cons_self

/-- `Remove`: the place that has become free is held by the call. -/
theorem Reserved.remove (hs : Reserved P maxLength s) {h : Hash}
    (hget : s.calls[i]? = some (tx, .remove h)) :
    Reserved P maxLength ⟨{ s.pool with all := s.pool.all.remove h },
      s.calls.set i (tx, .contains)⟩ := by
  have hmem := List.mem_of_getElem? hget
  have hpos := replacing_pos hmem rfl
  obtain ⟨hone, hfull⟩ := hs.alone hpos
  have hcount := hs.sound.count_remove (hs.present _ hmem h rfl)
  have hh := holding_set hget { s.pool with all := s.pool.all.remove h } .contains
  have hr := replacing_set hget { s.pool with all := s.pool.all.remove h } .contains
  change _ + 0 = s.holding + 1 at hh
  change _ + 1 = s.replacing + 0 at hr
  refine ⟨hs.sound.remove h, hs.limit, hs.room, ?_, fun hpos' => ?_,
    present_of_replacing (by omega)⟩
  · show (s.pool.all.remove h).count + _ ≤ maxLength
    omega
  · omega

/-- `Contains`: the call keeps its place, or gives it up. -/
theorem Reserved.contains (hs : Reserved P maxLength s)
    (hget : s.calls[i]? = some (tx, .contains)) :
    Reserved P maxLength ⟨s.pool, s.calls.set i
      (tx, if ¬ s.pool.all.contains (tx.hash P) then .addAll else .done)⟩ := by
  have hpos := holding_pos (List.mem_of_getElem? hget) rfl
  have hle := hs.reserved
  have hnone := hs.replacing_eq_zero hpos
  split
  · refine hs.set_stage hget rfl rfl ?_ (fun hpos' => ?_) fun h hc => nomatch hc
    · change s.pool.all.count + s.holding + 1 ≤ maxLength + 1
      omega
    · change 0 < s.replacing + 0 at hpos'
      omega
  · refine hs.set_stage hget rfl rfl ?_ (fun hpos' => ?_) fun h hc => nomatch hc
    · change s.pool.all.count + s.holding + 0 ≤ maxLength + 1
      omega
    · change 0 < s.replacing + 0 at hpos'
      omega

/-- `all.Add`: the place is used. -/
theorem Reserved.addAll (hs : Reserved P maxLength s) (hget : s.calls[i]? = some (tx, .addAll)) :
    Reserved P maxLength ⟨{ s.pool with all := s.pool.all.add P tx },
      s.calls.set i (tx, .addPending)⟩ := by
  have hpos := holding_pos (List.mem_of_getElem? hget) rfl
  have hle := hs.reserved
  have hnone := hs.replacing_eq_zero hpos
  have hcount := hs.sound.count_add_le tx
  have hh := holding_set hget { s.pool with all := s.pool.all.add P tx } .addPending
  have hr := replacing_set hget { s.pool with all := s.pool.all.add P tx } .addPending
  change _ + 1 = s.holding + 0 at hh
  change _ + 0 = s.replacing + 0 at hr
  refine ⟨hs.sound.add tx, hs.limit, hs.room, ?_, fun hpos' => ?_, present_of_replacing (by omega)⟩
  · show (s.pool.all.add P tx).count + _ ≤ maxLength
    omega
  · omega

/-- **One step of a call.** -/
theorem Reserved.advanced (hs : Reserved P maxLength s) {stage : AddStage}
    (hget : s.calls[i]? = some (tx, stage))
    (hroom : stage = .count → s.replacing + s.holding = 0 ∨
      s.pool.all.count + s.replacing + s.holding < maxLength)
    {o : Outcome Err AddStage} {pool : TxPool} (hstep : addStage P tx stage s.pool = (o, pool)) :
    Reserved P maxLength ⟨pool, s.calls.set i (tx, o.toOption.getD .done)⟩ := by
  have hle := hs.reserved
  cases stage with
  | count =>
    obtain ⟨rfl, rfl⟩ := Prod.mk.inj hstep
    exact hs.count hget (hroom rfl)
  | first =>
    obtain ⟨h, holdest, hnext⟩ := hs.first hget
    have hdone : addStage P tx .first s.pool = (.ok (.remove h), s.pool) := by
      show (Act.lift (s.pool.oldestHash P) >>= fun h => pure (AddStage.remove h) :
        Act TxPool Err AddStage) s.pool = _
      rw [holdest]
      rfl
    obtain ⟨rfl, rfl⟩ := Prod.mk.inj (hdone.symm.trans hstep)
    exact hnext
  | remove h =>
    obtain ⟨rfl, rfl⟩ := Prod.mk.inj hstep
    exact hs.remove hget
  | contains =>
    obtain ⟨rfl, rfl⟩ := Prod.mk.inj hstep
    exact hs.contains hget
  | addAll =>
    obtain ⟨rfl, rfl⟩ := Prod.mk.inj hstep
    exact hs.addAll hget
  | addPending =>
    obtain ⟨rfl, rfl⟩ := Prod.mk.inj hstep
    exact hs.set_stage hget rfl rfl hle hs.alone fun h hc => nomatch hc
  | done =>
    obtain ⟨rfl, rfl⟩ := Prod.mk.inj hstep
    exact hs.set_stage hget rfl rfl hle hs.alone fun h hc => nomatch hc

end Steps

theorem Reserved.moved (hs : Reserved P maxLength s) {m : AdderMove} (hroom : HasRoom s m)
    {o : Outcome Err AddStage} (hmove : Moved P s m o s') : Reserved P maxLength s' := by
  cases m with
  | call tx =>
    obtain ⟨-, rfl⟩ := Prod.mk.inj hmove
    -- a call that has not read `Count` holds nothing
    have hh : (⟨s.pool, s.calls ++ [(tx, .count)]⟩ : Adders).holding = s.holding :=
      List.countP_append
    have hr : (⟨s.pool, s.calls ++ [(tx, .count)]⟩ : Adders).replacing = s.replacing :=
      List.countP_append
    refine ⟨hs.sound, hs.limit, hs.room, ?_, ?_, fun c hmem h hc => ?_⟩
    · rw [hh]
      exact hs.reserved
    · rw [hh, hr]
      exact hs.alone
    · rcases List.mem_append.mp hmem with hold | hnew
      · exact hs.present c hold h hc
      · rw [List.mem_singleton.mp hnew] at hc
        exact nomatch hc
  | advance i =>
    change s.advance P i = (o, s') at hmove
    cases hget : s.calls[i]? with
    | none =>
      obtain ⟨-, rfl⟩ := Prod.mk.inj ((advance_of_none hget).symm.trans hmove)
      exact hs
    | some c =>
      obtain ⟨tx, stage⟩ := c
      obtain ⟨-, rfl⟩ := Prod.mk.inj ((advance_of_some hget).symm.trans hmove)
      refine hs.advanced hget ?_ rfl
      rintro rfl
      rw [← hs.limit]
      exact hroom i tx rfl hget
  | clearPending =>
    obtain ⟨-, rfl⟩ := Prod.mk.inj hmove
    exact ⟨hs.sound, hs.limit, hs.room, hs.reserved, hs.alone, hs.present⟩

/-! ### Runs -/

/-- **The limit survives calls that run at the same time**, if a call reads `Count` only when there
is a place for each call under way, or no call under way. `First` is then never called on an empty
map. -/
theorem races_bounded {p : TxPool} (hp : p.Sound P) (hcount : p.all.count ≤ p.maxLength)
    {es : List (AdderMove × Outcome Err AddStage)}
    (hroom : ∀ q m, Takes (Moved P) ⟨p, []⟩ es s q m → HasRoom q m) :
    (∀ q, Passes (Moved P) ⟨p, []⟩ es s q → q.pool.all.count ≤ p.maxLength) ∧
      ∀ q i tx, Takes (Moved P) ⟨p, []⟩ es s q (.advance i) → q.calls[i]? = some (tx, .first) →
        q.pool.all.txx ≠ [] := by
  have hreserved : ∀ q, Passes (Moved P) ⟨p, []⟩ es s q → Reserved P p.maxLength q :=
    History.passes_of_takes (reserved_start hp hcount)
      (fun _ _ _ _ _ _ hmid hroom hmove => hmid.moved hroom hmove) hroom
  refine ⟨fun q hq => (hreserved q hq).count_le, fun q i tx htake hget => ?_⟩
  obtain ⟨es₁, o, next, es₂, hes, hpast, hcall, hrest⟩ := htake
  have hq := hreserved q ⟨es₁, _, hes, hpast, hrest.cons hcall⟩
  obtain ⟨oldest, rest, htxx⟩ := hq.exists_first (replacing_pos (List.mem_of_getElem? hget) rfl)
  rw [htxx]
  exact List.cons_ne_nil oldest rest

/-- Two calls that take their steps in turn. -/
def inTurn : List AdderMove :=
  [.call (note 1), .call (note 2), .advance 0, .advance 1, .advance 0, .advance 1, .advance 0,
    .advance 1, .advance 0, .advance 1]

/-- The theorem for the two calls on a pool for two transactions. The second reads `Count` while the
first is holding a place, and there is one for each of them. -/
theorem races_bounded_note :
    (runAll (move .sample) ⟨new 2, []⟩ inTurn).calls.map Prod.snd = [.done, .done] ∧
      (runAll (move .sample) ⟨new 2, []⟩ inTurn).pool.all.count ≤ 2 := by
  have hroom : Along (move .sample) HasRoom ⟨new 2, []⟩ inTurn := by decide +kernel
  have hrun : History (Moved .sample) ⟨new 2, []⟩ (answers (move .sample) ⟨new 2, []⟩ inTurn)
      (runAll (move .sample) ⟨new 2, []⟩ inTurn) := history_runAll _ _
  refine ⟨by decide +kernel, ?_⟩
  exact (races_bounded (sound_new (by decide)) (Nat.zero_le _) fun _ _ => hroom.takes).1 _
    ⟨_, [], (List.append_nil _).symm, hrun, .start⟩

/-- **Two calls break the limit, and two calls find the map empty.** In the first run both calls
read `Count` before either adds; a pool for one transaction has two when they have returned. In the
second the pool is full and both calls read that; one removes the transaction before the other calls
`First`. -/
theorem races_overflow :
    (∃ es s, History (Moved .sample) ⟨new 1, []⟩ es s ∧ s.calls.length = 2 ∧
      (∀ c ∈ s.calls, c.2 = .done) ∧ s.pool.all.count = 2) ∧
    ∃ es s, History (Moved .sample) ⟨new 1, []⟩ es s ∧ s.calls[2]? = some (note 2, .first) ∧
      s.pool.all.txx = [] ∧ (s.move .sample (.advance 2)).1 = .panic .raised := by
  constructor
  · have hrun : History (Moved .sample) ⟨new 1, []⟩ _ (runAll (move .sample) ⟨new 1, []⟩ inTurn) :=
      history_runAll _ _
    exact ⟨_, _, hrun, by decide +kernel, by decide +kernel, by decide +kernel⟩
  · have hrun : History (Moved .sample) ⟨new 1, []⟩ _ (runAll (move .sample) ⟨new 1, []⟩
        [.call (note 3), .advance 0, .advance 0, .advance 0, .advance 0, .call (note 1),
          .call (note 2), .advance 1, .advance 2, .advance 1, .advance 1]) := history_runAll _ _
    exact ⟨_, _, hrun, by decide +kernel, by decide +kernel, by decide +kernel⟩

end Adders

end TxPool

end Blockz
