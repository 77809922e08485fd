import Blockz.Chain.Production
import Blockz.Crypto.Instance
import Blockz.Framework.History
import Blockz.Network.TxPool

/-!
# The pool over its calls

`TxPool.Add` and `TxPool.ClearPending`, called one after the other on a pool that `NewTxPool` made.
`all` never grows beyond its limit (`Within`). `pending` can: the transaction that makes room in
`all` stays pending, and a full pool gives up its oldest transaction before it looks whether the new
one is there.

* `bounded_iff_sparesPending` — everything pending is in `all`, at every moment of a run, exactly if
  no call of `Add` pushes out a transaction that is still pending.
* `add_eq_self_iff` — a transaction that the pool has already changes nothing exactly if the pool is
  not full, or has no other transaction.
* `pool_is_window` — if `Add` is called for new transactions only, `all` is a window over what was
  admitted, and `pending` has what was admitted since the last `ClearPending`, each hash once.
-/

namespace Blockz

open Effect

namespace TxPool

variable (P : Primitives)

/-- A call on the pool that changes it. -/
inductive PoolCall
  | add (tx : Transaction)
  | clearPending

/-- The call, from its beginning to its end. -/
def perform : PoolCall → Act TxPool Err Unit
  | .add tx => add P tx
  | .clearPending => Act.modify clearPending

/-- A step of a sequential run. -/
def Called (p : TxPool) (c : PoolCall) (o : Outcome Err Unit) (p' : TxPool) : Prop :=
  perform P c p = (o, p')

variable {P} {p p' : TxPool} {maxLength : ℕ}

/-! ### Every pool of a sequential run -/

/-- What holds of the pool at every moment of a sequential run. -/
structure Within (P : Primitives) (maxLength : ℕ) (p : TxPool) : Prop extends Sound P p where
  limit : p.maxLength = maxLength
  count_le : p.all.txx.length ≤ maxLength

theorem within_new (hpos : 0 < maxLength) : Within P maxLength (new maxLength) :=
  ⟨sound_new hpos, rfl, Nat.zero_le _⟩

theorem Within.kept_eq (hp : Within P maxLength p) : p.kept = Window.evict maxLength p.all.txx := by
  unfold kept
  rw [hp.limit]

/-- What `Add` makes of such a pool, list by list. -/
theorem Within.add_apply (hp : Within P maxLength p) (tx : Transaction) :
    ∃ p', add P tx p = (.ok (), p') ∧ Within P maxLength p' ∧
      p'.all.txx = Window.enter (Transaction.hash P) (tx.cacheHash P) p.kept ∧
      p'.pending.txx = if tx.hash P ∈ p.kept.map (Transaction.hash P) then p.pending.txx
        else Window.enter (Transaction.hash P) (tx.cacheHash P) p.pending.txx := by
  obtain ⟨p', hadd, hsound, hmax, hall, hpending⟩ := hp.toSound.add_apply tx
  have hkept : p.kept.length < maxLength := by
    rw [← hp.limit]
    exact Window.length_evict_lt hp.room (by rw [hp.limit]; exact hp.count_le)
  refine ⟨p', hadd, ⟨hsound, hmax.trans hp.limit, ?_⟩, hall, hpending⟩
  calc p'.all.txx.length ≤ p.kept.length + 1 := by
        rw [hall]
        exact Window.length_enter_le _ _
    _ ≤ maxLength := hkept

theorem Within.called (hp : Within P maxLength p) {c : PoolCall} {o : Outcome Err Unit}
    (hcall : Called P p c o p') : Within P maxLength p' := by
  cases c with
  | add tx =>
    obtain ⟨p'', hadd, hp'', -⟩ := hp.add_apply tx
    obtain rfl : p'' = p' := (Prod.mk.inj (hadd.symm.trans hcall)).2
    exact hp''
  | clearPending =>
    obtain rfl : p.clearPending = p' := (Prod.mk.inj hcall).2
    exact ⟨hp.toSound.clearPending, hp.limit, hp.count_le⟩

theorem within_of_run (hpos : 0 < maxLength) {es : List (PoolCall × Outcome Err Unit)}
    (run : History (Called P) (new maxLength) es p) : Within P maxLength p :=
  run.invariant (Within P maxLength) (within_new hpos) fun _ _ _ _ hp hcall => hp.called hcall

/-- Transactions added one after the other. -/
def addAll (P : Primitives) (p : TxPool) (txx : List Transaction) : TxPool :=
  txx.foldl (fun p tx => (add P tx p).2) p

theorem run_addAll (hpos : 0 < maxLength) (txx : List Transaction) :
    History (Called P) (new maxLength) (txx.map fun tx => (.add tx, .ok ()))
      (addAll P (new maxLength) txx) := by
  induction txx using List.reverseRecOn with
  | nil => exact .start
  | append_singleton txx tx ih =>
    obtain ⟨p', hadd, -⟩ := (within_of_run hpos ih).add_apply tx
    have hlast : addAll P (new maxLength) (txx ++ [tx]) = p' := by
      unfold addAll at hadd ⊢
      rw [List.foldl_append, List.foldl_cons, hadd]
      rfl
    rw [hlast, List.map_append]
    exact ih.call hadd

/-- A signed transaction that carries one byte. -/
def note (n : UInt8) : Transaction :=
  { sampleTransfer 0 0 with data := [n], signature := some (sampleSignature [n]) }

/-! ### The bound -/

/-- There are at most `maxLength` transactions in `all`, and everything pending is among them. -/
structure Bounded (p : TxPool) : Prop where
  all : p.all.count ≤ p.maxLength
  pending : p.pending.txx ⊆ p.all.txx

/-- The transaction that `Add` pushes out is not pending, unless it is the one that is added. -/
def SparesPending (P : Primitives) (p : TxPool) : PoolCall → Prop
  | .add tx => p.all.count = p.maxLength → ∀ oldest, p.all.txx.head? = some oldest →
      oldest ∈ p.pending.txx → oldest = tx.cacheHash P
  | .clearPending => True

theorem Within.bounded_iff (hp : Within P maxLength p) : Bounded p ↔ p.pending.txx ⊆ p.all.txx := by
  refine ⟨Bounded.pending, fun hsub => ⟨?_, hsub⟩⟩
  rw [hp.all.count_eq, hp.limit]
  exact hp.count_le

/-- **One call.** -/
theorem Within.bounded_called_iff (hp : Within P maxLength p) (hb : Bounded p) {c : PoolCall}
    {o : Outcome Err Unit} (hcall : Called P p c o p') : Bounded p' ↔ SparesPending P p c := by
  rw [(hp.called hcall).bounded_iff]
  cases c with
  | add tx =>
    obtain ⟨p'', hadd, -, hall, hpending⟩ := hp.add_apply tx
    obtain rfl : p'' = p' := (Prod.mk.inj (hadd.symm.trans hcall)).2
    have hkey := Transaction.hash_cacheHash (P := P) tx
    rw [hall, hpending, ← hkey]
    unfold SparesPending kept
    rw [hp.all.count_eq]
    exact Window.subset_enter_evict_iff hp.all.nodup hb.pending
  | clearPending =>
    obtain rfl : p.clearPending = p' := (Prod.mk.inj hcall).2
    exact iff_of_true (List.nil_subset _) trivial

theorem Within.pending_length (hp : Within P maxLength p) (hb : Bounded p) :
    p.pending.txx.length ≤ maxLength := by
  have hnodup : p.pending.txx.Nodup := hp.pending.nodup.of_map _
  exact (hnodup.subperm hb.pending).length_le.trans hp.count_le

/-- **The bound holds all the way exactly if no pending transaction is pushed out.** Then the number
of pending transactions is bounded too, and so is the size of a block that is made of them. -/
theorem bounded_iff_sparesPending (hpos : 1 ≤ maxLength)
    {es : List (PoolCall × Outcome Err Unit)} (run : History (Called P) (new maxLength) es p) :
    ((∀ q, Passes (Called P) (new maxLength) es p q → Bounded q) ↔
      ∀ q c, Takes (Called P) (new maxLength) es p q c → SparesPending P q c) ∧
    (Bounded p → p.pending.count ≤ maxLength ∧
      ∀ {E S : Type} [SealingEngine P E] (bc : Blockchain E S) (key : PrivateKey) (tick : Tick)
        (b : Block), bc.assembleBlock P key p.pending.txx tick = .ok b →
        b.transactions.length ≤ maxLength) := by
  constructor
  · refine History.passes_iff_takes ⟨Nat.zero_le _, List.nil_subset _⟩ ?_
    intro es₁ mid c o next hpast hmid hcall
    exact (within_of_run hpos hpast).bounded_called_iff hmid hcall
  · intro hb
    have hp := within_of_run hpos run
    refine ⟨?_, fun bc key tick b hblock => ?_⟩
    · rw [hp.pending.count_eq]
      exact hp.pending_length hb
    · obtain ⟨header, -, hbuild⟩ := Outcome.bind_eq_ok.mp hblock
      rw [Blockchain.buildBlock_transactions hbuild]
      exact hp.pending_length hb

theorem bounded_iff_sparesPending_note :
    (addAll .sample (new 2) [note 1, note 2]).pending.count ≤ 2 :=
  ((bounded_iff_sparesPending (by decide) (run_addAll (by decide) [note 1, note 2])).2
    ⟨by decide +kernel, by decide +kernel⟩).1

/-- **`pending` outgrows `all`.** A pool for one transaction has two pending after two calls. -/
theorem pending_outgrows_all :
    History (Called .sample) (new 1) [(.add (note 1), .ok ()), (.add (note 2), .ok ())]
        (addAll .sample (new 1) [note 1, note 2]) ∧
      (addAll .sample (new 1) [note 1, note 2]).pending.count = 2 ∧
      ¬ Bounded (addAll .sample (new 1) [note 1, note 2]) := by
  refine ⟨run_addAll (by decide) [note 1, note 2], by decide +kernel, fun hb => ?_⟩
  have hsub := hb.pending
  revert hsub
  decide +kernel

/-! ### A transaction that the pool has -/

/-- The lists determine the pool. -/
theorem Within.eq_iff (hp : Within P maxLength p) (hp' : Within P maxLength p') :
    p' = p ↔ p'.all.txx = p.all.txx ∧ p'.pending.txx = p.pending.txx := by
  refine ⟨fun heq => by rw [heq]; exact ⟨rfl, rfl⟩, fun ⟨hall, hpending⟩ => ?_⟩
  have hall' := hp'.all.eq_of_txx hp.all hall
  have hpending' := hp'.pending.eq_of_txx hp.pending hpending
  have hmax : p'.maxLength = p.maxLength := hp'.limit.trans hp.limit.symm
  cases p
  cases p'
  subst hall' hpending' hmax
  rfl

/-- **A transaction that is there changes nothing, exactly if the pool is not full** or holds
nothing else, in which case it must be pending and be the very one. A full pool gives up its oldest
transaction first. -/
theorem add_eq_self_iff (hpos : 1 ≤ maxLength) {es : List (PoolCall × Outcome Err Unit)}
    (run : History (Called P) (new maxLength) es p) (tx : Transaction)
    (hthere : p.contains (tx.hash P)) :
    add P tx p = (.ok (), p) ↔ p.all.count ≠ maxLength ∨
      (p.all.txx = [tx.cacheHash P] ∧ p.pending.contains (tx.hash P)) := by
  have hp := within_of_run hpos run
  obtain ⟨p', hadd, hp', hall, hpending⟩ := hp.add_apply tx
  have hkey := Transaction.hash_cacheHash (P := P) tx
  have hmem : (tx.cacheHash P).hash P ∈ p.all.txx.map (Transaction.hash P) := by
    rw [hkey]
    exact hp.all.mem_lookup.mp hthere
  have hsame : add P tx p = (.ok (), p) ↔
      p'.all.txx = p.all.txx ∧ p'.pending.txx = p.pending.txx := by
    rw [hadd, ← hp.eq_iff hp']
    exact ⟨fun heq => (Prod.mk.inj heq).2, fun heq => by rw [heq]⟩
  have hwindow : p'.all.txx = p.all.txx ↔
      p.all.txx.length ≠ maxLength ∨ p.all.txx = [tx.cacheHash P] := by
    rw [hall, hp.kept_eq]
    exact Window.enter_evict_eq_self_iff hp.all.nodup hmem
  rw [hsame, hwindow, hp.all.count_eq]
  by_cases hfull : p.all.txx.length = maxLength
  · rw [or_iff_right (not_not_intro hfull), or_iff_right (not_not_intro hfull)]
    refine and_congr_right fun honly => ?_
    -- nothing is left of the pool when the new transaction is looked for
    have hgone : tx.hash P ∉ p.kept.map (Transaction.hash P) := by
      rw [hp.kept_eq, ← hfull, honly]
      exact List.not_mem_nil
    rw [hpending, if_neg hgone, Window.enter_eq_self_iff, hkey]
    exact hp.pending.mem_lookup.symm
  · rw [hpending, hp.kept_eq, Window.evict_of_ne hfull, ← hkey, if_pos hmem]
    exact iff_of_true ⟨Or.inl hfull, rfl⟩ (Or.inl hfull)

theorem add_eq_self_iff_note :
    add .sample (note 1) (addAll .sample (new 3) [note 1, note 2]) =
      (.ok (), addAll .sample (new 3) [note 1, note 2]) :=
  (add_eq_self_iff (by decide) (run_addAll (by decide) [note 1, note 2]) (note 1)
    (by decide +kernel)).mpr (Or.inl (by decide +kernel))

/-- **A duplicate pushes out another transaction.** The pool is full and has the transaction, and
the call takes the oldest one out of `all`. -/
theorem duplicate_evicts :
    (addAll .sample (new 2) [note 1, note 2]).contains ((note 2).hash .sample) ∧
      (add .sample (note 2) (addAll .sample (new 2) [note 1, note 2])).2.all.txx =
        [(note 2).cacheHash .sample] ∧
      add .sample (note 2) (addAll .sample (new 2) [note 1, note 2]) ≠
        (.ok (), addAll .sample (new 2) [note 1, note 2]) := by
  have hleft : (add .sample (note 2) (addAll .sample (new 2) [note 1, note 2])).2.all.txx =
      [(note 2).cacheHash .sample] := by decide +kernel
  refine ⟨by decide +kernel, hleft, fun heq => ?_⟩
  rw [heq] at hleft
  revert hleft
  decide +kernel

/-! ### The window -/

section Feeding

variable (P)

/-- `Add` behind the question whether the pool has the transaction, as `ProcessTransaction` makes
the call. The answer says whether it was admitted. -/
def offer (tx : Transaction) : Act TxPool Err Bool := do
  let p ← Act.get
  if p.contains (tx.hash P) then pure false
  else do
    add P tx
    pure true

/-- A step of a run in which every transaction is asked for before it is added. -/
def Fed (p : TxPool) : PoolCall → Outcome Err Bool → TxPool → Prop
  | .add tx, o, p' => offer P tx p = (o, p')
  | .clearPending, o, p' => o = .ok false ∧ p' = p.clearPending

/-- The transaction that a call has admitted. -/
def admits : PoolCall × Outcome Err Bool → Option Transaction
  | (.add tx, .ok true) => some (tx.cacheHash P)
  | _ => none

/-- What was admitted, oldest first. -/
def admitted (es : List (PoolCall × Outcome Err Bool)) : List Transaction := es.filterMap (admits P)

end Feeding

def PoolCall.isAdd : PoolCall → Bool
  | .add _ => true
  | .clearPending => false

/-- The calls behind the last `ClearPending`. -/
def sinceClear (es : List (PoolCall × Outcome Err Bool)) : List (PoolCall × Outcome Err Bool) :=
  es.rtakeWhile fun e => e.1.isAdd

theorem sinceClear_add (es : List (PoolCall × Outcome Err Bool)) (tx : Transaction)
    (o : Outcome Err Bool) : sinceClear (es ++ [(.add tx, o)]) = sinceClear es ++ [(.add tx, o)] :=
  List.rtakeWhile_concat_pos _ _ _ rfl

theorem sinceClear_clearPending (es : List (PoolCall × Outcome Err Bool)) (o : Outcome Err Bool) :
    sinceClear (es ++ [(.clearPending, o)]) = [] :=
  List.rtakeWhile_concat_neg _ _ _ Bool.false_ne_true

theorem admitted_concat_none {es : List (PoolCall × Outcome Err Bool)}
    {e : PoolCall × Outcome Err Bool} (hnone : admits P e = none) :
    admitted P (es ++ [e]) = admitted P es := by
  unfold admitted
  rw [List.filterMap_append, List.filterMap_cons_none hnone, List.filterMap_nil, List.append_nil]

theorem admitted_concat_some {es : List (PoolCall × Outcome Err Bool)}
    {e : PoolCall × Outcome Err Bool} {tx : Transaction} (hsome : admits P e = some tx) :
    admitted P (es ++ [e]) = admitted P es ++ [tx] := by
  unfold admitted
  rw [List.filterMap_append, List.filterMap_cons_some hsome, List.filterMap_nil]

theorem fed_of_fst {tx : Transaction} {o : Outcome Err Bool} (hoffer : (offer P tx p).1 = o) :
    Fed P p (.add tx) o (offer P tx p).2 :=
  Act.eq_mk_of_fst hoffer

/-- The pool and the calls that were made. -/
structure Slides (P : Primitives) (maxLength : ℕ) (es : List (PoolCall × Outcome Err Bool))
    (p : TxPool) : Prop extends Within P maxLength p where
  window : p.all.txx = (admitted P es).rtake maxLength
  register : p.pending.txx = Window.firsts (Transaction.hash P) (admitted P (sinceClear es))

/-- What an offer does: nothing if the hash is there, else the window moves on by one. -/
theorem Slides.offered {es : List (PoolCall × Outcome Err Bool)} (hp : Slides P maxLength es p)
    {tx : Transaction} {o : Outcome Err Bool} (hcall : offer P tx p = (o, p')) :
    Slides P maxLength (es ++ [(.add tx, o)]) p' := by
  unfold offer at hcall
  rw [Act.get_bind_apply] at hcall
  by_cases hthere : p.contains (tx.hash P)
  · rw [if_pos hthere] at hcall
    obtain ⟨rfl, rfl⟩ := Prod.mk.inj hcall
    have hnone : admits P (.add tx, .ok false) = none := rfl
    refine ⟨hp.toWithin, ?_, ?_⟩
    · rw [admitted_concat_none hnone]
      exact hp.window
    · rw [sinceClear_add, admitted_concat_none hnone]
      exact hp.register
  · rw [if_neg hthere] at hcall
    obtain ⟨p'', hadd, hwithin, hall, hpending⟩ := hp.toWithin.add_apply tx
    rw [Act.bind_apply_ok hadd] at hcall
    obtain ⟨rfl, rfl⟩ := Prod.mk.inj hcall
    have hkey := Transaction.hash_cacheHash (P := P) tx
    have hsome : admits P (.add tx, .ok true) = some (tx.cacheHash P) := rfl
    have hnew : tx.hash P ∉ p.kept.map (Transaction.hash P) := hp.toSound.notMem_kept hthere
    rw [if_neg hnew] at hpending
    rw [Window.enter_of_notMem (by rw [hkey]; exact hnew)] at hall
    refine ⟨hwithin, ?_, ?_⟩
    · calc p''.all.txx = Window.evict maxLength p.all.txx ++ [tx.cacheHash P] := by
            rw [hall, hp.kept_eq]
        _ = (admitted P es ++ [tx.cacheHash P]).rtake maxLength := by
            rw [hp.window, Window.rtake_concat (hp.limit ▸ hp.room)]
        _ = (admitted P (es ++ [(.add tx, .ok true)])).rtake maxLength := by
            rw [admitted_concat_some hsome]
    · rw [sinceClear_add, admitted_concat_some hsome, hpending, hp.register]
      exact (Window.firsts_concat _ _).symm

theorem Slides.fed {es : List (PoolCall × Outcome Err Bool)} (hp : Slides P maxLength es p)
    {c : PoolCall} {o : Outcome Err Bool} (hcall : Fed P p c o p') :
    Slides P maxLength (es ++ [(c, o)]) p' := by
  cases c with
  | add tx => exact hp.offered hcall
  | clearPending =>
    obtain ⟨rfl, rfl⟩ := hcall
    refine ⟨⟨hp.toSound.clearPending, hp.limit, hp.count_le⟩, ?_, ?_⟩
    · rw [admitted_concat_none rfl]
      exact hp.window
    · rw [sinceClear_clearPending]
      rfl

/-- **The pool is a sliding window.** `all` holds the last `maxLength` transactions that were
admitted, or all of them while there are fewer, and `pending` the first of each hash that was
admitted since `ClearPending`. -/
theorem pool_is_window (hpos : 1 ≤ maxLength) {es : List (PoolCall × Outcome Err Bool)}
    (run : History (Fed P) (new maxLength) es p) :
    p.all.txx = (admitted P es).rtake maxLength ∧
      p.all.count = min (admitted P es).length maxLength ∧
      p.pending.txx = Window.firsts (Transaction.hash P) (admitted P (sinceClear es)) ∧
      (p.pending.txx.map (Transaction.hash P)).Nodup := by
  have hp : Slides P maxLength es p :=
    run.recorded (Slides P maxLength) ⟨within_new hpos, (List.rtake_nil _).symm, rfl⟩
      fun _ _ _ _ _ _ hmid hcall => hmid.fed hcall
  refine ⟨hp.window, ?_, hp.register, hp.pending.nodup⟩
  rw [hp.all.count_eq, hp.window, List.rtake, List.length_drop]
  omega

/-- In a pool for one transaction the second pushes out the first, which is then admitted again and
keeps its place among the pending ones. -/
theorem pool_is_window_note :
    ∃ p, History (Fed .sample) (new 1)
        [(.add (note 1), .ok true), (.add (note 2), .ok true), (.add (note 1), .ok true)] p ∧
      p.all.txx = [(note 1).cacheHash .sample] ∧
      p.pending.txx = [(note 1).cacheHash .sample, (note 2).cacheHash .sample] := by
  let p₁ := (offer .sample (note 1) (new 1)).2
  let p₂ := (offer .sample (note 2) p₁).2
  have h₁ : (offer .sample (note 1) (new 1)).1 = .ok true := by decide +kernel
  have h₂ : (offer .sample (note 2) p₁).1 = .ok true := by decide +kernel
  have h₃ : (offer .sample (note 1) p₂).1 = .ok true := by decide +kernel
  have run : History (Fed .sample) (new 1)
      [(.add (note 1), .ok true), (.add (note 2), .ok true), (.add (note 1), .ok true)]
      (offer .sample (note 1) p₂).2 :=
    ((History.start.call (fed_of_fst h₁)).call (fed_of_fst h₂)).call (fed_of_fst h₃)
  obtain ⟨hall, -, hpending, -⟩ := pool_is_window (by decide) run
  exact ⟨_, run, hall.trans (by decide +kernel), hpending.trans (by decide +kernel)⟩

end TxPool

end Blockz
