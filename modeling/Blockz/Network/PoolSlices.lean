import Blockz.Framework.Slices
import Blockz.Network.PoolRaces

/-!
# The pool on slices

`types.List` has its items in a slice, and `TxPool.Pending` returns this very slice. The block that
`createNewBlock` makes from it is hashed, executed, stored and sent while other goroutines go on
adding transactions to the pool, so what the pool does to the array behind the slice matters.

Here the collections of the pool have slices on a heap. `Insert` appends, in place where there is
room; `Pop` moves the items behind the one that goes, in place; `Clear` takes a new slice.

* `SlicePool.toPool` — the pool of `TxPool`, whose collections have lists.
* `SlicePool.Separate` — the two collections are on different arrays.
* `SlicePool.Viewed` — what is asked of a slice that was once the pending one.
* `SlicePool.pendingSlice` — `Pending`, which takes no lock: its three loads may be apart.
* `pending_slice_kept` — in every interleaving of the calls on the collections, the pool on slices
  does what the pool on lists does, and a slice that `Pending` has returned goes on having the items
  it had, if its pointer goes with its length.
-/

namespace Blockz

open Effect Slices

/-! ### Collections -/

/-- `network.TxSortedMap`, with the slice of its `types.List`. -/
structure SliceMap where
  lookup : Finmap fun _ : Hash => Transaction
  txx : Slice

namespace SliceMap

variable (P : Primitives) (G : Growth)

/-- The collection with its list. -/
def toMap (h : Heap Transaction) (t : SliceMap) : TxSortedMap := ⟨t.lookup, h.read t.txx⟩

/-- `NewTxSortedMap`, and `TxSortedMap.Clear`. -/
def new (h : Heap Transaction) : SliceMap × Heap Transaction :=
  let (data, h') := h.empty
  (⟨∅, data⟩, h')

/-- `TxSortedMap.First`, with the call of `List.Get`. -/
def first (h : Heap Transaction) (t : SliceMap) : Outcome Err (Option Transaction) :=
  match h.read t.txx with
  | [] => .panic .raised
  | tx :: _ => .ok (t.lookup.lookup (tx.hash P))

/-- `TxSortedMap.Add`, with the call of `List.Insert`. -/
def add (tx : Transaction) (h : Heap Transaction) (t : SliceMap) : SliceMap × Heap Transaction :=
  if tx.hash P ∈ t.lookup then (t, h)
  else
    let (data, h') := h.append G t.txx [tx.cacheHash P]
    (⟨t.lookup.insert (tx.hash P) (tx.cacheHash P), data⟩, h')

/-- `types.List.Remove`, with the calls of `GetIndex` and `Pop`. -/
def listRemove (v : Transaction) (h : Heap Transaction) (data : Slice) : Slice × Heap Transaction :=
  match getIndex v (h.read data) with
  | none => (data, h)
  | some i => h.pop G data i

/-- `TxSortedMap.Remove`. -/
def remove (hash : Hash) (h : Heap Transaction) (t : SliceMap) : SliceMap × Heap Transaction :=
  match t.lookup.lookup hash with
  | none => (⟨t.lookup.erase hash, t.txx⟩, h)
  | some tx =>
    let (data, h') := listRemove G tx h t.txx
    (⟨t.lookup.erase hash, data⟩, h')

end SliceMap

namespace SliceMap

variable {P : Primitives} {G : Growth} {h : Heap Transaction} {t : SliceMap}

theorem toMap_new (h : Heap Transaction) : (new h).1.toMap (new h).2 = .new := by
  unfold toMap TxSortedMap.new
  exact congrArg (TxSortedMap.mk ∅) (Heap.read_allocate h [] 0)

/-- `Add` does what it does on lists, and appends. -/
theorem add_spec (ht : t.txx.Valid h) (tx : Transaction) :
    (t.add P G tx h).1.toMap (t.add P G tx h).2 = (t.toMap h).add P tx ∧
      Appended h (t.add P G tx h).2 t.txx (t.add P G tx h).1.txx := by
  unfold add
  by_cases hmem : tx.hash P ∈ t.lookup
  · rw [if_pos hmem]
    refine ⟨?_, .refl ht⟩
    exact (if_pos (show tx.hash P ∈ (t.toMap h).lookup from hmem)).symm
  · rw [if_neg hmem]
    refine ⟨?_, .append G ht _⟩
    have hadd : (t.toMap h).add P tx = ⟨t.lookup.insert (tx.hash P) (tx.cacheHash P),
        h.read t.txx ++ [tx.cacheHash P]⟩ := if_neg hmem
    rw [hadd, ← Heap.read_append G]
    rfl

theorem listRemove_spec (ht : t.txx.Valid h) (v : Transaction) :
    (listRemove G v h t.txx).2.read (listRemove G v h t.txx).1 =
        Blockz.listRemove v (h.read t.txx) ∧
      Replaced h (listRemove G v h t.txx).2 t.txx (listRemove G v h t.txx).1 := by
  unfold listRemove Blockz.listRemove
  cases hindex : getIndex v (h.read t.txx) with
  | none => exact ⟨rfl, (Appended.refl ht).toReplaced⟩
  | some i =>
    have hlt : i < t.txx.len := by
      rw [← Heap.length_read h t.txx]
      exact (List.idxOf?_eq_some_iff.mp hindex).1
    exact ⟨Heap.read_pop G h hlt, .pop G ht hlt⟩

/-- `Remove` does what it does on lists, on the array of the slice. -/
theorem remove_spec (ht : t.txx.Valid h) (hash : Hash) :
    (t.remove G hash h).1.toMap (t.remove G hash h).2 = (t.toMap h).remove hash ∧
      Replaced h (t.remove G hash h).2 t.txx (t.remove G hash h).1.txx := by
  unfold remove TxSortedMap.remove
  show _ = TxSortedMap.mk (t.lookup.erase hash) (match t.lookup.lookup hash with
    | none => h.read t.txx
    | some tx => Blockz.listRemove tx (h.read t.txx)) ∧ _
  cases t.lookup.lookup hash with
  | none => exact ⟨rfl, (Appended.refl ht).toReplaced⟩
  | some tx =>
    obtain ⟨hread, hreplaced⟩ := listRemove_spec (G := G) ht tx
    exact ⟨congrArg (TxSortedMap.mk _) hread, hreplaced⟩

end SliceMap

/-! ### The pool -/

/-- `network.TxPool`, with the heap that its slices are on. -/
structure SlicePool where
  heap : Heap Transaction
  all : SliceMap
  pending : SliceMap
  maxLength : ℕ

namespace SlicePool

/-- The pool with its lists. -/
def toPool (p : SlicePool) : TxPool := ⟨p.all.toMap p.heap, p.pending.toMap p.heap, p.maxLength⟩

/-- `NewTxPool`. -/
def new (h : Heap Transaction) (maxLength : ℕ) : SlicePool :=
  let (all, h₁) := SliceMap.new h
  let (pending, h₂) := SliceMap.new h₁
  ⟨h₂, all, pending, maxLength⟩

/-- An operation on `all`. -/
def onAll (f : Heap Transaction → SliceMap → SliceMap × Heap Transaction) (p : SlicePool) :
    SlicePool :=
  let (all, h) := f p.heap p.all
  { p with all := all, heap := h }

/-- An operation on `pending`. -/
def onPending (f : Heap Transaction → SliceMap → SliceMap × Heap Transaction) (p : SlicePool) :
    SlicePool :=
  let (pending, h) := f p.heap p.pending
  { p with pending := pending, heap := h }

/-- `TxPool.Pending`. The method takes no lock, and loads the three words of the slice one by one:
the pointer from `p`, the length from `q` and the capacity from `r`. These are the pools of three
moments if other goroutines come in between, and one pool otherwise. -/
def pendingSlice (p q r : SlicePool) : Slice where
  array := p.pending.txx.array
  offset := p.pending.txx.offset
  len := q.pending.txx.len
  cap := r.pending.txx.cap

/-- The pending slices have the same pointer: neither `Clear` nor an append without room has come
in between. -/
def SamePointer (p q : SlicePool) : Prop :=
  p.pending.txx.array = q.pending.txx.array ∧ p.pending.txx.offset = q.pending.txx.offset

/-- `TxPool.ClearPending`. -/
def clearPending (p : SlicePool) : SlicePool := p.onPending fun h _ => SliceMap.new h

/-- `p.all.First()`, and the hash of what it points to. -/
def oldestHash (P : Primitives) (p : SlicePool) : Outcome Err Hash := do
  let oldest ← p.all.first P p.heap
  let oldest ← Outcome.deref oldest
  pure (oldest.hash P)

/-- One call on a collection, as in `TxPool.addStage`. -/
def addStage (P : Primitives) (G : Growth) (tx : Transaction) :
    TxPool.AddStage → Act SlicePool Err TxPool.AddStage
  | .count => do
    let p ← Act.get
    pure (if p.all.lookup.keys.card = p.maxLength then .first else .contains)
  | .first => do
    let p ← Act.get
    let h ← Act.lift (p.oldestHash P)
    pure (.remove h)
  | .remove h => do
    Act.modify (onAll (SliceMap.remove G h))
    pure .contains
  | .contains => do
    let p ← Act.get
    pure (if tx.hash P ∉ p.all.lookup then .addAll else .done)
  | .addAll => do
    Act.modify (onAll (SliceMap.add P G tx))
    pure .addPending
  | .addPending => do
    Act.modify (onPending (SliceMap.add P G tx))
    pure .done
  | .done => pure .done

variable {P : Primitives} {G : Growth} {p p' : SlicePool}

/-- The collections are on different arrays. -/
structure Separate (p : SlicePool) : Prop where
  all : p.all.txx.Valid p.heap
  pending : p.pending.txx.Valid p.heap
  apart : p.all.txx.array ≠ p.pending.txx.array

/-- A slice of earlier: nothing is going to be written to what it has. -/
structure Viewed (p : SlicePool) (v : Slice) (txx : List Transaction) : Prop where
  valid : v.Valid p.heap
  notAll : v.array ≠ p.all.txx.array
  notPending : v.Apart p.pending.txx
  items : p.heap.read v = txx

/-- The pending slice of now. -/
theorem Separate.viewed (hp : p.Separate) :
    p.Viewed p.pending.txx (p.heap.read p.pending.txx) :=
  ⟨hp.pending, hp.apart.symm, Or.inr le_rfl, rfl⟩

/-- With the right pointer a slice that is put together has the items of the pool whose length it
has. The capacity is not asked for. -/
theorem SamePointer.read_pendingSlice {q r : SlicePool} (h : SamePointer p q)
    (heap : Heap Transaction) :
    heap.read (pendingSlice p q r) = heap.read q.pending.txx := by
  unfold Heap.read pendingSlice
  rw [h.1, h.2]

/-- What an operation may do to a pool. -/
structure Kept (p p' : SlicePool) : Prop where
  separate : p'.Separate
  viewed : ∀ v txx, p.Viewed v txx → p'.Viewed v txx

/-- An operation on `all`, of any kind. -/
theorem Separate.onAll (hp : p.Separate)
    {f : Heap Transaction → SliceMap → SliceMap × Heap Transaction}
    (hf : Replaced p.heap (f p.heap p.all).2 p.all.txx (f p.heap p.all).1.txx) :
    Kept p (p.onAll f) ∧ (p.onAll f).toPool =
      { p.toPool with all := (f p.heap p.all).1.toMap (f p.heap p.all).2 } := by
  have hpending : (f p.heap p.all).2.read p.pending.txx = p.heap.read p.pending.txx :=
    hf.others _ hp.pending hp.apart.symm
  refine ⟨⟨⟨hf.valid, hp.pending.mono hf.next, ?_⟩, fun v txx hv => ?_⟩, ?_⟩
  · exact (hf.array_ne hp.pending hp.apart.symm).symm
  · refine ⟨hv.valid.mono hf.next, hf.array_ne hv.valid hv.notAll, hv.notPending, ?_⟩
    exact (hf.others v hv.valid hv.notAll).trans hv.items
  · exact congrArg (fun txx => TxPool.mk _ ⟨p.pending.lookup, txx⟩ p.maxLength) hpending

/-- An operation on `pending` that does not write to what is there. -/
theorem Separate.onPending (hp : p.Separate)
    {f : Heap Transaction → SliceMap → SliceMap × Heap Transaction}
    (hf : Appended p.heap (f p.heap p.pending).2 p.pending.txx (f p.heap p.pending).1.txx) :
    Kept p (p.onPending f) ∧ (p.onPending f).toPool =
      { p.toPool with pending := (f p.heap p.pending).1.toMap (f p.heap p.pending).2 } := by
  have hall : (f p.heap p.pending).2.read p.all.txx = p.heap.read p.all.txx :=
    hf.others _ hp.all hp.apart
  refine ⟨⟨⟨hp.all.mono hf.next, hf.valid, hf.array_ne hp.all hp.apart⟩, fun v txx hv => ?_⟩, ?_⟩
  · refine ⟨hv.valid.mono hf.next, hv.notAll, hf.apart v hv.valid hv.notPending, ?_⟩
    exact (hf.kept v hv.valid hv.notPending).trans hv.items
  · exact congrArg (fun txx => TxPool.mk ⟨p.all.lookup, txx⟩ _ p.maxLength) hall

/-- `ClearPending`. -/
theorem Separate.clearPending (hp : p.Separate) :
    Kept p p.clearPending ∧ p.clearPending.toPool = p.toPool.clearPending := by
  have hcleared := hp.onPending (f := fun h _ => SliceMap.new h) (Appended.empty _ _)
  rw [SliceMap.toMap_new] at hcleared
  exact hcleared

/-- **A call on a collection**: it answers as on lists, leaves the lists that it leaves there, and
keeps the slices of earlier. -/
theorem Separate.addStage (hp : p.Separate) (tx : Transaction) (stage : TxPool.AddStage) :
    TxPool.addStage P tx stage p.toPool =
        ((addStage P G tx stage p).1, (addStage P G tx stage p).2.toPool) ∧
      Kept p (addStage P G tx stage p).2 := by
  have hstay : Kept p p := ⟨hp, fun _ _ => id⟩
  cases stage with
  | count => exact ⟨rfl, hstay⟩
  | first =>
    -- both read the same oldest transaction
    have hfirst : SlicePool.addStage P G tx .first p =
        (p.oldestHash P >>= fun h => .ok (.remove h), p) := by
      show (Act.lift (p.oldestHash P) >>= fun h => pure (TxPool.AddStage.remove h)) p = _
      cases p.oldestHash P <;> rfl
    have hfirst' : TxPool.addStage P tx .first p.toPool =
        (p.oldestHash P >>= fun h => .ok (.remove h), p.toPool) := by
      show (Act.lift (p.oldestHash P) >>= fun h => pure (TxPool.AddStage.remove h)) p.toPool = _
      cases p.oldestHash P <;> rfl
    rw [hfirst, hfirst']
    exact ⟨rfl, hstay⟩
  | remove h =>
    obtain ⟨hmap, hreplaced⟩ := SliceMap.remove_spec (G := G) hp.all h
    obtain ⟨hkept, hpool⟩ := hp.onAll hreplaced
    rw [hmap] at hpool
    exact ⟨Prod.ext rfl hpool.symm, hkept⟩
  | contains => exact ⟨rfl, hstay⟩
  | addAll =>
    obtain ⟨hmap, happended⟩ := SliceMap.add_spec (P := P) (G := G) hp.all tx
    obtain ⟨hkept, hpool⟩ := hp.onAll happended.toReplaced
    rw [hmap] at hpool
    exact ⟨Prod.ext rfl hpool.symm, hkept⟩
  | addPending =>
    obtain ⟨hmap, happended⟩ := SliceMap.add_spec (P := P) (G := G) hp.pending tx
    obtain ⟨hkept, hpool⟩ := hp.onPending happended
    rw [hmap] at hpool
    exact ⟨Prod.ext rfl hpool.symm, hkept⟩
  | done => exact ⟨rfl, hstay⟩

end SlicePool

/-! ### Calls that run at the same time -/

/-- A pool with the calls of `Add` that were made on it, as in `TxPool.Adders`. -/
structure SliceAdders where
  pool : SlicePool
  calls : List (Transaction × TxPool.AddStage)

namespace SliceAdders

def toAdders (s : SliceAdders) : TxPool.Adders := ⟨s.pool.toPool, s.calls⟩

/-- A new pool. -/
def new (h : Heap Transaction) (maxLength : ℕ) : SliceAdders := ⟨.new h maxLength, []⟩

/-- The call takes a step. -/
def advance (P : Primitives) (G : Growth) (s : SliceAdders) (i : ℕ) :
    Outcome Err TxPool.AddStage × SliceAdders :=
  match s.calls[i]? with
  | none => (.ok .done, s)
  | some (tx, stage) =>
    let (o, pool) := SlicePool.addStage P G tx stage s.pool
    (o, ⟨pool, s.calls.set i (tx, o.toOption.getD .done)⟩)

def move (P : Primitives) (G : Growth) (s : SliceAdders) :
    TxPool.AdderMove → Outcome Err TxPool.AddStage × SliceAdders
  | .call tx => (.ok .count, { s with calls := s.calls ++ [(tx, .count)] })
  | .advance i => s.advance P G i
  | .clearPending => (.ok .done, { s with pool := s.pool.clearPending })

def Moved (P : Primitives) (G : Growth) (s : SliceAdders) (m : TxPool.AdderMove)
    (o : Outcome Err TxPool.AddStage) (s' : SliceAdders) : Prop :=
  s.move P G m = (o, s')

variable {P : Primitives} {G : Growth} {s s' : SliceAdders}

/-- **One move.** -/
theorem Moved.spec {m : TxPool.AdderMove} {o : Outcome Err TxPool.AddStage}
    (hs : s.pool.Separate) (hmove : Moved P G s m o s') :
    TxPool.Adders.Moved P s.toAdders m o s'.toAdders ∧ s.pool.Kept s'.pool := by
  have hstay : s.pool.Kept s.pool := ⟨hs, fun _ _ => id⟩
  unfold Moved at hmove
  unfold TxPool.Adders.Moved
  cases m with
  | call tx =>
    obtain ⟨rfl, rfl⟩ := Prod.mk.inj hmove
    exact ⟨rfl, hstay⟩
  | advance i =>
    change s.advance P G i = (o, s') at hmove
    show TxPool.Adders.advance P s.toAdders i = _ ∧ _
    cases hget : s.calls[i]? with
    | none =>
      unfold advance at hmove
      rw [hget] at hmove
      obtain ⟨rfl, rfl⟩ := Prod.mk.inj hmove
      exact ⟨TxPool.Adders.advance_of_none hget, hstay⟩
    | some call =>
      obtain ⟨tx, stage⟩ := call
      obtain ⟨hstage, hkept⟩ := hs.addStage (P := P) (G := G) tx stage
      unfold advance at hmove
      rw [hget] at hmove
      obtain ⟨rfl, rfl⟩ := Prod.mk.inj hmove
      refine ⟨?_, hkept⟩
      rw [TxPool.Adders.advance_of_some (s := s.toAdders) hget]
      show ((TxPool.addStage P tx stage s.pool.toPool).1, TxPool.Adders.mk
        (TxPool.addStage P tx stage s.pool.toPool).2 (s.calls.set i (tx,
          (TxPool.addStage P tx stage s.pool.toPool).1.toOption.getD .done))) = _
      rw [hstage]
      rfl
  | clearPending =>
    obtain ⟨rfl, rfl⟩ := Prod.mk.inj hmove
    obtain ⟨hkept, hpool⟩ := hs.clearPending
    exact ⟨congrArg (fun pool => (Outcome.ok TxPool.AddStage.done, TxPool.Adders.mk pool s.calls))
      hpool.symm, hkept⟩

/-- **A run**, on slices and on lists. -/
theorem run_spec {es : List (TxPool.AdderMove × Outcome Err TxPool.AddStage)}
    (hrun : History (Moved P G) s es s') (hs : s.pool.Separate) :
    History (TxPool.Adders.Moved P) s.toAdders es s'.toAdders ∧ s.pool.Kept s'.pool := by
  induction hrun with
  | start => exact ⟨.start, hs, fun _ _ => id⟩
  | call past last ih =>
    obtain ⟨hlists, hkept⟩ := ih
    obtain ⟨hstep, hnext⟩ := Moved.spec hkept.separate last
    exact ⟨hlists.call hstep, hnext.separate,
      fun v txx hv => hnext.viewed v txx (hkept.viewed v txx hv)⟩

/-- A new pool has its collections on different arrays. -/
theorem separate_new (h : Heap Transaction) (maxLength : ℕ) :
    (new h maxLength).pool.Separate where
  all := ⟨Nat.lt_succ_of_lt (Nat.lt_succ_self _), le_rfl⟩
  pending := ⟨Nat.lt_succ_self _, le_rfl⟩
  apart := (Nat.lt_succ_self h.next).ne

/-- **What `Pending` has returned stays as it is.** Any number of goroutines call `Add`, and blocks
are made, in any order; the collections keep their items in slices, on arrays that grow in any way.
A step is one call on a collection, under the lock of the collection. The pool does what the pool on
lists does. `Pending` takes no lock, and its three loads may have steps between them. If the pointer
that it loads is the one that goes with the length, then the slice has, at every later point, the
transactions that were pending when the length was loaded. With another pointer the slice is none of
the pool's, and nothing is said about it. -/
theorem pending_slice_kept (h : Heap Transaction) (maxLength : ℕ)
    {es es' : List (TxPool.AdderMove × Outcome Err TxPool.AddStage)}
    (hrun : History (Moved P G) (new h maxLength) es s) (hrun' : History (Moved P G) s es' s') :
    History (TxPool.Adders.Moved P) ⟨.new maxLength, []⟩ es s.toAdders ∧
      History (TxPool.Adders.Moved P) s.toAdders es' s'.toAdders ∧
      ∀ p r : SlicePool, SlicePool.SamePointer p s.pool →
        s'.pool.heap.read (SlicePool.pendingSlice p s.pool r) = s.toAdders.pool.pending.txx := by
  obtain ⟨hlists, hkept⟩ := run_spec hrun (separate_new h maxLength)
  obtain ⟨hlists', hkept'⟩ := run_spec hrun' hkept.separate
  refine ⟨hlists, hlists', fun p r hpointer => ?_⟩
  rw [hpointer.read_pendingSlice]
  exact (hkept'.viewed _ _ hkept.separate.viewed).items

/-- Twice the room that is needed. -/
def doubling : Growth :=
  ⟨fun _ needed => 2 * needed, fun _ needed => Nat.le_mul_of_pos_left needed two_pos⟩

/-- A pool for one transaction that has got one. -/
def firstNote : SliceAdders :=
  runAll (move .sample doubling) (new ⟨fun _ _ => TxPool.note 0, 0⟩ 1)
    [.call (TxPool.note 1), .advance 0, .advance 0, .advance 0, .advance 0]

/-- The same pool, into which a second one has come. -/
def secondNote : SliceAdders :=
  runAll (move .sample doubling) firstNote [.call (TxPool.note 2), .advance 1, .advance 1,
    .advance 1, .advance 1, .advance 1, .advance 1]

/-- The slice that was loaded before the second transaction came has one transaction still. With the
pointer of before and the length of after it has both. -/
theorem pending_slice_kept_note :
    secondNote.pool.heap.read
        (SlicePool.pendingSlice firstNote.pool firstNote.pool firstNote.pool) =
        [(TxPool.note 1).cacheHash .sample] ∧
      secondNote.pool.heap.read
        (SlicePool.pendingSlice firstNote.pool secondNote.pool firstNote.pool) =
        [(TxPool.note 1).cacheHash .sample, (TxPool.note 2).cacheHash .sample] := by
  have hrun : History (Moved .sample doubling) (new ⟨fun _ _ => TxPool.note 0, 0⟩ 1) _ firstNote :=
    history_runAll _ _
  have hrun' : History (Moved .sample doubling) firstNote _ secondNote := history_runAll _ _
  have hpointer : SlicePool.SamePointer firstNote.pool secondNote.pool := by
    unfold SlicePool.SamePointer
    decide +kernel
  constructor
  · exact ((pending_slice_kept _ _ hrun hrun').2.2 _ _ ⟨rfl, rfl⟩).trans (by decide +kernel)
  · exact ((pending_slice_kept _ _ (hrun.append hrun') .start).2.2 _ _ hpointer).trans
      (by decide +kernel)

/-- With the pointer of the empty pool and the length of after, the slice has what happens to be on
the heap. -/
example : firstNote.pool.heap.read
    (SlicePool.pendingSlice (new ⟨fun _ _ => TxPool.note 0, 0⟩ 1).pool firstNote.pool
      firstNote.pool) = [TxPool.note 0] := by
  decide +kernel

/-- With `all` it is different: the oldest transaction is taken out in place, and a slice of earlier
has the new one where the old one was. -/
example :
    secondNote.pool.heap.read firstNote.pool.all.txx = [(TxPool.note 2).cacheHash .sample] := by
  decide +kernel

end SliceAdders

end Blockz
