import Blockz.Core.Block
import Blockz.Framework.Window
import Mathlib.Data.Finmap

/-!
# The transaction pool

`types/list.go` and `network/txpool.go`. The pool has two collections: `all`, by which it recognises
what it has seen, and `pending`, from which blocks are made. A collection is a map from hashes and a
list that keeps the order of arrival. When `all` is full its oldest transaction makes room;
`pending` is not pruned.

Every method of a collection runs under its lock, and the methods of the pool are sequences of such
calls. `TxPool.add` is the sequence in one go; `TxPool.addStage` is one call of it, for runs in
which other goroutines come in between.

* `TxSortedMap.Indexed` — map and list hold the same transactions, one for each hash.
* `TxPool.add_eq_stages` — the stages, one after the other, are the whole call.
-/

namespace Blockz

open Effect

variable (P : Primitives)

/-! ### Collections -/

/-- `types.List.GetIndex`: the first element that is deeply equal to `v`. -/
def getIndex (v : Transaction) (data : List Transaction) : Option ℕ := data.idxOf? v

/-- `types.List.Remove`, with the call of `Pop`. -/
def listRemove (v : Transaction) (data : List Transaction) : List Transaction :=
  match getIndex v data with
  | none => data
  | some i => data.eraseIdx i

theorem listRemove_eq_erase (v : Transaction) (data : List Transaction) :
    listRemove v data = data.erase v :=
  (List.erase_eq_eraseIdx data v).symm

/-- `network.TxSortedMap`. -/
structure TxSortedMap where
  lookup : Finmap fun _ : Hash => Transaction
  txx : List Transaction

namespace TxSortedMap

/-- `NewTxSortedMap`; a collection is the same after `Clear`. -/
def new : TxSortedMap := ⟨∅, []⟩

/-- `TxSortedMap.First`: the entry of the first transaction of the list. `List.Get` panics if there
is none. -/
def first (t : TxSortedMap) : Outcome Err (Option Transaction) :=
  match t.txx with
  | [] => .panic .raised
  | tx :: _ => .ok (t.lookup.lookup (tx.hash P))

/-- `TxSortedMap.Add`. The collection keeps the pointer, on which `Hash` has been called. -/
def add (tx : Transaction) (t : TxSortedMap) : TxSortedMap :=
  if tx.hash P ∈ t.lookup then t
  else ⟨t.lookup.insert (tx.hash P) (tx.cacheHash P), t.txx ++ [tx.cacheHash P]⟩

/-- `TxSortedMap.Remove`. For a hash without an entry the list is searched for a nil pointer. -/
def remove (h : Hash) (t : TxSortedMap) : TxSortedMap :=
  ⟨t.lookup.erase h,
    match t.lookup.lookup h with
    | none => t.txx
    | some tx => listRemove tx t.txx⟩

/-- `TxSortedMap.Clear`. -/
def clear (_ : TxSortedMap) : TxSortedMap := ⟨∅, []⟩

/-- `TxSortedMap.Count`. -/
def count (t : TxSortedMap) : ℕ := t.lookup.keys.card

/-- `TxSortedMap.Contains`. -/
def contains (h : Hash) (t : TxSortedMap) : Prop := h ∈ t.lookup

instance (h : Hash) (t : TxSortedMap) : Decidable (t.contains h) :=
  inferInstanceAs (Decidable (h ∈ t.lookup))

variable {P} {t : TxSortedMap}

/-- Map and list hold the same transactions, one for each hash. -/
structure Indexed (P : Primitives) (t : TxSortedMap) : Prop where
  lookup_iff : ∀ h tx, t.lookup.lookup h = some tx ↔ tx ∈ t.txx ∧ tx.hash P = h
  nodup : (t.txx.map (Transaction.hash P)).Nodup

theorem indexed_new : Indexed P new where
  lookup_iff h tx := by
    have hnone : new.lookup.lookup h = none := Finmap.lookup_empty h
    rw [hnone]
    exact ⟨fun hsome => (nomatch hsome), fun hmem => absurd hmem.1 List.not_mem_nil⟩
  nodup := List.nodup_nil

theorem subset_txx_add (tx : Transaction) : t.txx ⊆ (t.add P tx).txx := by
  unfold TxSortedMap.add
  split
  · exact fun _ => id
  · exact fun _ => List.mem_append_left _

/-- Behind `Add` there is a transaction with the hash, the given one unless there was one already.
-/
theorem Indexed.exists_mem_add (ht : Indexed P t) (tx : Transaction) :
    ∃ tx' ∈ (t.add P tx).txx, tx' ∈ t.txx ∧ tx'.hash P = tx.hash P ∨ tx' = tx.cacheHash P := by
  by_cases hmem : tx.hash P ∈ t.lookup
  · obtain ⟨tx', hlookup⟩ := Finmap.mem_iff.mp hmem
    obtain ⟨hold, hhash⟩ := (ht.lookup_iff _ tx').mp hlookup
    exact ⟨tx', subset_txx_add tx hold, Or.inl ⟨hold, hhash⟩⟩
  · unfold TxSortedMap.add
    rw [if_neg hmem]
    exact ⟨_, List.mem_append_right _ List.mem_cons_self, Or.inr rfl⟩

theorem mem_txx_add {tx tx' : Transaction} (hmem : tx' ∈ (t.add P tx).txx) :
    tx' ∈ t.txx ∨ tx' = tx.cacheHash P := by
  unfold TxSortedMap.add at hmem
  split at hmem
  · exact Or.inl hmem
  · rcases List.mem_append.mp hmem with hold | hnew
    · exact Or.inl hold
    · exact Or.inr (List.mem_singleton.mp hnew)

theorem Indexed.mem_lookup (ht : Indexed P t) {h : Hash} :
    h ∈ t.lookup ↔ h ∈ t.txx.map (Transaction.hash P) := by
  rw [Finmap.mem_iff, List.mem_map]
  simp only [ht.lookup_iff]

theorem Indexed.add (ht : Indexed P t) (tx : Transaction) : Indexed P (t.add P tx) := by
  unfold TxSortedMap.add
  by_cases hmem : tx.hash P ∈ t.lookup
  · rw [if_pos hmem]
    exact ht
  rw [if_neg hmem]
  have hnone : ∀ tx' ∈ t.txx, tx'.hash P ≠ tx.hash P := fun tx' h' heq =>
    hmem (ht.mem_lookup.mpr (List.mem_map.mpr ⟨tx', h', heq⟩))
  refine ⟨fun h tx' => ?_, ?_⟩
  · show Finmap.lookup h (t.lookup.insert (tx.hash P) (tx.cacheHash P)) = some tx' ↔
      tx' ∈ t.txx ++ [tx.cacheHash P] ∧ _
    rw [List.mem_append, List.mem_singleton]
    by_cases hh : h = tx.hash P
    · rw [hh, Finmap.lookup_insert, Option.some.injEq]
      constructor
      · rintro rfl
        exact ⟨Or.inr rfl, Transaction.hash_cacheHash tx⟩
      · rintro ⟨hold | rfl, heq⟩
        · exact absurd heq (hnone tx' hold)
        · rfl
    · rw [Finmap.lookup_insert_of_ne _ hh, ht.lookup_iff]
      refine and_congr_left fun heq => (or_iff_left ?_).symm
      rintro rfl
      exact hh (heq.symm.trans (Transaction.hash_cacheHash tx))
  · show ((t.txx ++ [tx.cacheHash P]).map (Transaction.hash P)).Nodup
    rw [List.map_append, List.nodup_append]
    refine ⟨ht.nodup, List.nodup_singleton _, fun h hold h' hnew => ?_⟩
    obtain ⟨tx', hmem', rfl⟩ := List.mem_map.mp hold
    rw [List.map_singleton, List.mem_singleton, Transaction.hash_cacheHash] at hnew
    rw [hnew]
    exact hnone tx' hmem'

theorem txx_remove_of_none {h : Hash} (hnone : t.lookup.lookup h = none) :
    (t.remove h).txx = t.txx := by
  unfold remove
  rw [hnone]

theorem txx_remove_of_some {h : Hash} {tx : Transaction} (hsome : t.lookup.lookup h = some tx) :
    (t.remove h).txx = t.txx.erase tx := by
  rw [← listRemove_eq_erase]
  unfold remove
  rw [hsome]

/-- **`Remove` by deep equality.** The list loses what has the hash and keeps the rest in its order.
-/
theorem Indexed.txx_remove (ht : Indexed P t) (h : Hash) :
    (t.remove h).txx = t.txx.filter fun tx => tx.hash P ≠ h := by
  cases hold : t.lookup.lookup h with
  | none =>
    rw [txx_remove_of_none hold]
    refine (List.filter_eq_self.mpr fun tx hmem => ?_).symm
    rw [decide_eq_true_iff]
    intro heq
    rw [(ht.lookup_iff h tx).mpr ⟨hmem, heq⟩] at hold
    exact nomatch hold
  | some old =>
    obtain ⟨-, hhash⟩ := (ht.lookup_iff h old).mp hold
    have hnodup : t.txx.Nodup := ht.nodup.of_map _
    rw [txx_remove_of_some hold, hnodup.erase_eq_filter]
    refine List.filter_congr fun tx hmem => ?_
    -- in the list a transaction is deeply equal to the entry just when it has the hash
    have hsame : tx = old ↔ tx.hash P = h := by
      constructor
      · rintro rfl
        exact hhash
      · intro heq
        exact Option.some.inj (((ht.lookup_iff h tx).mpr ⟨hmem, heq⟩).symm.trans hold)
    rw [bne, Bool.beq_eq_decide_eq, decide_not, decide_eq_decide.mpr hsame]

/-- What is left in the list is what does not have the hash. -/
theorem Indexed.mem_txx_remove (ht : Indexed P t) (h : Hash) (tx : Transaction) :
    tx ∈ (t.remove h).txx ↔ tx ∈ t.txx ∧ tx.hash P ≠ h := by
  rw [ht.txx_remove, List.mem_filter, decide_eq_true_iff]

theorem Indexed.remove (ht : Indexed P t) (h : Hash) : Indexed P (t.remove h) := by
  refine ⟨fun k tx => ?_, ?_⟩
  case refine_2 =>
    rw [ht.txx_remove]
    exact ht.nodup.sublist (List.filter_sublist.map _)
  rw [ht.mem_txx_remove]
  show (t.lookup.erase h).lookup k = some tx ↔ _
  by_cases hk : k = h
  · have hgone : (t.lookup.erase h).lookup k = none := hk ▸ Finmap.lookup_erase h t.lookup
    rw [hgone]
    exact ⟨fun hsome => (nomatch hsome), fun hboth => absurd (hboth.2.trans hk) hboth.1.2⟩
  · rw [Finmap.lookup_erase_ne hk, ht.lookup_iff]
    refine and_congr_left fun heq => (and_iff_left ?_).symm
    rw [heq]
    exact hk

theorem Indexed.count_eq (ht : Indexed P t) : t.count = t.txx.length := by
  have hkeys : t.lookup.keys = (t.txx.map (Transaction.hash P)).toFinset := by
    ext h
    rw [Finmap.mem_keys, ht.mem_lookup, List.mem_toFinset]
  unfold count
  rw [hkeys, List.toFinset_card_of_nodup ht.nodup, List.length_map]

theorem Indexed.first_eq (ht : Indexed P t) {tx : Transaction} {rest : List Transaction}
    (htxx : t.txx = tx :: rest) : t.first P = .ok (some tx) := by
  have hentry := (ht.lookup_iff (tx.hash P) tx).mpr ⟨by rw [htxx]; exact List.mem_cons_self, rfl⟩
  unfold first
  rw [htxx]
  exact congrArg Outcome.ok hentry

/-- The list after `Add`. -/
theorem Indexed.txx_add (ht : Indexed P t) (tx : Transaction) :
    (t.add P tx).txx = Window.enter (Transaction.hash P) (tx.cacheHash P) t.txx := by
  unfold TxSortedMap.add Window.enter
  simp only [Transaction.hash_cacheHash, ← ht.mem_lookup]
  split <;> rfl

/-- The list after `Remove` of its first transaction. -/
theorem Indexed.txx_remove_first (ht : Indexed P t) {tx : Transaction} {rest : List Transaction}
    (htxx : t.txx = tx :: rest) : (t.remove (tx.hash P)).txx = rest := by
  have hentry := (ht.lookup_iff (tx.hash P) tx).mpr ⟨by rw [htxx]; exact List.mem_cons_self, rfl⟩
  rw [txx_remove_of_some hentry, htxx, List.erase_cons_head]

theorem Indexed.count_remove (ht : Indexed P t) {h : Hash} (hmem : t.contains h) :
    (t.remove h).count + 1 = t.count := by
  obtain ⟨tx, hlookup⟩ := Finmap.mem_iff.mp hmem
  have htx := ((ht.lookup_iff h tx).mp hlookup).1
  rw [(ht.remove h).count_eq, ht.count_eq, txx_remove_of_some hlookup, List.length_erase_of_mem htx,
    Nat.sub_add_cancel (List.length_pos_of_mem htx)]

theorem Indexed.count_add_le (ht : Indexed P t) (tx : Transaction) :
    (t.add P tx).count ≤ t.count + 1 := by
  rw [(ht.add tx).count_eq, ht.count_eq, ht.txx_add]
  exact Window.length_enter_le _ _

/-- The list of a collection in order determines its map. -/
theorem Indexed.eq_of_txx {t' : TxSortedMap} (ht : Indexed P t) (ht' : Indexed P t')
    (htxx : t.txx = t'.txx) : t = t' := by
  obtain ⟨lookup, txx⟩ := t
  obtain ⟨lookup', txx'⟩ := t'
  obtain rfl : txx = txx' := htxx
  congr 1
  apply Finmap.ext_lookup
  intro h
  apply Option.ext
  intro tx
  exact (ht.lookup_iff h tx).trans (ht'.lookup_iff h tx).symm

end TxSortedMap

/-! ### The pool -/

/-- `network.TxPool`. -/
structure TxPool where
  all : TxSortedMap
  pending : TxSortedMap
  maxLength : ℕ

namespace TxPool

/-- `NewTxPool`. -/
def new (maxLength : ℕ) : TxPool := ⟨.new, .new, maxLength⟩

/-- `defaultTxPoolMaxLength`. -/
def defaultTxPoolMaxLength : ℕ := 10000

/-- `TxPool.Contains`. -/
def contains (h : Hash) (p : TxPool) : Prop := p.all.contains h

instance (h : Hash) (p : TxPool) : Decidable (p.contains h) :=
  inferInstanceAs (Decidable (p.all.contains h))

/-- `TxPool.ClearPending`. -/
def clearPending (p : TxPool) : TxPool := { p with pending := .new }

/-- `p.all.First()`, and the hash of what it points to. -/
def oldestHash (p : TxPool) : Outcome Err Hash := do
  let oldest ← p.all.first P
  let oldest ← Outcome.deref oldest
  pure (oldest.hash P)

/-- The first half of `TxPool.Add`: the oldest transaction of a full pool goes. -/
def prune : Act TxPool Err Unit := do
  let p ← Act.get
  if p.all.count = p.maxLength then do
    let h ← Act.lift (p.oldestHash P)
    Act.modify fun p => { p with all := p.all.remove h }
  else pure ()

/-- The second half: what is not there goes into both collections. -/
def insert (tx : Transaction) : Act TxPool Err Unit := do
  let p ← Act.get
  if ¬ p.all.contains (tx.hash P) then do
    Act.modify fun p => { p with all := p.all.add P tx }
    Act.modify fun p => { p with pending := p.pending.add P tx }
  else pure ()

/-- `TxPool.Add`. -/
def add (tx : Transaction) : Act TxPool Err Unit := do
  prune P
  insert P tx

/-- Where a call of `TxPool.Add` stands: the call on a collection that comes next. -/
inductive AddStage
  | count
  | first
  | remove (h : Hash)
  | contains
  | addAll
  | addPending
  | done
  deriving DecidableEq

/-- One call on a collection. -/
def addStage (tx : Transaction) : AddStage → Act TxPool Err AddStage
  | .count => do
    let p ← Act.get
    pure (if p.all.count = p.maxLength then .first else .contains)
  | .first => do
    let p ← Act.get
    let h ← Act.lift (p.oldestHash P)
    pure (.remove h)
  | .remove h => do
    Act.modify fun p => { p with all := p.all.remove h }
    pure .contains
  | .contains => do
    let p ← Act.get
    pure (if ¬ p.all.contains (tx.hash P) then .addAll else .done)
  | .addAll => do
    Act.modify fun p => { p with all := p.all.add P tx }
    pure .addPending
  | .addPending => do
    Act.modify fun p => { p with pending := p.pending.add P tx }
    pure .done
  | .done => pure .done

/-- The stages one after the other, at most `n` of them. -/
def addStages (tx : Transaction) : ℕ → AddStage → Act TxPool Err AddStage
  | 0, stage => pure stage
  | n + 1, stage => addStage P tx stage >>= addStages tx n

variable {P} {p : TxPool}

/-! ### The call and its stages -/

@[simp] theorem addStages_done (tx : Transaction) (n : ℕ) :
    addStages P tx n .done p = (.ok .done, p) := by
  induction n with
  | zero => rfl
  | succ n ih => exact ih

theorem insert_apply (tx : Transaction) (p : TxPool) :
    insert P tx p = (.ok (), if p.all.contains (tx.hash P) then p
      else { p with all := p.all.add P tx, pending := p.pending.add P tx }) := by
  unfold insert
  rw [Act.get_bind_apply]
  by_cases hmem : p.all.contains (tx.hash P)
  · rw [if_pos hmem, if_neg (not_not_intro hmem)]
    rfl
  · rw [if_neg hmem, if_pos hmem]
    rfl

/-- The last three stages are the second half of the call. -/
theorem addStages_contains (tx : Transaction) (n : ℕ) (p : TxPool) :
    addStages P tx (n + 3) .contains p = (.ok .done, (insert P tx p).2) := by
  have hcontains : addStage P tx .contains p =
      (.ok (if ¬ p.all.contains (tx.hash P) then .addAll else .done), p) := rfl
  rw [addStages, Act.bind_apply_ok hcontains, insert_apply]
  by_cases hmem : p.all.contains (tx.hash P)
  · rw [if_neg (not_not_intro hmem), if_pos hmem, addStages_done]
  · rw [if_pos hmem, if_neg hmem]
    exact addStages_done tx n

/-- **The stages are the call.** Six of them are enough. -/
theorem add_eq_stages (tx : Transaction) (p : TxPool) :
    (addStages P tx 6 .count >>= fun _ => pure ()) p = add P tx p := by
  -- the last three stages are the second half, whatever comes before them
  have hinsert : ∀ k, (addStages P tx (k + 3) .contains >>= fun _ => pure ()) = insert P tx := by
    intro k
    funext q
    rw [Act.bind_apply_ok (addStages_contains tx k q), insert_apply]
    rfl
  have hcount : (addStages P tx 6 .count >>= fun _ => pure ()) p =
      (addStages P tx 5 (if p.all.count = p.maxLength then .first else .contains) >>=
        fun _ => pure ()) p := rfl
  rw [hcount]
  unfold add prune
  by_cases hfull : p.all.count = p.maxLength
  · have hfirst : addStages P tx 5 .first = Act.get >>= fun q =>
        Act.lift (q.oldestHash P) >>= fun h =>
          Act.modify (fun q => { q with all := q.all.remove h }) >>= fun _ =>
            addStages P tx 3 .contains := by
      rw [addStages, addStage, bind_assoc]
      refine bind_congr fun q => ?_
      rw [bind_assoc]
      rfl
    simp only [hfirst, bind_assoc, Act.get_bind_apply, if_pos hfull]
    rw [hinsert 0]
  · simp only [bind_assoc, Act.get_bind_apply, if_neg hfull, pure_bind]
    rw [hinsert 2]

/-! ### Pools as the node has them -/

/-- Both collections are in order, and there is room for a transaction at all. -/
structure Sound (P : Primitives) (p : TxPool) : Prop where
  all : p.all.Indexed P
  pending : p.pending.Indexed P
  room : 0 < p.maxLength

theorem sound_new {maxLength : ℕ} (hpos : 0 < maxLength) : Sound P (new maxLength) :=
  ⟨TxSortedMap.indexed_new, TxSortedMap.indexed_new, hpos⟩

theorem Sound.clearPending (hp : Sound P p) : Sound P p.clearPending :=
  ⟨hp.all, TxSortedMap.indexed_new, hp.room⟩

theorem oldestHash_eq (hall : p.all.Indexed P) {oldest : Transaction} {rest : List Transaction}
    (htxx : p.all.txx = oldest :: rest) : p.oldestHash P = .ok (oldest.hash P) := by
  unfold oldestHash
  rw [hall.first_eq htxx]
  rfl

/-- A full pool has an oldest transaction. -/
theorem Sound.prune_apply (hp : Sound P p) :
    ∃ all, prune P p = (.ok (), { p with all := all }) ∧ all.Indexed P ∧
      all.txx = Window.evict p.maxLength p.all.txx := by
  unfold prune
  rw [Act.get_bind_apply]
  by_cases hfull : p.all.count = p.maxLength
  · rw [if_pos hfull]
    rw [hp.all.count_eq] at hfull
    cases htxx : p.all.txx with
    | nil =>
      have hroom := hp.room
      rw [← hfull, htxx] at hroom
      exact absurd hroom (Nat.lt_irrefl 0)
    | cons oldest rest =>
      rw [htxx] at hfull
      rw [oldestHash_eq hp.all htxx, Window.evict_of_cons hfull]
      exact ⟨_, rfl, hp.all.remove (oldest.hash P), hp.all.txx_remove_first htxx⟩
  · rw [if_neg hfull]
    rw [hp.all.count_eq] at hfull
    exact ⟨_, rfl, hp.all, (Window.evict_of_ne hfull).symm⟩

/-- What a full pool makes room for: the transactions by which `Add` decides whether the new one is
there. -/
def kept (p : TxPool) : List Transaction := Window.evict p.maxLength p.all.txx

theorem kept_sublist (p : TxPool) : p.kept.Sublist p.all.txx := Window.evict_sublist _ _

/-- Making room does not bring a hash in. -/
theorem Sound.notMem_kept (hp : Sound P p) {h : Hash} (habsent : ¬ p.contains h) :
    h ∉ p.kept.map (Transaction.hash P) := fun hmem =>
  habsent (hp.all.mem_lookup.mpr ((p.kept_sublist.map _).subset hmem))

/-- **`Add`, on the lists.** The pool gives up its oldest transaction if it is full, and only then
looks for the hash of the new one. -/
theorem Sound.add_apply (hp : Sound P p) (tx : Transaction) :
    ∃ p', add P tx p = (.ok (), p') ∧ Sound P p' ∧ p'.maxLength = p.maxLength ∧
      p'.all.txx = Window.enter (Transaction.hash P) (tx.cacheHash P) p.kept ∧
      p'.pending.txx = if tx.hash P ∈ p.kept.map (Transaction.hash P) then p.pending.txx
        else Window.enter (Transaction.hash P) (tx.cacheHash P) p.pending.txx := by
  obtain ⟨all, hprune, hall, htxx⟩ := hp.prune_apply
  have hkept : all.txx = p.kept := htxx
  have hmem : all.contains (tx.hash P) ↔ tx.hash P ∈ p.kept.map (Transaction.hash P) := by
    rw [← hkept]
    exact hall.mem_lookup
  have hnew := Transaction.hash_cacheHash (P := P) tx
  unfold add
  rw [Act.bind_apply_ok hprune, insert_apply]
  by_cases hthere : all.contains (tx.hash P)
  · rw [if_pos hthere, if_pos (hmem.mp hthere),
      Window.enter_of_mem (by rw [hnew]; exact hmem.mp hthere)]
    exact ⟨_, rfl, ⟨hall, hp.pending, hp.room⟩, rfl, hkept, rfl⟩
  · rw [if_neg hthere, if_neg (fun h => hthere (hmem.mpr h)), ← hkept]
    exact ⟨_, rfl, ⟨hall.add tx, hp.pending.add tx, hp.room⟩, rfl, hall.txx_add tx,
      hp.pending.txx_add tx⟩

/-- **`Add` of a new transaction** puts it at the end of `pending`, unless its hash is there. -/
theorem Sound.add_of_absent (hp : Sound P p) {tx : Transaction}
    (habsent : ¬ p.contains (tx.hash P)) :
    ∃ all, add P tx p = (.ok (), { p with all := all, pending := p.pending.add P tx }) ∧
      all.Indexed P := by
  obtain ⟨all, hprune, hall, htxx⟩ := hp.prune_apply
  have hnew : ¬ all.contains (tx.hash P) := by
    intro hmem
    have hold := hall.mem_lookup.mp hmem
    rw [htxx] at hold
    exact hp.notMem_kept habsent hold
  unfold add
  rw [Act.bind_apply_ok hprune, insert_apply, if_neg hnew]
  exact ⟨_, rfl, hall.add tx⟩

end TxPool

end Blockz
