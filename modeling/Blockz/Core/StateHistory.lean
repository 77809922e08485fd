import Blockz.Core.StateRoot
import Blockz.Framework.History

/-!
# What the state root is a function of

Two world states with the same accounts should have the same root, however they came about. The
order of the accounts is taken out by sorting, so it does no harm. The order of the storage entries
is not: gob visits the map as Go hands it out, and the bytes follow the visit.

Along a history of operations the storage of an address holds the keys that `SetAccountState` has
written there (`storageKeys_of_run`; no other operation touches a storage map). With at most one key
there is one order, and all evaluations agree. With two keys the first two entries can be visited
either way round, and the two evaluations differ, unless the account cannot be encoded and is passed
over.
-/

namespace Blockz

open Effect Iteration

namespace WorldState

/-! ### Operations -/

/-- The operations that change the accounts. -/
inductive Operation
  | addBalance (addr : Address) (amount : UInt64)
  | subBalance (addr : Address) (amount : UInt64)
  | transfer (src dst : Address) (value : UInt64)
  | incrementNonce (addr : Address)
  | setCode (addr : Address) (code : List UInt8)
  | setAccountState (addr : Address) (key : Hash) (value : List UInt8)

def Operation.run (P : Primitives) : Operation → Act WorldState Err Unit
  | .addBalance addr amount => Act.modify fun ws => ws.addBalance addr amount
  | .subBalance addr amount => WorldState.subBalance addr amount
  | .transfer src dst value => WorldState.transfer src dst value
  | .incrementNonce addr => Act.modify fun ws => ws.incrementNonce addr
  | .setCode addr code => Act.modify fun ws => ws.setCode P addr code
  | .setAccountState addr key value => Act.modify fun ws => ws.setAccountState addr key value

/-- One operation, its answer, and the state it leaves. -/
def Operated (P : Primitives) (ws : WorldState) (op : Operation) (o : Outcome Err Unit)
    (ws' : WorldState) : Prop :=
  op.run P ws = (o, ws')

/-- The storage keys that an operation writes at `addr`. -/
def Operation.writes (addr : Address) : Operation → Finset Hash
  | .setAccountState a key _ => if a = addr then {key} else ∅
  | _ => ∅

/-- The storage keys that a history has written at `addr`. -/
def writtenKeys (es : List (Operation × Outcome Err Unit)) (addr : Address) : Finset Hash :=
  es.foldl (fun keys e => keys ∪ e.1.writes addr) ∅

theorem writtenKeys_append (es : List (Operation × Outcome Err Unit)) (op : Operation)
    (o : Outcome Err Unit) (addr : Address) :
    writtenKeys (es ++ [(op, o)]) addr = writtenKeys es addr ∪ op.writes addr := by
  unfold writtenKeys
  rw [List.foldl_append]
  rfl

/-- The storage keys of an account. -/
def storageKeys (ws : WorldState) (addr : Address) : Finset Hash := (ws.account addr).storage.keys

variable {P : Primitives}

theorem storageKeys_updateAccount (ws : WorldState) (a b : Address) (f : Account → Account) :
    (ws.updateAccount a f).storageKeys b =
      if b = a then (f (ws.account a)).storage.keys else ws.storageKeys b := by
  unfold storageKeys
  rw [account_updateAccount]
  split <;> rfl

/-- An update that keeps the storage of the account it writes keeps all storage keys. -/
theorem storageKeys_updateAccount_of_storage (ws : WorldState) {a : Address}
    {f : Account → Account} (hf : ∀ acc, (f acc).storage = acc.storage) (b : Address) :
    (ws.updateAccount a f).storageKeys b = ws.storageKeys b := by
  rw [storageKeys_updateAccount]
  split
  · next h => rw [h, hf, storageKeys]
  · rfl

theorem storageKeys_setAccountState (ws : WorldState) (a b : Address) (key : Hash)
    (value : List UInt8) :
    (ws.setAccountState a key value).storageKeys b =
      ws.storageKeys b ∪ if a = b then {key} else ∅ := by
  unfold setAccountState
  rw [storageKeys_updateAccount]
  by_cases hb : b = a
  · subst hb
    rw [if_pos rfl, if_pos rfl]
    ext k
    rw [Finmap.mem_keys, Finmap.mem_insert, Finset.mem_union, Finset.mem_singleton, or_comm]
    rfl
  · rw [if_neg hb, if_neg fun h => hb h.symm, Finset.union_empty]

theorem storageKeys_addBalance (ws : WorldState) (a b : Address) (amount : UInt64) :
    (ws.addBalance a amount).storageKeys b = ws.storageKeys b := by
  unfold addBalance
  rw [storageKeys_updateAccount_of_storage]
  exact fun _ => rfl

theorem storageKeys_incrementNonce (ws : WorldState) (a b : Address) :
    (ws.incrementNonce a).storageKeys b = ws.storageKeys b := by
  unfold incrementNonce
  rw [storageKeys_updateAccount_of_storage]
  exact fun _ => rfl

theorem storageKeys_setCode (ws : WorldState) (a b : Address) (code : List UInt8) :
    (ws.setCode P a code).storageKeys b = ws.storageKeys b := by
  have hkept := ws.storageKeys_updateAccount_of_storage (a := a)
    (f := fun acc => { acc with codeHash := P.sha256 code }) (fun _ => rfl) b
  exact hkept

theorem storageKeys_subBalance (ws : WorldState) (a b : Address) (amount : UInt64) :
    (subBalance a amount ws).2.storageKeys b = ws.storageKeys b := by
  unfold subBalance
  split
  · rfl
  · split
    · rfl
    · dsimp only
      rw [storageKeys_updateAccount_of_storage]
      exact fun _ => rfl

theorem storageKeys_transfer (ws : WorldState) (src dst b : Address) (value : UInt64) :
    (transfer src dst value ws).2.storageKeys b = ws.storageKeys b := by
  rcases transfer_cases src dst value ws with ⟨e, hfailed⟩ | ⟨hpaid, -, -⟩
  · rw [hfailed]
  · rw [hpaid]
    unfold debitCredit
    rw [storageKeys_addBalance, storageKeys_updateAccount_of_storage]
    exact fun _ => rfl

/-- **One operation.** Only `SetAccountState` adds a key, and nothing removes one. -/
theorem Operated.storageKeys_eq {ws ws' : WorldState} {op : Operation} {o : Outcome Err Unit}
    (h : Operated P ws op o ws') (addr : Address) :
    ws'.storageKeys addr = ws.storageKeys addr ∪ op.writes addr := by
  obtain rfl : (op.run P ws).2 = ws' := by rw [show op.run P ws = (o, ws') from h]
  have hnone : ∀ {keys : Finset Hash}, keys = ws.storageKeys addr →
      keys = ws.storageKeys addr ∪ ∅ := by
    intro keys hkeys
    rw [hkeys, Finset.union_empty]
  cases op with
  | setAccountState a key value => exact ws.storageKeys_setAccountState a addr key value
  | addBalance a amount => exact hnone (ws.storageKeys_addBalance a addr amount)
  | subBalance a amount => exact hnone (ws.storageKeys_subBalance a addr amount)
  | transfer src dst value => exact hnone (ws.storageKeys_transfer src dst addr value)
  | incrementNonce a => exact hnone (ws.storageKeys_incrementNonce a addr)
  | setCode a code => exact hnone (ws.storageKeys_setCode a addr code)

theorem storageKeys_createGenesisState (allocs : List (Address × UInt64)) (addr : Address) :
    (createGenesisState allocs).storageKeys addr = ∅ := by
  -- every account that the loop has inserted so far is a fresh one
  have hfresh : ∀ (m : Finmap fun _ : Address => Account),
      (∀ acc, m.lookup addr = some acc → acc.storage = ∅) → ∀ acc,
      (allocs.foldl (fun m alloc => m.insert alloc.1 (newAccount alloc.2)) m).lookup addr =
        some acc →
      acc.storage = ∅ := by
    induction allocs with
    | nil => exact fun m hm => hm
    | cons alloc allocs ih =>
      intro m hm
      refine ih _ fun acc hacc => ?_
      by_cases haddr : addr = alloc.1
      · rw [haddr, Finmap.lookup_insert] at hacc
        rw [← Option.some.inj hacc]
        rfl
      · rw [Finmap.lookup_insert_of_ne _ haddr] at hacc
        exact hm acc hacc
  unfold storageKeys account
  cases hacc : (createGenesisState allocs).accounts.lookup addr with
  | none => rfl
  | some acc =>
    have hempty := hfresh ∅ (fun acc h => absurd h (by simp)) acc hacc
    change acc.storage.keys = ∅
    rw [hempty]
    rfl

/-- **A history.** From a genesis state on, the storage holds the keys that were written. -/
theorem storageKeys_of_run {allocs : List (Address × UInt64)}
    {es : List (Operation × Outcome Err Unit)} {ws : WorldState}
    (hrun : History (Operated P) (createGenesisState allocs) es ws) (addr : Address) :
    ws.storageKeys addr = writtenKeys es addr := by
  refine hrun.recorded (fun es ws => ws.storageKeys addr = writtenKeys es addr) ?_ ?_
  · exact storageKeys_createGenesisState allocs addr
  · intro es ws op o ws' _ hws hop
    rw [hop.storageKeys_eq, hws, writtenKeys_append]

/-! ### One account -/

variable {gob : AccountEncoder} {accounts : Finmap fun _ : Address => Account}

/-- In some order of its storage the account is encoded, and not passed over. -/
def Encodable (gob : AccountEncoder) (acc : Account) : Prop :=
  ∃ entries data, Lists entries acc.storage ∧ acc.encode gob entries = .ok data

/-- The encoding of an account of `accs` shows in which order its storage was visited. -/
def OrderVisible (gob : AccountEncoder) (accs : Set Account) : Prop :=
  ∀ acc ∈ accs, ∀ entries entries' data, Lists entries acc.storage → Lists entries' acc.storage →
    acc.encode gob entries = .ok data → acc.encode gob entries' = .ok data → entries = entries'

theorem contribution_of_ok {entries : Address → List (Σ _ : Hash, List UInt8)} {addr : Address}
    {acc : Account} {data : List UInt8} (hacc : accounts.lookup addr = some acc)
    (hdata : acc.encode gob (entries addr) = .ok data) :
    contribution gob accounts entries addr = addr.bytes ++ data := by
  simp only [contribution, hacc, hdata]

theorem contribution_of_error {entries : Address → List (Σ _ : Hash, List UInt8)} {addr : Address}
    {acc : Account} {e : Err} (hacc : accounts.lookup addr = some acc)
    (hfail : acc.encode gob (entries addr) = .error e) :
    contribution gob accounts entries addr = [] := by
  simp only [contribution, hacc, hfail]

/-- An account with one storage key, or one that cannot be encoded, adds the same bytes in every
evaluation. -/
theorem contribution_congr (walk walk' : Walk accounts) {addr : Address} {acc : Account}
    (hacc : accounts.lookup addr = some acc)
    (hfew : Encodable gob acc → acc.storage.keys.card ≤ 1) :
    contribution gob accounts walk.entries addr = contribution gob accounts walk'.entries addr := by
  have hlists := walk.lists addr acc hacc
  have hlists' := walk'.lists addr acc hacc
  by_cases hencodable : Encodable gob acc
  · have hsame := hlists.unique (hfew hencodable) hlists'
    simp only [contribution, hacc, hsame]
  · have hskip : ∀ entries, Lists entries acc.storage → ∃ e, acc.encode gob entries = .error e := by
      intro entries h
      cases hdata : acc.encode gob entries with
      | error e => exact ⟨e, rfl⟩
      | ok data => exact absurd ⟨entries, data, h, hdata⟩ hencodable
    obtain ⟨e, he⟩ := hskip _ hlists
    obtain ⟨e', he'⟩ := hskip _ hlists'
    rw [contribution_of_error hacc he, contribution_of_error hacc he']

/-! ### All accounts -/

/-- The walk that visits the storage of `addr` in another order. -/
def Walk.redirect (walk : Walk accounts) (addr : Address) (entries : List (Σ _ : Hash, List UInt8))
    (hlists : ∀ acc, accounts.lookup addr = some acc → Lists entries acc.storage) :
    Walk accounts where
  addrs := walk.addrs
  addrs_eq := walk.addrs_eq
  entries := Function.update walk.entries addr entries
  lists a acc hacc := by
    by_cases ha : a = addr
    · subst ha
      rw [Function.update_self]
      exact hlists acc hacc
    · rw [Function.update_of_ne ha]
      exact walk.lists a acc hacc

theorem Walk.nodup_sortAddrs (walk : Walk accounts) : (sortAddrs walk.addrs).Nodup := by
  have hnodup : walk.addrs.Nodup := by
    rw [← Multiset.coe_nodup, walk.addrs_eq]
    exact accounts.keys.nodup
  exact (List.perm_insertionSort _ walk.addrs).nodup_iff.mpr hnodup

/-- Bytes that differ at one address are not made up for at another: what stands before and behind
them is the same. -/
theorem combined_redirect_ne (walk : Walk accounts) {addr : Address} {acc : Account}
    (hacc : accounts.lookup addr = some acc) {xs ys : List (Σ _ : Hash, List UInt8)}
    (hxs : Lists xs acc.storage) (hys : Lists ys acc.storage)
    (hne : contribution gob accounts (Function.update walk.entries addr xs) addr ≠
      contribution gob accounts (Function.update walk.entries addr ys) addr) :
    ∃ walk₁ walk₂ : Walk accounts, combined gob walk₁ ≠ combined gob walk₂ := by
  have hlists : ∀ {zs : List (Σ _ : Hash, List UInt8)}, Lists zs acc.storage →
      ∀ acc', accounts.lookup addr = some acc' → Lists zs acc'.storage := by
    intro zs hzs acc' hacc'
    rw [hacc] at hacc'
    exact Option.some.inj hacc' ▸ hzs
  refine ⟨walk.redirect addr xs (hlists hxs), walk.redirect addr ys (hlists hys), fun heq => hne ?_⟩
  -- an address occurs once in the sorted list
  have hmem : addr ∈ sortAddrs walk.addrs :=
    mem_sortAddrs.mpr (walk.mem_addrs.mpr (Finmap.mem_of_lookup_eq_some hacc))
  obtain ⟨before, behind, hsplit⟩ := List.append_of_mem hmem
  have hnodup := walk.nodup_sortAddrs
  rw [hsplit] at hnodup
  obtain ⟨-, hnodup', hdisjoint⟩ := List.nodup_append'.mp hnodup
  -- the other addresses add the same bytes to both
  have hother : ∀ a, a ≠ addr →
      contribution gob accounts (Function.update walk.entries addr xs) a =
        contribution gob accounts (Function.update walk.entries addr ys) a := by
    intro a ha
    unfold contribution
    rw [Function.update_of_ne ha, Function.update_of_ne ha]
  have hbefore := List.flatMap_congr (l := before) fun a hmem => hother a fun h =>
    hdisjoint (h ▸ hmem) List.mem_cons_self
  have hbehind := List.flatMap_congr (l := behind) fun a hmem => hother a fun h =>
    (List.nodup_cons.mp hnodup').1 (h ▸ hmem)
  unfold combined Walk.redirect at heq
  rw [hsplit, List.flatMap_append, List.flatMap_append, List.flatMap_cons, List.flatMap_cons,
    hbefore, hbehind] at heq
  exact List.append_cancel_right (List.append_cancel_left heq)

/-- **Two storage keys are visible.** -/
theorem exists_combined_ne (hgob : OrderVisible gob (occurring accounts)) {addr : Address}
    {acc : Account} (hacc : accounts.lookup addr = some acc) (hencodable : Encodable gob acc)
    (hkeys : 1 < acc.storage.keys.card) :
    ∃ walk walk' : Walk accounts, combined gob walk ≠ combined gob walk' := by
  obtain ⟨walk⟩ := Walk.nonempty accounts
  obtain ⟨xs, data, hxs, hdata⟩ := hencodable
  obtain ⟨ys, hys, hne⟩ := hxs.exists_ne hkeys
  refine combined_redirect_ne walk hacc hxs hys ?_
  have hdata₁ : acc.encode gob (Function.update walk.entries addr xs addr) = .ok data := by
    rw [Function.update_self, hdata]
  rw [contribution_of_ok hacc hdata₁]
  cases hdata' : acc.encode gob ys with
  | ok data' =>
    -- both orders are encoded, and the encodings show them
    have hdata₂ : acc.encode gob (Function.update walk.entries addr ys addr) = .ok data' := by
      rw [Function.update_self, hdata']
    rw [contribution_of_ok hacc hdata₂]
    intro heq
    obtain rfl : data = data' := List.append_cancel_left heq
    exact hne (hgob acc ⟨addr, hacc⟩ xs ys data hxs hys hdata hdata').symm
  | error e =>
    -- in the other order the account is passed over, address and all
    have hdata₂ : acc.encode gob (Function.update walk.entries addr ys addr) = .error e := by
      rw [Function.update_self, hdata']
    rw [contribution_of_error hacc hdata₂]
    intro heq
    have hlen := addr.length_eq
    rw [(List.append_eq_nil_iff.mp heq).1] at hlen
    exact absurd hlen (by simp)

theorem storageKeys_of_lookup {ws : WorldState} {addr : Address} {acc : Account}
    (hacc : ws.accounts.lookup addr = some acc) : ws.storageKeys addr = acc.storage.keys := by
  unfold storageKeys account
  rw [hacc]
  rfl

/-- **When the state root is a function of the accounts.** A history leads from a genesis state to
`ws`; another state, whatever its history is, has the same accounts. All evaluations of `StateRoot`
on the two agree exactly when no account that can be encoded has had two storage keys written. -/
theorem stateRoot_eq_iff_of_run {allocs : List (Address × UInt64)}
    {es : List (Operation × Outcome Err Unit)} {ws ws' : WorldState}
    (hrun : History (Operated P) (createGenesisState allocs) es ws)
    (hsame : ws.accounts = ws'.accounts)
    (hgob : OrderVisible gob (occurring ws.accounts))
    (hsha : Set.InjOn P.sha256 (Set.range (combined gob : Walk ws.accounts → List UInt8))) :
    (∀ walk walk', ws.stateRoot P gob walk = ws'.stateRoot P gob walk') ↔
      ∀ addr acc, ws.accounts.lookup addr = some acc → Encodable gob acc →
        (writtenKeys es addr).card ≤ 1 := by
  have hkeys : ∀ addr acc, ws.accounts.lookup addr = some acc →
      writtenKeys es addr = acc.storage.keys := by
    intro addr acc hacc
    rw [← storageKeys_of_run hrun, storageKeys_of_lookup hacc]
  -- the code is not hashed, and the walks of the two states are walks over one map
  obtain ⟨accounts, code⟩ := ws
  obtain ⟨accounts', code'⟩ := ws'
  obtain rfl : accounts = accounts' := hsame
  constructor
  · intro hroot addr acc hacc hencodable
    rw [hkeys addr acc hacc]
    by_contra hmany
    obtain ⟨walk, walk', hne⟩ := exists_combined_ne hgob hacc hencodable (not_le.mp hmany)
    exact hne (hsha ⟨walk, rfl⟩ ⟨walk', rfl⟩ (hroot walk walk'))
  · intro hfew walk walk'
    refine congrArg P.sha256 (combined_congr fun addr hmem => ?_)
    obtain ⟨acc, hacc⟩ := Finmap.mem_iff.mp hmem
    refine contribution_congr walk walk' hacc fun hencodable => ?_
    rw [← hkeys addr acc hacc]
    exact hfew addr acc hacc hencodable

/-- A contract account with one storage entry, and with two. -/
def writeKey (n : UInt8) (ws : WorldState) : WorldState :=
  ws.setAccountState (sampleAddress 1) (sampleDigest [n]) [n]

def oneKey : WorldState := writeKey 1 new

def twoKeys : WorldState := writeKey 2 oneKey

/-- The only account of these states. -/
theorem lookup_oneKey {addr : Address} {acc : Account}
    (h : oneKey.accounts.lookup addr = some acc) :
    acc = { newAccount 0 with storage := (∅ : Finmap _).insert (sampleDigest [1]) [1] } := by
  unfold oneKey writeKey setAccountState at h
  rw [lookup_updateAccount] at h
  split at h
  · exact (Option.some.inj h).symm
  · exact absurd h (by simp [new])

/-- With one storage entry every evaluation gives the same root. -/
theorem stateRoot_eq_iff_of_run_oneKey :
    (oneKey.storageKeys (sampleAddress 1)).card = 1 ∧
      ∀ walk walk', oneKey.stateRoot .sample sampleEncoder walk =
        oneKey.stateRoot .sample sampleEncoder walk' := by
  have hrun : History (Operated .sample) (createGenesisState [])
      [(.setAccountState (sampleAddress 1) (sampleDigest [1]) [1], .ok ())] oneKey :=
    .call .start rfl
  have hcard : ∀ addr acc, oneKey.accounts.lookup addr = some acc → acc.storage.keys.card ≤ 1 := by
    intro addr acc hacc
    rw [lookup_oneKey hacc]
    decide +kernel
  -- there is one order, so there is one string to hash
  have hsub : (Set.range (combined sampleEncoder : Walk oneKey.accounts → _)).Subsingleton := by
    rintro _ ⟨walk, rfl⟩ _ ⟨walk', rfl⟩
    refine combined_congr fun addr hmem => ?_
    obtain ⟨acc, hacc⟩ := Finmap.mem_iff.mp hmem
    exact contribution_congr walk walk' hacc fun _ => hcard addr acc hacc
  have hgob : OrderVisible sampleEncoder (occurring oneKey.accounts) := by
    rintro acc ⟨addr, hacc⟩ entries entries' _ hlists hlists' - -
    exact hlists.unique (hcard addr acc hacc) hlists'
  refine ⟨by decide +kernel, (stateRoot_eq_iff_of_run hrun rfl hgob (hsub.injOn _)).mpr ?_⟩
  intro addr acc hacc _
  rw [← storageKeys_of_run hrun, storageKeys_of_lookup hacc]
  exact hcard addr acc hacc

theorem lists_twoKeys {entries : List (Σ _ : Hash, List UInt8)}
    (h : (entries : Multiset (Σ _ : Hash, List UInt8)) =
      (twoKeys.account (sampleAddress 1)).storage.entries) (addr : Address) (acc : Account)
    (hacc : twoKeys.accounts.lookup addr = some acc) : Lists entries acc.storage := by
  by_cases haddr : addr = sampleAddress 1
  · subst haddr
    unfold account at h
    rw [hacc] at h
    exact h
  · unfold twoKeys writeKey setAccountState at hacc
    rw [lookup_updateAccount, if_neg haddr] at hacc
    unfold oneKey writeKey setAccountState at hacc
    rw [lookup_updateAccount, if_neg haddr] at hacc
    exact absurd hacc (by simp [new])

theorem keys_twoKeys :
    (([sampleAddress 1] : List Address) : Multiset Address) = twoKeys.accounts.keys.val := rfl

/-- Two visits of the same storage. -/
def twoKeysWalk (entries : List (Σ _ : Hash, List UInt8))
    (h : (entries : Multiset (Σ _ : Hash, List UInt8)) =
      (twoKeys.account (sampleAddress 1)).storage.entries) : Walk twoKeys.accounts where
  addrs := [sampleAddress 1]
  addrs_eq := keys_twoKeys
  entries _ := entries
  lists := lists_twoKeys h

def forthWalk : Walk twoKeys.accounts :=
  twoKeysWalk [⟨sampleDigest [1], [1]⟩, ⟨sampleDigest [2], [2]⟩] (by decide +kernel)

def backWalk : Walk twoKeys.accounts :=
  twoKeysWalk [⟨sampleDigest [2], [2]⟩, ⟨sampleDigest [1], [1]⟩] (by decide +kernel)

/-- **One state, two roots.** Two calls of `SetAccountState` lead to the state, and two evaluations
of `StateRoot` on it return different hashes. -/
theorem stateRoot_forthWalk_ne_backWalk :
    History (Operated .sample) (createGenesisState [])
        [(.setAccountState (sampleAddress 1) (sampleDigest [1]) [1], .ok ()),
          (.setAccountState (sampleAddress 1) (sampleDigest [2]) [2], .ok ())] twoKeys ∧
      twoKeys.stateRoot .sample sampleEncoder forthWalk ≠
        twoKeys.stateRoot .sample sampleEncoder backWalk := by
  refine ⟨?_, by decide +kernel⟩
  have hfirst : History (Operated .sample) (createGenesisState [])
      [(.setAccountState (sampleAddress 1) (sampleDigest [1]) [1], .ok ())] oneKey :=
    .call .start rfl
  exact hfirst.call rfl

end WorldState

end Blockz
