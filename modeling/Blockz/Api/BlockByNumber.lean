import Blockz.Api.RPC

/-!
# Asking for a block by its number

`handleGetBlockByNumber` takes `latest`, or a text that it scans with the format `0x%x` into a
`uint64`. Whether the scan succeeded is not looked at: then the variable is still zero. What follows
the digits is not looked at either. The number is cut to 32 bits before `GetHeader` compares it with
the height.

* `Answered` — the header that was asked for, or an error if there is none.
* `blockByNumber_iff` — on every chain that a process can hold, which texts are answered like that.
  A numeral above the height is refused only if its last 32 bits are above the height too, and a
  text that does not begin with `0x` is never refused.
-/

namespace Blockz

open Effect

/-! ### Numerals -/

/-- The value of a hexadecimal digit, in either case. -/
def hexValue (d : UInt8) : Option ℕ :=
  if 48 ≤ d.toNat ∧ d.toNat ≤ 57 then some (d.toNat - 48)
  else if 97 ≤ d.toNat ∧ d.toNat ≤ 102 then some (d.toNat - 87)
  else if 65 ≤ d.toNat ∧ d.toNat ≤ 70 then some (d.toNat - 55)
  else none

/-- The number that digits continue from `n`. -/
def hexNumber : ℕ → List UInt8 → Option ℕ
  | n, [] => some n
  | n, d :: ds => (hexValue d).bind fun v => hexNumber (16 * n + v) ds

theorem isSome_hexValue_of_hexNumber {ds : List UInt8} {m n : ℕ} (hds : hexNumber m ds = some n) :
    ∀ d ∈ ds, (hexValue d).isSome = true := by
  induction ds generalizing m with
  | nil => exact fun d hd => absurd hd List.not_mem_nil
  | cons d ds ih =>
    obtain ⟨v, hv, hds⟩ := Option.bind_eq_some_iff.mp hds
    refine List.forall_mem_cons.mpr ⟨?_, ih hds⟩
    rw [hv]
    rfl

/-- `0x` and the hexadecimal digits of `n`. -/
def Numeral (s : List UInt8) (n : ℕ) : Prop :=
  ∃ ds, s = ascii "0x" ++ ds ∧ ds ≠ [] ∧ hexNumber 0 ds = some n

theorem Numeral.prefixed {s : List UInt8} {n : ℕ} (hs : Numeral s n) : ascii "0x" <+: s := by
  obtain ⟨ds, rfl, -, -⟩ := hs
  exact List.prefix_append _ ds

theorem Numeral.unique {s : List UInt8} {m n : ℕ} (hm : Numeral s m) (hn : Numeral s n) :
    m = n := by
  obtain ⟨ds, rfl, -, hds⟩ := hm
  obtain ⟨ds', hsame, -, hds'⟩ := hn
  rw [List.append_cancel_left hsame, hds'] at hds
  exact (Option.some.inj hds).symm

theorem not_prefixed_latest : ¬ ascii "0x" <+: ascii "latest" := by decide

theorem Numeral.ne_latest {s : List UInt8} {n : ℕ} (hs : Numeral s n) : s ≠ ascii "latest" := by
  rintro rfl
  exact not_prefixed_latest hs.prefixed

/-- `fmt.Sscanf` with the format `0x%x` and a `uint64`: numerals that fit are stored, others are out
of range, and a text that does not begin with `0x` does not match the format. -/
structure RPCLibrary.ScansHex (L : RPCLibrary) : Prop where
  stored : ∀ s n, Numeral s n → n < 2 ^ 64 → L.sscanf s = some (UInt64.ofNat n)
  outOfRange : ∀ s n, Numeral s n → 2 ^ 64 ≤ n → L.sscanf s = none
  mismatch : ∀ s, ¬ ascii "0x" <+: s → L.sscanf s = none

/-! ### `GetHeader` -/

namespace Blockchain

variable {E S : Type} {P : Primitives} [ConsensusEngine P E] [Storage P S] [LawfulStorage P S]
  {bc : Blockchain E S}

theorem Reached.toNat_height (hbc : Reached P bc) : bc.height.toNat = bc.headers.length - 1 :=
  toNat_heightLocked hbc.grounded.tip.pos hbc.grounded.tip.fits

/-- Up to the height, the header of that height. -/
theorem Reached.getHeader_of_le (hbc : Reached P bc) {k : UInt32}
    (hk : k.toNat ≤ bc.height.toNat) :
    ∃ h, bc.headers[k.toNat]? = some h ∧ h.height = k ∧ bc.getHeader k = .ok h := by
  have hlt : k.toNat < bc.headers.length := by
    have hpos := hbc.grounded.tip.pos
    rw [hbc.toNat_height] at hk
    omega
  have hget : bc.headers[k.toNat]? = some bc.headers[k.toNat] := List.getElem?_eq_getElem hlt
  refine ⟨_, hget, UInt32.toNat_inj.mp (hbc.heightsInOrder _ _ hget), ?_⟩
  unfold getHeader
  rw [if_neg (by rw [UInt32.lt_iff_toNat_lt]; omega), hget]

theorem getHeader_of_lt {k : UInt32} (hk : bc.height.toNat < k.toNat) :
    bc.getHeader k = .err (.headerTooHigh k) :=
  if_pos (UInt32.lt_iff_toNat_lt.mpr hk)

/-- Above it, an error. -/
theorem Reached.getHeader_eq_err_iff (hbc : Reached P bc) {k : UInt32} :
    (∃ e, bc.getHeader k = .err e) ↔ bc.height.toNat < k.toNat := by
  refine ⟨fun ⟨e, herr⟩ => ?_, fun hlt => ⟨_, getHeader_of_lt hlt⟩⟩
  by_contra hle
  obtain ⟨h, -, -, hok⟩ := hbc.getHeader_of_le (not_lt.mp hle)
  exact nomatch hok.symm.trans herr

end Blockchain

/-! ### The answer -/

section Answer

variable {E S : Type}

/-- The header that `numStr` asks for, or an error if it asks for none. -/
structure Answered (bc : Blockchain E S) (numStr : List UInt8) (answer : Outcome Err Header) :
    Prop where
  latest : numStr = ascii "latest" → ∃ h, bc.headers.getLast? = some h ∧ answer = .ok h
  numbered : ∀ n, Numeral numStr n → n ≤ bc.height.toNat →
    ∃ h, bc.headers[n]? = some h ∧ h.height.toNat = n ∧ answer = .ok h
  refused : numStr ≠ ascii "latest" → (∀ n, Numeral numStr n → bc.height.toNat < n) →
    ∃ e, answer = .err e

variable {P : Primitives} [ConsensusEngine P E] [Storage P S] [LawfulStorage P S]
  {bc : Blockchain E S} {L : RPCLibrary} {numStr : List UInt8}

theorem answered_latest (hbc : bc.Reached P) :
    Answered bc (ascii "latest") (bc.getHeader (scannedHeight L bc (ascii "latest")).toUInt32) := by
  have hscan : (scannedHeight L bc (ascii "latest")).toUInt32 = bc.height := by
    unfold scannedHeight
    rw [if_pos rfl, UInt32.toUInt32_toUInt64]
  obtain ⟨h, hget, -, hok⟩ := hbc.getHeader_of_le (le_refl bc.height.toNat)
  rw [hscan]
  refine ⟨fun _ => ⟨h, ?_, hok⟩, fun n hn => absurd rfl hn.ne_latest, fun hne => absurd rfl hne⟩
  rw [List.getLast?_eq_getElem?, ← hbc.toNat_height, hget]

theorem answered_numeral (hbc : bc.Reached P) (hscan : L.ScansHex) {n : ℕ} (hn : Numeral numStr n)
    (hle : n ≤ bc.height.toNat) :
    Answered bc numStr (bc.getHeader (scannedHeight L bc numStr).toUInt32) := by
  have hfits : n < 2 ^ 32 := lt_of_le_of_lt hle bc.height.toNat_lt
  have hscanned : (scannedHeight L bc numStr).toUInt32.toNat = n := by
    unfold scannedHeight
    rw [if_neg hn.ne_latest, hscan.stored _ _ hn (by omega), Option.getD_some,
      UInt64.toNat_toUInt32, UInt64.toNat_ofNat']
    omega
  obtain ⟨h, hget, hheight, hok⟩ := hbc.getHeader_of_le (hscanned.trans_le hle)
  refine ⟨fun heq => absurd heq hn.ne_latest, fun m hm _ => ?_, fun _ hall => ?_⟩
  · rw [hm.unique hn]
    exact ⟨h, by rwa [hscanned] at hget, by rw [hheight, hscanned], hok⟩
  · exact absurd (hall n hn) (not_lt.mpr hle)

/-- Whatever else is asked for, only an error will do. -/
theorem answered_other_iff (hbc : bc.Reached P) (hne : numStr ≠ ascii "latest")
    (hother : ¬ ∃ n ≤ bc.height.toNat, Numeral numStr n) :
    Answered bc numStr (bc.getHeader (scannedHeight L bc numStr).toUInt32) ↔
      bc.height.toNat < ((L.sscanf numStr).getD 0).toNat % 2 ^ 32 := by
  have hscanned : (scannedHeight L bc numStr).toUInt32.toNat =
      ((L.sscanf numStr).getD 0).toNat % 2 ^ 32 := by
    unfold scannedHeight
    rw [if_neg hne, UInt64.toNat_toUInt32]
  have hall : ∀ n, Numeral numStr n → bc.height.toNat < n := fun n hn =>
    not_le.mp fun hle => hother ⟨n, hle, hn⟩
  rw [← hscanned, ← hbc.getHeader_eq_err_iff]
  refine ⟨fun hans => hans.refused hne hall, fun herr => ⟨fun heq => absurd heq hne, ?_, ?_⟩⟩
  · exact fun n hn hle => absurd hle (not_le.mpr (hall n hn))
  · exact fun _ _ => herr

theorem answered_iff (hbc : bc.Reached P) (hscan : L.ScansHex) :
    Answered bc numStr (bc.getHeader (scannedHeight L bc numStr).toUInt32) ↔
      numStr = ascii "latest" ∨ (∃ n ≤ bc.height.toNat, Numeral numStr n) ∨
        bc.height.toNat < ((L.sscanf numStr).getD 0).toNat % 2 ^ 32 := by
  by_cases hlatest : numStr = ascii "latest"
  · subst hlatest
    exact iff_of_true (answered_latest hbc) (Or.inl rfl)
  by_cases hnumeral : ∃ n ≤ bc.height.toNat, Numeral numStr n
  · obtain ⟨n, hle, hn⟩ := hnumeral
    exact iff_of_true (answered_numeral hbc hscan hn hle) (Or.inr (Or.inl ⟨n, hle, hn⟩))
  rw [answered_other_iff hbc hlatest hnumeral, or_iff_right hlatest, or_iff_right hnumeral]

/-- On every chain that a process can hold, a text is answered by the header it asks for, or by an
error, exactly if it is `latest`, a numeral up to the height, or if the last 32 bits of what the
scan stores are above the height. A numeral above the height is refused exactly if it fits 64 bits
and its last 32 bits are above the height; a text that is not `latest` and does not begin with `0x`
is answered by the first header. -/
theorem blockByNumber_iff (hbc : bc.Reached P) (hscan : L.ScansHex) {params : List (List UInt8)}
    (hparam : stringParam L "block number" params = .ok numStr) :
    (Answered bc numStr (handleGetBlockByNumber L bc params) ↔
      numStr = ascii "latest" ∨ (∃ n ≤ bc.height.toNat, Numeral numStr n) ∨
        bc.height.toNat < ((L.sscanf numStr).getD 0).toNat % 2 ^ 32) ∧
    (∀ n, Numeral numStr n →
      (Answered bc numStr (handleGetBlockByNumber L bc params) ↔
        n ≤ bc.height.toNat ∨ n < 2 ^ 64 ∧ bc.height.toNat < n % 2 ^ 32)) ∧
    (numStr ≠ ascii "latest" → ¬ ascii "0x" <+: numStr →
      ¬ Answered bc numStr (handleGetBlockByNumber L bc params)) := by
  have hanswer : handleGetBlockByNumber L bc params =
      bc.getHeader (scannedHeight L bc numStr).toUInt32 := by
    unfold handleGetBlockByNumber
    rw [hparam, Outcome.bind_ok]
  rw [hanswer]
  refine ⟨answered_iff hbc hscan, fun n hn => ?_, fun hne hnot => ?_⟩
  · have hnumeral : (∃ m ≤ bc.height.toNat, Numeral numStr m) ↔ n ≤ bc.height.toNat :=
      ⟨fun ⟨m, hle, hm⟩ => hn.unique hm ▸ hle, fun hle => ⟨n, hle, hn⟩⟩
    rw [answered_iff hbc hscan, or_iff_right hn.ne_latest, hnumeral]
    refine or_congr_right ?_
    by_cases hfits : n < 2 ^ 64
    · rw [hscan.stored _ _ hn hfits, Option.getD_some, UInt64.toNat_ofNat',
        Nat.mod_eq_of_lt hfits, and_iff_right hfits]
    · rw [hscan.outOfRange _ _ hn (not_lt.mp hfits), Option.getD_none]
      exact iff_of_false (Nat.not_lt_zero _) fun h => hfits h.1
  · have hnumeral : ¬ ∃ m ≤ bc.height.toNat, Numeral numStr m :=
      fun ⟨m, _, hm⟩ => hnot hm.prefixed
    rw [answered_other_iff hbc hne hnumeral, hscan.mismatch _ hnot]
    exact Nat.not_lt_zero _

end Answer

/-! ### A scanner -/

/-- The digits behind `0x`, up to the first byte that is none. -/
def scanHex (s : List UInt8) : Option UInt64 :=
  if ascii "0x" <+: s ∧ (s.drop 2).takeWhile (fun d => (hexValue d).isSome) ≠ [] then
    (hexNumber 0 ((s.drop 2).takeWhile fun d => (hexValue d).isSome)).bind fun n =>
      if n < 2 ^ 64 then some (UInt64.ofNat n) else none
  else none

theorem scanHex_of_numeral {s : List UInt8} {n : ℕ} (hs : Numeral s n) :
    scanHex s = if n < 2 ^ 64 then some (UInt64.ofNat n) else none := by
  obtain ⟨ds, rfl, hne, hds⟩ := hs
  have hdrop : (ascii "0x" ++ ds).drop 2 = ds := rfl
  have hall : ds.takeWhile (fun d => (hexValue d).isSome) = ds :=
    List.takeWhile_eq_self_iff.mpr (isSome_hexValue_of_hexNumber hds)
  unfold scanHex
  rw [hdrop, hall, if_pos ⟨List.prefix_append _ _, hne⟩, hds, Option.bind_some]

/-- Bytes from pairs of digits. -/
def hexBytes : List UInt8 → Outcome Err (List UInt8)
  | [] => .ok []
  | [_] => .err (.library "encoding/hex: odd length hex string")
  | a :: b :: rest =>
    match hexValue a, hexValue b with
    | some x, some y => do
      let bytes ← hexBytes rest
      pure (UInt8.ofNat (16 * x + y) :: bytes)
    | _, _ => .err (.library "encoding/hex: invalid byte")

/-- Strings in quotes without escapes, hexadecimal numbers and bytes, and one transaction. -/
def RPCLibrary.sample : RPCLibrary where
  decodeRequest _ := none
  unmarshal param :=
    if param.head? = some 34 ∧ param.getLast? = some 34 then .ok param.tail.dropLast
    else .err (.library "json: cannot unmarshal")
  decodeString := hexBytes
  sscanf := scanHex
  decodeTransaction raw :=
    if raw = sampleTransactionFields (sampleTransfer 0 0) then .ok (sampleTransfer 0 0)
    else .err (.library "EOF")

theorem RPCLibrary.scansHex_sample : RPCLibrary.sample.ScansHex where
  stored s n hs hfits := by
    show scanHex s = _
    rw [scanHex_of_numeral hs, if_pos hfits]
  outOfRange s n hs hbig := by
    show scanHex s = _
    rw [scanHex_of_numeral hs, if_neg (not_lt.mpr hbig)]
  mismatch s hnot := if_neg fun h => hnot h.1

/-- On a chain of one block, `0x0` is answered and `0x100000000` is not. -/
theorem blockByNumber_iff_numerals :
    Answered Blockchain.sampleChain (ascii "0x0")
      (handleGetBlockByNumber .sample Blockchain.sampleChain [ascii "\"0x0\""]) ∧
    ¬ Answered Blockchain.sampleChain (ascii "0x100000000")
      (handleGetBlockByNumber .sample Blockchain.sampleChain [ascii "\"0x100000000\""]) := by
  have hzero : Numeral (ascii "0x0") 0 := ⟨ascii "0", rfl, by decide, by decide⟩
  have hbig : Numeral (ascii "0x100000000") (2 ^ 32) :=
    ⟨ascii "100000000", rfl, by decide, by decide⟩
  refine ⟨((blockByNumber_iff Blockchain.reached_sampleChain RPCLibrary.scansHex_sample
    (by decide)).2.1 _ hzero).mpr (Or.inl (Nat.zero_le _)), ?_⟩
  rw [(blockByNumber_iff Blockchain.reached_sampleChain RPCLibrary.scansHex_sample
    (by decide)).2.1 _ hbig]
  decide

/-- On a chain of one block the first header is the answer to a number that it does not have, to a
number without `0x`, and to one with other letters behind its digits. -/
theorem genesis_for_every_number :
    Blockchain.sampleChain.Reached .sample ∧ Blockchain.sampleChain.height = 0 ∧
    Numeral (ascii "0x100000000") (2 ^ 32) ∧
    ∀ s ∈ ["\"0x100000000\"", "\"5\"", "\"0x0zz\""],
      handleGetBlockByNumber .sample Blockchain.sampleChain [ascii s] = .ok sampleGenesis := by
  refine ⟨Blockchain.reached_sampleChain, rfl, ⟨ascii "100000000", rfl, by decide, by decide⟩, ?_⟩
  decide

end Blockz
