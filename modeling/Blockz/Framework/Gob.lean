import Mathlib.Data.List.Infix
import Mathlib.Tactic.Common

/-!
# Encoders and decoders of self-describing streams

The parts of `encoding/gob` that a program can observe without looking at bytes.

A process gives numbers to the types it encodes, in increasing order and when a type is first met.
`register` is what one encoding does to the list of known types, and `idOf` the number of a type.
Numbers are never changed: the list only grows at its end (`register_extends`), so a type keeps its
number (`idOf_extended`).

An encoder writes the descriptors of the types before the value; each fresh encoder starts again
from nothing. A decoder keeps the numbers it has been told about. It refuses a descriptor for a
number it knows, and a value whose number it does not know (`Decoder.receive`).
-/

namespace Gob

/-! ### Type numbers -/

section Ids

variable {τ : Type} [DecidableEq τ]

/-- The types of `ts` that have no number yet get the next ones. -/
def register (reg ts : List τ) : List τ :=
  ts.foldl (fun reg t => if t ∈ reg then reg else reg ++ [t]) reg

/-- The number of a type, counted from `first`. -/
def idOf (first : ℕ) (reg : List τ) (t : τ) : ℕ := first + reg.idxOf t

theorem register_cons (reg : List τ) (t : τ) (ts : List τ) :
    register reg (t :: ts) = register (if t ∈ reg then reg else reg ++ [t]) ts := rfl

/-- What has a number keeps it. -/
theorem register_extends (reg ts : List τ) : reg <+: register reg ts := by
  induction ts generalizing reg with
  | nil => exact List.prefix_rfl
  | cons t ts ih =>
    rw [register_cons]
    refine List.IsPrefix.trans ?_ (ih _)
    split
    · exact List.prefix_rfl
    · exact List.prefix_append reg [t]

theorem mem_register {reg ts : List τ} {t : τ} (ht : t ∈ ts) : t ∈ register reg ts := by
  induction ts generalizing reg with
  | nil => exact absurd ht List.not_mem_nil
  | cons u ts ih =>
    rw [register_cons]
    rcases List.mem_cons.mp ht with rfl | htail
    · -- the type itself has a number now, and no later registration takes it away
      refine (register_extends _ ts).subset ?_
      split
      · next hknown => exact hknown
      · exact List.mem_append_right _ (List.mem_singleton_self t)
    · exact ih htail

/-- Registering what is registered does nothing. -/
theorem register_of_subset {reg ts : List τ} (h : ∀ t ∈ ts, t ∈ reg) : register reg ts = reg := by
  induction ts with
  | nil => rfl
  | cons t ts ih =>
    rw [register_cons, if_pos (h t List.mem_cons_self)]
    exact ih fun u hu => h u (List.mem_cons_of_mem t hu)

theorem idOf_extended {first : ℕ} {reg reg' : List τ} {t : τ} (ht : t ∈ reg) (h : reg <+: reg') :
    idOf first reg' t = idOf first reg t := by
  obtain ⟨rest, rfl⟩ := h
  unfold idOf
  rw [List.idxOf_append_of_mem ht]

end Ids

/-! ### Streams -/

/-- What an encoder writes: descriptors of types, and values with the number of their type. -/
inductive Frame (ν : Type)
  | typeDef (id : ℕ)
  | value (id : ℕ) (v : ν)
  deriving DecidableEq, Repr

/-- What a decoder makes of a frame. -/
inductive Received (ν : Type)
  -- a descriptor: the decoder reads on
  | more (known : List ℕ)
  | value (v : ν)
  | failed

section Streams

variable {ν : Type}

/-- A fresh encoder, for a value of a type that has no component types of its own. -/
def encode (id : ℕ) (v : ν) : List (Frame ν) := [.typeDef id, .value id v]

/-- The decoder that knows the numbers `known`. -/
def receive (known : List ℕ) : Frame ν → Received ν
  | .typeDef id => if id ∈ known then .failed else .more (id :: known)
  | .value id v => if id ∈ known then .value v else .failed

/-- A decoder reads until it has a value. `none` when it fails, or when the stream ends first. -/
def decode (known : List ℕ) : List (Frame ν) → Option ν
  | [] => none
  | frame :: rest =>
    match receive known frame with
    | .more known' => decode known' rest
    | .value v => some v
    | .failed => none

/-- A fresh decoder reads back what a fresh encoder has written. -/
theorem decode_encode (id : ℕ) (v : ν) : decode [] (encode id v) = some v := by
  simp [decode, encode, receive]

end Streams

end Gob
