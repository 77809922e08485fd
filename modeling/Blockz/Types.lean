import Blockz.Framework.Bytes

/-!
# Hashes, addresses and texts

`types.Hash` and `types.Address` are byte arrays of fixed length. The length is a field of the
structure, so a value of the wrong length cannot be built; the panics of `HashFromBytes` and
`AddressFromBytes` on such a value become the proof argument of the constructor.
-/

namespace Blockz

/-- `[]byte(text)`, for an ASCII text. -/
def ascii (text : String) : List UInt8 := text.toList.map fun c => UInt8.ofNat c.toNat

/-- `types.Hash`: 32 bytes. -/
structure Hash where
  bytes : List UInt8
  length_eq : bytes.length = 32
  deriving DecidableEq, Repr

namespace Hash

/-- The zero value of the array type. -/
def zero : Hash := ⟨List.replicate 32 0, List.length_replicate⟩

/-- `Hash.IsZero`. -/
def isZero (h : Hash) : Bool := h.bytes.all (· == 0)

/-- `Hash.String`. -/
def toHex (h : Hash) : String := Bytes.toHex h.bytes

/-- `new(big.Int).SetBytes(hash[:])`: the hash as a 256-bit big-endian number. -/
def toNat (h : Hash) : ℕ := Bytes.toNat h.bytes

end Hash

/-- `types.Address`: 20 bytes. -/
structure Address where
  bytes : List UInt8
  length_eq : bytes.length = 20
  deriving DecidableEq, Repr

namespace Address

/-- The zero value of the array type. -/
def zero : Address := ⟨List.replicate 20 0, List.length_replicate⟩

/-- `Address.String`. -/
def toHex (a : Address) : String := Bytes.toHex a.bytes

end Address

end Blockz
