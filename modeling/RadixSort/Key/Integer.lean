import RadixSort.Key.Format

/-!
# Integer keys

The primitive integers have a width of 1, 2, 4, 8 or 16 bytes and are unsigned
or in two's complement. An unsigned integer is its own key. A signed one is
keyed with its sign bit flipped, which moves the negative numbers below the
others and keeps the order within each half.
-/
namespace RadixSort

/-- The widths of the primitive integers. -/
inductive IntWidth where
  | bits8
  | bits16
  | bits32
  | bits64
  | bits128
  deriving DecidableEq, Repr

/-- The width in bytes. -/
def IntWidth.bytes : IntWidth → Nat
  | .bits8 => 1
  | .bits16 => 2
  | .bits32 => 4
  | .bits64 => 8
  | .bits128 => 16

/-- A primitive integer type. -/
structure IntType where
  width : IntWidth
  signed : Bool
  deriving DecidableEq, Repr

namespace IntType

/-- A value of the type, as the machine stores it. -/
abbrev Value (type : IntType) : Type := BitVec (8 * type.width.bytes)

/-- The number that a stored value stands for. -/
def toInt (type : IntType) (value : type.Value) : Int :=
  if type.signed then BitVec.toInt value else (value.toNat : Int)

/-- The stored value of a number, reduced to the width of the type. -/
def ofInt (type : IntType) (number : Int) : type.Value := BitVec.ofInt _ number

/-- The key of an integer. -/
def format (type : IntType) : KeyFormat type.Value where
  bytes := type.width.bytes
  bits value :=
    if type.signed then (value ^^^ BitVec.intMin _).setWidth 128 else value.setWidth 128

end IntType

end RadixSort
