/-!
# Literals

Constants of the analysed program. A floating-point constant is kept as the 64 bits of
its binary encoding, so that no payload of a NaN and no sign of a zero is lost; `==` on
it is numeric comparison, under which a NaN differs from itself and the two zeros agree.
-/

namespace DefiniteInit

/-- A double-precision number, by its encoding. -/
structure Binary64 where
  /-- Sign, exponent and fraction, from the high bit down. -/
  bits : UInt64

namespace Binary64

/-- The bits of the encoding below the sign. -/
def magnitude (x : Binary64) : UInt64 := x.bits &&& 0x7fffffffffffffff

/-- A NaN has all exponent bits set and a fraction other than zero. -/
def isNaN (x : Binary64) : Bool := x.magnitude > 0x7ff0000000000000

/-- Either zero. -/
def isZero (x : Binary64) : Bool := x.magnitude == 0

/-- Numeric equality. -/
def equals (x y : Binary64) : Bool :=
  !x.isNaN && !y.isNaN && (x.bits == y.bits || (x.isZero && y.isZero))

instance : BEq Binary64 := ⟨equals⟩

end Binary64

/-- The value of a constant expression. -/
inductive Literal where
  | none
  | bool (value : Bool)
  | int (value : Int)
  | float (value : Binary64)
  | str (value : String)
  | bytes (value : List UInt8)
  | ellipsis

namespace Literal

/-- Equality of constants, numeric on floating-point ones. -/
def equals : Literal → Literal → Bool
  | .none, .none => true
  | .bool a, .bool b => a == b
  | .int a, .int b => a == b
  | .float a, .float b => a == b
  | .str a, .str b => a == b
  | .bytes a, .bytes b => a == b
  | .ellipsis, .ellipsis => true
  | _, _ => false

instance : BEq Literal := ⟨equals⟩

/-- Whether the constant is sure to count as true. Only `true` and the integers other
than zero are; for other constants nothing is claimed. -/
def alwaysTrue : Literal → Bool
  | .bool b => b
  | .int n => n != 0
  | _ => false

end Literal

end DefiniteInit
