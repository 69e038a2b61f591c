/-!
# Documents

The values a configuration is written in: what a JSON text can hold. A number written as
a whole one is told apart from any other, whatever its value, since only the former can
be a count.
-/

namespace DefiniteInit

/-- A JSON value. -/
inductive Document where
  | null
  | flag (value : Bool)
  /-- A number without a point or an exponent. -/
  | whole (value : Int)
  /-- Any other number, as it is written. -/
  | fraction (written : String)
  | text (value : String)
  | list (items : List Document)
  /-- Named values, in the order in which they are written. -/
  | record (fields : List (String × Document))
deriving Inhabited

namespace Document

/-- The value of that name; one that is not there is `null`. -/
def field (d : Document) (name : String) : Document :=
  match d with
  | .record fields => (fields.lookup name).getD .null
  | _ => .null

/-- Whether there is no value. -/
def isNull : Document → Bool
  | .null => true
  | _ => false

/-- The document as a truth value. -/
def flag? : Document → Option Bool
  | .flag value => some value
  | _ => none

/-- The document as text. -/
def text? : Document → Option String
  | .text value => some value
  | _ => none

/-- The document as a whole number that is not negative. -/
def count? : Document → Option Nat
  | .whole value => if 0 ≤ value then some value.toNat else none
  | _ => none

end Document

end DefiniteInit
