/-!
# Names

A name of the analysed program (an attribute, a class, a variable) is held as its
position in a table of texts, `NameTable`, so comparing two names compares two numbers.
Four names are known beforehand and stand at fixed positions.
-/

namespace DefiniteInit

/-- A name, as its position in the table that holds its text. -/
structure Name where
  /-- Position of the text. It is less than `UInt32.size` in a table of no more texts. -/
  index : Nat
deriving DecidableEq, Repr

namespace Name

/-- The receiver of an initializer. -/
def self : Name := ⟨0⟩

/-- The initializer. -/
def init : Name := ⟨1⟩

/-- The root class, which no class needs to name as a base. -/
def object : Name := ⟨2⟩

/-- The call that reaches the next initializer in line. -/
def super : Name := ⟨3⟩

/-- Texts of the names known beforehand, in the order of their positions. -/
def wellKnown : List String := ["self", "__init__", "object", "super"]

end Name

end DefiniteInit
