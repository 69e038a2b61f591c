import DefiniteInit.AttrSet
import DefiniteInit.Escape

/-!
# Facts about a class

What the analysis has to say about one class, and where it got it from.
-/

namespace DefiniteInit

/-- Why a class is given the weakest facts without being looked at. -/
inductive SeedReason where
  /-- It, or an ancestor, has a base from outside the unit. -/
  | foreignAncestry
  /-- Classes outside the unit may derive from it. -/
  | optedOut
deriving DecidableEq

/-- Where the facts of a class come from. -/
inductive Origin where
  /-- Its own initializer. -/
  | analyzed
  /-- It has no initializer, and that of this base runs. -/
  | inherited (base : ClassId)
  /-- It has no initializer and no base with one. -/
  | defaultsOnly
  /-- It is a trait, whose fields are up to the classes that use it. -/
  | trait
  /-- It was not looked at. -/
  | seeded (reason : SeedReason)
deriving DecidableEq

/-- What is known of a class. -/
structure Facts where
  /-- Attributes every instance has once it is initialised. -/
  alwaysDefined : AttrSet
  /-- Whether the receiver may escape while it is being initialised. -/
  compromised : Bool
  origin : Origin
  /-- The first place where it may. -/
  firstEscape : Option EscapeSite
deriving DecidableEq

namespace Facts

/-- The weakest facts. -/
def seeded (reason : SeedReason) : Facts := ⟨∅, true, .seeded reason, none⟩

/-- The facts of a trait. -/
def ofTrait : Facts := ⟨∅, false, .trait, none⟩

/-- Whether the class was not looked at. -/
def isSeeded (f : Facts) : Bool :=
  match f.origin with
  | .seeded _ => true
  | _ => false

end Facts

end DefiniteInit
