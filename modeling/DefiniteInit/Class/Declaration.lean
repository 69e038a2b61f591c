import DefiniteInit.Stmt.Basic

/-!
# Class declarations

What a compile unit says about one class: its bases by name, its attributes and
properties, its initializer. A declaration is made by starting from `Declaration.named`
and adding to it.
-/

namespace DefiniteInit

/-- How the values of an attribute are held once they are unboxed. -/
inductive ValueRepr where
  /-- Some bit pattern is no value, and can mean "not set". -/
  | reference
  /-- Every bit pattern is a value. -/
  | overlapping
deriving DecidableEq

/-- An instance attribute of a class. -/
structure Attribute where
  name : Name
  /-- The class body gives it a value. -/
  hasDefault : Bool
  /-- It may be deleted, so nothing is claimed about it. -/
  deletable : Bool
  /-- It is annotated without a value. -/
  declaredOnly : Bool
  repr : ValueRepr
deriving DecidableEq

namespace Attribute

/-- An attribute without a default. -/
def plain (name : Name) : Attribute := ⟨name, false, false, false, .reference⟩

/-- Gives the attribute a value in the class body. -/
def withDefault (a : Attribute) : Attribute := { a with hasDefault := true }

/-- Lets the attribute be deleted. -/
def asDeletable (a : Attribute) : Attribute := { a with deletable := true }

/-- Leaves the attribute annotated only. -/
def asDeclaredOnly (a : Attribute) : Attribute := { a with declaredOnly := true }

/-- Sets how values are held. -/
def withRepr (a : Attribute) (repr : ValueRepr) : Attribute := { a with repr := repr }

/-- Whether an instance has the attribute before its initializer runs. -/
def isDefaulted (a : Attribute) : Bool := a.hasDefault && !a.declaredOnly

end Attribute

/-- A base as a declaration names it. -/
structure NamedBase where
  name : Name
  /-- Known to be defined outside the unit, whatever the unit declares. -/
  foreign : Bool
deriving DecidableEq

/-- One class of a compile unit, as it was declared. -/
structure Declaration where
  name : Name
  bases : List NamedBase
  attributes : List Attribute
  /-- Names bound to properties or other computed attributes. -/
  properties : List Name
  initializer : Option Initializer
  isTrait : Bool
  /-- Classes outside the unit may derive from it. -/
  openToForeign : Bool
  span : Span

namespace Declaration

/-- A class with nothing in it. -/
def named (name : Name) : Declaration := ⟨name, [], [], [], none, false, false, .empty⟩

/-- Adds a base by name. -/
def addBase (d : Declaration) (base : Name) : Declaration :=
  { d with bases := d.bases ++ [⟨base, false⟩] }

/-- Adds a base from outside the unit. -/
def addForeignBase (d : Declaration) (base : Name) : Declaration :=
  { d with bases := d.bases ++ [⟨base, true⟩] }

/-- Puts an attribute in the place of the one of that name, or at the end. -/
def declare (attributes : List Attribute) (a : Attribute) : List Attribute :=
  match attributes with
  | [] => [a]
  | b :: rest => if b.name = a.name then a :: rest else b :: declare rest a

/-- Declares an attribute; a later declaration replaces an earlier one in its place. -/
def addAttribute (d : Declaration) (a : Attribute) : Declaration :=
  { d with attributes := declare d.attributes a }

/-- Declares a property. -/
def addProperty (d : Declaration) (property : Name) : Declaration :=
  if property ∈ d.properties then d else { d with properties := d.properties ++ [property] }

/-- Gives the class an initializer, in the place of an earlier one. -/
def withInitializer (d : Declaration) (initializer : Initializer) : Declaration :=
  { d with initializer := some initializer }

/-- Makes the class a trait. -/
def asTrait (d : Declaration) : Declaration := { d with isTrait := true }

/-- Lets classes outside the unit derive from the class. -/
def asOpenToForeign (d : Declaration) : Declaration := { d with openToForeign := true }

/-- Sets the text the class was read from. -/
def withSpan (d : Declaration) (span : Span) : Declaration := { d with span := span }

end Declaration

end DefiniteInit
