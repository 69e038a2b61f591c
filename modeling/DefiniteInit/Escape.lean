import DefiniteInit.Class.Table
import DefiniteInit.Name.Basic
import DefiniteInit.Span

/-!
# Escapes

The receiver escapes when code other than the initializer may get hold of it. From then
on somebody may look at an attribute before the initializer assigns it.
-/

namespace DefiniteInit

/-- Why the receiver is no longer private to the initializer. -/
inductive EscapeReason where
  /-- It is used as a value. -/
  | selfValue
  /-- One of its methods is called. -/
  | selfMethodCall (method : Name)
  /-- An attribute is read that may not be assigned yet. -/
  | undefinedRead (attr : Name)
  /-- A property, a method or an unknown attribute is read. -/
  | computedRead (attr : Name)
  /-- A property is assigned or deleted. -/
  | propertyAccess (attr : Name)
  /-- A module-level variable is read. -/
  | mutableGlobal (id : Name)
  /-- A lambda, a generator or a nested function closes over it. -/
  | capturedSelf
  /-- It gets another name. -/
  | selfAliased
  /-- Its own name is assigned or deleted. -/
  | selfRebound
  /-- It is handed to a context manager. -/
  | contextManager
  /-- A base's initializer lets it escape. -/
  | compromisedBase (base : ClassId)
  /-- Nothing is known of the base whose initializer is called. -/
  | unanalyzedBase (base : ClassId)
  /-- The class whose initializer is called is no base. -/
  | invalidSuperTarget (name : Name)
  /-- A loop is left where there is none. -/
  | strayJump
  /-- A form the analysis has no node for. -/
  | unsupported
deriving DecidableEq

/-- Where and why the receiver escapes. -/
structure EscapeSite where
  reason : EscapeReason
  span : Span
deriving DecidableEq

end DefiniteInit
