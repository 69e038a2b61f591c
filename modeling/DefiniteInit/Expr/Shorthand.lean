import DefiniteInit.Expr.Basic

/-!
# Expressions made by hand

Shorter ways to write the common nodes of a tree that was not read from text: every
span is empty.
-/

namespace DefiniteInit

namespace Expr

/-- A constant. -/
def literal (value : Literal) : Expr := .constant value .empty

/-- The receiver. -/
def receiver : Expr := .self .empty

/-- A variable of the given kind. -/
def var (kind : NameKind) (id : Name) : Expr := .name id kind .empty

/-- An attribute of an object. -/
def attrOf (value : Expr) (attr : Name) (kind : AttrKind) : Expr :=
  .attribute value attr kind .empty

/-- A data attribute of the receiver. -/
def selfAttr (attr : Name) : Expr := receiver.attrOf attr .data

/-- A property of the receiver. -/
def selfProperty (attr : Name) : Expr := receiver.attrOf attr .property

/-- An element of a container. -/
def item (value index : Expr) : Expr := .subscript value index .empty

/-- A binary operation. -/
def infixOp (left : Expr) (op : BinaryOp) (right : Expr) : Expr := .binary left op right .empty

/-- Logical negation. -/
def negation (operand : Expr) : Expr := .unary .not operand .empty

/-- The conjunction of several operands. -/
def conjunction (values : List Expr) : Expr := .logic .and values .empty

/-- A single comparison. -/
def comparison (left : Expr) (op : CompareOp) (right : Expr) : Expr :=
  .compare left [op] [right] .empty

/-- A conditional expression. -/
def choice (test body orelse : Expr) : Expr := .conditional test body orelse .empty

/-- A display of several elements. -/
def display (kind : CollectionKind) (elements : List Expr) : Expr :=
  .collection kind elements .empty

/-- A dict display in which every entry has a key. -/
def mapping (entries : List (Expr × Expr)) : Expr :=
  .dict (entries.map fun (key, value) => ⟨some key, value⟩) .empty

/-- A comprehension with one clause and no filter. -/
def forEach (kind : ComprehensionKind) (element : Expr) (target : Name) (source : Expr) : Expr :=
  .comprehension kind element none [⟨target, source, []⟩] .empty

/-- A call with positional arguments and named ones. -/
def apply (callee : Expr) (args : List Expr) (keywords : List (Name × Expr)) : Expr :=
  .call callee args (keywords.map fun (label, value) => ⟨some label, value⟩) .empty

/-- A call of a free function. -/
def callNamed (function : Name) (args : List Expr) : Expr :=
  (var .global function).apply args []

/-- A call of a method. -/
def callMethod (value : Expr) (method : Name) (args : List Expr) : Expr :=
  (value.attrOf method .method).apply args []

/-- A test against one class, by name. -/
def instanceOf (value : Expr) (cls : Name) : Expr := .isInstance value [var .global cls] .empty

/-- A cast. -/
def casted (value : Expr) : Expr := .cast value .empty

/-- An anonymous function. -/
def function (body : Expr) : Expr := .lambda body .empty

/-- An assignment expression. -/
def binding (target : Name) (value : Expr) : Expr := .bind target value .empty

/-- An unpacked argument or element. -/
def unpacked (value : Expr) : Expr := .starred value .empty

/-- A form without a node. -/
def unknown : Expr := .unsupported .empty

end Expr

end DefiniteInit
