import DefiniteInit.Expr.Literal
import DefiniteInit.Name.Basic
import DefiniteInit.Span

/-!
# Expressions

The expressions of an initializer. Uses of the receiver are told apart from other names
when the tree is built: `Expr.self` is the receiver itself, `Expr.attribute` on it is a
read of one of its attributes.
-/

namespace DefiniteInit

/-- Where a variable is bound. -/
inductive NameKind where
  /-- A local variable. -/
  | localVar
  /-- A parameter of the initializer. -/
  | param
  /-- A module-level constant, declared immutable. -/
  | final
  /-- A module-level variable, or a name that was not resolved. -/
  | global
deriving DecidableEq

/-- What an attribute is known to be. -/
inductive AttrKind where
  /-- A data slot. -/
  | data
  /-- A property, whose access runs code. -/
  | property
  /-- A method. -/
  | method
  /-- Not known. -/
  | unknown
deriving DecidableEq

/-- Binary operators. -/
inductive BinaryOp where
  | add | sub | mult | div | floorDiv | mod | pow
  | shiftLeft | shiftRight | bitOr | bitXor | bitAnd | matMult
deriving DecidableEq

/-- Unary operators. -/
inductive UnaryOp where
  | invert | not | plus | minus
deriving DecidableEq

/-- Short-circuit operators. -/
inductive LogicOp where
  | and | or
deriving DecidableEq

/-- Comparisons. -/
inductive CompareOp where
  | eq | notEq | lt | le | gt | ge | is | isNot | isIn | notIn
deriving DecidableEq

/-- Identity comparisons look at no attribute and run no code. -/
def CompareOp.isIdentity : CompareOp → Bool
  | .is | .isNot => true
  | _ => false

/-- Displays of several elements. -/
inductive CollectionKind where
  | list | tuple | set
deriving DecidableEq

/-- Kinds of comprehension; a generator is evaluated lazily. -/
inductive ComprehensionKind where
  | list | set | dict | generator
deriving DecidableEq

mutual

/-- Expressions. -/
inductive Expr where
  | constant (value : Literal) (span : Span)
  /-- The receiver. -/
  | self (span : Span)
  | name (id : Name) (kind : NameKind) (span : Span)
  | attribute (value : Expr) (attr : Name) (kind : AttrKind) (span : Span)
  | subscript (value index : Expr) (span : Span)
  | binary (left : Expr) (op : BinaryOp) (right : Expr) (span : Span)
  | unary (op : UnaryOp) (operand : Expr) (span : Span)
  | logic (op : LogicOp) (values : List Expr) (span : Span)
  /-- A chain of comparisons. The operator between two operands may be missing. -/
  | compare (left : Expr) (ops : List CompareOp) (comparators : List Expr) (span : Span)
  | conditional (test body orelse : Expr) (span : Span)
  | collection (kind : CollectionKind) (elements : List Expr) (span : Span)
  | dict (entries : List DictEntry) (span : Span)
  | comprehension (kind : ComprehensionKind) (element : Expr) (value : Option Expr)
      (generators : List Generator) (span : Span)
  | call (callee : Expr) (args : List Expr) (keywords : List Keyword) (span : Span)
  | isInstance (value : Expr) (classes : List Expr) (span : Span)
  | cast (value : Expr) (span : Span)
  | lambda (body : Expr) (span : Span)
  /-- An assignment expression: binds a local and yields its value. -/
  | bind (target : Name) (value : Expr) (span : Span)
  | starred (value : Expr) (span : Span)
  /-- A form the analysis has no node for. -/
  | unsupported (span : Span)

/-- One entry of a dict display; without a key, another mapping is unpacked. -/
structure DictEntry where
  key : Option Expr
  value : Expr

/-- One `for` clause of a comprehension. -/
structure Generator where
  target : Name
  source : Expr
  filters : List Expr

/-- A keyword argument; without a name, a mapping is unpacked. -/
structure Keyword where
  name : Option Name
  value : Expr

end

namespace Expr

instance : Inhabited Expr := ⟨.unsupported .empty⟩

/-- The text the expression was read from. -/
def span : Expr → Span
  | .constant _ s | .self s | .name _ _ s | .attribute _ _ _ s | .subscript _ _ s
  | .binary _ _ _ s | .unary _ _ s | .logic _ _ s | .compare _ _ _ s | .conditional _ _ _ s
  | .collection _ _ s | .dict _ s | .comprehension _ _ _ _ s | .call _ _ _ s
  | .isInstance _ _ s | .cast _ s | .lambda _ s | .bind _ _ s | .starred _ s
  | .unsupported s => s

/-- A constant that is sure to count as true. -/
def alwaysTrue : Expr → Bool
  | .constant value _ => value.alwaysTrue
  | _ => false

end Expr

end DefiniteInit
