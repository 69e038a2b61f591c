import DefiniteInit.Expr.Basic

/-!
# Statements

The body of an initializer. Assignments to attributes of the receiver and calls of the
next initializer in line have nodes of their own, since those are what the analysis
counts.
-/

namespace DefiniteInit

/-- What an assignment, a loop or a deletion acts on. -/
inductive Target where
  /-- An attribute of the receiver. -/
  | selfAttr (attr : Name) (span : Span)
  /-- The receiver's own name. -/
  | self (span : Span)
  | name (id : Name) (span : Span)
  /-- An attribute of another object. -/
  | attribute (value : Expr) (attr : Name) (span : Span)
  | subscript (value index : Expr) (span : Span)
  | tuple (elements : List Target) (span : Span)

instance : Inhabited Target := ⟨.tuple [] .empty⟩

/-- The text the target was read from. -/
def Target.span : Target → Span
  | .selfAttr _ s | .self s | .name _ s | .attribute _ _ s | .subscript _ _ s | .tuple _ s => s

/-- One context manager of a `with` statement. -/
structure WithItem where
  /-- The manager. -/
  manager : Expr
  /-- What its value is bound to. -/
  target : Option Target

/-- Which initializer a call reaches. -/
inductive SuperTarget where
  /-- The next one in line. -/
  | next
  /-- That of a base given by name. -/
  | explicit (base : Name)
deriving DecidableEq

mutual

/-- Statements. -/
inductive Stmt where
  | assign (targets : List Target) (value : Expr) (span : Span)
  /-- An expression evaluated for its effects. -/
  | eval (value : Expr) (span : Span)
  | ifElse (test : Expr) (body orelse : List Stmt) (span : Span)
  | whileLoop (test : Expr) (body orelse : List Stmt) (span : Span)
  | forLoop (target : Target) (source : Expr) (body orelse : List Stmt) (span : Span)
  | tryBlock (body : List Stmt) (handlers : List Handler) (orelse final : List Stmt) (span : Span)
  | withBlock (items : List WithItem) (body : List Stmt) (span : Span)
  | ret (value : Option Expr) (span : Span)
  | raise (exception cause : Option Expr) (span : Span)
  | assertion (test : Expr) (message : Option Expr) (span : Span)
  /-- A call of a base's initializer on the receiver. -/
  | superInit (target : SuperTarget) (args : List Expr) (keywords : List Keyword) (span : Span)
  /-- An assignment to the receiver's own name. -/
  | rebindSelf (value : Expr) (span : Span)
  | delete (targets : List Target) (span : Span)
  /-- A nested function or class. -/
  | nestedDef (name : Name) (capturesSelf : Bool) (span : Span)
  | pass (span : Span)
  | breakLoop (span : Span)
  | continueLoop (span : Span)
  /-- A form the analysis has no node for. -/
  | unsupported (span : Span)

/-- One handler of a `try` statement. -/
structure Handler where
  /-- The class of exceptions it takes; without one, all. -/
  type : Option Expr
  /-- The name the exception is bound to. -/
  name : Option Name
  body : List Stmt
  span : Span

end

instance : Inhabited Stmt := ⟨.pass .empty⟩

/-- The text the statement was read from. -/
def Stmt.span : Stmt → Span
  | .assign _ _ s | .eval _ s | .ifElse _ _ _ s | .whileLoop _ _ _ s | .forLoop _ _ _ _ s
  | .tryBlock _ _ _ _ s | .withBlock _ _ s | .ret _ s | .raise _ _ s | .assertion _ _ s
  | .superInit _ _ _ s | .rebindSelf _ s | .delete _ s | .nestedDef _ _ s | .pass s
  | .breakLoop s | .continueLoop s | .unsupported s => s

/-- The initializer of a class. -/
structure Initializer where
  /-- Its statements. -/
  body : List Stmt
  /-- The text it was read from. -/
  span : Span

end DefiniteInit
