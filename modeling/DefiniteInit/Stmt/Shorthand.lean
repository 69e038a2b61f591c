import DefiniteInit.Expr.Shorthand
import DefiniteInit.Stmt.Basic

/-!
# Statements made by hand

Shorter ways to write the common targets and statements of a tree that was not read
from text: every span is empty.
-/

namespace DefiniteInit

namespace Target

/-- An attribute of the receiver. -/
def ofSelf (attr : Name) : Target := .selfAttr attr .empty

/-- A local variable. -/
def var (id : Name) : Target := .name id .empty

/-- An attribute of another object. -/
def attrOf (value : Expr) (attr : Name) : Target := .attribute value attr .empty

/-- An element of a container. -/
def item (value index : Expr) : Target := .subscript value index .empty

/-- Several targets at once. -/
def ofList (elements : List Target) : Target := .tuple elements .empty

end Target

/-- A handler that binds no name. -/
def Handler.on (type : Option Expr) (body : List Stmt) : Handler := ⟨type, none, body, .empty⟩

namespace Stmt

/-- Assigns a value to several targets in turn. -/
def assignAll (targets : List Target) (value : Expr) : Stmt := .assign targets value .empty

/-- Assigns an attribute of the receiver. -/
def setAttr (attr : Name) (value : Expr) : Stmt := assignAll [.ofSelf attr] value

/-- Assigns a local variable. -/
def setLocal (id : Name) (value : Expr) : Stmt := assignAll [.var id] value

/-- Evaluates an expression for its effects. -/
def run (value : Expr) : Stmt := .eval value .empty

/-- Branches on a test. -/
def branch (test : Expr) (body orelse : List Stmt) : Stmt := .ifElse test body orelse .empty

/-- Loops while a test holds. -/
def loopWhile (test : Expr) (body orelse : List Stmt) : Stmt := .whileLoop test body orelse .empty

/-- Loops over a source, binding a local variable. -/
def loopOver (target : Name) (source : Expr) (body orelse : List Stmt) : Stmt :=
  .forLoop (.var target) source body orelse .empty

/-- A guarded block. -/
def guarded (body : List Stmt) (handlers : List Handler) (orelse final : List Stmt) : Stmt :=
  .tryBlock body handlers orelse final .empty

/-- A block under one context manager, bound to nothing. -/
def managed (manager : Expr) (body : List Stmt) : Stmt := .withBlock [⟨manager, none⟩] body .empty

/-- Returns from the initializer. -/
def leave (value : Option Expr) : Stmt := .ret value .empty

/-- Raises an exception without a cause. -/
def throwing (exception : Expr) : Stmt := .raise (some exception) none .empty

/-- Checks a test, without a message. -/
def require (test : Expr) : Stmt := .assertion test none .empty

/-- Calls a base's initializer with positional arguments. -/
def callInit (target : SuperTarget) (args : List Expr) : Stmt := .superInit target args [] .empty

/-- Assigns the receiver's own name. -/
def setSelf (value : Expr) : Stmt := .rebindSelf value .empty

/-- Deletes an attribute of the receiver. -/
def delAttr (attr : Name) : Stmt := .delete [.ofSelf attr] .empty

/-- A nested function. -/
def define (name : Name) (capturesSelf : Bool) : Stmt := .nestedDef name capturesSelf .empty

end Stmt

end DefiniteInit
