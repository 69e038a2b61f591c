import DefiniteInit.Walk.Stmt
import Mathlib.Data.Set.Insert

/-!
# Runs of an initializer

What a body can do to its receiver when it runs. A run carries the set of attributes that
are assigned. Assigning an attribute adds it, deleting it removes it, and nothing else
removes any, though all code may add some. A test may go either way, unless it is a
constant that counts as true; a loop takes any number of rounds; whatever is evaluated may
raise, and an exception is taken by any handler around it, swallowed by a manager around
it, or passed on.

A `Behaviour` relates the attributes assigned at the start of a run to its `Ending`: how the
code was left, what is assigned then, and a log of what happened on the way. Behaviours
are put together by `Behaviour.bind`, which goes on according to how the code before was
left. `Stmt.exec` and `Stmt.execAll` give the behaviour of statements, for calls of base
initializers that behave as `calls` says. A run may be given up at any moment
(`Flow.unfinished`), which is how one that never ends is seen.
-/

namespace DefiniteInit

/-- How a run leaves a piece of code. -/
inductive Flow where
  /-- At its end. -/
  | next
  | returned
  /-- Out of the enclosing loop. -/
  | broke
  /-- To the next round of the enclosing loop. -/
  | continued
  | raised
  /-- It does not: the run is followed no further. -/
  | unfinished
deriving DecidableEq

namespace Flow

/-- The ways to leave code that neither returns nor jumps. -/
def isPlain : Flow → Bool
  | .next | .raised | .unfinished => true
  | _ => false

/-- Whether an initializer left in this way has done its work. -/
def completes : Flow → Bool
  | .next | .returned => true
  | _ => false

end Flow

/-- What happens during a run. -/
inductive Event where
  /-- A call gets the receiver, a nested function captures it, its name gets another value,
  or code runs that the analysis has no node for. These attributes are assigned. -/
  | handsOver (attrs : Set Name)
  /-- The receiver's name is deleted, or unpacked into. These attributes are assigned. -/
  | unbinds (attrs : Set Name)
  /-- The body deletes an attribute. -/
  | deletes (attr : Name)
  /-- The initializer of a base, called from the body, leaves these attributes unassigned,
  which it found assigned. -/
  | drops (attrs : Set Name)
  /-- An exception enters a `finally` block. -/
  | raisesIntoFinal

/-- Where a run ends. -/
structure Ending where
  flow : Flow
  log : List Event
  /-- The attributes assigned. -/
  attrs : Set Name

/-- The ending of a run that had this log before. -/
def Ending.after (r : Ending) (log : List Event) : Ending := { r with log := log ++ r.log }

/-- What a piece of code can do, from the attributes assigned when it starts. -/
def Behaviour := Set Name → Ending → Prop

namespace Behaviour

/-- No run at all. -/
def never : Behaviour := fun _ _ => False

/-- Leaves the code in this way. -/
def jump (k : Flow) : Behaviour := fun σ r => r = ⟨k, [], σ⟩

/-- Notes an event. -/
def emit (e : Set Name → Event) : Behaviour := fun σ r => r = ⟨.next, [e σ], σ⟩

/-- Code that neither gets the receiver nor deletes an attribute. -/
def plain : Behaviour := fun σ r => σ ⊆ r.attrs ∧ r.log = [] ∧ r.flow.isPlain = true

/-- The evaluation of code that may make calls that get the receiver, if `hands`. -/
def evaluating (hands : Bool) : Behaviour := fun σ r =>
  σ ⊆ r.attrs ∧ r.flow.isPlain = true ∧
    ∀ e ∈ r.log, hands = true ∧ ∃ τ, e = .handsOver τ ∧ σ ⊆ τ ∧ τ ⊆ r.attrs

/-- One behaviour, then another according to how the first ends. -/
def bind (b : Behaviour) (k : Flow → Behaviour) : Behaviour := fun σ r =>
  ∃ r₁ r₂, b σ r₁ ∧ k r₁.flow r₁.attrs r₂ ∧ r = r₂.after r₁.log

/-- Goes on if the code before ran to its end. -/
def onward (c : Behaviour) : Flow → Behaviour
  | .next => c
  | k => jump k

/-- One behaviour after the other. -/
def andThen (b c : Behaviour) : Behaviour := b.bind (onward c)

/-- One behaviour or the other. -/
def either (b c : Behaviour) : Behaviour := fun σ r => b σ r ∨ c σ r

/-- Adds an attribute to those assigned. -/
def adds (attr : Name) : Behaviour := fun σ r => r = ⟨.next, [], insert attr σ⟩

/-- Removes an attribute from those assigned. -/
def removes (attr : Name) : Behaviour := fun σ r => r = ⟨.next, [.deletes attr], σ \ {attr}⟩

/-- Assigns an attribute. -/
def assigning (attr : Name) : Behaviour := plain.andThen (adds attr)

/-- Deletes an attribute. -/
def deleting (attr : Name) : Behaviour := plain.andThen (removes attr)

/-- Lets go of the receiver. -/
def handing : Behaviour := plain.andThen ((emit .handsOver).andThen plain)

/-- Takes the receiver's name away. -/
def unbinding : Behaviour := plain.andThen (emit .unbinds)

/-- Goes on with the next round of a loop, or leaves it. -/
def nextRound (again : Behaviour) : Flow → Behaviour
  | .next | .continued => again
  | .broke => jump .next
  | k => jump k

/-- A loop of fewer than so many rounds. -/
def rounds (test body orelse : Behaviour) (endless : Bool) : Nat → Behaviour
  | 0 => never
  | n + 1 =>
    test.andThen (either (if endless then never else orelse)
      (body.bind (nextRound (rounds test body orelse endless n))))

/-- A loop. Where its test fails the `else` block runs; that of an endless loop never
does. -/
def looping (test body orelse : Behaviour) (endless : Bool) : Behaviour := fun σ r =>
  ∃ n, rounds test body orelse endless n σ r

/-- Goes on with the `else` block of a `try` statement, or with its handlers. -/
def handling (handlers orelse : Behaviour) : Flow → Behaviour
  | .next => orelse
  | .raised => handlers
  | k => jump k

/-- Tells a manager that its block is left. It may swallow an exception. -/
def leaving : Flow → Behaviour
  | .unfinished => jump .unfinished
  | .raised => plain.andThen (either (jump .next) (jump .raised))
  | k => plain.andThen (jump k)

/-- A block with a manager. -/
def managed (b : Behaviour) : Behaviour := b.bind leaving

/-- Runs a `finally` block, and then leaves as before unless the block is left otherwise. -/
def final (block : Behaviour) : Flow → Behaviour
  | .unfinished => jump .unfinished
  | .raised => (emit fun _ => .raisesIntoFinal).andThen (block.andThen (jump .raised))
  | k => block.andThen (jump k)

end Behaviour

/-! ## Expressions -/

namespace Expr

mutual

/-- Whether a call that gets the receiver occurs in the expression: a call of one of its
methods, or one with the receiver among the arguments. -/
def handsOver : Expr → Bool
  | .constant _ _ | .self _ | .name _ _ _ | .unsupported _ => false
  | .attribute value _ _ _ => value.handsOver
  | .subscript value index _ => value.handsOver || index.handsOver
  | .binary left _ right _ => left.handsOver || right.handsOver
  | .unary _ operand _ => operand.handsOver
  | .logic _ values _ => anyHandsOver values
  | .compare left _ comparators _ => left.handsOver || anyHandsOver comparators
  | .conditional test body orelse _ => test.handsOver || body.handsOver || orelse.handsOver
  | .collection _ elements _ => anyHandsOver elements
  | .dict entries _ => entriesHandOver entries
  | .comprehension _ element value generators _ =>
    element.handsOver || valueHandsOver value || generatorsHandOver generators
  | .call callee args keywords _ =>
    callee.selfMethod?.isSome || args.any isSelf || keywords.any (·.value.isSelf) ||
      callee.handsOver || anyHandsOver args || keywordsHandOver keywords
  | .isInstance value classes _ => value.handsOver || anyHandsOver classes
  | .cast value _ => value.handsOver
  | .lambda body _ => body.handsOver
  | .bind _ value _ => value.handsOver
  | .starred value _ => value.handsOver

/-- Whether such a call occurs in one of several expressions. -/
def anyHandsOver : List Expr → Bool
  | [] => false
  | e :: es => e.handsOver || anyHandsOver es

/-- Whether one occurs in an expression that may be missing. -/
def valueHandsOver : Option Expr → Bool
  | none => false
  | some e => e.handsOver

/-- Whether one occurs in an entry of a dict display. -/
def entriesHandOver : List DictEntry → Bool
  | [] => false
  | ⟨key, value⟩ :: rest => valueHandsOver key || value.handsOver || entriesHandOver rest

/-- Whether one occurs in a clause of a comprehension. -/
def generatorsHandOver : List Generator → Bool
  | [] => false
  | ⟨_, source, filters⟩ :: rest =>
    source.handsOver || anyHandsOver filters || generatorsHandOver rest

/-- Whether one occurs in a keyword argument. -/
def keywordsHandOver : List Keyword → Bool
  | [] => false
  | ⟨_, value⟩ :: rest => value.handsOver || keywordsHandOver rest

end

/-- The evaluation of an expression. -/
def exec (e : Expr) : Behaviour := .evaluating e.handsOver

/-- The evaluation of an expression that may be missing. -/
def exec? (e : Option Expr) : Behaviour := .evaluating (valueHandsOver e)

/-- Whether calling a base's initializer with these arguments hands the receiver over once
more. -/
def argsHandOver (args : List Expr) (keywords : List Keyword) : Bool :=
  args.any isSelf || keywords.any (·.value.isSelf) || anyHandsOver args || keywordsHandOver keywords

end Expr

/-! ## Statements -/

namespace Target

mutual

/-- Binds a target to a value. -/
def bind : Target → Behaviour
  | .selfAttr attr _ => .assigning attr
  | .self _ => .unbinding
  | .name _ _ => .plain
  | .attribute value _ _ => value.exec
  | .subscript value index _ => value.exec.andThen index.exec
  | .tuple elements _ => bindAll elements

/-- Binds targets one after the other. -/
def bindAll : List Target → Behaviour
  | [] => .plain
  | t :: ts => t.bind.andThen (bindAll ts)

end

mutual

/-- Deletes a target. -/
def delete : Target → Behaviour
  | .selfAttr attr _ => .deleting attr
  | .self _ => .unbinding
  | .name _ _ => .plain
  | .attribute value _ _ => value.exec
  | .subscript value index _ => value.exec.andThen index.exec
  | .tuple elements _ => deleteAll elements

/-- Deletes targets one after the other. -/
def deleteAll : List Target → Behaviour
  | [] => .plain
  | t :: ts => t.delete.andThen (deleteAll ts)

end

end Target

/-- Enters the managers of a `with` statement one after the other, each around the next,
and runs the body. -/
def WithItem.exec (body : Behaviour) : List WithItem → Behaviour
  | [] => body.managed
  | ⟨manager, target⟩ :: rest =>
    manager.exec.andThen
      (((target.map Target.bind).getD .plain).andThen (WithItem.exec body rest)).managed

namespace Stmt

mutual

/-- The behaviour of a statement. -/
def exec (calls : SuperTarget → Behaviour) (inLoop : Bool) : Stmt → Behaviour
  | .assign targets value _ => value.exec.andThen (Target.bindAll targets)
  | .eval value _ => value.exec
  | .ifElse test body orelse _ =>
    test.exec.andThen (.either (execAll calls inLoop body) (execAll calls inLoop orelse))
  | .whileLoop test body orelse _ =>
    .looping test.exec (execAll calls true body) (execAll calls inLoop orelse) test.alwaysTrue
  | .forLoop target source body orelse _ =>
    source.exec.andThen
      (.looping .plain (target.bind.andThen (execAll calls true body)) (execAll calls inLoop orelse)
        false)
  | .tryBlock body handlers orelse final _ =>
    let region := (execAll calls inLoop body).bind
      (.handling (execHandlers calls inLoop handlers) (execAll calls inLoop orelse))
    if final.isEmpty then region else region.bind (.final (execAll calls inLoop final))
  | .withBlock items body _ => WithItem.exec (execAll calls inLoop body) items
  | .ret value _ => (Expr.exec? value).andThen (.jump .returned)
  | .raise exception cause _ =>
    (Expr.exec? exception).andThen ((Expr.exec? cause).andThen (.jump .raised))
  | .assertion test message _ =>
    test.exec.andThen (.either .plain ((Expr.exec? message).andThen (.jump .raised)))
  | .superInit target args keywords _ =>
    (Behaviour.evaluating (Expr.argsHandOver args keywords)).andThen (calls target)
  | .rebindSelf value _ => value.exec.andThen .handing
  | .delete targets _ => Target.deleteAll targets
  | .nestedDef _ capturesSelf _ => if capturesSelf then .handing else .plain
  | .pass _ => .plain
  | .breakLoop _ => if inLoop then Behaviour.plain.andThen (.jump .broke) else .plain
  | .continueLoop _ => if inLoop then Behaviour.plain.andThen (.jump .continued) else .plain
  | .unsupported _ => .handing

/-- The behaviour of statements one after the other. -/
def execAll (calls : SuperTarget → Behaviour) (inLoop : Bool) : List Stmt → Behaviour
  | [] => .jump .next
  | s :: ss => (exec calls inLoop s).andThen (execAll calls inLoop ss)

/-- What happens to an exception that reaches the handlers of a `try` statement. Each in
turn looks whether it takes it; if none does, it is passed on. -/
def execHandlers (calls : SuperTarget → Behaviour) (inLoop : Bool) : List Handler → Behaviour
  | [] => .jump .raised
  | ⟨type, _, body, _⟩ :: rest =>
    (Expr.exec? type).andThen
      (.either (execAll calls inLoop body) (execHandlers calls inLoop rest))

end

mutual

/-- Whether no `try` statement in it has a `finally` block. -/
def isFinallyFree : Stmt → Bool
  | .ifElse _ body orelse _ => allFinallyFree body && allFinallyFree orelse
  | .whileLoop _ body orelse _ => allFinallyFree body && allFinallyFree orelse
  | .forLoop _ _ body orelse _ => allFinallyFree body && allFinallyFree orelse
  | .tryBlock body handlers orelse final _ =>
    allFinallyFree body && handlersFinallyFree handlers && allFinallyFree orelse && final.isEmpty
  | .withBlock _ body _ => allFinallyFree body
  | .assign _ _ _ | .eval _ _ | .ret _ _ | .raise _ _ _ | .assertion _ _ _ | .superInit _ _ _ _
  | .rebindSelf _ _ | .delete _ _ | .nestedDef _ _ _ | .pass _ | .breakLoop _ | .continueLoop _
  | .unsupported _ => true

/-- Whether no `try` statement in these statements has a `finally` block. -/
def allFinallyFree : List Stmt → Bool
  | [] => true
  | s :: ss => s.isFinallyFree && allFinallyFree ss

/-- Whether no `try` statement in these handlers has a `finally` block. -/
def handlersFinallyFree : List Handler → Bool
  | [] => true
  | ⟨_, _, body, _⟩ :: hs => allFinallyFree body && handlersFinallyFree hs

end

end Stmt

/-! ## Initializers -/

namespace Scope

/-- Calls of base initializers, by what is known of the bases: one whose facts are known
has assigned what they say once it is done. -/
def frozenCalls (sc : Scope) (target : SuperTarget) : Behaviour := fun σ r =>
  Behaviour.plain σ r ∧ (r.flow = .next →
    ∀ base facts, sc.baseCall target = .analyzed base facts →
      ∀ a ∈ facts.alwaysDefined, a ∈ r.attrs)

/-- The behaviour of the body of an initializer. -/
def run (sc : Scope) (body : List Stmt) : Behaviour := Stmt.execAll sc.frozenCalls false body

end Scope

end DefiniteInit
