import DefiniteInit.Escape
import DefiniteInit.Expr.Receiver
import DefiniteInit.AttrSet
import DefiniteInit.Stmt.Basic

/-!
# Verdicts on expressions

Whether evaluating an expression can let the receiver escape. An expression is safe when
no code it runs can look at a receiver whose attributes are not all assigned; whatever
cannot be seen to be safe is an escape. Of several parts the first that is not safe
decides (`Verdict.andThen`), parts being taken in the order of evaluation.

`Judge.expr` is the verdict on an expression evaluated for its value, `Judge.value` on
the right-hand side of an assignment, and `Judge.target` on what an assignment evaluates
to find its target. All three depend on the state only through the attributes that are
surely assigned.
-/

namespace DefiniteInit

/-- Whether the receiver may escape. -/
inductive Verdict where
  /-- It does not. -/
  | safe
  /-- It may. -/
  | escapes (site : EscapeSite)
  /-- It gets another name, so it may from now on. -/
  | aliases (site : EscapeSite)
deriving DecidableEq

namespace Verdict

/-- The verdict that the receiver escapes for that reason at that place. -/
def escape (reason : EscapeReason) (span : Span) : Verdict := .escapes ⟨reason, span⟩

/-- The verdict that the receiver gets another name. -/
def aliasing (reason : EscapeReason) (span : Span) : Verdict := .aliases ⟨reason, span⟩

/-- Whether the receiver does not escape. -/
def isSafe : Verdict → Bool
  | .safe => true
  | _ => false

/-- Where the receiver escapes. -/
def site? : Verdict → Option EscapeSite
  | .safe => none
  | .escapes site | .aliases site => some site

/-- The verdict on one part and then another: the first that is not safe. -/
def andThen : Verdict → Verdict → Verdict
  | .safe, v => v
  | v, _ => v

@[simp]
theorem safe_andThen (v : Verdict) : safe.andThen v = v := rfl

@[simp]
theorem andThen_safe (v : Verdict) : v.andThen .safe = v := by cases v <;> rfl

theorem andThen_assoc (u v w : Verdict) : (u.andThen v).andThen w = u.andThen (v.andThen w) := by
  cases u <;> rfl

theorem isSafe_iff {v : Verdict} : v.isSafe = true ↔ v = .safe := by cases v <;> simp [isSafe]

@[simp]
theorem isSafe_andThen (v w : Verdict) : (v.andThen w).isSafe = (v.isSafe && w.isSafe) := by
  cases v <;> rfl

end Verdict

/-- What a verdict takes into account of the class that is initialised. -/
structure Judge where
  /-- The properties the class has or inherits. -/
  properties : AttrSet
  /-- Whether reading a module-level variable counts as an escape. -/
  strictGlobals : Bool

namespace Judge

/-- Reading an attribute of the receiver is safe when it is a data slot surely assigned. -/
def selfRead (j : Judge) (defined : AttrSet) (attr : Name) (kind : AttrKind) (span : Span) :
    Verdict :=
  if kind ≠ .data ∨ attr ∈ j.properties then .escape (.computedRead attr) span
  else if attr ∈ defined then .safe
  else .escape (.undefinedRead attr) span

/-- Whether the receiver may stand between two comparisons, either of which may be
missing: only identity is compared. -/
def comparesIdentity (before after : Option CompareOp) : Bool :=
  before.all CompareOp.isIdentity && after.all CompareOp.isIdentity

mutual

/-- The verdict on an expression evaluated for its value. -/
def expr (j : Judge) (defined : AttrSet) : Expr → Verdict
  | .constant _ _ => .safe
  | .self span => .escape .selfValue span
  | .name id kind span =>
    if kind = .global ∧ j.strictGlobals = true then .escape (.mutableGlobal id) span else .safe
  | .attribute value attr kind span =>
    if value.isSelf then j.selfRead defined attr kind span else j.expr defined value
  | .subscript value index _ => (j.expr defined value).andThen (j.expr defined index)
  | .binary left _ right _ => (j.expr defined left).andThen (j.expr defined right)
  | .unary _ operand _ => j.expr defined operand
  | .logic _ values _ => j.exprs defined values
  | .compare left ops comparators _ =>
    (if left.isSelf && comparesIdentity none ops.head? then .safe
      else j.expr defined left).andThen (j.operands defined ops comparators)
  | .conditional test body orelse _ =>
    (j.expr defined test).andThen ((j.expr defined body).andThen (j.expr defined orelse))
  | .collection _ elements _ => j.exprs defined elements
  | .dict es _ => j.entries defined es
  | .comprehension kind element value gens span =>
    if kind = .generator then
      -- Evaluated later, perhaps after the initializer has returned.
      if (Expr.comprehension kind element value gens span).mentionsSelf then
        .escape .capturedSelf span
      else .safe
    else
      (j.generators defined gens).andThen
        ((j.expr defined element).andThen (j.expr? defined value))
  | .call callee args kws _ =>
    match callee.selfMethod? with
    | some (method, span) => .escape (.selfMethodCall method) span
    | none =>
      -- A callee given by name is only looked up.
      (if callee.isName then .safe else j.expr defined callee).andThen
        ((j.exprs defined args).andThen (j.keywords defined kws))
  | .isInstance value classes _ =>
    (if value.isSelf then .safe else j.expr defined value).andThen (j.classes defined classes)
  | .cast value _ => j.expr defined value
  | .lambda body span => if body.mentionsSelf then .escape .capturedSelf span else .safe
  | .bind _ value span =>
    if value.isSelfAlias then .aliasing .selfAliased span else j.expr defined value
  | .starred value _ => j.expr defined value
  | .unsupported span => .escape .unsupported span

/-- Several expressions in turn. -/
def exprs (j : Judge) (defined : AttrSet) : List Expr → Verdict
  | [] => .safe
  | e :: es => (j.expr defined e).andThen (j.exprs defined es)

/-- An expression that may be missing. -/
def expr? (j : Judge) (defined : AttrSet) : Option Expr → Verdict
  | none => .safe
  | some e => j.expr defined e

/-- The operands of a chain of comparisons from the second on; `ops` starts with the
comparison before the first of them. -/
def operands (j : Judge) (defined : AttrSet) (ops : List CompareOp) : List Expr → Verdict
  | [] => .safe
  | e :: es =>
    (if e.isSelf && comparesIdentity ops.head? ops.tail.head? then .safe
      else j.expr defined e).andThen (j.operands defined ops.tail es)

/-- The entries of a dict display. -/
def entries (j : Judge) (defined : AttrSet) : List DictEntry → Verdict
  | [] => .safe
  | ⟨key, value⟩ :: rest =>
    (j.expr? defined key).andThen ((j.expr defined value).andThen (j.entries defined rest))

/-- The clauses of a comprehension. -/
def generators (j : Judge) (defined : AttrSet) : List Generator → Verdict
  | [] => .safe
  | ⟨_, source, filters⟩ :: rest =>
    (j.expr defined source).andThen
      ((j.exprs defined filters).andThen (j.generators defined rest))

/-- Keyword arguments. -/
def keywords (j : Judge) (defined : AttrSet) : List Keyword → Verdict
  | [] => .safe
  | ⟨_, value⟩ :: rest => (j.expr defined value).andThen (j.keywords defined rest)

/-- The classes of an instance test; one given by name is only looked up. -/
def classes (j : Judge) (defined : AttrSet) : List Expr → Verdict
  | [] => .safe
  | e :: es =>
    (if e.isName then .safe else j.expr defined e).andThen (j.classes defined es)

end

/-- The verdict on the right-hand side of an assignment, where the receiver would get
another name. -/
def value (j : Judge) (defined : AttrSet) (e : Expr) : Verdict :=
  if e.isSelfAlias then .aliasing .selfAliased e.span else j.expr defined e

mutual

/-- The verdict on what an assignment evaluates to find its target. -/
def target (j : Judge) (defined : AttrSet) : Target → Verdict
  | .selfAttr attr span =>
    if attr ∈ j.properties then .escape (.propertyAccess attr) span else .safe
  | .self span => .aliasing .selfRebound span
  | .name _ _ => .safe
  | .attribute value _ _ => j.expr defined value
  | .subscript value index _ => (j.expr defined value).andThen (j.expr defined index)
  | .tuple elements _ => j.targets defined elements

/-- Several targets in turn. -/
def targets (j : Judge) (defined : AttrSet) : List Target → Verdict
  | [] => .safe
  | t :: ts => (j.target defined t).andThen (j.targets defined ts)

end

end Judge

end DefiniteInit
