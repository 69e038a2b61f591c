import DefiniteInit.Expr.Basic

/-!
# The receiver inside an expression

`isSelf` and `isSelfAlias` say that the value of an expression is the receiver;
`mentionsSelf` says that the receiver occurs anywhere below, bodies of lambdas and
comprehensions included.
-/

namespace DefiniteInit

namespace Expr

/-- The receiver itself. -/
def isSelf : Expr → Bool
  | .self _ => true
  | _ => false

/-- A variable, whatever its kind. -/
def isName : Expr → Bool
  | .name _ _ _ => true
  | _ => false

/-- The attribute of the receiver that the expression reads, and where. -/
def selfMethod? : Expr → Option (Name × Span)
  | .attribute (.self _) attr _ span => some (attr, span)
  | _ => none

/-- An expression whose value is the receiver: the receiver, also under casts and
assignment expressions. -/
def isSelfAlias : Expr → Bool
  | .self _ => true
  | .cast value _ => value.isSelfAlias
  | .bind _ value _ => value.isSelfAlias
  | _ => false

mutual

/-- Whether the receiver occurs in the expression. -/
def mentionsSelf : Expr → Bool
  | .constant _ _ | .name _ _ _ | .unsupported _ => false
  | .self _ => true
  | .attribute value _ _ _ => value.mentionsSelf
  | .subscript value index _ => value.mentionsSelf || index.mentionsSelf
  | .binary left _ right _ => left.mentionsSelf || right.mentionsSelf
  | .unary _ operand _ => operand.mentionsSelf
  | .logic _ values _ => anyMentionsSelf values
  | .compare left _ comparators _ => left.mentionsSelf || anyMentionsSelf comparators
  | .conditional test body orelse _ =>
    test.mentionsSelf || body.mentionsSelf || orelse.mentionsSelf
  | .collection _ elements _ => anyMentionsSelf elements
  | .dict entries _ => entriesMentionSelf entries
  | .comprehension _ element value generators _ =>
    element.mentionsSelf || valueMentionsSelf value || generatorsMentionSelf generators
  | .call callee args keywords _ =>
    callee.mentionsSelf || anyMentionsSelf args || keywordsMentionSelf keywords
  | .isInstance value classes _ => value.mentionsSelf || anyMentionsSelf classes
  | .cast value _ => value.mentionsSelf
  | .lambda body _ => body.mentionsSelf
  | .bind _ value _ => value.mentionsSelf
  | .starred value _ => value.mentionsSelf

/-- Whether the receiver occurs in one of several expressions. -/
def anyMentionsSelf : List Expr → Bool
  | [] => false
  | e :: es => e.mentionsSelf || anyMentionsSelf es

/-- Whether it occurs in an expression that may be missing. -/
def valueMentionsSelf : Option Expr → Bool
  | none => false
  | some e => e.mentionsSelf

/-- Whether it occurs in an entry of a dict display. -/
def entriesMentionSelf : List DictEntry → Bool
  | [] => false
  | ⟨key, value⟩ :: rest =>
    valueMentionsSelf key || value.mentionsSelf || entriesMentionSelf rest

/-- Whether it occurs in a clause of a comprehension. -/
def generatorsMentionSelf : List Generator → Bool
  | [] => false
  | ⟨_, source, filters⟩ :: rest =>
    source.mentionsSelf || anyMentionsSelf filters || generatorsMentionSelf rest

/-- Whether it occurs in a keyword argument. -/
def keywordsMentionSelf : List Keyword → Bool
  | [] => false
  | ⟨_, value⟩ :: rest => value.mentionsSelf || keywordsMentionSelf rest

end

end Expr

end DefiniteInit
