import DefiniteInit.Class.Graph
import DefiniteInit.Facts.Basic
import DefiniteInit.State

/-!
# Calls of a base's initializer

`Graph.baseCall` finds out what such a call runs. `BaseCall.fold` gives the state after
it: what the base always defines is defined from then on, provided the call is made
where assignments count. `BaseCall.escape?` says whether the call lets the receiver
escape.
-/

namespace DefiniteInit

/-- What a call of a base's initializer runs. -/
inductive BaseCall where
  /-- The initializer of a class whose facts are known. -/
  | analyzed (base : ClassId) (facts : Facts)
  /-- Code of a trait, of a class open to the outside or of one from outside. Nothing is
  concluded from it. -/
  | inert
  /-- The initializer of a class whose facts are not known. -/
  | missing (base : ClassId)
  /-- That of a class that is no base. -/
  | notABase (name : Name)
deriving DecidableEq

namespace BaseCall

/-- The state after the call. The base's attributes are added only if the call
`contributes`. -/
def fold (call : BaseCall) (contributes : Bool) (s : State) : State :=
  match call with
  | .analyzed _ facts => if contributes then s.defineAll facts.alwaysDefined.toList else s
  | _ => s

/-- How many attributes the call adds. -/
def gain (call : BaseCall) (contributes : Bool) (s : State) : Nat :=
  match call with
  | .analyzed _ facts =>
    if contributes then facts.alwaysDefined.toList.countP s.gains else 0
  | _ => 0

/-- Whether the call lets the receiver escape. -/
def escape? (call : BaseCall) (span : Span) : Option EscapeSite :=
  match call with
  | .analyzed base facts =>
    if facts.compromised then some ⟨.compromisedBase base, span⟩ else none
  | .inert => none
  | .missing base => some ⟨.unanalyzedBase base, span⟩
  | .notABase name => some ⟨.invalidSuperTarget name, span⟩

end BaseCall

namespace Graph

/-- Whether a base goes by that name. -/
def isNamed (g : Graph) (name : Name) : Base → Bool
  | .inUnit id => (g.class? id).any (·.name = name)
  | .foreign foreign => foreign = name

/-- What a call on a base runs, given the facts known so far. -/
def baseCallOn (g : Graph) (known : ClassTable Facts) : Base → BaseCall
  | .foreign _ => .inert
  | .inUnit base =>
    if (g.class? base).any fun c => c.isTrait || c.openToForeign then .inert
    else
      match known.get? base with
      | some facts => .analyzed base facts
      | none => .missing base

/-- What a call in the initializer of `id` runs, given the facts known so far. The root
class has nothing to run. -/
def baseCall (g : Graph) (known : ClassTable Facts) (id : ClassId) : SuperTarget → BaseCall
  | .next =>
    match (g.bases id).head? with
    | some base => g.baseCallOn known base
    | none => .inert
  | .explicit name =>
    match (g.bases id).find? (g.isNamed name) with
    | some base => g.baseCallOn known base
    | none => if name = .object then .inert else .notABase name

end Graph

end DefiniteInit
