import DefiniteInit.Class.Lineage
import DefiniteInit.Options
import DefiniteInit.Walk.Stmt
import DefiniteInit.Walk.Summary

/-!
# The facts of one class

`Graph.factsOf` computes the facts of a class from those of its bases. A class always
defines what its lineage gives a default and what its initializer assigns, or what the
base assigns whose initializer it uses; an attribute that may be deleted it never always
defines.
-/

namespace DefiniteInit

namespace Graph

/-- What the initializer of a class is walked with, given the facts known so far. -/
def scope (g : Graph) (known : ClassTable Facts) (o : Options) (id : ClassId) : Scope where
  judge := ⟨g.lineageProperties id, o.strictMutableGlobals⟩
  baseCall := g.baseCall known id

/-- The summary of a body, as the initializer of a class and from a given state. -/
def walkBody (g : Graph) (known : ClassTable Facts) (o : Options) (id : ClassId)
    (body : List Stmt) (entry : State) : Summary :=
  .ofOutcome ((g.scope known o id).block .top body entry) o.recordEscapeSites

/-- Whether a class is passed over, and why. -/
def seedReason? (g : Graph) (known : ClassTable Facts) (id : ClassId) : Option SeedReason :=
  let fromOutside := (g.class? id).any Class.hasForeignBase ||
    (g.localBases id).any fun base =>
      (known.get? base).any (·.origin = .seeded .foreignAncestry)
  if fromOutside then some .foreignAncestry
  else if (g.class? id).any Class.openToForeign then some .optedOut
  else none

/-- What the way a class is initialised says of it, before defaults are added and
deletable attributes taken away. -/
def initialFacts (g : Graph) (known : ClassTable Facts) (o : Options) (id : ClassId) : Facts :=
  match (g.class? id).bind Class.initializer with
  | some init =>
    let summary := g.walkBody known o id init.body ⟨g.defaultedAttrs id, false⟩
    ⟨summary.defined, summary.escaped, .analyzed, summary.firstEscape⟩
  | none =>
    match g.primaryBase? id with
    | none => ⟨∅, false, .defaultsOnly, none⟩
    | some base =>
      match known.get? base with
      | some facts => ⟨facts.alwaysDefined, facts.compromised, .inherited base, none⟩
      | none => ⟨∅, true, .inherited base, none⟩

/-- The facts of a class, given those known so far. -/
def factsOf (g : Graph) (known : ClassTable Facts) (o : Options) (id : ClassId) : Facts :=
  if g.isTrait id then .ofTrait
  else
    match g.seedReason? known id with
    | some reason => .seeded reason
    | none =>
      let facts := g.initialFacts known o id
      let deletable := g.deletableAttrs id
      { facts with
        alwaysDefined := (g.defaultedAttrs id ∪ facts.alwaysDefined).filter (· ∉ deletable) }

end Graph

end DefiniteInit
