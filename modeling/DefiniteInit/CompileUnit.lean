import DefiniteInit.Analysis
import DefiniteInit.Class.Cycle
import DefiniteInit.Fault
import DefiniteInit.Name.Table
import DefiniteInit.Storage

/-!
# Compile units

A compile unit is a graph of classes with the table of its names and the facts found so
far. `build` makes one from declarations, `analyze` finds the facts, once, and `layouts` plans
storage by them. What is asked in terms of texts (names of classes and attributes) is
answered here.
-/

namespace DefiniteInit

/-- A compile unit. -/
structure CompileUnit where
  names : NameTable
  graph : Graph
  /-- The facts, once the unit has been analyzed. -/
  facts : ClassTable Facts
  /-- What each class and all below it define, if that was asked for. -/
  narrowed : ClassTable AttrSet

namespace CompileUnit

/-! ## Building -/

/-- There are not more classes than positions. -/
def maxClasses : Nat := UInt32.size - 1

/-- The first name that has been declared before. -/
def firstDuplicate? (seen : List Name) : List Name → Option Name
  | [] => none
  | n :: rest => if n ∈ seen then some n else firstDuplicate? (n :: seen) rest

/-- The unit of a list of declarations, before it is analyzed. -/
def build (names : NameTable) (decls : List Declaration) : Except Fault CompileUnit :=
  if decls.length > maxClasses then .error (.tooManyClasses decls.length)
  else
    match firstDuplicate? [] (decls.map (·.name)) with
    | some name => .error (.duplicateClass (names.display name))
    | none => .ok ⟨names, .ofDeclarations decls, ∅, ∅⟩

/-! ## Names -/

/-- The name of a class. -/
def className (u : CompileUnit) (id : ClassId) : String :=
  match u.graph.class? id with
  | some c => u.names.display c.name
  | none => id.display

/-- The class at a position. -/
def get (u : CompileUnit) (id : ClassId) : Except Fault Class :=
  match u.graph.class? id with
  | some c => .ok c
  | none => .error (.unknownClass id.index)

/-- The class of that name. -/
def lookup? (u : CompileUnit) (text : String) : Option ClassId :=
  (u.names.get? text).bind u.graph.lookup?

/-- Whether a set has the attribute of that name; without an answer if there is no such
set or the name was never used. -/
def contains? (u : CompileUnit) (set : Option AttrSet) (text : String) : Option Bool := do
  let set ← set
  let name ← u.names.get? text
  return decide (name ∈ set)

/-- The names of a set in alphabetical order. -/
def sortedNames (u : CompileUnit) (set : Option AttrSet) : List String :=
  (((set.map AttrSet.toList).getD []).map u.names.display).mergeSort fun a b => !decide (b < a)

/-! ## Facts -/

/-- What every instance of a class has, once that is known. -/
def alwaysDefined? (u : CompileUnit) (id : ClassId) : Option AttrSet :=
  (u.facts.get? id).map Facts.alwaysDefined

/-- Whether every instance of a class is known to have the attribute of that name. -/
def isAlwaysDefined (u : CompileUnit) (id : ClassId) (text : String) : Bool :=
  (u.contains? (u.alwaysDefined? id) text).getD false

/-- The facts of one class as the unit stands, without keeping them. -/
def factsOf (u : CompileUnit) (o : Options) (id : ClassId) : Facts :=
  u.graph.factsOf u.facts o id

/-- The summary of a body as the initializer of a class, as the unit stands. -/
def walkBody (u : CompileUnit) (o : Options) (id : ClassId) (body : List Stmt) (entry : State) :
    Summary :=
  u.graph.walkBody u.facts o id body entry

/-- What expressions in the initializer of a class are judged by. -/
def judge (u : CompileUnit) (o : Options) (id : ClassId) : Judge :=
  (u.graph.scope u.facts o id).judge

/-- What a call of a base's initializer in that of `id` runs, as the unit stands. -/
def baseCall (u : CompileUnit) (id : ClassId) (target : SuperTarget) : BaseCall :=
  u.graph.baseCall u.facts id target

/-- Finds the facts of all classes. A unit is analyzed once, and not if a class is its own
ancestor. -/
def analyze (u : CompileUnit) (o : Options) : Except Fault (Report × CompileUnit) :=
  match u.graph.ids.find? fun id => (u.facts.get? id).isSome with
  | some id => .error (.alreadyAnalyzed (u.className id))
  | none =>
    match u.graph.findCycle? with
    | some cycle =>
      let chain := cycle.map u.className
      .error (.cyclicHierarchy (chain.getLast?.getD "") chain)
    | none =>
      let facts := u.graph.analyze o
      let narrowed := if o.narrowBySubclasses then u.graph.narrow facts else ∅
      .ok (u.graph.report facts, { u with facts, narrowed })

/-! ## Storage -/

/-- Whether every instance of a class, or of one that shares its slots, has a value for an
attribute. -/
def guaranteed (u : CompileUnit) (o : Options) (id : ClassId) (attr : Name) : Bool :=
  let set :=
    if o.narrowBySubclasses then (u.narrowed.get? id).or (u.alwaysDefined? id)
    else u.alwaysDefined? id
  set.any (attr ∈ ·)

/-- The layouts of all classes, in the order of declaration. -/
def layouts (u : CompileUnit) (o : Options) : Except Fault (List (ClassId × Layout)) :=
  match u.graph.ids.find? fun id => (u.facts.get? id).isNone with
  | some id => .error (.notAnalyzed (u.className id))
  | none =>
    let planned := u.graph.planLayouts (u.guaranteed o)
    .ok (u.graph.ids.filterMap fun id => (planned.get? id).map (id, ·))

end CompileUnit

end DefiniteInit
