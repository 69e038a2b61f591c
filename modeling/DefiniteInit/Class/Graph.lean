import DefiniteInit.Class.Declaration
import DefiniteInit.Class.Table
import DefiniteInit.Stmt.Assigned

/-!
# The class graph

The classes of a unit with their bases resolved. A base is `inUnit` when the unit
declares it, and every such base is a class of the graph (`Graph.bases_valid`).
`Graph.ofDeclarations` resolves the bases of a list of declarations.
-/

namespace DefiniteInit

/-- A base of a class. -/
inductive Base where
  /-- A class of the unit. -/
  | inUnit (id : ClassId)
  /-- A class from outside. -/
  | foreign (name : Name)
deriving DecidableEq

namespace Base

/-- The class, if it is one of the unit. -/
def inUnit? : Base → Option ClassId
  | .inUnit id => some id
  | .foreign _ => none

/-- Whether the base comes from outside. -/
def isForeign : Base → Bool
  | .inUnit _ => false
  | .foreign _ => true

end Base

/-- A class of the graph. -/
structure Class where
  name : Name
  bases : List Base
  /-- The declared attributes, then those the initializer assigns. -/
  attributes : List Attribute
  properties : List Name
  initializer : Option Initializer
  isTrait : Bool
  openToForeign : Bool
  span : Span

namespace Class

/-- The bases that are classes of the unit. -/
def localBases (c : Class) : List ClassId := c.bases.filterMap Base.inUnit?

/-- Whether some base comes from outside. -/
def hasForeignBase (c : Class) : Bool := c.bases.any Base.isForeign

/-- The attribute of that name, if the class has one. -/
def attribute? (c : Class) (name : Name) : Option Attribute :=
  c.attributes.find? (·.name = name)

end Class

/-- The classes of a unit. -/
structure Graph where
  /-- The classes; a `ClassId` is a position in this list. -/
  classes : List Class
  /-- Every local base is a class of the graph. -/
  bases_valid : ∀ c ∈ classes, ∀ id ∈ c.localBases, id.index < classes.length

namespace Graph

/-- Number of classes. -/
def size (g : Graph) : Nat := g.classes.length

/-- The classes by position. -/
def ids (g : Graph) : List ClassId := (List.range g.size).map ClassId.mk

/-- The class at a position. -/
def class? (g : Graph) (id : ClassId) : Option Class := g.classes[id.index]?

/-- The class of that name. -/
def lookup? (g : Graph) (name : Name) : Option ClassId :=
  (g.classes.findIdx? (·.name = name)).map ClassId.mk

/-- The bases of a class, in the order of the declaration. -/
def bases (g : Graph) (id : ClassId) : List Base := ((g.class? id).map Class.bases).getD []

/-- The bases of a class that are classes of the unit. -/
def localBases (g : Graph) (id : ClassId) : List ClassId :=
  ((g.class? id).map Class.localBases).getD []

/-- The attributes of a class. -/
def attributes (g : Graph) (id : ClassId) : List Attribute :=
  ((g.class? id).map Class.attributes).getD []

/-- Whether a class is a trait. -/
def isTrait (g : Graph) (id : ClassId) : Bool := ((g.class? id).map Class.isTrait).getD false

/-- The classes that name `id` as a base, in ascending order and as often as they do. -/
def subclasses (g : Graph) (id : ClassId) : List ClassId :=
  g.ids.flatMap fun sub => ((g.localBases sub).filter (· = id)).map fun _ => sub

/-- The base whose initializer runs when a class has none: the first that is no trait. -/
def initializerBase? (g : Graph) (id : ClassId) : Option Base :=
  (g.bases id).find? fun
    | .inUnit base => !g.isTrait base
    | .foreign _ => true

/-- The initializer base, if it is a class of the unit. -/
def primaryBase? (g : Graph) (id : ClassId) : Option ClassId :=
  (g.initializerBase? id).bind Base.inUnit?

/-! ## From declarations -/

/-- The declaration of that name. -/
def declared? (decls : List Declaration) (name : Name) : Option ClassId :=
  (decls.findIdx? (·.name = name)).map ClassId.mk

/-- What a declared base refers to. The root class is left out unless the unit declares
a class of that name. -/
def resolveBase? (decls : List Declaration) (base : NamedBase) : Option Base :=
  match if base.foreign then none else declared? decls base.name with
  | some id => some (.inUnit id)
  | none => if base.name = .object then none else some (.foreign base.name)

/-- The attributes of a class: those it declares, then those its initializer assigns. -/
def allAttributes (d : Declaration) : List Attribute :=
  let assigned := (d.initializer.map fun init => (assignedAttrs init.body).toList).getD []
  d.attributes ++
    (assigned.filter fun attr => d.attributes.all (·.name ≠ attr)).map Attribute.plain

/-- The class a declaration stands for, among all the declarations of its unit. -/
def classOf (decls : List Declaration) (d : Declaration) : Class where
  name := d.name
  bases := d.bases.filterMap (resolveBase? decls)
  attributes := allAttributes d
  properties := d.properties
  initializer := d.initializer
  isTrait := d.isTrait
  openToForeign := d.openToForeign
  span := d.span

theorem declared?_lt {decls : List Declaration} {name : Name} {id : ClassId}
    (h : declared? decls name = some id) : id.index < decls.length := by
  obtain ⟨i, hi, rfl⟩ := Option.map_eq_some_iff.1 h
  exact (List.findIdx?_eq_some_iff_getElem.1 hi).1

theorem resolveBase?_lt {decls : List Declaration} {base : NamedBase} {id : ClassId}
    (h : resolveBase? decls base = some (.inUnit id)) : id.index < decls.length := by
  unfold resolveBase? at h
  split at h
  · rename_i id' hid
    obtain rfl : id' = id := by simpa using h
    split at hid
    · simp at hid
    · exact declared?_lt hid
  · split at h <;> simp at h

theorem classOf_localBases_lt {decls : List Declaration} {d : Declaration} {id : ClassId}
    (h : id ∈ (classOf decls d).localBases) : id.index < decls.length := by
  simp only [Class.localBases, classOf, List.mem_filterMap] at h
  obtain ⟨base, ⟨named, -, hres⟩, hloc⟩ := h
  cases base with
  | inUnit id' =>
    obtain rfl : id' = id := by simpa [Base.inUnit?] using hloc
    exact resolveBase?_lt hres
  | foreign _ => simp [Base.inUnit?] at hloc

/-- The graph of a list of declarations. -/
def ofDeclarations (decls : List Declaration) : Graph where
  classes := decls.map (classOf decls)
  bases_valid := by
    intro c hc id hid
    obtain ⟨d, -, rfl⟩ := List.mem_map.1 hc
    simpa using classOf_localBases_lt hid

end Graph

end DefiniteInit
