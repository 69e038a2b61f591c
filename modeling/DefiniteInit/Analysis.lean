import DefiniteInit.Class.Waves
import DefiniteInit.Facts.OfClass

/-!
# The analysis of a whole unit

`Graph.analyze` computes the facts of all classes, wave by wave, so that the facts of the
bases are there when a class is looked at. `Graph.narrow` goes the other way: it keeps for
each class what its subclasses keep too, which is what holds of every object whose class
is known only to derive from it.
-/

namespace DefiniteInit

/-- An account of a finished analysis. -/
structure Report where
  /-- The classes in the order in which they were looked at. -/
  order : List ClassId
  /-- Number of waves. -/
  waves : Nat
  /-- Number of classes whose initializer was walked. -/
  analyzed : Nat
  /-- Number of classes without an initializer. -/
  inherited : Nat
  /-- Number of classes passed over. -/
  seeded : Nat
  /-- Number of traits. -/
  traits : Nat
  /-- Number of classes whose receiver may escape. -/
  compromised : Nat
deriving DecidableEq

namespace Graph

/-- Adds the facts of the classes of one wave, which do not depend on each other. -/
def analyzeWave (g : Graph) (o : Options) (known : ClassTable Facts) (wave : List ClassId) :
    ClassTable Facts :=
  known.insertAll (wave.map fun id => (id, g.factsOf known o id))

/-- The facts of all classes. -/
def analyze (g : Graph) (o : Options) : ClassTable Facts :=
  g.waves.foldl (g.analyzeWave o) ∅

/-- What a class and, as far as they are known, its subclasses define. -/
def narrowedBy (g : Graph) (known : ClassTable Facts) (narrowed : ClassTable AttrSet)
    (id : ClassId) : AttrSet :=
  (g.subclasses id).foldl
    (fun set sub => set ∩ (narrowed.get? sub).getD ∅)
    (((known.get? id).map Facts.alwaysDefined).getD ∅)

/-- What each class and all classes below it define, the lowest classes first. -/
def narrow (g : Graph) (known : ClassTable Facts) : ClassTable AttrSet :=
  g.waves.reverse.flatten.foldl (fun t id => t.insert id (g.narrowedBy known t id)) ∅

/-- The account of an analysis that found these facts. -/
def report (g : Graph) (known : ClassTable Facts) : Report :=
  let waves := g.waves
  let facts := waves.flatten.filterMap known.get?
  { order := waves.flatten
    waves := waves.length
    analyzed := facts.countP fun f => f.origin matches .analyzed
    inherited := facts.countP fun f => f.origin matches .inherited _ | .defaultsOnly
    seeded := facts.countP fun f => f.origin matches .seeded _
    traits := facts.countP fun f => f.origin matches .trait
    compromised := facts.countP (·.compromised) }

end Graph

end DefiniteInit
