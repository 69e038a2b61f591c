import DefiniteInit.Document.Basic

/-!
# Options of the analysis

What can be chosen about a run. Options are read from a document (`ofDocument?`), which
names them or lists them in their fixed order and may leave some out, and are printed as
one (`render`).
-/

namespace DefiniteInit

/-- Options of the analysis. -/
structure Options where
  /-- Work on the classes of one wave in parallel. -/
  parallel : Bool
  /-- The least number of classes worth doing so for. -/
  parallelThreshold : Nat
  /-- Keep for each class only what its subclasses keep too. -/
  narrowBySubclasses : Bool
  /-- Take a read of a module-level variable for an escape. -/
  strictMutableGlobals : Bool
  /-- Keep the place of the first escape of each initializer. -/
  recordEscapeSites : Bool
deriving DecidableEq

namespace Options

/-- The options of a run for which nothing is chosen. -/
def default : Options where
  parallel := false
  parallelThreshold := 64
  narrowBySubclasses := true
  strictMutableGlobals := false
  recordEscapeSites := true

instance : Inhabited Options := ⟨default⟩

/-- One class after the other, and no record of escapes. -/
def sequential : Options := { default with parallel := false, recordEscapeSites := false }

/-- Parallel waves for large units. -/
def parallelWaves : Options := { default with parallel := true, parallelThreshold := 16 }

/-- The options that have a name. -/
def preset? : String → Option Options
  | "default" | "new" => some default
  | "sequential" => some sequential
  | "parallel" => some parallelWaves
  | _ => none

/-- Whether a wave of `n` classes is worked on in parallel. -/
def usesPoolFor (o : Options) (n : Nat) : Bool := o.parallel && n ≥ max o.parallelThreshold 1

/-! ## Reading -/

/-- A count that fits a machine word. -/
def wordCount? (d : Document) : Option Nat :=
  d.count?.bind fun n => if n < UInt64.size then some n else none

/-- Reads one option; one that is left out has its default. -/
def readOr {α : Type} (read : Document → Option α) (fallback : α) : Option Document → Option α
  | none => some fallback
  | some d => read d

/-- The options given by five values in their fixed order, any of which may be left out. -/
def ofValues? (parallel threshold narrow strict record : Option Document) : Option Options := do
  let parallel ← readOr Document.flag? default.parallel parallel
  let parallelThreshold ← readOr wordCount? default.parallelThreshold threshold
  let narrowBySubclasses ← readOr Document.flag? default.narrowBySubclasses narrow
  let strictMutableGlobals ← readOr Document.flag? default.strictMutableGlobals strict
  let recordEscapeSites ← readOr Document.flag? default.recordEscapeSites record
  return { parallel, parallelThreshold, narrowBySubclasses, strictMutableGlobals,
           recordEscapeSites }

/-- The options a document gives by name or by position. Names that mean nothing are
passed over, positions that mean nothing are refused. -/
def ofDocument? : Document → Option Options
  | .record fields =>
    ofValues? (fields.lookup "parallel") (fields.lookup "parallel_threshold")
      (fields.lookup "narrow_by_subclasses") (fields.lookup "strict_mutable_globals")
      (fields.lookup "record_escape_sites")
  | .list items =>
    if items.length ≤ 5 then ofValues? items[0]? items[1]? items[2]? items[3]? items[4]?
    else none
  | _ => none

/-! ## Printing -/

/-- The options by name, in their fixed order, each with its text. -/
def fields (o : Options) : List (String × String) :=
  let flag (b : Bool) := if b then "true" else "false"
  [("parallel", flag o.parallel),
   ("parallel_threshold", toString o.parallelThreshold),
   ("narrow_by_subclasses", flag o.narrowBySubclasses),
   ("strict_mutable_globals", flag o.strictMutableGlobals),
   ("record_escape_sites", flag o.recordEscapeSites)]

/-- The options as one line of text. -/
def render (o : Options) : String :=
  "\x7b" ++ ",".intercalate (o.fields.map fun (name, value) => "\"" ++ name ++ "\":" ++ value) ++
    "\x7d"

end Options

end DefiniteInit
