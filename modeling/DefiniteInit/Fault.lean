/-!
# Faults

Why a request on a compile unit is refused. Classes are given by name, so a fault can be
shown without the unit at hand.
-/

namespace DefiniteInit

/-- Why a request is refused. -/
inductive Fault where
  /-- A class is its own ancestor; `chain` leads from it back to it. -/
  | cyclicHierarchy (cls : String) (chain : List String)
  /-- Two classes have one name. -/
  | duplicateClass (name : String)
  /-- The unit has its facts already. -/
  | alreadyAnalyzed (cls : String)
  /-- There are more classes than positions for them. -/
  | tooManyClasses (count : Nat)
  /-- There is no class at the position. -/
  | unknownClass (index : Nat)
  /-- The class has no facts yet. -/
  | notAnalyzed (cls : String)
deriving DecidableEq

/-- The fault in words. -/
def Fault.message : Fault → String
  | .cyclicHierarchy cls chain =>
    "Cyclic class hierarchy at " ++ cls ++ ": " ++ " -> ".intercalate chain
  | .duplicateClass name => "Duplicate class definition: " ++ name
  | .alreadyAnalyzed cls => "Class already analyzed: " ++ cls
  | .tooManyClasses count => "Too many classes in one unit: " ++ toString count
  | .unknownClass index => "Unknown class index: " ++ toString index
  | .notAnalyzed cls => "Class not analyzed yet: " ++ cls

end DefiniteInit
