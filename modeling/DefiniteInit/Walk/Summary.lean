import DefiniteInit.Walk.Trace

/-!
# Summary of an initializer

What holds at the end of an initializer: what holds wherever it completes, and wherever
the receiver escaped before, since whoever got hold of it there may look at any time.
-/

namespace DefiniteInit

/-- What an initializer comes to. -/
structure Summary where
  /-- Attributes surely assigned. -/
  defined : AttrSet
  /-- Whether the receiver may have escaped. -/
  escaped : Bool
  /-- Number of places where it completes. -/
  exits : Nat
  /-- The first escape. -/
  firstEscape : Option EscapeSite
deriving DecidableEq

namespace Summary

/-- The summary over the states at the exits and at the escapes. An initializer that never
completes assigns nothing for sure. -/
def ofStates (exits escapes : List State) (firstEscape : Option EscapeSite) : Summary where
  defined :=
    match exits with
    | [] => ∅
    | first :: rest => ((rest ++ escapes).foldl State.merge first).defined
  escaped := !escapes.isEmpty || exits.any (·.escaped)
  exits := exits.length
  firstEscape := firstEscape

/-- The summary of the walk of a whole body. -/
def ofOutcome (o : Outcome) (recordSites : Bool) : Summary :=
  ofStates (o.exits.map (·.state)) (o.trace.escapes.map (·.state))
    (if recordSites then o.trace.escapes.head?.map (·.site) else none)

end Summary

end DefiniteInit
