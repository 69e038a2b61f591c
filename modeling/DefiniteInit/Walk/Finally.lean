import DefiniteInit.Walk.Trace

/-!
# The last block of a `try` statement

A `finally` block runs on every path that leaves the region it guards: those that return,
those that jump out of a round of the enclosing loop, and the one that runs through.
`Outcome.closeWith` sends each of them through the block. A return or a jump the block
itself makes while a return passes through it replaces that return; a jump it makes then
is one of the region's, and passes through the block as those do.
-/

namespace DefiniteInit

namespace Outcome

/-- Sends a return through the block. -/
def exitThrough (block : State → Outcome) (e : Exit) : Trace :=
  let o := block e.state
  match o.next with
  | none => o.trace
  | some s => o.trace ++ .ofExit { e with state := s }

/-- Sends several returns through the block, one after the other. -/
def exitsThrough (block : State → Outcome) (exits : List Exit) : Trace :=
  exits.foldl (fun t e => t ++ exitThrough block e) ∅

/-- Sends the jumps of a region through the block. The jumps the block itself makes on
the way come first. -/
def jumpsThrough (block : State → Outcome) (jumps : Jumps) : Trace :=
  let broken := onPath block jumps.broken
  let continued := onPath block jumps.continued
  let t := broken.trace ++ continued.trace
  { t with leading := t.jumps, trailing := ⟨broken.next, continued.next⟩ }

/-- The outcome of a region whose last block is `block`. -/
def closeWith (region : Outcome) (block : State → Outcome) : Outcome :=
  let exits := exitsThrough block region.trace.exits
  let jumps := jumpsThrough block (region.trace ++ exits).jumps
  let through := onPath block region.next
  ⟨through.next,
    region.trace.withoutExits.withoutJumps ++ exits.withoutJumps ++ jumps ++ through.trace⟩

end Outcome

end DefiniteInit
