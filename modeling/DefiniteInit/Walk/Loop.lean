import DefiniteInit.Walk.Trace

/-!
# Loops

A loop is walked from the state at its head until a round leaves that state as it was.
`Loop.settle` does so. The state at the head can only get weaker, and `State.slack` counts
how often, so the rounds come to an end (`Loop.slack_next_lt`). The exits of the last round
are those that count, while an escape or a deletion in any round counts.
-/

namespace DefiniteInit

/-- A loop, by what one round of it does. -/
structure Loop where
  /-- The verdict on the test at the head. -/
  test : State → Verdict
  /-- The body, with the binding of the loop variable before it. -/
  body : State → Outcome

/-- One round of a loop. -/
structure Round where
  /-- The state after the test. -/
  tested : State
  /-- What the test did. -/
  testing : Trace
  /-- What the body did from there. -/
  body : Outcome

namespace Round

/-- The state at the head before the next round: the loop may end now, run to the end of
its body or go on from within it. -/
def next (r : Round) : State :=
  r.tested.mergePath (mergePaths r.body.next r.body.trace.jumps.continued)

/-- What happened during the round. Its jumps stay inside the loop. -/
def trace (r : Round) : Trace := r.testing ++ r.body.trace.withoutJumps

end Round

/-- What a loop comes to once its head has settled. -/
structure Settled where
  /-- The state in which the test fails. -/
  tested : State
  /-- The paths that leave the loop early. -/
  broken : Option State
  /-- What happened during all rounds. -/
  trace : Trace

namespace Loop

/-- The round from a state at the head. -/
def round (l : Loop) (head : State) : Round :=
  let verdict := l.test head
  let tested := head.check verdict
  ⟨tested, .ofVerdict verdict head, l.body tested⟩

/-- A round that changes the state at the head makes it weaker. -/
theorem slack_next_lt {l : Loop} {head : State} (h : ¬(l.round head).next.same head = true) :
    (l.round head).next.slack < head.slack := by
  have hnext := (l.round head).tested.slack_mergePath_le
    (mergePaths (l.round head).body.next (l.round head).body.trace.jumps.continued)
  have htest := head.slack_check_le (l.test head)
  rcases Nat.lt_or_ge (l.round head).next.slack head.slack with hlt | hge
  · exact hlt
  · have ht : (l.round head).tested = head :=
      State.check_eq_self_of_slack_le (Nat.le_trans hge hnext)
    have hn : (l.round head).next = (l.round head).tested :=
      State.mergePath_eq_self_of_slack_le (Nat.le_trans htest hge)
    rw [hn, ht] at h
    exact absurd head.same_refl h

/-- Walks round after round until the state at the head stays as it is. -/
def settle (l : Loop) (head : State) : Settled :=
  let round := l.round head
  if round.next.same head then ⟨round.tested, round.body.trace.jumps.broken, round.trace⟩
  else
    let later := l.settle round.next
    { later with trace := round.trace.withoutExits ++ later.trace }
termination_by head.slack
decreasing_by exact slack_next_lt ‹_›

/-- The walk of a whole loop. Where the test fails the `else` block runs, unless the test
is sure not to fail; a path that leaves the loop early passes that block by. -/
def walk (l : Loop) (infinite : Bool) (orelse : State → Outcome) (entry : State) : Outcome :=
  let settled := l.settle entry
  let completed := if infinite then .stop ∅ else orelse settled.tested
  ⟨mergePaths completed.next settled.broken, settled.trace ++ completed.trace⟩

end Loop

end DefiniteInit
