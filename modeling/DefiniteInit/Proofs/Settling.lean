import DefiniteInit.Walk.Loop

/-!
# The head of a loop at rest

Walking round after round, a loop comes to a state at its head that one more round leaves
as it is (`Loop.rest`, `Loop.same_next_rest`). What the whole walk says of the loop is what
that last round says, and no earlier one: it ends as that round does
(`Loop.tested_settle`, `Loop.broken_settle`, `Loop.exits_settle`), and only escapes and
deletions of earlier rounds are added.
-/

namespace DefiniteInit

namespace State

/-- Where a path joins, no more is assigned. -/
theorem mem_defined_of_mergePath {s : State} {p : Option State} {a : Name}
    (h : a ∈ (s.mergePath p).defined) : a ∈ s.defined := by
  cases p with
  | none => exact h
  | some t => exact (AttrSet.mem_inter.1 h).1

/-- States that are the same for a loop have the same attributes. -/
theorem mem_defined_iff_of_same {s t : State} (h : s.same t = true) (a : Name) :
    a ∈ s.defined ↔ a ∈ t.defined := by
  rw [same, Bool.and_eq_true] at h
  exact AttrSet.sameMembers_eq_true.1 h.1 a

end State

namespace Trace

@[simp]
theorem exits_append (t u : Trace) : (t ++ u).exits = t.exits ++ u.exits := rfl

@[simp]
theorem escapes_append (t u : Trace) : (t ++ u).escapes = t.escapes ++ u.escapes := rfl

@[simp]
theorem deletions_append (t u : Trace) : (t ++ u).deletions = t.deletions ++ u.deletions := rfl

end Trace

namespace Loop

/-- The state at the head that a round leaves as it is. -/
def rest (l : Loop) (head : State) : State :=
  if (l.round head).next.same head then head else l.rest (l.round head).next
termination_by head.slack
decreasing_by exact slack_next_lt ‹_›

/-- The round from the state at rest. -/
def lastRound (l : Loop) (head : State) : Round := l.round (l.rest head)

variable (l : Loop)

/-- What holds of the head when a round leaves it as it is, and passes from the state after
a round to the state before, holds of every head. -/
theorem settle_induction {P : State → Prop}
    (done : ∀ head, (l.round head).next.same head = true → P head)
    (again : ∀ head, ¬(l.round head).next.same head = true → P (l.round head).next → P head)
    (head : State) : P head := by
  by_cases h : (l.round head).next.same head = true
  · exact done head h
  · exact again head h (settle_induction done again (l.round head).next)
termination_by head.slack
decreasing_by exact slack_next_lt h

theorem rest_of_same {head : State} (h : (l.round head).next.same head = true) :
    l.rest head = head := by rw [rest, if_pos h]

theorem rest_of_not_same {head : State} (h : ¬(l.round head).next.same head = true) :
    l.rest head = l.rest (l.round head).next := by rw [rest, if_neg h]

/-- A round that leaves its head as it is is the last. -/
theorem settle_of_same {head : State} (h : (l.round head).next.same head = true) :
    l.settle head = ⟨(l.round head).tested, (l.round head).body.trace.jumps.broken,
      (l.round head).trace⟩ := by
  rw [settle]
  exact if_pos h

/-- Any other round leaves its trace, without its exits, and makes way for the next. -/
theorem settle_of_not_same {head : State} (h : ¬(l.round head).next.same head = true) :
    l.settle head = { l.settle (l.round head).next with
      trace := (l.round head).trace.withoutExits ++ (l.settle (l.round head).next).trace } := by
  rw [settle]
  exact if_neg h

/-- One more round leaves the state at rest as it is. -/
theorem same_next_rest (head : State) : (l.lastRound head).next.same (l.rest head) = true := by
  unfold lastRound
  induction head using l.settle_induction with
  | done head h => rwa [rest_of_same l h]
  | again head h ih => rwa [rest_of_not_same l h]

/-- The rounds only take away what is known at the head. -/
theorem mem_defined_of_rest {head : State} {a : Name} (h : a ∈ (l.rest head).defined) :
    a ∈ head.defined := by
  induction head using l.settle_induction with
  | done head hs => rwa [rest_of_same l hs] at h
  | again head hs ih =>
    rw [rest_of_not_same l hs] at h
    have hnext := State.mem_defined_of_mergePath (ih h)
    rwa [round, State.defined_check] at hnext

/-- The state after the test is that of the last round. -/
theorem tested_settle (head : State) : (l.settle head).tested = (l.lastRound head).tested := by
  unfold lastRound
  induction head using l.settle_induction with
  | done head h => rw [rest_of_same l h, settle_of_same l h]
  | again head h ih => rw [rest_of_not_same l h, settle_of_not_same l h, ← ih]

theorem broken_settle (head : State) :
    (l.settle head).broken = (l.lastRound head).body.trace.jumps.broken := by
  unfold lastRound
  induction head using l.settle_induction with
  | done head h => rw [rest_of_same l h, settle_of_same l h]
  | again head h ih => rw [rest_of_not_same l h, settle_of_not_same l h, ← ih]

/-- The returns of a loop are those of its last round. -/
theorem exits_settle (head : State) :
    (l.settle head).trace.exits = (l.lastRound head).trace.exits := by
  unfold lastRound
  induction head using l.settle_induction with
  | done head h => rw [rest_of_same l h, settle_of_same l h]
  | again head h ih =>
    rw [rest_of_not_same l h, settle_of_not_same l h, ← ih, Trace.exits_append]
    rfl

/-- The deletions of the last round are among those of the loop. -/
theorem mem_deletions_settle {head : State} {a : Name}
    (ha : a ∈ (l.lastRound head).trace.deletions) : a ∈ (l.settle head).trace.deletions := by
  unfold lastRound at ha
  induction head using l.settle_induction with
  | done head h =>
    rw [rest_of_same l h] at ha
    rwa [settle_of_same l h]
  | again head h ih =>
    rw [rest_of_not_same l h] at ha
    rw [settle_of_not_same l h, Trace.deletions_append]
    exact List.mem_append_right _ (ih ha)

end Loop

end DefiniteInit
