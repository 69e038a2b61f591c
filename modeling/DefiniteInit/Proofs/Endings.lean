import DefiniteInit.Proofs.RunLaws
import DefiniteInit.Proofs.Settling

/-!
# States in which a walk knows that code is left

A walk has a state for each way to leave the code that it knows: where the path runs
through, at every return, and where it jumps out of a round of a loop. `Outcome.EndsIn o P f`
says that there is such a state with the property `P` for code left in the way `f`. A property
that passes to weaker states (`Lasts`) is not lost where paths are merged, so it is not
lost when walks are put together: one after the other, side by side, in a loop and under
a manager.
-/

namespace DefiniteInit

variable {σ : Set Name} {s : State} {r : Ending}

/-! ## Weaker states -/

/-- The state says no more than `s`, and that the receiver has escaped if `s` does. -/
structure State.Weakens (t s : State) : Prop where
  defined : ∀ a ∈ t.defined, a ∈ s.defined
  escaped : s.escaped = true → t.escaped = true

/-- Passes to weaker states. -/
def Lasts (P : State → Prop) : Prop := ∀ s t, t.Weakens s → P s → P t

/-- A path has not ended, and its state has the property. -/
def On (P : State → Prop) (p : Option State) : Prop := ∃ s, p = some s ∧ P s

/-- The attribute is surely assigned on the path, unless the path has ended. -/
def Surely (p : Option State) (a : Name) : Prop := ∀ s, p = some s → a ∈ s.defined

@[simp]
theorem surely_some {a : Name} : Surely (some s) a ↔ a ∈ s.defined := by simp [Surely]

/-- Where paths meet, what is sure is what is sure on both. -/
@[simp]
theorem surely_mergePaths {p q : Option State} {a : Name} :
    Surely (mergePaths p q) a ↔ Surely p a ∧ Surely q a := by
  cases p with
  | none => simp [Surely]
  | some s =>
    cases q with
    | none => simp [Surely]
    | some t => simp [mergePaths, State.mergePath, State.merge]

@[simp]
theorem isSome_mergePaths (p q : Option State) :
    (mergePaths p q).isSome = (p.isSome || q.isSome) := by cases p <;> rfl

/-- Where paths meet, an escape on either counts. -/
@[simp]
theorem any_escaped_mergePaths (p q : Option State) :
    (mergePaths p q).any State.escaped = (p.any State.escaped || q.any State.escaped) := by
  cases p with
  | none => rfl
  | some s =>
    cases q with
    | none => simp
    | some t => rfl

/-- What the path `q` knows is what `p` knows, or less: it is `p` merged with others. -/
structure Fades (p q : Option State) : Prop where
  isSome : p.isSome = true → q.isSome = true
  defined : ∀ a, Surely q a → Surely p a
  escaped : p.any State.escaped = true → q.any State.escaped = true

namespace Fades

variable {p p' q q' : Option State}

/-- A path that meets another fades. -/
theorem merge_left (p q : Option State) : Fades p (mergePaths p q) :=
  ⟨by simp +contextual, by simp +contextual, by simp +contextual⟩

theorem merge_right (p q : Option State) : Fades q (mergePaths p q) :=
  ⟨by simp +contextual, by simp +contextual, by simp +contextual⟩

/-- What fades once more has faded. -/
theorem trans (h : Fades p q) (h' : Fades q q') : Fades p q' :=
  ⟨fun hp => h'.isSome (h.isSome hp), fun a ha => h.defined a (h'.defined a ha),
    fun hp => h'.escaped (h.escaped hp)⟩

/-- Where fading paths meet, the path fades. -/
theorem mergePaths (hp : Fades p p') (hq : Fades q q') :
    Fades (mergePaths p q) (mergePaths p' q') where
  isSome h := by
    simp only [isSome_mergePaths, Bool.or_eq_true] at h ⊢
    exact h.imp hp.isSome hq.isSome
  defined a h := by
    rw [surely_mergePaths] at h ⊢
    exact ⟨hp.defined a h.1, hq.defined a h.2⟩
  escaped h := by
    simp only [any_escaped_mergePaths, Bool.or_eq_true] at h ⊢
    exact h.imp hp.escaped hq.escaped

end Fades

theorem On.imp {P Q : State → Prop} {p : Option State} (h : On P p) (hPQ : ∀ s, P s → Q s) :
    On Q p := by
  obtain ⟨s, hp, hs⟩ := h
  exact ⟨s, hp, hPQ s hs⟩

/-- A property that weaker states keep holds of a path that is merged with others. -/
theorem On.fade {P : State → Prop} (hP : Lasts P) {p q : Option State} (h : On P p)
    (hq : Fades p q) : On P q := by
  obtain ⟨s, rfl, hs⟩ := h
  obtain ⟨t, rfl⟩ := Option.isSome_iff_exists.1 (hq.isSome rfl)
  refine ⟨t, rfl, hP s t ⟨fun a ha => ?_, hq.escaped⟩ hs⟩
  exact surely_some.1 (hq.defined a (surely_some.2 ha))

/-! ## Ways to leave -/

/-- Whether the code is left for the head or the end of the enclosing loop. -/
def Flow.isJump : Flow → Bool
  | .broke | .continued => true
  | _ => false

/-- The paths that jump in this way. -/
def Jumps.on (j : Jumps) : Flow → Option State
  | .broke => j.broken
  | .continued => j.continued
  | _ => .none

/-- For code left by a return or a jump in this way, the trace has a state with the
property. -/
structure Trace.EndsIn (t : Trace) (P : State → Prop) (f : Flow) : Prop where
  returned : f = .returned → ∃ e ∈ t.exits, P e.state
  jumped : f.isJump = true → On P (t.jumps.on f)

/-- For code left in this way, unless by an exception, the outcome has a state with the
property. -/
structure Outcome.EndsIn (o : Outcome) (P : State → Prop) (f : Flow) : Prop where
  next : f = .next → On P o.next
  trace : o.trace.EndsIn P f

/-- Jumps of one kind merge with those of the same kind. -/
theorem Jumps.on_merge (j k : Jumps) (f : Flow) :
    (j.merge k).on f = mergePaths (j.on f) (k.on f) := by
  cases f <;> rfl

namespace Trace

/-- The jumps of two traces are merged from the inside out. -/
theorem on_jumps_append (t u : Trace) (f : Flow) : (t ++ u).jumps.on f = mergePaths
    (mergePaths (u.leading.on f) (t.leading.on f))
    (mergePaths (t.trailing.on f) (u.trailing.on f)) := by
  cases f <;> rfl

/-- Jumps fade when more of the walk is added. -/
theorem fades_append_left (t u : Trace) (f : Flow) :
    Fades (t.jumps.on f) ((t ++ u).jumps.on f) := by
  rw [on_jumps_append, jumps, Jumps.on_merge]
  exact .mergePaths (.merge_right _ _) (.merge_left _ _)

theorem fades_append_right (t u : Trace) (f : Flow) :
    Fades (u.jumps.on f) ((t ++ u).jumps.on f) := by
  rw [on_jumps_append, jumps, Jumps.on_merge]
  exact .mergePaths (.merge_left _ _) (.merge_right _ _)

end Trace

namespace Trace.EndsIn

variable {t u : Trace} {P : State → Prop} {f : Flow}

/-- Nothing is asked of a run that goes on, raises or does not end. -/
theorem of_plain (hf : f.isPlain = true) : t.EndsIn P f := by
  cases f with
  | next | raised | unfinished => exact ⟨nofun, nofun⟩
  | returned | broke | continued => simp [Flow.isPlain] at hf

theorem broke (h : t.EndsIn P f) (hf : f = .broke) : On P t.jumps.broken := by
  subst hf
  exact h.jumped rfl

theorem continued (h : t.EndsIn P f) (hf : f = .continued) : On P t.jumps.continued := by
  subst hf
  exact h.jumped rfl

theorem imp {Q : State → Prop} (h : t.EndsIn P f) (hPQ : ∀ s, P s → Q s) : t.EndsIn Q f where
  returned hf := by
    obtain ⟨e, he, hs⟩ := h.returned hf
    exact ⟨e, he, hPQ _ hs⟩
  jumped hf := (h.jumped hf).imp hPQ

/-- How a run ends is seen in a longer trace too. -/
theorem append_left (h : t.EndsIn P f) (hP : Lasts P) (u : Trace) : (t ++ u).EndsIn P f where
  returned hf := by
    obtain ⟨e, he, hs⟩ := h.returned hf
    exact ⟨e, List.mem_append_left _ he, hs⟩
  jumped hf := (h.jumped hf).fade hP (t.fades_append_left u f)

theorem append_right (h : u.EndsIn P f) (hP : Lasts P) (t : Trace) : (t ++ u).EndsIn P f where
  returned hf := by
    obtain ⟨e, he, hs⟩ := h.returned hf
    exact ⟨e, List.mem_append_right _ he, hs⟩
  jumped hf := (h.jumped hf).fade hP (t.fades_append_right u f)

end Trace.EndsIn

namespace Outcome

variable {o p : Outcome} {w : State → Outcome} {P : State → Prop} {f : Flow}

theorem andThen_of_none (h : o.next = none) : o.andThen w = o := by rw [andThen, h]

theorem andThen_of_some (h : o.next = some s) :
    o.andThen w = ⟨(w s).next, o.trace ++ (w s).trace⟩ := by rw [andThen, h]

/-- A deletion stays noted in what follows. -/
theorem mem_deletions_andThen {a : Name} (h : a ∈ o.trace.deletions) :
    a ∈ (o.andThen w).trace.deletions := by
  cases ho : o.next with
  | none => rwa [andThen_of_none ho]
  | some s =>
    rw [andThen_of_some ho]
    exact List.mem_append_left _ h

theorem EndsIn.imp {Q : State → Prop} (h : o.EndsIn P f) (hPQ : ∀ s, P s → Q s) : o.EndsIn Q f :=
  ⟨fun hf => (h.next hf).imp hPQ, h.trace.imp hPQ⟩

/-- What is known of code left early is known where it is left. -/
theorem EndsIn.andThen_of_ne_next (h : o.EndsIn P f) (hP : Lasts P) (hf : f ≠ .next)
    (w : State → Outcome) : (o.andThen w).EndsIn P f := by
  cases ho : o.next with
  | none => rwa [andThen_of_none ho]
  | some s =>
    rw [andThen_of_some ho]
    exact ⟨fun h => absurd h hf, h.trace.append_left hP _⟩

/-- If a walk goes on, the run ends as what follows it does. -/
theorem EndsIn.andThen (ho : o.next = some s) (hw : (w s).EndsIn P f) (hP : Lasts P) :
    (o.andThen w).EndsIn P f := by
  rw [andThen_of_some ho]
  exact ⟨hw.next, hw.trace.append_right hP _⟩

/-- A run of one branch ends as the statement does. -/
theorem EndsIn.either_left (h : o.EndsIn P f) (hP : Lasts P) (p : Outcome) :
    (o.either p).EndsIn P f :=
  ⟨fun hf => (h.next hf).fade hP (.merge_left _ _), h.trace.append_left hP _⟩

theorem EndsIn.either_right (h : p.EndsIn P f) (hP : Lasts P) (o : Outcome) :
    (o.either p).EndsIn P f :=
  ⟨fun hf => (h.next hf).fade hP (.merge_right _ _), h.trace.append_right hP _⟩

end Outcome

/-! ## Loops -/

/-- How the code around a loop is left when its body is left in this way. -/
def Flow.outOfLoop : Flow → Flow
  | .broke => .next
  | f => f

/-- After the body of a loop there is another round, or the loop is left. -/
theorem Behaviour.nextRound_cases {again : Behaviour} {f : Flow} (h : nextRound again f σ r) :
    (f = .next ∨ f = .continued) ∧ again σ r ∨
      f ≠ .next ∧ f ≠ .continued ∧ r = ⟨f.outOfLoop, [], σ⟩ := by
  cases f with
  | next => exact Or.inl ⟨Or.inl rfl, h⟩
  | continued => exact Or.inl ⟨Or.inr rfl, h⟩
  | returned | broke | raised | unfinished => exact Or.inr ⟨nofun, nofun, h⟩

namespace Loop

variable {l : Loop} {orelse : State → Outcome} {endless : Bool} {P : State → Prop} {f : Flow}

/-- At rest the head says of an escape what the last round leaves. -/
theorem escaped_rest : (l.rest s).escaped = (l.lastRound s).next.escaped := by
  have hsame := l.same_next_rest s
  rw [State.same, Bool.and_eq_true, beq_iff_eq] at hsame
  exact hsame.2.symm

/-- The state at rest is the state after the test, merged with wherever the last round goes
on to another. -/
theorem fades_rest : Fades (mergePaths (some (l.lastRound s).tested)
    (mergePaths (l.lastRound s).body.next (l.lastRound s).body.trace.jumps.continued))
    (some (l.rest s)) where
  isSome _ := rfl
  defined a ha := by
    rw [surely_some, ← State.mem_defined_iff_of_same (l.same_next_rest s)] at ha
    exact surely_some.2 ha
  escaped h := by
    simp only [Option.any_some]
    rw [escaped_rest]
    exact h

/-- A body that goes on to another round leads back to the state at rest. -/
theorem rest_of_endsIn (hP : Lasts P) (h : (l.lastRound s).body.EndsIn P f)
    (hf : f = .next ∨ f = .continued) : P (l.rest s) := by
  have hmerged : On P (mergePaths (l.lastRound s).body.next
      (l.lastRound s).body.trace.jumps.continued) := by
    rcases hf with hf | hf
    · exact (h.next hf).fade hP (.merge_left _ _)
    · exact (h.trace.continued hf).fade hP (.merge_right _ _)
  obtain ⟨t, ht, hPt⟩ := hmerged.fade hP ((Fades.merge_right _ _).trans fades_rest)
  rwa [Option.some.inj ht]

/-- A loop that is not left early ends as its `else` block. -/
theorem endsIn_walk_of_else (hP : Lasts P) (h : (orelse (l.lastRound s).tested).EndsIn P f) :
    (l.walk false orelse s).EndsIn P f := by
  rw [← l.tested_settle] at h
  exact ⟨fun hf => (h.next hf).fade hP (.merge_left _ _), h.trace.append_right hP _⟩

/-- The returns of the last round are returns of the loop. -/
theorem mem_exits_walk {e : Exit} (h : e ∈ (l.lastRound s).body.trace.exits) :
    e ∈ (l.walk endless orelse s).trace.exits := by
  have hlast : e ∈ (l.lastRound s).trace.exits := List.mem_append_right _ h
  rw [← l.exits_settle] at hlast
  exact List.mem_append_left _ hlast

/-- A body that leaves the loop leaves it as the last round does. -/
theorem endsIn_walk_of_leave (hP : Lasts P) (h : (l.lastRound s).body.EndsIn P f) (hn : f ≠ .next)
    (hc : f ≠ .continued) : (l.walk endless orelse s).EndsIn P f.outOfLoop := by
  cases f with
  | next => exact absurd rfl hn
  | continued => exact absurd rfl hc
  | broke =>
    have hbroken := h.trace.broke rfl
    rw [← l.broken_settle] at hbroken
    exact ⟨fun _ => hbroken.fade hP (.merge_right _ _), .of_plain rfl⟩
  | returned =>
    obtain ⟨e, he, hs⟩ := h.trace.returned rfl
    exact ⟨nofun, fun _ => ⟨e, mem_exits_walk he, hs⟩, nofun⟩
  | raised | unfinished => exact ⟨nofun, .of_plain rfl⟩

end Loop

/-! ## Managers -/

/-- Leaving a manager changes nothing of what is known, unless it swallows an exception. -/
theorem Outcome.EndsIn.leaving {o : Outcome} {P : State → Prop} {f : Flow} (h : o.EndsIn P f)
    (hr : Behaviour.leaving f σ r) (hswallowed : f = .raised → On P o.next) :
    o.EndsIn P r.flow := by
  obtain ⟨-, -, hf | hf | hf | ⟨hraised, hf⟩⟩ := Behaviour.leaving_cases hr
  · rwa [hf]
  · exact ⟨by simp [hf], .of_plain (by rw [hf]; rfl)⟩
  · exact ⟨by simp [hf], .of_plain (by rw [hf]; rfl)⟩
  · exact ⟨fun _ => hswallowed hraised, .of_plain (by rw [hf]; rfl)⟩

end DefiniteInit
