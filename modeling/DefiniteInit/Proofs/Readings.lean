import DefiniteInit.Proofs.RunLaws

/-!
# Ways to read runs

A reading makes of each behaviour another, leaves the smallest behaviours as they are and
passes through all ways to put them together (`Behaviour.Reading`). Only what it makes of an
exception that enters a `finally` block is left open. A law of behaviours is one of what a
reading makes of them (`Behaviour.Reading.law`).

To leave everything as it is is a reading. So is to leave out of the logs that an exception
enters a `finally` block (`Behaviour.hushed`, `Behaviour.reading_hushed`). In hushed runs the
block is run however the code before it is left (`Behaviour.closing`).
-/

namespace DefiniteInit

namespace Behaviour

variable {b c : Behaviour} {P : Behaviour → Prop} {h : Behaviour → Behaviour}

/-- Passes through all ways to put behaviours together. -/
structure Reading (h : Behaviour → Behaviour) : Prop where
  /-- Where nothing is logged nothing is read. -/
  quiet : ∀ {b : Behaviour}, (∀ σ r, b σ r → r.log = []) → h b = b
  evaluating : ∀ hands, h (evaluating hands) = evaluating hands
  handsOver : h (emit .handsOver) = emit .handsOver
  unbinds : h (emit .unbinds) = emit .unbinds
  removes : ∀ attr, h (removes attr) = removes attr
  bind : ∀ b k, h (b.bind k) = (h b).bind fun f => h (k f)
  either : ∀ b c, h (b.either c) = (h b).either (h c)
  any : ∀ b : Nat → Behaviour, h (fun σ r => ∃ n, b n σ r) = fun σ r => ∃ n, h (b n) σ r

namespace Reading

variable (H : Reading h)

include H

/-- There is no run to be read. -/
theorem never : h never = never := H.quiet fun _ _ hr => hr.elim

theorem jump (f : Flow) : h (jump f) = jump f := H.quiet (by rintro σ r rfl; rfl)

theorem plain : h plain = plain := H.quiet fun _ _ hr => hr.2.1

theorem adds (attr : Name) : h (adds attr) = adds attr := H.quiet (by rintro σ r rfl; rfl)

/-- A reading changes nothing but where an exception enters a `finally` block. -/
theorem fixes : Law fun b => h b = b where
  never := H.never
  jump := H.jump
  plain := H.plain
  evaluating := H.evaluating
  handsOver := H.handsOver
  unbinds := H.unbinds
  adds := H.adds
  removes := H.removes
  bind hb hk := by rw [H.bind, hb, funext hk]
  either hb hc := by rw [H.either, hb, hc]
  any {b} hb := by
    have hb' : (fun n => h (b n)) = b := funext hb
    exact (H.any b).trans (congrArg (fun b : Nat → Behaviour => fun σ r => ∃ n, b n σ r) hb')

/-- A law of behaviours is a law of what is read of them. -/
theorem law (L : Law P) : Law fun b => P (h b) where
  never := by rw [H.never]; exact L.never
  jump f := by rw [H.jump]; exact L.jump f
  plain := by rw [H.plain]; exact L.plain
  evaluating hands := by rw [H.evaluating]; exact L.evaluating hands
  handsOver := by rw [H.handsOver]; exact L.handsOver
  unbinds := by rw [H.unbinds]; exact L.unbinds
  adds attr := by rw [H.adds]; exact L.adds attr
  removes attr := by rw [H.removes]; exact L.removes attr
  bind hb hk := by rw [H.bind]; exact L.bind hb hk
  either hb hc := by rw [H.either]; exact L.either hb hc
  any hb := by rw [H.any]; exact L.any hb

/-- Code that follows other code is read piece by piece. -/
theorem andThen (b c : Behaviour) : h (b.andThen c) = (h b).andThen (h c) := by
  rw [Behaviour.andThen, H.bind, Behaviour.andThen]
  congr 1
  funext f
  cases f with
  | next => rfl
  | returned | broke | continued | raised | unfinished => exact H.jump _

/-- What follows a body in a `try` statement is read piece by piece. -/
theorem bind_handling (b c d : Behaviour) :
    h (b.bind (handling d c)) = (h b).bind (handling (h d) (h c)) := by
  rw [H.bind]
  congr 1
  funext f
  cases f with
  | next | raised => rfl
  | returned | broke | continued | unfinished => exact H.jump _

/-- What follows a round of a loop is read piece by piece. -/
theorem bind_nextRound (b c : Behaviour) :
    h (b.bind (nextRound c)) = (h b).bind (nextRound (h c)) := by
  rw [H.bind]
  congr 1
  funext f
  cases f with
  | next | continued => rfl
  | returned | broke | raised | unfinished => exact H.jump _

/-- A loop with a bound on its rounds is read piece by piece. The induction is on the bound. -/
theorem rounds (test body els : Behaviour) (endless : Bool) (n : Nat) :
    h (rounds test body els endless n) = rounds (h test) (h body) (h els) endless n := by
  induction n with
  | zero => exact H.never
  | succ n ih =>
    have hels : h (if endless then Behaviour.never else els) =
        if endless then Behaviour.never else h els := by
      split
      · exact H.never
      · rfl
    rw [Behaviour.rounds, H.andThen, H.either, hels, H.bind_nextRound, ih]
    rfl

/-- A loop is read piece by piece. -/
theorem looping (test body els : Behaviour) (endless : Bool) :
    h (looping test body els endless) = looping (h test) (h body) (h els) endless := by
  have hrounds := funext (H.rounds test body els endless)
  exact (H.any _).trans (congrArg (fun b : Nat → Behaviour => fun σ r => ∃ n, b n σ r) hrounds)

/-- Code under a manager is read under the manager. -/
theorem managed (b : Behaviour) : h b.managed = (h b).managed := by
  rw [Behaviour.managed, H.bind, Behaviour.managed]
  congr 1
  funext f
  cases f with
  | unfinished => exact H.jump _
  | raised => exact H.fixes.andThen H.plain (H.fixes.either (H.jump _) (H.jump _))
  | next | returned | broke | continued => exact H.fixes.andThen H.plain (H.jump _)

/-- Code under several managers is read under all of them. -/
theorem withItems (b : Behaviour) : ∀ items : List WithItem,
    h (WithItem.exec b items) = WithItem.exec (h b) items
  | [] => by rw [WithItem.exec, WithItem.exec, H.managed]
  | ⟨manager, target⟩ :: rest => by
    rw [WithItem.exec, WithItem.exec, H.andThen, H.managed, H.andThen, withItems b rest,
      H.fixes.bindTarget? target, Expr.exec, H.evaluating]

end Reading

/-- To leave everything as it is is a reading. -/
theorem reading_id : Reading id where
  quiet _ := rfl
  evaluating _ := rfl
  handsOver := rfl
  unbinds := rfl
  removes _ := rfl
  bind _ _ := rfl
  either _ _ := rfl
  any _ := rfl

end Behaviour

/-! ## Hushed runs -/

/-- Whether the event is another than that an exception enters a `finally` block. -/
def Event.isHeard : Event → Bool
  | .raisesIntoFinal => false
  | _ => true

namespace Ending

/-- The ending, with a log that says nothing of exceptions that enter a `finally` block. -/
def hushed (r : Ending) : Ending := { r with log := r.log.filter Event.isHeard }

/-- A log in which no exception enters a `finally` block stays as it is. -/
theorem hushed_eq_self {r : Ending} (h : ∀ e ∈ r.log, e.isHeard = true) : r.hushed = r := by
  rw [hushed, List.filter_eq_self.2 h]

/-- What happened before is hushed too. -/
theorem hushed_after (r : Ending) (log : List Event) :
    (r.after log).hushed = r.hushed.after (log.filter Event.isHeard) := by
  simp [hushed, after]

end Ending

namespace Behaviour

variable {b c : Behaviour}

/-- The behaviour, with hushed runs. -/
def hushed (b : Behaviour) : Behaviour := fun σ r => ∃ r₁, b σ r₁ ∧ r = r₁.hushed

/-- So does the behaviour if all of its logs do. -/
theorem hushed_eq_self (h : ∀ σ r, b σ r → ∀ e ∈ r.log, e.isHeard = true) : b.hushed = b := by
  funext σ r
  refine propext ⟨?_, fun hr => ⟨r, hr, (Ending.hushed_eq_self (h σ r hr)).symm⟩⟩
  rintro ⟨r₁, h₁, rfl⟩
  rwa [Ending.hushed_eq_self (h σ r₁ h₁)]

theorem hushed_emit {e : Set Name → Event} (he : ∀ σ, (e σ).isHeard = true) :
    (emit e).hushed = emit e := by
  refine hushed_eq_self ?_
  rintro σ r rfl e' he'
  rw [List.mem_singleton.1 he']
  exact he σ

/-- Whatever follows, both parts are hushed. -/
theorem hushed_bind (b : Behaviour) (k : Flow → Behaviour) :
    (b.bind k).hushed = b.hushed.bind fun f => (k f).hushed := by
  funext σ r
  refine propext ⟨?_, ?_⟩
  · rintro ⟨_, ⟨r₁, r₂, h₁, h₂, rfl⟩, rfl⟩
    exact ⟨r₁.hushed, r₂.hushed, ⟨r₁, h₁, rfl⟩, ⟨r₂, h₂, rfl⟩, r₂.hushed_after r₁.log⟩
  · rintro ⟨_, _, ⟨r₁, h₁, rfl⟩, ⟨r₂, h₂, rfl⟩, rfl⟩
    exact ⟨r₂.after r₁.log, ⟨r₁, r₂, h₁, h₂, rfl⟩, (r₂.hushed_after r₁.log).symm⟩

theorem hushed_either (b c : Behaviour) : (b.either c).hushed = b.hushed.either c.hushed := by
  funext σ r
  refine propext ⟨?_, ?_⟩
  · rintro ⟨r₁, h | h, rfl⟩
    · exact Or.inl ⟨r₁, h, rfl⟩
    · exact Or.inr ⟨r₁, h, rfl⟩
  · rintro (⟨r₁, h, rfl⟩ | ⟨r₁, h, rfl⟩)
    · exact ⟨r₁, Or.inl h, rfl⟩
    · exact ⟨r₁, Or.inr h, rfl⟩

/-- A run of one of several behaviours is hushed as a run of that one. -/
theorem hushed_any (b : Nat → Behaviour) :
    hushed (fun σ r => ∃ n, b n σ r) = fun σ r => ∃ n, (b n).hushed σ r := by
  funext σ r
  refine propext ⟨?_, ?_⟩
  · rintro ⟨r₁, ⟨n, h⟩, rfl⟩
    exact ⟨n, r₁, h, rfl⟩
  · rintro ⟨n, r₁, h, rfl⟩
    exact ⟨r₁, ⟨n, h⟩, rfl⟩

/-- To leave out of the logs that an exception enters a `finally` block is a reading. -/
theorem reading_hushed : Reading hushed where
  quiet h := hushed_eq_self fun σ r hr => by simp [h σ r hr]
  -- An evaluation logs nothing but that the receiver is handed over.
  evaluating hands := by
    refine hushed_eq_self fun σ r ⟨_, _, hlog⟩ e he => ?_
    obtain ⟨-, τ, rfl, -⟩ := hlog e he
    rfl
  handsOver := hushed_emit fun _ => rfl
  unbinds := hushed_emit fun _ => rfl
  removes attr := by
    refine hushed_eq_self ?_
    rintro σ r rfl e he
    rw [List.mem_singleton.1 he]
    rfl
  bind := hushed_bind
  either := hushed_either
  any := hushed_any

/-- Hushed, an exception enters a `finally` block like any other way out. -/
theorem hushed_raising : raising.hushed = jump .next := by
  funext σ r
  refine propext ⟨?_, fun h => ⟨_, rfl, h⟩⟩
  rintro ⟨r₁, rfl, rfl⟩
  rfl

/-- Runs a `finally` block however the code before it is left, and then leaves as before. -/
def closing (block : Behaviour) : Flow → Behaviour
  | .unfinished => jump .unfinished
  | f => block.andThen (jump f)

/-- The two ways to run a `finally` block differ for exceptions alone. -/
theorem closing_eq_final {f : Flow} (hf : f ≠ .raised) : closing c f = final c f := by
  cases f with
  | raised => exact absurd rfl hf
  | next | returned | broke | continued | unfinished => rfl

/-- Nothing comes before. -/
theorem jump_next_andThen (b : Behaviour) : (jump .next).andThen b = b := by
  funext σ r
  refine propext ⟨?_, fun h => ⟨_, r, rfl, h, rfl⟩⟩
  rintro ⟨r₁, r₂, rfl, h, rfl⟩
  exact h

/-- A `finally` block is run in hushed runs however the code before it is left. -/
theorem hushed_final (c : Behaviour) (f : Flow) : (final c f).hushed = closing c.hushed f := by
  have hjump := reading_hushed.jump
  cases f with
  | unfinished => exact hjump _
  | raised =>
    rw [final, reading_hushed.andThen, ← raising, hushed_raising, jump_next_andThen,
      reading_hushed.andThen, hjump, closing]
    exact nofun
  | next | returned | broke | continued =>
    rw [final, reading_hushed.andThen, hjump, closing] <;> exact nofun

/-- So a region with its `finally` block is read piece by piece. -/
theorem hushed_bind_final (b c : Behaviour) :
    (b.bind (final c)).hushed = b.hushed.bind (closing c.hushed) := by
  rw [hushed_bind, funext (hushed_final c)]

end Behaviour

end DefiniteInit
