import DefiniteInit.Proofs.Runs

/-!
# Laws of all runs

What holds of the smallest pieces of behaviour, and of behaviours put together from ones
of which it holds, holds of every statement (`Behaviour.Law`, `Behaviour.Law.execAll`). These
laws are used :

* `Behaviour.Keeps` : an attribute assigned at the start stays assigned, unless the run
  deletes it, a base's initializer drops it, or an exception enters a `finally` block;
* `Behaviour.Replays` : a run can be made again from other attributes, leaving the code in
  the same way;
* `Behaviour.Calm` : where there is no `finally` block and no base's initializer runs, no event
  takes an attribute away but a deletion by the body.

Code other than statements that delete, return or jump only adds attributes
(`Behaviour.Grows`).
-/

set_option linter.unusedSectionVars false

namespace DefiniteInit

variable {A : Set Name}

/-! ## Events that spoil a guarantee -/

/-- Whether after this event a guarantee about the attributes of `A` may fail. -/
def Event.Spoils (A : Set Name) : Event → Prop
  | .drops attrs => ∃ a ∈ A, a ∈ attrs
  | .raisesIntoFinal => True
  | _ => False

/-- A log without an event that spoils. -/
def Unspoiled (A : Set Name) (log : List Event) : Prop := ∀ e ∈ log, ¬e.Spoils A

theorem unspoiled_nil : Unspoiled A [] := by simp [Unspoiled]

@[simp]
theorem unspoiled_append {l₁ l₂ : List Event} :
    Unspoiled A (l₁ ++ l₂) ↔ Unspoiled A l₁ ∧ Unspoiled A l₂ := by
  simp only [Unspoiled, List.mem_append]
  exact ⟨fun h => ⟨fun e he => h e (Or.inl he), fun e he => h e (Or.inr he)⟩,
    fun h e he => he.elim (h.1 e) (h.2 e)⟩

/-- What spoils nothing for many attributes spoils nothing for fewer. -/
theorem Unspoiled.mono {B : Set Name} {l : List Event} (h : Unspoiled A l) (hB : B ⊆ A) :
    Unspoiled B l := by
  intro e he hs
  refine h e he ?_
  cases e with
  | drops attrs =>
    obtain ⟨b, hb, hattr⟩ := hs
    exact ⟨b, hB hb, hattr⟩
  | raisesIntoFinal => trivial
  | handsOver _ | unbinds _ | deletes _ => exact hs

@[simp]
theorem Ending.flow_after (r : Ending) (l : List Event) : (r.after l).flow = r.flow := rfl

@[simp]
theorem Ending.log_after (r : Ending) (l : List Event) : (r.after l).log = l ++ r.log := rfl

@[simp]
theorem Ending.attrs_after (r : Ending) (l : List Event) : (r.after l).attrs = r.attrs := rfl

/-- Nothing happens between leaving the code and having left it. -/
theorem Ending.after_self (r : Ending) : (Ending.mk r.flow [] r.attrs).after r.log = r := by
  simp [Ending.after]

namespace Behaviour

variable {b c : Behaviour} {k : Flow → Behaviour}

/-- Code that is left early is not followed by the next. -/
theorem onward_of_ne_next {f : Flow} (h : f ≠ .next) : onward c f = jump f := by
  cases f <;> first | rfl | exact absurd rfl h

/-- The second of two behaviours runs from where the first ended, or the first was left
early. -/
theorem andThen_cases {σ : Set Name} {r : Ending} (h : b.andThen c σ r) :
    (∃ r₁ r₂, b σ r₁ ∧ r₁.flow = .next ∧ c r₁.attrs r₂ ∧ r = r₂.after r₁.log) ∨
      (b σ r ∧ r.flow ≠ .next) := by
  obtain ⟨r₁, r₂, hb, hk, rfl⟩ := h
  by_cases hf : r₁.flow = .next
  · rw [hf] at hk
    exact Or.inl ⟨r₁, r₂, hb, hf, hk, rfl⟩
  · rw [onward_of_ne_next hf] at hk
    obtain rfl : r₂ = ⟨r₁.flow, [], r₁.attrs⟩ := hk
    rw [Ending.after_self]
    exact Or.inr ⟨hb, hf⟩

/-- A branch may be taken before the code that leads to it. -/
theorem andThen_either {d : Behaviour} {σ : Set Name} {r : Ending}
    (h : b.andThen (c.either d) σ r) : (b.andThen c).either (b.andThen d) σ r := by
  obtain ⟨r₁, r₂, h₁, h₂, rfl⟩ := h
  cases hf : r₁.flow with
  | next =>
    rw [hf] at h₂
    exact h₂.imp (fun h => ⟨r₁, r₂, h₁, by rwa [hf], rfl⟩) fun h => ⟨r₁, r₂, h₁, by rwa [hf], rfl⟩
  | returned | broke | continued | raised | unfinished =>
    rw [hf] at h₂
    exact Or.inl ⟨r₁, r₂, h₁, by rwa [hf], rfl⟩

/-- Nothing comes after. -/
theorem andThen_jump_next {σ : Set Name} {r : Ending} (h : b.andThen (jump .next) σ r) : b σ r := by
  rcases andThen_cases h with ⟨r₁, r₂, h₁, hf, rfl, rfl⟩ | ⟨h, -⟩
  · rwa [← hf, Ending.after_self]
  · exact h

/-- Code that ends in a jump does not go on. -/
theorem flow_ne_next_of_andThen_jump {f : Flow} (hf : f ≠ .next) {σ : Set Name} {r : Ending}
    (h : b.andThen (jump f) σ r) : r.flow ≠ .next := by
  rcases andThen_cases h with ⟨r₁, r₂, -, -, rfl, rfl⟩ | ⟨-, hne⟩
  · exact hf
  · exact hne

/-- An exception that leaves the body of a `try` statement meets the handlers; otherwise the
`else` block comes next. -/
theorem handling_cases {d : Behaviour} {σ : Set Name} {r : Ending} (h : b.bind (handling d c) σ r) :
    b.andThen c σ r ∨
      ∃ r₁ r₂, b σ r₁ ∧ r₁.flow = .raised ∧ d r₁.attrs r₂ ∧ r = r₂.after r₁.log := by
  obtain ⟨r₁, r₂, h₁, h₂, rfl⟩ := h
  cases hf : r₁.flow with
  | raised =>
    rw [hf] at h₂
    exact Or.inr ⟨r₁, r₂, h₁, hf, h₂, rfl⟩
  | next | returned | broke | continued | unfinished =>
    rw [hf] at h₂
    exact Or.inl ⟨r₁, r₂, h₁, by rwa [hf], rfl⟩

/-- Code that only adds, and then leaves in one way. -/
theorem plain_andThen_jump {f : Flow} {σ : Set Name} {r : Ending}
    (h : plain.andThen (jump f) σ r) :
    σ ⊆ r.attrs ∧ r.log = [] ∧ (r.flow = f ∨ r.flow = .raised ∨ r.flow = .unfinished) := by
  rcases andThen_cases h with ⟨r₁, r₂, ⟨hsub, hlog, -⟩, -, rfl, rfl⟩ | ⟨⟨hsub, hlog, hplain⟩, hne⟩
  · exact ⟨hsub, by simp [hlog], Or.inl rfl⟩
  · refine ⟨hsub, hlog, Or.inr ?_⟩
    cases hf : r.flow <;> simp_all [Flow.isPlain]

/-- A manager may raise, and swallows nothing but an exception. -/
theorem leaving_cases {f : Flow} {σ : Set Name} {r : Ending} (h : leaving f σ r) :
    σ ⊆ r.attrs ∧ r.log = [] ∧ (r.flow = f ∨ r.flow = .raised ∨ r.flow = .unfinished ∨
      f = .raised ∧ r.flow = .next) := by
  cases f with
  | unfinished =>
    obtain rfl : r = ⟨.unfinished, [], σ⟩ := h
    exact ⟨subset_rfl, rfl, Or.inl rfl⟩
  | raised =>
    rcases andThen_cases h with ⟨r₁, r₂, ⟨hsub, hlog, -⟩, -, rfl | rfl, rfl⟩ | ⟨h, -⟩
    · exact ⟨hsub, by simp [hlog], by simp⟩
    · exact ⟨hsub, by simp [hlog], by simp⟩
    · exact ⟨h.1, h.2.1, by cases hf : r.flow <;> simp_all [plain, Flow.isPlain]⟩
  | next | returned | broke | continued =>
    obtain ⟨hsub, hlog, hf⟩ := plain_andThen_jump h
    exact ⟨hsub, hlog, by simpa using hf⟩

/-! ## Single runs -/

/-- Plain code can end without having done anything. -/
theorem plain_quiet {f : Flow} (hf : f.isPlain = true) (σ : Set Name) : plain σ ⟨f, [], σ⟩ :=
  ⟨subset_rfl, rfl, hf⟩

/-- So can an evaluation. -/
theorem evaluating_quiet (hands : Bool) {f : Flow} (hf : f.isPlain = true) (σ : Set Name) :
    evaluating hands σ ⟨f, [], σ⟩ :=
  ⟨subset_rfl, hf, by simp⟩

/-- A run of code that went on without a log leads to one of what follows. -/
theorem andThen_quiet {σ τ : Set Name} {r : Ending} (hb : b σ ⟨.next, [], τ⟩) (hc : c τ r) :
    b.andThen c σ r :=
  ⟨⟨.next, [], τ⟩, r, hb, hc, rfl⟩

/-- The log of what follows comes after that of what goes before. -/
theorem andThen_append {σ τ ρ : Set Name} {f : Flow} {l l' : List Event}
    (hb : b σ ⟨.next, l, τ⟩) (hc : c τ ⟨f, l', ρ⟩) : b.andThen c σ ⟨f, l ++ l', ρ⟩ :=
  ⟨⟨.next, l, τ⟩, ⟨f, l', ρ⟩, hb, hc, rfl⟩

/-- A run that leaves the code early is one of that code with any other after it. -/
theorem andThen_of_left {σ : Set Name} {r : Ending} (hb : b σ r) (hf : r.flow ≠ .next)
    (c : Behaviour) : b.andThen c σ r := by
  refine ⟨r, ⟨r.flow, [], r.attrs⟩, hb, ?_, r.after_self.symm⟩
  rw [onward_of_ne_next hf]
  exact rfl

/-! ## Laws -/

/-- Notes that an exception enters a `finally` block. -/
def raising : Behaviour := emit fun _ => .raisesIntoFinal

/-- A property of the smallest behaviours that passes to those put together from them. What
it says of an exception that enters a `finally` block is left open. -/
structure Law (P : Behaviour → Prop) : Prop where
  never : P never
  jump : ∀ f, P (jump f)
  plain : P plain
  evaluating : ∀ hands, P (evaluating hands)
  handsOver : P (emit .handsOver)
  unbinds : P (emit .unbinds)
  adds : ∀ attr, P (adds attr)
  removes : ∀ attr, P (removes attr)
  bind : ∀ {b k}, P b → (∀ f, P (k f)) → P (b.bind k)
  either : ∀ {b c}, P b → P c → P (b.either c)
  /-- A run of any of several behaviours. -/
  any : ∀ {b : Nat → Behaviour}, (∀ n, P (b n)) → P fun σ r => ∃ n, b n σ r

namespace Law

variable {P : Behaviour → Prop} (L : Law P)

include L

theorem andThen (hb : P b) (hc : P c) : P (b.andThen c) :=
  L.bind hb fun f => by cases f <;> first | exact hc | exact L.jump _

theorem handing : P handing := L.andThen L.plain (L.andThen L.handsOver L.plain)

theorem unbinding : P unbinding := L.andThen L.plain L.unbinds

/-- A law of test, body and `else` block is one of the loop, by induction on a bound of its rounds.
-/
theorem looping {test body orelse : Behaviour} (ht : P test) (hb : P body) (ho : P orelse)
    (endless : Bool) : P (looping test body orelse endless) := by
  refine L.any fun n => ?_
  induction n with
  | zero => exact L.never
  | succ n ih =>
    refine L.andThen ht (L.either ?_ (L.bind hb fun f => ?_))
    · split
      · exact L.never
      · exact ho
    · cases f <;> first | exact ih | exact L.jump _

/-- A law of the handlers and of the `else` block is one of what follows the body. -/
theorem handling {handlers orelse : Behaviour} (hh : P handlers) (ho : P orelse) (f : Flow) :
    P (handling handlers orelse f) := by
  cases f <;> first | exact ho | exact hh | exact L.jump _

/-- A law of the body is one of the body under a manager. -/
theorem managed (hb : P b) : P b.managed := by
  refine L.bind hb fun f => ?_
  cases f with
  | unfinished => exact L.jump _
  | raised => exact L.andThen L.plain (L.either (L.jump _) (L.jump _))
  | next | returned | broke | continued => exact L.andThen L.plain (L.jump _)

/-- A law of the `finally` block is one of what it does, provided it holds of the note that an
exception has entered. -/
theorem final {block : Behaviour} (hR : P raising) (hb : P block) (f : Flow) :
    P (final block f) := by
  cases f with
  | unfinished => exact L.jump _
  | raised => exact L.andThen hR (L.andThen hb (L.jump _))
  | next | returned | broke | continued => exact L.andThen hb (L.jump _)

mutual

/-- Assignments obey every law. -/
theorem bindTarget : ∀ t : Target, P t.bind
  | .selfAttr attr _ => by rw [Target.bind]; exact L.andThen L.plain (L.adds attr)
  | .self _ => by rw [Target.bind]; exact L.unbinding
  | .name _ _ => by rw [Target.bind]; exact L.plain
  | .attribute value _ _ => by rw [Target.bind]; exact L.evaluating _
  | .subscript value index _ => by
    rw [Target.bind]; exact L.andThen (L.evaluating _) (L.evaluating _)
  | .tuple elements _ => by rw [Target.bind]; exact bindTargets elements

theorem bindTargets : ∀ ts : List Target, P (Target.bindAll ts)
  | [] => by rw [Target.bindAll]; exact L.plain
  | t :: ts => by rw [Target.bindAll]; exact L.andThen (bindTarget t) (bindTargets ts)

end

mutual

/-- Deletions obey every law. -/
theorem deleteTarget : ∀ t : Target, P t.delete
  | .selfAttr attr _ => by rw [Target.delete]; exact L.andThen L.plain (L.removes attr)
  | .self _ => by rw [Target.delete]; exact L.unbinding
  | .name _ _ => by rw [Target.delete]; exact L.plain
  | .attribute value _ _ => by rw [Target.delete]; exact L.evaluating _
  | .subscript value index _ => by
    rw [Target.delete]; exact L.andThen (L.evaluating _) (L.evaluating _)
  | .tuple elements _ => by rw [Target.delete]; exact deleteTargets elements

theorem deleteTargets : ∀ ts : List Target, P (Target.deleteAll ts)
  | [] => by rw [Target.deleteAll]; exact L.plain
  | t :: ts => by rw [Target.deleteAll]; exact L.andThen (deleteTarget t) (deleteTargets ts)

end

theorem bindTarget? (t : Option Target) : P ((t.map Target.bind).getD .plain) := by
  cases t with
  | none => exact L.plain
  | some t => exact L.bindTarget t

/-- A law of the body is one of the body under all managers. -/
theorem withItems (hb : P b) : ∀ items : List WithItem, P (WithItem.exec b items)
  | [] => by rw [WithItem.exec]; exact L.managed hb
  | ⟨manager, target⟩ :: rest => by
    rw [WithItem.exec]
    exact L.andThen (L.evaluating _)
      (L.managed (L.andThen (L.bindTarget? target) (withItems hb rest)))

variable {calls : SuperTarget → Behaviour} (hcalls : ∀ t, P (calls t))

include hcalls

mutual

/-- A law holds of every statement whose calls obey it. The note that an exception has entered a
`finally` block has to obey it only where there is such a block. -/
theorem exec : ∀ (inLoop : Bool) (s : Stmt), (s.isFinallyFree = false → P raising) →
    P (s.exec calls inLoop)
  | _, .assign targets value _, _ => by
    rw [Stmt.exec]; exact L.andThen (L.evaluating _) (L.bindTargets targets)
  | _, .eval value _, _ => by rw [Stmt.exec]; exact L.evaluating _
  | inLoop, .ifElse test body orelse _, hR => by
    rw [Stmt.exec]
    have hbody := execAll inLoop body fun h => hR (by simp [Stmt.isFinallyFree, h])
    have helse := execAll inLoop orelse fun h => hR (by simp [Stmt.isFinallyFree, h])
    exact L.andThen (L.evaluating _) (L.either hbody helse)
  | inLoop, .whileLoop test body orelse _, hR => by
    rw [Stmt.exec]
    have hbody := execAll true body fun h => hR (by simp [Stmt.isFinallyFree, h])
    have helse := execAll inLoop orelse fun h => hR (by simp [Stmt.isFinallyFree, h])
    exact L.looping (L.evaluating _) hbody helse _
  | inLoop, .forLoop target source body orelse _, hR => by
    rw [Stmt.exec]
    have hbody := execAll true body fun h => hR (by simp [Stmt.isFinallyFree, h])
    have helse := execAll inLoop orelse fun h => hR (by simp [Stmt.isFinallyFree, h])
    exact L.andThen (L.evaluating _)
      (L.looping L.plain (L.andThen (L.bindTarget target) hbody) helse _)
  -- The condition on the note passes to the parts: where one has a `finally` block the statement
  -- does.
  | inLoop, .tryBlock body handlers orelse final _, hR => by
    rw [Stmt.exec]
    have hbody := execAll inLoop body fun h => hR (by simp [Stmt.isFinallyFree, h])
    have hhandlers := execHandlers inLoop handlers fun h => hR (by simp [Stmt.isFinallyFree, h])
    have helse := execAll inLoop orelse fun h => hR (by simp [Stmt.isFinallyFree, h])
    have hregion := L.bind hbody (L.handling hhandlers helse)
    split
    · exact hregion
    · have hR' : P raising := hR (by simp_all [Stmt.isFinallyFree])
      exact L.bind hregion (L.final hR' (execAll inLoop final fun _ => hR'))
  | inLoop, .withBlock items body _, hR => by
    rw [Stmt.exec]
    exact L.withItems (execAll inLoop body fun h => hR (by simp [Stmt.isFinallyFree, h])) items
  | _, .ret value _, _ => by rw [Stmt.exec]; exact L.andThen (L.evaluating _) (L.jump _)
  | _, .raise exception cause _, _ => by
    rw [Stmt.exec]; exact L.andThen (L.evaluating _) (L.andThen (L.evaluating _) (L.jump _))
  | _, .assertion test message _, _ => by
    rw [Stmt.exec]
    exact L.andThen (L.evaluating _) (L.either L.plain (L.andThen (L.evaluating _) (L.jump _)))
  | _, .superInit target args keywords _, _ => by
    rw [Stmt.exec]; exact L.andThen (L.evaluating _) (hcalls target)
  | _, .rebindSelf value _, _ => by rw [Stmt.exec]; exact L.andThen (L.evaluating _) L.handing
  | _, .delete targets _, _ => by rw [Stmt.exec]; exact L.deleteTargets targets
  | _, .nestedDef _ capturesSelf _, _ => by
    rw [Stmt.exec]
    split
    · exact L.handing
    · exact L.plain
  | _, .pass _, _ => by rw [Stmt.exec]; exact L.plain
  | _, .breakLoop _, _ | _, .continueLoop _, _ => by
    rw [Stmt.exec]
    split
    · exact L.andThen L.plain (L.jump _)
    · exact L.plain
  | _, .unsupported _, _ => by rw [Stmt.exec]; exact L.handing

/-- A law holds of every block whose calls obey it. -/
theorem execAll : ∀ (inLoop : Bool) (ss : List Stmt),
    (Stmt.allFinallyFree ss = false → P raising) → P (Stmt.execAll calls inLoop ss)
  | _, [], _ => by rw [Stmt.execAll]; exact L.jump _
  | inLoop, s :: ss, hR => by
    rw [Stmt.execAll]
    exact L.andThen (exec inLoop s fun h => hR (by simp [Stmt.allFinallyFree, h]))
      (execAll inLoop ss fun h => hR (by simp [Stmt.allFinallyFree, h]))

/-- So it does of handlers. -/
theorem execHandlers : ∀ (inLoop : Bool) (hs : List Handler),
    (Stmt.handlersFinallyFree hs = false → P raising) → P (Stmt.execHandlers calls inLoop hs)
  | _, [], _ => by rw [Stmt.execHandlers]; exact L.jump _
  | inLoop, ⟨type, _, body, _⟩ :: rest, hR => by
    rw [Stmt.execHandlers]
    have hbody := execAll inLoop body fun h => hR (by simp [Stmt.handlersFinallyFree, h])
    have hrest := execHandlers inLoop rest fun h => hR (by simp [Stmt.handlersFinallyFree, h])
    exact L.andThen (L.evaluating _) (L.either hbody hrest)

end

end Law

/-! ## Kept attributes -/

/-- An attribute assigned at the start is assigned whenever the receiver is handed over and
at the end, unless an event of the run takes it away. -/
def Keeps (b : Behaviour) : Prop := ∀ σ r, b σ r → ∀ a ∈ σ, Unspoiled {a} r.log →
  Event.deletes a ∉ r.log → a ∈ r.attrs ∧ ∀ τ, Event.handsOver τ ∈ r.log → a ∈ τ

theorem keeps_emit {e : Set Name → Event} (he : ∀ σ τ, e σ = .handsOver τ → τ = σ) :
    (emit e).Keeps := by
  rintro σ r rfl a ha - -
  refine ⟨ha, fun τ hτ => ?_⟩
  rw [he σ τ (List.mem_singleton.1 hτ).symm]
  exact ha

theorem keeps_evaluating (hands : Bool) : (evaluating hands).Keeps := by
  rintro σ r ⟨hsub, -, hlog⟩ a ha - -
  refine ⟨hsub ha, fun τ hτ => ?_⟩
  obtain ⟨-, τ', h, hsub', -⟩ := hlog _ hτ
  obtain rfl : τ = τ' := by simpa using h
  exact hsub' ha

/-- What is kept by each of two pieces is kept by both in turn. -/
theorem Keeps.bind (hb : b.Keeps) (hk : ∀ f, (k f).Keeps) : (b.bind k).Keeps := by
  rintro σ r ⟨r₁, r₂, h₁, h₂, rfl⟩ a ha hu hd
  simp only [Ending.log_after, unspoiled_append, List.mem_append, not_or] at hu hd ⊢
  obtain ⟨ha₁, hτ₁⟩ := hb σ r₁ h₁ a ha hu.1 hd.1
  obtain ⟨ha₂, hτ₂⟩ := hk _ _ r₂ h₂ a ha₁ hu.2 hd.2
  exact ⟨ha₂, fun τ hτ => hτ.elim (hτ₁ τ) (hτ₂ τ)⟩

/-- To keep what is assigned is a law. -/
theorem keeps_law : Law Keeps where
  never := fun _ _ h => h.elim
  jump := by
    rintro f σ r rfl a ha - -
    exact ⟨ha, by simp⟩
  plain := by
    rintro σ r ⟨hsub, hlog, -⟩ a ha - -
    exact ⟨hsub ha, by simp [hlog]⟩
  evaluating := keeps_evaluating
  handsOver := keeps_emit fun σ τ h => by simpa using h.symm
  unbinds := keeps_emit (by simp)
  adds := by
    rintro attr σ r rfl a ha - -
    exact ⟨Or.inr ha, by simp⟩
  removes := by
    rintro attr σ r rfl a ha - hd
    refine ⟨⟨ha, ?_⟩, by simp⟩
    rintro rfl
    simp at hd
  bind := Keeps.bind
  either := fun hb hc σ r h => h.elim (hb σ r) (hc σ r)
  any := fun hb σ r ⟨n, h⟩ => hb n σ r h

theorem keeps_raising : raising.Keeps := keeps_emit (by simp)

/-! ## Runs made again -/

/-- A run from `τ` that ends in `r'` follows one from `σ` that ends in `r` : it leaves the code
in the same way, and an attribute it starts with or without like the other it ends with or
without like the other. -/
structure Follows (σ τ : Set Name) (r r' : Ending) : Prop where
  flow : r'.flow = r.flow
  le : ∀ a, (a ∈ τ → a ∈ σ) → a ∈ r'.attrs → a ∈ r.attrs
  ge : ∀ a, (a ∈ σ → a ∈ τ) → a ∈ r.attrs → a ∈ r'.attrs
  unspoiled : ∀ A, (∀ a ∈ A, a ∈ τ → a ∈ σ) → Unspoiled A r.log → Unspoiled A r'.log

/-- A run can be made again from any attributes. -/
def Replays (b : Behaviour) : Prop := ∀ σ r, b σ r → ∀ τ, ∃ r', b τ r' ∧ Follows σ τ r r'

theorem replays_emit {e : Set Name → Event} (he : ∀ A σ τ, (e τ).Spoils A → (e σ).Spoils A) :
    (emit e).Replays := by
  rintro σ r rfl τ
  refine ⟨_, rfl, rfl, fun _ => id, fun _ => id, fun A _ h e' he' hs => ?_⟩
  obtain rfl := List.mem_singleton.1 he'
  exact h (e σ) (by simp) (he A σ τ hs)

/-- Code that only adds may add what it added before. -/
theorem Follows.of_subset {σ : Set Name} {r : Ending} (hσ : σ ⊆ r.attrs) (τ : Set Name) :
    Follows σ τ r ⟨r.flow, [], τ ∪ r.attrs⟩ where
  flow := rfl
  le _ hτ h := h.elim (fun h => hσ (hτ h)) id
  ge _ _ := Or.inr
  unspoiled _ _ _ := unspoiled_nil

/-- What can be made again piece by piece can be made again. -/
theorem Replays.bind (hb : b.Replays) (hk : ∀ f, (k f).Replays) : (b.bind k).Replays := by
  rintro σ r ⟨r₁, r₂, h₁, h₂, rfl⟩ τ
  obtain ⟨r₁', h₁', m₁⟩ := hb σ r₁ h₁ τ
  obtain ⟨r₂', h₂', m₂⟩ := hk _ _ r₂ h₂ r₁'.attrs
  refine ⟨r₂'.after r₁'.log, ⟨r₁', r₂', h₁', by rwa [m₁.flow], rfl⟩, m₂.flow,
    fun a h => m₂.le a (m₁.le a h), fun a h => m₂.ge a (m₁.ge a h), fun A h hu => ?_⟩
  simp only [Ending.log_after, unspoiled_append] at hu ⊢
  exact ⟨m₁.unspoiled A h hu.1, m₂.unspoiled A (fun a ha => m₁.le a (h a ha)) hu.2⟩

/-- That runs can be made again is a law. -/
theorem replays_law : Law Replays where
  never := fun _ _ h => h.elim
  jump := by
    rintro f σ r rfl τ
    exact ⟨_, rfl, rfl, fun _ => id, fun _ => id, fun _ _ => id⟩
  plain := by
    rintro σ r ⟨hsub, -, hflow⟩ τ
    exact ⟨⟨r.flow, [], τ ∪ r.attrs⟩, ⟨Set.subset_union_left, rfl, hflow⟩,
      Follows.of_subset hsub τ⟩
  -- The run made again hands nothing over, which an evaluation is always free to do.
  evaluating := by
    rintro hands σ r ⟨hsub, hflow, -⟩ τ
    exact ⟨⟨r.flow, [], τ ∪ r.attrs⟩, ⟨Set.subset_union_left, hflow, by simp⟩,
      Follows.of_subset hsub τ⟩
  handsOver := replays_emit fun _ _ _ h => h
  unbinds := replays_emit fun _ _ _ h => h
  adds := by
    rintro attr σ r rfl τ
    exact ⟨_, rfl, rfl, fun a => Or.imp id, fun a => Or.imp id, fun _ _ => id⟩
  removes := by
    rintro attr σ r rfl τ
    exact ⟨_, rfl, rfl, fun a h => And.imp h id, fun a h => And.imp h id, fun _ _ => id⟩
  bind := Replays.bind
  either := by
    rintro b c hb hc σ r (h | h) τ
    · obtain ⟨r', h', m⟩ := hb σ r h τ
      exact ⟨r', Or.inl h', m⟩
    · obtain ⟨r', h', m⟩ := hc σ r h τ
      exact ⟨r', Or.inr h', m⟩
  any := by
    rintro b hb σ r ⟨n, h⟩ τ
    obtain ⟨r', h', m⟩ := hb n σ r h τ
    exact ⟨r', ⟨n, h'⟩, m⟩

theorem replays_raising : raising.Replays := replays_emit fun _ _ _ h => h

/-! ## Runs that nothing spoils -/

/-- No event of a run spoils anything. -/
def Calm (b : Behaviour) : Prop := ∀ σ r, b σ r → ∀ A, Unspoiled A r.log

theorem calm_emit {e : Set Name → Event} (he : ∀ A σ, ¬(e σ).Spoils A) : (emit e).Calm := by
  rintro σ r rfl A e' he'
  rw [List.mem_singleton.1 he']
  exact he A σ

/-- To be calm is a law. An exception that enters a `finally` block does not obey it. -/
theorem calm_law : Law Calm where
  never := fun _ _ h => h.elim
  jump := by rintro f σ r rfl A; exact unspoiled_nil
  plain := by
    rintro σ r ⟨-, hlog, -⟩ A
    rw [hlog]
    exact unspoiled_nil
  evaluating := by
    rintro hands σ r ⟨-, -, hlog⟩ A e he
    obtain ⟨-, τ, rfl, -⟩ := hlog e he
    exact id
  handsOver := calm_emit fun _ _ => id
  unbinds := calm_emit fun _ _ => id
  adds := by rintro attr σ r rfl A; exact unspoiled_nil
  removes := by
    rintro attr σ r rfl A e he
    rw [List.mem_singleton.1 he]
    exact id
  bind := by
    rintro b k hb hk σ r ⟨r₁, r₂, h₁, h₂, rfl⟩ A
    rw [Ending.log_after, unspoiled_append]
    exact ⟨hb σ r₁ h₁ A, hk _ _ r₂ h₂ A⟩
  either := fun hb hc σ r h => h.elim (hb σ r) (hc σ r)
  any := fun hb σ r ⟨n, h⟩ => hb n σ r h

/-! ## Code that only adds -/

/-- Code that only adds attributes, and is left neither by a return nor by a jump. -/
def Grows (b : Behaviour) : Prop := ∀ σ r, b σ r →
  σ ⊆ r.attrs ∧ r.flow.isPlain = true ∧ ∀ a, Event.deletes a ∉ r.log

theorem grows_plain : plain.Grows := by
  rintro σ r ⟨hsub, hlog, hflow⟩
  exact ⟨hsub, hflow, by simp [hlog]⟩

theorem grows_evaluating (hands : Bool) : (evaluating hands).Grows := by
  rintro σ r ⟨hsub, hflow, hlog⟩
  refine ⟨hsub, hflow, fun a ha => ?_⟩
  obtain ⟨-, τ, h, -⟩ := hlog _ ha
  cases h

/-- A jump that is plain changes nothing. -/
theorem grows_jump {f : Flow} (hf : f.isPlain = true) : (jump f).Grows := by
  rintro σ r rfl
  exact ⟨subset_rfl, hf, by simp⟩

theorem grows_emit {e : Set Name → Event} (he : ∀ σ a, e σ ≠ .deletes a) : (emit e).Grows := by
  rintro σ r rfl
  exact ⟨subset_rfl, rfl, fun a ha => he σ a (List.mem_singleton.1 ha).symm⟩

theorem grows_adds (attr : Name) : (adds attr).Grows := by
  rintro σ r rfl
  exact ⟨fun _ => Or.inr, rfl, by simp⟩

/-- Code that only adds after code that only adds only adds. -/
theorem Grows.andThen (hb : b.Grows) (hc : c.Grows) : (b.andThen c).Grows := by
  intro σ r h
  rcases andThen_cases h with ⟨r₁, r₂, h₁, -, h₂, rfl⟩ | ⟨h, -⟩
  · obtain ⟨hsub₁, -, hd₁⟩ := hb σ r₁ h₁
    obtain ⟨hsub₂, hflow, hd₂⟩ := hc _ r₂ h₂
    exact ⟨hsub₁.trans hsub₂, hflow, fun a ha => (List.mem_append.1 ha).elim (hd₁ a) (hd₂ a)⟩
  · exact hb σ r h

theorem Grows.either (hb : b.Grows) (hc : c.Grows) : (b.either c).Grows :=
  fun σ r h => h.elim (hb σ r) (hc σ r)

theorem grows_handing : handing.Grows :=
  grows_plain.andThen ((grows_emit (by simp)).andThen grows_plain)

theorem grows_unbinding : unbinding.Grows := grows_plain.andThen (grows_emit (by simp))

end Behaviour

namespace Target

open Behaviour

mutual

/-- Assignments only add, whatever the target. -/
theorem grows_bind : ∀ t : Target, t.bind.Grows
  | .selfAttr attr _ => by rw [bind]; exact grows_plain.andThen (grows_adds attr)
  | .self _ => by rw [bind]; exact grows_unbinding
  | .name _ _ => by rw [bind]; exact grows_plain
  | .attribute value _ _ => by rw [bind]; exact grows_evaluating _
  | .subscript value index _ => by
    rw [bind]; exact (grows_evaluating _).andThen (grows_evaluating _)
  | .tuple elements _ => by rw [bind]; exact grows_bindAll elements

theorem grows_bindAll : ∀ ts : List Target, (bindAll ts).Grows
  | [] => by rw [bindAll]; exact grows_plain
  | t :: ts => by rw [bindAll]; exact (grows_bind t).andThen (grows_bindAll ts)

end

theorem grows_bind? (t : Option Target) : ((t.map bind).getD .plain).Grows := by
  cases t with
  | none => exact grows_plain
  | some t => exact grows_bind t

mutual

/-- Once a target is bound, the attributes it names are assigned. -/
theorem mem_attrs_of_bind {σ : Set Name} {r : Ending} {x : Name} :
    ∀ t : Target, t.bind σ r → r.flow = .next → x ∈ t.assigned → x ∈ r.attrs
  | .selfAttr attr _, h, hf, hx => by
    rw [bind] at h
    rcases andThen_cases h with ⟨r₁, r₂, -, -, rfl, rfl⟩ | ⟨-, hne⟩
    · exact Or.inl (by simpa [assigned] using hx)
    · exact absurd hf hne
  | .tuple elements _, h, hf, hx => by
    rw [bind] at h
    rw [assigned] at hx
    exact mem_attrs_of_bindAll elements h hf hx
  | .self _, _, _, hx | .name _ _, _, _, hx | .attribute _ _ _, _, _, hx
  | .subscript _ _ _, _, _, hx => by simp [assigned] at hx

/-- Once targets are bound, the attributes they name are assigned. -/
theorem mem_attrs_of_bindAll {σ : Set Name} {r : Ending} {x : Name} :
    ∀ ts : List Target, bindAll ts σ r → r.flow = .next → x ∈ assignedAll ts → x ∈ r.attrs
  | [], _, _, hx => by simp [assignedAll] at hx
  | t :: ts, h, hf, hx => by
    rw [bindAll] at h
    rcases andThen_cases h with ⟨r₁, r₂, h₁, hf₁, h₂, rfl⟩ | ⟨-, hne⟩
    · rw [assignedAll, List.mem_append] at hx
      rcases hx with hx | hx
      · exact (grows_bindAll ts _ _ h₂).1 (mem_attrs_of_bind t h₁ hf₁ hx)
      · exact mem_attrs_of_bindAll (r := r₂) ts h₂ hf hx
    · exact absurd hf hne

end

end Target

end DefiniteInit
