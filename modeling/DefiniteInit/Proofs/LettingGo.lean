import DefiniteInit.Proofs.EscapeSoundness
import DefiniteInit.Proofs.ThoroughWalk

/-!
# Every escape is noted

A run that hands the receiver over, or takes its name away, lets it go. Whether a piece of code
can do so (`Behaviour.LetsGo`) does not depend on what is assigned, only on the code and on the
ways through it (`Behaviour.Ends`). So a walk that passes through all the code notes an escape
wherever the code can let go of the receiver, unless it starts in a state where that has
happened (`Notices`).

The walk of a body passes through all code that a run can come to before an exception has
entered a `finally` block. With `finally` blocks walked thoroughly it passes through all code
that a run can come to. Both are the same proof over the statements, for walks that go with a
reading (`Scope.notices_blockWith`).
-/

set_option linter.unusedSectionVars false

namespace DefiniteInit

/-- Whether the receiver is handed over or its name is taken away. -/
def Event.letsGo : Event → Bool
  | .handsOver _ | .unbinds _ => true
  | _ => false

/-- With no attribute in view only an exception that enters a `finally` block spoils. -/
theorem unspoiled_empty_iff {log : List Event} :
    Unspoiled ∅ log ↔ Event.raisesIntoFinal ∉ log := by
  constructor
  · exact fun hu hmem => hu _ hmem trivial
  · intro hnot e he hs
    cases e with
    | raisesIntoFinal => exact hnot he
    | drops attrs =>
      obtain ⟨a, ha, -⟩ := hs
      exact ha
    | handsOver _ | unbinds _ | deletes _ => exact hs

/-! ## Code that can let go of the receiver -/

namespace Behaviour

variable {b c d : Behaviour} {k : Flow → Behaviour} {v w : Verdict}

/-- Some run leaves the code in this way without an exception that enters a `finally` block. -/
def Ends (b : Behaviour) (f : Flow) : Prop := ∃ σ r, b σ r ∧ Unspoiled ∅ r.log ∧ r.flow = f

/-- Some run lets go of the receiver before an exception enters a `finally` block. -/
def LetsGo (b : Behaviour) : Prop :=
  ∃ σ r before e after, b σ r ∧ r.log = before ++ e :: after ∧ Unspoiled ∅ before ∧ e.letsGo = true

/-- Code none of whose events lets go does not. -/
theorem not_letsGo (h : ∀ σ r, b σ r → ∀ e ∈ r.log, e.letsGo = false) : ¬b.LetsGo := by
  rintro ⟨σ, r, before, e, after, hr, hlog, -, he⟩
  have hnot := h σ r hr e (by simp [hlog])
  simp [he] at hnot

theorem not_letsGo_of_quiet (h : ∀ σ r, b σ r → r.log = []) : ¬b.LetsGo :=
  not_letsGo fun σ r hr => by simp [h σ r hr]

theorem not_letsGo_jump (f : Flow) : ¬(jump f).LetsGo :=
  not_letsGo_of_quiet (by rintro σ r rfl; rfl)

theorem not_letsGo_plain : ¬plain.LetsGo := not_letsGo_of_quiet fun _ _ hr => hr.2.1

theorem not_letsGo_adds (attr : Name) : ¬(adds attr).LetsGo :=
  not_letsGo_of_quiet (by rintro σ r rfl; rfl)

theorem not_letsGo_removes (attr : Name) : ¬(removes attr).LetsGo := by
  refine not_letsGo ?_
  rintro σ r rfl e he
  rw [List.mem_singleton.1 he]
  rfl

namespace LetsGo

/-- What is let go after a piece of code is let go after a run that has left it. -/
theorem of_bind (h : (b.bind k).LetsGo) : b.LetsGo ∨ ∃ f, b.Ends f ∧ (k f).LetsGo := by
  obtain ⟨σ, _, before, e, after, ⟨r₁, r₂, h₁, h₂, rfl⟩, hlog, hu, he⟩ := h
  rw [Ending.log_after, List.append_eq_append_iff] at hlog
  rcases hlog with ⟨rest, rfl, hlog⟩ | ⟨rest, hlog, hrest⟩
  · rw [unspoiled_append] at hu
    exact Or.inr ⟨_, ⟨σ, r₁, h₁, hu.1, rfl⟩, _, r₂, rest, e, after, h₂, hlog, hu.2, he⟩
  · cases rest with
    | nil =>
      rw [List.append_nil] at hlog
      exact Or.inr ⟨_, ⟨σ, r₁, h₁, hlog ▸ hu, rfl⟩, _, r₂, [], e, after, h₂, hrest.symm,
        unspoiled_nil, he⟩
    | cons e' rest =>
      obtain ⟨rfl, -⟩ := List.cons.inj hrest
      exact Or.inl ⟨σ, r₁, before, e, rest, h₁, hlog, hu, he⟩

/-- Code in turn lets go in its first part, or in its second if the first goes on. -/
theorem of_andThen (h : (b.andThen c).LetsGo) : b.LetsGo ∨ b.Ends .next ∧ c.LetsGo := by
  rcases h.of_bind with h | ⟨f, hf, h⟩
  · exact Or.inl h
  · cases f with
    | next => exact Or.inr ⟨hf, h⟩
    | returned | broke | continued | raised | unfinished => exact absurd h (not_letsGo_jump _)

theorem of_andThen_jump {f : Flow} (h : (b.andThen (jump f)).LetsGo) : b.LetsGo :=
  h.of_andThen.resolve_right fun h => not_letsGo_jump f h.2

/-- A branch that lets go is one of the two. -/
theorem of_either (h : (b.either c).LetsGo) : b.LetsGo ∨ c.LetsGo := by
  obtain ⟨σ, r, before, e, after, hr, hrest⟩ := h
  exact hr.imp (fun hr => ⟨σ, r, before, e, after, hr, hrest⟩)
    fun hr => ⟨σ, r, before, e, after, hr, hrest⟩

/-- In a `try` statement the body lets go, the `else` block after it, or a handler. -/
theorem of_handling (h : (b.bind (handling d c)).LetsGo) :
    b.LetsGo ∨ b.Ends .next ∧ c.LetsGo ∨ d.LetsGo := by
  rcases h.of_bind with h | ⟨f, hf, h⟩
  · exact Or.inl h
  · cases f with
    | next => exact Or.inr (Or.inl ⟨hf, h⟩)
    | raised => exact Or.inr (Or.inr h)
    | returned | broke | continued | unfinished => exact absurd h (not_letsGo_jump _)

/-- A manager does not let go of its own accord. -/
theorem of_managed (h : b.managed.LetsGo) : b.LetsGo := by
  rcases h.of_bind with h | ⟨f, -, h⟩
  · exact h
  · exact absurd h (not_letsGo_of_quiet fun σ r hr => (leaving_cases hr).2.1)

/-- A loop lets go in its test, its body or its `else` block. The induction is on a bound of the
rounds. -/
theorem of_looping {test body els : Behaviour} {endless : Bool}
    (h : (looping test body els endless).LetsGo) :
    test.LetsGo ∨ body.LetsGo ∨ endless = false ∧ els.LetsGo := by
  obtain ⟨σ, r, before, e, after, ⟨n, hr⟩, hrest⟩ := h
  have hround : (rounds test body els endless n).LetsGo := ⟨σ, r, before, e, after, hr, hrest⟩
  clear hr hrest
  induction n with
  | zero => exact absurd hround (not_letsGo fun _ _ h => h.elim)
  | succ n ih =>
    rcases hround.of_andThen with h | ⟨-, h⟩
    · exact Or.inl h
    · rcases h.of_either with h | h
      · cases endless with
        | true => exact absurd h (not_letsGo fun _ _ h => h.elim)
        | false => exact Or.inr (Or.inr ⟨rfl, h⟩)
      · rcases h.of_bind with h | ⟨f, -, h⟩
        · exact Or.inr (Or.inl h)
        · cases f with
          | next | continued => exact ih h
          | returned | broke | raised | unfinished => exact absurd h (not_letsGo_jump _)

/-- The block runs unless the run is given up before, or an exception enters it. -/
theorem of_final (h : (b.bind (final c)).LetsGo) :
    b.LetsGo ∨ ∃ f, (f = .next ∨ f = .returned ∨ f.isJump = true) ∧ b.Ends f ∧ c.LetsGo := by
  rcases h.of_bind with h | ⟨f, hf, h⟩
  · exact Or.inl h
  · cases f with
    | next => exact Or.inr ⟨_, by simp, hf, h.of_andThen_jump⟩
    | returned => exact Or.inr ⟨_, by simp, hf, h.of_andThen_jump⟩
    | broke | continued => exact Or.inr ⟨_, by simp [Flow.isJump], hf, h.of_andThen_jump⟩
    | unfinished => exact absurd h (not_letsGo_jump _)
    | raised =>
      rcases h.of_andThen with h | ⟨⟨σ, r, rfl, hu, -⟩, -⟩
      · refine absurd h (not_letsGo ?_)
        rintro σ r rfl e he
        rw [List.mem_singleton.1 he]
        rfl
      · exact absurd trivial (hu .raisesIntoFinal (by simp))

/-- A region with a `finally` block lets go in one of the two. -/
theorem of_closing (h : (b.bind (closing c)).LetsGo) : b.LetsGo ∨ c.LetsGo := by
  rcases h.of_bind with h | ⟨f, -, h⟩
  · exact Or.inl h
  · cases f with
    | unfinished => exact absurd h (not_letsGo_jump _)
    | next | returned | broke | continued | raised => exact Or.inr h.of_andThen_jump

end LetsGo

/-! ### Code that a verdict is about -/

/-- Code that lets go of the receiver only if the verdict on it is not safe. -/
def Watched (v : Verdict) (b : Behaviour) : Prop := v.isSafe = true → ¬b.LetsGo

namespace Watched

theorem of_not_letsGo (h : ¬b.LetsGo) (v : Verdict) : Watched v b := fun _ => h

theorem of_not_safe (h : v.isSafe = false) (b : Behaviour) : Watched v b :=
  fun hv => by simp [h] at hv

/-- A verdict on code that lets go is not safe. -/
theorem not_safe (h : Watched v b) (hb : b.LetsGo) : v.isSafe = false :=
  Bool.eq_false_iff.2 fun hv => h hv hb

/-- Verdicts in turn watch code in turn. -/
theorem andThen (hb : Watched v b) (hc : Watched w c) : Watched (v.andThen w) (b.andThen c) := by
  intro hv h
  rw [Verdict.isSafe_andThen, Bool.and_eq_true] at hv
  exact h.of_andThen.elim (hb hv.1) fun h => hc hv.2 h.2

theorem andThen_of_not_letsGo (hb : Watched v b) (hc : ¬c.LetsGo) : Watched v (b.andThen c) :=
  fun hv h => h.of_andThen.elim (hb hv) fun h => hc h.2

/-- One verdict watches both branches. -/
theorem either (hb : Watched v b) (hc : Watched v c) : Watched v (b.either c) :=
  fun hv h => h.of_either.elim (hb hv) (hc hv)

/-- Nothing happens in an evaluation but that the receiver is handed over. -/
theorem of_judged {hands : Bool} (h : Judged v (evaluating hands)) :
    Watched v (evaluating hands) := by
  refine fun hv => not_letsGo fun σ r hr e he => ?_
  obtain ⟨-, τ, rfl, -⟩ := hr.2.2 e he
  exact absurd he (h.silent hv σ r hr τ)

end Watched

end Behaviour

namespace Judge

open Behaviour

variable (j : Judge) (known : AttrSet)

/-- The verdict on an expression watches its evaluation. -/
theorem watched_expr (e : Expr) : Watched (j.expr known e) e.exec :=
  .of_judged (j.judged_expr known e)

theorem watched_expr? (e : Option Expr) : Watched (j.expr? known e) (Expr.exec? e) :=
  .of_judged (j.judged_expr? known e)

mutual

/-- The verdict on a target watches assigning to it. -/
theorem watched_target : ∀ t : Target, Watched (j.target known t) t.bind
  | .selfAttr attr _ => by
    rw [Target.bind]
    exact (Watched.of_not_letsGo not_letsGo_plain _).andThen_of_not_letsGo (not_letsGo_adds attr)
  | .self _ => by rw [Target.bind]; exact .of_not_safe rfl _
  | .name _ _ => by rw [Target.bind]; exact .of_not_letsGo not_letsGo_plain _
  | .attribute value _ _ => by rw [Target.bind, target]; exact j.watched_expr known value
  | .subscript value index _ => by
    rw [Target.bind, target]
    exact (j.watched_expr known value).andThen (j.watched_expr known index)
  | .tuple elements _ => by rw [Target.bind, target]; exact watched_targets elements

theorem watched_targets : ∀ ts : List Target, Watched (j.targets known ts) (Target.bindAll ts)
  | [] => by rw [Target.bindAll]; exact .of_not_letsGo not_letsGo_plain _
  | t :: ts => by
    rw [Target.bindAll, targets]
    exact (watched_target t).andThen (watched_targets ts)

end

theorem watched_target? (t : Option Target) :
    Watched ((t.map (j.target known)).getD .safe) ((t.map Target.bind).getD .plain) := by
  cases t with
  | none => exact .of_not_letsGo not_letsGo_plain _
  | some t => exact j.watched_target known t

/-- A `with` statement lets go of the receiver as it is entered, or in its body. -/
theorem not_safe_enter_of_letsGo {b : Behaviour} : ∀ items : List WithItem,
    (WithItem.exec b items).LetsGo → (Scope.enter j known items).isSafe = false ∨ b.LetsGo
  | [], h => by
    rw [WithItem.exec] at h
    exact Or.inr h.of_managed
  | ⟨manager, target⟩ :: rest, h => by
    rw [WithItem.exec] at h
    simp only [Scope.enter, Verdict.isSafe_andThen, Bool.and_eq_false_iff]
    rcases h.of_andThen with h | ⟨-, h⟩
    · exact Or.inl (Or.inl ((Watched.of_judged (j.judged_manager known manager)).not_safe h))
    · rcases h.of_managed.of_andThen with h | ⟨-, h⟩
      · exact Or.inl (Or.inr (Or.inl ((j.watched_target? known target).not_safe h)))
      · exact (not_safe_enter_of_letsGo rest h).imp (fun h => Or.inr (Or.inr h)) id

end Judge

/-! ## Walks that note every escape -/

variable {s t : State} {l l' : List Escape} {o p : Outcome} {walk : State → Outcome}
  {b c d : Behaviour} {v : Verdict}

/-- The receiver had escaped in the state, or an escape has been noted. -/
def Flagged (s : State) (noted : List Escape) : Prop := s.escaped = true ∨ noted ≠ []

theorem Flagged.mono (h : Flagged s l) (hl : l ⊆ l') : Flagged s l' :=
  h.imp id fun hne hnil => hne (List.eq_nil_of_subset_nil (hnil ▸ hl))

/-- What is flagged of a state that is led to is flagged of where it comes from. -/
theorem Flagged.back (h : Flagged t l) (hlead : s.LeadsTo l' t) (hl : l ⊆ l') : Flagged s l' :=
  (h.mono hl).elim hlead.cause Or.inr

theorem flagged_ofVerdict (hv : v.isSafe = false) (s : State) :
    Flagged s (Trace.ofVerdict v s).escapes :=
  (State.LeadsTo.check s v).cause (escaped_check hv)

/-- The walk from `s` notes an escape, or there was one before, if the code can let go of the
receiver. -/
structure Notices (s : State) (o : Outcome) (b : Behaviour) : Prop where
  stems : o.StemsFrom s
  noted : b.LetsGo → Flagged s o.trace.escapes

open Behaviour

/-- A walk that accounts for all runs goes on if one of them does. -/
theorem Covers.exists_next (h : Covers ∅ s o b) (hends : b.Ends .next) : ∃ t, o.next = some t := by
  obtain ⟨σ, r, hr, hu, hf⟩ := hends
  obtain ⟨t, ht, -⟩ := (h σ r (fun _ ha => ha.elim) hr hu).next hf
  exact ⟨t, ht⟩

/-- If a run returns, the walk has a return. -/
theorem Covers.exists_exit (h : Covers ∅ s o b) (hends : b.Ends .returned) :
    ∃ e, e ∈ o.trace.exits := by
  obtain ⟨σ, r, hr, hu, hf⟩ := hends
  obtain ⟨e, he, -⟩ := (h σ r (fun _ ha => ha.elim) hr hu).trace.returned hf
  exact ⟨e, he⟩

/-- If a run jumps, the walk has a jump of that kind. -/
theorem Covers.exists_jump {f : Flow} (h : Covers ∅ s o b) (hf : f.isJump = true)
    (hends : b.Ends f) (x : Trace) : ∃ t, (o.trace ++ x).jumps.on f = some t := by
  obtain ⟨σ, r, hr, hu, rfl⟩ := hends
  have hacc := (h σ r (fun _ ha => ha.elim) hr hu).accounts_trace.append_left x
  obtain ⟨t, ht, -⟩ := hacc.jumped hf
  exact ⟨t, ht⟩

namespace Notices

theorem of_not_letsGo (hb : ¬b.LetsGo) (ho : o.StemsFrom s) : Notices s o b :=
  ⟨ho, fun h => absurd h hb⟩

/-- A walk that notes the verdict on the code notes what the code lets go. -/
theorem of_watched (hb : Watched v b) (ho : o.StemsFrom s)
    (hv : (Trace.ofVerdict v s).escapes ⊆ o.trace.escapes) : Notices s o b :=
  ⟨ho, fun h => (flagged_ofVerdict (hb.not_safe h) s).mono hv⟩

/-- A verdict that watches the code notes what it lets go. -/
theorem check (hb : Watched v b) : Notices s (.check v s) b :=
  of_watched hb (.check v s) (List.Subset.refl _)

/-- So does one on an assignment. -/
theorem assign (hb : Watched v b) (m : Mode) (attrs : List Name) :
    Notices s (Scope.assign m v attrs s) b := by
  unfold Scope.assign
  split
  · rename_i hv
    refine of_not_letsGo (hb hv) (.goOn ?_)
    unfold Scope.define
    split
    · exact .refl s _
    · exact .defineAll s attrs _
  · exact check hb

/-- What is let go in the code or after it is noted by the verdict or after it. -/
theorem flagged_check_andThen (hb : Watched v b) (hc : Notices (s.check v) (walk (s.check v)) c)
    (h : b.LetsGo ∨ c.LetsGo) : Flagged s ((Outcome.check v s).andThen walk).trace.escapes := by
  have hleft := Outcome.escapes_subset_andThen (.check v s) walk
  rcases h with h | h
  · exact (flagged_ofVerdict (hb.not_safe h) s).mono hleft
  · refine (hc.noted h).back ((State.LeadsTo.check s v).mono hleft) ?_
    exact List.subset_append_right _ _

theorem check_andThen (hb : Watched v b) (hc : Notices (s.check v) (walk (s.check v)) c) :
    Notices s ((Outcome.check v s).andThen walk) (b.andThen c) where
  stems := .check_andThen hc.stems
  noted h := flagged_check_andThen hb hc (h.of_andThen.imp id And.right)

/-- A handler runs its body or leaves the exception to the next. -/
theorem handler (hb : Watched v b) (hc : Notices (s.check v) (walk (s.check v)) c)
    (hd : Notices s p d) :
    Notices s (((Outcome.check v s).andThen walk).either p) (b.andThen (.either c d)) where
  stems := (check_andThen hb hc).stems.either hd.stems
  noted h := by
    have hbody := fun h => (flagged_check_andThen hb hc h).mono
      (List.subset_append_left _ p.trace.escapes)
    rcases h.of_andThen with h | ⟨-, h⟩
    · exact hbody (Or.inl h)
    · exact h.of_either.elim (fun h => hbody (Or.inr h))
        fun h => (hd.noted h).mono (List.subset_append_right _ _)

/-- What the second of two walks notes counts from the start of the first, since the first goes on.
-/
theorem flagged_andThen (hcov : Covers ∅ s o b) (hb : Notices s o b)
    (hc : ∀ t, Notices t (walk t) c) (h : b.LetsGo ∨ b.Ends .next ∧ c.LetsGo) :
    Flagged s (o.andThen walk).trace.escapes := by
  have hleft := Outcome.escapes_subset_andThen o walk
  rcases h with h | ⟨hends, h⟩
  · exact (hb.noted h).mono hleft
  · obtain ⟨t, ht⟩ := hcov.exists_next hends
    refine ((hc t).noted h).back ((hb.stems.next t ht).mono hleft) ?_
    rw [Outcome.andThen_of_some ht]
    exact List.subset_append_right _ _

/-- Walks in turn note what the code in turn lets go. -/
theorem andThen (hcov : Covers ∅ s o b) (hb : Notices s o b) (hc : ∀ t, Notices t (walk t) c) :
    Notices s (o.andThen walk) (b.andThen c) where
  stems := hb.stems.andThen fun t => (hc t).stems
  noted h := flagged_andThen hcov hb hc h.of_andThen

/-- Walks of branches note what either lets go. -/
theorem either (hb : Notices s o b) (hc : Notices s p c) : Notices s (o.either p) (b.either c) where
  stems := hb.stems.either hc.stems
  noted h := h.of_either.elim (fun h => (hb.noted h).mono (List.subset_append_left _ _))
    fun h => (hc.noted h).mono (List.subset_append_right _ _)

/-- The region of a `try` statement. -/
theorem region (hcov : Covers ∅ s o b) (hb : Notices s o b) (hc : ∀ t, Notices t (walk t) c)
    (hd : Notices (s.interrupted o.trace) p d) :
    Notices s ((o.andThen walk).either p) (b.bind (.handling d c)) where
  stems := .region hb.stems (fun t => (hc t).stems) hd.stems
  noted h := by
    have hthrough := fun h => (flagged_andThen hcov hb hc h).mono
      (List.subset_append_left _ p.trace.escapes)
    rcases h.of_handling with h | h | h
    · exact hthrough (Or.inl h)
    · exact hthrough (Or.inr h)
    · refine (hd.noted h).back ((State.LeadsTo.interrupted s o.trace).mono ?_)
        (List.subset_append_right _ _)
      exact List.subset_append_of_subset_left _ (Outcome.escapes_subset_andThen o walk)

/-- A `with` statement, whose managers may swallow an exception. -/
theorem withItems {j : Judge} {known : AttrSet} {items : List WithItem}
    (hb : Notices (s.check (Scope.enter j known items))
      (walk (s.check (Scope.enter j known items))) b) :
    Notices s ((Outcome.check (Scope.enter j known items) s).andThen fun t =>
        ⟨mergePaths (walk t).next (some (t.interrupted (walk t).trace)), (walk t).trace⟩)
      (WithItem.exec b items) where
  stems := .check_andThen
    ⟨hb.stems.next.mergePaths (State.LeadsTo.interrupted _ _).leads, hb.stems.trace⟩
  noted h := by
    have hleft := Outcome.escapes_subset_andThen (.check (Scope.enter j known items) s) fun t =>
      ⟨mergePaths (walk t).next (some (t.interrupted (walk t).trace)), (walk t).trace⟩
    rcases j.not_safe_enter_of_letsGo known items h with hv | h
    · exact (flagged_ofVerdict hv s).mono hleft
    · exact (hb.noted h).back ((State.LeadsTo.check s _).mono hleft) (List.subset_append_right _ _)

/-- A loop is noted in its last round, from the state at rest. -/
theorem loop {l : Loop} {orelse : State → Outcome} {endless : Bool} {test body els : Behaviour}
    (htest : ∀ t, Watched (l.test t) test) (hbody : ∀ t, Notices t (l.body t) body)
    (hels : ∀ t, Notices t (orelse t) els) (s : State) :
    Notices s (l.walk endless orelse s) (.looping test body els endless) where
  stems := Loop.stemsFrom_walk (fun t => (hbody t).stems) (fun t => (hels t).stems) endless s
  noted h := by
    have hlead := Loop.tested_leadsTo_walk (fun t => (hbody t).stems) endless orelse s
    rcases h.of_looping with ht | hb | ⟨rfl, he⟩
    · exact hlead.cause (escaped_check ((htest (l.rest s)).not_safe ht))
    · exact ((hbody _).noted hb).back hlead (l.escapes_body_walk endless orelse s)
    · refine ((hels _).noted he).back hlead ?_
      rw [← l.tested_settle]
      exact List.subset_append_right _ _

end Notices

/-! ### `finally` blocks -/

namespace Outcome

/-- An escape in a `finally` block is noted on the way of a return through it. -/
theorem escapes_subset_exitThrough (walk : State → Outcome) (e : Exit) :
    (walk e.state).trace.escapes ⊆ (exitThrough walk e).escapes := by
  unfold exitThrough
  cases hn : (walk e.state).next with
  | none =>
    simp only [hn]
    exact List.Subset.refl _
  | some t =>
    simp only [hn]
    exact List.subset_append_left _ _

/-- It is noted among those of all returns. -/
theorem escapes_exitThrough_subset_foldl (walk : State → Outcome) (exits : List Exit) (x : Trace)
    {e : Exit} (he : e ∈ exits) :
    (exitThrough walk e).escapes ⊆
      (exits.foldl (fun x e => x ++ exitThrough walk e) x).escapes := by
  induction exits generalizing x with
  | nil => simp at he
  | cons e' es ih =>
    rcases List.mem_cons.1 he with rfl | he
    · have hstep : (exitThrough walk e).escapes ⊆ (x ++ exitThrough walk e).escapes :=
        List.subset_append_right _ _
      exact List.Subset.trans hstep (escapes_subset_foldl_exitThrough es _)
    · exact ih _ he

/-- An escape in the block is noted on the way of a jump through it. -/
theorem escapes_onPath_subset_jumpsThrough {jumps : Jumps} {f : Flow} (hf : f.isJump = true) :
    (onPath walk (jumps.on f)).trace.escapes ⊆ (jumpsThrough walk jumps).escapes := by
  cases f with
  | broke => exact List.subset_append_left _ _
  | continued => exact List.subset_append_right _ _
  | next | returned | raised | unfinished => simp [Flow.isJump] at hf

end Outcome

namespace Notices

/-- A region and its `finally` block. -/
theorem closeWith (hcov : Covers ∅ s o b) (hb : Notices s o b) (hc : ∀ t, Notices t (walk t) c) :
    Notices s (o.closeWith walk) (b.bind (final c)) where
  stems := .closeWith (fun t => (hc t).stems) hb.stems
  noted h := by
    have hregion := Outcome.escapes_subset_closeWith o walk
    rcases h.of_final with h | ⟨f, hf, hends, h⟩
    · exact (hb.noted h).mono hregion
    -- The block is walked from a state in which the region is left in the way `f`.
    rcases hf with rfl | rfl | hf
    · obtain ⟨t, ht⟩ := hcov.exists_next hends
      refine ((hc t).noted h).back ((hb.stems.next t ht).mono hregion) ?_
      rw [← Outcome.onPath_of_some (w := walk) ht]
      exact List.subset_append_right _ _
    · obtain ⟨e, he⟩ := hcov.exists_exit hends
      refine ((hc e.state).noted h).back ((hb.stems.trace.exits e he).mono hregion) ?_
      have hexits := Outcome.escapes_exitThrough_subset_foldl walk _ ∅ he
      exact List.Subset.trans (Outcome.escapes_subset_exitThrough walk e)
        (List.Subset.trans hexits (Outcome.escapes_exitsOut_subset_closeWith o walk))
    · obtain ⟨t, ht⟩ := hcov.exists_jump hf hends (o.exitsOut walk)
      have hlead := (Outcome.stemFrom_jumps_closeWith (fun t => (hc t).stems) hb.stems).on f t ht
      refine ((hc t).noted h).back hlead ?_
      rw [← Outcome.onPath_of_some (w := walk) ht]
      exact List.Subset.trans (Outcome.escapes_onPath_subset_jumpsThrough hf)
        (Outcome.escapes_jumpsOut_subset_closeWith o walk)

/-- A region and its `finally` block, however the block is entered. -/
theorem closeThoroughly (hb : Notices s o b) (hc : ∀ t, Notices t (walk t) c) :
    Notices s (o.closeThoroughly s walk) (b.bind (closing c)) where
  stems := (hb.stems.closeWith fun t => (hc t).stems).either_interrupted
    (Outcome.escapes_subset_closeWith o walk) (.stop (hc _).stems.trace)
  noted h := by
    have hregion : o.trace.escapes ⊆ (o.closeThoroughly s walk).trace.escapes :=
      List.subset_append_of_subset_left _ (Outcome.escapes_subset_closeWith o walk)
    rcases h.of_closing with h | h
    · exact (hb.noted h).mono hregion
    · exact ((hc _).noted h).back ((State.LeadsTo.interrupted s o.trace).mono hregion)
        (List.subset_append_right _ _)

end Notices

/-! ## Statements -/

namespace Scope

variable (sc : Scope)

theorem not_letsGo_frozenCalls (t : SuperTarget) : ¬(sc.frozenCalls t).LetsGo :=
  not_letsGo_of_quiet (sc.frozenCalls_quiet t)

mutual

/-- Deletions note what they let go. -/
theorem notices_deleteTarget : ∀ (t : Target) (s : State), Notices s (sc.deleteTarget t s) t.delete
  | .selfAttr attr span, s => by
    have hstems := (sc.tracks_deleteTarget (.selfAttr attr span) s).stems
    rw [Target.delete]
    exact .of_not_letsGo (fun h => h.of_andThen.elim not_letsGo_plain
      fun h => not_letsGo_removes attr h.2) hstems
  | .self _, s => by rw [deleteTarget, Target.delete]; exact .check (.of_not_safe rfl _)
  | .name _ _, s => by
    rw [deleteTarget, Target.delete]
    exact .of_not_letsGo not_letsGo_plain (.goOn (.refl s _))
  | .attribute value _ _, s => by
    rw [deleteTarget, Target.delete, Judge.target]
    exact .check (sc.judge.watched_expr s.defined value)
  | .subscript value index _, s => by
    rw [deleteTarget, Target.delete, Judge.target]
    exact .check ((sc.judge.watched_expr s.defined value).andThen
      (sc.judge.watched_expr s.defined index))
  | .tuple elements _, s => by
    rw [deleteTarget, Target.delete]; exact notices_deleteTargets elements s

theorem notices_deleteTargets : ∀ (ts : List Target) (s : State),
    Notices s (sc.deleteTargets ts s) (Target.deleteAll ts)
  | [], s => by
    rw [deleteTargets, Target.deleteAll]
    exact .of_not_letsGo not_letsGo_plain (.goOn (.refl s _))
  | t :: ts, s => by
    rw [deleteTargets, Target.deleteAll]
    exact .andThen (sc.covers_deleteTarget t s) (notices_deleteTarget t s)
      (notices_deleteTargets ts)

end

variable {close : Closing} {h : Behaviour → Behaviour} {fin : Behaviour → Flow → Behaviour}
  (C : Closes close h fin)

include C

/-- Statements without `finally` blocks are walked and read as they are. -/
theorem notices_of_isFinallyFree {st : Stmt} (hfree : st.isFinallyFree = true) {m : Mode}
    {s : State}
    (hn : Notices s (sc.stmt m st s) (st.exec sc.frozenCalls m.inLoop)) :
    Notices s (sc.stmtWith close m st s) (h (st.exec sc.frozenCalls m.inLoop)) := by
  rw [sc.stmtWith_eq_stmt st (by simp [hfree]), sc.read_exec C hfree]
  exact hn

variable (hclose : ∀ {s o walk b c}, Covers ∅ s o b → Notices s o b → (∀ t, Notices t (walk t) c) →
  Notices s (close o s walk) (b.bind (fin c)))

include hclose

mutual

/-- The walk of a statement notes all that it can let go as it is read. -/
theorem notices_stmtWith : ∀ (st : Stmt) (m : Mode) (s : State),
    Notices s (sc.stmtWith close m st s) (h (st.exec sc.frozenCalls m.inLoop))
  | .ifElse test body orelse _, m, s => by
    rw [stmtWith, Stmt.exec, C.andThen, C.either, Expr.exec, C.evaluating]
    exact .check_andThen (sc.judge.watched_expr s.defined test)
      (.either (notices_blockWith body m _) (notices_blockWith orelse m _))
  | .whileLoop test body orelse _, m, s => by
    rw [stmtWith, Stmt.exec, C.looping, Expr.exec, C.evaluating]
    exact .loop (fun t => sc.judge.watched_expr t.defined test) (notices_blockWith body m.loop)
      (notices_blockWith orelse m) s
  | .forLoop target source body orelse _, m, s => by
    rw [stmtWith, Stmt.exec, C.andThen, C.looping, C.andThen, Expr.exec, C.evaluating, C.plain,
      C.fixes.bindTarget]
    refine .check_andThen (sc.judge.watched_expr s.defined source) (.loop
      (fun _ => .of_not_letsGo not_letsGo_plain _) (fun t => ?_) (notices_blockWith orelse m) _)
    refine .andThen (.assign (Target.grows_bind target)
      (fun σ r hr hf a ha => Target.mem_attrs_of_bind target hr hf ha) m _) ?_
      (notices_blockWith body m.loop)
    exact .assign (sc.judge.watched_target t.defined target) m _
  | .tryBlock body handlers orelse final _, m, s => by
    have hfaithful := sc.faithful_read_frozenCalls (A := ∅) C
    have hcovers := sc.covers_blockWith C _ body ∅ hfaithful m.shield s
    have hregion := Notices.region hcovers (notices_blockWith body m.shield s)
      (notices_blockWith orelse m.shield) (notices_handlersWith handlers m.shield _)
    rw [stmtWith, Stmt.exec]
    split
    · rw [C.bind_handling]
      exact hregion
    · rw [C.final, C.bind_handling]
      -- The block is entered only from places that the walk of the region has, so that has to cover
      -- its runs.
      refine hclose ?_ hregion (notices_blockWith final m)
      exact .region hcovers (C.keeps_execAll hfaithful.keeps m.inLoop body)
        (sc.covers_blockWith C _ orelse ∅ hfaithful m.shield)
        (sc.covers_handlersWith C _ handlers ∅ hfaithful m.shield _)
  | .withBlock items body _, m, s => by
    rw [stmtWith, Stmt.exec, C.withItems]
    exact .withItems (notices_blockWith body m.shield _)
  | .assign targets value _, m, s => by
    refine sc.notices_of_isFinallyFree C rfl ?_
    rw [stmt, Stmt.exec]
    exact .assign ((Watched.of_judged (sc.judge.judged_value s.defined value)).andThen
      (sc.judge.watched_targets s.defined targets)) m _
  | .eval value _, m, s => by
    refine sc.notices_of_isFinallyFree C rfl ?_
    rw [stmt, Stmt.exec]
    exact .check (sc.judge.watched_expr s.defined value)
  | .ret value span, m, s => by
    refine sc.notices_of_isFinallyFree C rfl ?_
    rw [stmt, Stmt.exec]
    exact .check_andThen (sc.judge.watched_expr? s.defined value)
      (.of_not_letsGo (not_letsGo_jump _) (.stop (.ofExit (.refl _ _))))
  | .raise exception cause span, m, s => by
    have hstems := (sc.tracks_stmt (.raise exception cause span) rfl m s).stems
    refine sc.notices_of_isFinallyFree C rfl ?_
    rw [stmt, Stmt.exec] at *
    exact .of_watched ((sc.judge.watched_expr? s.defined exception).andThen
      ((sc.judge.watched_expr? s.defined cause).andThen_of_not_letsGo (not_letsGo_jump _))) hstems
      (Outcome.escapes_subset_andThen (.check _ s) _)
  | .assertion test message _, m, s => by
    refine sc.notices_of_isFinallyFree C rfl ?_
    rw [stmt, Stmt.exec]
    have hmessage := sc.judge.watched_expr? s.defined message
    exact .check ((sc.judge.watched_expr s.defined test).andThen
      (.either (.of_not_letsGo not_letsGo_plain _)
        (hmessage.andThen_of_not_letsGo (not_letsGo_jump _))))
  | .superInit target args keywords span, m, s => by
    have hstems := (sc.tracks_stmt (.superInit target args keywords span) rfl m s).stems
    refine sc.notices_of_isFinallyFree C rfl ?_
    rw [stmt, Stmt.exec] at *
    have hargs := Watched.of_judged (sc.judge.judged_args s.defined args keywords)
    -- The base's initializer lets go of nothing as it is read here; what its facts say of it is an
    -- escape of its own.
    exact .of_watched (hargs.andThen_of_not_letsGo (sc.not_letsGo_frozenCalls target)) hstems
      (Outcome.escapes_subset_andThen (.check _ s) _)
  | .rebindSelf value _, m, s => by
    refine sc.notices_of_isFinallyFree C rfl ?_
    rw [stmt, Stmt.exec]
    exact .check ((sc.judge.watched_expr s.defined value).andThen (.of_not_safe rfl _))
  | .delete targets _, m, s => by
    refine sc.notices_of_isFinallyFree C rfl ?_
    rw [stmt, Stmt.exec]
    exact sc.notices_deleteTargets targets s
  | .nestedDef _ capturesSelf _, m, s => by
    refine sc.notices_of_isFinallyFree C rfl ?_
    rw [stmt, Stmt.exec]
    refine .check ?_
    cases capturesSelf with
    | true => exact .of_not_safe rfl _
    | false => exact .of_not_letsGo not_letsGo_plain _
  | .pass span, m, s => by
    refine sc.notices_of_isFinallyFree C rfl
      (.of_not_letsGo ?_ (sc.tracks_stmt (.pass span) rfl m s).stems)
    rw [Stmt.exec]
    exact not_letsGo_plain
  | .breakLoop span, m, s => by
    refine sc.notices_of_isFinallyFree C rfl
      (.of_not_letsGo ?_ (sc.tracks_stmt (.breakLoop span) rfl m s).stems)
    rw [Stmt.exec]
    split
    · exact fun h => not_letsGo_plain h.of_andThen_jump
    · exact not_letsGo_plain
  | .continueLoop span, m, s => by
    refine sc.notices_of_isFinallyFree C rfl
      (.of_not_letsGo ?_ (sc.tracks_stmt (.continueLoop span) rfl m s).stems)
    rw [Stmt.exec]
    split
    · exact fun h => not_letsGo_plain h.of_andThen_jump
    · exact not_letsGo_plain
  | .unsupported _, m, s => by
    refine sc.notices_of_isFinallyFree C rfl ?_
    rw [stmt, Stmt.exec]
    exact .check (.of_not_safe rfl _)

/-- The walk of a block notes all that the block can let go as it is read. -/
theorem notices_blockWith : ∀ (ss : List Stmt) (m : Mode) (s : State),
    Notices s (sc.blockWith close m ss s) (h (Stmt.execAll sc.frozenCalls m.inLoop ss))
  | [], m, s => by
    rw [blockWith, Stmt.execAll, C.jump]
    exact .of_not_letsGo (not_letsGo_jump _) (.goOn (.refl s _))
  | st :: ss, m, s => by
    rw [blockWith, Stmt.execAll, C.andThen]
    exact .andThen (sc.covers_stmtWith C _ st ∅ (sc.faithful_read_frozenCalls C) m s)
      (notices_stmtWith st m s) (notices_blockWith ss m)

/-- The walk of handlers notes all that they can let go. -/
theorem notices_handlersWith : ∀ (hs : List Handler) (m : Mode) (s : State),
    Notices s (sc.handlersWith close m hs s) (h (Stmt.execHandlers sc.frozenCalls m.inLoop hs))
  | [], m, s => by
    rw [handlersWith, Stmt.execHandlers, C.jump]
    exact .of_not_letsGo (not_letsGo_jump _) (.stop .empty)
  | ⟨type, _, body, _⟩ :: rest, m, s => by
    rw [handlersWith, Stmt.execHandlers, C.andThen, C.either, Expr.exec?, C.evaluating]
    exact .handler (sc.judge.watched_expr? s.defined type) (notices_blockWith body m _)
      (notices_handlersWith rest m s)

end

end Scope

/-! ## Initializers -/

theorem Event.isHeard_of_letsGo {e : Event} (he : e.letsGo = true) : e.isHeard = true := by
  cases e with
  | handsOver _ | unbinds _ => rfl
  | deletes _ | drops _ | raisesIntoFinal => simp [letsGo] at he

/-- A hushed run lets go of what the run lets go. -/
theorem Behaviour.letsGo_hushed {σ : Set Name} {r : Ending} {before after : List Event} {e : Event}
    (hr : b σ r) (hlog : r.log = before ++ e :: after) (he : e.letsGo = true) :
    b.hushed.LetsGo := by
  refine ⟨σ, r.hushed, before.filter Event.isHeard, e, after.filter Event.isHeard,
    ⟨r, hr, rfl⟩, ?_, ?_,
    he⟩
  · simp [Ending.hushed, hlog, Event.isHeard_of_letsGo he]
  · rw [unspoiled_empty_iff]
    simp [Event.isHeard]

/-- An escape that is noted is in the summary. -/
theorem Summary.escaped_of_flagged {recordSites : Bool} (h : Flagged s o.trace.escapes)
    (hs : s.escaped = false) : (ofOutcome o recordSites).escaped = true := by
  have hne : o.trace.escapes ≠ [] := h.resolve_left (by simp [hs])
  simp [ofOutcome, ofStates, hne]

namespace Graph

/-- If a run lets go of the receiver, the thorough summary says that it has escaped. So does the
summary of the body, if the run lets go before an exception has entered a `finally` block. -/
theorem escaped_of_letsGo (g : Graph) (known : ClassTable Facts) (o : Options) (id : ClassId)
    (body : List Stmt) (entry : State) (hentry : entry.escaped = false) (σ : Set Name) (r : Ending)
    (hrun : (g.scope known o id).run body σ r) (before : List Event) (e : Event)
    (after : List Event)
    (hlog : r.log = before ++ e :: after) (he : e.letsGo = true) :
    (g.walkThoroughly known o id body entry).escaped = true ∧
      (Event.raisesIntoFinal ∉ before → (g.walkBody known o id body entry).escaped = true) := by
  constructor
  · have hnotices := (g.scope known o id).notices_blockWith closes_closeThoroughly
      (fun _ => Notices.closeThoroughly) body .top entry
    exact Summary.escaped_of_flagged (hnotices.noted (letsGo_hushed hrun hlog he)) hentry
  · intro hbefore
    have hnotices := (g.scope known o id).notices_blockWith closes_closeWith
      Notices.closeWith body .top entry
    rw [(g.scope known o id).blockWith_eq_block body fun _ _ _ _ => rfl] at hnotices
    have hlets : ((g.scope known o id).run body).LetsGo :=
      ⟨σ, r, before, e, after, hrun, hlog, unspoiled_empty_iff.2 hbefore, he⟩
    exact Summary.escaped_of_flagged (hnotices.noted hlets) hentry

/-- A nested function that captures the receiver is defined in a `finally` block, which only an
exception enters. -/
def capturedInFinal : List Stmt :=
  [.guarded [.throwing (.callNamed ⟨12⟩ [])] [] [] [.define ⟨10⟩ true]]

/-- Defining a nested function that captures the receiver hands it over. -/
theorem exec_define (calls : SuperTarget → Behaviour) (inLoop : Bool) (name : Name) (σ : Set Name) :
    (Stmt.define name true).exec calls inLoop σ ⟨.next, [.handsOver σ], σ⟩ := by
  have hemit : (emit .handsOver) σ ⟨.next, [.handsOver σ], σ⟩ := rfl
  rw [Stmt.define, Stmt.exec]
  exact andThen_quiet (plain_quiet rfl _) (andThen_append hemit (plain_quiet rfl _))

theorem run_capturedInFinal (sc : Scope) :
    sc.run capturedInFinal ∅ ⟨.raised, [.raisesIntoFinal, .handsOver ∅], ∅⟩ := by
  have hfinal : Stmt.execAll sc.frozenCalls false [.define ⟨10⟩ true] ∅
      ⟨.next, [.handsOver ∅] ++ [], ∅⟩ := by
    rw [Stmt.execAll, Stmt.execAll]
    exact andThen_append (exec_define _ _ _ _) rfl
  have htry := exec_guarded_throwing sc.frozenCalls false (.callNamed ⟨12⟩ []) rfl hfinal
  rw [Scope.run, capturedInFinal, Stmt.execAll]
  exact andThen_of_left htry (by simp) _

/-- A nested function that captures the receiver is defined before, too. -/
theorem escaped_of_letsGo_captured :
    (walkThoroughly .single ∅ .default ⟨0⟩ (.define ⟨11⟩ true :: capturedInFinal)
        .start).escaped = true ∧
      (Event.raisesIntoFinal ∉ ([] : List Event) →
        (walkBody .single ∅ .default ⟨0⟩ (.define ⟨11⟩ true :: capturedInFinal)
          .start).escaped = true) := by
  refine escaped_of_letsGo .single ∅ .default ⟨0⟩ (.define ⟨11⟩ true :: capturedInFinal)
    .start rfl ∅ ⟨.raised, [.handsOver ∅] ++ [.raisesIntoFinal, .handsOver ∅], ∅⟩ ?_ []
    (.handsOver ∅) [.raisesIntoFinal, .handsOver ∅] rfl rfl
  rw [Scope.run, Stmt.execAll]
  exact andThen_append (exec_define _ _ _ _) (run_capturedInFinal _)

/-- The receiver is captured in a `finally` block, and the summary does not say so. -/
theorem not_escaped_of_letsGo_capturedInFinal : ¬∀ σ r,
    (scope .single ∅ .default ⟨0⟩).run capturedInFinal σ r →
      (∃ e ∈ r.log, e.letsGo = true) →
        (walkBody .single ∅ .default ⟨0⟩ capturedInFinal .start).escaped = true := by
  intro h
  have hescaped := h ∅ _ (run_capturedInFinal _) ⟨.handsOver ∅, by simp, rfl⟩
  have hnot : (walkBody .single ∅ .default ⟨0⟩ capturedInFinal .start).escaped = false := by
    decide +kernel
  simp [hnot] at hescaped

end Graph

end DefiniteInit
