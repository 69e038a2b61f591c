import DefiniteInit.Proofs.Relabelling

/-!
# Forms that are not known

The judge trusts no form that it does not know, where it sees one. It does not see those in the
body of a lambda or in a generator, of which it asks only whether the receiver occurs there. So an
expression is not safe if a form that is not known occurs in it outside of these, and is otherwise
as safe as if constants stood for all such forms (`Judge.safeAt_iff_resolved`).
-/

namespace DefiniteInit

namespace Expr

/-- A constant in place of a form that is not known. -/
def resolveNode : Expr → Expr
  | .unsupported span => .constant .none span
  | e => e

/-- The expression with constants in place of all forms that are not known. -/
def resolved (e : Expr) : Expr := e.relabel resolveNode

/-- To put constants for unknown forms leaves all other parts where they are. -/
theorem relabels_resolveNode : Relabels resolveNode where
  parts _ e := by cases e <;> rfl
  defers e := by cases e <;> rfl

theorem isSelf_resolved (e : Expr) : e.resolved.isSelf = e.isSelf := by
  cases e <;> rfl

/-- Then no unknown form is left. -/
theorem resolved_ne_unsupported (e : Expr) (span : Span) : e.resolved ≠ .unsupported span := by
  cases e <;> simp [resolved, relabel, resolveNode]

/-- No form that is not known is left. -/
theorem not_occurs_unsupported_resolved (e : Expr) (late : Bool) (q : Place) (span : Span) :
    ¬e.resolved.Occurs late q (.unsupported span) := by
  have hnone := (relabels_resolveNode.forall_occursAt e .value fun _ _ c => c ≠ .unsupported span).2
    fun _ _ c _ => c.resolved_ne_unsupported span
  exact fun h => hnone late q _ h rfl

end Expr

namespace Judge

variable {j : Judge} {d : AttrSet}

/-- The judge accepts what it accepts with constants, but for unknown forms. -/
theorem accepts_iff_resolved (p : Place) (e : Expr) : j.accepts d p e = true ↔
    (∀ span, e ≠ .unsupported span) ∧ j.accepts d p e.resolved = true := by
  cases e with
  | unsupported span => cases p <;> simp [accepts]
  | name n kind span =>
    have hresolved : (Expr.name n kind span).resolved = .name n kind span := rfl
    simp [hresolved]
  | self span =>
    have hresolved : (Expr.self span).resolved = .self span := rfl
    simp [hresolved]
  | _ =>
    rw [accepts_of_ne p (by simp) (by simp) (by simp), accepts_of_ne p]
      <;> simp [Expr.resolved, Expr.relabel, Expr.resolveNode]

/-- An expression is safe at a place if no unknown form is evaluated in it and it is safe with
constants for them. -/
theorem safeAt_iff_resolved (p : Place) (e : Expr) : j.safeAt d p e = true ↔
    (∀ q span, ¬Expr.OccursAt p e false q (.unsupported span)) ∧
      j.safeAt d p e.resolved = true := by
  rw [safeAt_iff_occurs, safeAt_iff_occurs, Expr.resolved,
    Expr.relabels_resolveNode.forall_occursAt e p fun late q c =>
      if late then c.isSelf = false else j.accepts d q c = true]
  -- Both sides are conditions on what occurs, and occurrences correspond one to one.
  constructor
  · intro h
    refine ⟨fun q span hc => ?_, fun late q c hc => ?_⟩
    · exact ((accepts_iff_resolved q _).1 (h false q _ hc)).1 span rfl
    · cases late with
      | true => exact c.isSelf_resolved.trans (h true q c hc)
      | false => exact ((accepts_iff_resolved q c).1 (h false q c hc)).2
  · rintro ⟨hknown, h⟩ late q c hc
    cases late with
    | true => exact c.isSelf_resolved.symm.trans (h true q c hc)
    | false =>
      refine (accepts_iff_resolved q c).2 ⟨?_, h false q c hc⟩
      rintro span rfl
      exact hknown q span hc

theorem isSafe_value (e : Expr) : (j.value d e).isSafe = (j.expr d e).isSafe := by
  unfold value
  split
  next h => exact (not_isSafe_of_isSelfAlias h).symm
  next => rfl

end Judge

namespace Graph

/-- An expression is not safe, for its value or as what is assigned, if and only if a form that is
not known occurs in it outside of lambdas and generators or it would not be safe with constants in
place of all such forms. -/
theorem unknown_form_escapes_iff (g : Graph) (known : ClassTable Facts) (o : Options) (id : ClassId)
    (s : State) (e : Expr) :
    ((g.scope known o id).judge.expr s.defined e ≠ .safe ↔
      (∃ place span, e.Occurs false place (.unsupported span)) ∨
        (g.scope known o id).judge.expr s.defined e.resolved ≠ .safe) ∧
    ((g.scope known o id).judge.value s.defined e ≠ .safe ↔
      (∃ place span, e.Occurs false place (.unsupported span)) ∨
        (g.scope known o id).judge.value s.defined e.resolved ≠ .safe) ∧
    ∀ late place span, ¬e.resolved.Occurs late place (.unsupported span) := by
  have hexpr :=
    Judge.safeAt_iff_resolved (j := (g.scope known o id).judge) (d := s.defined) .value e
  have hunsafe : ((g.scope known o id).judge.expr s.defined e).isSafe ≠ true ↔
      (∃ place span, e.Occurs false place (.unsupported span)) ∨
        ((g.scope known o id).judge.expr s.defined e.resolved).isSafe ≠ true := by
    refine (not_congr hexpr).trans (not_and_or.trans (or_congr ?_ Iff.rfl))
    simp only [not_forall, not_not, Expr.Occurs]
  refine ⟨?_, ?_, e.not_occurs_unsupported_resolved⟩
  · simpa only [ne_eq, Verdict.isSafe_iff] using hunsafe
  · rw [← Judge.isSafe_value e, ← Judge.isSafe_value e.resolved] at hunsafe
    simpa only [ne_eq, Verdict.isSafe_iff] using hunsafe

/-- A function whose body is not known is safe. -/
theorem not_unknown_form_escapes_function : ¬∀ (g : Graph) known o id (s : State) (e : Expr) late
    place span, e.Occurs late place (.unsupported span) →
      (g.scope known o id).judge.expr s.defined e ≠ .safe ∧
      (g.scope known o id).judge.value s.defined e ≠ .safe := by
  intro h
  have hlate : (Expr.function .unknown).Occurs true .value (.unsupported .empty) :=
    .inside (.head _) .here
  exact (h single ∅ .default ⟨0⟩ ⟨∅, false⟩ _ _ _ _ hlate).1 (by decide +kernel)

end Graph

end DefiniteInit
