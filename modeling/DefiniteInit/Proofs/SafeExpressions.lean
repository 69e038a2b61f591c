import DefiniteInit.Proofs.Credits

/-!
# Which expressions are safe

Whether an expression of an initializer is safe can be told from what occurs in it and where. For
the judge of a class the receiver, a module-level variable and a form that is not known may stand
at some places only (`Graph.accepts_iff`), and with `Judge.safeAt_iff_occurs` that decides
(`Graph.isSafe_iff_occurs`).
-/

namespace DefiniteInit

/-! ## Safe occurrences -/

/-- The comparison, if there is one, only looks at identity. -/
def OnlyIdentity (op : Option CompareOp) : Prop := ∀ c ∈ op, c = .is ∨ c = .isNot

theorem Judge.comparesIdentity_iff {before after : Option CompareOp} :
    comparesIdentity before after = true ↔ OnlyIdentity before ∧ OnlyIdentity after := by
  have hidentity : ∀ c : CompareOp, c.isIdentity = true ↔ c = .is ∨ c = .isNot := by
    intro c
    cases c <;> simp [CompareOp.isIdentity]
  rw [comparesIdentity, Bool.and_eq_true, Option.all_eq_true, Option.all_eq_true]
  simp only [hidentity, OnlyIdentity, Option.mem_def]

namespace Graph

/-- The receiver of a class may stand at the place: a data slot that is assigned and no property
of the class is read there and not called, its class is tested, or its identity is compared. -/
def AllowsReceiver (g : Graph) (id : ClassId) (d : AttrSet) : Place → Prop
  | .receiver attr kind called =>
    kind = .data ∧ attr ∈ d ∧ ¬g.HasProperty id attr ∧ called = false
  | .subject => True
  | .operand before after => OnlyIdentity before ∧ OnlyIdentity after
  | .value | .callee | .classOperand => False

variable {g : Graph} {known : ClassTable Facts} {o : Options} {id : ClassId} {d : AttrSet}

/-- Where the judge lets the receiver stand. -/
theorem accepts_self_iff (p : Place) (span : Span) :
    (g.scope known o id).judge.accepts d p (.self span) = true ↔ g.AllowsReceiver id d p := by
  cases p with
  | receiver attr kind called =>
    simp only [Judge.accepts, Bool.and_eq_true, Bool.not_eq_true', decide_eq_true_eq]
    rw [AllowsReceiver, ← mem_lineageProperties, scope]
    tauto
  | operand before after => exact Judge.comparesIdentity_iff
  | _ => simp [Judge.accepts, AllowsReceiver]

/-- Where the judge lets a module-level variable stand. -/
theorem accepts_global_iff (p : Place) (n : Name) (span : Span) :
    (g.scope known o id).judge.accepts d p (.name n .global span) = true ↔
      (o.strictMutableGlobals = true → p = .callee ∨ p = .classOperand) := by
  cases p <;> simp [Judge.accepts, scope]

/-- Only the receiver, a form that is not known and a module-level variable need a place. -/
theorem accepts_iff (p : Place) (c : Expr) : (g.scope known o id).judge.accepts d p c = true ↔
    (∀ span, c = .self span → g.AllowsReceiver id d p) ∧ (∀ span, c ≠ .unsupported span) ∧
      (o.strictMutableGlobals = true → ∀ n span, c = .name n .global span →
        p = .callee ∨ p = .classOperand) := by
  cases c with
  | self span =>
    rw [accepts_self_iff]
    simp
  | name n kind span =>
    cases kind with
    | «global» =>
      rw [accepts_global_iff]
      simp
    | _ => cases p <;> simp [Judge.accepts]
  | unsupported span => cases p <;> simp [Judge.accepts]
  | _ =>
    rw [Judge.accepts_of_ne p (by simp) (by simp) (by simp)]
    simp

/-- An expression is safe exactly if the judge accepts all that occurs in it where it does. -/
theorem isSafe_iff_occurs (e : Expr) : ((g.scope known o id).judge.expr d e).isSafe = true ↔
    ∀ late place c, e.Occurs late place c →
      (∀ span, c = .self span → late = false ∧ g.AllowsReceiver id d place) ∧
      (∀ span, c = .unsupported span → late = true) ∧
      (o.strictMutableGlobals = true → ∀ n span, c = .name n .global span →
        late = true ∨ place = .callee ∨ place = .classOperand) := by
  refine (Judge.safeAt_iff_occurs e .value).trans (forall₄_congr fun late place c _ => ?_)
  cases late with
  | true => cases c <;> simp [Expr.isSelf]
  | false =>
    rw [if_neg (by simp), accepts_iff]
    simp

/-- An expression is safe if and only if all that occurs in it may stand where it does: the receiver
outside of lambdas and generators where `AllowsReceiver` has it, a form that is not known only
inside of these, and, if reading a module-level variable counts, such a variable only there, as a
callee or as a class in a test. Whether the receiver has escaped is all one. -/
theorem expr_eq_safe_iff_occurs (g : Graph) (known : ClassTable Facts) (o : Options) (id : ClassId)
    (s : State) (e : Expr) :
    ((g.scope known o id).judge.expr s.defined e = .safe ↔
      (∀ late place span, e.Occurs late place (.self span) →
        late = false ∧ g.AllowsReceiver id s.defined place) ∧
      (∀ late place span, e.Occurs late place (.unsupported span) → late = true) ∧
      (o.strictMutableGlobals = true → ∀ late place n span,
        e.Occurs late place (.name n .global span) →
          late = true ∨ place = .callee ∨ place = .classOperand)) ∧
    (∀ escaped, (g.scope known o id).judge.expr { s with escaped }.defined e =
      (g.scope known o id).judge.expr s.defined e) ∧
    (o.strictMutableGlobals = false →
      (∀ late place c, e.Occurs late place c → (∀ span, c ≠ .self span) ∧
        ∀ span, c ≠ .unsupported span) →
      (g.scope known o id).judge.expr s.defined e = .safe) := by
  refine ⟨?_, fun _ => rfl, fun hstrict hnone => ?_⟩
  -- One condition on all that occurs is three, one for each kind of occurrence.
  · rw [← Verdict.isSafe_iff, isSafe_iff_occurs]
    constructor
    · intro h
      exact ⟨fun late place span hc => (h late place _ hc).1 span rfl,
        fun late place span hc => (h late place _ hc).2.1 span rfl,
        fun hstrict late place n span hc => (h late place _ hc).2.2 hstrict n span rfl⟩
    · rintro ⟨hself, hunsupported, hglobal⟩ late place c hc
      refine ⟨?_, ?_, ?_⟩
      · rintro span rfl
        exact hself late place span hc
      · rintro span rfl
        exact hunsupported late place span hc
      · rintro hstrict n span rfl
        exact hglobal hstrict late place n span hc
  · rw [← Verdict.isSafe_iff, isSafe_iff_occurs]
    intro late place c hc
    obtain ⟨hself, hunsupported⟩ := hnone late place c hc
    exact ⟨fun span h => absurd h (hself span), fun span h => absurd h (hunsupported span),
      fun h => by simp [hstrict] at h⟩

/-- A test of the receiver's class, then a read of an attribute of it or a function of a body that
is not known. -/
def testedRead : Expr :=
  .choice (.instanceOf .receiver ⟨5⟩) (.selfAttr ⟨30⟩) (.function (.unsupported .empty))

/-- Once the attribute is assigned the expression is safe, and the receiver stands where it
may. -/
theorem expr_eq_safe_iff_occurs_testedRead :
    ∃ o : Options, o.strictMutableGlobals = true ∧
      (single.scope ∅ o ⟨0⟩).judge.expr (.ofList [⟨30⟩]) testedRead = .safe ∧
      testedRead.Occurs true .value (.unsupported .empty) ∧
      testedRead.Occurs false .classOperand (.name ⟨5⟩ .global .empty) ∧
      testedRead.Occurs false (.receiver ⟨30⟩ .data false) .receiver ∧
      single.AllowsReceiver ⟨0⟩ (.ofList [⟨30⟩]) (.receiver ⟨30⟩ .data false) := by
  obtain ⟨o, hstrict, hsafe⟩ : ∃ o : Options, o.strictMutableGlobals = true ∧
      (single.scope ∅ o ⟨0⟩).judge.expr (.ofList [⟨30⟩]) testedRead = .safe :=
    ⟨{ Options.default with strictMutableGlobals := true }, rfl, by decide +kernel⟩
  have hreceiver : testedRead.Occurs false (.receiver ⟨30⟩ .data false) .receiver :=
    .inside (.tail _ (.head _)) (.inside (.head _) .here)
  obtain ⟨hself, -, -⟩ := (expr_eq_safe_iff_occurs single ∅ o ⟨0⟩
    ⟨.ofList [⟨30⟩], false⟩ testedRead).1.1 hsafe
  refine ⟨o, hstrict, hsafe, ?_, ?_, hreceiver, (hself _ _ _ hreceiver).2⟩
  · exact .inside (.tail _ (.tail _ (.head _))) (.inside (.head _) .here)
  · exact .inside (.head _) (.inside (.tail _ (.head _)) .here)

end Graph

end DefiniteInit
