import DefiniteInit.Proofs.RunLaws

/-!
# What is found safe hands nothing over

Code that is found safe makes no call that gets the receiver
(`Judge.handsOver_of_isSafe`), so no run of it hands the receiver over
(`Behaviour.Silent`, `Behaviour.Judged`). The proofs go over expressions as the verdict does.
Code that is run later, in a lambda or a generator expression, is found safe only if the
receiver does not occur in it (`Expr.handsOver_of_mentionsSelf`).
-/

namespace DefiniteInit

namespace Expr

theorem exists_self_of_isSelf {e : Expr} (h : e.isSelf = true) : ∃ span, e = .self span := by
  unfold isSelf at h
  split at h
  · exact ⟨_, rfl⟩
  · exact absurd h (by decide)

theorem exists_name_of_isName {e : Expr} (h : e.isName = true) :
    ∃ id kind span, e = .name id kind span := by
  unfold isName at h
  split at h
  · exact ⟨_, _, _, rfl⟩
  · exact absurd h (by decide)

/-- The receiver mentions itself. -/
theorem mentionsSelf_of_isSelf {e : Expr} (h : e.isSelf = true) : e.mentionsSelf = true := by
  obtain ⟨span, rfl⟩ := exists_self_of_isSelf h
  rw [mentionsSelf]

theorem anyMentionsSelf_of_any_isSelf {es : List Expr} (h : es.any isSelf = true) :
    anyMentionsSelf es = true := by
  induction es with
  | nil => simp at h
  | cons e es ih =>
    rw [List.any_cons, Bool.or_eq_true] at h
    rw [anyMentionsSelf, Bool.or_eq_true]
    exact h.imp mentionsSelf_of_isSelf ih

theorem keywordsMentionSelf_of_any_isSelf {ks : List Keyword}
    (h : (ks.any fun k => k.value.isSelf) = true) : keywordsMentionSelf ks = true := by
  induction ks with
  | nil => simp at h
  | cons k ks ih =>
    rw [List.any_cons, Bool.or_eq_true] at h
    obtain ⟨label, value⟩ := k
    rw [keywordsMentionSelf, Bool.or_eq_true]
    exact h.imp mentionsSelf_of_isSelf ih

/-- A method of the receiver mentions it. -/
theorem mentionsSelf_of_selfMethod? {e : Expr} (h : e.selfMethod?.isSome = true) :
    e.mentionsSelf = true := by
  unfold selfMethod? at h
  split at h
  · simp [mentionsSelf]
  · simp at h

mutual

/-- Without the receiver no call can get it. -/
theorem handsOver_of_mentionsSelf : ∀ e : Expr, e.mentionsSelf = false → e.handsOver = false
  | .constant _ _, _ | .self _, _ | .name _ _ _, _ | .unsupported _, _ => by rw [handsOver]
  | .attribute value _ _ _, h => by
    rw [mentionsSelf] at h
    rw [handsOver, handsOver_of_mentionsSelf value h]
  | .subscript value index _, h => by
    rw [mentionsSelf, Bool.or_eq_false_iff] at h
    rw [handsOver, handsOver_of_mentionsSelf value h.1, handsOver_of_mentionsSelf index h.2]
    rfl
  | .binary left _ right _, h => by
    rw [mentionsSelf, Bool.or_eq_false_iff] at h
    rw [handsOver, handsOver_of_mentionsSelf left h.1, handsOver_of_mentionsSelf right h.2]
    rfl
  | .unary _ operand _, h => by
    rw [mentionsSelf] at h
    rw [handsOver, handsOver_of_mentionsSelf operand h]
  | .logic _ values _, h => by
    rw [mentionsSelf] at h
    rw [handsOver, anyHandsOver_of_mentionsSelf values h]
  | .compare left _ comparators _, h => by
    rw [mentionsSelf, Bool.or_eq_false_iff] at h
    rw [handsOver, handsOver_of_mentionsSelf left h.1, anyHandsOver_of_mentionsSelf comparators h.2]
    rfl
  | .conditional test body orelse _, h => by
    rw [mentionsSelf, Bool.or_eq_false_iff, Bool.or_eq_false_iff] at h
    rw [handsOver, handsOver_of_mentionsSelf test h.1.1, handsOver_of_mentionsSelf body h.1.2,
      handsOver_of_mentionsSelf orelse h.2]
    rfl
  | .collection _ elements _, h => by
    rw [mentionsSelf] at h
    rw [handsOver, anyHandsOver_of_mentionsSelf elements h]
  | .dict entries _, h => by
    rw [mentionsSelf] at h
    rw [handsOver, entriesHandOver_of_mentionsSelf entries h]
  | .comprehension _ element value generators _, h => by
    rw [mentionsSelf, Bool.or_eq_false_iff, Bool.or_eq_false_iff] at h
    rw [handsOver, handsOver_of_mentionsSelf element h.1.1,
      valueHandsOver_of_mentionsSelf value h.1.2,
      generatorsHandOver_of_mentionsSelf generators h.2]
    rfl
  | .call callee args keywords _, h => by
    rw [mentionsSelf, Bool.or_eq_false_iff, Bool.or_eq_false_iff] at h
    -- Each of the ways in which a call hands the receiver over has a mention of it.
    have hmethod : callee.selfMethod?.isSome = false :=
      Bool.eq_false_iff.2 fun hm => by simp [mentionsSelf_of_selfMethod? hm] at h
    have hargs : args.any isSelf = false :=
      Bool.eq_false_iff.2 fun ha => by simp [anyMentionsSelf_of_any_isSelf ha] at h
    have hkeywords : (keywords.any fun k => k.value.isSelf) = false :=
      Bool.eq_false_iff.2 fun hk => by simp [keywordsMentionSelf_of_any_isSelf hk] at h
    rw [handsOver, hmethod, hargs, hkeywords, handsOver_of_mentionsSelf callee h.1.1,
      anyHandsOver_of_mentionsSelf args h.1.2, keywordsHandOver_of_mentionsSelf keywords h.2]
    rfl
  | .isInstance value classes _, h => by
    rw [mentionsSelf, Bool.or_eq_false_iff] at h
    rw [handsOver, handsOver_of_mentionsSelf value h.1, anyHandsOver_of_mentionsSelf classes h.2]
    rfl
  | .cast value _, h | .lambda value _, h | .bind _ value _, h | .starred value _, h => by
    rw [mentionsSelf] at h
    rw [handsOver, handsOver_of_mentionsSelf value h]

/-- Nor do the parts of such an expression, in whatever list they stand. -/
theorem anyHandsOver_of_mentionsSelf : ∀ es : List Expr,
    anyMentionsSelf es = false → anyHandsOver es = false
  | [], _ => by rw [anyHandsOver]
  | e :: es, h => by
    rw [anyMentionsSelf, Bool.or_eq_false_iff] at h
    rw [anyHandsOver, handsOver_of_mentionsSelf e h.1, anyHandsOver_of_mentionsSelf es h.2]
    rfl

theorem valueHandsOver_of_mentionsSelf : ∀ e : Option Expr,
    valueMentionsSelf e = false → valueHandsOver e = false
  | none, _ => by rw [valueHandsOver]
  | some e, h => by
    rw [valueMentionsSelf] at h
    rw [valueHandsOver, handsOver_of_mentionsSelf e h]

theorem entriesHandOver_of_mentionsSelf : ∀ es : List DictEntry,
    entriesMentionSelf es = false → entriesHandOver es = false
  | [], _ => by rw [entriesHandOver]
  | ⟨key, value⟩ :: rest, h => by
    rw [entriesMentionSelf, Bool.or_eq_false_iff, Bool.or_eq_false_iff] at h
    rw [entriesHandOver, valueHandsOver_of_mentionsSelf key h.1.1,
      handsOver_of_mentionsSelf value h.1.2, entriesHandOver_of_mentionsSelf rest h.2]
    rfl

theorem generatorsHandOver_of_mentionsSelf : ∀ gs : List Generator,
    generatorsMentionSelf gs = false → generatorsHandOver gs = false
  | [], _ => by rw [generatorsHandOver]
  | ⟨_, source, filters⟩ :: rest, h => by
    rw [generatorsMentionSelf, Bool.or_eq_false_iff, Bool.or_eq_false_iff] at h
    rw [generatorsHandOver, handsOver_of_mentionsSelf source h.1.1,
      anyHandsOver_of_mentionsSelf filters h.1.2, generatorsHandOver_of_mentionsSelf rest h.2]
    rfl

theorem keywordsHandOver_of_mentionsSelf : ∀ ks : List Keyword,
    keywordsMentionSelf ks = false → keywordsHandOver ks = false
  | [], _ => by rw [keywordsHandOver]
  | ⟨_, value⟩ :: rest, h => by
    rw [keywordsMentionSelf, Bool.or_eq_false_iff] at h
    rw [keywordsHandOver, handsOver_of_mentionsSelf value h.1,
      keywordsHandOver_of_mentionsSelf rest h.2]
    rfl

end

/-- The receiver by itself is not handed over. -/
theorem handsOver_of_isSelf {e : Expr} (h : e.isSelf = true) : e.handsOver = false := by
  obtain ⟨span, rfl⟩ := exists_self_of_isSelf h
  rw [handsOver]

/-- Nor is a name. -/
theorem handsOver_of_isName {e : Expr} (h : e.isName = true) : e.handsOver = false := by
  obtain ⟨id, kind, span, rfl⟩ := exists_name_of_isName h
  rw [handsOver]

end Expr

namespace Judge

open DefiniteInit.Expr

variable (j : Judge) (d : AttrSet)

/-- The receiver by itself is not safe as a value. -/
theorem isSelf_of_isSafe {e : Expr} (h : (j.expr d e).isSafe = true) : e.isSelf = false := by
  cases e <;> first | rfl | simp [expr, Verdict.escape, Verdict.isSafe] at h

/-- So it is none of several values that are safe. -/
theorem any_isSelf_of_isSafe {es : List Expr} (h : (j.exprs d es).isSafe = true) :
    es.any isSelf = false := by
  induction es with
  | nil => rfl
  | cons e es ih =>
    rw [exprs, Verdict.isSafe_andThen, Bool.and_eq_true] at h
    rw [List.any_cons, j.isSelf_of_isSafe d h.1, ih h.2]
    rfl

theorem any_keyword_isSelf_of_isSafe {ks : List Keyword} (h : (j.keywords d ks).isSafe = true) :
    (ks.any fun k => k.value.isSelf) = false := by
  induction ks with
  | nil => rfl
  | cons k ks ih =>
    obtain ⟨label, value⟩ := k
    rw [keywords, Verdict.isSafe_andThen, Bool.and_eq_true] at h
    rw [List.any_cons, j.isSelf_of_isSafe d h.1, ih h.2]
    rfl

mutual

/-- An expression that is found safe makes no call that gets the receiver. -/
theorem handsOver_of_isSafe : ∀ e : Expr, (j.expr d e).isSafe = true → e.handsOver = false
  | .constant _ _, _ | .self _, _ | .name _ _ _, _ | .unsupported _, _ => by rw [handsOver]
  | .attribute value _ _ _, h => by
    rw [handsOver]
    -- The judge looks at a slot of the receiver and not at the receiver itself, which is handed
    -- over only as a value.
    by_cases hself : value.isSelf = true
    · exact handsOver_of_isSelf hself
    · rw [expr, if_neg hself] at h
      exact handsOver_of_isSafe value h
  | .subscript value index _, h => by
    rw [expr, Verdict.isSafe_andThen, Bool.and_eq_true] at h
    rw [handsOver, handsOver_of_isSafe value h.1, handsOver_of_isSafe index h.2]
    rfl
  | .binary left _ right _, h => by
    rw [expr, Verdict.isSafe_andThen, Bool.and_eq_true] at h
    rw [handsOver, handsOver_of_isSafe left h.1, handsOver_of_isSafe right h.2]
    rfl
  | .unary _ operand _, h => by
    rw [expr] at h
    rw [handsOver, handsOver_of_isSafe operand h]
  | .logic _ values _, h => by
    rw [expr] at h
    rw [handsOver, anyHandsOver_of_isSafe values h]
  | .compare left ops comparators _, h => by
    rw [expr, Verdict.isSafe_andThen, Bool.and_eq_true] at h
    have hleft : left.handsOver = false := by
      by_cases hself : left.isSelf = true
      · exact handsOver_of_isSelf hself
      · rw [if_neg (by simp [hself])] at h
        exact handsOver_of_isSafe left h.1
    rw [handsOver, hleft, anyHandsOver_of_isSafe_operands ops comparators h.2]
    rfl
  | .conditional test body orelse _, h => by
    simp only [expr, Verdict.isSafe_andThen, Bool.and_eq_true] at h
    rw [handsOver, handsOver_of_isSafe test h.1, handsOver_of_isSafe body h.2.1,
      handsOver_of_isSafe orelse h.2.2]
    rfl
  | .collection _ elements _, h => by
    rw [expr] at h
    rw [handsOver, anyHandsOver_of_isSafe elements h]
  | .dict entries _, h => by
    rw [expr] at h
    rw [handsOver, entriesHandOver_of_isSafe entries h]
  -- A generator is run later and must not mention the receiver at all.
  | .comprehension kind element value generators span, h => by
    rw [expr] at h
    split at h
    · split at h
      · simp [Verdict.escape, Verdict.isSafe] at h
      · rename_i hself
        exact handsOver_of_mentionsSelf _ (Bool.eq_false_iff.2 hself)
    · simp only [Verdict.isSafe_andThen, Bool.and_eq_true] at h
      rw [handsOver, handsOver_of_isSafe element h.2.1, valueHandsOver_of_isSafe value h.2.2,
        generatorsHandOver_of_isSafe generators h.1]
      rfl
  | .call callee args keywords _, h => by
    rw [expr] at h
    cases hmethod : callee.selfMethod? with
    | some method => simp [hmethod, Verdict.escape, Verdict.isSafe] at h
    | none =>
      simp only [hmethod, Verdict.isSafe_andThen, Bool.and_eq_true] at h
      have hcallee : callee.handsOver = false := by
        by_cases hname : callee.isName = true
        · exact handsOver_of_isName hname
        · rw [if_neg hname] at h
          exact handsOver_of_isSafe callee h.1
      rw [handsOver, hmethod, j.any_isSelf_of_isSafe d h.2.1,
        j.any_keyword_isSelf_of_isSafe d h.2.2,
        hcallee, anyHandsOver_of_isSafe args h.2.1, keywordsHandOver_of_isSafe keywords h.2.2]
      rfl
  | .isInstance value classes _, h => by
    rw [expr, Verdict.isSafe_andThen, Bool.and_eq_true] at h
    have hvalue : value.handsOver = false := by
      by_cases hself : value.isSelf = true
      · exact handsOver_of_isSelf hself
      · rw [if_neg hself] at h
        exact handsOver_of_isSafe value h.1
    rw [handsOver, hvalue, anyHandsOver_of_isSafe_classes classes h.2]
    rfl
  | .cast value _, h | .starred value _, h => by
    rw [expr] at h
    rw [handsOver, handsOver_of_isSafe value h]
  | .lambda body _, h => by
    rw [expr] at h
    split at h
    · simp [Verdict.escape, Verdict.isSafe] at h
    · rename_i hself
      rw [handsOver, handsOver_of_mentionsSelf body (Bool.eq_false_iff.2 hself)]
  | .bind _ value _, h => by
    rw [expr] at h
    split at h
    · simp [Verdict.aliasing, Verdict.isSafe] at h
    · rw [handsOver, handsOver_of_isSafe value h]

/-- Nor do the parts of a safe expression, in whatever list they stand. -/
theorem anyHandsOver_of_isSafe : ∀ es : List Expr,
    (j.exprs d es).isSafe = true → anyHandsOver es = false
  | [], _ => by rw [anyHandsOver]
  | e :: es, h => by
    rw [exprs, Verdict.isSafe_andThen, Bool.and_eq_true] at h
    rw [anyHandsOver, handsOver_of_isSafe e h.1, anyHandsOver_of_isSafe es h.2]
    rfl

theorem valueHandsOver_of_isSafe : ∀ e : Option Expr,
    (j.expr? d e).isSafe = true → valueHandsOver e = false
  | none, _ => by rw [valueHandsOver]
  | some e, h => by
    rw [expr?] at h
    rw [valueHandsOver, handsOver_of_isSafe e h]

theorem anyHandsOver_of_isSafe_operands : ∀ (ops : List CompareOp) (es : List Expr),
    (j.operands d ops es).isSafe = true → anyHandsOver es = false
  | _, [], _ => by rw [anyHandsOver]
  | ops, e :: es, h => by
    rw [operands, Verdict.isSafe_andThen, Bool.and_eq_true] at h
    have he : e.handsOver = false := by
      by_cases hself : e.isSelf = true
      · exact handsOver_of_isSelf hself
      · rw [if_neg (by simp [hself])] at h
        exact handsOver_of_isSafe e h.1
    rw [anyHandsOver, he, anyHandsOver_of_isSafe_operands ops.tail es h.2]
    rfl

theorem entriesHandOver_of_isSafe : ∀ es : List DictEntry,
    (j.entries d es).isSafe = true → entriesHandOver es = false
  | [], _ => by rw [entriesHandOver]
  | ⟨key, value⟩ :: rest, h => by
    simp only [entries, Verdict.isSafe_andThen, Bool.and_eq_true] at h
    rw [entriesHandOver, valueHandsOver_of_isSafe key h.1, handsOver_of_isSafe value h.2.1,
      entriesHandOver_of_isSafe rest h.2.2]
    rfl

theorem generatorsHandOver_of_isSafe : ∀ gs : List Generator,
    (j.generators d gs).isSafe = true → generatorsHandOver gs = false
  | [], _ => by rw [generatorsHandOver]
  | ⟨_, source, filters⟩ :: rest, h => by
    simp only [generators, Verdict.isSafe_andThen, Bool.and_eq_true] at h
    rw [generatorsHandOver, handsOver_of_isSafe source h.1, anyHandsOver_of_isSafe filters h.2.1,
      generatorsHandOver_of_isSafe rest h.2.2]
    rfl

theorem keywordsHandOver_of_isSafe : ∀ ks : List Keyword,
    (j.keywords d ks).isSafe = true → keywordsHandOver ks = false
  | [], _ => by rw [keywordsHandOver]
  | ⟨_, value⟩ :: rest, h => by
    rw [keywords, Verdict.isSafe_andThen, Bool.and_eq_true] at h
    rw [keywordsHandOver, handsOver_of_isSafe value h.1, keywordsHandOver_of_isSafe rest h.2]
    rfl

theorem anyHandsOver_of_isSafe_classes : ∀ es : List Expr,
    (j.classes d es).isSafe = true → anyHandsOver es = false
  | [], _ => by rw [anyHandsOver]
  | e :: es, h => by
    rw [classes, Verdict.isSafe_andThen, Bool.and_eq_true] at h
    have he : e.handsOver = false := by
      by_cases hname : e.isName = true
      · exact handsOver_of_isName hname
      · rw [if_neg hname] at h
        exact handsOver_of_isSafe e h.1
    rw [anyHandsOver, he, anyHandsOver_of_isSafe_classes es h.2]
    rfl

end

end Judge

/-! ## Code that a verdict is about -/

namespace Behaviour

variable {b c : Behaviour} {v w : Verdict}

/-- No run hands the receiver over. -/
def Silent (b : Behaviour) : Prop := ∀ σ r, b σ r → ∀ τ, Event.handsOver τ ∉ r.log

theorem silent_plain : plain.Silent := by
  rintro σ r ⟨-, hlog, -⟩ τ
  simp [hlog]

theorem silent_jump (f : Flow) : (jump f).Silent := by
  rintro σ r rfl τ
  simp

theorem silent_adds (attr : Name) : (adds attr).Silent := by
  rintro σ r rfl τ
  simp

theorem silent_removes (attr : Name) : (removes attr).Silent := by
  rintro σ r rfl τ
  simp

theorem silent_unbinds : (emit .unbinds).Silent := by
  rintro σ r rfl τ
  simp

/-- An evaluation that hands nothing over is silent. -/
theorem silent_evaluating {hands : Bool} (h : hands = false) : (evaluating hands).Silent := by
  rintro σ r ⟨-, -, hlog⟩ τ hτ
  obtain ⟨htrue, -⟩ := hlog _ hτ
  simp [h] at htrue

/-- Silent code after silent code is silent. -/
theorem Silent.andThen (hb : b.Silent) (hc : c.Silent) : (b.andThen c).Silent := by
  intro σ r h τ hτ
  rcases andThen_cases h with ⟨r₁, r₂, h₁, -, h₂, rfl⟩ | ⟨h, -⟩
  · exact (List.mem_append.1 hτ).elim (hb σ r₁ h₁ τ) (hc _ r₂ h₂ τ)
  · exact hb σ r h τ hτ

theorem Silent.either (hb : b.Silent) (hc : c.Silent) : (b.either c).Silent :=
  fun σ r h => h.elim (hb σ r) (hc σ r)

/-- Code that only adds, and that hands nothing over if the verdict on it is safe. -/
structure Judged (v : Verdict) (b : Behaviour) : Prop where
  grows : b.Grows
  keeps : b.Keeps
  silent : v.isSafe = true → b.Silent

namespace Judged

/-- Code judged piece by piece is judged by the verdicts in turn. -/
theorem andThen (hb : Judged v b) (hc : Judged w c) : Judged (v.andThen w) (b.andThen c) where
  grows := hb.grows.andThen hc.grows
  keeps := keeps_law.andThen hb.keeps hc.keeps
  silent h := by
    rw [Verdict.isSafe_andThen, Bool.and_eq_true] at h
    exact (hb.silent h.1).andThen (hc.silent h.2)

/-- One verdict serves for two pieces of code of which one runs. -/
theorem either (hb : Judged v b) (hc : Judged v c) : Judged v (b.either c) where
  grows := hb.grows.either hc.grows
  keeps := keeps_law.either hb.keeps hc.keeps
  silent h := (hb.silent h).either (hc.silent h)

theorem plain (v : Verdict) : Judged v plain :=
  ⟨grows_plain, keeps_law.plain, fun _ => silent_plain⟩

theorem raise (v : Verdict) : Judged v (jump .raised) :=
  ⟨grows_jump rfl, keeps_law.jump _, fun _ => silent_jump _⟩

/-- To unbind the receiver's name hands nothing over. -/
theorem unbinding (v : Verdict) : Judged v unbinding where
  grows := grows_unbinding
  keeps := keeps_law.unbinding
  silent _ := silent_plain.andThen silent_unbinds

/-- Code that lets go of the receiver is not safe. -/
theorem handing (h : v.isSafe = false) : Judged v handing where
  grows := grows_handing
  keeps := keeps_law.handing
  silent hv := by simp [h] at hv

/-- An evaluation is judged if it hands nothing over where the verdict is safe. -/
theorem evaluating {hands : Bool} (h : v.isSafe = true → hands = false) :
    Judged v (evaluating hands) where
  grows := grows_evaluating hands
  keeps := keeps_evaluating hands
  silent hv := silent_evaluating (h hv)

end Judged

end Behaviour

namespace Judge

open Behaviour

variable (j : Judge) (d : AttrSet)

/-- The verdict on an expression is one on its evaluation. -/
theorem judged_expr (e : Expr) : Judged (j.expr d e) e.exec :=
  .evaluating (j.handsOver_of_isSafe d e)

theorem judged_expr? (e : Option Expr) : Judged (j.expr? d e) (Expr.exec? e) :=
  .evaluating (j.valueHandsOver_of_isSafe d e)

/-- So is the verdict on a value to be assigned. -/
theorem judged_value (e : Expr) : Judged (j.value d e) e.exec := by
  unfold value
  split
  · exact .evaluating (by simp [Verdict.aliasing, Verdict.isSafe])
  · exact j.judged_expr d e

/-- The verdict on arguments is one on their evaluation. -/
theorem judged_args (args : List Expr) (keywords : List Keyword) :
    Judged ((j.exprs d args).andThen (j.keywords d keywords))
      (.evaluating (Expr.argsHandOver args keywords)) := by
  refine .evaluating fun h => ?_
  rw [Verdict.isSafe_andThen, Bool.and_eq_true] at h
  rw [Expr.argsHandOver, j.any_isSelf_of_isSafe d h.1, j.any_keyword_isSelf_of_isSafe d h.2,
    j.anyHandsOver_of_isSafe d args h.1, j.keywordsHandOver_of_isSafe d keywords h.2]
  rfl

mutual

/-- What an assignment evaluates to find its target is what the verdict on the target is
about. -/
theorem judged_target : ∀ t : Target, Judged (j.target d t) t.bind
  | .selfAttr attr _ => by
    rw [Target.bind]
    exact ⟨grows_plain.andThen (grows_adds attr),
      keeps_law.andThen keeps_law.plain (keeps_law.adds attr),
      fun _ => silent_plain.andThen (silent_adds attr)⟩
  | .self _ => by rw [Target.bind]; exact .unbinding _
  | .name _ _ => by rw [Target.bind]; exact .plain _
  | .attribute value _ _ => by rw [Target.bind, target]; exact j.judged_expr d value
  | .subscript value index _ => by
    rw [Target.bind, target]; exact (j.judged_expr d value).andThen (j.judged_expr d index)
  | .tuple elements _ => by rw [Target.bind, target]; exact judged_targets elements

/-- The verdict on targets is one on assigning to them. -/
theorem judged_targets : ∀ ts : List Target, Judged (j.targets d ts) (Target.bindAll ts)
  | [] => by rw [Target.bindAll]; exact .plain _
  | t :: ts => by
    rw [Target.bindAll, targets]; exact (judged_target t).andThen (judged_targets ts)

end

theorem judged_target? (t : Option Target) :
    Judged ((t.map (j.target d)).getD .safe) ((t.map Target.bind).getD .plain) := by
  cases t with
  | none => exact .plain _
  | some t => exact j.judged_target d t

/-- The verdict on a manager is one on entering it. -/
theorem judged_manager (e : Expr) : Judged (Scope.manager j d e) e.exec := by
  unfold Scope.manager
  split
  · exact .evaluating (by simp [Verdict.escape, Verdict.isSafe])
  · exact j.judged_expr d e

end Judge

end DefiniteInit
