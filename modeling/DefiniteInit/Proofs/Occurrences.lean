import DefiniteInit.Verdict
import Mathlib.Data.List.Basic

/-!
# What occurs in an expression

An expression is used by the one around it in one of a few ways, its place there (`Place`). What
occurs in an expression has a place, and may be late: in the body of a lambda or in a generator,
which are evaluated when the initializer may have returned (`Expr.OccursAt`). What holds of an
expression if it holds of its parts holds of all (`Expr.induction_on_parts`).

A judge finds an expression safe if and only if it accepts every part that is not late in its place
and the receiver does not occur late (`Judge.safeAt_iff_occurs`). Both are shown for one step from
an expression to its parts, and the expression is as safe as its parts let it be
(`Judge.safeAt_eq_parts`). So a judge who accepts all that another does finds safe all that the
other does. That is the case if more is assigned, or if reading a module-level variable no longer
counts (`Judge.isSafe_expr_mono`).
-/

namespace DefiniteInit

/-! ## Parts and occurrences -/

/-- How an expression is used by the one it is part of. -/
inductive Place where
  /-- For its value. -/
  | value
  /-- An attribute of it is read, which is then called or not. -/
  | receiver (attr : Name) (kind : AttrKind) (called : Bool)
  /-- It is called. -/
  | callee
  /-- Its class is tested. -/
  | subject
  /-- It is one of the classes of such a test. -/
  | classOperand
  /-- It is compared, with these comparisons before and after it. -/
  | operand (before after : Option CompareOp)
deriving DecidableEq

/-- The expressions of an entry. -/
def DictEntry.parts (entry : DictEntry) : List Expr := entry.key.toList ++ [entry.value]

/-- The expressions of a clause. -/
def Generator.parts (clause : Generator) : List Expr := clause.source :: clause.filters

namespace Expr

/-- Whether the parts are evaluated later, perhaps after the initializer has returned. -/
def defers : Expr → Bool
  | .lambda _ _ | .comprehension .generator _ _ _ _ => true
  | _ => false

/-- The parts of an expression that stands at a place, each at its own. -/
def parts (p : Place) : Expr → List (Place × Expr)
  | .constant _ _ | .self _ | .name _ _ _ | .unsupported _ => []
  | .attribute value attr kind _ => [(.receiver attr kind (p = .callee), value)]
  | .subscript value index _ => [value, index].map (.mk .value)
  | .binary left _ right _ => [left, right].map (.mk .value)
  | .logic _ values _ => values.map (.mk .value)
  | .compare left ops comparators _ =>
    (.operand none ops[0]?, left) ::
      comparators.mapIdx fun i e => (.operand ops[i]? ops[i + 1]?, e)
  | .conditional test body orelse _ => [test, body, orelse].map (.mk .value)
  | .collection _ elements _ => elements.map (.mk .value)
  | .dict entries _ => (entries.flatMap DictEntry.parts).map (.mk .value)
  | .comprehension _ element value clauses _ =>
    (clauses.flatMap Generator.parts ++ element :: value.toList).map (.mk .value)
  | .call callee args keywords _ =>
    (.callee, callee) :: (args ++ keywords.map Keyword.value).map (.mk .value)
  | .isInstance value classes _ => (.subject, value) :: classes.map (.mk .classOperand)
  | .unary _ value _ | .cast value _ | .lambda value _ | .bind _ value _ | .starred value _ =>
    [(.value, value)]

/-- An expression that is used in one way wherever it stands. -/
def isCompound : Expr → Bool
  | .self _ | .name _ _ _ | .attribute _ _ _ _ | .unsupported _ => false
  | _ => true

/-- An expression occurs in one that stands at `p`: at the place `q`, and late or not. -/
inductive OccursAt : Place → Expr → Bool → Place → Expr → Prop
  | here {p : Place} {e : Expr} : OccursAt p e false p e
  | inside {p q : Place} {e c : Expr} {late : Bool} {x : Place × Expr} (h : x ∈ e.parts p)
      (hc : OccursAt x.1 x.2 late q c) : OccursAt p e (e.defers || late) q c

/-- An expression occurs in one that is evaluated for its value. -/
def Occurs (e : Expr) (late : Bool) (q : Place) (c : Expr) : Prop := OccursAt .value e late q c

/-- What holds of all that occurs in an expression holds of the expression and of all that occurs in
its parts. -/
theorem forall_occursAt {p : Place} {e : Expr} {P : Bool → Place → Expr → Prop} :
    (∀ late q c, OccursAt p e late q c → P late q c) ↔ P false p e ∧
      ∀ x ∈ e.parts p, ∀ late q c, OccursAt x.1 x.2 late q c → P (e.defers || late) q c := by
  constructor
  · exact fun h => ⟨h _ _ _ .here, fun x hx late q c hc => h _ _ _ (.inside hx hc)⟩
  · rintro ⟨hhere, hinside⟩ late q c (_ | ⟨hx, hc⟩)
    · exact hhere
    · exact hinside _ hx _ q c hc

end Expr

/-! ## Induction over parts -/

/-- Parts are smaller, so that an induction may go over them. -/
theorem DictEntry.sizeOf_part {entry : DictEntry} {c : Expr} (h : c ∈ entry.parts) :
    sizeOf c < sizeOf entry := by
  obtain ⟨key, value⟩ := entry
  rw [mk.sizeOf_spec]
  rcases List.mem_append.1 h with hkey | hvalue
  · obtain rfl := Option.mem_toList.1 hkey
    rw [Option.some.sizeOf_spec]
    omega
  · obtain rfl := List.mem_singleton.1 hvalue
    omega

theorem Generator.sizeOf_part {clause : Generator} {c : Expr} (h : c ∈ clause.parts) :
    sizeOf c < sizeOf clause := by
  obtain ⟨target, source, filters⟩ := clause
  rw [mk.sizeOf_spec]
  rcases List.mem_cons.1 h with rfl | hc
  · omega
  · have hlt : sizeOf c < sizeOf filters := List.sizeOf_lt_of_mem hc
    omega

theorem Keyword.sizeOf_value (keyword : Keyword) : sizeOf keyword.value < sizeOf keyword := by
  obtain ⟨name, value⟩ := keyword
  simp only [mk.sizeOf_spec]
  omega

namespace Expr

/-- The parts of an expression are smaller than it. -/
theorem sizeOf_part {p q : Place} {c : Expr} : ∀ {e : Expr}, (q, c) ∈ e.parts p →
    sizeOf c < sizeOf e
  | .attribute _ _ _ _, h | .unary _ _ _, h | .cast _ _, h | .lambda _ _, h | .bind _ _ _, h
  | .starred _ _, h => by
    cases List.mem_singleton.1 h
    simp only [attribute.sizeOf_spec, unary.sizeOf_spec, cast.sizeOf_spec, lambda.sizeOf_spec,
      bind.sizeOf_spec, starred.sizeOf_spec]
    omega
  | .subscript _ _ _, h | .binary _ _ _ _, h => by
    simp only [subscript.sizeOf_spec, binary.sizeOf_spec]
    rcases List.mem_pair.1 h with h | h <;> cases h <;> omega
  | .conditional _ _ _ _, h => by
    rw [conditional.sizeOf_spec]
    rcases List.mem_cons.1 h with h | h
    · cases h
      omega
    · rcases List.mem_pair.1 h with h | h <;> cases h <;> omega
  -- In forms with a list a part is smaller than the list, which is smaller than the expression.
  | .logic _ values _, h | .collection _ values _, h => by
    obtain ⟨_, hc, ⟨⟩⟩ := List.mem_map.1 h
    have hlt : sizeOf c < sizeOf values := List.sizeOf_lt_of_mem hc
    simp only [logic.sizeOf_spec, collection.sizeOf_spec]
    omega
  | .compare left ops comparators _, h => by
    rw [compare.sizeOf_spec]
    rcases List.mem_cons.1 h with h | h
    · cases h
      omega
    · obtain ⟨i, hi, ⟨⟩⟩ := List.mem_mapIdx.1 h
      have hlt : sizeOf comparators[i] < sizeOf comparators :=
        List.sizeOf_lt_of_mem (List.getElem_mem hi)
      omega
  | .dict entries _, h => by
    obtain ⟨_, hc, ⟨⟩⟩ := List.mem_map.1 h
    obtain ⟨entry, hentry, hc⟩ := List.mem_flatMap.1 hc
    have hlt : sizeOf entry < sizeOf entries := List.sizeOf_lt_of_mem hentry
    have hpart := DictEntry.sizeOf_part hc
    rw [dict.sizeOf_spec]
    omega
  | .comprehension _ element value clauses _, h => by
    obtain ⟨_, hc, ⟨⟩⟩ := List.mem_map.1 h
    rw [comprehension.sizeOf_spec]
    rcases List.mem_append.1 hc with hc | hc
    · obtain ⟨clause, hclause, hc⟩ := List.mem_flatMap.1 hc
      have hlt : sizeOf clause < sizeOf clauses := List.sizeOf_lt_of_mem hclause
      have hpart := Generator.sizeOf_part hc
      omega
    · rcases List.mem_cons.1 hc with rfl | hc
      · omega
      · obtain rfl := Option.mem_toList.1 hc
        rw [Option.some.sizeOf_spec]
        omega
  | .call callee args keywords _, h => by
    rw [call.sizeOf_spec]
    rcases List.mem_cons.1 h with h | h
    · cases h
      omega
    · obtain ⟨_, hc, ⟨⟩⟩ := List.mem_map.1 h
      rcases List.mem_append.1 hc with hc | hc
      · have hlt : sizeOf c < sizeOf args := List.sizeOf_lt_of_mem hc
        omega
      · obtain ⟨keyword, hkeyword, rfl⟩ := List.mem_map.1 hc
        have hlt : sizeOf keyword < sizeOf keywords := List.sizeOf_lt_of_mem hkeyword
        have hpart := keyword.sizeOf_value
        omega
  | .isInstance value classes _, h => by
    rw [isInstance.sizeOf_spec]
    rcases List.mem_cons.1 h with h | h
    · cases h
      omega
    · obtain ⟨_, hc, ⟨⟩⟩ := List.mem_map.1 h
      have hlt : sizeOf c < sizeOf classes := List.sizeOf_lt_of_mem hc
      omega

/-- What holds of an expression if it holds of its parts, wherever it stands. -/
theorem induction_on_parts {P : Expr → Prop}
    (step : ∀ e, (∀ p, ∀ x ∈ e.parts p, P x.2) → P e) (e : Expr) : P e :=
  step e fun _ x _ => induction_on_parts step x.2
termination_by sizeOf e
decreasing_by exact sizeOf_part ‹_›

/-! ## Where the receiver occurs -/

theorem anyMentionsSelf_eq (es : List Expr) : anyMentionsSelf es = es.any mentionsSelf := by
  induction es with
  | nil => rw [anyMentionsSelf, List.any_nil]
  | cons e es ih => rw [anyMentionsSelf, ih, List.any_cons]

theorem valueMentionsSelf_eq (e : Option Expr) :
    valueMentionsSelf e = e.toList.any mentionsSelf := by
  cases e <;> simp [valueMentionsSelf]

theorem entriesMentionSelf_eq (entries : List DictEntry) :
    entriesMentionSelf entries = (entries.flatMap DictEntry.parts).any mentionsSelf := by
  induction entries with
  | nil => rw [entriesMentionSelf, List.flatMap_nil, List.any_nil]
  | cons entry entries ih =>
    obtain ⟨key, value⟩ := entry
    rw [entriesMentionSelf, ih, valueMentionsSelf_eq, List.flatMap_cons, List.any_append,
      DictEntry.parts, List.any_append]
    simp

theorem generatorsMentionSelf_eq (clauses : List Generator) :
    generatorsMentionSelf clauses = (clauses.flatMap Generator.parts).any mentionsSelf := by
  induction clauses with
  | nil => rw [generatorsMentionSelf, List.flatMap_nil, List.any_nil]
  | cons clause clauses ih =>
    obtain ⟨target, source, filters⟩ := clause
    rw [generatorsMentionSelf, ih, anyMentionsSelf_eq, List.flatMap_cons, List.any_append,
      Generator.parts, List.any_cons]

theorem keywordsMentionSelf_eq (keywords : List Keyword) :
    keywordsMentionSelf keywords = (keywords.map Keyword.value).any mentionsSelf := by
  induction keywords with
  | nil => rw [keywordsMentionSelf, List.map_nil, List.any_nil]
  | cons keyword keywords ih =>
    obtain ⟨name, value⟩ := keyword
    rw [keywordsMentionSelf, ih, List.map_cons, List.any_cons]

/-- A test that does not look at places does not depend on them. -/
theorem any_mapIdx_mk (f : Nat → Place) (es : List Expr) (test : Expr → Bool) :
    ((es.mapIdx fun i e => (f i, e)).any fun x => test x.2) = es.any test := by
  induction es generalizing f with
  | nil => rfl
  | cons e es ih => rw [List.mapIdx_cons, List.any_cons, List.any_cons, ih]

/-- The receiver occurs in an expression that it is, and in one in a part of which it occurs. -/
theorem mentionsSelf_eq_parts (p : Place) : ∀ e : Expr,
    e.mentionsSelf = (e.isSelf || (e.parts p).any fun x => x.2.mentionsSelf)
  | .constant _ _ | .self _ | .name _ _ _ | .unsupported _ | .attribute _ _ _ _ | .unary _ _ _
  | .cast _ _ | .lambda _ _ | .bind _ _ _ | .starred _ _ | .subscript _ _ _ | .binary _ _ _ _ => by
    simp [mentionsSelf, parts, isSelf]
  | .conditional test body orelse _ => by simp [mentionsSelf, parts, isSelf, Bool.or_assoc]
  | .logic _ values _ | .collection _ values _ => by
    simp [mentionsSelf, parts, isSelf, anyMentionsSelf_eq, Function.comp_def]
  | .compare left ops comparators _ => by
    rw [parts, List.any_cons, any_mapIdx_mk _ comparators, mentionsSelf, anyMentionsSelf_eq]
    rfl
  | .dict entries _ => by
    simp [mentionsSelf, parts, isSelf, entriesMentionSelf_eq, Function.comp_def]
  | .comprehension _ element value clauses _ => by
    simp [mentionsSelf, parts, isSelf, generatorsMentionSelf_eq, valueMentionsSelf_eq,
      Function.comp_def, Bool.or_comm]
  | .call callee args keywords _ => by
    simp [mentionsSelf, parts, isSelf, anyMentionsSelf_eq, keywordsMentionSelf_eq,
      Function.comp_def, Bool.or_assoc]
  | .isInstance value classes _ => by
    simp [mentionsSelf, parts, isSelf, anyMentionsSelf_eq, Function.comp_def]

/-- The receiver is mentioned if and only if it occurs, by induction over parts. -/
theorem mentionsSelf_eq_false_iff (e : Expr) : ∀ p,
    e.mentionsSelf = false ↔ ∀ late q c, OccursAt p e late q c → c.isSelf = false := by
  induction e using induction_on_parts with
  | step e ih =>
    intro p
    rw [forall_occursAt, mentionsSelf_eq_parts p, Bool.or_eq_false_iff, List.any_eq_false]
    refine and_congr Iff.rfl (forall₂_congr fun x hx => ?_)
    rw [Bool.not_eq_true]
    exact ih p x hx x.1

end Expr

/-! ## Safe places -/

namespace Verdict

theorem isSafe_safe : safe.isSafe = true := rfl

theorem isSafe_escape (reason : EscapeReason) (span : Span) :
    (escape reason span).isSafe = false := rfl

theorem isSafe_aliasing (reason : EscapeReason) (span : Span) :
    (aliasing reason span).isSafe = false := rfl

end Verdict

namespace Judge

/-- Whether the judge accepts an expression at a place, whatever its parts are. -/
def accepts (j : Judge) (d : AttrSet) : Place → Expr → Bool
  | .receiver attr kind called, .self _ =>
    !called && kind = .data && attr ∉ j.properties && attr ∈ d
  | .subject, .self _ => true
  | .operand before after, .self _ => comparesIdentity before after
  | _, .self _ | _, .unsupported _ => false
  | .callee, .name _ _ _ | .classOperand, .name _ _ _ => true
  | _, .name _ kind _ => !(kind = .global && j.strictGlobals)
  | _, _ => true

/-- Whether the judge finds an expression safe at a place. -/
def safeAt (j : Judge) (d : AttrSet) : Place → Expr → Bool
  | .value, e => (j.expr d e).isSafe
  | .receiver attr kind called, e =>
    if e.isSelf then !called && (j.selfRead d attr kind e.span).isSafe else (j.expr d e).isSafe
  | .callee, e => e.isName || (e.selfMethod?.isNone && (j.expr d e).isSafe)
  | .subject, e => e.isSelf || (j.expr d e).isSafe
  | .classOperand, e => e.isName || (j.expr d e).isSafe
  | .operand before after, e => (e.isSelf && comparesIdentity before after) || (j.expr d e).isSafe

variable {j : Judge} {d : AttrSet}

/-- Expressions are safe if each is; that the first escape is the one reported does not matter. -/
theorem isSafe_exprs (es : List Expr) :
    (j.exprs d es).isSafe = es.all fun e => (j.expr d e).isSafe := by
  induction es with
  | nil => rw [exprs]; rfl
  | cons e es ih => rw [exprs, Verdict.isSafe_andThen, ih, List.all_cons]

theorem isSafe_expr? (e : Option Expr) :
    (j.expr? d e).isSafe = e.toList.all fun e => (j.expr d e).isSafe := by
  cases e <;> simp [expr?, Verdict.isSafe]

theorem isSafe_entries (entries : List DictEntry) : (j.entries d entries).isSafe =
    (entries.flatMap DictEntry.parts).all fun e => (j.expr d e).isSafe := by
  induction entries with
  | nil => rw [Judge.entries]; rfl
  | cons entry entries ih =>
    obtain ⟨key, value⟩ := entry
    rw [Judge.entries, Verdict.isSafe_andThen, Verdict.isSafe_andThen, ih, isSafe_expr?,
      List.flatMap_cons, List.all_append, DictEntry.parts, List.all_append]
    simp [Bool.and_assoc]

theorem isSafe_generators (clauses : List Generator) : (j.generators d clauses).isSafe =
    (clauses.flatMap Generator.parts).all fun e => (j.expr d e).isSafe := by
  induction clauses with
  | nil => rw [generators]; rfl
  | cons clause clauses ih =>
    obtain ⟨target, source, filters⟩ := clause
    rw [generators, Verdict.isSafe_andThen, Verdict.isSafe_andThen, ih, isSafe_exprs,
      List.flatMap_cons, List.all_append, Generator.parts, List.all_cons, Bool.and_assoc]

theorem isSafe_keywords (keywords : List Keyword) : (j.keywords d keywords).isSafe =
    (keywords.map Keyword.value).all fun e => (j.expr d e).isSafe := by
  induction keywords with
  | nil => rw [Judge.keywords]; rfl
  | cons keyword keywords ih =>
    obtain ⟨name, value⟩ := keyword
    rw [Judge.keywords, Verdict.isSafe_andThen, ih, List.map_cons, List.all_cons]

theorem isSafe_ite_safe (c : Bool) (v : Verdict) :
    (if c = true then .safe else v : Verdict).isSafe = (c || v.isSafe) := by
  cases c <;> rfl

theorem isSafe_ite_escape (c : Bool) (reason : EscapeReason) (span : Span) :
    (if c = true then .escape reason span else .safe : Verdict).isSafe = !c := by
  cases c <;> rfl

theorem isSafe_classes (es : List Expr) :
    (j.classes d es).isSafe = es.all (j.safeAt d .classOperand) := by
  induction es with
  | nil => rw [classes]; rfl
  | cons e es ih =>
    rw [classes, Verdict.isSafe_andThen, ih, isSafe_ite_safe, List.all_cons]
    rfl

/-- Operands are judged by the tests on either side of them. -/
theorem isSafe_operands (ops : List CompareOp) (es : List Expr) : (j.operands d ops es).isSafe =
    (es.mapIdx fun i e => (Place.operand ops[i]? ops[i + 1]?, e)).all
      fun x => j.safeAt d x.1 x.2 := by
  induction es generalizing ops with
  | nil => rw [operands]; rfl
  | cons e es ih =>
    rw [operands, Verdict.isSafe_andThen, ih, isSafe_ite_safe, List.mapIdx_cons, List.all_cons]
    simp [safeAt, List.head?_eq_getElem?]

/-- A read of a slot is safe if it holds data, is no property and is assigned. -/
theorem isSafe_selfRead (attr : Name) (kind : AttrKind) (span : Span) :
    (j.selfRead d attr kind span).isSafe = (kind = .data && attr ∉ j.properties && attr ∈ d) := by
  unfold selfRead
  split
  · rename_i h
    rcases h with h | h <;> simp [h, Verdict.escape, Verdict.isSafe]
  · rename_i h
    rw [not_or, not_not] at h
    split <;> simp [*, Verdict.escape, Verdict.isSafe]

/-- A second name for the receiver is not safe as a value. -/
theorem not_isSafe_of_isSelfAlias : ∀ {e : Expr}, e.isSelfAlias = true →
    (j.expr d e).isSafe = false
  | .self _, _ => by rw [expr]; rfl
  | .cast value _, h => by
    rw [expr]
    exact not_isSafe_of_isSelfAlias (by simpa [Expr.isSelfAlias] using h)
  | .bind _ value _, h => by
    rw [expr, if_pos (by simpa [Expr.isSelfAlias] using h)]
    rfl

/-- The judge accepts all but the receiver, forms that are not known and names everywhere. -/
theorem accepts_of_ne {e : Expr} (p : Place) (hself : ∀ span, e ≠ .self span)
    (hunsupported : ∀ span, e ≠ .unsupported span) (hname : ∀ n kind span, e ≠ .name n kind span) :
    j.accepts d p e = true := by
  cases e with
  | self span => exact absurd rfl (hself span)
  | unsupported span => exact absurd rfl (hunsupported span)
  | name n kind span => exact absurd rfl (hname n kind span)
  | _ => cases p <;> rfl

/-- Where a form stands matters only for the receiver, names and attributes. -/
theorem safeAt_of_isCompound {e : Expr} (h : e.isCompound = true) (p : Place) :
    j.safeAt d p e = (j.expr d e).isSafe := by
  have hself : e.isSelf = false := by cases e <;> simp_all [Expr.isCompound, Expr.isSelf]
  have hname : e.isName = false := by cases e <;> simp_all [Expr.isCompound, Expr.isName]
  have hmethod : e.selfMethod? = none := by
    cases e <;> simp_all [Expr.isCompound, Expr.selfMethod?]
  cases p <;> simp [safeAt, hself, hname, hmethod]

theorem isSafe_name (id : Name) (kind : NameKind) (span : Span) :
    (j.expr d (.name id kind span)).isSafe = !(kind = .global && j.strictGlobals) := by
  rw [expr]
  split
  · rename_i h
    simp [h.1, h.2, Verdict.isSafe_escape]
  · rename_i h
    simpa [Verdict.isSafe_safe, imp_iff_not_or] using h

/-- An attribute is judged as the place of what it is one of. -/
theorem safeAt_attribute (p : Place) (value : Expr) (attr : Name) (kind : AttrKind) (span : Span) :
    j.safeAt d p (.attribute value attr kind span) =
      j.safeAt d (.receiver attr kind (p = .callee)) value := by
  cases hself : value.isSelf with
  | true =>
    obtain ⟨s, rfl⟩ : ∃ s, value = .self s := by
      cases value <;> simp_all [Expr.isSelf]
    cases p <;> simp [safeAt, expr, Expr.isSelf, Expr.isName, Expr.selfMethod?, isSafe_selfRead]
  | false =>
    have hread : j.safeAt d p (.attribute value attr kind span) =
        (j.expr d (.attribute value attr kind span)).isSafe := by
      have hmethod : (Expr.attribute value attr kind span).selfMethod? = none := by
        cases value <;> simp_all [Expr.isSelf, Expr.selfMethod?]
      cases p <;> simp [safeAt, Expr.isSelf, Expr.isName, hmethod]
    rw [hread, expr, safeAt, hself]
    rfl

/-- A form that has parts is safe exactly if these are, or, if they are put off, do not mention the
receiver. -/
theorem isSafe_expr_eq_parts (p : Place) : ∀ {e : Expr}, e.isCompound = true →
    (j.expr d e).isSafe =
      (e.parts p).all fun x => if e.defers then !x.2.mentionsSelf else j.safeAt d x.1 x.2
  | .constant _ _, _ => by rw [expr]; rfl
  | .subscript _ _ _, _ | .binary _ _ _ _, _ | .unary _ _ _, _ | .cast _ _, _ | .starred _ _, _
  | .conditional _ _ _ _, _ => by
    simp [expr, Expr.parts, Expr.defers, safeAt]
  | .logic _ values _, _ | .collection _ values _, _ => by
    simp [expr, Expr.parts, Expr.defers, safeAt, isSafe_exprs, Function.comp_def]
  | .compare left ops comparators _, _ => by
    rw [expr, Verdict.isSafe_andThen, isSafe_ite_safe, isSafe_operands, List.head?_eq_getElem?]
    rfl
  | .dict entries _, _ => by
    simp [expr, Expr.parts, Expr.defers, safeAt, isSafe_entries, Function.comp_def]
  -- Of comprehensions only generators put their parts off.
  | .comprehension kind element value clauses span, _ => by
    rw [expr]
    split
    · rename_i h
      subst h
      rw [isSafe_ite_escape, Expr.mentionsSelf_eq_parts p, Bool.not_or,
        List.not_any_eq_all_not]
      rfl
    · rename_i h
      have hdefers : (Expr.comprehension kind element value clauses span).defers = false := by
        cases kind <;> simp_all [Expr.defers]
      simp [Expr.parts, hdefers, safeAt, isSafe_generators, isSafe_expr?, Function.comp_def]
  | .call callee args keywords _, _ => by
    rw [expr]
    cases h : callee.selfMethod? with
    | some method =>
      -- A method of the receiver is an attribute, and is not judged as a name.
      have hname : callee.isName = false := by
        cases callee <;> simp_all [Expr.isName, Expr.selfMethod?]
      simp [Expr.parts, Expr.defers, safeAt, h, hname, Verdict.isSafe_escape]
    | none =>
      simp [Expr.parts, Expr.defers, safeAt, h, isSafe_ite_safe, isSafe_exprs, isSafe_keywords,
        Function.comp_def]
  | .isInstance value classes _, _ => by
    rw [expr, Verdict.isSafe_andThen, isSafe_ite_safe, isSafe_classes, Expr.parts, List.all_cons,
      List.all_map]
    rfl
  | .lambda body _, _ => by
    rw [expr, isSafe_ite_escape]
    simp [Expr.parts, Expr.defers]
  | .bind _ value _, _ => by
    rw [expr]
    cases h : value.isSelfAlias with
    | true =>
      simp [Expr.parts, Expr.defers, safeAt, not_isSafe_of_isSelfAlias h, Verdict.isSafe_aliasing]
    | false => simp [Expr.parts, Expr.defers, safeAt]

theorem safeAt_self (p : Place) (span : Span) :
    j.safeAt d p (.self span) = j.accepts d p (.self span) := by
  have hexpr : (j.expr d (.self span)).isSafe = false := by rw [expr]; rfl
  cases p with
  | receiver attr kind called =>
    calc j.safeAt d (.receiver attr kind called) (.self span)
      _ = (!called && (j.selfRead d attr kind span).isSafe) := rfl
      _ = _ := by rw [isSafe_selfRead, ← Bool.and_assoc, ← Bool.and_assoc]; rfl
  | subject => rfl
  | operand before after =>
    calc j.safeAt d (.operand before after) (.self span)
      _ = (comparesIdentity before after || (j.expr d (.self span)).isSafe) := rfl
      _ = comparesIdentity before after := by rw [hexpr, Bool.or_false]
  | _ => exact hexpr

theorem safeAt_name (p : Place) (n : Name) (kind : NameKind) (span : Span) :
    j.safeAt d p (.name n kind span) = j.accepts d p (.name n kind span) := by
  cases p with
  | callee | classOperand => rfl
  | _ => exact isSafe_name n kind span

theorem safeAt_unsupported (p : Place) (span : Span) :
    j.safeAt d p (.unsupported span) = j.accepts d p (.unsupported span) := by
  have hexpr : (j.expr d (.unsupported span)).isSafe = false := by rw [expr]; rfl
  cases p <;> exact hexpr

/-- An expression is safe at a place if the judge accepts it there and its parts are safe at theirs,
or without the receiver where they are evaluated later. -/
theorem safeAt_eq_parts (p : Place) (e : Expr) : j.safeAt d p e = (j.accepts d p e &&
    (e.parts p).all fun x => if e.defers then !x.2.mentionsSelf else j.safeAt d x.1 x.2) := by
  cases hcompound : e.isCompound with
  | true =>
    have haccepts : j.accepts d p e = true := by
      refine accepts_of_ne p (fun _ h => ?_) (fun _ h => ?_) (fun _ _ _ h => ?_) <;>
        simp [h, Expr.isCompound] at hcompound
    rw [safeAt_of_isCompound hcompound, haccepts, Bool.true_and, isSafe_expr_eq_parts p hcompound]
  | false =>
    match e, hcompound with
    | .self span, _ => rw [safeAt_self, Expr.parts, List.all_nil, Bool.and_true]
    | .name n kind span, _ => rw [safeAt_name, Expr.parts, List.all_nil, Bool.and_true]
    | .unsupported span, _ => rw [safeAt_unsupported, Expr.parts, List.all_nil, Bool.and_true]
    | .attribute value attr kind span, _ =>
      rw [safeAt_attribute, accepts_of_ne p (by simp) (by simp) (by simp)]
      simp [Expr.parts, Expr.defers]

/-- An expression is safe if the judge accepts what is not late in it, and nothing late is the
receiver. -/
theorem safeAt_iff_occurs (e : Expr) : ∀ p, j.safeAt d p e = true ↔
    ∀ late q c, Expr.OccursAt p e late q c →
      if late then c.isSelf = false else j.accepts d q c = true := by
  induction e using Expr.induction_on_parts with
  | step e ih =>
    intro p
    rw [Expr.forall_occursAt, safeAt_eq_parts, Bool.and_eq_true, List.all_eq_true]
    refine and_congr Iff.rfl (forall₂_congr fun x hx => ?_)
    -- What occurs in a part that is put off is late whatever the part says of it.
    cases e.defers with
    | true => simpa using x.2.mentionsSelf_eq_false_iff x.1
    | false => simpa using ih p x hx x.1

end Judge

/-! ## Milder judges -/

/-- The judge finds no escape in an expression in which `j` finds none. -/
structure Judge.Milder (j j' : Judge) : Prop where
  properties : j'.properties = j.properties
  strictGlobals : j'.strictGlobals = true → j.strictGlobals = true

namespace Judge

variable {j j' : Judge} {d d' : AttrSet}

theorem Milder.refl (j : Judge) : j.Milder j := ⟨rfl, id⟩

/-- What a judge accepts at a place is accepted by a milder one who takes more for assigned. -/
theorem Milder.accepts_mono (h : j.Milder j') (hd : d ⊆ d') (p : Place) (e : Expr)
    (haccepts : j.accepts d p e = true) : j'.accepts d' p e = true := by
  cases e with
  | self span =>
    cases p with
    | receiver attr kind called =>
      simp only [accepts, h.properties, Bool.and_eq_true, decide_eq_true_eq] at haccepts ⊢
      exact ⟨haccepts.1, hd attr haccepts.2⟩
    | _ => exact haccepts
  | name n kind span =>
    have hglobal : (!(kind = .global && j.strictGlobals)) = true →
        (!(kind = .global && j'.strictGlobals)) = true := by
      simp only [Bool.not_eq_true', Bool.and_eq_false_iff]
      exact Or.imp_right fun hlax => Bool.eq_false_iff.2 fun hstrict =>
        absurd (h.strictGlobals hstrict) (by simp [hlax])
    cases p with
    | callee | classOperand => rfl
    | _ => exact hglobal haccepts
  | unsupported span => cases p <;> exact haccepts
  | _ => exact accepts_of_ne p (by simp) (by simp) (by simp)

/-- What is safe for a judge is safe for a milder one who takes more for assigned. -/
theorem isSafe_expr_mono (h : j.Milder j') (hd : d ⊆ d') (e : Expr)
    (hsafe : (j.expr d e).isSafe = true) : (j'.expr d' e).isSafe = true := by
  refine (safeAt_iff_occurs e .value).2 fun late q c hc => ?_
  have haccepts := (safeAt_iff_occurs e .value).1 hsafe late q c hc
  cases late with
  | true => exact haccepts
  | false => exact h.accepts_mono hd q c haccepts

end Judge

end DefiniteInit
