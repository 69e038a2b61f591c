import DefiniteInit.Proofs.SafeExpressions

/-!
# Expressions with their nodes relabelled

`Expr.relabel f` applies `f` to every node of an expression, from the inside out. If `f` leaves the
parts of a node alone and does not change whether they are put off (`Expr.Relabels`), the expression
keeps its shape: what occurs in the new one occurs in the old one at the same place, before it is
relabelled (`Expr.Relabels.forall_occursAt`). If moreover no judge can tell a node from what `f`
makes of it (`Expr.Unseen`), the verdict on the expression stays as it is (`Judge.expr_relabel`).
-/

set_option linter.unusedSectionVars false

namespace DefiniteInit

namespace Expr

mutual

/-- Applies `f` to every node of an expression, from the inside out. -/
def relabel (f : Expr → Expr) : Expr → Expr
  | .constant value span => f (.constant value span)
  | .self span => f (.self span)
  | .name id kind span => f (.name id kind span)
  | .attribute value attr kind span => f (.attribute (value.relabel f) attr kind span)
  | .subscript value index span => f (.subscript (value.relabel f) (index.relabel f) span)
  | .binary left op right span => f (.binary (left.relabel f) op (right.relabel f) span)
  | .unary op operand span => f (.unary op (operand.relabel f) span)
  | .logic op values span => f (.logic op (relabelAll f values) span)
  | .compare left ops comparators span =>
    f (.compare (left.relabel f) ops (relabelAll f comparators) span)
  | .conditional test body orelse span =>
    f (.conditional (test.relabel f) (body.relabel f) (orelse.relabel f) span)
  | .collection kind elements span => f (.collection kind (relabelAll f elements) span)
  | .dict entries span => f (.dict (relabelEntries f entries) span)
  | .comprehension kind element value clauses span =>
    f (.comprehension kind (element.relabel f) (relabel? f value) (relabelClauses f clauses) span)
  | .call callee args keywords span =>
    f (.call (callee.relabel f) (relabelAll f args) (relabelKeywords f keywords) span)
  | .isInstance value classes span =>
    f (.isInstance (value.relabel f) (relabelAll f classes) span)
  | .cast value span => f (.cast (value.relabel f) span)
  | .lambda body span => f (.lambda (body.relabel f) span)
  | .bind target value span => f (.bind target (value.relabel f) span)
  | .starred value span => f (.starred (value.relabel f) span)
  | .unsupported span => f (.unsupported span)

/-- Relabels several expressions. -/
def relabelAll (f : Expr → Expr) : List Expr → List Expr
  | [] => []
  | e :: es => e.relabel f :: relabelAll f es

/-- Relabels an expression that may be missing. -/
def relabel? (f : Expr → Expr) : Option Expr → Option Expr
  | none => none
  | some e => some (e.relabel f)

/-- Relabels the entries of a dict display. -/
def relabelEntries (f : Expr → Expr) : List DictEntry → List DictEntry
  | [] => []
  | ⟨key, value⟩ :: rest => ⟨relabel? f key, value.relabel f⟩ :: relabelEntries f rest

/-- Relabels the clauses of a comprehension. -/
def relabelClauses (f : Expr → Expr) : List Generator → List Generator
  | [] => []
  | ⟨target, source, filters⟩ :: rest =>
    ⟨target, source.relabel f, relabelAll f filters⟩ :: relabelClauses f rest

/-- Relabels keyword arguments. -/
def relabelKeywords (f : Expr → Expr) : List Keyword → List Keyword
  | [] => []
  | ⟨key, value⟩ :: rest => ⟨key, value.relabel f⟩ :: relabelKeywords f rest

end

/-! ## Lists of relabelled expressions -/

variable {f : Expr → Expr}

/-- The expressions of a list are relabelled one by one. -/
theorem relabelAll_eq_map (es : List Expr) : relabelAll f es = es.map (relabel f) := by
  induction es with
  | nil => rw [relabelAll, List.map_nil]
  | cons e es ih => rw [relabelAll, ih, List.map_cons]

theorem toList_relabel? (e : Option Expr) : (relabel? f e).toList = e.toList.map (relabel f) := by
  cases e <;> simp [relabel?]

/-- The parts of the entries of a dictionary are relabelled one by one. -/
theorem parts_relabelEntries (entries : List DictEntry) :
    (relabelEntries f entries).flatMap DictEntry.parts =
      (entries.flatMap DictEntry.parts).map (relabel f) := by
  induction entries with
  | nil => rw [relabelEntries, List.flatMap_nil, List.map_nil]
  | cons entry entries ih =>
    obtain ⟨key, value⟩ := entry
    simp [relabelEntries, ih, DictEntry.parts, toList_relabel?]

/-- The parts of the clauses of a comprehension are relabelled one by one. -/
theorem parts_relabelClauses (clauses : List Generator) :
    (relabelClauses f clauses).flatMap Generator.parts =
      (clauses.flatMap Generator.parts).map (relabel f) := by
  induction clauses with
  | nil => rw [relabelClauses, List.flatMap_nil, List.map_nil]
  | cons clause clauses ih =>
    obtain ⟨target, source, filters⟩ := clause
    simp [relabelClauses, ih, Generator.parts, relabelAll_eq_map]

theorem value_relabelKeywords (keywords : List Keyword) :
    (relabelKeywords f keywords).map Keyword.value =
      (keywords.map Keyword.value).map (relabel f) := by
  induction keywords with
  | nil => rw [relabelKeywords, List.map_nil, List.map_nil]
  | cons keyword keywords ih =>
    obtain ⟨key, value⟩ := keyword
    simp only [relabelKeywords, List.map_cons, ih]

/-! ## Occurrences -/

/-- `f` changes a node, but neither its parts nor when they are evaluated. -/
structure Relabels (f : Expr → Expr) : Prop where
  parts : ∀ p e, (f e).parts p = e.parts p
  defers : ∀ e, (f e).defers = e.defers

namespace Relabels

variable (hf : Relabels f)

include hf

/-- An expression that puts its parts off still does. -/
theorem defers_relabel (e : Expr) : (e.relabel f).defers = e.defers := by
  cases e with
  | comprehension kind element value clauses span =>
    rw [relabel, hf.defers]
    cases kind <;> rfl
  | _ =>
    rw [relabel]
    exact hf.defers _

/-- The parts stand where they stood, relabelled. -/
theorem parts_relabel (p : Place) (e : Expr) :
    (e.relabel f).parts p = (e.parts p).map (Prod.map id (relabel f)) := by
  cases e with
  | logic op values span | collection kind values span =>
    rw [relabel, hf.parts, relabelAll_eq_map]
    simp [Expr.parts]
  -- The operands are counted, so that their places depend on the length of the list alone.
  | compare left ops comparators span =>
    rw [relabel, hf.parts, relabelAll_eq_map]
    simp [Expr.parts, List.mapIdx_eq_zipIdx_map, List.zipIdx_map]
  | dict entries span =>
    rw [relabel, hf.parts, Expr.parts, parts_relabelEntries]
    simp [Expr.parts]
  | comprehension kind element value clauses span =>
    rw [relabel, hf.parts, Expr.parts, parts_relabelClauses, toList_relabel?]
    simp [Expr.parts, Function.comp_def]
  | call callee args keywords span =>
    rw [relabel, hf.parts, Expr.parts, relabelAll_eq_map, value_relabelKeywords]
    simp [Expr.parts, Function.comp_def]
  | isInstance value classes span =>
    rw [relabel, hf.parts, relabelAll_eq_map]
    simp [Expr.parts]
  | _ =>
    rw [relabel]
    exact hf.parts p _

/-- What occurs in a relabelled expression occurs in the expression, and is relabelled. -/
theorem forall_occursAt (e : Expr) : ∀ p (P : Bool → Place → Expr → Prop),
    (∀ late q c, OccursAt p (e.relabel f) late q c → P late q c) ↔
      ∀ late q c, OccursAt p e late q c → P late q (c.relabel f) := by
  induction e using induction_on_parts with
  | step e ih =>
    intro p P
    rw [Expr.forall_occursAt, Expr.forall_occursAt, hf.parts_relabel, hf.defers_relabel,
      List.forall_mem_map]
    exact and_congr Iff.rfl (forall₂_congr fun x hx => ih p x hx x.1 _)

end Relabels

/-! ## Changes that no judge sees -/

/-- `f` changes a node in ways that no judge sees, there or from the node around it. -/
structure Unseen (f : Expr → Expr) : Prop extends Relabels f where
  isSelf : ∀ e, (f e).isSelf = e.isSelf
  isName : ∀ e, (f e).isName = e.isName
  selfMethod? : ∀ e, (f e).selfMethod? = e.selfMethod?
  isSelfAlias : ∀ e, (f e).isSelfAlias = e.isSelfAlias
  alwaysTrue : ∀ e, (f e).alwaysTrue = e.alwaysTrue
  span : ∀ e, (f e).span = e.span
  verdict : ∀ (j : Judge) d e, j.expr d (f e) = j.expr d e

namespace Unseen

variable (hf : Unseen f)

include hf

theorem isSelf_relabel (e : Expr) : (e.relabel f).isSelf = e.isSelf := by
  cases e <;> exact hf.isSelf _

theorem isName_relabel (e : Expr) : (e.relabel f).isName = e.isName := by
  cases e <;> exact hf.isName _

theorem alwaysTrue_relabel (e : Expr) : (e.relabel f).alwaysTrue = e.alwaysTrue := by
  cases e <;> exact hf.alwaysTrue _

theorem span_relabel (e : Expr) : (e.relabel f).span = e.span := by
  cases e <;> exact hf.span _

/-- A call of a method of the receiver still is one. -/
theorem selfMethod?_relabel (e : Expr) : (e.relabel f).selfMethod? = e.selfMethod? := by
  have hread : ∀ (value : Expr) attr kind span, (Expr.attribute value attr kind span).selfMethod? =
      if value.isSelf then some (attr, span) else none := by
    intro value attr kind span
    cases value <;> rfl
  cases e with
  | «attribute» value attr kind span =>
    rw [relabel, hf.selfMethod?, hread, hread, hf.isSelf_relabel]
  | _ => exact hf.selfMethod? _

/-- A second name for the receiver still is one. -/
theorem isSelfAlias_relabel : ∀ e : Expr, (e.relabel f).isSelfAlias = e.isSelfAlias
  | .cast value _ | .bind _ value _ => by
    rw [relabel, hf.isSelfAlias]
    exact isSelfAlias_relabel value
  | .constant _ _ | .self _ | .name _ _ _ | .attribute _ _ _ _ | .subscript _ _ _ | .binary _ _ _ _
  | .unary _ _ _ | .logic _ _ _ | .compare _ _ _ _ | .conditional _ _ _ _ | .collection _ _ _
  | .dict _ _ | .comprehension _ _ _ _ _ | .call _ _ _ _ | .isInstance _ _ _ | .lambda _ _
  | .starred _ _ | .unsupported _ => hf.isSelfAlias _

/-- At the top of an expression, a change that no judge sees leaves the receiver where it is. -/
theorem mentionsSelf (e : Expr) : (f e).mentionsSelf = e.mentionsSelf := by
  rw [mentionsSelf_eq_parts .value, mentionsSelf_eq_parts .value e, hf.isSelf, hf.parts]

/-- The receiver is mentioned where it was, since it occurs at the same places. -/
theorem mentionsSelf_relabel (e : Expr) : (e.relabel f).mentionsSelf = e.mentionsSelf := by
  induction e using induction_on_parts with
  | step e ih =>
    rw [mentionsSelf_eq_parts .value, mentionsSelf_eq_parts .value e, hf.isSelf_relabel,
      hf.parts_relabel, List.any_map]
    congr 1
    rw [Bool.eq_iff_iff, List.any_eq_true, List.any_eq_true]
    exact exists_congr fun x => and_congr_right fun hx => Bool.eq_iff_iff.1 (ih .value x hx)

end Unseen

end Expr

namespace Judge

open DefiniteInit.Expr

variable {j : Judge} {d : AttrSet} {f : Expr → Expr} (hf : Unseen f)

include hf

mutual

/-- The verdict stays as it is, if no judge sees what is changed. -/
theorem expr_relabel : ∀ e : Expr, j.expr d (e.relabel f) = j.expr d e
  | .constant _ _ | .self _ | .name _ _ _ | .unsupported _ => hf.verdict j d _
  | .attribute value _ _ _ => by
    rw [relabel, hf.verdict, expr, expr, hf.isSelf_relabel, expr_relabel value]
  | .subscript left right _ | .binary left _ right _ => by
    rw [relabel, hf.verdict, expr, expr, expr_relabel left, expr_relabel right]
  | .unary _ value _ | .cast value _ | .starred value _ => by
    rw [relabel, hf.verdict, expr, expr, expr_relabel value]
  | .logic _ values _ | .collection _ values _ => by
    rw [relabel, hf.verdict, expr, expr, exprs_relabelAll values]
  | .compare left ops comparators _ => by
    rw [relabel, hf.verdict, expr, expr, hf.isSelf_relabel, expr_relabel left,
      operands_relabelAll ops comparators]
  | .conditional test body orelse _ => by
    rw [relabel, hf.verdict, expr, expr, expr_relabel test, expr_relabel body, expr_relabel orelse]
  | .dict es _ => by
    rw [relabel, hf.verdict, expr, expr, entries_relabelEntries es]
  | .comprehension kind element value clauses span => by
    -- A generator is asked for the receiver as a whole, before `f` is applied to the node itself.
    have hmentions := hf.mentionsSelf_relabel (.comprehension kind element value clauses span)
    rw [relabel, hf.mentionsSelf] at hmentions
    rw [relabel, hf.verdict, expr, expr, hmentions, generators_relabelClauses clauses,
      expr_relabel element, expr?_relabel? value]
  | .call callee args kws _ => by
    rw [relabel, hf.verdict, expr, expr, hf.selfMethod?_relabel, hf.isName_relabel,
      expr_relabel callee, exprs_relabelAll args, keywords_relabelKeywords kws]
  | .isInstance value cs _ => by
    rw [relabel, hf.verdict, expr, expr, hf.isSelf_relabel, expr_relabel value,
      classes_relabelAll cs]
  | .lambda body _ => by
    rw [relabel, hf.verdict, expr, expr, hf.mentionsSelf_relabel]
  | .bind _ value _ => by
    rw [relabel, hf.verdict, expr, expr, hf.isSelfAlias_relabel, expr_relabel value]

/-- The parts of an expression are judged as before, in all the lists in which they stand. -/
theorem exprs_relabelAll : ∀ es : List Expr, j.exprs d (relabelAll f es) = j.exprs d es
  | [] => rfl
  | e :: es => by rw [relabelAll, exprs, exprs, expr_relabel e, exprs_relabelAll es]

theorem expr?_relabel? : ∀ e : Option Expr, j.expr? d (relabel? f e) = j.expr? d e
  | none => rfl
  | some e => by rw [relabel?, expr?, expr?, expr_relabel e]

theorem operands_relabelAll : ∀ (ops : List CompareOp) (es : List Expr),
    j.operands d ops (relabelAll f es) = j.operands d ops es
  | _, [] => rfl
  | ops, e :: es => by
    rw [relabelAll, operands, operands, hf.isSelf_relabel, expr_relabel e,
      operands_relabelAll ops.tail es]

theorem entries_relabelEntries : ∀ es : List DictEntry,
    j.entries d (relabelEntries f es) = j.entries d es
  | [] => rfl
  | ⟨key, value⟩ :: rest => by
    rw [relabelEntries, entries, entries, expr?_relabel? key, expr_relabel value,
      entries_relabelEntries rest]

theorem generators_relabelClauses : ∀ clauses : List Generator,
    j.generators d (relabelClauses f clauses) = j.generators d clauses
  | [] => rfl
  | ⟨_, source, filters⟩ :: rest => by
    rw [relabelClauses, generators, generators, expr_relabel source, exprs_relabelAll filters,
      generators_relabelClauses rest]

theorem keywords_relabelKeywords : ∀ ks : List Keyword,
    j.keywords d (relabelKeywords f ks) = j.keywords d ks
  | [] => rfl
  | ⟨_, value⟩ :: rest => by
    rw [relabelKeywords, keywords, keywords, expr_relabel value, keywords_relabelKeywords rest]

theorem classes_relabelAll : ∀ es : List Expr, j.classes d (relabelAll f es) = j.classes d es
  | [] => rfl
  | e :: es => by
    rw [relabelAll, classes, classes, hf.isName_relabel, expr_relabel e, classes_relabelAll es]

end

end Judge

end DefiniteInit
