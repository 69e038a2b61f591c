import DefiniteInit.Proofs.Relabelling
import DefiniteInit.Proofs.Visits

/-!
# Names bound in a body

A statement that gives the receiver's own name another value, or takes it away, is told apart when
the tree is built, and wherever the walk comes to one the receiver escapes
(`Scope.flagged_of_rebindsSelf`).

All other names that a body binds, the walk passes over: local variables, those of assignment
expressions and of comprehensions, and the names of handlers and of nested functions. It comes to
the same if they are replaced by any others (`Scope.block_rebindAll`). So it does not notice when
one of them is the receiver's.
-/

namespace DefiniteInit

/-! ## The receiver's own name -/

mutual

/-- The target is the receiver's own name, or it is among several. -/
def Target.namesSelf : Target → Bool
  | .self _ => true
  | .tuple elements _ => anyNamesSelf elements
  | .selfAttr _ _ | .name _ _ | .attribute _ _ _ | .subscript _ _ _ => false

/-- The receiver's own name is among the targets. -/
def Target.anyNamesSelf : List Target → Bool
  | [] => false
  | t :: ts => t.namesSelf || anyNamesSelf ts

end

/-- A statement that binds or deletes the receiver's own name, by a form made for it. -/
def Stmt.rebindsSelf : Stmt → Bool
  | .rebindSelf _ _ => true
  | .assign targets _ _ | .delete targets _ => Target.anyNamesSelf targets
  | .forLoop target _ _ _ _ => target.namesSelf
  | .withBlock items _ _ => items.any fun item => item.target.any Target.namesSelf
  | _ => false

namespace Judge

variable {j : Judge} {d : AttrSet}

mutual

/-- A target that is the receiver's name is not safe. -/
theorem not_isSafe_of_namesSelf : ∀ {t : Target}, t.namesSelf = true →
    (j.target d t).isSafe = false
  | .self _, _ => by rw [target]; rfl
  | .tuple elements _, h => by
    rw [Target.namesSelf] at h
    rw [target]
    exact not_isSafe_of_anyNamesSelf h

theorem not_isSafe_of_anyNamesSelf : ∀ {ts : List Target}, Target.anyNamesSelf ts = true →
    (j.targets d ts).isSafe = false
  | t :: ts, h => by
    rw [Target.anyNamesSelf, Bool.or_eq_true] at h
    rw [targets, Verdict.isSafe_andThen, Bool.and_eq_false_iff]
    exact h.imp not_isSafe_of_namesSelf not_isSafe_of_anyNamesSelf

end

end Judge

/-- Nor is it under a manager. -/
theorem Scope.not_isSafe_enter {j : Judge} {d : AttrSet} : ∀ {items : List WithItem},
    (items.any fun item => item.target.any Target.namesSelf) = true →
      (enter j d items).isSafe = false
  | ⟨e, target⟩ :: rest, h => by
    rw [List.any_cons, Bool.or_eq_true] at h
    simp only [enter, Verdict.isSafe_andThen, Bool.and_eq_false_iff]
    rcases h with h | h
    · cases target with
      | none => simp at h
      | some t => exact Or.inr (Or.inl (Judge.not_isSafe_of_namesSelf h))
    · exact Or.inr (Or.inr (not_isSafe_enter h))

variable {s t : State} {o : Outcome} {w : State → Outcome}

/-- A mark in what follows counts from the start. -/
theorem Flagged.andThen (ho : o.StemsFrom s) (hn : o.next = some t)
    (h : Flagged t (w t).trace.escapes) : Flagged s (o.andThen w).trace.escapes := by
  rw [Outcome.andThen_of_some hn]
  exact h.back ((ho.next t hn).mono (List.subset_append_left _ _)) (List.subset_append_right _ _)

/-- What the body flags in the first round is flagged of the loop. -/
theorem Loop.flagged_walk {l : Loop} {head : State} {endless : Bool} {orelse : State → Outcome}
    (h : Flagged (l.round head).tested (l.round head).body.trace.escapes) :
    Flagged head (l.walk endless orelse head).trace.escapes := by
  have hround : (l.round head).trace.escapes ⊆ (l.walk endless orelse head).trace.escapes :=
    List.Subset.trans (escapes_round_subset (l.mem_heads_self head)) (List.subset_append_left _ _)
  exact h.back ((l.tested_leadsTo head).mono hround)
    (List.Subset.trans (List.subset_append_right _ _) hround)

namespace Scope

variable (sc : Scope)

/-- An assignment that is not safe marks. -/
theorem flagged_assign {m : Mode} {v : Verdict} (hv : v.isSafe = false) (attrs : List Name)
    (s : State) : Flagged s (assign m v attrs s).trace.escapes := by
  rw [assign, if_neg (by simp [hv])]
  exact flagged_ofVerdict hv s

mutual

/-- A walk goes on after a deletion. -/
theorem exists_next_deleteTarget : ∀ (t : Target) (s : State),
    ∃ u, (sc.deleteTarget t s).next = some u
  | .selfAttr _ _, s | .self _, s | .name _ _, s | .attribute _ _ _, s | .subscript _ _ _, s => by
    rw [deleteTarget]
    exact ⟨_, rfl⟩
  | .tuple elements _, s => by
    rw [deleteTarget]
    exact exists_next_deleteTargets elements s

theorem exists_next_deleteTargets : ∀ (ts : List Target) (s : State),
    ∃ u, (sc.deleteTargets ts s).next = some u
  | [], s => by
    rw [deleteTargets]
    exact ⟨_, rfl⟩
  | t :: ts, s => by
    obtain ⟨u, hu⟩ := exists_next_deleteTarget t s
    rw [deleteTargets, Outcome.andThen_of_some hu]
    exact exists_next_deleteTargets ts u

end

mutual

/-- A deletion of the receiver's name marks. -/
theorem flagged_deleteTarget : ∀ {t : Target}, t.namesSelf = true → ∀ s,
    Flagged s (sc.deleteTarget t s).trace.escapes
  | .self _, _, s => by
    rw [deleteTarget]
    exact flagged_ofVerdict rfl s
  | .tuple elements _, h, s => by
    rw [Target.namesSelf] at h
    rw [deleteTarget]
    exact flagged_deleteTargets h s

theorem flagged_deleteTargets : ∀ {ts : List Target}, Target.anyNamesSelf ts = true → ∀ s,
    Flagged s (sc.deleteTargets ts s).trace.escapes
  | t :: ts, h, s => by
    rw [Target.anyNamesSelf, Bool.or_eq_true] at h
    rw [deleteTargets]
    rcases h with h | h
    · exact (flagged_deleteTarget h s).mono (Outcome.escapes_subset_andThen _ _)
    · obtain ⟨u, hu⟩ := sc.exists_next_deleteTarget t s
      exact .andThen ((comparison_stems sc).deleteTarget t s) hu (flagged_deleteTargets h u)

end

/-- Where the receiver's own name is bound or deleted by a form made for it, an escape is noted. -/
theorem flagged_of_rebindsSelf {st : Stmt} (h : st.rebindsSelf = true) (m : Mode) (s : State) :
    Flagged s (sc.stmt m st s).trace.escapes := by
  cases st with
  | rebindSelf value span =>
    rw [stmt]
    exact flagged_ofVerdict (by simp [Verdict.isSafe_aliasing]) s
  | assign targets value span =>
    rw [stmt]
    exact flagged_assign (by simp [Judge.not_isSafe_of_anyNamesSelf h]) _ s
  | delete targets span =>
    rw [stmt]
    exact sc.flagged_deleteTargets h s
  | forLoop target source body orelse span =>
    rw [sc.stmt_of_loopCode? m rfl]
    -- The target is bound in the first round, whether or not there is anything to loop over.
    refine .andThen (.check _ s) rfl (Loop.flagged_walk ?_)
    exact (flagged_assign (Judge.not_isSafe_of_namesSelf h) _ _).mono
      (Outcome.escapes_subset_andThen _ _)
  | withBlock items body span =>
    rw [stmt]
    refine Flagged.mono ?_ (Outcome.escapes_subset_andThen _ _)
    exact flagged_ofVerdict (not_isSafe_enter h) s
  | _ => simp [Stmt.rebindsSelf] at h

end Scope

/-! ## Other names -/

/-- The clause with its variable renamed. -/
def Generator.rebind (f : Name → Name) (clause : Generator) : Generator :=
  { clause with target := f clause.target }

namespace Expr

/-- Renames what a node binds. -/
def rebindNode (f : Name → Name) : Expr → Expr
  | .bind target value span => .bind (f target) value span
  | .comprehension kind element value clauses span =>
    .comprehension kind element value (clauses.map (Generator.rebind f)) span
  | e => e

/-- The expression with all names renamed that are bound in it. -/
def rebind (f : Name → Name) (e : Expr) : Expr := e.relabel (rebindNode f)

end Expr

namespace Target

mutual

/-- The target with the variables renamed. -/
def rebind (f : Name → Name) : Target → Target
  | .selfAttr attr span => .selfAttr attr span
  | .self span => .self span
  | .name id span => .name (f id) span
  | .attribute value attr span => .attribute (value.rebind f) attr span
  | .subscript value index span => .subscript (value.rebind f) (index.rebind f) span
  | .tuple elements span => .tuple (rebindAll f elements) span

/-- Several targets with the variables renamed. -/
def rebindAll (f : Name → Name) : List Target → List Target
  | [] => []
  | t :: ts => t.rebind f :: rebindAll f ts

end

end Target

/-- The item with all names renamed that are bound in it. -/
def WithItem.rebind (f : Name → Name) (item : WithItem) : WithItem :=
  ⟨item.manager.rebind f, item.target.map (Target.rebind f)⟩

/-- The argument with all names renamed that are bound in it. -/
def Keyword.rebind (f : Name → Name) (keyword : Keyword) : Keyword :=
  { keyword with value := keyword.value.rebind f }

namespace Stmt

mutual

/-- The statement with all names renamed that it binds, but for the receiver's where it has a form
of its own. -/
def rebind (f : Name → Name) : Stmt → Stmt
  | .assign targets value span => .assign (Target.rebindAll f targets) (value.rebind f) span
  | .eval value span => .eval (value.rebind f) span
  | .ifElse test body orelse span =>
    .ifElse (test.rebind f) (rebindAll f body) (rebindAll f orelse) span
  | .whileLoop test body orelse span =>
    .whileLoop (test.rebind f) (rebindAll f body) (rebindAll f orelse) span
  | .forLoop target source body orelse span =>
    .forLoop (target.rebind f) (source.rebind f) (rebindAll f body) (rebindAll f orelse) span
  | .tryBlock body handlers orelse final span =>
    .tryBlock (rebindAll f body) (rebindHandlers f handlers) (rebindAll f orelse)
      (rebindAll f final) span
  | .withBlock items body span =>
    .withBlock (items.map (WithItem.rebind f)) (rebindAll f body) span
  | .ret value span => .ret (value.map (Expr.rebind f)) span
  | .raise exception cause span =>
    .raise (exception.map (Expr.rebind f)) (cause.map (Expr.rebind f)) span
  | .assertion test message span => .assertion (test.rebind f) (message.map (Expr.rebind f)) span
  | .superInit target args keywords span =>
    .superInit target (args.map (Expr.rebind f)) (keywords.map (Keyword.rebind f)) span
  | .rebindSelf value span => .rebindSelf (value.rebind f) span
  | .delete targets span => .delete (Target.rebindAll f targets) span
  | .nestedDef name capturesSelf span => .nestedDef (f name) capturesSelf span
  | .pass span => .pass span
  | .breakLoop span => .breakLoop span
  | .continueLoop span => .continueLoop span
  | .unsupported span => .unsupported span

/-- The statements with all names renamed that they bind. -/
def rebindAll (f : Name → Name) : List Stmt → List Stmt
  | [] => []
  | st :: rest => st.rebind f :: rebindAll f rest

/-- The handlers with all names renamed that they bind. -/
def rebindHandlers (f : Name → Name) : List Handler → List Handler
  | [] => []
  | ⟨type, name, body, span⟩ :: rest =>
    ⟨type.map (Expr.rebind f), name.map f, rebindAll f body, span⟩ :: rebindHandlers f rest

end

end Stmt

/-! ## Judges that see no names -/

namespace Expr

variable {f : Name → Name}

/-- Other names for what is bound leave all parts where they are. -/
theorem relabels_rebindNode : Relabels (rebindNode f) where
  parts _ e := by
    cases e with
    | comprehension kind element value clauses span =>
      have hparts : (clauses.map (Generator.rebind f)).flatMap Generator.parts =
          clauses.flatMap Generator.parts := List.flatMap_map _ _ _
      simp only [rebindNode, Expr.parts, hparts]
    | _ => rfl
  defers e := by
    cases e with
    | comprehension kind element value clauses span => cases kind <;> rfl
    | _ => rfl

theorem generators_map_rebind (j : Judge) (d : AttrSet) (clauses : List Generator) :
    j.generators d (clauses.map (Generator.rebind f)) = j.generators d clauses := by
  induction clauses with
  | nil => rfl
  | cons clause clauses ih =>
    obtain ⟨target, source, filters⟩ := clause
    rw [List.map_cons, Generator.rebind, Judge.generators, ih, Judge.generators]

/-- The judge does not look at names that are bound. -/
theorem expr_rebindNode (j : Judge) (d : AttrSet) (e : Expr) :
    j.expr d (rebindNode f e) = j.expr d e := by
  cases e with
  | comprehension kind element value clauses span =>
    have hmentions : (rebindNode f (.comprehension kind element value clauses span)).mentionsSelf =
        (Expr.comprehension kind element value clauses span).mentionsSelf := by
      rw [mentionsSelf_eq_parts .value, relabels_rebindNode.parts, mentionsSelf_eq_parts .value]
      rfl
    rw [rebindNode] at hmentions
    rw [rebindNode, Judge.expr, Judge.expr, hmentions, generators_map_rebind]
  | bind target value span => rw [rebindNode, Judge.expr, Judge.expr]
  | _ => rfl

/-- So no judge sees the change. -/
theorem unseen_rebindNode : Unseen (rebindNode f) where
  toRelabels := relabels_rebindNode
  isSelf e := by cases e <;> rfl
  isName e := by cases e <;> rfl
  selfMethod? e := by cases e <;> rfl
  isSelfAlias e := by cases e <;> rfl
  span e := by cases e <;> rfl
  alwaysTrue e := by cases e <;> rfl
  verdict := expr_rebindNode

end Expr

namespace Judge

variable (j : Judge) (d : AttrSet) (f : Name → Name)

/-- An expression is judged alike whatever names are bound in it. -/
theorem expr_rebind (e : Expr) : j.expr d (e.rebind f) = j.expr d e :=
  expr_relabel Expr.unseen_rebindNode e

theorem expr?_map_rebind (e : Option Expr) : j.expr? d (e.map (Expr.rebind f)) = j.expr? d e := by
  cases e with
  | none => rfl
  | some e => exact j.expr_rebind d f e

theorem exprs_map_rebind (es : List Expr) : j.exprs d (es.map (Expr.rebind f)) = j.exprs d es := by
  induction es with
  | nil => rfl
  | cons e es ih => rw [List.map_cons, exprs, exprs, j.expr_rebind, ih]

theorem keywords_map_rebind (ks : List Keyword) :
    j.keywords d (ks.map (Keyword.rebind f)) = j.keywords d ks := by
  induction ks with
  | nil => rfl
  | cons keyword ks ih =>
    obtain ⟨name, value⟩ := keyword
    rw [List.map_cons, Keyword.rebind, keywords, keywords, j.expr_rebind, ih]

theorem value_rebind (e : Expr) : j.value d (e.rebind f) = j.value d e := by
  have halias : (e.rebind f).isSelfAlias = e.isSelfAlias :=
    Expr.unseen_rebindNode.isSelfAlias_relabel e
  have hspan : (e.rebind f).span = e.span := Expr.unseen_rebindNode.span_relabel e
  rw [value, value, halias, hspan, j.expr_rebind]

mutual

/-- A target is judged alike. -/
theorem target_rebind : ∀ t : Target, j.target d (t.rebind f) = j.target d t
  | .selfAttr _ _ | .self _ | .name _ _ => rfl
  | .attribute value _ _ => by rw [Target.rebind, target, target, j.expr_rebind]
  | .subscript value index _ => by
    rw [Target.rebind, target, target, j.expr_rebind, j.expr_rebind]
  | .tuple elements _ => by rw [Target.rebind, target, target, targets_rebindAll elements]

theorem targets_rebindAll : ∀ ts : List Target, j.targets d (Target.rebindAll f ts) = j.targets d ts
  | [] => rfl
  | t :: ts => by
    rw [Target.rebindAll, targets, targets, target_rebind t, targets_rebindAll ts]

end

end Judge

namespace Target

mutual

theorem assigned_rebind (f : Name → Name) : ∀ t : Target, (t.rebind f).assigned = t.assigned
  | .selfAttr _ _ | .self _ | .name _ _ | .attribute _ _ _ | .subscript _ _ _ => rfl
  | .tuple elements _ => by rw [rebind, assigned, assigned, assignedAll_rebindAll f elements]

theorem assignedAll_rebindAll (f : Name → Name) : ∀ ts : List Target,
    assignedAll (rebindAll f ts) = assignedAll ts
  | [] => rfl
  | t :: ts => by
    rw [rebindAll, assignedAll, assignedAll, assigned_rebind f t, assignedAll_rebindAll f ts]

end

end Target

/-! ## Walks that see no names -/

namespace Scope

variable (sc : Scope) (f : Name → Name)

mutual

/-- A deletion is walked alike. -/
theorem deleteTarget_rebind : ∀ (t : Target) (s : State),
    sc.deleteTarget (t.rebind f) s = sc.deleteTarget t s
  | .selfAttr _ _, _ | .self _, _ | .name _ _, _ => rfl
  | .attribute value attr span, s => by
    have htarget := sc.judge.target_rebind s.defined f (.attribute value attr span)
    rw [Target.rebind] at htarget ⊢
    rw [deleteTarget, deleteTarget, htarget]
  | .subscript value index span, s => by
    have htarget := sc.judge.target_rebind s.defined f (.subscript value index span)
    rw [Target.rebind] at htarget ⊢
    rw [deleteTarget, deleteTarget, htarget]
  | .tuple elements _, s => by
    rw [Target.rebind, deleteTarget, deleteTarget, deleteTargets_rebindAll elements s]

theorem deleteTargets_rebindAll : ∀ (ts : List Target) (s : State),
    sc.deleteTargets (Target.rebindAll f ts) s = sc.deleteTargets ts s
  | [], _ => rfl
  | t :: ts, s => by
    have hrest : sc.deleteTargets (Target.rebindAll f ts) = sc.deleteTargets ts :=
      funext (deleteTargets_rebindAll ts)
    rw [Target.rebindAll, deleteTargets, deleteTargets, deleteTarget_rebind t s, hrest]

end

/-- Managers are judged alike. -/
theorem enter_map_rebind (j : Judge) (d : AttrSet) (items : List WithItem) :
    enter j d (items.map (WithItem.rebind f)) = enter j d items := by
  induction items with
  | nil => rfl
  | cons item items ih =>
    obtain ⟨e, target⟩ := item
    have hmanager : manager j d (e.rebind f) = manager j d e := by
      have halias : (e.rebind f).isSelfAlias = e.isSelfAlias :=
        Expr.unseen_rebindNode.isSelfAlias_relabel e
      have hspan : (e.rebind f).span = e.span := Expr.unseen_rebindNode.span_relabel e
      rw [manager, manager, halias, hspan, j.expr_rebind]
    have htarget : (target.map (Target.rebind f)).map (j.target d) = target.map (j.target d) := by
      cases target with
      | none => rfl
      | some t => exact congrArg some (j.target_rebind d f t)
    rw [List.map_cons, WithItem.rebind, enter, enter, hmanager, htarget, ih]

mutual

/-- A statement is walked alike whatever names it binds. -/
theorem stmt_rebind : ∀ (st : Stmt) (m : Mode) (s : State),
    sc.stmt m (st.rebind f) s = sc.stmt m st s
  | .assign targets value _, m, s => by
    rw [Stmt.rebind, stmt, stmt, Judge.value_rebind, Judge.targets_rebindAll,
      Target.assignedAll_rebindAll]
  | .eval value _, m, s => by
    rw [Stmt.rebind, stmt, stmt, Judge.expr_rebind]
  | .ifElse test body orelse _, m, s => by
    rw [Stmt.rebind, stmt, stmt, Judge.expr_rebind, block_rebindAll body m,
      block_rebindAll orelse m]
  | .whileLoop test body orelse _, m, s => by
    -- Whether a loop is endless is read off its test.
    have halways : (test.rebind f).alwaysTrue = test.alwaysTrue :=
      Expr.unseen_rebindNode.alwaysTrue_relabel test
    simp only [Stmt.rebind, stmt, Judge.expr_rebind, halways, block_rebindAll body m.loop,
      block_rebindAll orelse m]
  | .forLoop target source body orelse _, m, s => by
    simp only [Stmt.rebind, stmt, Judge.expr_rebind, Judge.target_rebind, Target.assigned_rebind,
      block_rebindAll body m.loop, block_rebindAll orelse m]
  | .tryBlock body hs orelse final _, m, s => by
    have hempty : (Stmt.rebindAll f final).isEmpty = final.isEmpty := by cases final <;> rfl
    rw [Stmt.rebind, stmt, stmt, hempty, block_rebindAll body m.shield,
      block_rebindAll orelse m.shield, handlers_rebindHandlers hs m.shield, block_rebindAll final m]
  | .withBlock items body _, m, s => by
    rw [Stmt.rebind, stmt, stmt, enter_map_rebind, block_rebindAll body m.shield]
  | .ret value _, m, s => by
    rw [Stmt.rebind, stmt, stmt, Judge.expr?_map_rebind]
  | .raise exception cause _, m, s => by
    rw [Stmt.rebind, stmt, stmt, Judge.expr?_map_rebind, Judge.expr?_map_rebind]
  | .assertion test message _, m, s => by
    rw [Stmt.rebind, stmt, stmt, Judge.expr_rebind, Judge.expr?_map_rebind]
  | .superInit target args keywords _, m, s => by
    rw [Stmt.rebind, stmt, stmt, superInit, superInit, Judge.exprs_map_rebind,
      Judge.keywords_map_rebind]
  | .rebindSelf value _, m, s => by
    rw [Stmt.rebind, stmt, stmt, Judge.expr_rebind]
  | .delete targets _, m, s => by
    rw [Stmt.rebind, stmt, stmt, deleteTargets_rebindAll]
  | .nestedDef _ _ _, m, s => by
    rw [Stmt.rebind, stmt, stmt]
  | .pass _, _, _ | .breakLoop _, _, _ | .continueLoop _, _, _ | .unsupported _, _, _ => rfl

/-- A block is walked alike whatever names are bound in it. -/
theorem block_rebindAll : ∀ (body : List Stmt) (m : Mode),
    sc.block m (Stmt.rebindAll f body) = sc.block m body
  | [], m => rfl
  | st :: rest, m => by
    funext s
    rw [Stmt.rebindAll, block, block, stmt_rebind st m s, block_rebindAll rest m]

/-- Handlers are walked alike. -/
theorem handlers_rebindHandlers : ∀ (hs : List Handler) (m : Mode),
    sc.handlers m (Stmt.rebindHandlers f hs) = sc.handlers m hs
  | [], m => rfl
  | ⟨type, _, body, _⟩ :: rest, m => by
    funext s
    rw [Stmt.rebindHandlers, handlers, handlers, Judge.expr?_map_rebind, block_rebindAll body m,
      handlers_rebindHandlers rest m]

end

end Scope

/-! ## Statements that bind a name -/

namespace Expr

/-- Whether the parts are evaluated in a scope of their own. -/
def opensScope : Expr → Bool
  | .lambda _ _ | .comprehension _ _ _ _ _ => true
  | _ => false

/-- To evaluate the one expression, the other is evaluated in the same scope. -/
inductive Evaluates : Expr → Expr → Prop
  | here {e : Expr} : Evaluates e e
  | inside {p : Place} {e c : Expr} {x : Place × Expr} (hx : x ∈ e.parts p)
      (he : e.opensScope = false) (hc : Evaluates x.2 c) : Evaluates e c

variable {f : Name → Name}

/-- What is evaluated in the changed expression is changed from what is evaluated in the other. -/
theorem exists_rebind_of_evaluates (e : Expr) : ∀ c, Evaluates (e.rebind f) c →
    ∃ c' : Expr, c = c'.rebind f := by
  induction e using induction_on_parts with
  | step e ih =>
    rintro c (_ | ⟨hx, -, hc⟩)
    · exact ⟨e, rfl⟩
    · rw [rebind, unseen_rebindNode.parts_relabel] at hx
      obtain ⟨y, hy, rfl⟩ := List.mem_map.1 hx
      exact ih _ y hy c hc

end Expr

namespace Target

mutual

/-- The expressions that are evaluated to find a target. -/
def operands : Target → List Expr
  | .attribute value _ _ => [value]
  | .subscript value index _ => [value, index]
  | .tuple elements _ => operandsAll elements
  | .selfAttr _ _ | .self _ | .name _ _ => []

/-- The expressions that are evaluated to find several targets. -/
def operandsAll : List Target → List Expr
  | [] => []
  | t :: ts => t.operands ++ operandsAll ts

end

mutual

theorem operands_rebind (f : Name → Name) : ∀ t : Target,
    (t.rebind f).operands = t.operands.map (Expr.rebind f)
  | .selfAttr _ _ | .self _ | .name _ _ | .attribute _ _ _ | .subscript _ _ _ => rfl
  | .tuple elements _ => by rw [rebind, operands, operands, operandsAll_rebindAll f elements]

theorem operandsAll_rebindAll (f : Name → Name) : ∀ ts : List Target,
    operandsAll (rebindAll f ts) = (operandsAll ts).map (Expr.rebind f)
  | [] => rfl
  | t :: ts => by
    rw [rebindAll, operandsAll, operandsAll, operands_rebind f t, operandsAll_rebindAll f ts,
      List.map_append]

end

end Target

/-- The expressions that are evaluated to enter a `with` item. -/
def WithItem.operands (item : WithItem) : List Expr :=
  item.manager :: (item.target.map Target.operands).getD []

theorem WithItem.operands_rebind (f : Name → Name) (item : WithItem) :
    (item.rebind f).operands = item.operands.map (Expr.rebind f) := by
  obtain ⟨manager, target⟩ := item
  cases target with
  | none => rfl
  | some t => exact congrArg (List.cons _) (t.operands_rebind f)

namespace Stmt

/-- The expressions that a statement evaluates, apart from the statements in it. -/
def operands : Stmt → List Expr
  | .assign targets value _ => value :: Target.operandsAll targets
  | .eval value _ | .rebindSelf value _ => [value]
  | .ifElse test _ _ _ | .whileLoop test _ _ _ => [test]
  | .forLoop target source _ _ _ => source :: target.operands
  | .tryBlock _ handlers _ _ _ => handlers.filterMap Handler.type
  | .withBlock items _ _ => items.flatMap WithItem.operands
  | .ret value _ => value.toList
  | .raise exception cause _ => exception.toList ++ cause.toList
  | .assertion test message _ => test :: message.toList
  | .superInit _ args keywords _ => args ++ keywords.map Keyword.value
  | .delete targets _ => Target.operandsAll targets
  | .nestedDef _ _ _ | .pass _ | .breakLoop _ | .continueLoop _ | .unsupported _ => []

/-- A statement binds a name without a form for it: by an assignment expression that it evaluates, a
handler, or a function that it makes. -/
inductive Binds (n : Name) : Stmt → Prop
  | expression {st : Stmt} {e value : Expr} {span : Span} (he : e ∈ st.operands)
      (hc : e.Evaluates (.bind n value span)) : Binds n st
  | handler {body orelse final : List Stmt} {handlers : List Handler} {span : Span} {h : Handler}
      (hh : h ∈ handlers) (hn : h.name = some n) :
      Binds n (.tryBlock body handlers orelse final span)
  | nested {capturesSelf : Bool} {span : Span} : Binds n (.nestedDef n capturesSelf span)

/-- The blocks of a statement. -/
def blocks : Stmt → List (List Stmt)
  | .ifElse _ body orelse _ | .whileLoop _ body orelse _ | .forLoop _ _ body orelse _ =>
    [body, orelse]
  | .tryBlock body handlers orelse final _ => body :: orelse :: final :: handlers.map Handler.body
  | .withBlock _ body _ => [body]
  | _ => []

variable {f : Name → Name} {n : Name}

theorem rebindHandlers_eq_map (hs : List Handler) : rebindHandlers f hs = hs.map fun h =>
    ⟨h.type.map (Expr.rebind f), h.name.map f, rebindAll f h.body, h.span⟩ := by
  induction hs with
  | nil => rfl
  | cons h hs ih =>
    obtain ⟨type, name, body, span⟩ := h
    rw [rebindHandlers, ih, List.map_cons]

/-- The blocks of a changed statement are the changed blocks. -/
theorem blocks_rebind (st : Stmt) : (st.rebind f).blocks = st.blocks.map (rebindAll f) := by
  cases st with
  | tryBlock body hs orelse final span =>
    simp [rebind, blocks, rebindHandlers_eq_map]
  | _ => rfl

/-- The operands of a changed statement are the changed operands. -/
theorem operands_rebind (st : Stmt) : (st.rebind f).operands = st.operands.map (Expr.rebind f) := by
  cases st with
  | assign targets value span | delete targets span =>
    simp [rebind, operands, Target.operandsAll_rebindAll]
  | forLoop target source body orelse span => simp [rebind, operands, Target.operands_rebind]
  | tryBlock body hs orelse final span =>
    simp [rebind, operands, rebindHandlers_eq_map, List.filterMap_map, List.map_filterMap]
  | withBlock items body span =>
    simp [rebind, operands, List.flatMap_map, List.map_flatMap, WithItem.operands_rebind]
  | ret value span => cases value <;> rfl
  | raise exception cause span => cases exception <;> cases cause <;> rfl
  | assertion test message span => cases message <;> rfl
  | superInit target args keywords span => simp [rebind, operands, Keyword.rebind]
  | _ => rfl

/-- A name that is not put in place of any is not bound. -/
theorem not_binds_rebind (hf : ∀ k, f k ≠ n) (st : Stmt) : ¬(st.rebind f).Binds n := by
  -- Which form binds the name is a case on the new statement, what it was made of one on the old.
  generalize hst : st.rebind f = st'
  intro h
  cases h with
  | expression he hc =>
    rw [← hst, operands_rebind] at he
    obtain ⟨e, -, rfl⟩ := List.mem_map.1 he
    obtain ⟨c, hc'⟩ := e.exists_rebind_of_evaluates _ hc
    cases c with
    | bind target value span =>
      injection hc' with htarget
      exact hf target htarget.symm
    | _ => simp [Expr.rebind, Expr.relabel, Expr.rebindNode] at hc'
  | handler hh hn =>
    cases st with
    | tryBlock body hs orelse final span =>
      rw [rebind, rebindHandlers_eq_map] at hst
      injection hst with _ hhandlers
      rw [← hhandlers] at hh
      obtain ⟨h, -, rfl⟩ := List.mem_map.1 hh
      obtain ⟨k, -, hk⟩ := Option.map_eq_some_iff.1 hn
      exact hf k hk
    | _ => simp [rebind] at hst
  | nested =>
    cases st with
    | nestedDef name capturesSelf span =>
      injection hst with hname
      exact hf name hname
    | _ => simp [rebind] at hst

end Stmt

namespace Scope

variable {sc : Scope} {m : Mode} {st : Stmt} {u v : Visit} {f : Name → Name}

/-- A walk enters blocks of the statement alone. -/
theorem Enters.code_mem_blocks (h : sc.Enters m s st v) : v.code ∈ st.blocks := by
  cases h with
  | branch | otherwise | final => simp [Stmt.blocks]
  | round hst | completed hst =>
    cases st with
    | whileLoop | forLoop =>
      obtain rfl := Option.some.inj hst
      simp [Stmt.blocks]
    | _ => simp [Stmt.loopCode?] at hst
  | shielded hv =>
    cases hv with
    | handler hh => simpa [Stmt.blocks] using Or.inr (Or.inr (Or.inr ⟨_, hh, rfl⟩))
    | _ => simp [Stmt.blocks]

/-- From code in which names are replaced, the walk comes to such code only. -/
theorem ComesTo.exists_rebindAll (h : sc.ComesTo u v) {body : List Stmt}
    (hu : u.code = Stmt.rebindAll f body) : ∃ body', v.code = Stmt.rebindAll f body' := by
  induction h with
  | refl => exact ⟨body, hu⟩
  | tail _ hstep ih =>
    obtain ⟨code, hcode⟩ := ih
    cases code with
    | nil => cases hstep <;> simp [Stmt.rebindAll] at hcode
    | cons st rest =>
      rw [Stmt.rebindAll] at hcode
      cases hstep with
      | on hn => exact ⟨rest, (List.cons.inj hcode).2⟩
      | into hv =>
        obtain ⟨rfl, -⟩ := List.cons.inj hcode
        have hmem := hv.code_mem_blocks
        rw [Stmt.blocks_rebind] at hmem
        obtain ⟨body', -, hbody'⟩ := List.mem_map.1 hmem
        exact ⟨body', hbody'.symm⟩

end Scope

namespace Graph

/-- If the walk comes to a statement that binds or deletes the receiver's own name by a form made
for that, the summary says that the receiver has escaped. Other forms that bind a name are passed
over: the summary is the same whatever names they bind. -/
theorem rebinding_escapes_by_form (g : Graph) (known : ClassTable Facts) (o : Options)
    (id : ClassId) (body : List Stmt) (entry : State) (hentry : entry.escaped = false) :
    (∀ v st rest, (g.scope known o id).ComesTo ⟨.top, body, entry⟩ v → v.code = st :: rest →
      st.rebindsSelf = true → (g.walkBody known o id body entry).escaped = true) ∧
    ∀ f, g.walkBody known o id (Stmt.rebindAll f body) entry = g.walkBody known o id body entry ∧
      ((∀ n, f n ≠ .self) → ∀ v st rest,
        (g.scope known o id).ComesTo ⟨.top, Stmt.rebindAll f body, entry⟩ v →
          v.code = st :: rest → ¬st.Binds .self) := by
  refine ⟨fun v st rest hv hcode hst => ?_, fun f => ⟨?_, fun hf v st rest hv hcode => ?_⟩⟩
  · have hflagged : Flagged v.state ((g.scope known o id).walk v).trace.escapes := by
      rw [Scope.walk, hcode, Scope.block]
      exact ((g.scope known o id).flagged_of_rebindsSelf hst v.mode v.state).mono
        (Outcome.escapes_subset_andThen _ _)
    exact Summary.escaped_of_flagged (hv.flagged hflagged) hentry
  · rw [walkBody, walkBody, Scope.block_rebindAll]
  · obtain ⟨body', hbody'⟩ := hv.exists_rebindAll rfl
    cases body' with
    | nil => simp [hcode, Stmt.rebindAll] at hbody'
    | cons st' rest' =>
      rw [hcode, Stmt.rebindAll] at hbody'
      rw [(List.cons.inj hbody').1]
      exact Stmt.not_binds_rebind hf st'

/-- Binds the receiver's name in a loop, one of two names that each round unpacks, and an attribute
after it. -/
def unpackingSelf : List Stmt :=
  [.guarded
    [.forLoop (.ofList [.var ⟨8⟩, .self .empty]) (.var .param ⟨9⟩) [.pass .empty] [] .empty]
    [] [] [],
    .setAttr ⟨30⟩ (.literal .none)]

/-- The walk comes to the loop in the guarded block, and the attribute does not count. -/
theorem rebinding_escapes_by_form_unpackingSelf :
    ∃ v st rest, (single.scope ∅ .default ⟨0⟩).ComesTo
        ⟨.top, unpackingSelf, ⟨∅, false⟩⟩ v ∧ v.code = st :: rest ∧ st.rebindsSelf = true ∧
      (single.walkBody ∅ .default ⟨0⟩ unpackingSelf ⟨∅, false⟩).escaped = true ∧
      (⟨∅, false⟩ : State).escaped = false := by
  have hcomes : (single.scope ∅ .default ⟨0⟩).ComesTo
      ⟨.top, unpackingSelf, ⟨∅, false⟩⟩ _ := .single (.into (.shielded .tryBody))
  exact ⟨_, _, _, hcomes, rfl, rfl,
    (rebinding_escapes_by_form single ∅ .default ⟨0⟩ unpackingSelf ⟨∅, false⟩ rfl).1
      _ _ _ hcomes rfl rfl, rfl⟩

/-- Statements that bind the receiver's name without a form for it: by an assignment expression, in
a handler, and as that of a nested function. -/
def unnoticedRebindings : List Stmt :=
  [.run (.binding .self (.literal .none)),
    .guarded [.pass .empty] [⟨none, some .self, [.pass .empty], .empty⟩] [] [],
    .define .self false]

/-- After none of them is the receiver taken to have escaped, and an attribute that is assigned next
counts as its own. -/
theorem not_rebinding_escapes_unnoticed : ¬∃ st ∈ unnoticedRebindings, ∀ v rest,
    (single.scope ∅ .default ⟨0⟩).ComesTo
        ⟨.top, [st, .setAttr ⟨30⟩ (.literal .none)], ⟨∅, false⟩⟩ v →
    v.code = st :: rest → st.Binds .self →
    (single.walkBody ∅ .default ⟨0⟩ [st, .setAttr ⟨30⟩ (.literal .none)]
        ⟨∅, false⟩).escaped = true ∨
      ⟨30⟩ ∉ (single.walkBody ∅ .default ⟨0⟩ [st, .setAttr ⟨30⟩ (.literal .none)]
        ⟨∅, false⟩).defined := by
  have hbinds : ∀ st ∈ unnoticedRebindings, st.Binds .self := by
    intro st hst
    rcases List.mem_cons.1 hst with rfl | hst
    · exact .expression (.head _) .here
    rcases List.mem_cons.1 hst with rfl | hst
    · exact .handler (.head _) rfl
    · obtain rfl := List.mem_singleton.1 hst
      exact .nested
  have hsummary : ∀ st ∈ unnoticedRebindings,
      single.walkBody ∅ .default ⟨0⟩ [st, .setAttr ⟨30⟩ (.literal .none)] ⟨∅, false⟩ =
        ⟨.ofList [⟨30⟩], false, 1, none⟩ := by
    decide +kernel
  rintro ⟨st, hst, h⟩
  have hnoticed := h _ _ .refl rfl (hbinds st hst)
  rw [hsummary st hst] at hnoticed
  exact absurd hnoticed (by decide +kernel)

end Graph

end DefiniteInit
