import DefiniteInit.Walk.Stmt

/-!
# Comparing walks

One body can be walked by two scopes, or from two states. What is to be said of two such walks is
a relation between them, and it holds of the walks over any body if it holds of the smallest steps
and passes through all ways to put walks together (`Scope.Comparison`, `Scope.Comparison.block`).
Verdicts are compared first, as functions of what is surely assigned.

A comparison may be restricted to bodies that assign certain attributes only and make certain calls
only (`Stmt.superTargets`). An assignment whose verdict is safe assigns no property
(`Judge.not_mem_properties_of_targets_isSafe`).
-/

namespace DefiniteInit

/-! ## Calls in a body -/

namespace Stmt

mutual

/-- The calls of bases' initializers in a statement. -/
def superTargets : Stmt → List SuperTarget
  | .superInit target _ _ _ => [target]
  | .ifElse _ body orelse _ | .whileLoop _ body orelse _ | .forLoop _ _ body orelse _ =>
    superTargetsAll body ++ superTargetsAll orelse
  | .tryBlock body handlers orelse final _ =>
    superTargetsAll body ++ superTargetsHandlers handlers ++ superTargetsAll orelse ++
      superTargetsAll final
  | .withBlock _ body _ => superTargetsAll body
  | .assign _ _ _ | .eval _ _ | .ret _ _ | .raise _ _ _ | .assertion _ _ _ | .rebindSelf _ _
  | .delete _ _ | .nestedDef _ _ _ | .pass _ | .breakLoop _ | .continueLoop _
  | .unsupported _ => []

/-- The calls of bases' initializers in statements. -/
def superTargetsAll : List Stmt → List SuperTarget
  | [] => []
  | s :: ss => s.superTargets ++ superTargetsAll ss

/-- The calls of bases' initializers in handlers. -/
def superTargetsHandlers : List Handler → List SuperTarget
  | [] => []
  | ⟨_, _, body, _⟩ :: hs => superTargetsAll body ++ superTargetsHandlers hs

end

end Stmt

/-! ## Assignments that are safe -/

namespace Judge

variable {j : Judge} {d : AttrSet}

mutual

/-- The judge lets no property be assigned. -/
theorem not_mem_properties_of_target_isSafe : ∀ t : Target, (j.target d t).isSafe = true →
    ∀ a ∈ t.assigned, a ∉ j.properties
  | .selfAttr attr span, h => by
    rw [target] at h
    split at h
    · simp [Verdict.escape, Verdict.isSafe] at h
    · simpa [Target.assigned]
  | .tuple elements _, h => by
    rw [target] at h
    rw [Target.assigned]
    exact not_mem_properties_of_targets_isSafe elements h
  | .self _, _ | .name _ _, _ | .attribute _ _ _, _ | .subscript _ _ _, _ => by
    simp [Target.assigned]

/-- To assign a property runs code, and is not safe. -/
theorem not_mem_properties_of_targets_isSafe : ∀ ts : List Target, (j.targets d ts).isSafe = true →
    ∀ a ∈ Target.assignedAll ts, a ∉ j.properties
  | [], _ => by simp [Target.assignedAll]
  | t :: ts, h => by
    rw [targets, Verdict.isSafe_andThen, Bool.and_eq_true] at h
    rw [Target.assignedAll]
    exact List.forall_mem_append.2 ⟨not_mem_properties_of_target_isSafe t h.1,
      not_mem_properties_of_targets_isSafe ts h.2⟩

end

end Judge

/-! ## Escapes in calls -/

/-- The class whose initializer lets the receiver escape. -/
def EscapeReason.base? : EscapeReason → Option ClassId
  | .compromisedBase base | .unanalyzedBase base => some base
  | _ => none

/-- The class a verdict lays the escape to. -/
def Verdict.base? (v : Verdict) : Option ClassId := v.site?.bind fun site => site.reason.base?

/-! ## Calls whose arguments are judged -/

/-- A call whose arguments are judged, by what is surely assigned. -/
def BaseCall.judged (call : BaseCall) (v : AttrSet → Verdict) (m : Mode) (span : Span) (s : State) :
    Outcome :=
  (Outcome.check (v s.defined) s).andThen fun t =>
    let t := call.fold ((v s.defined).isSafe && !m.shielded) t
    match call.escape? span with
    | none => .goOn t
    | some site => .check (.escapes site) t

/-! ## Walks one after the other -/

theorem Trace.append_empty (t : Trace) : t ++ (∅ : Trace) = t := by
  obtain ⟨exits, leading, trailing, escapes, deletions⟩ := t
  show append _ empty = _
  simp [append, empty]

theorem Trace.empty_append (t : Trace) : (∅ : Trace) ++ t = t := by
  obtain ⟨exits, leading, trailing, escapes, deletions⟩ := t
  show append empty _ = _
  simp [append, empty]

theorem Outcome.andThen_goOn (o : Outcome) : o.andThen .goOn = o := by
  obtain ⟨next, trace⟩ := o
  cases next with
  | none => rfl
  | some t => simp [andThen, goOn, Trace.append_empty]

/-- A safe verdict leaves no mark. -/
theorem Outcome.check_safe_andThen (s : State) (w : State → Outcome) :
    (Outcome.check .safe s).andThen w = w s := by
  show (⟨(w s).next, ∅ ++ (w s).trace⟩ : Outcome) = w s
  rw [Trace.empty_append]

theorem AttrSet.inter_assoc (s t u : AttrSet) : s ∩ t ∩ u = s ∩ (t ∩ u) := by
  refine AttrSet.ext ?_
  show (s.toList.filter (· ∈ t)).filter (· ∈ u) = s.toList.filter (· ∈ t ∩ u)
  rw [List.filter_filter]
  refine List.filter_congr fun a _ => ?_
  simp [Bool.and_comm]

/-- States merge in any grouping. -/
theorem State.merge_assoc (s t u : State) : (s.merge t).merge u = s.merge (t.merge u) := by
  simp only [State.merge, AttrSet.inter_assoc, Bool.or_assoc]

theorem mergePaths_assoc (p q r : Option State) :
    mergePaths (mergePaths p q) r = mergePaths p (mergePaths q r) := by
  cases p with
  | none => rfl
  | some s =>
    cases q with
    | none => rfl
    | some t =>
      cases r with
      | none => rfl
      | some u => exact congrArg some (State.merge_assoc s t u)

/-- Jumps merge in any grouping. -/
theorem Jumps.merge_assoc (i j k : Jumps) : (i.merge j).merge k = i.merge (j.merge k) := by
  simp only [Jumps.merge, mergePaths_assoc]

/-- Traces follow each other in any grouping. -/
theorem Trace.append_assoc (x y z : Trace) : x ++ y ++ z = x ++ (y ++ z) := by
  show append (append x y) z = append x (append y z)
  simp only [append, Jumps.merge_assoc, List.append_assoc]

/-- Of three walks in turn the first two or the last two can be taken together. -/
theorem Outcome.andThen_assoc (o : Outcome) (w x : State → Outcome) :
    (o.andThen w).andThen x = o.andThen fun s => (w s).andThen x := by
  cases hn : o.next with
  | none => simp only [andThen, hn]
  | some s =>
    cases hm : (w s).next with
    | none => simp only [andThen, hn, hm]
    | some t => simp only [andThen, hn, hm, Trace.append_assoc]

/-- A block can be cut in two anywhere. -/
theorem Scope.block_append {sc : Scope} (m : Mode) (pre post : List Stmt) (s : State) :
    sc.block m (pre ++ post) s = (sc.block m pre s).andThen (sc.block m post) := by
  induction pre generalizing s with
  | nil =>
    rw [List.nil_append, block]
    exact (Outcome.check_safe_andThen s _).symm
  | cons st pre ih =>
    rw [List.cons_append, block, block, Outcome.andThen_assoc]
    exact congrArg _ (funext ih)

/-! ## Code under a manager -/

/-- Code under a manager goes on as code with a handler that does nothing. -/
theorem Outcome.managed_eq (o : Outcome) (t : State) :
    (⟨mergePaths o.next (some t), o.trace⟩ : Outcome) = (o.andThen .goOn).either (.goOn t) := by
  rw [andThen_goOn, either, goOn, Trace.append_empty]

/-! ## Comparisons -/

namespace Scope

/-- A relation `V` between verdicts and a relation `R` between walks that hold of what the two
scopes make of any expression and, as far as attributes of `A` are assigned and calls of `T`
made, of any body. Only calls lay an escape to a class. -/
structure Comparison (sc sc' : Scope) (A : Name → Prop) (T : SuperTarget → Prop)
    (V : (AttrSet → Verdict) → (AttrSet → Verdict) → Prop)
    (R : (State → Outcome) → (State → Outcome) → Prop) : Prop where
  properties : sc'.judge.properties = sc.judge.properties
  expr : ∀ e, V (fun d => sc.judge.expr d e) fun d => sc'.judge.expr d e
  fixed : ∀ v, v.base? = none → V (fun _ => v) fun _ => v
  inTurn : ∀ {u u' v v'}, V u u' → V v v' →
    V (fun d => (u d).andThen (v d)) fun d => (u' d).andThen (v' d)
  goOn : R .goOn .goOn
  raise : R (fun _ => .stop ∅) fun _ => .stop ∅
  exit : ∀ span, R (fun s => .stop (.ofExit ⟨s, .returned, span⟩))
    fun s => .stop (.ofExit ⟨s, .returned, span⟩)
  broken : R (fun s => .stop (.ofJumps ⟨some s, none⟩)) fun s => .stop (.ofJumps ⟨some s, none⟩)
  continued : R (fun s => .stop (.ofJumps ⟨none, some s⟩)) fun s => .stop (.ofJumps ⟨none, some s⟩)
  remove : ∀ attr, R (fun s => ⟨some (s.undefine attr), .ofDeletion attr⟩)
    fun s => ⟨some (s.undefine attr), .ofDeletion attr⟩
  check : ∀ {v v'}, V v v' → R (fun s => .check (v s.defined) s) fun s => .check (v' s.defined) s
  assign : ∀ {v v'} m {attrs}, V v v' → (∀ a ∈ attrs, A a) →
    (∀ d, (v d).isSafe = true → ∀ a ∈ attrs, a ∉ sc.judge.properties) →
    R (fun s => Scope.assign m (v s.defined) attrs s) fun s => Scope.assign m (v' s.defined) attrs s
  call : ∀ {v v'} m span {target}, V v v' → T target →
    R ((sc.baseCall target).judged v m span) ((sc'.baseCall target).judged v' m span)
  andThen : ∀ {w w' x x'}, R w w' → R x x' →
    R (fun s => (w s).andThen x) fun s => (w' s).andThen x'
  either : ∀ {w w' x x'}, R w w' → R x x' →
    R (fun s => (w s).either (x s)) fun s => (w' s).either (x' s)
  loop : ∀ {v v' w w' x x'} infinite, V v v' → R w w' → R x x' →
    R (Loop.walk ⟨fun s => v s.defined, w⟩ infinite x)
      (Loop.walk ⟨fun s => v' s.defined, w'⟩ infinite x')
  region : ∀ {w w' x x' y y'}, R w w' → R x x' → R y y' →
    R (fun s => ((w s).andThen x).either (y (s.interrupted (w s).trace)))
      fun s => ((w' s).andThen x').either (y' (s.interrupted (w' s).trace))
  closeWith : ∀ {w w' x x'}, R w w' → R x x' →
    R (fun s => (w s).closeWith x) fun s => (w' s).closeWith x'

namespace Comparison

variable {sc sc' : Scope} {A : Name → Prop} {T : SuperTarget → Prop}
  {V : (AttrSet → Verdict) → (AttrSet → Verdict) → Prop}
  {R : (State → Outcome) → (State → Outcome) → Prop} (C : Comparison sc sc' A T V R)

include C

/-- Lists of expressions are judged alike if expressions are. -/
theorem exprs : ∀ es, V (fun d => sc.judge.exprs d es) fun d => sc'.judge.exprs d es
  | [] => by simp only [Judge.exprs]; exact C.fixed .safe rfl
  | e :: es => by simp only [Judge.exprs]; exact C.inTurn (C.expr e) (exprs es)

theorem expr? : ∀ e, V (fun d => sc.judge.expr? d e) fun d => sc'.judge.expr? d e
  | none => by simp only [Judge.expr?]; exact C.fixed .safe rfl
  | some e => by simp only [Judge.expr?]; exact C.expr e

theorem keywords : ∀ ks, V (fun d => sc.judge.keywords d ks) fun d => sc'.judge.keywords d ks
  | [] => by simp only [Judge.keywords]; exact C.fixed .safe rfl
  | ⟨_, value⟩ :: ks => by simp only [Judge.keywords]; exact C.inTurn (C.expr value) (keywords ks)

/-- So is a value that is assigned, also where it gives the receiver a second name. -/
theorem value (e : Expr) : V (fun d => sc.judge.value d e) fun d => sc'.judge.value d e := by
  unfold Judge.value
  split
  · exact C.fixed _ rfl
  · exact C.expr e

mutual

/-- So is a target. -/
theorem target : ∀ t, V (fun d => sc.judge.target d t) fun d => sc'.judge.target d t
  | .selfAttr attr span => by
    simp only [Judge.target, C.properties]
    exact C.fixed _ (by split <;> rfl)
  | .self span => by simp only [Judge.target]; exact C.fixed _ rfl
  | .name _ _ => by simp only [Judge.target]; exact C.fixed _ rfl
  | .attribute value _ _ => by simp only [Judge.target]; exact C.expr value
  | .subscript value index _ => by
    simp only [Judge.target]; exact C.inTurn (C.expr value) (C.expr index)
  | .tuple elements _ => by simp only [Judge.target]; exact targets elements

theorem targets : ∀ ts, V (fun d => sc.judge.targets d ts) fun d => sc'.judge.targets d ts
  | [] => by simp only [Judge.targets]; exact C.fixed .safe rfl
  | t :: ts => by simp only [Judge.targets]; exact C.inTurn (target t) (targets ts)

end

theorem manager (e : Expr) :
    V (fun d => Scope.manager sc.judge d e) fun d => Scope.manager sc'.judge d e := by
  unfold Scope.manager
  split
  · exact C.fixed _ rfl
  · exact C.expr e

/-- So are managers and what they are bound to. -/
theorem enter : ∀ items,
    V (fun d => Scope.enter sc.judge d items) fun d => Scope.enter sc'.judge d items
  | [] => by simp only [Scope.enter]; exact C.fixed .safe rfl
  | ⟨e, none⟩ :: rest => by
    simp only [Scope.enter]
    exact C.inTurn (C.manager e) (C.inTurn (C.fixed .safe rfl) (enter rest))
  | ⟨e, some t⟩ :: rest => by
    simp only [Scope.enter]
    exact C.inTurn (C.manager e) (C.inTurn (C.target t) (enter rest))

mutual

/-- Deletions are walked alike. -/
theorem deleteTarget : ∀ t, R (fun s => sc.deleteTarget t s) fun s => sc'.deleteTarget t s
  | .selfAttr attr span => by
    simp only [Scope.deleteTarget]
    exact C.andThen (C.check (C.target (.selfAttr attr span))) (C.remove attr)
  | .self span => by simp only [Scope.deleteTarget]; exact C.check (C.fixed _ rfl)
  | .name _ _ => by simp only [Scope.deleteTarget]; exact C.goOn
  | .attribute value attr span => by
    simp only [Scope.deleteTarget]; exact C.check (C.target (.attribute value attr span))
  | .subscript value index span => by
    simp only [Scope.deleteTarget]; exact C.check (C.target (.subscript value index span))
  | .tuple elements _ => by simp only [Scope.deleteTarget]; exact deleteTargets elements

theorem deleteTargets : ∀ ts, R (fun s => sc.deleteTargets ts s) fun s => sc'.deleteTargets ts s
  | [] => by simp only [Scope.deleteTargets]; exact C.goOn
  | t :: ts => by
    simp only [Scope.deleteTargets]; exact C.andThen (deleteTarget t) (deleteTargets ts)

end

mutual

/-- Statements are walked alike, if those that assign or call do so within what is compared. -/
theorem stmt : ∀ (st : Stmt) (m : Mode), (∀ a ∈ st.assigned, A a) → (∀ t ∈ st.superTargets, T t) →
    R (fun s => sc.stmt m st s) fun s => sc'.stmt m st s
  | .assign targets value _, m, hA, hT => by
    simp only [Scope.stmt]
    refine C.assign m (C.inTurn (C.value value) (C.targets targets))
      (by simpa [Stmt.assigned] using hA) fun d hsafe => ?_
    rw [Verdict.isSafe_andThen, Bool.and_eq_true] at hsafe
    -- A safe assignment is to no property, which a comparison may ask for.
    exact Judge.not_mem_properties_of_targets_isSafe targets hsafe.2
  | .eval value _, m, hA, hT => by
    simp only [Scope.stmt]; exact C.check (C.expr value)
  | .ifElse test body orelse _, m, hA, hT => by
    rw [Stmt.assigned, List.forall_mem_append] at hA
    rw [Stmt.superTargets, List.forall_mem_append] at hT
    simp only [Scope.stmt]
    exact C.andThen (C.check (C.expr test))
      (C.either (block body m hA.1 hT.1) (block orelse m hA.2 hT.2))
  | .whileLoop test body orelse _, m, hA, hT => by
    rw [Stmt.assigned, List.forall_mem_append] at hA
    rw [Stmt.superTargets, List.forall_mem_append] at hT
    simp only [Scope.stmt]
    exact C.loop _ (C.expr test) (block body m.loop hA.1 hT.1) (block orelse m hA.2 hT.2)
  | .forLoop target source body orelse _, m, hA, hT => by
    rw [Stmt.assigned, List.forall_mem_append, List.forall_mem_append] at hA
    rw [Stmt.superTargets, List.forall_mem_append] at hT
    simp only [Scope.stmt]
    refine C.andThen (C.check (C.expr source)) (C.loop _ (C.fixed .safe rfl) (C.andThen ?_
      (block body m.loop hA.1.2 hT.1)) (block orelse m hA.2 hT.2))
    exact C.assign m (C.target target) hA.1.1 fun d hsafe =>
      Judge.not_mem_properties_of_target_isSafe target hsafe
  | .tryBlock body hs orelse final _, m, hA, hT => by
    simp only [Stmt.assigned, List.forall_mem_append] at hA
    simp only [Stmt.superTargets, List.forall_mem_append] at hT
    have hregion := C.region (block body m.shield hA.1.1.1 hT.1.1.1)
      (block orelse m.shield hA.1.2 hT.1.2) (handlers hs m.shield hA.1.1.2 hT.1.1.2)
    simp only [Scope.stmt]
    split
    · exact hregion
    · exact C.closeWith hregion (block final m hA.2 hT.2)
  -- A `with` statement is walked like the region of a `try` statement with nothing in its handlers.
  | .withBlock items body _, m, hA, hT => by
    rw [Stmt.assigned, List.forall_mem_append] at hA
    rw [Stmt.superTargets] at hT
    simp only [Scope.stmt, Outcome.managed_eq]
    exact C.andThen (C.check (C.enter items)) (C.region (block body m.shield hA.2 hT) C.goOn C.goOn)
  | .ret value span, m, hA, hT => by
    simp only [Scope.stmt]; exact C.andThen (C.check (C.expr? value)) (C.exit span)
  | .raise exception cause _, m, hA, hT => by
    simp only [Scope.stmt]
    exact C.andThen (C.check (C.inTurn (C.expr? exception) (C.expr? cause))) C.raise
  | .assertion test message _, m, hA, hT => by
    simp only [Scope.stmt]; exact C.check (C.inTurn (C.expr test) (C.expr? message))
  | .superInit target args kws span, m, hA, hT => by
    simp only [Scope.stmt]
    exact C.call m span (C.inTurn (C.exprs args) (C.keywords kws))
      (hT target (by simp [Stmt.superTargets]))
  | .rebindSelf value span, m, hA, hT => by
    simp only [Scope.stmt]; exact C.check (C.inTurn (C.expr value) (C.fixed _ rfl))
  | .delete targets _, m, hA, hT => by
    simp only [Scope.stmt]; exact C.deleteTargets targets
  | .nestedDef _ capturesSelf span, m, hA, hT => by
    simp only [Scope.stmt]; exact C.check (C.fixed _ (by split <;> rfl))
  | .pass _, m, hA, hT => by simp only [Scope.stmt]; exact C.goOn
  | .breakLoop span, m, hA, hT => by
    simp only [Scope.stmt]
    split
    · exact C.broken
    · exact C.check (C.fixed _ rfl)
  | .continueLoop span, m, hA, hT => by
    simp only [Scope.stmt]
    split
    · exact C.continued
    · exact C.check (C.fixed _ rfl)
  | .unsupported span, m, hA, hT => by simp only [Scope.stmt]; exact C.check (C.fixed _ rfl)

/-- The walks over a body compare. -/
theorem block : ∀ (ss : List Stmt) (m : Mode), (∀ a ∈ Stmt.assignedAll ss, A a) →
    (∀ t ∈ Stmt.superTargetsAll ss, T t) → R (fun s => sc.block m ss s) fun s => sc'.block m ss s
  | [], m, hA, hT => by simp only [Scope.block]; exact C.goOn
  | st :: ss, m, hA, hT => by
    rw [Stmt.assignedAll, List.forall_mem_append] at hA
    rw [Stmt.superTargetsAll, List.forall_mem_append] at hT
    simp only [Scope.block]
    exact C.andThen (stmt st m hA.1 hT.1) (block ss m hA.2 hT.2)

/-- Handlers are walked alike. -/
theorem handlers : ∀ (hs : List Handler) (m : Mode), (∀ a ∈ Stmt.assignedHandlers hs, A a) →
    (∀ t ∈ Stmt.superTargetsHandlers hs, T t) →
    R (fun s => sc.handlers m hs s) fun s => sc'.handlers m hs s
  | [], m, hA, hT => by simp only [Scope.handlers]; exact C.raise
  | ⟨type, _, body, _⟩ :: rest, m, hA, hT => by
    rw [Stmt.assignedHandlers, List.forall_mem_append] at hA
    rw [Stmt.superTargetsHandlers, List.forall_mem_append] at hT
    simp only [Scope.handlers]
    exact C.either (C.andThen (C.check (C.expr? type)) (block body m hA.1 hT.1))
      (handlers rest m hA.2 hT.2)

end

end Comparison

/-- Scopes that judge alike and whose calls have the same effects walk alike. -/
theorem comparison_eq {sc sc' : Scope} (hjudge : sc'.judge = sc.judge)
    (hfold : ∀ t, (sc'.baseCall t).fold = (sc.baseCall t).fold)
    (hescape : ∀ t, (sc'.baseCall t).escape? = (sc.baseCall t).escape?) :
    Comparison sc sc' (fun _ => True) (fun _ => True) Eq Eq where
  properties := by rw [hjudge]
  expr _ := by rw [hjudge]
  fixed _ _ := rfl
  inTurn hu hv := by rw [hu, hv]
  goOn := rfl
  raise := rfl
  exit _ := rfl
  broken := rfl
  continued := rfl
  remove _ := rfl
  check hv := by rw [hv]
  assign m attrs hv _ _ := by rw [hv]
  call m span target hv _ := by
    funext s
    simp only [BaseCall.judged, hv, hfold, hescape]
  andThen hw hx := by rw [hw, hx]
  either hw hx := by rw [hw, hx]
  loop infinite hv hw hx := by rw [hv, hw, hx]
  region hw hx hy := by rw [hw, hx, hy]
  closeWith hw hx := by rw [hw, hx]

/-- The walk depends on the judge and on what calls give and let escape. -/
theorem block_congr {sc sc' : Scope} (hjudge : sc'.judge = sc.judge)
    (hfold : ∀ t, (sc'.baseCall t).fold = (sc.baseCall t).fold)
    (hescape : ∀ t, (sc'.baseCall t).escape? = (sc.baseCall t).escape?) (m : Mode)
    (ss : List Stmt) : sc'.block m ss = sc.block m ss :=
  ((comparison_eq hjudge hfold hescape).block ss m (fun _ _ => trivial) fun _ _ => trivial).symm

end Scope

end DefiniteInit
