import DefiniteInit.Proofs.Comparisons

/-!
# Laws of a walk

What is to be said of one walk is a property of what it makes of a state. It may depend on the
surroundings, and on whether the code jumps out of the loop around it. Such a property holds of the
walks over any body if it holds of the smallest steps and passes through all ways to put walks
together (`Scope.WalkLaw`, `Scope.WalkLaw.block`). It may be restricted to bodies that delete
certain attributes only (`Stmt.deleted`), and to bodies without jumps of their own
(`Stmt.isJumpFree`).
-/

namespace DefiniteInit

/-! ## Deletions and jumps in a body -/

namespace Stmt

mutual

/-- Attributes of the receiver that a statement deletes. -/
def deleted : Stmt → List Name
  | .delete targets _ => Target.assignedAll targets
  | .ifElse _ body orelse _ | .whileLoop _ body orelse _ | .forLoop _ _ body orelse _ =>
    deletedAll body ++ deletedAll orelse
  | .tryBlock body handlers orelse final _ =>
    deletedAll body ++ deletedHandlers handlers ++ deletedAll orelse ++ deletedAll final
  | .withBlock _ body _ => deletedAll body
  | .assign _ _ _ | .eval _ _ | .ret _ _ | .raise _ _ _ | .assertion _ _ _ | .superInit _ _ _ _
  | .rebindSelf _ _ | .nestedDef _ _ _ | .pass _ | .breakLoop _ | .continueLoop _
  | .unsupported _ => []

/-- Attributes of the receiver that statements delete. -/
def deletedAll : List Stmt → List Name
  | [] => []
  | s :: ss => s.deleted ++ deletedAll ss

/-- Attributes of the receiver that handlers delete. -/
def deletedHandlers : List Handler → List Name
  | [] => []
  | ⟨_, _, body, _⟩ :: hs => deletedAll body ++ deletedHandlers hs

end

mutual

/-- No `break` or `continue` of the statement belongs to a loop around it. -/
def isJumpFree : Stmt → Bool
  | .breakLoop _ | .continueLoop _ => false
  | .ifElse _ body orelse _ => allJumpFree body && allJumpFree orelse
  | .whileLoop _ _ orelse _ | .forLoop _ _ _ orelse _ => allJumpFree orelse
  | .tryBlock body handlers orelse final _ =>
    allJumpFree body && handlersJumpFree handlers && allJumpFree orelse && allJumpFree final
  | .withBlock _ body _ => allJumpFree body
  | .assign _ _ _ | .eval _ _ | .ret _ _ | .raise _ _ _ | .assertion _ _ _ | .superInit _ _ _ _
  | .rebindSelf _ _ | .delete _ _ | .nestedDef _ _ _ | .pass _ | .unsupported _ => true

/-- No `break` or `continue` of the statements belongs to a loop around them. -/
def allJumpFree : List Stmt → Bool
  | [] => true
  | s :: ss => s.isJumpFree && allJumpFree ss

/-- No `break` or `continue` of the handlers belongs to a loop around them. -/
def handlersJumpFree : List Handler → Bool
  | [] => true
  | ⟨_, _, body, _⟩ :: hs => allJumpFree body && handlersJumpFree hs

end

end Stmt

/-! ## Laws -/

namespace Scope

/-- A property `P` of walks that holds of what the scope makes of any body, as far as attributes of
`D` are deleted. It is told the surroundings, and whether the code may jump out of the loop around
it; the body of a loop may. -/
structure WalkLaw (sc : Scope) (D : Name → Prop) (P : Mode → Bool → (State → Outcome) → Prop) :
    Prop where
  goOn : ∀ m jumps, P m jumps .goOn
  raise : ∀ m jumps, P m jumps fun _ => .stop ∅
  exit : ∀ m jumps span, P m jumps fun s => .stop (.ofExit ⟨s, .returned, span⟩)
  broken : ∀ m, P m true fun s => .stop (.ofJumps ⟨some s, none⟩)
  continued : ∀ m, P m true fun s => .stop (.ofJumps ⟨none, some s⟩)
  remove : ∀ m jumps attr, D attr → P m jumps fun s => ⟨some (s.undefine attr), .ofDeletion attr⟩
  check : ∀ m jumps (v : AttrSet → Verdict), P m jumps fun s => .check (v s.defined) s
  assign : ∀ m m' jumps (v : AttrSet → Verdict) attrs, m'.shielded = m.shielded →
    P m jumps fun s => Scope.assign m' (v s.defined) attrs s
  call : ∀ m jumps v span target, P m jumps ((sc.baseCall target).judged v m span)
  andThen : ∀ {m jumps w x}, P m jumps w → P m jumps x → P m jumps fun s => (w s).andThen x
  either : ∀ {m jumps w x}, P m jumps w → P m jumps x → P m jumps fun s => (w s).either (x s)
  loop : ∀ {m jumps w x} (v : AttrSet → Verdict) infinite, P m.loop true w → P m jumps x →
    P m jumps (Loop.walk ⟨fun s => v s.defined, w⟩ infinite x)
  region : ∀ {m jumps w x y}, P m.shield jumps w → P m.shield jumps x → P m.shield jumps y →
    P m jumps fun s => ((w s).andThen x).either (y (s.interrupted (w s).trace))
  closeWith : ∀ {m jumps w x}, P m jumps w → P m jumps x → P m jumps fun s => (w s).closeWith x

namespace WalkLaw

variable {sc : Scope} {D : Name → Prop} {P : Mode → Bool → (State → Outcome) → Prop}
  (L : WalkLaw sc D P)

include L

mutual

/-- Deletions obey a law that allows what they delete. -/
theorem deleteTarget (m : Mode) (jumps : Bool) : ∀ t : Target, (∀ a ∈ t.assigned, D a) →
    P m jumps fun s => sc.deleteTarget t s
  | .selfAttr attr span, hD => by
    simp only [Scope.deleteTarget]
    exact L.andThen (L.check m jumps fun d => sc.judge.target d (.selfAttr attr span))
      (L.remove m jumps attr (hD attr (by simp [Target.assigned])))
  | .self span, _ => by
    simp only [Scope.deleteTarget]; exact L.check m jumps fun _ => .aliasing .selfRebound span
  | .name _ _, _ => by simp only [Scope.deleteTarget]; exact L.goOn m jumps
  | .attribute value attr span, _ => by
    simp only [Scope.deleteTarget]
    exact L.check m jumps fun d => sc.judge.target d (.attribute value attr span)
  | .subscript value index span, _ => by
    simp only [Scope.deleteTarget]
    exact L.check m jumps fun d => sc.judge.target d (.subscript value index span)
  | .tuple elements _, hD => by
    rw [Target.assigned] at hD
    simp only [Scope.deleteTarget]
    exact deleteTargets m jumps elements hD

theorem deleteTargets (m : Mode) (jumps : Bool) : ∀ ts : List Target,
    (∀ a ∈ Target.assignedAll ts, D a) → P m jumps fun s => sc.deleteTargets ts s
  | [], _ => by simp only [Scope.deleteTargets]; exact L.goOn m jumps
  | t :: ts, hD => by
    rw [Target.assignedAll, List.forall_mem_append] at hD
    simp only [Scope.deleteTargets]
    exact L.andThen (deleteTarget m jumps t hD.1) (deleteTargets m jumps ts hD.2)

end

/-- A jump out of a loop, or a stray one. -/
theorem jump {m : Mode} {jumps : Bool} {j : State → Jumps} (span : Span)
    (hjump : P m true fun s => .stop (.ofJumps (j s))) (h : jumps = false → m.inLoop = false) :
    P m jumps fun s =>
      if m.inLoop then .stop (.ofJumps (j s)) else .check (.escape .strayJump span) s := by
  cases hloop : m.inLoop with
  | false => exact L.check m jumps fun _ => .escape .strayJump span
  | true =>
    cases jumps with
    | false => simp [h rfl] at hloop
    | true => exact hjump

mutual

/-- A statement obeys the law, if the law allows what it deletes and the jumps that lead out of it.
-/
theorem stmt : ∀ (st : Stmt) (m : Mode) (jumps : Bool), (∀ a ∈ st.deleted, D a) →
    (jumps = false → m.inLoop = true → st.isJumpFree = true) →
    P m jumps fun s => sc.stmt m st s
  | .assign targets value _, m, jumps, _, _ => by
    simp only [Scope.stmt]
    exact L.assign m m jumps
      (fun d => (sc.judge.value d value).andThen (sc.judge.targets d targets)) _ rfl
  | .eval value _, m, jumps, _, _ => by
    simp only [Scope.stmt]; exact L.check m jumps fun d => sc.judge.expr d value
  | .ifElse test body orelse _, m, jumps, hD, hJ => by
    rw [Stmt.deleted, List.forall_mem_append] at hD
    simp only [Stmt.isJumpFree, Bool.and_eq_true] at hJ
    simp only [Scope.stmt]
    exact L.andThen (L.check m jumps fun d => sc.judge.expr d test)
      (L.either (block body m jumps hD.1 fun hj hm => (hJ hj hm).1)
        (block orelse m jumps hD.2 fun hj hm => (hJ hj hm).2))
  | .whileLoop test body orelse _, m, jumps, hD, hJ => by
    rw [Stmt.deleted, List.forall_mem_append] at hD
    simp only [Scope.stmt]
    exact L.loop (fun d => sc.judge.expr d test) _ (block body m.loop true hD.1 (by simp))
      (block orelse m jumps hD.2 hJ)
  | .forLoop target source body orelse _, m, jumps, hD, hJ => by
    rw [Stmt.deleted, List.forall_mem_append] at hD
    simp only [Scope.stmt]
    refine L.andThen (L.check m jumps fun d => sc.judge.expr d source)
      (L.loop (fun _ => .safe) _ (L.andThen ?_ (block body m.loop true hD.1 (by simp)))
        (block orelse m jumps hD.2 hJ))
    exact L.assign m.loop m true (fun d => sc.judge.target d target) _ rfl
  -- The blocks of a `try` statement are walked shielded, but for its `finally` block.
  | .tryBlock body hs orelse final _, m, jumps, hD, hJ => by
    simp only [Stmt.deleted, List.forall_mem_append] at hD
    simp only [Stmt.isJumpFree, Bool.and_eq_true] at hJ
    have hregion := L.region (block body m.shield jumps hD.1.1.1 fun hj hm => (hJ hj hm).1.1.1)
      (block orelse m.shield jumps hD.1.2 fun hj hm => (hJ hj hm).1.2)
      (handlers hs m.shield jumps hD.1.1.2 fun hj hm => (hJ hj hm).1.1.2)
    simp only [Scope.stmt]
    split
    · exact hregion
    · exact L.closeWith hregion (block final m jumps hD.2 fun hj hm => (hJ hj hm).2)
  | .withBlock items body _, m, jumps, hD, hJ => by
    rw [Stmt.deleted] at hD
    -- The manager is a handler that does nothing.
    simp only [Scope.stmt, Outcome.managed_eq]
    exact L.andThen (L.check m jumps fun d => enter sc.judge d items)
      (L.region (block body m.shield jumps hD hJ) (L.goOn _ _) (L.goOn _ _))
  | .ret value span, m, jumps, _, _ => by
    simp only [Scope.stmt]
    exact L.andThen (L.check m jumps fun d => sc.judge.expr? d value) (L.exit m jumps span)
  | .raise exception cause _, m, jumps, _, _ => by
    simp only [Scope.stmt]
    exact L.andThen (L.check m jumps fun d =>
      (sc.judge.expr? d exception).andThen (sc.judge.expr? d cause)) (L.raise m jumps)
  | .assertion test message _, m, jumps, _, _ => by
    simp only [Scope.stmt]
    exact L.check m jumps fun d => (sc.judge.expr d test).andThen (sc.judge.expr? d message)
  | .superInit target args kws span, m, jumps, _, _ => by
    simp only [Scope.stmt]
    exact L.call m jumps
      (fun d => (sc.judge.exprs d args).andThen (sc.judge.keywords d kws)) span target
  | .rebindSelf value span, m, jumps, _, _ => by
    simp only [Scope.stmt]
    exact L.check m jumps fun d => (sc.judge.expr d value).andThen (.aliasing .selfRebound span)
  | .delete targets _, m, jumps, hD, _ => by
    rw [Stmt.deleted] at hD
    simp only [Scope.stmt]
    exact L.deleteTargets m jumps targets hD
  | .nestedDef _ capturesSelf span, m, jumps, _, _ => by
    simp only [Scope.stmt]
    exact L.check m jumps fun _ => if capturesSelf then .escape .capturedSelf span else .safe
  | .pass _, m, jumps, _, _ => by simp only [Scope.stmt]; exact L.goOn m jumps
  | .breakLoop span, m, jumps, _, hJ => by
    simp only [Scope.stmt]
    exact L.jump span (L.broken m) (by simpa [Stmt.isJumpFree] using hJ)
  | .continueLoop span, m, jumps, _, hJ => by
    simp only [Scope.stmt]
    exact L.jump span (L.continued m) (by simpa [Stmt.isJumpFree] using hJ)
  | .unsupported span, m, jumps, _, _ => by
    simp only [Scope.stmt]; exact L.check m jumps fun _ => .escape .unsupported span

/-- The walk over a body keeps to the law. -/
theorem block : ∀ (ss : List Stmt) (m : Mode) (jumps : Bool), (∀ a ∈ Stmt.deletedAll ss, D a) →
    (jumps = false → m.inLoop = true → Stmt.allJumpFree ss = true) →
    P m jumps fun s => sc.block m ss s
  | [], m, jumps, _, _ => by simp only [Scope.block]; exact L.goOn m jumps
  | st :: ss, m, jumps, hD, hJ => by
    rw [Stmt.deletedAll, List.forall_mem_append] at hD
    simp only [Stmt.allJumpFree, Bool.and_eq_true] at hJ
    simp only [Scope.block]
    exact L.andThen (stmt st m jumps hD.1 fun hj hm => (hJ hj hm).1)
      (block ss m jumps hD.2 fun hj hm => (hJ hj hm).2)

/-- So do handlers. -/
theorem handlers : ∀ (hs : List Handler) (m : Mode) (jumps : Bool),
    (∀ a ∈ Stmt.deletedHandlers hs, D a) →
    (jumps = false → m.inLoop = true → Stmt.handlersJumpFree hs = true) →
    P m jumps fun s => sc.handlers m hs s
  | [], m, jumps, _, _ => by simp only [Scope.handlers]; exact L.raise m jumps
  | ⟨type, _, body, _⟩ :: rest, m, jumps, hD, hJ => by
    rw [Stmt.deletedHandlers, List.forall_mem_append] at hD
    simp only [Stmt.handlersJumpFree, Bool.and_eq_true] at hJ
    simp only [Scope.handlers]
    exact L.either (L.andThen (L.check m jumps fun d => sc.judge.expr? d type)
      (block body m jumps hD.1 fun hj hm => (hJ hj hm).1))
      (handlers rest m jumps hD.2 fun hj hm => (hJ hj hm).2)

end

end WalkLaw

end Scope

end DefiniteInit
