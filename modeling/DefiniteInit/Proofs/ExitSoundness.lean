import DefiniteInit.Facts.OfClass
import DefiniteInit.Proofs.WalkSoundness
import DefiniteInit.Stmt.Shorthand

/-!
# Soundness of the summary of a body

The walk of a body accounts for every run of it (`Scope.covers_block`). So what the summary of a
body says is assigned is assigned whenever the initializer completes
(`Outcome.Accounts.assigned`).
-/

namespace DefiniteInit

variable {A : Set Name} {s : State}

namespace Scope

variable {sc : Scope}

/-- Without a `finally` block, nothing happens in a run that spoils. -/
theorem unspoiled_run {body : List Stmt} (hfree : Stmt.allFinallyFree body = true)
    {σ : Set Name} {r : Ending} (hr : sc.run body σ r) : Unspoiled A r.log := by
  have hcalls : ∀ t, (sc.frozenCalls t).Calm := fun t σ r hr => Behaviour.calm_law.plain σ r hr.1
  exact Behaviour.calm_law.execAll hcalls false body (by simp [hfree]) σ r hr A

end Scope

/-- What is assigned in merged states is assigned in each. -/
theorem State.mem_defined_foldl_merge {states : List State} {a : Name} :
    a ∈ (states.foldl State.merge s).defined ↔ a ∈ s.defined ∧ ∀ t ∈ states, a ∈ t.defined := by
  induction states generalizing s with
  | nil => simp
  | cons t ts ih => simp [ih, merge, and_assoc]

/-- What a summary says is assigned is known at every exit and at every escape. -/
theorem Summary.mem_defined_ofStates {exits escapes : List State} {site : Option EscapeSite}
    {a : Name} : a ∈ (ofStates exits escapes site).defined ↔
      exits ≠ [] ∧ ∀ t ∈ exits ++ escapes, a ∈ t.defined := by
  cases exits with
  | nil => simp [ofStates]
  | cons first rest =>
    simp only [ofStates, State.mem_defined_foldl_merge, List.cons_append, List.forall_mem_cons]
    simp

namespace Outcome

variable {o : Outcome} {r : Ending}

/-- What is known of a body that completes is known at one of its exits. -/
theorem EndsIn.exists_exit {P : State → Prop} {f : Flow} (h : o.EndsIn P f)
    (hdone : f.completes = true) : ∃ e ∈ o.exits, P e.state := by
  cases f with
  | next =>
    obtain ⟨s, hs, hP⟩ := h.next rfl
    exact ⟨⟨s, .fellThrough, .empty⟩, by simp [exits, hs], hP⟩
  | returned =>
    obtain ⟨e, he, hP⟩ := h.trace.returned rfl
    exact ⟨e, List.mem_append_left _ he, hP⟩
  | broke | continued | raised | unfinished => simp [Flow.completes] at hdone

/-- What is in the summary is known at every exit. -/
theorem mem_defined_of_mem_exits {recordSites : Bool} {a : Name} {e : Exit}
    (ha : a ∈ (Summary.ofOutcome o recordSites).defined) (he : e ∈ o.exits) : a ∈ e.state.defined :=
  (Summary.mem_defined_ofStates.1 ha).2 e.state (List.mem_append_left _ (List.mem_map_of_mem he))

/-- What the summary says is assigned is assigned when a run completes that is accounted
for. -/
theorem Accounts.assigned (h : o.Accounts A r) (hdone : r.flow.completes = true)
    {recordSites : Bool} {a : Name} (hA : a ∈ A)
    (ha : a ∈ (Summary.ofOutcome o recordSites).defined) : a ∈ r.attrs := by
  obtain ⟨e, he, htell⟩ := h.toEndsIn.exists_exit hdone
  exact htell a hA (mem_defined_of_mem_exits ha he)

end Outcome

/-- An assignment can do what it says. -/
theorem Behaviour.exec_setAttr (calls : SuperTarget → Behaviour) (inLoop : Bool) (attr : Name)
    (value : Expr) (σ : Set Name) :
    (Stmt.setAttr attr value).exec calls inLoop σ ⟨.next, [], insert attr σ⟩ := by
  unfold Stmt.setAttr Stmt.assignAll
  rw [Stmt.exec, Target.bindAll, Target.bindAll, Target.ofSelf, Target.bind]
  have hassign : (assigning attr) σ ⟨.next, [], insert attr σ⟩ :=
    andThen_quiet (plain_quiet rfl σ) rfl
  exact andThen_quiet (evaluating_quiet _ rfl σ) (andThen_quiet hassign (plain_quiet rfl _))

namespace Graph

/-- However the initializer completes, what its summary says is assigned is assigned, provided what
was known at the entry was so. -/
theorem assigned_of_mem_walkBody (g : Graph) (known : ClassTable Facts) (o : Options)
    (id : ClassId) (body : List Stmt) (entry : State) (hfree : Stmt.allFinallyFree body = true)
    (σ : Set Name) (r : Ending) (hentry : ∀ a ∈ entry.defined, a ∈ σ)
    (hrun : (g.scope known o id).run body σ r) (hdone : r.flow.completes = true) :
    ∀ a ∈ (g.walkBody known o id body entry).defined, a ∈ r.attrs := by
  intro a ha
  have hcovers := (g.scope known o id).covers_block _ body Set.univ
    (g.scope known o id).faithful_frozenCalls .top entry
  have haccounts := hcovers σ r (fun a _ => hentry a) hrun (Scope.unspoiled_run hfree hrun)
  exact haccounts.assigned hdone trivial ha

/-- The graph of one class with nothing in it. -/
def single : Graph := .ofDeclarations [.named ⟨20⟩]

/-- A loop around a block whose handler returns. -/
def handledReturn : List Stmt :=
  [.setAttr ⟨1⟩ (.literal .none),
    .loopWhile (.var .param ⟨9⟩)
      [.guarded [.setAttr ⟨2⟩ (.literal .none)] [.on none [.leave none]] [] []] [],
    .setAttr ⟨3⟩ (.literal .none)]

open Behaviour in
/-- The guarded block raises in the first round. -/
theorem run_handledReturn (sc : Scope) : sc.run handledReturn ∅ ⟨.returned, [], {⟨1⟩}⟩ := by
  have htry : Stmt.execAll sc.frozenCalls true [.guarded [.setAttr ⟨2⟩ (.literal .none)]
      [.on none [.leave none]] [] []] {⟨1⟩} ⟨.returned, [], {⟨1⟩}⟩ := by
    rw [Stmt.execAll, Stmt.guarded, Stmt.exec]
    refine andThen_of_left ⟨⟨.raised, [], {⟨1⟩}⟩, ⟨.returned, [], {⟨1⟩}⟩, ?_, ?_, rfl⟩ (by simp) _
    · rw [Stmt.execAll, Stmt.setAttr, Stmt.assignAll, Stmt.exec]
      exact andThen_of_left (andThen_of_left (evaluating_quiet _ rfl _) (by simp) _) (by simp) _
    · have hret : Stmt.execAll sc.frozenCalls true [.leave none] {⟨1⟩} ⟨.returned, [], {⟨1⟩}⟩ := by
        rw [Stmt.execAll, Stmt.leave, Stmt.exec]
        exact andThen_of_left (andThen_quiet (evaluating_quiet _ rfl _) rfl) (by simp) _
      exact andThen_quiet (evaluating_quiet _ rfl _) (Or.inl hret)
  have hset := exec_setAttr sc.frozenCalls false ⟨1⟩ (.literal .none) ∅
  rw [insert_empty_eq] at hset
  rw [Scope.run, handledReturn, Stmt.execAll, Stmt.execAll, Stmt.loopWhile, Stmt.exec]
  refine andThen_quiet hset (andThen_of_left ⟨1, ?_⟩ (by simp) _)
  exact andThen_quiet (evaluating_quiet _ rfl _) (Or.inr ⟨_, _, htry, rfl, rfl⟩)

theorem assigned_of_mem_walkBody_handledReturn :
    (walkBody .single ∅ .default ⟨0⟩ handledReturn .start).defined.toList = [⟨1⟩] ∧
      ∀ a ∈ (walkBody .single ∅ .default ⟨0⟩ handledReturn .start).defined,
        a ∈ ({⟨1⟩} : Set Name) :=
  ⟨by decide +kernel, assigned_of_mem_walkBody _ ∅ .default ⟨0⟩ handledReturn .start
    (by decide) ∅ ⟨.returned, [], {⟨1⟩}⟩ (by simp [State.start]) (run_handledReturn _) rfl⟩

end Graph

end DefiniteInit
