import DefiniteInit.Proofs.ExitSoundness

/-!
# Exceptions that enter a `finally` block

An exception that leaves the region of a `try` statement runs its `finally` block. The block
may return or jump, and the exception is gone; or the exception goes on, to be taken by a
handler or swallowed by a manager further out, after the block has deleted what it deletes.
The walk of a body sends through the block what leaves the region in other ways
(`Outcome.closeWith`), and no exception. A block that nothing but an exception enters it does
not walk at all.

With `Outcome.closeThoroughly` a block is walked also from the state in which an exception leaves
the region. That walk accounts for every run of a body (`closes_closeThoroughly`), so what its
summary says is assigned is assigned however a run completes. The summary of a body goes wrong
nowhere else (`Graph.assigned_past_final_iff`).

An exception that enters a `finally` block is an event that `Covers` takes for one that spoils.
So the proof is about hushed runs.
-/

namespace DefiniteInit

variable {A : Set Name} {s : State}

/-! ## The walk -/

open Behaviour

/-- The outcome of a region entered in the state `s` whose last block is `block`. An exception
that leaves the region enters the block too. It is raised again where the block ends. -/
def Outcome.closeThoroughly (region : Outcome) (s : State) (block : State → Outcome) : Outcome :=
  (region.closeWith block).either (.stop (block (s.interrupted region.trace)).trace)

/-- A region and its `finally` block, however the block is entered. -/
theorem Covers.closeThoroughly {o : Outcome} {w : State → Outcome} {b c : Behaviour}
    (hb : Covers A s o b) (hk : b.Keeps) (hw : ∀ B ⊆ A, ∀ s', Covers B s' (w s') c)
    (hc : c.Replays) : Covers A s (o.closeThoroughly s w) (b.bind (.closing c)) := by
  rintro σ r hs ⟨r₁, r₂, h₁, h₂, rfl⟩ hu
  -- An exception enters the final block from anywhere in the body, so the block is walked from what
  -- held before it; every other way in is the one `closeWith` covers.
  by_cases hf : r₁.flow = .raised
  · rw [Ending.log_after, unspoiled_append] at hu
    rw [hf] at h₂
    have ho := hb σ r₁ hs h₁ hu.1
    have htell := hs.interrupted hk h₁ hu.1 ho
    have hblock := fun r' h hu' => hw A subset_rfl _ _ r' htell h hu'
    refine Outcome.Accounts.after (Outcome.Accounts.either_right ?_ _) fun a ha =>
      List.mem_append_left _ (Outcome.mem_deletions_closeWith (ho.deleted a ha))
    rcases andThen_cases h₂ with ⟨r₃, r₄, h₃, -, rfl, rfl⟩ | ⟨h, hne⟩
    · have hu' : Unspoiled A r₃.log := by simpa [unspoiled_append] using hu.2
      refine ⟨⟨by simp, .of_plain rfl⟩, fun a ha => (hblock r₃ h₃ hu').deleted a ?_⟩
      simpa using ha
    · exact .of_trace (hblock r₂ h hu.2).accounts_trace hne
  · rw [closing_eq_final hf] at h₂
    exact (hb.closeWith hw hc σ _ hs ⟨r₁, r₂, h₁, h₂, rfl⟩ hu).either_left _

/-- The thorough walk goes with hushed runs: an exception on its way into a final block is no loss
to it. -/
theorem closes_closeThoroughly : Closes Outcome.closeThoroughly hushed closing where
  toReading := reading_hushed
  final := hushed_bind_final
  raising L _ := by rw [hushed_raising]; exact L.jump _
  covers := Covers.closeThoroughly

/-! ## Initializers -/

namespace Scope

variable {sc : Scope}

/-- Nothing in a hushed run spoils. -/
theorem unspoiled_hushed {body : List Stmt} {σ : Set Name} {r : Ending} (hr : sc.run body σ r) :
    Unspoiled A r.hushed.log := by
  have L := reading_hushed.law calm_law
  have hcalls : ∀ t, (sc.frozenCalls t).hushed.Calm := fun t => by
    rw [reading_hushed.quiet (sc.frozenCalls_quiet t)]
    exact fun σ r hr => calm_law.plain σ r hr.1
  refine L.execAll hcalls false body (fun _ => ?_) σ r.hushed ⟨r, hr, rfl⟩ A
  rw [hushed_raising]
  exact calm_law.jump _

/-- What spoils a run is an exception that enters a `finally` block. -/
theorem unspoiled_of_not_raisesIntoFinal {body : List Stmt} {σ : Set Name} {r : Ending}
    (hr : sc.run body σ r) (hnot : Event.raisesIntoFinal ∉ r.log) : Unspoiled A r.log := by
  have hheard : ∀ e ∈ r.log, e.isHeard = true := by
    intro e he
    cases e with
    | raisesIntoFinal => exact absurd he hnot
    | handsOver _ | unbinds _ | deletes _ | drops _ => rfl
  have hu := unspoiled_hushed (A := A) hr
  rwa [Ending.hushed_eq_self hheard] at hu

end Scope

namespace Graph

/-- The summary of the thorough walk of a body. -/
def walkThoroughly (g : Graph) (known : ClassTable Facts) (o : Options) (id : ClassId)
    (body : List Stmt) (entry : State) : Summary :=
  .ofOutcome ((g.scope known o id).blockWith .closeThoroughly .top body entry) o.recordEscapeSites

variable (g : Graph) (known : ClassTable Facts) (o : Options) (id : ClassId) (body : List Stmt)
  (entry : State)

/-- However the initializer completes, what its thorough summary says is assigned is assigned. -/
theorem assigned_of_mem_walkThoroughly {σ : Set Name} {r : Ending}
    (hentry : ∀ a ∈ entry.defined, a ∈ σ) (hrun : (g.scope known o id).run body σ r)
    (hdone : r.flow.completes = true) {a : Name}
    (ha : a ∈ (g.walkThoroughly known o id body entry).defined) : a ∈ r.attrs := by
  have hcovers := (g.scope known o id).covers_blockWith closes_closeThoroughly _ body Set.univ
    ((g.scope known o id).faithful_read_frozenCalls closes_closeThoroughly) .top entry
  have haccounts := hcovers σ r.hushed (fun a _ => hentry a) ⟨r, hrun, rfl⟩
    (Scope.unspoiled_hushed hrun)
  exact haccounts.assigned hdone trivial ha

/-- What the thorough summary of a body says is assigned is assigned when a run completes. What the
summary says is, if and only if, in case an exception enters a `finally` block on the way, this
holds of what the thorough walk does not know. -/
theorem assigned_past_final_iff (σ : Set Name) (r : Ending) (hentry : ∀ a ∈ entry.defined, a ∈ σ)
    (hrun : (g.scope known o id).run body σ r) (hdone : r.flow.completes = true) :
    (∀ a ∈ (g.walkThoroughly known o id body entry).defined, a ∈ r.attrs) ∧
      ((∀ a ∈ (g.walkBody known o id body entry).defined, a ∈ r.attrs) ↔
        (Event.raisesIntoFinal ∈ r.log → ∀ a ∈ (g.walkBody known o id body entry).defined,
          a ∉ (g.walkThoroughly known o id body entry).defined → a ∈ r.attrs)) := by
  have hthorough : ∀ a ∈ (g.walkThoroughly known o id body entry).defined, a ∈ r.attrs :=
    fun a => g.assigned_of_mem_walkThoroughly known o id body entry hentry hrun hdone
  refine ⟨hthorough, fun hsound _ a ha _ => hsound a ha, fun hlost a ha => ?_⟩
  by_cases hfinal : Event.raisesIntoFinal ∈ r.log
  · by_cases hknown : a ∈ (g.walkThoroughly known o id body entry).defined
    · exact hthorough a hknown
    · exact hlost hfinal a ha hknown
  · have hcovers := (g.scope known o id).covers_block _ body Set.univ
      (g.scope known o id).faithful_frozenCalls .top entry
    have haccounts := hcovers σ r (fun a _ => hentry a) hrun
      (Scope.unspoiled_of_not_raisesIntoFinal hrun hfinal)
    exact haccounts.assigned hdone trivial ha

/-- An exception enters a `finally` block that deletes an attribute, and is handled further out.
After that the attribute may be assigned again. -/
def lostInFinal : List Stmt :=
  [.setAttr ⟨2⟩ (.literal .none), .setAttr ⟨1⟩ (.literal .none),
    .guarded [.guarded [.throwing (.callNamed ⟨12⟩ [])] [] [] [.delAttr ⟨1⟩]]
      [.on none [.pass .empty]]
      [] [],
    .branch (.var .param ⟨9⟩) [.setAttr ⟨1⟩ (.literal .none)] []]

/-- The walk promises both attributes of the initializer, the thorough walk only the one its final
block leaves alone. -/
theorem defined_lostInFinal :
    (walkBody .single ∅ .default ⟨0⟩ lostInFinal .start).defined = .ofList [⟨2⟩, ⟨1⟩] ∧
      (walkThoroughly .single ∅ .default ⟨0⟩ lostInFinal .start).defined =
        .ofList [⟨2⟩] := by
  decide +kernel

/-- A deletion can do what it says. -/
theorem exec_delAttr (calls : SuperTarget → Behaviour) (inLoop : Bool) (attr : Name)
    (σ : Set Name) :
    (Stmt.delAttr attr).exec calls inLoop σ ⟨.next, [.deletes attr], σ \ {attr}⟩ := by
  have hdelete : (deleting attr) σ ⟨.next, [.deletes attr], σ \ {attr}⟩ :=
    andThen_quiet (plain_quiet rfl σ) rfl
  rw [Stmt.delAttr, Stmt.exec, Target.deleteAll, Target.deleteAll, Target.ofSelf, Target.delete]
  exact andThen_append hdelete (plain_quiet rfl _)

/-- A statement that raises can do so. -/
theorem exec_throwing (calls : SuperTarget → Behaviour) (inLoop : Bool) (e : Expr) (σ : Set Name) :
    (Stmt.throwing e).exec calls inLoop σ ⟨.raised, [], σ⟩ := by
  rw [Stmt.throwing, Stmt.exec]
  exact andThen_quiet (evaluating_quiet _ rfl _) (andThen_quiet (evaluating_quiet _ rfl _) rfl)

/-- A `finally` block that runs to its end while an exception passes through it. -/
theorem exec_guarded_throwing (calls : SuperTarget → Behaviour) (inLoop : Bool) (e : Expr)
    {final : List Stmt} (hne : final.isEmpty = false) {σ τ : Set Name} {log : List Event}
    (hfinal : Stmt.execAll calls inLoop final σ ⟨.next, log, τ⟩) :
    (Stmt.guarded [.throwing e] [] [] final).exec calls inLoop σ
      ⟨.raised, .raisesIntoFinal :: log, τ⟩ := by
  rw [Stmt.guarded, Stmt.exec, if_neg (by simp [hne])]
  refine ⟨⟨.raised, [], σ⟩, ⟨.raised, .raisesIntoFinal :: log, τ⟩, ?_, ?_, rfl⟩
  · rw [Stmt.execAll, Stmt.execHandlers]
    exact ⟨_, _, andThen_of_left (exec_throwing calls inLoop e σ) (by simp) _, rfl, rfl⟩
  · have hagain := andThen_append hfinal (c := jump .raised) rfl
    rw [List.append_nil] at hagain
    exact andThen_append (l := [.raisesIntoFinal]) rfl hagain

/-- The exception loses the attribute; the rest of the run starts without it. -/
theorem run_lostInFinal (sc : Scope) {τ : Set Name}
    (hrest : Stmt.execAll sc.frozenCalls false
      [.branch (.var .param ⟨9⟩) [.setAttr ⟨1⟩ (.literal .none)] []] ({⟨1⟩, ⟨2⟩} \ {⟨1⟩})
      ⟨.next, [], τ⟩) :
    sc.run lostInFinal ∅ ⟨.next, [.raisesIntoFinal, .deletes ⟨1⟩], τ⟩ := by
  have hset₂ := exec_setAttr sc.frozenCalls false ⟨2⟩ (.literal .none) ∅
  have hset₁ := exec_setAttr sc.frozenCalls false ⟨1⟩ (.literal .none) {⟨2⟩}
  rw [insert_empty_eq] at hset₂
  have hfinal : Stmt.execAll sc.frozenCalls false [.delAttr ⟨1⟩] {⟨1⟩, ⟨2⟩}
      ⟨.next, [.deletes ⟨1⟩] ++ [], {⟨1⟩, ⟨2⟩} \ {⟨1⟩}⟩ := by
    rw [Stmt.execAll, Stmt.execAll]
    exact andThen_append (exec_delAttr _ _ _ _) rfl
  -- The call raises into the inner final block, which deletes the attribute; the outer handler then
  -- goes on.
  have hinner := exec_guarded_throwing sc.frozenCalls false (.callNamed ⟨12⟩ []) rfl hfinal
  have hpass : Stmt.execAll sc.frozenCalls false [.pass .empty] ({⟨1⟩, ⟨2⟩} \ {⟨1⟩})
      ⟨.next, [], {⟨1⟩, ⟨2⟩} \ {⟨1⟩}⟩ := by
    rw [Stmt.execAll, Stmt.execAll, Stmt.exec]
    exact andThen_quiet (plain_quiet rfl _) rfl
  have houter : (Stmt.guarded [.guarded [.throwing (.callNamed ⟨12⟩ [])] [] [] [.delAttr ⟨1⟩]]
      [.on none [.pass .empty]] [] []).exec sc.frozenCalls false {⟨1⟩, ⟨2⟩}
      ⟨.next, [.raisesIntoFinal, .deletes ⟨1⟩], {⟨1⟩, ⟨2⟩} \ {⟨1⟩}⟩ := by
    rw [Stmt.guarded, Stmt.exec, Stmt.execAll, Handler.on, Stmt.execHandlers]
    exact ⟨_, _, andThen_of_left hinner (by simp) _,
      andThen_quiet (evaluating_quiet _ rfl _) (Or.inl hpass), rfl⟩
  rw [Scope.run, lostInFinal, Stmt.execAll, Stmt.execAll, Stmt.execAll]
  exact andThen_quiet hset₂ (andThen_quiet hset₁ (andThen_append houter hrest))

/-- The run that assigns the attribute again. -/
theorem run_lostInFinal_again (sc : Scope) : sc.run lostInFinal ∅
    ⟨.next, [.raisesIntoFinal, .deletes ⟨1⟩], insert ⟨1⟩ ({⟨1⟩, ⟨2⟩} \ {⟨1⟩})⟩ := by
  refine run_lostInFinal sc ?_
  rw [Stmt.execAll, Stmt.branch, Stmt.exec, Stmt.execAll, Stmt.execAll]
  exact andThen_quiet (andThen_quiet (evaluating_quiet _ rfl _)
    (Or.inl (andThen_quiet (exec_setAttr _ _ _ _ _) rfl))) rfl

/-- The run that does not. -/
theorem run_lostInFinal_past (sc : Scope) : sc.run lostInFinal ∅
    ⟨.next, [.raisesIntoFinal, .deletes ⟨1⟩], {⟨1⟩, ⟨2⟩} \ {⟨1⟩}⟩ := by
  refine run_lostInFinal sc ?_
  rw [Stmt.execAll, Stmt.branch, Stmt.exec, Stmt.execAll, Stmt.execAll]
  exact andThen_quiet (andThen_quiet (evaluating_quiet _ rfl _) (Or.inr rfl)) rfl

/-- The thorough walk does not know the attribute, but the run has assigned it again. -/
theorem assigned_past_final_iff_lostInFinal :
    ⟨1⟩ ∈ (walkBody .single ∅ .default ⟨0⟩ lostInFinal .start).defined ∧
      ⟨1⟩ ∉ (walkThoroughly .single ∅ .default ⟨0⟩ lostInFinal .start).defined ∧
      (∀ a ∈ (walkThoroughly .single ∅ .default ⟨0⟩ lostInFinal .start).defined,
        a ∈ (insert ⟨1⟩ ({⟨1⟩, ⟨2⟩} \ {⟨1⟩}) : Set Name)) ∧
      ((∀ a ∈ (walkBody .single ∅ .default ⟨0⟩ lostInFinal .start).defined,
          a ∈ (insert ⟨1⟩ ({⟨1⟩, ⟨2⟩} \ {⟨1⟩}) : Set Name)) ↔
        (Event.raisesIntoFinal ∈ [Event.raisesIntoFinal, .deletes ⟨1⟩] →
          ∀ a ∈ (walkBody .single ∅ .default ⟨0⟩ lostInFinal .start).defined,
            a ∉ (walkThoroughly .single ∅ .default ⟨0⟩ lostInFinal .start).defined →
              a ∈ (insert ⟨1⟩ ({⟨1⟩, ⟨2⟩} \ {⟨1⟩}) : Set Name))) := by
  refine ⟨by simp [defined_lostInFinal], by simp [defined_lostInFinal], ?_⟩
  exact assigned_past_final_iff .single ∅ .default ⟨0⟩ lostInFinal .start ∅ _
    (by simp [State.start]) (run_lostInFinal_again _) rfl

/-- A run loses in a `finally` block what the summary says is assigned, and completes. -/
theorem not_assigned_past_final_lostInFinal : ¬∀ σ r,
    (scope .single ∅ .default ⟨0⟩).run lostInFinal σ r →
      Event.raisesIntoFinal ∈ r.log → r.flow.completes = true →
        ∀ a ∈ (walkBody .single ∅ .default ⟨0⟩ lostInFinal .start).defined,
          a ∈ r.attrs := by
  intro h
  have ha := h ∅ _ (run_lostInFinal_past _) (by simp) rfl ⟨1⟩ (by simp [defined_lostInFinal])
  simp at ha

end Graph

end DefiniteInit
