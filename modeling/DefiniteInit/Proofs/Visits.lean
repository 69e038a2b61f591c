import DefiniteInit.Proofs.LoopHeads
import Mathlib.Logic.Relation

/-!
# What a walk comes to

The walk of a body walks the blocks inside it, each in a mode and from a state of its own: a
branch from the state after the test, the body of a loop from every head, a `finally` block from
every state in which a path leaves the region before it. A `Visit` is a block, or the rest of one,
with the mode and the state from which it is walked. `Scope.Enters` gives the blocks that the walk
of one statement enters, and `Scope.ComesTo` what follows from this step by step.

A walk notes all that is noted from where it comes to, and a state there says that the receiver has
escaped only if it had at the start or the walk notes an escape (`Scope.ComesTo.flagged`).
-/

namespace DefiniteInit

variable {s t : State}

/-! ## Visits -/

/-- A block that is walked, or the rest of one. -/
structure Visit where
  mode : Mode
  code : List Stmt
  state : State

/-- The states in which paths leave a region for its `finally` block. -/
def Outcome.leaving (o : Outcome) (block : State → Outcome) : List State :=
  let jumps := (o.trace ++ o.exitsOut block).jumps
  o.trace.exits.map Exit.state ++ (jumps.broken.toList ++ jumps.continued.toList) ++ o.next.toList

namespace Scope

/-- What is found from there. -/
def walk (sc : Scope) (v : Visit) : Outcome := sc.block v.mode v.code v.state

/-- A `try` statement before its `finally` block. -/
def region (sc : Scope) (m : Mode) (body : List Stmt) (handlers : List Handler) (orelse : List Stmt)
    (s : State) : Outcome :=
  ((sc.block m.shield body s).andThen (sc.block m.shield orelse)).either
    (sc.handlers m.shield handlers (s.interrupted (sc.block m.shield body s).trace))

/-- The state in which a handler is entered, if an exception leaves the region in the state `s`. -/
def handlerEntry (sc : Scope) (h : Handler) (s : State) : State :=
  s.check (sc.judge.expr? s.defined h.type)

/-- A `try` statement is its region, closed by its `finally` block if it has one. -/
theorem stmt_tryBlock (sc : Scope) (m : Mode) (body : List Stmt) (handlers : List Handler)
    (orelse final : List Stmt) (span : Span) (s : State) :
    sc.stmt m (.tryBlock body handlers orelse final span) s =
      if final.isEmpty then sc.region m body handlers orelse s
      else (sc.region m body handlers orelse s).closeWith (sc.block m final) := by
  rw [stmt]
  rfl

/-- The blocks of a statement that it shields, as they are walked from the state `s`. -/
inductive Shields (sc : Scope) (m : Mode) (s : State) : Stmt → Visit → Prop
  | tryBody {body handlers orelse final span} :
      Shields sc m s (.tryBlock body handlers orelse final span) ⟨m.shield, body, s⟩
  | tryElse {body handlers orelse final span t} (ht : (sc.block m.shield body s).next = some t) :
      Shields sc m s (.tryBlock body handlers orelse final span) ⟨m.shield, orelse, t⟩
  | handler {body handlers orelse final span h} (hh : h ∈ handlers) :
      Shields sc m s (.tryBlock body handlers orelse final span)
        ⟨m.shield, h.body, sc.handlerEntry h (s.interrupted (sc.block m.shield body s).trace)⟩
  | withBody {items body span} : Shields sc m s (.withBlock items body span)
      ⟨m.shield, body, s.check (enter sc.judge s.defined items)⟩

/-- The blocks of a statement, as they are walked from the state `s`. -/
inductive Enters (sc : Scope) (m : Mode) (s : State) : Stmt → Visit → Prop
  | branch {test body orelse span} : Enters sc m s (.ifElse test body orelse span)
      ⟨m, body, s.check (sc.judge.expr s.defined test)⟩
  | otherwise {test body orelse span} : Enters sc m s (.ifElse test body orelse span)
      ⟨m, orelse, s.check (sc.judge.expr s.defined test)⟩
  | round {st c head t} (hst : st.loopCode? = some c)
      (hhead : head ∈ (sc.loop m c).heads (sc.loopEntry c s))
      (ht : (sc.bindTarget m c.target ((sc.loop m c).round head).tested).next = some t) :
      Enters sc m s st ⟨m.loop, c.body, t⟩
  | completed {st c} (hst : st.loopCode? = some c) (hend : c.endless = false) :
      Enters sc m s st ⟨m, c.orelse, ((sc.loop m c).settle (sc.loopEntry c s)).tested⟩
  | shielded {st v} (hv : sc.Shields m s st v) : Enters sc m s st v
  | final {body handlers orelse final span t} (hfinal : final.isEmpty = false)
      (ht : t ∈ (sc.region m body handlers orelse s).leaving (sc.block m final)) :
      Enters sc m s (.tryBlock body handlers orelse final span) ⟨m, final, t⟩

/-- From the first statement of a block the walk goes on to the rest, or into the statement. -/
inductive Steps (sc : Scope) : Visit → Visit → Prop
  | on {m st rest s t} (h : (sc.stmt m st s).next = some t) :
      Steps sc ⟨m, st :: rest, s⟩ ⟨m, rest, t⟩
  | into {m st rest s v} (h : sc.Enters m s st v) : Steps sc ⟨m, st :: rest, s⟩ v

/-- What the walk from `u` comes to. -/
def ComesTo (sc : Scope) : Visit → Visit → Prop := Relation.ReflTransGen sc.Steps

end Scope

/-! ## Rounds -/

namespace Loop

variable {l : Loop} {head : State}

/-- No head says more than the entry of the loop. -/
theorem weakens_of_mem_heads (h : head ∈ l.heads s) : head.Weakens s := by
  induction s using l.settle_induction with
  | done s hsame =>
    rw [heads_of_same hsame, List.mem_singleton] at h
    rw [h]
    exact .refl s
  | again s hsame ih =>
    rw [heads_of_not_same hsame, List.mem_cons] at h
    rcases h with rfl | h
    · exact .refl head
    · exact (ih h).trans (l.next_weakens s)

/-- What is noted in a round is noted of the loop. -/
theorem escapes_round_subset (h : head ∈ l.heads s) :
    (l.round head).trace.escapes ⊆ (l.settle s).trace.escapes := by
  induction s using l.settle_induction with
  | done s hsame =>
    rw [heads_of_same hsame, List.mem_singleton] at h
    rw [h, settle_of_same l hsame]
    exact List.Subset.refl _
  | again s hsame ih =>
    rw [heads_of_not_same hsame, List.mem_cons] at h
    rw [settle_of_not_same l hsame, Trace.escapes_append]
    rcases h with rfl | h
    · exact List.subset_append_left _ _
    · exact List.subset_append_of_subset_right _ (ih h)

/-- The entry leads to every head. -/
theorem leadsTo_of_mem_heads (hbody : ∀ t, (l.body t).StemsFrom t) (h : head ∈ l.heads s) :
    s.LeadsTo (l.settle s).trace.escapes head := by
  induction s using l.settle_induction with
  | done s hsame =>
    rw [heads_of_same hsame, List.mem_singleton] at h
    rw [h]
    exact .refl s _
  | again s hsame ih =>
    rw [heads_of_not_same hsame, List.mem_cons] at h
    rw [settle_of_not_same l hsame, Trace.escapes_append]
    rcases h with rfl | h
    · exact .refl head _
    · exact ((next_leadsTo hbody s).mono (List.subset_append_left _ _)).trans
        ((ih h).mono (List.subset_append_right _ _))

end Loop

/-! ## What is noted on the way -/

/-- A walk from `s` that notes the escapes of `o` can come to `v`, and notes what is noted from
there. -/
structure Scope.Includes (sc : Scope) (s : State) (o : Outcome) (v : Visit) : Prop where
  leads : s.LeadsTo o.trace.escapes v.state
  escapes : (sc.walk v).trace.escapes ⊆ o.trace.escapes

namespace Scope

variable {sc : Scope} {m : Mode} {st : Stmt} {o : Outcome} {u v : Visit}

theorem stemsFrom_block (sc : Scope) (m : Mode) (body : List Stmt) (s : State) :
    (sc.block m body s).StemsFrom s := (sc.walksUnder_block m body).stems s

/-- All that a statement leaves behind stems from the state before it. -/
theorem stemsFrom_stmt (sc : Scope) (m : Mode) (st : Stmt) (s : State) :
    (sc.stmt m st s).StemsFrom s :=
  (comparison_stems sc).stmt st m (fun _ _ => trivial) (fun _ _ => trivial) s

theorem stemsFrom_region (sc : Scope) (m : Mode) (body : List Stmt) (handlers : List Handler)
    (orelse : List Stmt) (s : State) : (sc.region m body handlers orelse s).StemsFrom s :=
  (sc.stemsFrom_block _ body s).region (sc.stemsFrom_block _ orelse)
    ((comparison_stems sc).handlers handlers m.shield (fun _ _ => trivial) (fun _ _ => trivial) _)

namespace Includes

/-- The walk may note more. -/
theorem mono (h : sc.Includes s o v) {p : Outcome} (hp : o.trace.escapes ⊆ p.trace.escapes) :
    sc.Includes s p v :=
  ⟨h.leads.mono hp, List.Subset.trans h.escapes hp⟩

/-- The walk may start further back. -/
theorem andThen (ho : o.StemsFrom s) (hn : o.next = some t) {w : State → Outcome}
    (h : sc.Includes t (w t) v) : sc.Includes s (o.andThen w) v := by
  rw [Outcome.andThen_of_some hn]
  have hleft : o.trace.escapes ⊆ (o.trace ++ (w t).trace).escapes := List.subset_append_left _ _
  have hright : (w t).trace.escapes ⊆ (o.trace ++ (w t).trace).escapes :=
    List.subset_append_right _ _
  exact ⟨((ho.next t hn).mono hleft).trans (h.leads.mono hright),
    List.Subset.trans h.escapes hright⟩

/-- What is visited on a visit is visited. -/
theorem trans (h : sc.Includes s o u) (h' : sc.Includes u.state (sc.walk u) v) :
    sc.Includes s o v :=
  ⟨h.leads.trans (h'.leads.mono h.escapes), List.Subset.trans h'.escapes h.escapes⟩

/-- A block visits itself. -/
theorem refl (sc : Scope) (m : Mode) (body : List Stmt) (s : State) :
    sc.Includes s (sc.block m body s) ⟨m, body, s⟩ :=
  ⟨.refl s _, List.Subset.refl _⟩

end Includes

/-- Every handler is visited from where the exception leaves the body. -/
theorem includes_handler {h : Handler} : ∀ {handlers : List Handler}, h ∈ handlers →
    sc.Includes s (sc.handlers m handlers s) ⟨m, h.body, sc.handlerEntry h s⟩
  | ⟨type, name, body, span⟩ :: rest, hh => by
    rw [handlers]
    rcases List.mem_cons.1 hh with rfl | hh
    · exact (Includes.andThen (.check _ s) rfl (.refl sc m body _)).mono
        (List.subset_append_left _ _)
    · exact (includes_handler hh).mono (List.subset_append_right _ _)

variable {body orelse : List Stmt} {handlers : List Handler}

/-- All that a `try` statement shields is visited. -/
theorem includes_region {final : List Stmt} {span : Span}
    (h : sc.Shields m s (.tryBlock body handlers orelse final span) v) :
    sc.Includes s (sc.region m body handlers orelse s) v := by
  have hbody := sc.stemsFrom_block m.shield body s
  have hsub := Outcome.escapes_subset_andThen (sc.block m.shield body s) (sc.block m.shield orelse)
  cases h with
  | tryBody =>
    exact (Includes.refl sc m.shield body s).mono (List.subset_append_of_subset_left _ hsub)
  | tryElse ht =>
    exact (Includes.andThen hbody ht (.refl sc m.shield orelse _)).mono
      (List.subset_append_left _ _)
  -- A handler starts behind the body, so its escapes come after those of the body.
  | handler hh =>
    have hhandler : sc.Includes (s.interrupted (sc.block m.shield body s).trace)
        (sc.handlers m.shield handlers (s.interrupted (sc.block m.shield body s).trace)) _ :=
      includes_handler hh
    have hright : (sc.handlers m.shield handlers
        (s.interrupted (sc.block m.shield body s).trace)).trace.escapes ⊆
          (sc.region m body handlers orelse s).trace.escapes := List.subset_append_right _ _
    have hleft : (sc.block m.shield body s).trace.escapes ⊆
        (sc.region m body handlers orelse s).trace.escapes :=
      List.subset_append_of_subset_left _ hsub
    exact ⟨((State.LeadsTo.interrupted s _).mono hleft).trans (hhandler.leads.mono hright),
      List.Subset.trans hhandler.escapes hright⟩

/-- The `finally` block is visited on every path that leaves the region. -/
theorem includes_leaving {final : List Stmt} (ho : o.StemsFrom s)
    (ht : t ∈ o.leaving (sc.block m final)) :
    sc.Includes s (o.closeWith (sc.block m final)) ⟨m, final, t⟩ := by
  have hw := sc.stemsFrom_block m final
  have hjumps := Outcome.stemFrom_jumps_closeWith hw ho
  have hout := o.escapes_jumpsOut_subset_closeWith (sc.block m final)
  simp only [Outcome.leaving, List.mem_append, List.mem_map, Option.mem_toList] at ht
  -- Returns, `break`, `continue`, and where the region goes on.
  rcases ht with (⟨e, he, rfl⟩ | ht | ht) | ht
  · refine ⟨(ho.trace.exits e he).mono (Outcome.escapes_subset_closeWith o _), ?_⟩
    exact List.Subset.trans (Outcome.escapes_subset_exitThrough _ e) (List.Subset.trans
      (Outcome.escapes_exitThrough_subset_foldl _ _ ∅ he)
      (Outcome.escapes_exitsOut_subset_closeWith o _))
  · refine ⟨hjumps.broken t ht, List.Subset.trans ?_ hout⟩
    rw [Outcome.jumpsOut, Outcome.jumpsThrough, ht]
    exact List.subset_append_left _ _
  · refine ⟨hjumps.continued t ht, List.Subset.trans ?_ hout⟩
    rw [Outcome.jumpsOut, Outcome.jumpsThrough, ht]
    exact List.subset_append_right _ _
  · refine ⟨(ho.next t ht).mono (Outcome.escapes_subset_closeWith o _), ?_⟩
    rw [Outcome.trace_closeWith, ht]
    exact List.subset_append_right _ _

/-- All that is shielded is visited. -/
theorem Shields.includes (h : sc.Shields m s st v) : sc.Includes s (sc.stmt m st s) v := by
  cases st with
  | tryBlock body handlers orelse final span =>
    refine (includes_region h).mono ?_
    rw [stmt_tryBlock]
    split
    · exact List.Subset.refl _
    · exact Outcome.escapes_subset_closeWith _ _
  | withBlock items body span =>
    cases h
    rw [stmt]
    exact .andThen (.check _ s) rfl ((Includes.refl sc m.shield body _).mono (List.Subset.refl _))
  | _ => nomatch h

/-- The body of a loop is visited in every round. -/
theorem includes_round {c : LoopCode} {head : State} (hhead : head ∈ (sc.loop m c).heads s)
    (ht : (sc.bindTarget m c.target ((sc.loop m c).round head).tested).next = some t) :
    sc.Includes s ((sc.loop m c).walk c.endless (sc.block m c.orelse) s) ⟨m.loop, c.body, t⟩ := by
  have hround : sc.Includes ((sc.loop m c).round head).tested ((sc.loop m c).round head).body
      ⟨m.loop, c.body, t⟩ :=
    .andThen ((sc.walksUnder_bindTarget m c.target).stems _) ht (.refl sc m.loop c.body t)
  have hbody : ((sc.loop m c).round head).body.trace.escapes ⊆
      ((sc.loop m c).round head).trace.escapes := List.subset_append_right _ _
  have hwalk : ((sc.loop m c).settle s).trace.escapes ⊆
      ((sc.loop m c).walk c.endless (sc.block m c.orelse) s).trace.escapes :=
    List.subset_append_left _ _
  have hsettle := List.Subset.trans (Loop.escapes_round_subset hhead) hwalk
  refine ⟨?_, List.Subset.trans hround.escapes (List.Subset.trans hbody hsettle)⟩
  have hleads := (Loop.leadsTo_of_mem_heads (sc.monotone_loop m c).body.stems hhead).mono hwalk
  have htested := ((sc.loop m c).tested_leadsTo head).mono hsettle
  exact (hleads.trans htested).trans (hround.leads.mono (List.Subset.trans hbody hsettle))

/-- The `else` block is visited from where the last test fails. -/
theorem includes_completed {c : LoopCode} (hend : c.endless = false) :
    sc.Includes s ((sc.loop m c).walk c.endless (sc.block m c.orelse) s)
      ⟨m, c.orelse, ((sc.loop m c).settle s).tested⟩ := by
  refine ⟨?_, ?_⟩
  · rw [Loop.tested_settle]
    exact Loop.tested_leadsTo_walk (sc.monotone_loop m c).body.stems _ _ s
  · rw [Loop.walk, hend]
    exact List.subset_append_right _ _

/-- All that a statement enters is visited. -/
theorem Enters.includes (h : sc.Enters m s st v) : sc.Includes s (sc.stmt m st s) v := by
  cases h with
  | branch =>
    rw [stmt]
    exact .andThen (.check _ s) rfl ((Includes.refl sc m _ _).mono (List.subset_append_left _ _))
  | otherwise =>
    rw [stmt]
    exact .andThen (.check _ s) rfl ((Includes.refl sc m _ _).mono (List.subset_append_right _ _))
  | round hst hhead ht =>
    rw [sc.stmt_of_loopCode? m hst]
    exact .andThen (.check _ s) rfl (includes_round hhead ht)
  | completed hst hend =>
    rw [sc.stmt_of_loopCode? m hst]
    exact .andThen (.check _ s) rfl (includes_completed hend)
  | shielded hv => exact hv.includes
  | final hfinal ht =>
    rw [stmt_tryBlock, hfinal, if_neg (by simp)]
    exact includes_leaving (sc.stemsFrom_region m _ _ _ s) ht

/-- A walk includes that from wherever it comes to. -/
theorem ComesTo.includes (h : sc.ComesTo u v) : sc.Includes u.state (sc.walk u) v := by
  induction h using Relation.ReflTransGen.head_induction_on with
  | refl => exact .refl sc _ _ _
  | head hstep _ ih =>
    cases hstep with
    | on hn =>
      rw [walk, block]
      exact .andThen (sc.stemsFrom_stmt _ _ _) hn ih
    | into hv =>
      rw [walk, block]
      exact (hv.includes.trans ih).mono (Outcome.escapes_subset_andThen _ _)

/-- What a walk flags from where it comes to, it flags from where it started. -/
theorem ComesTo.flagged (h : sc.ComesTo u v)
    (hv : Flagged v.state (sc.walk v).trace.escapes) : Flagged u.state (sc.walk u).trace.escapes :=
  hv.back h.includes.leads h.includes.escapes

end Scope

end DefiniteInit
