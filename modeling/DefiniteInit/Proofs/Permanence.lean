import DefiniteInit.Proofs.Accounts

/-!
# Escapes last

Once the receiver has escaped on a path it stays so, and nothing more is counted as
assigned; and a state says that it has escaped only if that was so at the start or an
escape was noted since (`State.LeadsTo`). Every state a walk leaves behind is led to in this
way from the state it starts in (`Outcome.StemsFrom`), whether the path runs through, returns
or jumps. Walks put together from such walks are such walks, loops and `finally` blocks
included (`Loop.stemsFrom_walk`, `Outcome.StemsFrom.closeWith`).
-/

namespace DefiniteInit

/-! ## From one state to another -/

/-- The state `t` is one that a walk from `s` which notes these escapes can come to. -/
structure State.LeadsTo (s : State) (noted : List Escape) (t : State) : Prop where
  stays : s.escaped = true → t.escaped = true
  shrinks : s.escaped = true → ∀ a ∈ t.defined, a ∈ s.defined
  cause : t.escaped = true → s.escaped = true ∨ noted ≠ []

/-- A path that has not ended is in a state led to from `s`. -/
def Leads (s : State) (noted : List Escape) (p : Option State) : Prop :=
  ∀ t, p = some t → s.LeadsTo noted t

variable {s t u : State} {l l' : List Escape} {p q : Option State}

namespace State.LeadsTo

theorem refl (s : State) (l : List Escape) : s.LeadsTo l s := ⟨id, fun _ _ => id, Or.inl⟩

/-- A way leads on from where another ends. -/
theorem trans (h : s.LeadsTo l t) (h' : t.LeadsTo l u) : s.LeadsTo l u where
  stays hs := h'.stays (h.stays hs)
  shrinks hs a ha := h.shrinks hs a (h'.shrinks (h.stays hs) a ha)
  cause hu := (h'.cause hu).elim h.cause Or.inr

/-- More escapes may have been noted. -/
theorem mono (h : s.LeadsTo l t) (hl : l ⊆ l') : s.LeadsTo l' t where
  stays := h.stays
  shrinks := h.shrinks
  cause ht := (h.cause ht).imp id fun hne hnil => hne (List.eq_nil_of_subset_nil (hnil ▸ hl))

/-- Where two ways from a state meet, the state still leads. -/
theorem merge (h : s.LeadsTo l t) (h' : s.LeadsTo l u) : s.LeadsTo l (t.merge u) where
  stays hs := by simp [State.merge, h.stays hs]
  shrinks hs a ha := h.shrinks hs a (AttrSet.mem_inter.1 ha).1
  cause hu := (Bool.or_eq_true_iff.1 hu).elim h.cause h'.cause

theorem define (s : State) (attr : Name) (l : List Escape) : s.LeadsTo l (s.define attr) := by
  unfold State.define
  split
  · exact refl s l
  · rename_i hs
    exact ⟨fun h => absurd h hs, fun h => absurd h hs, Or.inl⟩

theorem defineAll (s : State) (attrs : List Name) (l : List Escape) :
    s.LeadsTo l (s.defineAll attrs) := by
  induction attrs generalizing s with
  | nil => exact refl s l
  | cons attr attrs ih => exact (define s attr l).trans (ih _)

/-- A call of a base's initializer adds attributes at most, and none after an escape. -/
theorem fold (call : BaseCall) (contributes : Bool) (s : State) (l : List Escape) :
    s.LeadsTo l (call.fold contributes s) := by
  unfold BaseCall.fold
  split
  · split
    · exact defineAll s _ l
    · exact refl s l
  · exact refl s l

theorem undefine (s : State) (attr : Name) (l : List Escape) : s.LeadsTo l (s.undefine attr) :=
  ⟨id, fun _ _ ha => (AttrSet.mem_erase.1 ha).1, Or.inl⟩

/-- An exception in a region takes attributes away, and knows of the escapes in the region. -/
theorem interrupted (s : State) (region : Trace) :
    s.LeadsTo region.escapes (s.interrupted region) where
  stays hs := by simp [State.interrupted, hs]
  shrinks _ a ha := (AttrSet.mem_eraseAll.1 ha).1
  cause ht := by simpa [State.interrupted] using ht

theorem leads (h : s.LeadsTo l t) : Leads s l (some t) := by
  intro u hu
  rwa [← Option.some.inj hu]

end State.LeadsTo

theorem Leads.none : Leads s l none := fun _ h => nomatch h

/-- A state that leads to both of two paths leads to where they meet. -/
theorem Leads.mergePaths (hp : Leads s l p) (hq : Leads s l q) : Leads s l (mergePaths p q) := by
  cases p with
  | none => exact hq
  | some t =>
    cases q with
    | none => exact hp
    | some u => exact ((hp t rfl).merge (hq u rfl)).leads

/-- So it does if there is only one of them. -/
theorem State.LeadsTo.mergePath (h : s.LeadsTo l t) (hp : Leads s l p) :
    s.LeadsTo l (t.mergePath p) :=
  h.leads.mergePaths hp _ rfl

/-- A way to a path can be made longer at its start. -/
theorem Leads.trans (h : s.LeadsTo l t) (hp : Leads t l p) : Leads s l p :=
  fun u hu => h.trans (hp u hu)

theorem Leads.mono (h : Leads s l p) (hl : l ⊆ l') : Leads s l' p := fun t ht => (h t ht).mono hl

/-- A verdict that is not safe makes the state one in which the receiver has escaped, and is
noted unless it had before. -/
theorem State.LeadsTo.check (s : State) (v : Verdict) :
    s.LeadsTo (Trace.ofVerdict v s).escapes (s.check v) := by
  cases v with
  | safe => exact refl s _
  | escapes site | aliases site =>
    refine ⟨fun _ => rfl, fun _ _ => id, fun _ => ?_⟩
    cases hs : s.escaped with
    | true => exact Or.inl rfl
    | false => exact Or.inr (by simp [Trace.ofVerdict, Verdict.site?, hs])

/-! ## Traces and outcomes -/

/-- All paths that jump are in states led to from `s`. -/
structure Jumps.StemFrom (j : Jumps) (s : State) (l : List Escape) : Prop where
  broken : Leads s l j.broken
  continued : Leads s l j.continued

/-- All paths that return or jump are in states led to from `s`. -/
structure Trace.StemsFrom (t : Trace) (s : State) (l : List Escape) : Prop where
  exits : ∀ e ∈ t.exits, s.LeadsTo l e.state
  leading : t.leading.StemFrom s l
  trailing : t.trailing.StemFrom s l

/-- Every state the walk leaves behind is led to from `s`. -/
structure Outcome.StemsFrom (o : Outcome) (s : State) : Prop where
  next : Leads s o.trace.escapes o.next
  trace : o.trace.StemsFrom s o.trace.escapes

namespace Jumps.StemFrom

variable {j k : Jumps}

theorem none : Jumps.none.StemFrom s l := ⟨.none, .none⟩

/-- Jumps that stem from a state still do when they meet. -/
theorem merge (hj : j.StemFrom s l) (hk : k.StemFrom s l) : (j.merge k).StemFrom s l :=
  ⟨hj.broken.mergePaths hk.broken, hj.continued.mergePaths hk.continued⟩

/-- Jumps stem from where their state stems from. -/
theorem trans (h : s.LeadsTo l t) (hj : j.StemFrom t l) : j.StemFrom s l :=
  ⟨.trans h hj.broken, .trans h hj.continued⟩

theorem mono (hj : j.StemFrom s l) (hl : l ⊆ l') : j.StemFrom s l' :=
  ⟨hj.broken.mono hl, hj.continued.mono hl⟩

end Jumps.StemFrom

namespace Trace.StemsFrom

variable {x y : Trace}

theorem empty : (∅ : Trace).StemsFrom s l := ⟨nofun, .none, .none⟩

theorem ofExit {e : Exit} (h : s.LeadsTo l e.state) : (Trace.ofExit e).StemsFrom s l := by
  refine ⟨fun e' he' => ?_, .none, .none⟩
  rwa [List.mem_singleton.1 he']

theorem ofJumps {j : Jumps} (h : j.StemFrom s l) : (Trace.ofJumps j).StemsFrom s l :=
  ⟨nofun, .none, h⟩

theorem ofDeletion (attr : Name) : (Trace.ofDeletion attr).StemsFrom s l := ⟨nofun, .none, .none⟩

/-- Traces that stem from a state do so one after the other. -/
theorem append (hx : x.StemsFrom s l) (hy : y.StemsFrom s l) : (x ++ y).StemsFrom s l where
  exits e he := (List.mem_append.1 he).elim (hx.exits e) (hy.exits e)
  leading := hy.leading.merge hx.leading
  trailing := hx.trailing.merge hy.trailing

/-- A trace stems from where its state stems from. -/
theorem trans (h : s.LeadsTo l t) (hx : x.StemsFrom t l) : x.StemsFrom s l :=
  ⟨fun e he => h.trans (hx.exits e he), .trans h hx.leading, .trans h hx.trailing⟩

theorem mono (hx : x.StemsFrom s l) (hl : l ⊆ l') : x.StemsFrom s l' :=
  ⟨fun e he => (hx.exits e he).mono hl, hx.leading.mono hl, hx.trailing.mono hl⟩

theorem jumps (hx : x.StemsFrom s l) : x.jumps.StemFrom s l := hx.leading.merge hx.trailing

theorem withoutJumps (hx : x.StemsFrom s l) : x.withoutJumps.StemsFrom s l :=
  ⟨hx.exits, .none, .none⟩

theorem ofVerdict (v : Verdict) (u : State) : (Trace.ofVerdict v u).StemsFrom s l := by
  unfold Trace.ofVerdict
  split
  · split
    · exact empty
    · exact ⟨nofun, .none, .none⟩
  · exact empty

end Trace.StemsFrom

/-- The escapes of a walk stay noted in what follows. -/
theorem Outcome.escapes_subset_andThen (o : Outcome) (w : State → Outcome) :
    o.trace.escapes ⊆ (o.andThen w).trace.escapes := by
  cases hn : o.next with
  | none => rw [andThen_of_none hn]; exact List.Subset.refl _
  | some t => rw [andThen_of_some hn]; exact List.subset_append_left _ _

namespace Outcome.StemsFrom

variable {o o' : Outcome} {w : State → Outcome}

/-- An outcome stems from where its state stems from. -/
theorem trans (h : s.LeadsTo o.trace.escapes t) (ho : o.StemsFrom t) : o.StemsFrom s :=
  ⟨.trans h ho.next, .trans h ho.trace⟩

theorem goOn (h : s.LeadsTo [] t) : (Outcome.goOn t).StemsFrom s := ⟨h.leads, .empty⟩

theorem check (v : Verdict) (s : State) : (Outcome.check v s).StemsFrom s :=
  ⟨(State.LeadsTo.check s v).leads, .ofVerdict v s⟩

theorem stop {x : Trace} (h : x.StemsFrom s x.escapes) : (Outcome.stop x).StemsFrom s := ⟨.none, h⟩

/-- What follows a walk need only stem from the state it is walked from. -/
theorem andThen_of_some (ho : o.StemsFrom s) (hn : o.next = some t) (hw : (w t).StemsFrom t) :
    (o.andThen w).StemsFrom s := by
  rw [Outcome.andThen_of_some hn]
  have hleft : o.trace.escapes ⊆ (o.trace ++ (w t).trace).escapes := List.subset_append_left _ _
  have hright : (w t).trace.escapes ⊆ (o.trace ++ (w t).trace).escapes :=
    List.subset_append_right _ _
  have ht := (ho.next t hn).mono hleft
  exact ⟨.trans ht (hw.next.mono hright),
    (ho.trace.mono hleft).append (.trans ht (hw.trace.mono hright))⟩

/-- Walks in turn stem from where the first of them starts. -/
theorem andThen (ho : o.StemsFrom s) (hw : ∀ t, (w t).StemsFrom t) : (o.andThen w).StemsFrom s := by
  cases hn : o.next with
  | none => rwa [andThen_of_none hn]
  | some t => exact ho.andThen_of_some hn (hw t)

theorem check_andThen {v : Verdict} (hw : (w (s.check v)).StemsFrom (s.check v)) :
    ((Outcome.check v s).andThen w).StemsFrom s :=
  (check v s).andThen_of_some rfl hw

/-- Walks of two branches stem from where both start. -/
theorem either (ho : o.StemsFrom s) (ho' : o'.StemsFrom s) : (o.either o').StemsFrom s := by
  have hleft : o.trace.escapes ⊆ (o.either o').trace.escapes := List.subset_append_left _ _
  have hright : o'.trace.escapes ⊆ (o.either o').trace.escapes := List.subset_append_right _ _
  exact ⟨(ho.next.mono hleft).mergePaths (ho'.next.mono hright),
    (ho.trace.mono hleft).append (ho'.trace.mono hright)⟩

/-- A walk that may also go on from where an exception leaves the code. -/
theorem either_interrupted {x : Trace} (ho : o.StemsFrom s) (hx : x.escapes ⊆ o.trace.escapes)
    (ho' : o'.StemsFrom (s.interrupted x)) : (o.either o').StemsFrom s := by
  have hleft : o.trace.escapes ⊆ (o.either o').trace.escapes := List.subset_append_left _ _
  have hright : o'.trace.escapes ⊆ (o.either o').trace.escapes := List.subset_append_right _ _
  have hint := ((State.LeadsTo.interrupted s x).mono hx).mono hleft
  exact ⟨(ho.next.mono hleft).mergePaths (.trans hint (ho'.next.mono hright)),
    (ho.trace.mono hleft).append (.trans hint (ho'.trace.mono hright))⟩

/-- A `try` statement without a last block: its body, then the `else` block or a handler. -/
theorem region (ho : o.StemsFrom s) (hw : ∀ t, (w t).StemsFrom t)
    (ho' : o'.StemsFrom (s.interrupted o.trace)) : ((o.andThen w).either o').StemsFrom s :=
  (ho.andThen hw).either_interrupted (escapes_subset_andThen o w) ho'

end Outcome.StemsFrom

/-! ## Loops -/

namespace Loop

variable {l : Loop} (hbody : ∀ t, (l.body t).StemsFrom t)

/-- The escapes of the last round are among those of the loop. -/
theorem escapes_lastRound_subset (l : Loop) (head : State) :
    (l.lastRound head).trace.escapes ⊆ (l.settle head).trace.escapes := by
  unfold lastRound
  induction head using l.settle_induction with
  | done head h => rw [rest_of_same l h, settle_of_same l h]; exact List.Subset.refl _
  | again head h ih =>
    rw [rest_of_not_same l h, settle_of_not_same l h, Trace.escapes_append]
    exact List.subset_append_of_subset_right _ ih

theorem escapes_lastRound_walk (l : Loop) (endless : Bool) (orelse : State → Outcome) (s : State) :
    (l.lastRound s).trace.escapes ⊆ (l.walk endless orelse s).trace.escapes :=
  List.subset_append_of_subset_left _ (l.escapes_lastRound_subset s)

/-- The jumps of a round stay inside the loop. -/
theorem stemsFrom_round_withoutExits (head s : State) (noted : List Escape) :
    (l.round head).trace.withoutExits.StemsFrom s noted :=
  have htest := Trace.StemsFrom.ofVerdict (l := noted) (s := s) (l.test head) head
  ⟨by simp [Trace.withoutExits], Jumps.StemFrom.none.merge htest.leading,
    htest.trailing.merge .none⟩

/-- The head of a round leads to the state after the test. -/
theorem tested_leadsTo (l : Loop) (head : State) :
    head.LeadsTo (l.round head).trace.escapes (l.round head).tested :=
  (State.LeadsTo.check head (l.test head)).mono (List.subset_append_left _ _)

include hbody

/-- It leads to the head that the round leaves, which may come from the end of the body or from a
`continue`. -/
theorem next_leadsTo (head : State) :
    head.LeadsTo (l.round head).trace.escapes (l.round head).next := by
  have htested := tested_leadsTo l head
  have hround : (l.round head).body.StemsFrom (l.round head).tested := hbody _
  have hsub : (l.round head).body.trace.escapes ⊆ (l.round head).trace.escapes :=
    List.subset_append_right _ _
  exact htested.mergePath (.trans htested ((hround.next.mono hsub).mergePaths
    (hround.trace.jumps.continued.mono hsub)))

/-- The head comes to rest in a state led to from where it started. -/
theorem rest_leadsTo (head : State) :
    head.LeadsTo (l.settle head).trace.escapes (l.rest head) := by
  induction head using l.settle_induction with
  | done head h => rw [rest_of_same l h]; exact .refl _ _
  | again head h ih =>
    rw [rest_of_not_same l h, settle_of_not_same l h, Trace.escapes_append]
    exact ((next_leadsTo hbody head).mono (List.subset_append_left _ _)).trans
      (ih.mono (List.subset_append_right _ _))

/-- All that happens in the last round stems from the head at rest. -/
theorem stemsFrom_lastRound (head : State) :
    (l.lastRound head).trace.StemsFrom (l.rest head) (l.lastRound head).trace.escapes := by
  have hround : (l.lastRound head).body.StemsFrom (l.lastRound head).tested := hbody _
  have hsub : (l.lastRound head).body.trace.escapes ⊆ (l.lastRound head).trace.escapes :=
    List.subset_append_right _ _
  exact (Trace.StemsFrom.ofVerdict _ _).append
    (.trans (tested_leadsTo l _) (hround.trace.withoutJumps.mono hsub))

/-- Only the last round leaves traces. -/
theorem stemsFrom_settle (head : State) :
    (l.settle head).trace.StemsFrom (l.rest head) (l.lastRound head).trace.escapes := by
  have hlast := stemsFrom_lastRound hbody head
  unfold lastRound at hlast ⊢
  induction head using l.settle_induction with
  | done head h =>
    rw [settle_of_same l h]
    rwa [rest_of_same l h] at hlast ⊢
  | again head h ih =>
    rw [settle_of_not_same l h]
    rw [rest_of_not_same l h] at hlast ⊢
    exact (stemsFrom_round_withoutExits _ _ _).append (ih hlast)

/-- All states a loop leaves behind are led to from the state at rest. -/
theorem stemsFrom_rest {orelse : State → Outcome} (horelse : ∀ t, (orelse t).StemsFrom t)
    (endless : Bool) (s : State) : (l.walk endless orelse s).StemsFrom (l.rest s) := by
  have hcompleted : (if endless then .stop ∅ else orelse (l.settle s).tested : Outcome).StemsFrom
      (l.settle s).tested := by
    split
    · exact .stop .empty
    · exact horelse _
  have hround : (l.lastRound s).body.StemsFrom (l.settle s).tested := by
    rw [l.tested_settle]
    exact hbody _
  have hsettle := l.escapes_lastRound_walk endless orelse s
  have hsub := List.Subset.trans (List.subset_append_right _ _) hsettle
  have htested := (tested_leadsTo l (l.rest s)).mono hsettle
  rw [← lastRound, ← l.tested_settle] at htested
  have hbroken := Leads.trans htested (hround.trace.jumps.broken.mono hsub)
  rw [← l.broken_settle] at hbroken
  have hright := List.subset_append_right (l.settle s).trace.escapes
    (if endless then .stop ∅ else orelse (l.settle s).tested : Outcome).trace.escapes
  exact ⟨(Leads.trans htested (hcompleted.next.mono hright)).mergePaths hbroken,
    ((stemsFrom_settle hbody s).mono hsettle).append
      (.trans htested (hcompleted.trace.mono hright))⟩

/-- The entry of a loop leads to the head at rest. -/
theorem rest_leadsTo_walk (endless : Bool) (orelse : State → Outcome) (s : State) :
    s.LeadsTo (l.walk endless orelse s).trace.escapes (l.rest s) :=
  (rest_leadsTo hbody s).mono (List.subset_append_left _ _)

theorem tested_leadsTo_walk (endless : Bool) (orelse : State → Outcome) (s : State) :
    s.LeadsTo (l.walk endless orelse s).trace.escapes (l.lastRound s).tested :=
  (rest_leadsTo_walk hbody endless orelse s).trans
    ((tested_leadsTo l (l.rest s)).mono (l.escapes_lastRound_walk endless orelse s))

/-- All that a loop leaves behind stems from its entry. -/
theorem stemsFrom_walk {orelse : State → Outcome} (horelse : ∀ t, (orelse t).StemsFrom t)
    (endless : Bool) (s : State) : (l.walk endless orelse s).StemsFrom s :=
  .trans (rest_leadsTo_walk hbody endless orelse s) (stemsFrom_rest hbody horelse endless s)

end Loop

/-! ## `finally` blocks -/

namespace Outcome

variable {o : Outcome} {w : State → Outcome} (hw : ∀ t, (w t).StemsFrom t)

include hw

/-- An exit that goes through a `finally` block stems from where it stemmed from. -/
theorem stemsFrom_exitThrough {e : Exit} (he : s.LeadsTo l e.state)
    (hl : (exitThrough w e).escapes ⊆ l) : (exitThrough w e).StemsFrom s l := by
  unfold exitThrough at hl ⊢
  cases hn : (w e.state).next with
  | none =>
    simp only [hn] at hl ⊢
    exact .trans he ((hw e.state).trace.mono hl)
  | some t =>
    simp only [hn] at hl ⊢
    have hblock := List.Subset.trans (List.subset_append_left _ _) hl
    exact .append (.trans he ((hw e.state).trace.mono hblock))
      (.ofExit (he.trans (((hw e.state).next t hn).mono hblock)))

omit hw in
/-- Further exits take no escape away. -/
theorem escapes_subset_foldl_exitThrough (exits : List Exit) (x : Trace) :
    x.escapes ⊆ (exits.foldl (fun x e => x ++ exitThrough w e) x).escapes := by
  induction exits generalizing x with
  | nil => exact List.Subset.refl _
  | cons e es ih =>
    have hstep : x.escapes ⊆ (x ++ exitThrough w e).escapes := List.subset_append_left _ _
    exact List.Subset.trans hstep (ih _)

/-- Exits that go through the block one after the other stem from where they stemmed from. The
induction is along the exits, for any trace before them. -/
theorem stemsFrom_foldl_exitThrough (exits : List Exit) (x : Trace)
    (hexits : ∀ e ∈ exits, s.LeadsTo l e.state) (hx : x.StemsFrom s l)
    (hl : (exits.foldl (fun x e => x ++ exitThrough w e) x).escapes ⊆ l) :
    (exits.foldl (fun x e => x ++ exitThrough w e) x).StemsFrom s l := by
  induction exits generalizing x with
  | nil => exact hx
  | cons e es ih =>
    obtain ⟨he, hes⟩ := List.forall_mem_cons.1 hexits
    have hfirst : (x ++ exitThrough w e).escapes ⊆ l :=
      List.Subset.trans (escapes_subset_foldl_exitThrough es _) hl
    refine ih _ hes (hx.append (stemsFrom_exitThrough hw he ?_)) hl
    exact List.Subset.trans (List.subset_append_right _ _) hfirst

/-- So does a path that goes through the block. -/
theorem leads_onPath (hp : Leads s l p) (hl : (onPath w p).trace.escapes ⊆ l) :
    Leads s l (onPath w p).next ∧ (onPath w p).trace.StemsFrom s l := by
  cases p with
  | none => exact ⟨.none, .empty⟩
  | some t =>
    exact ⟨.trans (hp t rfl) ((hw t).next.mono hl), .trans (hp t rfl) ((hw t).trace.mono hl)⟩

/-- So do jumps. -/
theorem stemsFrom_jumpsThrough {j : Jumps} (hj : j.StemFrom s l)
    (hl : (jumpsThrough w j).escapes ⊆ l) : (jumpsThrough w j).StemsFrom s l := by
  obtain ⟨hbnext, hbtrace⟩ := leads_onPath hw hj.broken
    (List.Subset.trans (List.subset_append_left _ _) hl)
  obtain ⟨hcnext, hctrace⟩ := leads_onPath hw hj.continued
    (List.Subset.trans (List.subset_append_right _ _) hl)
  have hboth := hbtrace.append hctrace
  exact ⟨hboth.exits, hboth.jumps, ⟨hbnext, hcnext⟩⟩

omit hw in
/-- The escapes of a region stay noted after its `finally` block. -/
theorem escapes_subset_closeWith (o : Outcome) (w : State → Outcome) :
    o.trace.escapes ⊆ (o.closeWith w).trace.escapes :=
  List.subset_append_of_subset_left _ (List.subset_append_of_subset_left _
    (List.subset_append_left _ _))

omit hw in
theorem escapes_exitsOut_subset_closeWith (o : Outcome) (w : State → Outcome) :
    (o.exitsOut w).escapes ⊆ (o.closeWith w).trace.escapes :=
  List.subset_append_of_subset_left _ (List.subset_append_of_subset_left _
    (List.subset_append_right _ _))

omit hw in
theorem escapes_jumpsOut_subset_closeWith (o : Outcome) (w : State → Outcome) :
    (o.jumpsOut w).escapes ⊆ (o.closeWith w).trace.escapes :=
  List.subset_append_of_subset_left _ (List.subset_append_right _ _)

theorem stemsFrom_exitsOut (ho : o.StemsFrom s) :
    (o.exitsOut w).StemsFrom s (o.closeWith w).trace.escapes :=
  stemsFrom_foldl_exitThrough hw _ _
    (fun e he => (ho.trace.exits e he).mono (escapes_subset_closeWith o w)) .empty
    (escapes_exitsOut_subset_closeWith o w)

/-- The jumps that pass through the block. -/
theorem stemFrom_jumps_closeWith (ho : o.StemsFrom s) :
    (o.trace ++ o.exitsOut w).jumps.StemFrom s (o.closeWith w).trace.escapes :=
  ((ho.trace.mono (escapes_subset_closeWith o w)).append (stemsFrom_exitsOut hw ho)).jumps

/-- A region and its `finally` block. -/
theorem StemsFrom.closeWith (ho : o.StemsFrom s) : (o.closeWith w).StemsFrom s := by
  have hexits := stemsFrom_exitsOut hw ho
  have hjumps := stemsFrom_jumpsThrough hw (stemFrom_jumps_closeWith hw ho)
    (escapes_jumpsOut_subset_closeWith o w)
  obtain ⟨hnext, hthrough⟩ := leads_onPath hw (ho.next.mono (escapes_subset_closeWith o w))
    (List.subset_append_right _ _)
  refine ⟨hnext, ?_⟩
  rw [trace_closeWith]
  exact .append (.append (.append ⟨nofun, .none, .none⟩ hexits.withoutJumps) hjumps) hthrough

end Outcome

end DefiniteInit
