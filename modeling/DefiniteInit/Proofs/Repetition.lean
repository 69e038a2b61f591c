import DefiniteInit.Proofs.Visits

/-!
# Walking a block again

Take the state in which a walk of a block breaks out of a loop, or one that says less, and walk the
block again from there. The paths that break do so in a state that says no more than that one
(`Scope.jumps_again`): what the first walk lacks, some path neither assigned nor kept, and the same
path does not do so the second time.

This is shown for one attribute at a time, by a relation between two walks of the same code
(`State.Backs`): what the second state says of the attribute, the first says too, unless the
receiver has escaped there. Where an attribute is assigned in the second walk it is in the first, or
the verdict was another one there and the receiver has escaped.
-/

namespace DefiniteInit

variable {a : Name} {x y z : State} {p p' q q' : Option State}

/-! ## States -/

/-- What `y` says of the attribute, `x` says too, unless the receiver has escaped there. -/
def State.Backs (a : Name) (x y : State) : Prop := a ∈ y.defined → a ∈ x.defined ∨ x.escaped = true

/-- Both paths have ended, or neither has and the state of the first backs that of the second. -/
abbrev PathBacks (a : Name) : Option State → Option State → Prop := Option.Rel (State.Backs a)

namespace State.Backs

theorem of_not_mem (x : State) (hy : a ∉ y.defined) : x.Backs a y := fun h => absurd h hy

/-- After an escape everything is backed. -/
theorem of_escaped (hx : x.escaped = true) (y : State) : x.Backs a y := fun _ => .inr hx

/-- The second state may say less. -/
theorem mono_right (h : x.Backs a y) (hz : ∀ b ∈ z.defined, b ∈ y.defined) : x.Backs a z :=
  fun ha => h (hz a ha)

/-- The first state may say more. -/
theorem mono_left (h : x.Backs a y) (hdefined : ∀ b ∈ x.defined, b ∈ z.defined)
    (hescaped : x.escaped = true → z.escaped = true) : z.Backs a y :=
  fun ha => (h ha).imp (hdefined a) hescaped

/-- Verdicts take nothing from what backs. -/
theorem check (h : x.Backs a y) (v v' : Verdict) : (x.check v).Backs a (y.check v') := by
  have hright : x.Backs a (y.check v') := h.mono_right (by simp)
  exact hright.mono_left (by simp) (State.Weakens.check_left x v).escaped

/-- What backs each of two states backs their merge. -/
theorem merge {x' y' : State} (h : x.Backs a y) (h' : x'.Backs a y') :
    (x.merge x').Backs a (y.merge y') := by
  intro ha
  obtain ⟨hy, hy'⟩ := AttrSet.mem_inter.1 ha
  rcases h hy with hx | hx
  · rcases h' hy' with hx' | hx'
    · exact .inl (AttrSet.mem_inter.2 ⟨hx, hx'⟩)
    · exact .inr (by simp [State.merge, hx'])
  · exact .inr (by simp [State.merge, hx])

/-- An assignment that does something to one state does it to the other, unless that has escaped. -/
theorem define (h : x.Backs a y) (attr : Name) : (x.define attr).Backs a (y.define attr) := by
  cases hx : x.escaped with
  | true => exact of_escaped ((State.LeadsTo.define x attr []).stays hx) _
  | false =>
    have hdefined : (x.define attr).defined = x.defined.insert attr := by simp [State.define, hx]
    intro ha
    rw [hdefined, AttrSet.mem_insert]
    rcases State.mem_defined_define ha with ha | rfl
    · exact (h ha).imp Or.inl fun he => absurd he (by simp [hx])
    · exact .inl (.inr rfl)

theorem defineAll (h : x.Backs a y) (attrs : List Name) :
    (x.defineAll attrs).Backs a (y.defineAll attrs) := by
  induction attrs generalizing x y with
  | nil => exact h
  | cons attr attrs ih => exact ih (h.define attr)

theorem undefine (h : x.Backs a y) (attr : Name) : (x.undefine attr).Backs a (y.undefine attr) := by
  intro ha
  obtain ⟨ha, hne⟩ := AttrSet.mem_erase.1 ha
  exact (h ha).imp (fun hx => AttrSet.mem_erase.2 ⟨hx, hne⟩) id

/-- An exception takes away no more from what backs, if no more is deleted. -/
theorem interrupted (h : x.Backs a y) {t u : Trace} (htu : t.deletions ⊆ u.deletions) :
    (x.interrupted t).Backs a (y.interrupted u) := by
  intro ha
  obtain ⟨ha, hnot⟩ := AttrSet.mem_eraseAll.1 ha
  exact (h ha).imp (fun hx => AttrSet.mem_eraseAll.2 ⟨hx, fun hd => hnot (htu hd)⟩)
    fun hx => by simp [State.interrupted, hx]

end State.Backs

/-- Paths that back each other do so where they meet. -/
theorem PathBacks.mergePaths (hp : PathBacks a p p') (hq : PathBacks a q q') :
    PathBacks a (mergePaths p q) (mergePaths p' q') := by
  cases hp with
  | none => exact hq
  | some hs =>
    cases hq with
    | none => exact .some hs
    | some ht => exact .some (hs.merge ht)

/-- So they do if there is only one of them. -/
theorem State.Backs.mergePath (h : x.Backs a y) (hp : PathBacks a p p') :
    (x.mergePath p).Backs a (y.mergePath p') := by
  cases hp with
  | none => exact h
  | some hs => exact h.merge hs

/-! ## Traces and outcomes -/

/-- All paths that jump back those that jump in the other. -/
structure Jumps.Backs (a : Name) (j k : Jumps) : Prop where
  broken : PathBacks a j.broken k.broken
  continued : PathBacks a j.continued k.continued

/-- The walk returns and jumps at the same places in states that back those of the other, and
deletes nothing that the other does not. -/
structure Trace.Backs (a : Name) (t u : Trace) : Prop where
  exits : List.Forall₂ (fun e e' => e.state.Backs a e'.state) t.exits u.exits
  leading : t.leading.Backs a u.leading
  trailing : t.trailing.Backs a u.trailing
  deletions : t.deletions ⊆ u.deletions

/-- All states that a walk leaves behind back those of the other. -/
structure Outcome.Backs (a : Name) (o o' : Outcome) : Prop where
  next : PathBacks a o.next o'.next
  trace : o.trace.Backs a o'.trace

namespace Jumps.Backs

variable {j j' k k' : Jumps}

theorem none : Jumps.none.Backs a Jumps.none := ⟨.none, .none⟩

theorem merge (h : j.Backs a j') (h' : k.Backs a k') : (j.merge k).Backs a (j'.merge k') :=
  ⟨h.broken.mergePaths h'.broken, h.continued.mergePaths h'.continued⟩

end Jumps.Backs

namespace Trace.Backs

variable {t t' u u' : Trace}

theorem empty : (∅ : Trace).Backs a ∅ := ⟨.nil, .none, .none, List.Subset.refl _⟩

theorem ofExit {e e' : Exit} (h : e.state.Backs a e'.state) :
    (Trace.ofExit e).Backs a (.ofExit e') :=
  ⟨.cons h .nil, .none, .none, List.Subset.refl _⟩

theorem ofJumps {j j' : Jumps} (h : j.Backs a j') : (Trace.ofJumps j).Backs a (.ofJumps j') :=
  ⟨.nil, .none, h, List.Subset.refl _⟩

theorem ofDeletion (attr : Name) : (Trace.ofDeletion attr).Backs a (.ofDeletion attr) :=
  ⟨.nil, .none, .none, List.Subset.refl _⟩

theorem ofVerdict (v v' : Verdict) (x y : State) :
    (Trace.ofVerdict v x).Backs a (.ofVerdict v' y) := by
  rw [Trace.ofVerdict_eq v x, Trace.ofVerdict_eq v' y]
  exact ⟨.nil, .none, .none, List.Subset.refl _⟩

/-- Traces that back each other do so one after the other. -/
theorem append (h : t.Backs a t') (h' : u.Backs a u') : (t ++ u).Backs a (t' ++ u') where
  exits := List.rel_append h.exits h'.exits
  leading := h'.leading.merge h.leading
  trailing := h.trailing.merge h'.trailing
  deletions := List.append_subset.2 ⟨List.subset_append_of_subset_left _ h.deletions,
    List.subset_append_of_subset_right _ h'.deletions⟩

theorem jumps (h : t.Backs a t') : t.jumps.Backs a t'.jumps := h.leading.merge h.trailing

theorem withoutJumps (h : t.Backs a t') : t.withoutJumps.Backs a t'.withoutJumps :=
  ⟨h.exits, .none, .none, h.deletions⟩

theorem withoutExits (h : t.Backs a t') : t.withoutExits.Backs a t'.withoutExits :=
  ⟨.nil, h.leading, h.trailing, h.deletions⟩

end Trace.Backs

/-- From a state that backs another the first walk backs the second. -/
structure WalksBack (w w' : State → Outcome) : Prop where
  backs : ∀ {a x y}, State.Backs a x y → (w x).Backs a (w' y)

namespace Outcome.Backs

variable {o o' : Outcome} {w w' v v' : State → Outcome}

theorem goOn (h : x.Backs a y) : (Outcome.goOn x).Backs a (.goOn y) := ⟨.some h, .empty⟩

theorem stop {t u : Trace} (h : t.Backs a u) : (Outcome.stop t).Backs a (.stop u) := ⟨.none, h⟩

theorem check (h : x.Backs a y) (v v' : Verdict) : (Outcome.check v x).Backs a (.check v' y) :=
  ⟨.some (h.check v v'), .ofVerdict v v' x y⟩

/-- What follows backs what follows. -/
theorem andThen (h : o.Backs a o') (hw : WalksBack w w') :
    (o.andThen w).Backs a (o'.andThen w') := by
  obtain ⟨next, trace⟩ := o
  obtain ⟨next', trace'⟩ := o'
  obtain ⟨hnext, htrace⟩ := h
  cases hnext with
  | none => exact ⟨.none, htrace⟩
  | some hs => exact ⟨(hw.backs hs).next, htrace.append (hw.backs hs).trace⟩

/-- Branches back branches. -/
theorem either {r r' : Outcome} (h : o.Backs a o') (h' : r.Backs a r') :
    (o.either r).Backs a (o'.either r') :=
  ⟨h.next.mergePaths h'.next, h.trace.append h'.trace⟩

/-- Returns back each other behind a `finally` block. -/
theorem exitThrough (hw : WalksBack w w') {e e' : Exit} (h : e.state.Backs a e'.state) :
    (Outcome.exitThrough w e).Backs a (Outcome.exitThrough w' e') := by
  have hwalk := hw.backs h
  unfold Outcome.exitThrough
  obtain ⟨hnext, htrace⟩ := hwalk
  revert hnext htrace
  generalize w e.state = o, w' e'.state = o'
  obtain ⟨next, trace⟩ := o
  obtain ⟨next', trace'⟩ := o'
  intro hnext htrace
  cases hnext with
  | none => exact htrace
  | some hs => exact htrace.append (.ofExit hs)

/-- So do several, by induction along them. -/
theorem foldl_exitThrough (hw : WalksBack w w') {exits exits' : List Exit}
    (h : List.Forall₂ (fun e e' => e.state.Backs a e'.state) exits exits') {t t' : Trace}
    (ht : t.Backs a t') :
    (exits.foldl (fun t e => t ++ Outcome.exitThrough w e) t).Backs a
      (exits'.foldl (fun t e => t ++ Outcome.exitThrough w' e) t') := by
  induction h generalizing t t' with
  | nil => exact ht
  | cons he _ ih => exact ih (ht.append (exitThrough hw he))

theorem onPath (hw : WalksBack w w') (h : PathBacks a p p') :
    (Outcome.onPath w p).Backs a (Outcome.onPath w' p') := by
  cases h with
  | none => exact .stop .empty
  | some hs => exact hw.backs hs

/-- Jumps back each other behind a `finally` block. -/
theorem jumpsThrough (hw : WalksBack w w') {j j' : Jumps} (h : j.Backs a j') :
    (Outcome.jumpsThrough w j).Backs a (Outcome.jumpsThrough w' j') := by
  have hbroken := onPath hw h.broken
  have hcontinued := onPath hw h.continued
  have hboth := hbroken.trace.append hcontinued.trace
  exact ⟨hboth.exits, hboth.jumps, ⟨hbroken.next, hcontinued.next⟩, hboth.deletions⟩

/-- A region and its `finally` block. -/
theorem closeWith (h : o.Backs a o') (hw : WalksBack w w') :
    (o.closeWith w).Backs a (o'.closeWith w') := by
  have hexits : (o.exitsOut w).Backs a (o'.exitsOut w') :=
    foldl_exitThrough hw h.trace.exits .empty
  have hjumps := jumpsThrough hw (h.trace.append hexits).jumps
  have hthrough := onPath hw h.next
  refine ⟨hthrough.next, ?_⟩
  rw [trace_closeWith, trace_closeWith]
  exact ((h.trace.withoutExits.withoutJumps.append hexits.withoutJumps).append hjumps).append
    hthrough.trace

end Outcome.Backs

/-! ## Loops -/

namespace Loop

variable {l l' : Loop} (hbody : WalksBack l.body l'.body)

include hbody

/-- A round from a head that backs leaves one that backs. -/
theorem backs_round (h : x.Backs a y) : (l.round x).tested.Backs a (l'.round y).tested ∧
    (l.round x).next.Backs a (l'.round y).next ∧
    PathBacks a (l.round x).body.trace.jumps.broken (l'.round y).body.trace.jumps.broken ∧
    (l.round x).trace.Backs a (l'.round y).trace := by
  have htested : (l.round x).tested.Backs a (l'.round y).tested := h.check _ _
  have hround : (l.round x).body.Backs a (l'.round y).body := hbody.backs htested
  have hjumps := hround.trace.jumps
  refine ⟨htested, ?_, hjumps.broken,
    (Trace.Backs.ofVerdict _ _ _ _).append hround.trace.withoutJumps⟩
  exact htested.mergePath (hround.next.mergePaths hjumps.continued)

/-- One more round of the other loop leaves its head at rest as it is, so the next head backs it
too. -/
theorem backs_next {s : State} (h : x.Backs a (l'.rest s)) : (l.round x).next.Backs a (l'.rest s) :=
  (backs_round hbody h).2.1.mono_right fun b hb =>
    (State.mem_defined_iff_of_same (l'.same_next_rest s) b).2 hb

/-- Every head backs the head of the other loop at rest, so every round backs its last. -/
theorem backs_rest {s : State} (x : State) (h : x.Backs a (l'.rest s)) :
    (l.settle x).tested.Backs a (l'.lastRound s).tested ∧
    PathBacks a (l.settle x).broken (l'.lastRound s).body.trace.jumps.broken ∧
    List.Forall₂ (fun e e' => e.state.Backs a e'.state) (l.settle x).trace.exits
      (l'.lastRound s).trace.exits ∧
    (l.settle x).trace.deletions ⊆ (l'.lastRound s).trace.deletions := by
  induction x using l.settle_induction with
  | done x hsame =>
    obtain ⟨htested, -, hbroken, htrace⟩ := backs_round hbody h
    rw [settle_of_same l hsame]
    exact ⟨htested, hbroken, htrace.exits, htrace.deletions⟩
  | again x hsame ih =>
    obtain ⟨-, -, -, htrace⟩ := backs_round hbody h
    obtain ⟨htested, hbroken, hexits, hdeletions⟩ := ih (backs_next hbody h)
    rw [settle_of_not_same l hsame]
    exact ⟨htested, hbroken, hexits, List.append_subset.2 ⟨htrace.deletions, hdeletions⟩⟩

/-- A loop backs a loop, since both come to rest. -/
theorem backs_walk {orelse orelse' : State → Outcome} (horelse : WalksBack orelse orelse')
    (endless : Bool) : WalksBack (l.walk endless orelse) (l'.walk endless orelse') := by
  refine ⟨fun {a x y} h => ?_⟩
  obtain ⟨htested, hbroken, hexits, hdeletions⟩ :=
    backs_rest hbody x (h.mono_right (l'.rest_weakens y).defined)
  rw [← tested_settle] at htested
  rw [← broken_settle] at hbroken
  have htrace : (l.settle x).trace.Backs a (l'.settle y).trace := by
    refine ⟨?_, ?_, ?_, fun b hb => l'.mem_deletions_settle (hdeletions hb)⟩
    · rw [l'.exits_settle]
      exact hexits
    · rw [(l.jumps_settle x).1, (l'.jumps_settle y).1]
      exact .none
    · rw [(l.jumps_settle x).2, (l'.jumps_settle y).2]
      exact .none
  have hcompleted : (if endless then .stop ∅ else orelse (l.settle x).tested : Outcome).Backs a
      (if endless then .stop ∅ else orelse' (l'.settle y).tested) := by
    split
    · exact .stop .empty
    · exact horelse.backs htested
  exact ⟨hcompleted.next.mergePaths hbroken, htrace.append hcompleted.trace⟩

end Loop

/-! ## Bodies -/

namespace Scope

/-- An assignment counts in both walks, or in neither, or the receiver escapes in the first. -/
theorem backs_assign (m : Mode) (v v' : Verdict) (attrs : List Name) (h : x.Backs a y) :
    (assign m v attrs x).Backs a (assign m v' attrs y) := by
  -- Either assignment may be held back by its verdict, so the two sides need not gain together.
  have hleft : (define m attrs x).Backs a y := by
    unfold define
    split
    · exact h
    · exact h.mono_left ((State.Weakens.refl x).defineAll_right attrs).defined
        (State.LeadsTo.defineAll x attrs []).stays
  have hboth : (define m attrs x).Backs a (define m attrs y) := by
    unfold define
    split
    · exact h
    · exact h.defineAll attrs
  unfold assign
  cases hv : v.isSafe with
  | true =>
    cases hv' : v'.isSafe with
    | true => exact .goOn hboth
    | false => exact ⟨.some (hleft.mono_right (by simp)), .ofVerdict .safe v' x y⟩
  | false =>
    cases hv' : v'.isSafe with
    | true => exact ⟨.some (.of_escaped (escaped_check hv) _), .ofVerdict v .safe x y⟩
    | false => exact .check h v v'

/-- A call gives what it gives, unless the state that backs has escaped. -/
theorem backs_fold (call : BaseCall) (contributes contributes' : Bool) (h : x.Backs a y)
    (hcontributes : contributes' = true → contributes = true ∨ x.escaped = true) :
    (call.fold contributes x).Backs a (call.fold contributes' y) := by
  have hleft : (call.fold contributes x).Backs a y :=
    h.mono_left ((State.Weakens.refl x).fold_right call contributes).defined
      (State.LeadsTo.fold call contributes x []).stays
  cases contributes' with
  | false => rwa [BaseCall.fold_false]
  | true =>
    rcases hcontributes rfl with rfl | hx
    · cases call with
      | analyzed base facts => exact h.defineAll facts.alwaysDefined.toList
      | inert | missing _ | notABase _ => exact h
    · exact .of_escaped ((State.LeadsTo.fold call contributes x []).stays hx) _

/-- Arguments and call back each other. -/
theorem backs_judged (call : BaseCall) (v v' : AttrSet → Verdict) (m : Mode) (span : Span) :
    WalksBack (call.judged v m span) (call.judged v' m span) := by
  refine ⟨fun {a x y} h => ?_⟩
  have hfold := backs_fold call ((v x.defined).isSafe && !m.shielded)
    ((v' y.defined).isSafe && !m.shielded) (h.check (v x.defined) (v' y.defined)) fun hc => by
      cases hv : (v x.defined).isSafe with
      | true => exact .inl (by simp_all)
      | false => exact .inr (escaped_check hv)
  have htrace := Trace.Backs.ofVerdict (a := a) (v x.defined) (v' y.defined) x y
  unfold BaseCall.judged
  rw [Outcome.andThen_of_some rfl, Outcome.andThen_of_some rfl]
  cases call.escape? span with
  | none => exact ⟨.some hfold, htrace.append .empty⟩
  | some site =>
    have hcheck := Outcome.Backs.check hfold (.escapes site) (.escapes site)
    exact ⟨hcheck.next, htrace.append hcheck.trace⟩

/-- The walk of a body from a state that backs another backs the walk from that. -/
theorem comparison_backs (sc : Scope) : Comparison sc sc (fun _ => True) (fun _ => True)
    (fun _ _ => True) WalksBack where
  properties := rfl
  expr _ := trivial
  fixed _ _ := trivial
  inTurn _ _ := trivial
  goOn := ⟨.goOn⟩
  raise := ⟨fun _ => .stop .empty⟩
  exit _ := ⟨fun h => .stop (.ofExit h)⟩
  broken := ⟨fun h => .stop (.ofJumps ⟨.some h, .none⟩)⟩
  continued := ⟨fun h => .stop (.ofJumps ⟨.none, .some h⟩)⟩
  remove attr := ⟨fun h => ⟨.some (h.undefine attr), .ofDeletion attr⟩⟩
  check _ := ⟨fun h => .check h _ _⟩
  assign m attrs _ _ _ := ⟨backs_assign m _ _ attrs⟩
  call m span target _ _ := backs_judged (sc.baseCall target) _ _ m span
  andThen hw hx := ⟨fun h => (hw.backs h).andThen hx⟩
  either hw hx := ⟨fun h => (hw.backs h).either (hx.backs h)⟩
  loop endless _ hw hx := Loop.backs_walk hw hx endless
  region hw hx hy := ⟨fun h => ((hw.backs h).andThen hx).either
    (hy.backs (h.interrupted (hw.backs h).trace.deletions))⟩
  closeWith hw hx := ⟨fun h => (hw.backs h).closeWith hx⟩

theorem backs_block (sc : Scope) (m : Mode) (body : List Stmt) :
    WalksBack (sc.block m body) (sc.block m body) :=
  (comparison_backs sc).block body m (fun _ _ => trivial) fun _ _ => trivial

end Scope

/-! ## Jumps -/

/-- A path that says no more has faded. -/
theorem PathUnder.fades {P : State → Prop} (h : PathUnder P p p') : Fades p' p := by
  rcases h.cases with ⟨rfl, rfl⟩ | ⟨s, s', rfl, rfl, hs⟩
  · exact ⟨id, fun _ => id, id⟩
  · exact ⟨fun _ => rfl, fun a ha => surely_some.2 (hs.defined a (surely_some.1 ha)), hs.escaped⟩

theorem Jumps.Under.on {P : State → Prop} {j j' : Jumps} (h : j.Under P j') (f : Flow) :
    PathUnder P (j.on f) (j'.on f) := by
  cases f with
  | broke => exact h.broken
  | continued => exact h.continued
  | next | returned | raised | unfinished => exact trivial

theorem Jumps.Backs.on {j j' : Jumps} (h : j.Backs a j') (f : Flow) :
    PathBacks a (j.on f) (j'.on f) := by
  cases f with
  | broke => exact h.broken
  | continued => exact h.continued
  | next | returned | raised | unfinished => exact .none

namespace Scope

variable (sc : Scope) (m : Mode) (body : List Stmt)

/-- From a weaker state the jumps of a body say less. -/
theorem fades_jumps_block (h : x.Weakens y) (f : Flow) :
    Fades ((sc.block m body y).trace.jumps.on f) ((sc.block m body x).trace.jumps.on f) :=
  (((sc.under_block m body h).trace.jumps fun _ _ _ _ => trivial).on f).fades

/-- Whether a body jumps does not depend on the state. -/
theorem isSome_jumps_block (f : Flow) (x y : State) :
    ((sc.block m body x).trace.jumps.on f).isSome = true →
      ((sc.block m body y).trace.jumps.on f).isSome = true := by
  intro h
  have hboth := (sc.fades_jumps_block m body (.merge_left x y) f).isSome h
  have hunder := (((sc.under_block m body (State.Weakens.merge_right x y)).trace.jumps
    fun _ _ _ _ => trivial).on f)
  rcases hunder.cases with ⟨hnone, -⟩ | ⟨s, s', -, hsome, -⟩
  · simp [hnone] at hboth
  · simp [hsome]

/-- From a state that says no more than one in which a walk of the block jumps, the block jumps in
the same way in a state that says no more than that. -/
theorem jumps_again {f : Flow} {s t u : State} (ht : (sc.block m body s).trace.jumps.on f = some t)
    (hu : u.Weakens t) :
    ∃ t', (sc.block m body u).trace.jumps.on f = some t' ∧ t'.Weakens t := by
  obtain ⟨t', ht'⟩ := Option.isSome_iff_exists.1
    (sc.isSome_jumps_block m body f s u (by rw [ht]; rfl))
  have hlead := ((sc.stemsFrom_block m body u).trace.jumps.on f) t' ht'
  refine ⟨t', ht', fun a ha => ?_, fun hescaped => hlead.stays (hu.escaped hescaped)⟩
  by_contra hnot
  -- The attribute is missing in `u`, so the first walk backs the second.
  have hmissing : a ∉ u.defined := fun h => hnot (hu.defined a h)
  have hback : PathBacks a (some t) (some t') := by
    rw [← ht, ← ht']
    exact ((sc.backs_block m body).backs (State.Backs.of_not_mem s hmissing)).trace.jumps.on f
  cases hback with
  | some h =>
    rcases h ha with h | h
    · exact hnot h
    · exact hmissing (hlead.shrinks (hu.escaped h) a ha)

end Scope

end DefiniteInit
