import DefiniteInit.Proofs.Repetition
import DefiniteInit.Proofs.WalkLaws

/-!
# One pass through a `finally` block

Every path that leaves the region of a `try` statement runs its `finally` block once and then does
what it was about to: it returns, breaks out of the loop around the statement, goes on to the next
round, or runs on. If the block itself returns or jumps, that happens instead. `Outcome.closeOnce`
is the outcome of a region closed in this way.

`Outcome.closeWith` keeps to it with one exception. If the block jumps while a return passes through
it, the jump is taken for one of the region's and passes through the block a second time. All paths
then still end in states that say no more than they should (`Outcome.SaysNoMore`), by
`Scope.jumps_again`, but they may say less, and an escape may be noted that cannot happen. Where the
block does not jump while a return passes, the two agree (`Scope.final_passes_once`). It never does
outside of loops, or if it has no `break` or `continue` of its own (`Stmt.allJumpFree`).
-/

namespace DefiniteInit

/-! ## The paths that leave a region -/

/-- A path that leaves a region, with what it goes on to do. -/
structure Departure where
  state : State
  onward : State → Outcome

namespace Departure

/-- The initializer returns. -/
def returning (e : Exit) : Departure := ⟨e.state, fun s => .stop (.ofExit { e with state := s })⟩

/-- The path leaves the loop. -/
def breaking (s : State) : Departure := ⟨s, fun s => .stop (.ofJumps ⟨some s, none⟩)⟩

/-- The path goes on to the next round. -/
def continuing (s : State) : Departure := ⟨s, fun s => .stop (.ofJumps ⟨none, some s⟩)⟩

/-- The path runs on. -/
def runningOn (s : State) : Departure := ⟨s, .goOn⟩

/-- The path passes through the block and then does what it was about to. -/
def through (block : State → Outcome) (d : Departure) : Outcome := (block d.state).andThen d.onward

end Departure

namespace Outcome

/-- The paths that leave a region. -/
def departures (o : Outcome) : List Departure :=
  o.trace.exits.map .returning ++ o.trace.jumps.broken.toList.map .breaking ++
    o.trace.jumps.continued.toList.map .continuing ++ o.next.toList.map .runningOn

/-- Adds paths that pass through a block. -/
def sendThrough (block : State → Outcome) (o : Outcome) (ds : List Departure) : Outcome :=
  ds.foldl (fun o d => o.either (d.through block)) o

/-- The outcome of a region if every path that leaves it passes once through the block. -/
def closeOnce (region : Outcome) (block : State → Outcome) : Outcome :=
  (Outcome.stop region.trace.withoutExits.withoutJumps).sendThrough block region.departures

variable {w : State → Outcome}

/-- Exits sent through the block after others follow them in the trace. -/
theorem foldl_exitThrough_eq (exits : List Exit) (x : Trace) :
    exits.foldl (fun x e => x ++ exitThrough w e) x = x ++ exitsThrough w exits := by
  unfold exitsThrough
  induction exits generalizing x with
  | nil => exact (Trace.append_empty x).symm
  | cons e es ih =>
    rw [List.foldl_cons, List.foldl_cons, ih, ih (∅ ++ _), Trace.empty_append, Trace.append_assoc]

theorem through_returning (w : State → Outcome) (e : Exit) :
    (Departure.returning e).through w = .stop (exitThrough w e) := by
  unfold Departure.through Departure.returning exitThrough
  dsimp only
  generalize w e.state = o
  obtain ⟨next, trace⟩ := o
  cases next <;> rfl

/-- To send returns through the block one after the other leaves their traces. -/
theorem sendThrough_returning (exits : List Exit) (x : Trace) :
    (Outcome.stop x).sendThrough w (exits.map .returning) = .stop (x ++ exitsThrough w exits) := by
  rw [← foldl_exitThrough_eq]
  induction exits generalizing x with
  | nil => rfl
  | cons e es ih =>
    rw [List.map_cons, sendThrough, List.foldl_cons, through_returning]
    exact ih _

/-- A path that may have ended and that goes on in the same way from any state. -/
theorem sendThrough_toList (o : Outcome) (p : Option State) (onward : State → Outcome) :
    o.sendThrough w (p.toList.map fun s => ⟨s, onward⟩) =
      o.either ((onPath w p).andThen onward) := by
  cases p with
  | none =>
    show o = ⟨mergePaths o.next none, o.trace ++ ∅⟩
    rw [mergePaths_none_right, Trace.append_empty]
  | some s => rfl

/-- One pass through the block for each path, written out. -/
theorem closeOnce_eq (o : Outcome) (w : State → Outcome) : o.closeOnce w =
    (((Outcome.stop (o.trace.withoutExits.withoutJumps ++ o.exitsOut w)).either
      ((onPath w o.trace.jumps.broken).andThen fun s => .stop (.ofJumps ⟨some s, none⟩))).either
      ((onPath w o.trace.jumps.continued).andThen fun s => .stop (.ofJumps ⟨none, some s⟩))).either
      (onPath w o.next) := by
  have hsplit : ∀ (p : Outcome) (ds es : List Departure),
      p.sendThrough w (ds ++ es) = (p.sendThrough w ds).sendThrough w es :=
    fun _ _ _ => List.foldl_append
  rw [closeOnce, departures, hsplit, hsplit, hsplit, sendThrough_returning]
  unfold Departure.breaking Departure.continuing Departure.runningOn
  rw [sendThrough_toList, sendThrough_toList, sendThrough_toList, andThen_goOn]
  rfl

/-- A path that runs to the end of the block jumps there. -/
theorem andThen_jump (o : Outcome) (j : Option State → Jumps) (hj : j none = .none) :
    o.andThen (fun s => .stop (.ofJumps (j (some s)))) =
      .stop (o.trace ++ .ofJumps (j o.next)) := by
  obtain ⟨next, trace⟩ := o
  cases next with
  | none =>
    rw [hj]
    exact congrArg Outcome.stop (Trace.append_empty trace).symm
  | some s => rfl

/-- The jumps of a region that have passed once through the block. -/
def jumpsOnce (w : State → Outcome) (j : Jumps) : Trace :=
  (onPath w j.broken).trace ++ .ofJumps ⟨(onPath w j.broken).next, none⟩ ++
    ((onPath w j.continued).trace ++ .ofJumps ⟨none, (onPath w j.continued).next⟩)

/-- The trace of the single passes, in the order of the paths. -/
theorem trace_closeOnce (o : Outcome) (w : State → Outcome) : (o.closeOnce w).trace =
    o.trace.withoutExits.withoutJumps ++ o.exitsOut w ++ jumpsOnce w o.trace.jumps ++
      (onPath w o.next).trace := by
  rw [closeOnce_eq, andThen_jump _ (⟨·, none⟩) rfl, andThen_jump _ (⟨none, ·⟩) rfl, jumpsOnce,
    ← Trace.append_assoc]
  rfl

/-- The region goes on in the same state with both treatments. -/
theorem next_closeOnce (o : Outcome) (w : State → Outcome) :
    (o.closeOnce w).next = (o.closeWith w).next := by
  rw [closeOnce_eq, andThen_jump _ (⟨·, none⟩) rfl, andThen_jump _ (⟨none, ·⟩) rfl]
  rfl

end Outcome

/-! ## Jumps that pass through a block -/

namespace Fades

variable {p p' q : Option State}

theorem refl (p : Option State) : Fades p p := ⟨id, fun _ => id, id⟩

theorem none (q : Option State) : Fades none q := ⟨nofun, fun _ _ => nofun, nofun⟩

/-- Paths that fade to the same path do so when they are merged. -/
theorem merge (h : Fades p q) (h' : Fades p' q) : Fades (DefiniteInit.mergePaths p p') q where
  isSome hs := by
    rw [isSome_mergePaths, Bool.or_eq_true] at hs
    exact hs.elim h.isSome h'.isSome
  defined a ha := surely_mergePaths.2 ⟨h.defined a ha, h'.defined a ha⟩
  escaped hs := by
    rw [any_escaped_mergePaths, Bool.or_eq_true] at hs
    exact hs.elim h.escaped h'.escaped

theorem eq_none (h : Fades p Option.none) : p = Option.none :=
  Option.not_isSome_iff_eq_none.1 fun hs => Bool.false_ne_true (h.isSome hs)

/-- A path that fades says no more. -/
theorem weakens {s t : State} (h : Fades (some s) (some t)) : t.Weakens s :=
  ⟨fun a ha => surely_some.1 (h.defined a (surely_some.2 ha)), h.escaped⟩

theorem of_weakens {s t : State} (h : t.Weakens s) : Fades (some s) (some t) :=
  ⟨fun _ => rfl, fun a ha => surely_some.2 (h.defined a (surely_some.1 ha)), h.escaped⟩

end Fades

namespace Trace

variable {x y : Trace} {f : Flow} {q : Option State}

/-- Jumps of two traces fade where each of them does. -/
theorem fades_append (hx : Fades (x.jumps.on f) q) (hy : Fades (y.jumps.on f) q) :
    Fades ((x ++ y).jumps.on f) q := by
  rw [jumps, Jumps.on_merge] at hx hy
  rw [on_jumps_append]
  exact .merge (.merge (.trans (.merge_left _ _) hy) (.trans (.merge_left _ _) hx))
    (.merge (.trans (.merge_right _ _) hx) (.trans (.merge_right _ _) hy))

end Trace

namespace Outcome

variable {o : Outcome} {w : State → Outcome} {f : Flow} {q : Option State}

/-- A return that passes through the block adds no jump to those of the block. -/
theorem jumps_exitThrough (w : State → Outcome) (e : Exit) :
    (exitThrough w e).jumps = (w e.state).trace.jumps := by
  unfold exitThrough
  dsimp only
  split
  · rfl
  · show (Jumps.none.merge _).merge (Jumps.merge _ Jumps.none) = _
    rw [Jumps.none_merge, Jumps.merge_none]
    rfl

/-- The jumps of a block through which returns are sent fade where those of each pass do. -/
theorem fades_jumps_exitsOut (h : ∀ e ∈ o.trace.exits, Fades ((w e.state).trace.jumps.on f) q) :
    Fades ((o.exitsOut w).jumps.on f) q := by
  refine exitsOut_induction (P := fun x => Fades (x.jumps.on f) q) ?_ Trace.fades_append
    fun e he => ?_
  · cases f <;> exact .none _
  · rw [jumps_exitThrough]
    exact h e he

/-- The jumps of one of these passes fade in those of all. -/
theorem fades_of_mem_exits {e : Exit} (he : e ∈ o.trace.exits) :
    Fades ((w e.state).trace.jumps.on f) ((o.exitsOut w).jumps.on f) := by
  obtain ⟨before, after, hsplit⟩ := List.append_of_mem he
  have hout : o.exitsOut w = exitsThrough w before ++ exitThrough w e ++ exitsThrough w after := by
    rw [exitsOut, hsplit, exitsThrough, List.foldl_append, List.foldl_cons, foldl_exitThrough_eq]
    rfl
  rw [hout, ← jumps_exitThrough]
  exact (Trace.fades_append_right _ _ f).trans (Trace.fades_append_left _ _ f)

end Outcome

/-! ## Saying no more -/

/-- The trace of a walk from `s` that notes these escapes says no more than `y`: for each return of
`y` it has one at the same place, and for the jumps of each kind it has such jumps, in states that
say no more. If `y` notes an escape, this walk does or the receiver had escaped before it. -/
structure Trace.SaysNoMore (s : State) (l : List Escape) (x y : Trace) : Prop where
  exits : ∀ e ∈ y.exits, ∃ e' ∈ x.exits,
    e'.state.Weakens e.state ∧ e'.kind = e.kind ∧ e'.span = e.span
  jumps : ∀ f, Fades (y.jumps.on f) (x.jumps.on f)
  flagged : y.escapes ≠ [] → Flagged s l

/-- The outcome of a walk from `s` says no more than `p`. -/
structure Outcome.SaysNoMore (s : State) (o p : Outcome) : Prop where
  next : Fades p.next o.next
  trace : o.trace.SaysNoMore s o.trace.escapes p.trace

/-- An exit that says more has one below it. -/
theorem Exit.Under.exists_mem {P : State → Prop} {exits exits' : List Exit}
    (h : List.Forall₂ (Exit.Under P) exits exits') : ∀ e' ∈ exits', ∃ e ∈ exits, e.Under P e' := by
  induction h with
  | nil => exact nofun
  | cons he _ ih =>
    refine List.forall_mem_cons.2 ⟨⟨_, List.mem_cons_self, he⟩, fun e' he' => ?_⟩
    obtain ⟨e, hmem, hunder⟩ := ih e' he'
    exact ⟨e, List.mem_cons_of_mem _ hmem, hunder⟩

namespace Trace.SaysNoMore

variable {s t : State} {l l' : List Escape} {x y z : Trace}

theorem refl (s : State) (x : Trace) : x.SaysNoMore s x.escapes x :=
  ⟨fun e he => ⟨e, he, .refl _, rfl, rfl⟩, fun _ => .refl _, .inr⟩

theorem empty (s : State) (l : List Escape) (x : Trace) : x.SaysNoMore s l ∅ :=
  ⟨nofun, fun f => by cases f <;> exact .none _, fun h => absurd rfl h⟩

/-- A trace that says no more than either of two says no more than both. -/
theorem append (hy : x.SaysNoMore s l y) (hz : x.SaysNoMore s l z) : x.SaysNoMore s l (y ++ z) where
  exits e he := (List.mem_append.1 he).elim (hy.exits e) (hz.exits e)
  jumps f := fades_append (hy.jumps f) (hz.jumps f)
  flagged h := by
    rw [escapes_append, ne_eq, List.append_eq_nil_iff, not_and_or] at h
    exact h.elim hy.flagged hz.flagged

/-- What says no more than a part says no more than the whole. -/
theorem append_left (h : x.SaysNoMore s l z) (y : Trace) : (x ++ y).SaysNoMore s l z where
  exits e he := by
    obtain ⟨e', he', hsame⟩ := h.exits e he
    exact ⟨e', List.mem_append_left _ he', hsame⟩
  jumps f := (h.jumps f).trans (fades_append_left x y f)
  flagged := h.flagged

theorem append_right (h : y.SaysNoMore s l z) (x : Trace) : (x ++ y).SaysNoMore s l z where
  exits e he := by
    obtain ⟨e', he', hsame⟩ := h.exits e he
    exact ⟨e', List.mem_append_right _ he', hsame⟩
  jumps f := (h.jumps f).trans (fades_append_right x y f)
  flagged := h.flagged

/-- The walk may start further back and note more. -/
theorem back (h : x.SaysNoMore t l y) (hlead : s.LeadsTo l' t) (hl : l ⊆ l') :
    x.SaysNoMore s l' y :=
  ⟨h.exits, h.jumps, fun hne => (h.flagged hne).back hlead hl⟩

/-- Walks that say no more leave traces that say no more. -/
theorem of_under {P : State → Prop} (hP : Lasts P) (h : x.Under P s l y) : x.SaysNoMore s l y where
  exits e he := by
    obtain ⟨e', he', hsame⟩ := Exit.Under.exists_mem h.exits e he
    exact ⟨e', he', hsame.state.toWeakens, hsame.kind, hsame.span⟩
  jumps f := ((h.jumps hP).on f).fades
  flagged := h.flagged

end Trace.SaysNoMore

namespace Scope

variable {sc : Scope} {m : Mode} {final : List Stmt} {o : Outcome} {s : State} {l : List Escape}
  {p q : Option State}

/-- If a path fades, the block sent it says no more. -/
theorem saysNoMore_onPath (h : Fades p q) (hq : Leads s l q)
    (hl : (Outcome.onPath (sc.block m final) q).trace.escapes ⊆ l) :
    Fades (Outcome.onPath (sc.block m final) p).next (Outcome.onPath (sc.block m final) q).next ∧
    (Outcome.onPath (sc.block m final) q).trace.SaysNoMore s l
      (Outcome.onPath (sc.block m final) p).trace := by
  cases p with
  | none => exact ⟨.none _, .empty _ _ _⟩
  | some t =>
    obtain ⟨u, rfl⟩ := Option.isSome_iff_exists.1 (h.isSome rfl)
    have hunder := sc.under_block m final h.weakens
    have htrace := Trace.SaysNoMore.of_under (fun _ _ _ _ => trivial) hunder.trace
    exact ⟨hunder.next.fades, htrace.back (hq u rfl) hl⟩

/-- The jumps that the block makes while returns pass through it are made again when they pass
through it themselves. -/
theorem fades_exitsOut (o : Outcome) (f : Flow) :
    Fades ((o.exitsOut (sc.block m final)).jumps.on f)
      ((o.jumpsOut (sc.block m final)).jumps.on f) := by
  refine Outcome.fades_jumps_exitsOut fun e he => ?_
  cases ht : (sc.block m final e.state).trace.jumps.on f with
  | none => exact .none _
  | some t =>
    have hregion : Fades (some t) ((o.trace ++ o.exitsOut (sc.block m final)).jumps.on f) := by
      rw [← ht]
      exact (Outcome.fades_of_mem_exits he).trans (Trace.fades_append_right _ _ f)
    -- The jump is merged with the region's, and from that state the block jumps in this way again.
    obtain ⟨u, hu⟩ := Option.isSome_iff_exists.1 (hregion.isSome rfl)
    rw [hu] at hregion
    obtain ⟨t', ht', hweakens⟩ := sc.jumps_again m final ht hregion.weakens
    have hagain : Fades (some t) ((Outcome.onPath (sc.block m final)
        ((o.trace ++ o.exitsOut (sc.block m final)).jumps.on f)).trace.jumps.on f) := by
      rw [hu]
      show Fades _ ((sc.block m final u).trace.jumps.on f)
      rw [ht']
      exact .of_weakens hweakens
    rw [Outcome.jumpsOut, Outcome.on_jumpsThrough]
    refine hagain.trans (.trans ?_ (.merge_left _ _))
    cases f with
    | broke => exact Trace.fades_append_left _ _ _
    | continued => exact Trace.fades_append_right _ _ _
    | next | returned | raised | unfinished => exact .refl _

/-- Jumps that fade before they pass through the block have faded after it. -/
theorem saysNoMore_jumpsThrough {j k : Jumps} (hbroken : Fades j.broken k.broken)
    (hcontinued : Fades j.continued k.continued) (hk : k.StemFrom s l)
    (hl : (Outcome.jumpsThrough (sc.block m final) k).escapes ⊆ l) :
    (Outcome.jumpsThrough (sc.block m final) k).SaysNoMore s l
      (Outcome.jumpsOnce (sc.block m final) j) := by
  obtain ⟨hbnext, hbtrace⟩ := saysNoMore_onPath hbroken hk.broken
    (List.Subset.trans (List.subset_append_left _ _) hl)
  obtain ⟨hcnext, hctrace⟩ := saysNoMore_onPath hcontinued hk.continued
    (List.Subset.trans (List.subset_append_right _ _) hl)
  -- What either path leaves behind is part of what both leave.
  have hboth : ∀ {y : Trace}, ((Outcome.onPath (sc.block m final) k.broken).trace ++
      (Outcome.onPath (sc.block m final) k.continued).trace).SaysNoMore s l y →
      (Outcome.jumpsThrough (sc.block m final) k).SaysNoMore s l y := by
    intro y h
    refine ⟨h.exits, fun f => ?_, h.flagged⟩
    rw [Outcome.on_jumpsThrough]
    exact (h.jumps f).trans (.merge_left _ _)
  refine .append
    (.append (hboth (hbtrace.append_left _)) ⟨nofun, fun f => ?_, fun h => absurd rfl h⟩)
    (.append (hboth (hctrace.append_right _)) ⟨nofun, fun f => ?_, fun h => absurd rfl h⟩)
  · rw [Outcome.on_jumpsThrough]
    cases f with
    | broke => exact hbnext.trans (.merge_right _ _)
    | continued | next | returned | raised | unfinished => exact .none _
  · rw [Outcome.on_jumpsThrough]
    cases f with
    | continued => exact hcnext.trans (.merge_right _ _)
    | broke | next | returned | raised | unfinished => exact .none _

/-- A region closed by its `finally` block says no more than if every path passed once. -/
theorem saysNoMore_closeWith (ho : o.StemsFrom s) :
    (o.closeWith (sc.block m final)).SaysNoMore s (o.closeOnce (sc.block m final)) where
  next := by
    rw [Outcome.next_closeOnce]
    exact .refl _
  trace := by
    have hstart := State.LeadsTo.refl s (o.closeWith (sc.block m final)).trace.escapes
    have hregion := (Trace.SaysNoMore.refl s o.trace.withoutExits.withoutJumps).back hstart
      (Outcome.escapes_subset_closeWith o _)
    -- The returns are noted as they have passed. The block's jumps come out of the second pass.
    have hexits : (o.closeWith (sc.block m final)).trace.SaysNoMore s
        (o.closeWith (sc.block m final)).trace.escapes (o.exitsOut (sc.block m final)) := by
      refine ⟨fun e he => ⟨e, ?_, .refl _, rfl, rfl⟩, fun f => ?_,
        fun hne => .inr fun hnil => hne ?_⟩
      · exact List.mem_append_left _ (List.mem_append_left _ (List.mem_append_right _ he))
      · exact (fades_exitsOut o f).trans
          ((Trace.fades_append_right _ _ f).trans (Trace.fades_append_left _ _ f))
      · exact List.eq_nil_of_subset_nil (hnil ▸ Outcome.escapes_exitsOut_subset_closeWith o _)
    have hjumps := saysNoMore_jumpsThrough (Trace.fades_append_left _ _ .broke)
      (Trace.fades_append_left _ _ .continued)
      (Outcome.stemFrom_jumps_closeWith (sc.stemsFrom_block m final) ho)
      (Outcome.escapes_jumpsOut_subset_closeWith o _)
    have hthrough := (Trace.SaysNoMore.refl s (Outcome.onPath (sc.block m final) o.next).trace).back
      hstart (List.subset_append_right _ _)
    rw [Outcome.trace_closeOnce]
    exact (((hregion.append_left _ |>.append_left _ |>.append_left _).append hexits).append
      ((hjumps.append_right _).append_left _)).append (hthrough.append_right _)

end Scope

/-! ## Traces without jumps -/

/-- Where paths meet there is none only if there was none. -/
theorem mergePaths_eq_none {p q : Option State} : mergePaths p q = none ↔ p = none ∧ q = none := by
  cases p <;> simp [mergePaths]

theorem Jumps.merge_eq_none {j k : Jumps} : j.merge k = .none ↔ j = .none ∧ k = .none := by
  obtain ⟨_, _⟩ := j
  obtain ⟨_, _⟩ := k
  simp only [Jumps.merge, Jumps.none, Jumps.mk.injEq, mergePaths_eq_none]
  tauto

/-- Two traces have no jumps exactly if neither has. -/
theorem Trace.jumps_append_eq_none {x y : Trace} :
    (x ++ y).jumps = .none ↔ x.jumps = .none ∧ y.jumps = .none := by
  show ((y.leading.merge x.leading).merge (x.trailing.merge y.trailing)) = .none ↔ _
  simp only [jumps, Jumps.merge_eq_none]
  tauto

/-- No path jumps. -/
def Outcome.Jumpless (o : Outcome) : Prop := o.trace.jumps = .none

theorem Trace.withoutJumps_append (x y : Trace) :
    (x ++ y).withoutJumps = x.withoutJumps ++ y.withoutJumps := rfl

namespace Outcome

variable {o : Outcome} {w : State → Outcome}

/-- If the block does not jump while a return passes through it, the returns bring no jumps. -/
theorem jumps_exitsOut (h : ∀ e ∈ o.trace.exits, (w e.state).Jumpless) :
    (o.exitsOut w).jumps = .none :=
  exitsOut_induction (P := fun x => x.jumps = .none) rfl
    (fun hx hy => Trace.jumps_append_eq_none.2 ⟨hx, hy⟩)
    fun e he => (jumps_exitThrough w e).trans (h e he)

/-- Only the jumps of the region then pass through the block. -/
theorem jumps_append_exitsOut (h : (o.exitsOut w).jumps = .none) :
    (o.trace ++ o.exitsOut w).jumps = o.trace.jumps := by
  obtain ⟨hleading, htrailing⟩ := Jumps.merge_eq_none.1 h
  show ((o.exitsOut w).leading.merge o.trace.leading).merge
    (o.trace.trailing.merge (o.exitsOut w).trailing) = _
  rw [hleading, htrailing, Jumps.none_merge, Jumps.merge_none]
  rfl

end Outcome

/-! ## Agreement -/

/-- The outcomes note the same returns, escapes and deletions, go on in the same state, and jump in
states that say the same. -/
structure Outcome.Agrees (o p : Outcome) : Prop where
  next : o.next = p.next
  exits : o.trace.exits = p.trace.exits
  escapes : o.trace.escapes = p.trace.escapes
  deletions : o.trace.deletions = p.trace.deletions
  jumps : ∀ f, Option.Rel (fun s t => s.same t = true) (o.trace.jumps.on f) (p.trace.jumps.on f)

/-- Paths that fade to each other are the same. -/
theorem Fades.rel_same {p q : Option State} (h : Fades p q) (h' : Fades q p) :
    Option.Rel (fun s t => s.same t = true) p q := by
  cases p with
  | none =>
    rw [h'.eq_none]
    exact .none
  | some s =>
    obtain ⟨t, rfl⟩ := Option.isSome_iff_exists.1 (h.isSome rfl)
    have hescaped : s.escaped = t.escaped :=
      Bool.eq_iff_iff.2 ⟨h.weakens.escaped, h'.weakens.escaped⟩
    have hmembers : s.defined.sameMembers t.defined = true :=
      AttrSet.sameMembers_eq_true.2 fun a => ⟨h'.weakens.defined a, h.weakens.defined a⟩
    exact .some (by rw [State.same, hmembers, hescaped, beq_self_eq_true]; rfl)

namespace Outcome

variable {o : Outcome} {w : State → Outcome}

/-- But for jumps, both treatments of jumps leave the same trace. -/
theorem withoutJumps_jumpsOnce (w : State → Outcome) (j : Jumps) :
    (jumpsOnce w j).withoutJumps = (jumpsThrough w j).withoutJumps := by
  have hjumps : ∀ k, (Trace.ofJumps k).withoutJumps = ∅ := fun _ => rfl
  simp only [jumpsOnce, Trace.withoutJumps_append, hjumps, Trace.append_empty]
  rfl

/-- Jumps that are merged before the block fade in those that are merged after it. -/
theorem fades_jumpsThrough (w : State → Outcome) (j : Jumps) (f : Flow) :
    Fades ((jumpsThrough w j).jumps.on f) ((jumpsOnce w j).jumps.on f) := by
  have hbroken := Trace.fades_append_left ((onPath w j.broken).trace ++
    .ofJumps ⟨(onPath w j.broken).next, none⟩) ((onPath w j.continued).trace ++
    .ofJumps ⟨none, (onPath w j.continued).next⟩) f
  have hcontinued := Trace.fades_append_right ((onPath w j.broken).trace ++
    .ofJumps ⟨(onPath w j.broken).next, none⟩) ((onPath w j.continued).trace ++
    .ofJumps ⟨none, (onPath w j.continued).next⟩) f
  rw [on_jumpsThrough]
  refine .merge (Trace.fades_append ((Trace.fades_append_left _ _ f).trans hbroken)
    ((Trace.fades_append_left _ _ f).trans hcontinued)) ?_
  cases f with
  | broke => exact (Trace.fades_append_right _ _ .broke).trans hbroken
  | continued => exact (Trace.fades_append_right _ _ .continued).trans hcontinued
  | next | returned | raised | unfinished => exact .none _

/-- If the block does not jump while a return passes through it, what else happens is what happens
if every path passes once. -/
theorem withoutJumps_closeWith (h : (o.exitsOut w).jumps = .none) :
    (o.closeWith w).trace.withoutJumps = (o.closeOnce w).trace.withoutJumps := by
  rw [trace_closeWith, jumpsOut, jumps_append_exitsOut h, trace_closeOnce]
  simp only [Trace.withoutJumps_append, withoutJumps_jumpsOnce]
  rfl

/-- If the block does not jump while a return passes through it, each jump that leaves the region
does so in the state that it has if it passes once. -/
theorem fades_closeWith (h : (o.exitsOut w).jumps = .none) (f : Flow) :
    Fades ((o.closeWith w).trace.jumps.on f) ((o.closeOnce w).trace.jumps.on f) := by
  rw [trace_closeWith, jumpsOut, jumps_append_exitsOut h, trace_closeOnce]
  refine Trace.fades_append (Trace.fades_append (Trace.fades_append ?_ ?_) ?_)
    (Trace.fades_append_right _ _ f)
  · cases f <;> exact .none _
  · cases f <;> exact .none _
  · exact (fades_jumpsThrough w o.trace.jumps f).trans
      ((Trace.fades_append_right _ _ f).trans (Trace.fades_append_left _ _ f))

end Outcome

/-- A region whose `finally` block does not jump while a return passes through it is closed as if
every path passed once. -/
theorem Scope.agrees_closeOnce {sc : Scope} {m : Mode} {final : List Stmt} {o : Outcome} {s : State}
    (ho : o.StemsFrom s) (h : ∀ e ∈ o.trace.exits, (sc.block m final e.state).Jumpless) :
    (o.closeWith (sc.block m final)).Agrees (o.closeOnce (sc.block m final)) := by
  have hnone := Outcome.jumps_exitsOut h
  obtain ⟨hexits, -, -, hescapes, hdeletions⟩ :=
    Trace.mk.inj (Outcome.withoutJumps_closeWith hnone)
  exact ⟨(Outcome.next_closeOnce o _).symm, hexits, hescapes, hdeletions, fun f =>
    (Outcome.fades_closeWith hnone f).rel_same ((saysNoMore_closeWith ho).trace.jumps f)⟩

/-! ## Blocks that do not jump -/

namespace Outcome.Jumpless

variable {o p : Outcome} {w : State → Outcome}

theorem check (v : Verdict) (s : State) : (Outcome.check v s).Jumpless := by
  show (Trace.ofVerdict v s).jumps = .none
  rw [Trace.ofVerdict_eq]
  rfl

/-- Branches that do not jump do not. -/
theorem either (ho : o.Jumpless) (hp : p.Jumpless) : (o.either p).Jumpless :=
  Trace.jumps_append_eq_none.2 ⟨ho, hp⟩

/-- Walks in turn that do not jump do not. -/
theorem andThen (ho : o.Jumpless) (hw : ∀ t, (w t).Jumpless) : (o.andThen w).Jumpless := by
  unfold Outcome.andThen
  split
  · exact ho
  · exact Trace.jumps_append_eq_none.2 ⟨ho, hw _⟩

/-- A region that does not jump and whose `finally` block does not, does not jump. -/
theorem closeWith (ho : o.Jumpless) (hw : ∀ t, (w t).Jumpless) : (o.closeWith w).Jumpless := by
  have hexits := jumps_exitsOut fun e (_ : e ∈ o.trace.exits) => hw e.state
  have hthrough : (onPath w o.next).Jumpless := by
    cases o.next with
    | none => rfl
    | some t => exact hw t
  rw [Jumpless, trace_closeWith, jumpsOut, jumps_append_exitsOut hexits, ho]
  exact Trace.jumps_append_eq_none.2 ⟨rfl, hthrough⟩

/-- A loop takes the jumps of its body, so that only those of its `else` block are left. -/
theorem walk (l : Loop) (infinite : Bool) (hw : ∀ t, (w t).Jumpless) (s : State) :
    (l.walk infinite w s).Jumpless := by
  refine Trace.jumps_append_eq_none.2 ⟨Jumps.merge_eq_none.2 (l.jumps_settle s), ?_⟩
  cases infinite with
  | false => exact hw _
  | true => rfl

end Outcome.Jumpless

namespace Scope

variable (sc : Scope)

theorem jumpless_assign (m : Mode) (v : Verdict) (attrs : List Name) (s : State) :
    (assign m v attrs s).Jumpless := by
  unfold assign
  split
  · rfl
  · exact .check v s

theorem jumpless_judged (call : BaseCall) (v : AttrSet → Verdict) (m : Mode) (span : Span)
    (s : State) : (call.judged v m span s).Jumpless := by
  refine .andThen (.check _ s) fun t => ?_
  cases call.escape? span with
  | none => rfl
  | some site => exact .check _ _

/-- Code that may not jump out of the loop around it does not. -/
theorem law_jumpless : WalkLaw sc (fun _ => True)
    fun _ jumps w => jumps = false → ∀ s, (w s).Jumpless where
  goOn _ _ _ _ := rfl
  raise _ _ _ _ := rfl
  exit _ _ _ _ _ := rfl
  broken _ h := nomatch h
  continued _ h := nomatch h
  remove _ _ _ _ _ _ := rfl
  check _ _ v _ s := .check (v s.defined) s
  assign _ m _ _ attrs _ _ s := jumpless_assign m _ attrs s
  call m _ v span target _ s := jumpless_judged (sc.baseCall target) v m span s
  andThen hw hx h s := (hw h s).andThen (hx h)
  either hw hx h s := (hw h s).either (hx h s)
  -- The jumps of the body stay inside the loop.
  loop _ infinite _ hx h s := .walk _ infinite (hx h) s
  region hw hx hy h s := ((hw h s).andThen (hx h)).either (hy h _)
  closeWith hw hx h s := (hw h s).closeWith (hx h)

/-- A statement jumps only in a loop, and only if a jump stands in it outside of loops of its own.
-/
theorem jumpless_stmt (st : Stmt) (m : Mode) (h : m.inLoop = true → st.isJumpFree = true)
    (s : State) : (sc.stmt m st s).Jumpless :=
  sc.law_jumpless.stmt st m false (fun _ _ => trivial) (fun _ => h) rfl s

/-- Outside of loops, and without a `break` or `continue` of its own, a block does not jump. -/
theorem jumpless_block (ss : List Stmt) (m : Mode)
    (h : m.inLoop = true → Stmt.allJumpFree ss = true) (s : State) :
    (sc.block m ss s).Jumpless :=
  sc.law_jumpless.block ss m false (fun _ _ => trivial) (fun _ => h) rfl s

/-! ## One pass -/

/-- A `try` statement with a `finally` block goes on where it does if every path that leaves its
region passes once through the block, and says no more than that. It says the same unless the block
jumps while a return of the region passes through it, so in particular outside of loops and if the
block has no `break` or `continue` of its own. -/
theorem final_passes_once (sc : Scope) (m : Mode) (body : List Stmt) (hs : List Handler)
    (orelse final : List Stmt) (span : Span) (s : State) (hfinal : final.isEmpty = false)
    (region o once : Outcome) (hregion : region = sc.region m body hs orelse s)
    (ho : o = sc.stmt m (.tryBlock body hs orelse final span) s)
    (honce : once = region.closeOnce (sc.block m final)) :
    o.next = once.next ∧ o.SaysNoMore s once ∧
      ((∀ e ∈ region.trace.exits, (sc.block m final e.state).Jumpless) → o.Agrees once) ∧
      ((m.inLoop = true → Stmt.allJumpFree final = true) → o.Agrees once) := by
  have hstems : region.StemsFrom s := hregion ▸ sc.stemsFrom_region m body hs orelse s
  have hclosed : o = region.closeWith (sc.block m final) := by
    rw [ho, stmt_tryBlock, hfinal, hregion]
    rfl
  subst hclosed honce
  refine ⟨(Outcome.next_closeOnce region _).symm, saysNoMore_closeWith hstems,
    agrees_closeOnce hstems, fun hfree => ?_⟩
  exact agrees_closeOnce hstems fun e _ => sc.jumpless_block final m hfree e.state

/-- The scope of a class that has no bases. -/
def alone : Scope := Graph.scope .single ∅ .default ⟨0⟩

/-- Returns, breaks or continues. -/
def anyWayOut : List Stmt :=
  [.branch (.var .param ⟨8⟩) [.leave none]
    [.branch (.var .param ⟨9⟩) [.breakLoop .empty] [.continueLoop .empty]]]

/-- A region in a loop that is left by a return, a `break` and a `continue`, with a block that
deletes an attribute. -/
theorem final_passes_once_anyWayOut :
    (alone.region (Mode.loop .top) anyWayOut [] [] ⟨.ofList [⟨30⟩], false⟩).trace.exits =
        [⟨⟨.ofList [⟨30⟩], false⟩, .returned, .empty⟩] ∧
      (alone.region (Mode.loop .top) anyWayOut [] [] ⟨.ofList [⟨30⟩], false⟩).trace.jumps =
        ⟨some ⟨.ofList [⟨30⟩], false⟩, some ⟨.ofList [⟨30⟩], false⟩⟩ ∧
      (alone.stmt (Mode.loop .top) (.guarded anyWayOut [] [] [.delAttr ⟨30⟩])
        ⟨.ofList [⟨30⟩], false⟩).Agrees
        ((alone.region (Mode.loop .top) anyWayOut [] [] ⟨.ofList [⟨30⟩], false⟩).closeOnce
          (alone.block (Mode.loop .top) [.delAttr ⟨30⟩])) := by
  refine ⟨by decide +kernel, by decide +kernel, ?_⟩
  exact (final_passes_once _ _ _ _ _ _ _ _ rfl _ _ _ rfl rfl rfl).2.2.2 fun _ => rfl

/-- Deletes an attribute and breaks, or reads it. -/
def breakingFinal : List Stmt :=
  [.branch (.var .param ⟨8⟩) [.delAttr ⟨30⟩, .breakLoop .empty]
    [.run (.callNamed ⟨12⟩ [.selfAttr ⟨30⟩])]]

/-- Such a block, through which a return passes. -/
def returningThrough : List Stmt :=
  [.setAttr ⟨30⟩ (.literal .none),
    .loopWhile (.literal (.bool true)) [.guarded [.leave none] [] [] breakingFinal] [],
    .setAttr ⟨30⟩ (.literal .none)]

/-- The block breaks after the deletion, and passes through itself once more. There the other
branch reads an attribute that is not assigned, and the receiver escapes. In the summary the
attribute is lost, although every path that completes has assigned it. -/
theorem not_final_passes_once_breakingFinal :
    ¬(alone.stmt (Mode.loop .top) (.guarded [.leave none] [] [] breakingFinal)
        ⟨.ofList [⟨30⟩], false⟩).Agrees
        ((alone.region (Mode.loop .top) [.leave none] [] [] ⟨.ofList [⟨30⟩], false⟩).closeOnce
          (alone.block (Mode.loop .top) breakingFinal)) ∧
      Summary.ofOutcome (alone.block .top returningThrough .start) false = ⟨∅, true, 2, none⟩ ∧
      Summary.ofOutcome (alone.blockWith (fun o _ w => o.closeOnce w) .top returningThrough .start)
        false = ⟨.ofList [⟨30⟩], false, 2, none⟩ :=
  ⟨fun h => absurd h.escapes (by decide +kernel), by decide +kernel, by decide +kernel⟩

end Scope

end DefiniteInit
