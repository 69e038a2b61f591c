import DefiniteInit.Proofs.Monotonicity

/-!
# Walks that note no escape

Two scopes that agree on all that is safe for the first walk a body alike until the first escape: if
the walk by the first, from a state where the receiver has not escaped, notes none, then the walk by
the second is the same (`AgreeUntilEscape`, `Scope.comparison_silent`).
-/

namespace DefiniteInit

variable {s t : State} {l : List Escape}

/-- As long as nothing is noted, the receiver does not escape. -/
theorem State.LeadsTo.not_escaped (h : s.LeadsTo l t) (hs : s.escaped = false) (hl : l = []) :
    t.escaped = false := by
  rw [Bool.eq_false_iff]
  intro ht
  rcases h.cause ht with he | hne
  · simp [hs] at he
  · exact hne hl

/-- Where the receiver has not escaped, only a verdict that is safe leaves nothing behind. -/
theorem Verdict.eq_safe_of_silent {v : Verdict} (hs : s.escaped = false)
    (h : (Trace.ofVerdict v s).escapes = []) : v = .safe := by
  cases v with
  | safe => rfl
  | escapes site | aliases site => simp [Trace.ofVerdict, Verdict.site?, hs] at h

/-- A walk stems from where it starts, and if it notes no escape the other walk is the same. -/
structure AgreeUntilEscape (w w' : State → Outcome) : Prop where
  stems : ∀ s, (w s).StemsFrom s
  eq : ∀ {s}, s.escaped = false → (w s).trace.escapes = [] → w' s = w s

namespace AgreeUntilEscape

variable {w w' x x' y y' : State → Outcome}

/-- Walks in turn that note nothing agree if each does. -/
theorem andThen_eq (hw : AgreeUntilEscape w w') (hx : AgreeUntilEscape x x')
    (hs : s.escaped = false) (h : ((w s).andThen x).trace.escapes = []) :
    (w' s).andThen x' = (w s).andThen x := by
  have hleft := List.eq_nil_of_subset_nil (h ▸ (w s).escapes_subset_andThen x)
  rw [hw.eq hs hleft]
  cases hn : (w s).next with
  | none => rw [Outcome.andThen_of_none hn, Outcome.andThen_of_none hn]
  | some t =>
    rw [Outcome.andThen_of_some hn, Trace.escapes_append, List.append_eq_nil_iff] at h
    have ht := ((hw.stems s).next t hn).not_escaped hs hleft
    rw [Outcome.andThen_of_some hn, Outcome.andThen_of_some hn, hx.eq ht h.2]

theorem andThen (hw : AgreeUntilEscape w w') (hx : AgreeUntilEscape x x') :
    AgreeUntilEscape (fun s => (w s).andThen x) fun s => (w' s).andThen x' :=
  ⟨fun s => (hw.stems s).andThen hx.stems, hw.andThen_eq hx⟩

theorem either (hw : AgreeUntilEscape w w') (hx : AgreeUntilEscape x x') :
    AgreeUntilEscape (fun s => (w s).either (x s)) fun s => (w' s).either (x' s) where
  stems s := (hw.stems s).either (hx.stems s)
  eq hs h := by
    rw [Outcome.either, Trace.escapes_append, List.append_eq_nil_iff] at h
    rw [hw.eq hs h.1, hx.eq hs h.2]

/-- So do `try` statements. -/
theorem region (hw : AgreeUntilEscape w w') (hx : AgreeUntilEscape x x')
    (hy : AgreeUntilEscape y y') :
    AgreeUntilEscape (fun s => ((w s).andThen x).either (y (s.interrupted (w s).trace)))
      fun s => ((w' s).andThen x').either (y' (s.interrupted (w' s).trace)) where
  stems s := (hw.stems s).region hx.stems (hy.stems _)
  eq {s} hs h := by
    rw [Outcome.either, Trace.escapes_append, List.append_eq_nil_iff] at h
    have hleft := List.eq_nil_of_subset_nil (h.1 ▸ (w s).escapes_subset_andThen x)
    have hint := (State.LeadsTo.interrupted s (w s).trace).not_escaped hs hleft
    rw [hw.andThen_eq hx hs h.1, hw.eq hs hleft, hy.eq hint h.2]

end AgreeUntilEscape

/-- An initializer lets nothing escape if its summary says so. -/
theorem Summary.escapes_eq_nil {o : Outcome} {recordSites : Bool}
    (h : (ofOutcome o recordSites).escaped = false) : o.trace.escapes = [] := by
  by_contra hne
  simp [ofOutcome, ofStates, hne] at h

/-! ## Loops -/

namespace Loop

variable {l l' : Loop} (htest : ∀ s, l.test s = .safe → l'.test s = .safe)
  (hbody : AgreeUntilEscape l.body l'.body)

include htest hbody

/-- A round that notes nothing is the same in both. -/
theorem round_eq_of_silent {head : State} (hhead : head.escaped = false)
    (h : (l.round head).trace.escapes = []) : l'.round head = l.round head := by
  rw [Round.trace, Trace.escapes_append, List.append_eq_nil_iff] at h
  have hsafe := Verdict.eq_safe_of_silent hhead h.1
  have htested : head.check (l.test head) = head := by rw [hsafe]; rfl
  have hround : (l.body head).trace.escapes = [] := by
    have hnil := h.2
    rw [round, htested] at hnil
    exact hnil
  have htested' : head.check (l'.test head) = head := by rw [htest head hsafe]; rfl
  rw [round, round, htested, htested', hsafe, htest head hsafe, hbody.eq hhead hround]

/-- So are all rounds up to the last, by induction along them. -/
theorem settle_eq_of_silent (head : State) (hhead : head.escaped = false)
    (h : (l.settle head).trace.escapes = []) : l'.settle head = l.settle head := by
  induction head using l.settle_induction with
  | done head hsame =>
    rw [settle_of_same l hsame] at h ⊢
    have hround := round_eq_of_silent htest hbody hhead h
    rw [settle_of_same l' (by rwa [hround]), hround]
  | again head hsame ih =>
    rw [settle_of_not_same l hsame] at h ⊢
    rw [Trace.escapes_append, List.append_eq_nil_iff] at h
    have hround := round_eq_of_silent htest hbody hhead h.1
    have hnext := (next_leadsTo hbody.stems head).not_escaped hhead h.1
    rw [settle_of_not_same l' (by rwa [hround]), hround, ih hnext h.2]

/-- Loops agree until an escape. -/
theorem agreeUntilEscape_walk {orelse orelse' : State → Outcome}
    (horelse : AgreeUntilEscape orelse orelse') (endless : Bool) :
    AgreeUntilEscape (l.walk endless orelse) (l'.walk endless orelse') where
  stems := stemsFrom_walk hbody.stems horelse.stems endless
  eq {s} hs h := by
    have hlead := tested_leadsTo_walk hbody.stems endless orelse s
    rw [← tested_settle] at hlead
    have htested := hlead.not_escaped hs h
    rw [walk, Trace.escapes_append, List.append_eq_nil_iff] at h
    rw [walk, walk, settle_eq_of_silent htest hbody s hs h.1]
    cases endless with
    | true => rfl
    | false =>
      have horelse' := horelse.eq htested h.2
      simp only [Bool.false_eq_true, if_false, horelse']

end Loop

/-! ## `finally` blocks -/

namespace Outcome

variable {o : Outcome} {w w' : State → Outcome} (hw : AgreeUntilEscape w w')

include hw

/-- A return that notes nothing on its way through a `finally` block takes the same way in both. -/
theorem exitThrough_eq_of_silent {e : Exit} (he : e.state.escaped = false)
    (h : (exitThrough w e).escapes = []) : exitThrough w' e = exitThrough w e := by
  have hwalk := List.eq_nil_of_subset_nil (h ▸ escapes_subset_exitThrough w e)
  rw [exitThrough, exitThrough, hw.eq he hwalk]

/-- So do several, by induction along them. -/
theorem foldl_exitThrough_eq_of_silent (exits : List Exit) (x : Trace)
    (hexits : ∀ e ∈ exits, e.state.escaped = false)
    (h : (exits.foldl (fun x e => x ++ exitThrough w e) x).escapes = []) :
    exits.foldl (fun x e => x ++ exitThrough w' e) x =
      exits.foldl (fun x e => x ++ exitThrough w e) x := by
  induction exits generalizing x with
  | nil => rfl
  | cons e es ih =>
    rw [List.forall_mem_cons] at hexits
    have hfirst := List.eq_nil_of_subset_nil
      (h ▸ escapes_exitThrough_subset_foldl w (e :: es) x List.mem_cons_self)
    rw [List.foldl_cons, List.foldl_cons, exitThrough_eq_of_silent hw hexits.1 hfirst]
    exact ih _ hexits.2 h

theorem onPath_eq_of_silent {p : Option State} (hp : Leads s l p) (hs : s.escaped = false)
    (hl : l = []) (h : (onPath w p).trace.escapes = []) : onPath w' p = onPath w p := by
  cases p with
  | none => rfl
  | some t => exact hw.eq ((hp t rfl).not_escaped hs hl) h

/-- So do jumps. -/
theorem jumpsThrough_eq_of_silent {j : Jumps} (hj : j.StemFrom s l) (hs : s.escaped = false)
    (hl : l = []) (h : (jumpsThrough w j).escapes = []) : jumpsThrough w' j = jumpsThrough w j := by
  have hboth : (onPath w j.broken).trace.escapes ++ (onPath w j.continued).trace.escapes = [] := h
  rw [List.append_eq_nil_iff] at hboth
  rw [jumpsThrough, jumpsThrough, onPath_eq_of_silent hw hj.broken hs hl hboth.1,
    onPath_eq_of_silent hw hj.continued hs hl hboth.2]

/-- A `finally` block in which nothing is noted closes a region alike. -/
theorem closeWith_eq_of_silent (ho : o.StemsFrom s) (hs : s.escaped = false)
    (h : (o.closeWith w).trace.escapes = []) : o.closeWith w' = o.closeWith w := by
  -- Nothing is noted in the region, so no path comes to the block after an escape.
  have hregion := List.eq_nil_of_subset_nil (h ▸ escapes_subset_closeWith o w)
  have hexits : o.exitsOut w' = o.exitsOut w :=
    foldl_exitThrough_eq_of_silent hw _ ∅ (fun e he => (ho.trace.exits e he).not_escaped hs hregion)
      (List.eq_nil_of_subset_nil (h ▸ escapes_exitsOut_subset_closeWith o w))
  have hjumps : jumpsThrough w' (o.trace ++ o.exitsOut w).jumps = o.jumpsOut w :=
    jumpsThrough_eq_of_silent hw (stemFrom_jumps_closeWith hw.stems ho) hs h
      (List.eq_nil_of_subset_nil (h ▸ escapes_jumpsOut_subset_closeWith o w))
  have hthrough : onPath w' o.next = onPath w o.next :=
    onPath_eq_of_silent hw ho.next hs hregion
      (List.append_eq_nil_iff.1 (h : (_ ++ (onPath w o.next).trace.escapes) = [])).2
  show (⟨(onPath w' o.next).next, o.trace.withoutExits.withoutJumps ++
    (o.exitsOut w').withoutJumps ++ jumpsThrough w' (o.trace ++ o.exitsOut w').jumps ++
    (onPath w' o.next).trace⟩ : Outcome) = _
  rw [hexits, hjumps, hthrough]
  rfl

end Outcome

/-! ## Bodies -/

namespace Scope

variable {sc sc' : Scope}

/-- An assignment that notes nothing is the same in both. -/
theorem assign_eq_of_silent {v v' : Verdict} (hv : v = .safe → v' = .safe) (m : Mode)
    (attrs : List Name) (hs : s.escaped = false) (h : (assign m v attrs s).trace.escapes = []) :
    assign m v' attrs s = assign m v attrs s := by
  cases v with
  | safe => rw [hv rfl]
  | escapes site | aliases site =>
    exact absurd (Verdict.eq_safe_of_silent hs h) (by simp)

/-- A call that lets the receiver escape, or whose arguments do, is not silent. -/
theorem judged_eq_of_silent {call call' : BaseCall} {span : Span}
    (hcall : call.escape? span = none → call' = call) {v v' : AttrSet → Verdict}
    (hv : v s.defined = .safe → v' s.defined = .safe) (m : Mode) (hs : s.escaped = false)
    (h : (call.judged v m span s).trace.escapes = []) :
    call'.judged v' m span s = call.judged v m span s := by
  have hsafe : v s.defined = .safe := Verdict.eq_safe_of_silent hs
    (List.eq_nil_of_subset_nil (h ▸ Outcome.escapes_subset_andThen (.check (v s.defined) s) _))
  have hescape : call.escape? span = none := by
    rw [BaseCall.judged, hsafe, Outcome.check_safe_andThen] at h
    cases hesc : call.escape? span with
    | none => rfl
    | some site =>
      have hfold : (call.fold (Verdict.isSafe .safe && !m.shielded) s).escaped = false :=
        (State.LeadsTo.fold call _ s []).not_escaped hs rfl
      simp only [hesc] at h
      exact absurd (Verdict.eq_safe_of_silent hfold h) (by simp)
  simp only [BaseCall.judged, hcall hescape, hsafe, hv hsafe]

/-- A milder judge walks a body alike until there is an escape. -/
theorem comparison_silent (hjudge : sc.judge.Milder sc'.judge)
    (hcall : ∀ target span, (sc.baseCall target).escape? span = none →
      sc'.baseCall target = sc.baseCall target) :
    Comparison sc sc' (fun _ => True) (fun _ => True) (fun v v' => ∀ d, v d = .safe → v' d = .safe)
      AgreeUntilEscape where
  properties := hjudge.properties
  expr e d hsafe := Verdict.isSafe_iff.1
    (Judge.isSafe_expr_mono hjudge (fun _ => id) e (Verdict.isSafe_iff.2 hsafe))
  fixed _ _ _ := id
  inTurn hu hv d hsafe := by
    rw [← Verdict.isSafe_iff, Verdict.isSafe_andThen, Bool.and_eq_true, Verdict.isSafe_iff,
      Verdict.isSafe_iff] at hsafe
    simp only [hu d hsafe.1, hv d hsafe.2, Verdict.safe_andThen]
  goOn := ⟨(comparison_stems sc).goOn, fun _ _ => rfl⟩
  raise := ⟨(comparison_stems sc).raise, fun _ _ => rfl⟩
  exit span := ⟨(comparison_stems sc).exit span, fun _ _ => rfl⟩
  broken := ⟨(comparison_stems sc).broken, fun _ _ => rfl⟩
  continued := ⟨(comparison_stems sc).continued, fun _ _ => rfl⟩
  remove attr := ⟨(comparison_stems sc).remove attr, fun _ _ => rfl⟩
  check hv := ⟨fun s => .check _ s, fun hs h => by
    have hsafe := Verdict.eq_safe_of_silent hs h
    rw [hsafe, hv _ hsafe]⟩
  assign m attrs hv _ _ := ⟨fun s => stemsFrom_assign m _ attrs s,
    fun hs h => assign_eq_of_silent (hv _) m attrs hs h⟩
  call m span target hv _ := ⟨stemsFrom_judged (sc.baseCall target) _ m span,
    fun hs h => judged_eq_of_silent (hcall target span) (hv _) m hs h⟩
  andThen hw hx := hw.andThen hx
  either hw hx := hw.either hx
  loop infinite hv hw hx := Loop.agreeUntilEscape_walk (fun s => hv s.defined) hw hx infinite
  region hw hx hy := hw.region hx hy
  closeWith {w w' x x'} hw hx := ⟨fun s => (hw.stems s).closeWith hx.stems, fun {s} hs h => by
    have hregion := List.eq_nil_of_subset_nil (h ▸ (w s).escapes_subset_closeWith x)
    rw [hw.eq hs hregion]
    exact Outcome.closeWith_eq_of_silent hx (hw.stems s) hs h⟩

/-- A body whose walk notes no escape is walked alike by both scopes. -/
theorem block_eq_of_silent (hjudge : sc.judge.Milder sc'.judge)
    (hcall : ∀ target span, (sc.baseCall target).escape? span = none →
      sc'.baseCall target = sc.baseCall target)
    (body : List Stmt) (m : Mode) (hs : s.escaped = false)
    (h : (sc.block m body s).trace.escapes = []) : sc'.block m body s = sc.block m body s :=
  ((comparison_silent hjudge hcall).block body m (fun _ _ => trivial) fun _ _ => trivial).eq hs h

end Scope

end DefiniteInit
