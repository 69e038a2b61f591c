import DefiniteInit.Proofs.FinalPasses
import DefiniteInit.Proofs.Ledgers

/-!
# The discipline of a ledger

A walk that keeps a ledger enters what happens on the walk that leaves a trace: from books that say
in which surroundings it is made, it comes to the same state and posts the trace of `Scope.stmt`
(`Keeper.Posts`, `Scope.posts_keepStmt`). This is shown step by step. The marks of a region find
what was entered since (`Keeper.run_interrupted`), the rounds of a loop leave the exits of the last
one (`Keeper.run_rounds`), and what is put aside for the region of a `try` statement comes back in
its place (`Keeper.Posts.closing`).

So what is in the books stays there. Lists are added to at the end, counts count what is added,
surroundings are restored, and of all jumps only those out of the innermost loop change, to states
that say no more (`Ledger.Extends`, `Graph.ledger_discipline`).
-/

namespace DefiniteInit

/-! ## Steps of the walk -/

/-- Two verdicts in turn mark a state like one. -/
theorem State.check_check (s : State) (u v : Verdict) :
    (s.check u).check v = s.check (u.andThen v) := by
  cases u with
  | safe => rfl
  | escapes _ | aliases _ => cases v <;> rfl

/-- Of two verdicts in turn the first that is no good is noted. -/
theorem Trace.ofVerdict_append (u v : Verdict) (s : State) :
    ofVerdict u s ++ ofVerdict v (s.check u) = ofVerdict (u.andThen v) s := by
  cases u with
  | safe => exact empty_append _
  | escapes site | aliases site =>
    have hlater : ofVerdict v (s.check (.escapes site)) = ∅ := by cases v <;> rfl
    exact (congrArg _ hlater).trans (append_empty _)

/-- To take attributes away one by one takes all of them away. -/
theorem State.foldl_undefine (attrs : List Name) (s : State) :
    attrs.foldl undefine s = ⟨s.defined.eraseAll attrs, s.escaped⟩ := by
  induction attrs generalizing s with
  | nil =>
    have hnone : s.defined.eraseAll [] = s.defined := AttrSet.ext (List.filter_eq_self.2 (by simp))
    rw [List.foldl_nil, hnone]
  | cons attr attrs ih =>
    rw [List.foldl_cons, ih]
    refine congrArg (State.mk · s.escaped) (AttrSet.ext ?_)
    show (s.defined.toList.filter (· != attr)).filter (· ∉ attrs) =
      s.defined.toList.filter (· ∉ attr :: attrs)
    rw [List.filter_filter]
    refine List.filter_congr fun a _ => ?_
    rw [Bool.eq_iff_iff]
    simp [and_comm]

namespace Keeper

variable {α β : Type} {record : Bool} {b : Ledger} {m : Mode}

theorem run_bind (x : Keeper α) (f : α → Keeper β) (b : Ledger) :
    (x >>= f).run b = (f (x.run b).1).run (x.run b).2 := rfl

theorem run_map (f : α → β) (x : Keeper α) (b : Ledger) :
    (f <$> x).run b = (f (x.run b).1, (x.run b).2) := rfl

theorem run_pure (a : α) (b : Ledger) : (pure a : Keeper α).run b = (a, b) := rfl

theorem run_get (b : Ledger) : (get : Keeper Ledger).run b = (b, b) := rfl

theorem run_set (b b' : Ledger) : (set b' : Keeper PUnit).run b = (⟨⟩, b') := rfl

theorem run_modify (f : Ledger → Ledger) (b : Ledger) :
    (modify f : Keeper PUnit).run b = (⟨⟩, f b) := rfl

/-- A verdict is entered as its trace is. -/
theorem run_check (v : Verdict) (s : State) (b : Ledger) :
    (check record v s).run b = (s.check v, b.post record (.ofVerdict v s)) := by
  rw [← Ledger.noteVerdict_eq]
  rfl

/-- The verdict on several things in turn. -/
def verdict (judge : AttrSet → α → Verdict) (d : AttrSet) : List α → Verdict
  | [] => .safe
  | x :: xs => (judge d x).andThen (verdict judge d xs)

/-- Verdicts on the members of a list are entered as one. The induction is along the list, for any
ledger. -/
theorem run_checkEach (judge : AttrSet → α → Verdict) (xs : List α) (s : State) (b : Ledger) :
    (checkEach record judge xs s).run b =
      (((verdict judge s.defined xs).isSafe, s.check (verdict judge s.defined xs)),
        b.post record (.ofVerdict (verdict judge s.defined xs) s)) := by
  induction xs generalizing s b with
  | nil => exact congrArg _ Ledger.post_empty.symm
  | cons x xs ih =>
    simp only [checkEach, run_bind, run_pure, run_check, ih, State.defined_check, verdict,
      ← Ledger.post_append, Trace.ofVerdict_append, State.check_check, Verdict.isSafe_andThen]

/-- Under a shield the same is entered, and the count is as before when it is taken away. -/
theorem run_shielding {x : Keeper α} {a : α} {t : Trace}
    (h : x.run { b with shielded := b.shielded + 1 } =
      (a, Ledger.post record { b with shielded := b.shielded + 1 } t)) :
    (shielding x).run b = (a, b.post record t) := by
  simp only [shielding, run_bind, run_modify, run_pure, h]
  rfl

/-- A frame takes the jumps that are entered while it is there. -/
theorem run_framed {x : Keeper α} {a : α} {t : Trace}
    (h : x.run { b with loops := .none :: b.loops } =
      (a, Ledger.post record { b with loops := .none :: b.loops } t)) :
    (framed x).run b = ((a, t.jumps), b.post record t.withoutJumps) := by
  have hjumps : (t.leading.merge .none).merge t.trailing = t.jumps := by
    rw [Jumps.merge_none, Trace.jumps]
  have hloops := Ledger.modifyHead_eq_self Jumps.merge_none b.loops
  simp only [framed, run_bind, run_modify, run_get, run_set, run_pure, h]
  exact Prod.ext (Prod.ext rfl hjumps) (Ledger.ext rfl hloops.symm rfl rfl rfl rfl rfl)

/-- The marks find what was entered since. -/
theorem run_interrupted (s : State) (t : Trace) :
    (interrupted s b.escapes b.deletions.length).run (b.post record t) =
      (s.interrupted t, b.post record t) := by
  have hescapes : (b.escapes + t.escapes.length != b.escapes) = !t.escapes.isEmpty := by
    rw [Bool.eq_iff_iff]
    simp
  simp only [interrupted, run_bind, run_get, run_pure, State.foldl_undefine, Ledger.post,
    List.drop_left, hescapes]
  rfl

/-- From the ledger `b` the walk comes to the outcome, and enters what it says. -/
def Enters (record : Bool) (b : Ledger) (x : Keeper (Option State)) (o : Outcome) : Prop :=
  x.run b = (o.next, b.post record o.trace)

/-- Whatever was entered before, in the surroundings `m` the walk enters what the other says. -/
def Posts (record : Bool) (m : Mode) (k : State → Keeper (Option State)) (w : State → Outcome) :
    Prop :=
  ∀ s b, b.mode = m → Enters record b (k s) (w s)

namespace Enters

variable {x y : Keeper (Option State)} {o q : Outcome} {k : State → Keeper (Option State)}
  {w : State → Outcome}

/-- What entering leaves, read off. -/
theorem run_eq (h : Enters record b x o) : x.run b = (o.next, b.post record o.trace) := h

theorem goOn (s : State) : Enters record b (pure (some s)) (.goOn s) :=
  congrArg _ Ledger.post_empty.symm

theorem stop : Enters record b (pure none) (.stop ∅) := congrArg _ Ledger.post_empty.symm

theorem check (v : Verdict) (s : State) :
    Enters record b (some <$> Keeper.check record v s) (.check v s) := by
  rw [Enters, run_map, run_check]
  rfl

/-- A step that enters a trace, and then a walk. -/
theorem after {x : Keeper α} {a : α} {t : Trace} (hx : x.run b = (a, b.post record t))
    {f : α → Keeper (Option State)} (hf : Enters record (b.post record t) (f a) o) :
    Enters record b (x >>= f) ⟨o.next, t ++ o.trace⟩ := by
  rw [Enters, run_bind, hx, Ledger.post_append]
  exact hf

/-- Branches are entered one after the other. -/
theorem either (hx : Enters record b x o) (hy : Enters record (b.post record o.trace) y q) :
    Enters record b (do return mergePaths (← x) (← y)) (o.either q) := by
  rw [Enters, run_bind, hx.run_eq, run_bind, hy.run_eq, run_pure, Outcome.either,
    Ledger.post_append]

/-- Where there is no path nothing is entered. -/
theorem onPath (h : Posts record m k w) (p : Option State) (hb : b.mode = m) :
    Enters record b (Keeper.onPath k p) (Outcome.onPath w p) := by
  cases p with
  | none => exact stop
  | some s => exact h s b hb

/-- Walks in turn are entered in turn. -/
theorem andThen (hx : Enters record b x o) (h : Posts record m k w) (hb : b.mode = m) :
    Enters record b (x >>= Keeper.onPath k) (o.andThen w) := by
  have hboth := after hx (onPath h o.next (Ledger.mode_post_of_mode _ hb _))
  cases hn : o.next with
  | none =>
    rw [hn, Outcome.onPath] at hboth
    change Enters record b _ ⟨none, o.trace ++ ∅⟩ at hboth
    rwa [Trace.append_empty, ← hn, ← Outcome.andThen_of_none (w := w) hn] at hboth
  | some t =>
    rw [hn] at hboth
    rwa [Outcome.andThen_of_some hn]

end Enters

end Keeper

/-! ## Loops -/

namespace Trace

variable {x : Trace} (h : x.jumps = .none) (y : Trace)

include h

theorem jumps_append_of_jumps_eq_none : (x ++ y).jumps = y.jumps := by
  obtain ⟨hleading, htrailing⟩ := Jumps.merge_eq_none.1 h
  show (y.leading.merge x.leading).merge (x.trailing.merge y.trailing) = _
  rw [hleading, htrailing, Jumps.merge_none]
  rfl

theorem withoutJumps_append_of_jumps_eq_none : (x ++ y).withoutJumps = x ++ y.withoutJumps := by
  obtain ⟨hleading, htrailing⟩ := Jumps.merge_eq_none.1 h
  show (⟨_, .none, .none, _, _⟩ : Trace) =
    ⟨_, Jumps.none.merge x.leading, x.trailing.merge .none, _, _⟩
  rw [hleading, htrailing]
  rfl

end Trace

/-- What is cut off at the mark are the exits entered since. -/
theorem Ledger.take_exits_post {record : Bool} {b : Ledger} {mark : Nat}
    (h : b.exits.length = mark) (t : Trace) :
    (b.post record t).setExits ((b.post record t).exits.take mark) =
      b.post record t.withoutExits := by
  have hexits : (b.exits ++ t.exits).take mark = b.exits ++ [] := by
    rw [List.take_left' h, List.append_nil]
  exact Ledger.ext hexits rfl rfl rfl rfl rfl rfl

namespace Keeper

/-- The step that binds the loop variable goes on, and enters what the other does, which does not
jump. -/
def Binds (record : Bool) (m : Mode) (bind : State → Keeper State) (w : State → Outcome) : Prop :=
  ∀ s b, b.mode = m → ∃ t, (w s).next = some t ∧ (w s).Jumpless ∧
    (bind s).run b = (t, b.post record (w s).trace)

variable {record : Bool} {b : Ledger} {m : Mode} {test : State → Verdict}
  {bind : State → Keeper State} {body orelse : State → Keeper (Option State)}
  {wbind wbody worelse : State → Outcome} {l : Loop}

/-- A loop body is entered without its jumps, which its frame has taken. -/
theorem Posts.framed (hbody : Posts record m.loop body wbody) (s : State) (hb : b.mode = m) :
    (framed (body s)).run b = (((wbody s).next, (wbody s).trace.jumps),
      b.post record (wbody s).trace.withoutJumps) := by
  refine run_framed (hbody s _ ?_)
  rw [← hb]
  rfl

/-- A round enters all it comes to but its jumps, which it gives back. -/
theorem run_round (hbind : Binds record m bind wbind) (hbody : Posts record m.loop body wbody)
    (hl : l = ⟨test, fun s => (wbind s).andThen wbody⟩) (head : State) (hb : b.mode = m) :
    (round record test bind body head).run b = (((l.round head).body.next,
      (l.round head).body.trace.jumps), b.post record (l.round head).trace) := by
  obtain ⟨t, hnext, hquiet, hbound⟩ := hbind (head.check (test head)) _
    (Ledger.mode_post_of_mode record hb (.ofVerdict (test head) head))
  have hround : (l.round head).body =
      ⟨(wbody t).next, (wbind (head.check (test head))).trace ++ (wbody t).trace⟩ := by
    subst hl
    exact Outcome.andThen_of_some hnext
  have htesting : (l.round head).testing = .ofVerdict (test head) head := by rw [hl]; rfl
  simp only [round, run_bind, run_check, hbound, ← Ledger.post_append,
    hbody.framed t (Ledger.mode_post_of_mode _ hb _), Round.trace, hround, htesting,
    Trace.jumps_append_of_jumps_eq_none hquiet, Trace.withoutJumps_append_of_jumps_eq_none hquiet,
    Trace.append_assoc]

/-- The rounds of a loop are entered as its last one is: what the others have entered of exits is
dropped, and their frames with them. -/
theorem run_rounds (hbind : Binds record m bind wbind) (hbody : Posts record m.loop body wbody)
    (hl : l = ⟨test, fun s => (wbind s).andThen wbody⟩) (mark : Nat) (head : State)
    (hb : b.mode = m) (hmark : mark ≤ b.exits.length) :
    ∃ jumps, jumps.broken = (l.settle head).broken ∧
      (rounds record test bind body mark head).run b = (((l.settle head).tested, jumps),
        (b.setExits (b.exits.take mark)).post record (l.settle head).trace) := by
  have htested : ∀ head, head.check (test head) = (l.round head).tested := by
    intro head
    rw [hl]
    rfl
  have hnext : ∀ head, (l.round head).tested.mergePath (mergePaths (l.round head).body.next
      (l.round head).body.trace.jumps.continued) = (l.round head).next := fun _ => rfl
  -- The induction is along the heads of the rounds. The exits from before the loop are those up to
  -- the mark, and each round starts by dropping the others.
  induction head using l.settle_induction generalizing b with
  | done head hsame =>
    have hround := run_round hbind hbody hl (b := b.setExits (b.exits.take mark)) head hb
    rw [Loop.settle_of_same l hsame]
    refine ⟨(l.round head).body.trace.jumps, rfl, ?_⟩
    rw [rounds]
    simp only [run_bind, run_modify, hround, htested, hnext, if_pos hsame, run_pure]
  | again head hsame ih =>
    have hround := run_round hbind hbody hl (b := b.setExits (b.exits.take mark)) head hb
    have hlength : (b.exits.take mark).length = mark := List.length_take_of_le hmark
    have hmark' : mark ≤ (b.exits.take mark ++ (l.round head).trace.exits).length := by
      rw [List.length_append, hlength]
      exact Nat.le_add_right _ _
    obtain ⟨jumps, hbroken, hlater⟩ := ih
      (b := (b.setExits (b.exits.take mark)).post record (l.round head).trace)
      (Ledger.mode_post_of_mode record hb _) hmark'
    rw [Loop.settle_of_not_same l hsame]
    refine ⟨jumps, hbroken, ?_⟩
    rw [rounds]
    simp only [run_bind, run_modify, hround, htested, hnext, if_neg hsame, hlater,
      Ledger.post_append, Ledger.take_exits_post (b := b.setExits (b.exits.take mark)) hlength]

/-- A loop is entered as it is walked. -/
theorem Posts.loop (hbind : Binds record m bind wbind) (hbody : Posts record m.loop body wbody)
    (hl : l = ⟨test, fun s => (wbind s).andThen wbody⟩) (horelse : Posts record m orelse worelse)
    (infinite : Bool) :
    Posts record m (Keeper.loop record test bind body infinite orelse)
      (l.walk infinite worelse) := by
  intro s b hb
  obtain ⟨jumps, hbroken, hrounds⟩ :=
    run_rounds hbind hbody hl b.exits.length s hb (Nat.le_refl _)
  have hcompleted : Enters record (b.post record (l.settle s).trace)
      (if infinite then pure none else orelse (l.settle s).tested)
      (if infinite then .stop ∅ else worelse (l.settle s).tested) := by
    cases infinite with
    | true => exact .stop
    | false => exact horelse _ _ (Ledger.mode_post_of_mode _ hb _)
  rw [List.take_length, Ledger.setExits_exits] at hrounds
  simp only [Enters, Keeper.loop, run_bind, run_get, hrounds, hcompleted.run_eq, run_pure, hbroken,
    ← Ledger.post_append, Loop.walk]

end Keeper

/-! ## `try` statements -/

theorem Outcome.exitsThrough_cons (w : State → Outcome) (e : Exit) (es : List Exit) :
    exitsThrough w (e :: es) = exitThrough w e ++ exitsThrough w es := by
  rw [exitsThrough, List.foldl_cons, foldl_exitThrough_eq, Trace.empty_append]

namespace Ledger

variable {record : Bool} {b : Ledger}

/-- The books after the returns of a region have passed through its last block, the region having
been walked with exits and jumps put aside. -/
def afterExits (record : Bool) (b : Ledger) (x y : Trace) : Ledger :=
  ((((b.setExits []).setTop .none).post record x).setExits b.exits).post record y

theorem mode_afterExits (x y : Trace) : (b.afterExits record x y).mode = b.mode := by
  simp only [afterExits, mode_post, mode_setExits, mode_setTop]

/-- The top of the books then holds all jumps that pass through the block. -/
theorem head?_loops_afterExits {top : Jumps} (h : b.loops.head? = some top) (x y : Trace) :
    (b.afterExits record x y).loops.head? = some (x ++ y).jumps := by
  obtain ⟨below, hloops⟩ : ∃ below, b.loops = top :: below := List.head?_eq_some_iff.1 h
  have hjumps : (y.leading.merge ((x.leading.merge .none).merge x.trailing)).merge y.trailing =
      (x ++ y).jumps := by
    show _ = (y.leading.merge x.leading).merge (x.trailing.merge y.trailing)
    simp only [Jumps.merge_none, Jumps.merge_assoc]
  simp only [afterExits, post, setTop, setExits, hloops, List.modifyHead_cons, List.head?_cons,
    hjumps]

/-- What was put aside is put back. -/
theorem setTop_afterExits (x y : Trace) :
    (b.afterExits record x y).setTop (b.loops.head?.getD .none) =
      b.post record (x.withoutExits.withoutJumps ++ y.withoutJumps) := by
  rw [post_append]
  refine Ledger.ext (congrArg (· ++ y.exits) (List.append_nil _).symm) ?_ rfl rfl rfl rfl rfl
  simp only [afterExits, setExits, setTop, post, Trace.withoutJumps, Trace.withoutExits]
  cases b.loops with
  | nil => rfl
  | cons top below => simp

/-- A return that has passed through a `finally` block is entered where the block goes on. -/
theorem noteExits_exitThrough (w : State → Outcome) (e : Exit) :
    (b.post record (w e.state).trace).noteExits
      ((w e.state).next.toList.map fun s => { e with state := s }) =
      b.post record (Outcome.exitThrough w e) := by
  unfold Outcome.exitThrough
  cases hn : (w e.state).next with
  | none => simp [noteExits, hn]
  | some s =>
    simp only [hn, post_append]
    exact noteExits_eq _

end Ledger

namespace Keeper

variable {record : Bool} {b : Ledger} {m : Mode}
  {k final : State → Keeper (Option State)} {w wfinal : State → Outcome}

/-- A shielded walk is entered as it is walked in shielded mode. -/
theorem Posts.shielding (h : Posts record m.shield k w) :
    Posts record m (fun s => Keeper.shielding (k s)) w := by
  intro s b hb
  refine run_shielding (h s _ ?_)
  rw [← hb]
  rfl

/-- So is a body under managers. -/
theorem Posts.managed (h : Posts record m.shield k w) : Posts record m (Keeper.managed k)
    fun s => ⟨mergePaths (w s).next (some (s.interrupted (w s).trace)), (w s).trace⟩ := by
  intro s b hb
  simp only [Enters, Keeper.managed, run_bind, run_get, (h.shielding s b hb).run_eq,
    run_interrupted, run_pure]

/-- The body, the handlers and the `else` block of a `try` statement are entered as they are walked.
-/
theorem Posts.region {body orelse : State → Keeper (Option State)}
    {handlers : State → Option State → Keeper (Option State)}
    {wbody worelse whandlers : State → Outcome} (hbody : Posts record m body wbody)
    (horelse : Posts record m orelse worelse)
    (hhandlers : ∀ s merged b, b.mode = m → (handlers s merged).run b =
      (mergePaths merged (whandlers s).next, b.post record (whandlers s).trace)) :
    Posts record m (Keeper.region body orelse handlers) fun s =>
      ((wbody s).andThen worelse).either (whandlers (s.interrupted (wbody s).trace)) := by
  intro s b hb
  have hcompleted := hbody s b hb
  have hboth := (hcompleted.andThen horelse hb).run_eq
  have hhandled := hhandlers (s.interrupted (wbody s).trace) ((wbody s).andThen worelse).next
    (b.post record ((wbody s).andThen worelse).trace) (Ledger.mode_post_of_mode _ hb _)
  simp only [run_bind, hcompleted.run_eq] at hboth
  simp only [Enters, Keeper.region, run_bind, run_get, hcompleted.run_eq, run_interrupted, hboth,
    hhandled, Outcome.either, Ledger.post_append]

/-- The exits of the region are put aside and come back after those of before. -/
theorem Posts.leaving (h : Posts record m k w) : Posts record m (Keeper.leaving k) w := by
  intro s b hb
  have hregion := h s (b.setExits []) hb
  simp only [Enters, Keeper.leaving, swapExits, run_bind, run_get, run_set, run_pure,
    hregion.run_eq, run_modify]
  rfl

/-- Returns pass through the `finally` block one after the other, by induction along them. -/
theorem run_passExits (h : Posts record m final wfinal) (exits : List Exit) (hb : b.mode = m) :
    (passExits final exits).run b = ((), b.post record (Outcome.exitsThrough wfinal exits)) := by
  induction exits generalizing b with
  | nil => exact congrArg _ Ledger.post_empty.symm
  | cons e es ih =>
    have hrest := ih (b := b.post record (Outcome.exitThrough wfinal e))
      (Ledger.mode_post_of_mode _ hb _)
    simp only [passExits, run_bind, (h e.state b hb).run_eq, run_modify,
      Ledger.noteExits_exitThrough, hrest, Outcome.exitsThrough_cons, Ledger.post_append]

/-- The jumps that were put aside come back between those the block makes and those that pass
through it. -/
theorem run_passJumps (h : Posts record m final wfinal) {inner : Jumps}
    (hinner : b.loops.head? = some inner) (outer : Jumps) (hb : b.mode = m) :
    (passJumps final (some outer)).run b =
      ((), (b.setTop outer).post record (Outcome.jumpsThrough wfinal inner)) := by
  have hmode : (b.setTop .none).mode = m := (Ledger.mode_setTop _).trans hb
  have hbroken := Enters.onPath h inner.broken hmode
  have hcontinued := Enters.onPath h inner.continued
    (Ledger.mode_post_of_mode record hmode (Outcome.onPath wfinal inner.broken).trace)
  simp only [passJumps, takeJumps, run_bind, run_get, run_set, run_pure, hinner, Option.getD_some,
    hbroken.run_eq, hcontinued.run_eq, run_modify, ← Ledger.post_append]
  refine congrArg _ (Ledger.ext rfl ?_ rfl rfl rfl rfl rfl)
  simp only [Ledger.noteJumps, Ledger.post, Ledger.setTop]
  cases b.loops with
  | nil => rfl
  | cons top below =>
    simp only [List.modifyHead_cons, Jumps.merge_none]
    rfl

/-- Jumps pass through the block after the returns, and those of the block itself join the frame. -/
theorem run_passJumps_afterExits (h : Posts record m final wfinal) (hb : b.mode = m)
    {x y : Trace} (hquiet : m.inLoop = false → (x ++ y).jumps = .none) :
    (passJumps final b.loops.head?).run (b.afterExits record x y) =
      ((), b.post record (x.withoutExits.withoutJumps ++ y.withoutJumps ++
        Outcome.jumpsThrough wfinal (x ++ y).jumps)) := by
  rw [Ledger.post_append, ← Ledger.setTop_afterExits]
  cases hloops : b.loops.head? with
  | none =>
    have hnil : b.loops = [] := List.head?_eq_none_iff.1 hloops
    have hm : m.inLoop = false := by rw [← hb, Ledger.mode, hnil]; rfl
    have hloops' : (b.afterExits record x y).loops = [] := by
      simp only [Ledger.afterExits, Ledger.post, Ledger.setTop, Ledger.setExits, hnil,
        List.modifyHead_nil]
    have hthrough : Outcome.jumpsThrough wfinal .none = ∅ := rfl
    have hput : (b.afterExits record x y).setTop .none = b.afterExits record x y :=
      Ledger.ext rfl (by rw [Ledger.setTop, hloops']; rfl) rfl rfl rfl rfl rfl
    rw [hquiet hm, hthrough, Ledger.post_empty, Option.getD_none, hput]
    rfl
  | some top =>
    exact run_passJumps h (Ledger.head?_loops_afterExits hloops x y) top
      ((Ledger.mode_afterExits x y).trans hb)

/-- A region is entered with its `finally` block as it is walked. -/
theorem Posts.closing (h : Posts record m k w) (hfinal : Posts record m final wfinal)
    (hjumps : m.inLoop = false → ∀ s, (w s).Jumpless ∧ (wfinal s).Jumpless) :
    Posts record m (Keeper.closing k final) fun s => (w s).closeWith wfinal := by
  intro s b hb
  -- The region posts into a book without exits and with a fresh loop on top; what it posted there
  -- is taken out and sent through the block path by path.
  have hregion := h s ((b.setExits []).setTop .none) ((Ledger.mode_setTop _).trans hb)
  have hexits : (passExits final (w s).trace.exits).run
      ((((b.setExits []).setTop .none).post record (w s).trace).setExits b.exits) =
      ((), b.afterExits record (w s).trace ((w s).exitsOut wfinal)) := by
    refine run_passExits hfinal (w s).trace.exits ?_
    simpa only [Ledger.mode_post, Ledger.mode_setExits, Ledger.mode_setTop] using hb
  have hquiet : m.inLoop = false → ((w s).trace ++ (w s).exitsOut wfinal).jumps = .none := by
    intro hm
    have hnone := Outcome.jumps_exitsOut (o := w s) (w := wfinal) fun e _ => (hjumps hm e.state).2
    exact Trace.jumps_append_eq_none.2 ⟨(hjumps hm s).1, hnone⟩
  have hpass := run_passJumps_afterExits hfinal hb hquiet
  have hthrough : ∀ t, Enters record (b.post record t) (Keeper.onPath final (w s).next)
      (Outcome.onPath wfinal (w s).next) :=
    fun t => Enters.onPath hfinal _ (Ledger.mode_post_of_mode record hb t)
  have hinner : (((b.setExits []).setTop .none).post record (w s).trace).exits =
      (w s).trace.exits := rfl
  have houter : (b.setExits []).loops = b.loops := rfl
  simp only [Enters, Keeper.closing, swapExits, takeJumps, run_bind, run_get, run_set, run_pure,
    hregion.run_eq, hinner, houter, hexits, hpass, (hthrough _).run_eq, ← Ledger.post_append]
  rfl

end Keeper

/-! ## Statements -/

namespace Keeper

variable {α : Type} {record : Bool} {b : Ledger} {m : Mode} {d : AttrSet} {j : Judge}

theorem verdict_append (judge : AttrSet → α → Verdict) (xs ys : List α) :
    verdict judge d (xs ++ ys) = (verdict judge d xs).andThen (verdict judge d ys) := by
  induction xs with
  | nil => rfl
  | cons x xs ih => rw [List.cons_append, verdict, verdict, ih, Verdict.andThen_assoc]

/-- The verdict on the members of a list is the one on the list. -/
theorem verdict_targets (ts : List Target) : verdict j.target d ts = j.targets d ts := by
  induction ts with
  | nil => rw [verdict, Judge.targets]
  | cons t ts ih => rw [verdict, Judge.targets, ih]

theorem verdict_exprs (es : List Expr) : verdict j.expr d es = j.exprs d es := by
  induction es with
  | nil => rw [verdict, Judge.exprs]
  | cons e es ih => rw [verdict, Judge.exprs, ih]

theorem verdict_keywords (ks : List Keyword) :
    verdict j.expr d (ks.map Keyword.value) = j.keywords d ks := by
  induction ks with
  | nil => rw [List.map_nil, verdict, Judge.keywords]
  | cons keyword ks ih =>
    obtain ⟨name, value⟩ := keyword
    rw [List.map_cons, verdict, Judge.keywords, ih]

theorem verdict_toList (e : Option Expr) : verdict j.expr d e.toList = j.expr? d e := by
  cases e with
  | none => rw [Option.toList_none, verdict, Judge.expr?]
  | some e => rw [Option.toList_some, verdict, verdict, Judge.expr?, Verdict.andThen_safe]

namespace Enters

variable {x : Keeper State} {f : State → Keeper State} {o : Outcome} {w : State → Outcome}

/-- A step that always goes on. -/
theorem exists_next (h : Enters record b (some <$> x) o) :
    ∃ t, o.next = some t ∧ x.run b = (t, b.post record o.trace) := by
  obtain ⟨hnext, hledger⟩ := Prod.mk.inj h
  exact ⟨(x.run b).1, hnext.symm, Prod.ext rfl hledger⟩

theorem of_bind_map {x : Keeper α} {f : α → Keeper State}
    (h : Enters record b (x >>= fun a => some <$> f a) o) :
    Enters record b (some <$> (x >>= f)) o := h

theorem of_get_bind {f : Ledger → Keeper (Option State)} (h : Enters record b (f b) o) :
    Enters record b (get >>= f) o := h

/-- What follows is entered into the ledger that is left. -/
theorem inTurn (hx : Enters record b (some <$> x) o)
    (hf : ∀ t, Enters record (b.post record o.trace) (some <$> f t) (w t)) :
    Enters record b (some <$> (x >>= f)) (o.andThen w) := by
  obtain ⟨t, hnext, hrun⟩ := hx.exists_next
  rw [Outcome.andThen_of_some hnext]
  exact of_bind_map (after hrun (hf t))

end Enters

end Keeper

namespace Scope

variable {sc : Scope} {record : Bool} {b : Ledger}

open Keeper

theorem define_append (m : Mode) (xs ys : List Name) (s : State) :
    define m (xs ++ ys) s = define m ys (define m xs s) := by
  unfold define
  split
  · rfl
  · exact List.foldl_append

mutual

/-- A target makes no entry. -/
theorem run_keepTarget : ∀ (t : Target) (s : State) (b : Ledger),
    (keepTarget t s).run b = (define b.mode t.assigned s, b)
  | .selfAttr attr _, s, b => by
    rw [keepTarget, Target.assigned, define, Ledger.mode]
    refine Prod.ext ?_ rfl
    show (if b.shielded = 0 then s.define attr else s) = _
    by_cases h : b.shielded = 0 <;> simp [h, State.defineAll]
  | .tuple elements _, s, b => by
    rw [keepTarget, Target.assigned]
    exact run_keepTargets elements s b
  | .self _, s, b | .name _ _, s, b | .attribute _ _ _, s, b | .subscript _ _ _, s, b => by
    rw [keepTarget, Target.assigned, define]
    simp only [State.defineAll, List.foldl_nil, ite_self, run_pure]

theorem run_keepTargets : ∀ (ts : List Target) (s : State) (b : Ledger),
    (keepTargets ts s).run b = (define b.mode (Target.assignedAll ts) s, b)
  | [], s, b => by
    rw [keepTargets, Target.assignedAll, define]
    simp only [State.defineAll, List.foldl_nil, ite_self, run_pure]
  | t :: ts, s, b => by
    rw [keepTargets, Target.assignedAll, define_append]
    simp only [run_bind, run_keepTarget t s b, run_keepTargets ts _ b]

end

theorem binds_pure {m : Mode} : Binds record m pure .goOn :=
  fun s _ _ => ⟨s, rfl, rfl, congrArg _ Ledger.post_empty.symm⟩

/-- An assignment whose verdict has been entered. -/
theorem run_keepBound (record : Bool) {m : Mode} (v : Verdict) (ts : List Target) (s : State)
    (hb : b.mode = m) :
    ∃ t, (assign m v (Target.assignedAll ts) s).next = some t ∧
      (keepBound ts (v.isSafe, s.check v)).run (b.post record (.ofVerdict v s)) =
        (t, b.post record (assign m v (Target.assignedAll ts) s).trace) := by
  cases hsafe : v.isSafe with
  | true =>
    obtain rfl := Verdict.isSafe_iff.1 hsafe
    refine ⟨define m (Target.assignedAll ts) s, rfl, ?_⟩
    rw [keepBound, if_pos rfl, run_keepTargets, Ledger.mode_post, hb]
    rfl
  | false =>
    have hassign : assign m v (Target.assignedAll ts) s = .check v s := if_neg (by simp [hsafe])
    rw [hassign, keepBound, if_neg (by simp)]
    exact ⟨s.check v, rfl, rfl⟩

/-- The target of a loop is bound as it is walked. -/
theorem binds_keepBinding {m : Mode} {target : Target} :
    Binds record m (sc.keepBinding record target) fun s =>
      assign m (sc.judge.target s.defined target) target.assigned s := by
  intro s b hb
  have hverdict : verdict sc.judge.target s.defined [target] = sc.judge.target s.defined target :=
    Verdict.andThen_safe _
  have hassigned : Target.assignedAll [target] = target.assigned := by
    rw [Target.assignedAll, Target.assignedAll, List.append_nil]
  obtain ⟨t, hnext, hrun⟩ := run_keepBound record (sc.judge.target s.defined target) [target] s
    hb
  rw [hassigned] at hnext hrun
  refine ⟨t, hnext, jumpless_assign m _ _ s, ?_⟩
  rw [keepBinding, run_bind, run_checkEach, hverdict]
  exact hrun

mutual

/-- A deletion is entered as it is walked. -/
theorem enters_keepDeletion : ∀ (t : Target) (s : State) (b : Ledger),
    Keeper.Enters record b (some <$> sc.keepDeletion record t s) (sc.deleteTarget t s)
  | .selfAttr attr span, s, b => by
    rw [keepDeletion, deleteTarget]
    refine .inTurn (.check _ s) fun t => ?_
    exact congrArg _ (Ledger.noteDeletion_eq attr)
  | .self span, s, b => by rw [keepDeletion, deleteTarget]; exact .check _ s
  | .name _ _, s, b => by rw [keepDeletion, deleteTarget]; exact .goOn s
  | .attribute _ _ _, s, b | .subscript _ _ _, s, b => by
    rw [keepDeletion, deleteTarget]; exact .check _ s
  | .tuple elements _, s, b => by
    rw [keepDeletion, deleteTarget]; exact enters_keepDeletions elements s b

theorem enters_keepDeletions : ∀ (ts : List Target) (s : State) (b : Ledger),
    Keeper.Enters record b (some <$> sc.keepDeletions record ts s) (sc.deleteTargets ts s)
  | [], s, b => by rw [keepDeletions, deleteTargets]; exact .goOn s
  | t :: ts, s, b => by
    rw [keepDeletions, deleteTargets]
    exact .inTurn (enters_keepDeletion t s b) fun t => enters_keepDeletions ts t _

end

/-- Managers are entered as one verdict. -/
theorem run_keepItems (items : List WithItem) (s : State) (b : Ledger) :
    (sc.keepItems record items s).run b = (s.check (enter sc.judge s.defined items),
      b.post record (.ofVerdict (enter sc.judge s.defined items) s)) := by
  induction items generalizing s b with
  | nil =>
    rw [keepItems, enter]
    exact congrArg _ Ledger.post_empty.symm
  | cons item rest ih =>
    obtain ⟨e, target⟩ := item
    have htarget : verdict sc.judge.target s.defined target.toList =
        (target.map (sc.judge.target s.defined)).getD .safe := by
      cases target with
      | none => rfl
      | some t => exact Verdict.andThen_safe _
    simp only [keepItems, enter, run_bind, run_check, run_checkEach, State.defined_check, htarget,
      ih, ← Ledger.post_append, Trace.ofVerdict_append, State.check_check, Verdict.andThen_assoc]

/-- A call is entered as it is walked. -/
theorem enters_keepCall {m : Mode} (target : SuperTarget) (args : List Expr)
    (keywords : List Keyword) (span : Span) (s : State) (hb : b.mode = m) :
    Keeper.Enters record b (some <$> sc.keepCall record target args keywords span s)
      (sc.superInit m target args keywords span s) := by
  have hverdict : verdict sc.judge.expr s.defined (args ++ keywords.map Keyword.value) =
      (sc.judge.exprs s.defined args).andThen (sc.judge.keywords s.defined keywords) := by
    rw [verdict_append, verdict_exprs, verdict_keywords]
  have hshield : (b.shielded == 0) = !m.shielded := by
    rw [← hb, Ledger.mode, bne, Bool.not_not]
  have hchecked : (Keeper.checkEach record _ _ s).run b = _ :=
    run_checkEach sc.judge.expr (args ++ keywords.map Keyword.value) s b
  rw [hverdict] at hchecked
  rw [superInit, keepCall]
  refine .of_bind_map (.after hchecked (.of_bind_map (.of_get_bind ?_)))
  simp only [Ledger.shielded_post, hshield]
  cases (sc.baseCall target).escape? span with
  | none => exact .goOn _
  | some site => exact .check _ _

/-- A jump joins the frame of its loop, and without a loop it is an escape. -/
theorem enters_keepJump {m : Mode} (jumps : Jumps) (span : Span) (s : State) (hb : b.mode = m) :
    Keeper.Enters record b (keepJump record jumps span s)
      (if m.inLoop then .stop (.ofJumps jumps) else .check (.escape .strayJump span) s) := by
  have hloop : m.inLoop = !b.loops.isEmpty := by rw [← hb]; rfl
  rw [hloop, Keeper.Enters, keepJump, run_bind, run_get]
  cases b.loops.isEmpty with
  | true => exact Keeper.Enters.check _ s
  | false => exact congrArg _ (Ledger.noteJumps_eq jumps)

variable (sc record)

mutual

/-- A statement is entered as it is walked. -/
theorem posts_keepStmt : ∀ (st : Stmt) (m : Mode),
    Posts record m (sc.keepStmt record st) (sc.stmt m st)
  | .assign targets value _, m => by
    intro s b hb
    obtain ⟨t, hnext, hrun⟩ := run_keepBound record ((sc.judge.value s.defined value).andThen
      (sc.judge.targets s.defined targets)) targets s hb
    simp only [keepStmt, stmt, Keeper.Enters, run_bind, run_map, run_check, run_checkEach,
      verdict_targets, State.defined_check, State.check_check, ← Ledger.post_append,
      Trace.ofVerdict_append, ← Verdict.isSafe_andThen, hrun, hnext]
  | .eval value _, m => by
    intro s b _
    rw [keepStmt, stmt]
    exact .check _ s
  | .ifElse test body orelse _, m => by
    intro s b hb
    rw [keepStmt, stmt]
    refine .after (run_check _ s b) (.either ?_ ?_)
    · exact posts_keepBlock body m _ _ (Ledger.mode_post_of_mode _ hb _)
    · exact posts_keepBlock orelse m _ _
        (Ledger.mode_post_of_mode _ (Ledger.mode_post_of_mode _ hb _) _)
  | .whileLoop test body orelse _, m => by
    intro s b hb
    rw [keepStmt, stmt]
    -- A `while` loop is one that binds nothing before its body.
    have hbody : Loop.mk (fun s => sc.judge.expr s.defined test) (sc.block m.loop body) =
        ⟨fun s => sc.judge.expr s.defined test, fun s => (Outcome.goOn s).andThen
          (sc.block m.loop body)⟩ :=
      congrArg (Loop.mk _) (funext fun s => (Outcome.check_safe_andThen s _).symm)
    exact Posts.loop binds_pure (posts_keepBlock body m.loop) hbody (posts_keepBlock orelse m) _ s b
      hb
  | .forLoop target source body orelse _, m => by
    intro s b hb
    rw [keepStmt, stmt]
    refine .after (run_check _ s b) ?_
    exact Posts.loop binds_keepBinding (posts_keepBlock body m.loop) rfl
      (posts_keepBlock orelse m) _ _ _ (Ledger.mode_post_of_mode _ hb _)
  | .tryBlock body hs orelse final span, m => by
    intro s b hb
    rw [keepStmt, stmt_tryBlock]
    have hregion := (Posts.region (posts_keepBlock body m.shield) (posts_keepBlock orelse m.shield)
      (run_keepHandlers hs m.shield)).shielding
    split
    · exact hregion.leaving s b hb
    -- Outside of a loop there is no frame for jumps, and none are there to be entered.
    · refine hregion.closing (posts_keepBlock final m) (fun hm t => ⟨?_, ?_⟩) s b hb
      · have hquiet := sc.jumpless_stmt (.tryBlock body hs orelse [] span) m
          (fun h => absurd h (by simp [hm])) t
        rwa [stmt_tryBlock] at hquiet
      · exact sc.jumpless_block final m (fun h => absurd h (by simp [hm])) t
  | .withBlock items body _, m => by
    intro s b hb
    rw [keepStmt, stmt]
    refine .after (run_keepItems items s b) ?_
    exact (posts_keepBlock body m.shield).managed _ _ (Ledger.mode_post_of_mode _ hb _)
  | .ret value span, m => by
    intro s b _
    rw [keepStmt, stmt, ← verdict_toList]
    refine .after (run_checkEach sc.judge.expr value.toList s b) ?_
    exact congrArg _ (Ledger.noteExits_eq _)
  | .raise exception cause _, m => by
    intro s b _
    rw [keepStmt, stmt, ← verdict_toList, ← verdict_toList, ← verdict_append]
    exact .after (run_checkEach sc.judge.expr (exception.toList ++ cause.toList) s b) .stop
  | .assertion test message _, m => by
    intro s b _
    rw [keepStmt, stmt, ← verdict_toList]
    simp only [Keeper.Enters, run_bind, run_checkEach, run_pure]
    rfl
  | .superInit target args kws span, m => by
    intro s b hb
    rw [keepStmt, stmt]
    exact enters_keepCall target args kws span s hb
  | .rebindSelf value span, m => by
    intro s b _
    simp only [keepStmt, stmt, Keeper.Enters, run_bind, run_map, run_check, State.check_check,
      ← Ledger.post_append, Trace.ofVerdict_append, Outcome.check]
  | .delete targets _, m => by
    intro s b _
    rw [keepStmt, stmt]
    exact enters_keepDeletions targets s b
  | .nestedDef _ capturesSelf span, m => by
    intro s b _
    rw [keepStmt, stmt]
    exact .check _ s
  | .pass _, m => by
    intro s b _
    rw [keepStmt, stmt]
    exact .goOn s
  | .breakLoop span, m => by
    intro s b hb
    rw [keepStmt, stmt]
    exact enters_keepJump _ span s hb
  | .continueLoop span, m => by
    intro s b hb
    rw [keepStmt, stmt]
    exact enters_keepJump _ span s hb
  | .unsupported span, m => by
    intro s b _
    rw [keepStmt, stmt]
    exact .check _ s

/-- A block is entered as it is walked. -/
theorem posts_keepBlock : ∀ (ss : List Stmt) (m : Mode),
    Posts record m (sc.keepBlock record ss) (sc.block m ss)
  | [], m => by
    intro s b _
    rw [keepBlock, block]
    exact .goOn s
  | st :: ss, m => by
    intro s b hb
    rw [keepBlock, block]
    exact (posts_keepStmt st m s b hb).andThen (posts_keepBlock ss m) hb

/-- Handlers are entered one after the other and merged on the way. -/
theorem run_keepHandlers : ∀ (hs : List Handler) (m : Mode) (s : State) (merged : Option State)
    (b : Ledger), b.mode = m → (sc.keepHandlers record hs s merged).run b =
      (mergePaths merged (sc.handlers m hs s).next, b.post record (sc.handlers m hs s).trace)
  | [], m, s, merged, b, hb => by
    rw [keepHandlers, handlers]
    exact Prod.ext (mergePaths_none_right merged).symm Ledger.post_empty.symm
  | ⟨type, _, body, _⟩ :: rest, m, s, merged, b, hb => by
    rw [handlers, ← verdict_toList]
    have hhandled := fun s t =>
      (posts_keepBlock body m s _ (Ledger.mode_post_of_mode record hb t)).run_eq
    have hrest := fun merged t =>
      run_keepHandlers rest m s merged _ (Ledger.mode_post_of_mode record hb t)
    simp only [keepHandlers, run_bind, run_checkEach, hhandled, ← Ledger.post_append, hrest,
      mergePaths_assoc]
    rfl

end

end Scope

/-! ## What is in the books stays there -/

/-- A path that jumped before jumps now, in a state that says no more. -/
structure Jumps.Weakens (j' j : Jumps) : Prop where
  broken : ∀ s ∈ j.broken, ∃ s' ∈ j'.broken, s'.Weakens s
  continued : ∀ s ∈ j.continued, ∃ s' ∈ j'.continued, s'.Weakens s

/-- A path that meets others is still there, saying no more. -/
theorem exists_mem_mergePaths {s : State} {p q r : Option State} (h : s ∈ q) :
    ∃ s' ∈ mergePaths (mergePaths p q) r, s'.Weakens s := by
  obtain ⟨t, ht, hweak⟩ : ∃ t ∈ mergePaths p q, t.Weakens s := by
    obtain rfl : q = some s := h
    cases p with
    | none => exact ⟨s, rfl, .refl s⟩
    | some t => exact ⟨t.merge s, rfl, .merge_right t s⟩
  rw [Option.mem_def.1 ht]
  cases r with
  | none => exact ⟨t, rfl, hweak⟩
  | some u => exact ⟨t.merge u, rfl, (State.Weakens.merge_left t u).trans hweak⟩

theorem Jumps.weakens_merge (i j k : Jumps) : ((i.merge j).merge k).Weakens j :=
  ⟨fun _ => exists_mem_mergePaths, fun _ => exists_mem_mergePaths⟩

namespace Ledger

/-- The ledger `b'` follows on `b`. The surroundings are the same, and so are the jumps out of all
loops but the innermost; what jumped out of that one still does, in states that say no more.
Exits, escapes and deletions are added at the end, each escape counts, and the first that is kept
stays. -/
structure Extends (b b' : Ledger) : Prop where
  shielded : b'.shielded = b.shielded
  height : b'.loops.length = b.loops.length
  below : b'.loops.tail = b.loops.tail
  top : ∀ j ∈ b.loops.head?, ∃ j' ∈ b'.loops.head?, j'.Weakens j
  exits : b.exits <+: b'.exits
  deletions : b.deletions <+: b'.deletions
  escapes : ∃ states, b'.escapeStates = b.escapeStates ++ states ∧
    b'.escapes = b.escapes + states.length
  firstEscape : ∀ site ∈ b.firstEscape, b'.firstEscape = some site

/-- Entering a trace takes nothing out of the books. -/
theorem extends_post (record : Bool) (b : Ledger) (t : Trace) : b.Extends (b.post record t) where
  shielded := rfl
  height := List.length_modifyHead
  below := List.tail_modifyHead
  top j hj := by
    obtain ⟨below, hloops⟩ := List.head?_eq_some_iff.1 hj
    refine ⟨(t.leading.merge j).merge t.trailing, ?_, Jumps.weakens_merge _ j _⟩
    simp only [post, hloops, List.modifyHead_cons, List.head?_cons, Option.mem_def]
  exits := List.prefix_append _ _
  deletions := List.prefix_append _ _
  escapes := ⟨t.escapes.map Escape.state, rfl, by rw [List.length_map]; rfl⟩
  firstEscape site h := by
    simp only [post, Option.mem_def.1 h, Option.some_or]

/-- What a walk asks of the counters is the depth of regions, whether it is zero, and the number of
escapes, whether it is that of an earlier mark. Counters of 32 bits answer the same as long as they
do not overflow. -/
theorem Extends.words_iff {b b' : Ledger} (h : b.Extends b') (hshielded : b.shielded < UInt32.size)
    (hescapes : b'.escapes < UInt32.size) : (b'.shieldedWord = 0 ↔ b'.shielded = 0) ∧
      (b'.escapesWord = b.escapesWord ↔ b'.escapes = b.escapes) := by
  obtain ⟨states, -, hadded⟩ := h.escapes
  have hbefore : b.escapes < UInt32.size := by omega
  rw [shieldedWord, escapesWord, escapesWord, h.shielded]
  constructor
  · rw [← UInt32.toNat_inj, UInt32.toNat_ofNat_of_lt' hshielded, UInt32.toNat_zero]
  · rw [← UInt32.toNat_inj, UInt32.toNat_ofNat_of_lt' hescapes, UInt32.toNat_ofNat_of_lt' hbefore]

end Ledger

namespace Graph

/-- The summary of a body, from the books of its walk. -/
def keepBody (g : Graph) (known : ClassTable Facts) (o : Options) (id : ClassId)
    (body : List Stmt) (entry : State) : Summary :=
  let walked := ((g.scope known o id).keepBlock o.recordEscapeSites body entry).run .blank
  let exits := walked.2.exits ++ walked.1.toList.map fun s => ⟨s, .fellThrough, .empty⟩
  .ofStates (exits.map (·.state)) walked.2.escapeStates walked.2.firstEscape

/-- A body comes to the same summary with the books as without. -/
theorem keepBody_eq_walkBody (g : Graph) (known : ClassTable Facts) (o : Options) (id : ClassId)
    (body : List Stmt) (entry : State) :
    g.keepBody known o id body entry = g.walkBody known o id body entry := by
  have hwalk := (g.scope known o id).posts_keepBlock o.recordEscapeSites body .top entry .blank rfl
  simp only [keepBody, hwalk.run_eq]
  rfl

/-- A walk over a statement that keeps a ledger leaves one that follows on the ledger it finds,
whatever that says. It goes on as `Scope.stmt` does and enters what that says happened, so the books
of a whole body give its summary. Counters of 32 bits that do not overflow give the same. -/
theorem ledger_discipline (g : Graph) (known : ClassTable Facts) (o : Options) (id : ClassId)
    (st : Stmt) (s : State) (b : Ledger) :
    b.Extends (((g.scope known o id).keepStmt o.recordEscapeSites st s).run b).2 ∧
    ((g.scope known o id).keepStmt o.recordEscapeSites st s).run b =
      (((g.scope known o id).stmt b.mode st s).next,
        b.post o.recordEscapeSites ((g.scope known o id).stmt b.mode st s).trace) ∧
    (∀ body entry, g.keepBody known o id body entry = g.walkBody known o id body entry) ∧
    ∀ next b', ((g.scope known o id).keepStmt o.recordEscapeSites st s).run b = (next, b') →
      b.shielded < UInt32.size → b'.escapes < UInt32.size →
      (b'.shieldedWord = 0 ↔ b'.shielded = 0) ∧
        (b'.escapesWord = b.escapesWord ↔ b'.escapes = b.escapes) := by
  have hwalk := (g.scope known o id).posts_keepStmt o.recordEscapeSites st b.mode s b rfl
  have hextends : b.Extends (((g.scope known o id).keepStmt o.recordEscapeSites st s).run b).2 := by
    rw [hwalk.run_eq]
    exact b.extends_post _ _
  refine ⟨hextends, hwalk.run_eq, g.keepBody_eq_walkBody known o id, fun next b' hrun => ?_⟩
  rw [hrun] at hextends
  exact hextends.words_iff

/-- A region that is left by a return and by a jump, both of which pass through a block that deletes
an attribute and lets the receiver escape. -/
def leftTwice : Stmt :=
  .guarded [.branch (.var .param ⟨8⟩) [.leave none] [.breakLoop .empty]] [] []
    [.delAttr ⟨30⟩, .run (.callNamed ⟨9⟩ [.receiver])]

/-- Books with an entry of each kind, in the inner of two loops. -/
def openBooks : Ledger where
  exits := [⟨.start, .returned, .empty⟩]
  loops := [⟨some ⟨.ofList [⟨30⟩, ⟨31⟩], false⟩, none⟩, ⟨none, some .start⟩]
  shielded := 0
  escapes := 1
  escapeStates := [⟨.ofList [⟨32⟩], true⟩]
  deletions := [⟨33⟩]
  firstEscape := some ⟨.capturedSelf, .empty⟩

/-- One exit, two escapes and two deletions are added, and the jump out of the inner loop says
less. -/
theorem ledger_discipline_leftTwice : ∃ b' : Ledger,
    ((single.scope ∅ .default ⟨0⟩).keepStmt true leftTwice
      ⟨.ofList [⟨30⟩, ⟨31⟩], false⟩).run openBooks = (none, b') ∧ openBooks.Extends b' ∧
    b'.exits.length = 2 ∧ b'.escapes = 3 ∧ b'.escapesWord ≠ openBooks.escapesWord ∧
    b'.deletions = [⟨33⟩, ⟨30⟩, ⟨30⟩] ∧
    b'.loops = [⟨some ⟨.ofList [⟨31⟩], true⟩, none⟩, ⟨none, some .start⟩] ∧
    b'.firstEscape = some ⟨.capturedSelf, .empty⟩ := by
  have hextends := (ledger_discipline single ∅ .default ⟨0⟩ leftTwice
    ⟨.ofList [⟨30⟩, ⟨31⟩], false⟩ openBooks).1
  refine ⟨_, Prod.ext ?_ rfl, hextends, ?_, ?_, ?_, ?_, ?_, ?_⟩ <;> decide +kernel

end Graph

end DefiniteInit
