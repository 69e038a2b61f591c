import DefiniteInit.Proofs.Monotonicity
import Mathlib.Data.List.Iterate

/-!
# Heads of loops are greatest fixpoints

Each round of a loop makes of the state at its head the next one (`Loop.step`). The next state is
weaker (`Loop.next_weakens`), so after as many rounds as there are attributes to lose, one more for
the escape and one to see that nothing changes, the head is at rest (`Loop.length_heads_le`). A
round from a weaker head ends in a weaker one (`Loop.step_mono`), so no fixpoint below the first
head is ever passed by: the head at rest is the greatest of them (`Loop.weakens_rest`).

The `else` block is walked from the head at rest, after the test. So what holds after the loop is no
more than what would hold if the block were walked at once (`Loop.walk_weakens`).
-/

namespace DefiniteInit

/-! ## Rounds -/

namespace Loop

variable {l : Loop} {head i : State}

/-- What a round makes of the state at the head. -/
def step (l : Loop) (head : State) : State := (l.round head).next

/-- The states at the head from which the rounds are walked, first to last. -/
def heads (l : Loop) (head : State) : List State :=
  if (l.round head).next.same head then [head] else head :: l.heads (l.round head).next
termination_by head.slack
decreasing_by exact slack_next_lt ‹_›

/-- What is kept of the rounds from these heads. Of all rounds but the last the exits are
dropped. -/
def record (l : Loop) : List State → Trace
  | [] => ∅
  | [head] => (l.round head).trace
  | head :: next :: rest => (l.round head).trace.withoutExits ++ l.record (next :: rest)

theorem heads_of_same (h : (l.round head).next.same head = true) : l.heads head = [head] := by
  rw [heads, if_pos h]

theorem heads_of_not_same (h : ¬(l.round head).next.same head = true) :
    l.heads head = head :: l.heads (l.step head) := by
  rw [heads, if_neg h, step]

/-- The first head is the entry. -/
theorem heads_eq_cons (l : Loop) (head : State) : ∃ later, l.heads head = head :: later := by
  by_cases h : (l.round head).next.same head = true
  · exact ⟨[], heads_of_same h⟩
  · exact ⟨_, heads_of_not_same h⟩

theorem mem_heads_self (l : Loop) (head : State) : head ∈ l.heads head := by
  obtain ⟨later, hlater⟩ := l.heads_eq_cons head
  rw [hlater]
  exact List.mem_cons_self

/-- The heads follow from each other, a round at a time. -/
theorem heads_eq_iterate (l : Loop) (head : State) :
    l.heads head = List.iterate l.step head (l.heads head).length := by
  induction head using l.settle_induction with
  | done head h =>
    rw [heads_of_same h]
    rfl
  | again head h ih =>
    rw [heads_of_not_same h, List.length_cons, List.iterate]
    exact congrArg _ ih

/-- Every round but the last takes away some slack. -/
theorem length_heads_le_slack (l : Loop) (head : State) :
    (l.heads head).length ≤ head.slack + 1 := by
  induction head using l.settle_induction with
  | done head h =>
    rw [heads_of_same h, List.length_singleton]
    omega
  | again head h ih =>
    have hlt := slack_next_lt h
    rw [heads_of_not_same h, List.length_cons, step]
    omega

/-- Every round but two takes an attribute away, so there are few. -/
theorem length_heads_le (l : Loop) (head : State) :
    (l.heads head).length ≤ head.defined.size + 2 := by
  have hslack : head.slack ≤ head.defined.size + 1 := by
    unfold State.slack
    split <;> omega
  exact (l.length_heads_le_slack head).trans (Nat.add_le_add_right hslack 1)

/-- The last head is the one at rest. -/
theorem getLast?_heads (l : Loop) (head : State) :
    (l.heads head).getLast? = some (l.rest head) := by
  induction head using l.settle_induction with
  | done head h => rw [heads_of_same h, rest_of_same l h, List.getLast?_singleton]
  | again head h ih =>
    obtain ⟨later, hlater⟩ := l.heads_eq_cons (l.step head)
    rw [step] at hlater
    rw [heads_of_not_same h, rest_of_not_same l h, ← ih, step, hlater, List.getLast?_cons_cons]

/-- A loop is walked in the rounds from its heads and no others. -/
theorem settle_eq_record (l : Loop) (head : State) : l.settle head =
    ⟨(l.lastRound head).tested, (l.lastRound head).body.trace.jumps.broken,
      l.record (l.heads head)⟩ := by
  have htrace : (l.settle head).trace = l.record (l.heads head) := by
    induction head using l.settle_induction with
    | done head h => rw [settle_of_same l h, heads_of_same h, record]
    | again head h ih =>
      obtain ⟨later, hlater⟩ := l.heads_eq_cons (l.step head)
      rw [settle_of_not_same l h, heads_of_not_same h, hlater, record, ← hlater, step, ← ih]
  rw [← tested_settle, ← broken_settle, ← htrace]

/-- A loop whose test finds less safe and whose body knows less from a weaker state. -/
structure Monotone (l : Loop) : Prop where
  test : ∀ {s t : State}, s.Weakens t → (l.test s).isSafe = true → (l.test t).isSafe = true
  body : WalksUnder (fun _ => True) l.body l.body

/-- A step from a head that says no more leads to one that says no more. -/
theorem step_mono (hl : l.Monotone) {s t : State} (h : s.Weakens t) :
    (l.step s).Weakens (l.step t) :=
  (under_round (P := fun _ => True) (fun _ _ _ _ => trivial) (fun h => hl.test h.toWeakens) hl.body
    ⟨h, trivial⟩).next.toWeakens

/-- Every fixpoint below a head is below the next head, and so below the head at rest. -/
theorem weakens_rest (hl : l.Monotone) (hfix : (l.step i).same i = true) (h : i.Weakens head) :
    i.Weakens (l.rest head) := by
  induction head using l.settle_induction with
  | done head hsame => rwa [rest_of_same l hsame]
  | again head hsame ih =>
    rw [rest_of_not_same l hsame]
    exact ih ((State.Weakens.of_same hfix).trans (step_mono hl h))

/-- A loop goes on where its `else` block, walked from the entry, goes on, and says no more. -/
theorem walk_weakens {orelse : State → Outcome} (horelse : WalksUnder (fun _ => True) orelse orelse)
    {s t : State} (hs : head.Weakens s) (ht : (orelse s).next = some t) :
    ∃ u, (l.walk false orelse head).next = some u ∧ u.Weakens t := by
  -- The `else` block is walked from the last head, which says no more than the entry.
  have htested : (l.settle head).tested.Under (fun _ => True) s := by
    refine ⟨?_, trivial⟩
    rw [tested_settle]
    exact (State.Weakens.check_left _ _).trans ((l.rest_weakens head).trans hs)
  obtain ⟨t', ht', hweakens⟩ :
      ∃ t', (orelse (l.settle head).tested).next = some t' ∧ t'.Weakens t := by
    rcases (horelse.under htested).next.cases with ⟨-, hnone⟩ | ⟨t', t'', ht', ht'', hunder⟩
    · rw [ht] at hnone
      exact absurd hnone (by simp)
    · rw [ht] at ht''
      obtain rfl := Option.some.inj ht''
      exact ⟨t', ht', hunder.toWeakens⟩
  refine ⟨t'.mergePath (l.settle head).broken, ?_, ?_⟩
  · show mergePaths (orelse (l.settle head).tested).next (l.settle head).broken = _
    rw [ht']
    rfl
  · cases (l.settle head).broken with
    | none => exact hweakens
    | some u => exact (State.Weakens.merge_left t' u).trans hweakens

end Loop

/-! ## Loop statements -/

/-- What a loop statement consists of. -/
structure LoopCode where
  /-- Evaluated once, before the first round. -/
  source : Option Expr
  /-- Evaluated at the head of every round. -/
  test : Option Expr
  /-- Bound at the start of the body. -/
  target : Option Target
  body : List Stmt
  orelse : List Stmt
  /-- Whether the test is sure not to fail. -/
  endless : Bool

/-- The parts of a statement that is a loop. -/
def Stmt.loopCode? : Stmt → Option LoopCode
  | .whileLoop test body orelse _ => some ⟨none, some test, none, body, orelse, test.alwaysTrue⟩
  | .forLoop target source body orelse _ =>
    some ⟨some source, none, some target, body, orelse, false⟩
  | _ => none

namespace Scope

/-- Binds the loop variable, if there is one. -/
def bindTarget (sc : Scope) (m : Mode) : Option Target → State → Outcome
  | none, s => .goOn s
  | some t, s => assign m (sc.judge.target s.defined t) t.assigned s

/-- The rounds of a loop statement. -/
def loop (sc : Scope) (m : Mode) (c : LoopCode) : Loop where
  test s := sc.judge.expr? s.defined c.test
  body s := (sc.bindTarget m c.target s).andThen (sc.block m.loop c.body)

/-- The state in which the first round starts. -/
def loopEntry (sc : Scope) (c : LoopCode) (s : State) : State :=
  s.check (sc.judge.expr? s.defined c.source)

/-- Both kinds of loop are walked as their code says. -/
theorem stmt_of_loopCode? (sc : Scope) (m : Mode) {st : Stmt} {c : LoopCode}
    (h : st.loopCode? = some c) (s : State) : sc.stmt m st s =
      (Outcome.check (sc.judge.expr? s.defined c.source) s).andThen
        ((sc.loop m c).walk c.endless (sc.block m c.orelse)) := by
  cases st with
  | whileLoop test body orelse span =>
    obtain rfl := Option.some.inj h
    have hloop : sc.loop m ⟨none, some test, none, body, orelse, test.alwaysTrue⟩ =
        ⟨fun s => sc.judge.expr s.defined test, sc.block m.loop body⟩ := by
      have hbody : ∀ s, (Outcome.goOn s).andThen (sc.block m.loop body) = sc.block m.loop body s :=
        fun s => Outcome.check_safe_andThen s _
      simp only [loop, bindTarget, Judge.expr?, hbody]
    rw [stmt, hloop, Judge.expr?, Outcome.check_safe_andThen]
  | forLoop target source body orelse span =>
    obtain rfl := Option.some.inj h
    simp only [stmt, loop, bindTarget, Judge.expr?]
  | _ => simp [Stmt.loopCode?] at h

theorem walksUnder_bindTarget (sc : Scope) (m : Mode) (target : Option Target) :
    WalksUnder (fun _ => True) (sc.bindTarget m target) (sc.bindTarget m target) := by
  have C := sc.comparison_weaker
  cases target with
  | none => exact C.goOn
  | some t => exact C.assign m (C.target t) (fun _ _ => trivial) fun d hsafe =>
      Judge.not_mem_properties_of_target_isSafe t hsafe

/-- The rounds of a loop statement are monotone. -/
theorem monotone_loop (sc : Scope) (m : Mode) (c : LoopCode) : (sc.loop m c).Monotone where
  test h := sc.comparison_weaker.expr? c.test h.defined
  body := sc.comparison_weaker.andThen (sc.walksUnder_bindTarget m c.target)
    (sc.walksUnder_block m.loop c.body)

/-- The head `H` at which a loop comes to rest is the greatest fixpoint below its entry: a round
leaves `H` as it is, and any other such head says no more. There are at most two more rounds than
attributes assigned at the entry. Unless the test cannot fail, the loop goes on where the `else`
block, walked from the entry at once, goes on, and knowing no more. -/
theorem head_greatest_fixpoint (sc : Scope) (m : Mode) (st : Stmt) (c : LoopCode)
    (hst : st.loopCode? = some c) (l : Loop) (hl : l = sc.loop m c) (s entry : State)
    (hentry : entry = sc.loopEntry c s) :
    sc.stmt m st s = (Outcome.check (sc.judge.expr? s.defined c.source) s).andThen
      (l.walk c.endless (sc.block m c.orelse)) ∧
    (∃ n H, n ≤ entry.defined.size + 2 ∧ l.heads entry = List.iterate l.step entry n ∧
      (l.heads entry).getLast? = some H ∧
      l.settle entry = ⟨(l.round H).tested, (l.round H).body.trace.jumps.broken,
        l.record (l.heads entry)⟩ ∧
      (l.step H).same H = true ∧ H.Weakens entry ∧
      ∀ i, (l.step i).same i = true → i.Weakens entry → i.Weakens H) ∧
    (c.endless = false → ∀ s₀ t, entry.Weakens s₀ → (sc.block m c.orelse s₀).next = some t →
      ∃ u, (sc.stmt m st s).next = some u ∧ u.Weakens t) := by
  subst hl
  have hwalk := sc.stmt_of_loopCode? m hst s
  refine ⟨hwalk, ?_, ?_⟩
  · exact ⟨_, (sc.loop m c).rest entry, (sc.loop m c).length_heads_le entry,
      (sc.loop m c).heads_eq_iterate entry, (sc.loop m c).getLast?_heads entry,
      (sc.loop m c).settle_eq_record entry, (sc.loop m c).same_next_rest entry,
      (sc.loop m c).rest_weakens entry, fun i => Loop.weakens_rest (sc.monotone_loop m c)⟩
  · intro hendless s₀ t hs₀ ht
    have hnext : (sc.stmt m st s).next =
        ((sc.loop m c).walk false (sc.block m c.orelse) entry).next := by
      rw [hwalk, Outcome.andThen_of_some rfl, hentry, hendless]
      rfl
    rw [hnext]
    exact Loop.walk_weakens (sc.walksUnder_block m c.orelse) hs₀ ht

/-- A loop whose body deletes an attribute or goes on to the next round, with an `else` block that
assigns another. -/
def sweeping : Stmt :=
  .loopOver ⟨8⟩ (.var .param ⟨9⟩)
    [.branch (.var .param ⟨10⟩) [.delAttr ⟨30⟩] [.continueLoop .empty]]
    [.setAttr ⟨32⟩ (.selfAttr ⟨31⟩)]

/-- Two rounds are walked, and what the first one deletes is not known at the head again. -/
theorem head_greatest_fixpoint_sweeping :
    ∃ sc c H u, Graph.scope .single ∅ .default ⟨0⟩ = sc ∧
      sweeping.loopCode? = some c ∧
      ((sc.loop .top c).heads ⟨.ofList [⟨30⟩, ⟨31⟩], false⟩).map (·.defined.toList) =
        [[⟨30⟩, ⟨31⟩], [⟨31⟩]] ∧
      ((sc.loop .top c).step H).same H = true ∧
      (State.mk (.ofList [⟨31⟩]) true).Weakens H ∧
      (sc.stmt .top sweeping ⟨.ofList [⟨30⟩, ⟨31⟩], false⟩).next = some u ∧
      u.Weakens ⟨.ofList [⟨30⟩, ⟨31⟩, ⟨32⟩], false⟩ := by
  obtain ⟨-, ⟨n, H, -, -, -, -, hfixed, -, hgreatest⟩, helse⟩ :=
    head_greatest_fixpoint (Graph.scope .single ∅ .default ⟨0⟩) .top sweeping _ rfl
      _ rfl ⟨.ofList [⟨30⟩, ⟨31⟩], false⟩ _ rfl
  obtain ⟨u, hu, hweakens⟩ := helse rfl ⟨.ofList [⟨30⟩, ⟨31⟩], false⟩
    ⟨.ofList [⟨30⟩, ⟨31⟩, ⟨32⟩], false⟩ (.refl _) (by decide +kernel)
  refine ⟨_, _, H, u, rfl, rfl, by decide +kernel, hfixed, hgreatest _ (by decide +kernel) ?_, hu,
    hweakens⟩
  exact ⟨by decide +kernel, fun _ => rfl⟩

end Scope

end DefiniteInit
