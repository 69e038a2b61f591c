import DefiniteInit.Proofs.Comparisons
import DefiniteInit.Proofs.LettingGo
import DefiniteInit.Proofs.Occurrences
import DefiniteInit.Stmt.Shorthand
import Mathlib.Data.List.Forall2

/-!
# Walks from weaker states

A walk by a stricter scope from a weaker state knows less wherever it comes to, and comes to the
same places: it goes on where the other does, returns as often and in the same order, and jumps
where the other jumps (`Outcome.Under`). What holds of the weaker state and of all states weaker
than it, and is kept by every assignment that counts, holds of all states the weaker walk leaves
behind. Both are shown at once, by one comparison of walks (`Scope.comparison_under`).

The rounds of the two loops do not go in step. The head at which the weaker loop comes to rest is
weaker than every head of the other, since one more round leaves it as it is
(`Loop.rest_under`).

Of one scope this says that walks are monotone, and since any two states have a weaker one in
common, that all walks of a body have one shape (`Scope.shape_block`).
-/

namespace DefiniteInit

variable {P : State → Prop} {s s' t t' : State} {l l' : List Escape} {p p' q q' : Option State}

/-! ## States and paths -/

namespace State.Weakens

theorem refl (s : State) : s.Weakens s := ⟨fun _ => id, id⟩

theorem trans (h : s.Weakens t) (h' : t.Weakens s') : s.Weakens s' :=
  ⟨fun a ha => h'.defined a (h.defined a ha), fun hs => h.escaped (h'.escaped hs)⟩

theorem merge_left (s t : State) : (s.merge t).Weakens s :=
  ⟨fun _ ha => (AttrSet.mem_inter.1 ha).1, fun hs => by simp [merge, hs]⟩

theorem merge_right (s t : State) : (s.merge t).Weakens t :=
  ⟨fun _ ha => (AttrSet.mem_inter.1 ha).2, fun ht => by simp [merge, ht]⟩

/-- Merged states say no more than merged ones that say more. -/
theorem merge (h : s.Weakens s') (h' : t.Weakens t') : (s.merge t).Weakens (s'.merge t') where
  defined a ha := by
    obtain ⟨hs, ht⟩ := AttrSet.mem_inter.1 ha
    exact AttrSet.mem_inter.2 ⟨h.defined a hs, h'.defined a ht⟩
  escaped he := by
    simp only [State.merge, Bool.or_eq_true] at he ⊢
    exact he.imp h.escaped h'.escaped

theorem check_left (s : State) (v : Verdict) : (s.check v).Weakens s :=
  ⟨fun a ha => by rwa [defined_check] at ha, (LeadsTo.check s v).stays⟩

theorem undefine_left (s : State) (attr : Name) : (s.undefine attr).Weakens s :=
  ⟨fun _ ha => (AttrSet.mem_erase.1 ha).1, id⟩

theorem undefine (h : s.Weakens s') (attr : Name) :
    (s.undefine attr).Weakens (s'.undefine attr) where
  defined a ha := by
    obtain ⟨hs, hne⟩ := AttrSet.mem_erase.1 ha
    exact AttrSet.mem_erase.2 ⟨h.defined a hs, hne⟩
  escaped := h.escaped

/-- After an exception no more is assigned. -/
theorem interrupted_left (s : State) (x : Trace) : (s.interrupted x).Weakens s :=
  ⟨(fun _ ha => (AttrSet.mem_eraseAll.1 ha).1), (LeadsTo.interrupted s x).stays⟩

/-- States that are the same for a loop say no more than each other. -/
theorem of_same (h : s.same t = true) : t.Weakens s := by
  have hescaped : s.escaped = t.escaped := by
    rw [State.same, Bool.and_eq_true] at h
    exact eq_of_beq h.2
  exact ⟨fun a => (mem_defined_iff_of_same h a).2, fun hs => hescaped ▸ hs⟩

/-- A verdict that is safe less often leaves a state that says no more. -/
theorem check (h : s.Weakens s') {v v' : Verdict} (hv : v.isSafe = true → v'.isSafe = true) :
    (s.check v).Weakens (s'.check v') where
  defined a ha := by
    rw [defined_check] at ha ⊢
    exact h.defined a ha
  escaped he := by
    cases hsafe : v.isSafe with
    | false => exact escaped_check hsafe
    | true =>
      have hs' : s'.escaped = true := by rwa [State.check, if_pos (hv hsafe)] at he
      exact (LeadsTo.check s v).stays (h.escaped hs')

theorem define_right (h : s.Weakens s') (attr : Name) : s.Weakens (s'.define attr) := by
  unfold State.define
  split
  · exact h
  · exact ⟨fun a ha => AttrSet.mem_insert.2 (Or.inl (h.defined a ha)), h.escaped⟩

theorem defineAll_right (h : s.Weakens s') (attrs : List Name) :
    s.Weakens (s'.defineAll attrs) := by
  induction attrs generalizing s' with
  | nil => exact h
  | cons attr attrs ih => exact ih (h.define_right attr)

/-- Fewer assignments to a state that says no more leave such a state. -/
theorem defineAll (h : s.Weakens s') {attrs attrs' : List Name} (hattrs : attrs ⊆ attrs') :
    (s.defineAll attrs).Weakens (s'.defineAll attrs') := by
  cases hs : s.escaped with
  | true =>
    rw [defineAll_of_escaped hs]
    exact h.defineAll_right attrs'
  | false =>
    have hs' : s'.escaped = false := Bool.eq_false_iff.2 fun he => by simp [h.escaped he] at hs
    rw [defineAll_of_not_escaped hs, defineAll_of_not_escaped hs']
    refine ⟨fun a ha => ?_, id⟩
    exact AttrSet.mem_insertAll.2 ((AttrSet.mem_insertAll.1 ha).imp (h.defined a) (@hattrs a))

end State.Weakens

/-- The state has the property and says no more than `s'`. -/
structure State.Under (P : State → Prop) (s s' : State) : Prop extends s.Weakens s' where
  keeps : P s

/-- Both paths have ended, or neither has and the state of the first is under that of the
second. -/
def PathUnder (P : State → Prop) : Option State → Option State → Prop
  | none, none => True
  | some s, some s' => s.Under P s'
  | _, _ => False

section Lasting

variable (hP : Lasts P)

include hP

theorem State.Under.weaken (h : s.Under P s') (ht : t.Weakens s) : t.Under P s' :=
  ⟨ht.trans h.toWeakens, hP s t ht h.keeps⟩

/-- A property that lasts holds where states meet. -/
theorem State.Under.merge (h : s.Under P s') (h' : t.Under P t') :
    (s.merge t).Under P (s'.merge t') :=
  ⟨h.toWeakens.merge h'.toWeakens, hP s _ (.merge_left s t) h.keeps⟩

/-- Paths that say no more meet in one that says no more. -/
theorem PathUnder.mergePaths (h : PathUnder P p p') (h' : PathUnder P q q') :
    PathUnder P (mergePaths p q) (mergePaths p' q') := by
  match p, p', h with
  | none, none, _ => exact h'
  | some s, some s', h =>
    match q, q', h' with
    | none, none, _ => exact h
    | some t, some t', h' => exact h.merge hP h'

theorem State.Under.mergePath (h : s.Under P s') (h' : PathUnder P q q') :
    (s.mergePath q).Under P (s'.mergePath q') :=
  have hs : PathUnder P (some s) (some s') := h
  hs.mergePaths hP h'

end Lasting

/-- Either both paths go on or neither does. -/
theorem PathUnder.cases (h : PathUnder P p p') :
    (p = none ∧ p' = none) ∨ ∃ s s', p = some s ∧ p' = some s' ∧ s.Under P s' := by
  match p, p', h with
  | none, none, _ => exact .inl ⟨rfl, rfl⟩
  | some s, some s', h => exact .inr ⟨s, s', rfl, rfl, h⟩

theorem PathUnder.rel (h : PathUnder P p p') : Option.Rel State.Weakens p p' := by
  rcases h.cases with ⟨rfl, rfl⟩ | ⟨s, s', rfl, rfl, hs⟩
  · exact .none
  · exact .some hs.toWeakens

/-! ## Traces and outcomes -/

/-- All paths that jump are under those that jump in the other. -/
structure Jumps.Under (P : State → Prop) (j j' : Jumps) : Prop where
  broken : PathUnder P j.broken j'.broken
  continued : PathUnder P j.continued j'.continued

/-- The initializer completes at the same place, in a state under that of the other. -/
structure Exit.Under (P : State → Prop) (e e' : Exit) : Prop where
  state : e.state.Under P e'.state
  kind : e.kind = e'.kind
  span : e.span = e'.span

/-- The trace of a walk from `s` that notes these escapes is under another: it returns and jumps at
the same places in states under those of the other, deletes what the other deletes, and if the
other notes an escape, this walk does or the receiver had escaped before it. -/
structure Trace.Under (P : State → Prop) (s : State) (l : List Escape) (x x' : Trace) : Prop where
  exits : List.Forall₂ (Exit.Under P) x.exits x'.exits
  leading : x.leading.Under P x'.leading
  trailing : x.trailing.Under P x'.trailing
  deletions : x'.deletions ⊆ x.deletions
  flagged : x'.escapes ≠ [] → Flagged s l

/-- The outcome of a walk from `s` is under another. -/
structure Outcome.Under (P : State → Prop) (s : State) (o o' : Outcome) : Prop where
  next : PathUnder P o.next o'.next
  trace : o.trace.Under P s o.trace.escapes o'.trace

namespace Trace

/-- A verdict leaves nothing behind but the escape it may be. -/
theorem ofVerdict_eq (v : Verdict) (s : State) :
    ofVerdict v s = { (∅ : Trace) with escapes := (ofVerdict v s).escapes } := by
  unfold ofVerdict
  split
  · split <;> rfl
  · rfl

/-- A safe verdict notes no escape. -/
theorem escapes_ofVerdict_of_isSafe {v : Verdict} (h : v.isSafe = true) (s : State) :
    (ofVerdict v s).escapes = [] := by
  cases v with
  | safe => rfl
  | escapes _ | aliases _ => simp [Verdict.isSafe] at h

end Trace

namespace Jumps.Under

variable {j j' k k' : Jumps}

theorem none : Jumps.none.Under P Jumps.none := ⟨trivial, trivial⟩

/-- Jumps that say no more merge into such. -/
theorem merge (hP : Lasts P) (h : j.Under P j') (h' : k.Under P k') :
    (j.merge k).Under P (j'.merge k') :=
  ⟨h.broken.mergePaths hP h'.broken, h.continued.mergePaths hP h'.continued⟩

end Jumps.Under

namespace Trace.Under

variable {x x' y y' : Trace}

theorem empty : (∅ : Trace).Under P s l ∅ :=
  ⟨.nil, .none, .none, List.Subset.refl _, fun h => absurd rfl h⟩

theorem ofExit {e e' : Exit} (h : e.Under P e') : (Trace.ofExit e).Under P s l (.ofExit e') :=
  ⟨.cons h .nil, .none, .none, List.Subset.refl _, fun h => absurd rfl h⟩

theorem ofJumps {j j' : Jumps} (h : j.Under P j') : (Trace.ofJumps j).Under P s l (.ofJumps j') :=
  ⟨.nil, .none, h, List.Subset.refl _, fun h => absurd rfl h⟩

theorem ofDeletion (attr : Name) : (Trace.ofDeletion attr).Under P s l (.ofDeletion attr) :=
  ⟨.nil, .none, .none, List.Subset.refl _, fun h => absurd rfl h⟩

/-- Traces that say no more do so one after the other. -/
theorem append (hP : Lasts P) (h : x.Under P s l x') (h' : y.Under P s l y') :
    (x ++ y).Under P s l (x' ++ y') where
  exits := List.rel_append h.exits h'.exits
  leading := h'.leading.merge hP h.leading
  trailing := h.trailing.merge hP h'.trailing
  deletions := List.append_subset.2 ⟨List.subset_append_of_subset_left _ h.deletions,
    List.subset_append_of_subset_right _ h'.deletions⟩
  flagged hne := by
    rw [escapes_append, ne_eq, List.append_eq_nil_iff, not_and_or] at hne
    exact hne.elim h.flagged h'.flagged

/-- The walk may start further back. -/
theorem trans (hs : s.LeadsTo l t) (h : x.Under P t l x') : x.Under P s l x' :=
  { h with flagged := fun hne => (h.flagged hne).back hs (List.Subset.refl l) }

/-- More escapes may be allowed for. -/
theorem mono (h : x.Under P s l x') (hl : l ⊆ l') : x.Under P s l' x' :=
  { h with flagged := fun hne => (h.flagged hne).mono hl }

theorem jumps (hP : Lasts P) (h : x.Under P s l x') : x.jumps.Under P x'.jumps :=
  h.leading.merge hP h.trailing

theorem withoutJumps (h : x.Under P s l x') : x.withoutJumps.Under P s l x'.withoutJumps :=
  ⟨h.exits, .none, .none, h.deletions, h.flagged⟩

theorem withoutExits (h : x.Under P s l x') : x.withoutExits.Under P s l x'.withoutExits :=
  ⟨.nil, h.leading, h.trailing, h.deletions, h.flagged⟩

/-- A verdict that is safe less often notes more. -/
theorem ofVerdict {v v' : Verdict} (hv : v.isSafe = true → v'.isSafe = true) :
    (Trace.ofVerdict v s).Under P s (Trace.ofVerdict v s).escapes (.ofVerdict v' s') := by
  have hflagged : (Trace.ofVerdict v' s').escapes ≠ [] →
      Flagged s (Trace.ofVerdict v s).escapes := by
    intro hne
    cases hsafe : v.isSafe with
    | false => exact flagged_ofVerdict hsafe s
    | true => exact absurd (escapes_ofVerdict_of_isSafe (hv hsafe) s') hne
  rw [Trace.ofVerdict_eq v s, Trace.ofVerdict_eq v' s']
  exact ⟨.nil, .none, .none, List.Subset.refl _, hflagged⟩

end Trace.Under

namespace Outcome.Under

variable {o o' q q' : Outcome} {w w' : State → Outcome}

/-- The start can be put further back. -/
theorem trans (hs : s.LeadsTo o.trace.escapes t) (h : o.Under P t o') : o.Under P s o' :=
  ⟨h.next, h.trace.trans hs⟩

theorem goOn (h : t.Under P t') : (Outcome.goOn t).Under P s (.goOn t') := ⟨h, .empty⟩

theorem stop {x x' : Trace} (h : x.Under P s x.escapes x') :
    (Outcome.stop x).Under P s (.stop x') := ⟨trivial, h⟩

theorem check (hP : Lasts P) (h : s.Under P s') {v v' : Verdict}
    (hv : v.isSafe = true → v'.isSafe = true) : (Outcome.check v s).Under P s (.check v' s') :=
  ⟨⟨h.toWeakens.check hv, hP s _ (.check_left s v) h.keeps⟩, .ofVerdict hv⟩

/-- What follows need only be compared from the two states that are reached. -/
theorem andThen (hP : Lasts P) (ho : o.StemsFrom s) (h : o.Under P s o')
    (hw : ∀ t t', o.next = some t → o'.next = some t' → t.Under P t' → (w t).Under P t (w' t')) :
    (o.andThen w).Under P s (o'.andThen w') := by
  -- Both walks go on or neither does.
  rcases h.next.cases with ⟨hn, hn'⟩ | ⟨t, t', hn, hn', ht⟩
  · rwa [andThen_of_none hn, andThen_of_none hn']
  · rw [andThen_of_some hn, andThen_of_some hn']
    have hleft : o.trace.escapes ⊆ (o.trace ++ (w t).trace).escapes := List.subset_append_left _ _
    have hright : (w t).trace.escapes ⊆ (o.trace ++ (w t).trace).escapes :=
      List.subset_append_right _ _
    have hwt := hw t t' hn hn' ht
    exact ⟨hwt.next, (h.trace.mono hleft).append hP
      ((hwt.trace.mono hright).trans ((ho.next t hn).mono hleft))⟩

/-- Branches that say no more do so together. -/
theorem either (hP : Lasts P) (h : o.Under P s o') (h' : q.Under P s q') :
    (o.either q).Under P s (o'.either q') :=
  ⟨h.next.mergePaths hP h'.next, (h.trace.mono (List.subset_append_left _ _)).append hP
    (h'.trace.mono (List.subset_append_right _ _))⟩

/-- A body that is walked to its end completes at the same places. -/
theorem exits (h : o.Under P s o') : List.Forall₂ (Exit.Under P) o.exits o'.exits := by
  refine List.rel_append h.trace.exits ?_
  rcases h.next.cases with ⟨hn, hn'⟩ | ⟨t, t', hn, hn', ht⟩
  · rw [hn, hn']
    exact .nil
  · rw [hn, hn']
    exact .cons ⟨ht, rfl, rfl⟩ .nil

/-- A property that lasts holds where the body completes. -/
theorem keeps_exits (h : o.Under P s o') : ∀ e ∈ o.exits, P e.state := by
  have hkeeps : List.Forall₂ (fun e e' => P e.state ∧ Exit.Under P e e') o.exits o'.exits :=
    h.exits.imp fun _ _ he => ⟨he.state.keeps, he⟩
  exact ((List.forall₂_and_left _ _).1 hkeeps).1

/-- The state in which an exception leaves the code. -/
theorem interrupted (hP : Lasts P) (h : o.Under P s o') (hs : s.Under P s') :
    (s.interrupted o.trace).Under P (s'.interrupted o'.trace) := by
  refine ⟨⟨fun a ha => ?_, fun he => ?_⟩, hP s _ (.interrupted_left s _) hs.keeps⟩
  · obtain ⟨hmem, hnot⟩ := AttrSet.mem_eraseAll.1 ha
    exact AttrSet.mem_eraseAll.2 ⟨hs.defined a hmem, fun h' => hnot (h.trace.deletions h')⟩
  · have hflagged : Flagged s o.trace.escapes := by
      rcases (State.LeadsTo.interrupted s' o'.trace).cause he with he | hne
      · exact .inl (hs.escaped he)
      · exact h.trace.flagged hne
    simpa [State.interrupted, Flagged] using hflagged

/-- A `try` statement without a last block. -/
theorem region (hP : Lasts P) (ho : o.StemsFrom s) (h : o.Under P s o')
    (hw : ∀ t t', t.Under P t' → (w t).Under P t (w' t'))
    (hq : q.Under P (s.interrupted o.trace) q') :
    ((o.andThen w).either q).Under P s ((o'.andThen w').either q') := by
  have hthrough := h.andThen hP ho fun t t' _ _ => hw t t'
  have hsub : o.trace.escapes ⊆ ((o.andThen w).either q).trace.escapes :=
    List.subset_append_of_subset_left _ (escapes_subset_andThen o w)
  exact ⟨hthrough.next.mergePaths hP hq.next,
    (hthrough.trace.mono (List.subset_append_left _ _)).append hP
      ((hq.trace.mono (List.subset_append_right _ _)).trans
        ((State.LeadsTo.interrupted s o.trace).mono hsub))⟩

end Outcome.Under

/-- What one round of a loop comes to is under what a round of another comes to. -/
structure Round.Under (P : State → Prop) (head : State) (r r' : Round) : Prop where
  tested : r.tested.Under P r'.tested
  next : r.next.Under P r'.next
  broken : PathUnder P r.body.trace.jumps.broken r'.body.trace.jumps.broken
  trace : r.trace.Under P head r.trace.escapes r'.trace

/-- A walk stems from where it starts, and from a state under another it is under the other walk. -/
structure WalksUnder (P : State → Prop) (w w' : State → Outcome) : Prop where
  stems : ∀ s, (w s).StemsFrom s
  under : ∀ {s s'}, s.Under P s' → (w s).Under P s (w' s')

/-! ## Loops -/

namespace Loop

variable {l l' : Loop}

theorem leading_round (l : Loop) (head : State) : (l.round head).trace.leading = .none := by
  show (Jumps.none.merge (Trace.ofVerdict (l.test head) head).leading) = .none
  rw [Trace.ofVerdict_eq]
  rfl

theorem trailing_round (l : Loop) (head : State) : (l.round head).trace.trailing = .none := by
  show ((Trace.ofVerdict (l.test head) head).trailing.merge Jumps.none) = .none
  rw [Trace.ofVerdict_eq]
  rfl

/-- The jumps of a loop stay inside it. -/
theorem jumps_settle (l : Loop) (head : State) :
    (l.settle head).trace.leading = .none ∧ (l.settle head).trace.trailing = .none := by
  induction head using l.settle_induction with
  | done head h =>
    rw [settle_of_same l h]
    exact ⟨leading_round l head, trailing_round l head⟩
  | again head h ih =>
    rw [settle_of_not_same l h]
    constructor
    · show Jumps.merge _ (l.round head).trace.leading = .none
      rw [ih.1, leading_round]
      rfl
    · show Jumps.merge (l.round head).trace.trailing _ = .none
      rw [ih.2, trailing_round]
      rfl

/-- A round makes the head weaker, whatever the body does. -/
theorem next_weakens (l : Loop) (head : State) : (l.round head).next.Weakens head := by
  have htested : (l.round head).tested.Weakens head := .check_left head _
  unfold Round.next
  cases mergePaths (l.round head).body.next (l.round head).body.trace.jumps.continued with
  | none => exact htested
  | some t => exact (State.Weakens.merge_left _ t).trans htested

/-- The head at rest is weaker than the head the loop starts from. -/
theorem rest_weakens (l : Loop) (head : State) : (l.rest head).Weakens head := by
  induction head using l.settle_induction with
  | done head h =>
    rw [rest_of_same l h]
    exact .refl head
  | again head h ih =>
    rw [rest_of_not_same l h]
    exact ih.trans (l.next_weakens head)

variable (hP : Lasts P)
  (htest : ∀ {s s'}, s.Under P s' → (l.test s).isSafe = true → (l'.test s').isSafe = true)
  (hbody : WalksUnder P l.body l'.body)

include hP htest hbody

/-- A round from a head that says no more leaves one that says no more. -/
theorem under_round {head head' : State} (h : head.Under P head') :
    (l.round head).Under P head (l'.round head') := by
  have htested : (l.round head).tested.Under P (l'.round head').tested :=
    ⟨h.toWeakens.check (htest h), hP head _ (.check_left head _) h.keeps⟩
  have hround : (l.round head).body.Under P (l.round head).tested (l'.round head').body :=
    hbody.under htested
  have hjumps := hround.trace.jumps hP
  refine ⟨htested, ?_, hjumps.broken, ?_⟩
  · exact htested.mergePath hP (hround.next.mergePaths hP hjumps.continued)
  · have hsub : (l.round head).body.trace.escapes ⊆ (l.round head).trace.escapes :=
      List.subset_append_right _ _
    exact ((Trace.Under.ofVerdict (htest h)).mono (List.subset_append_left _ _)).append hP
      ((hround.trace.withoutJumps.mono hsub).trans (tested_leadsTo l head))

/-- One more round leaves the head at rest as it is, so it is under the next head of the other
loop as well. -/
theorem rest_under_next {s head' : State} (h : (l.rest s).Under P head') :
    (l.rest s).Under P (l'.round head').next :=
  (under_round hP htest hbody h).next.weaken hP (.of_same (l.same_next_rest s))

/-- The head at rest is under every head of the other loop, and the last round under all of its
rounds. -/
theorem rest_under {s : State} (head' : State) (h : (l.rest s).Under P head') :
    (l.lastRound s).tested.Under P (l'.settle head').tested ∧
    PathUnder P (l.lastRound s).body.trace.jumps.broken (l'.settle head').broken ∧
    (l.lastRound s).trace.Under P (l.rest s) (l.lastRound s).trace.escapes
      (l'.settle head').trace := by
  induction head' using l'.settle_induction with
  | done head' hsame =>
    have hround := under_round hP htest hbody h
    rw [settle_of_same l' hsame]
    exact ⟨hround.tested, hround.broken, hround.trace⟩
  | again head' hsame ih =>
    have hround := under_round hP htest hbody h
    obtain ⟨htested, hbroken, hlater⟩ := ih (rest_under_next hP htest hbody h)
    have hjumps := l'.jumps_settle head'
    rw [settle_of_not_same l' hsame] at hjumps ⊢
    refine ⟨htested, hbroken, hlater.exits, ?_, ?_, ?_, fun hne => ?_⟩
    · rw [hjumps.1, lastRound, leading_round]
      exact .none
    · rw [hjumps.2, lastRound, trailing_round]
      exact .none
    · exact List.append_subset.2 ⟨hround.trace.deletions, hlater.deletions⟩
    · rw [Trace.escapes_append, ne_eq, List.append_eq_nil_iff, not_and_or] at hne
      exact hne.elim hround.trace.flagged hlater.flagged

/-- What a loop leaves behind is under what the other does. -/
theorem settle_under {s s' : State} (h : s.Under P s') :
    (l.settle s).tested.Under P (l'.settle s').tested ∧
    PathUnder P (l.settle s).broken (l'.settle s').broken ∧
    (l.settle s).trace.Under P s (l.settle s).trace.escapes (l'.settle s').trace := by
  obtain ⟨htested, hbroken, htrace⟩ := rest_under hP htest hbody s'
    (h.weaken hP (l.rest_weakens s))
  rw [tested_settle, broken_settle]
  refine ⟨htested, hbroken, ?_, ?_, ?_, ?_, ?_⟩
  · rw [exits_settle]
    exact htrace.exits
  · rw [(l.jumps_settle s).1, (l'.jumps_settle s').1]
    exact .none
  · rw [(l.jumps_settle s).2, (l'.jumps_settle s').2]
    exact .none
  · exact fun a ha => l.mem_deletions_settle (htrace.deletions ha)
  · exact fun hne => (htrace.flagged hne).back (rest_leadsTo hbody.stems s)
      (l.escapes_lastRound_subset s)

/-- A loop says no more from a head that says no more. -/
theorem walksUnder_walk {orelse orelse' : State → Outcome} (horelse : WalksUnder P orelse orelse')
    (endless : Bool) : WalksUnder P (l.walk endless orelse) (l'.walk endless orelse') where
  stems := stemsFrom_walk hbody.stems horelse.stems endless
  under {s s'} h := by
    obtain ⟨htested, hbroken, htrace⟩ := settle_under hP htest hbody h
    have hlead : s.LeadsTo (l.walk endless orelse s).trace.escapes (l.settle s).tested := by
      rw [tested_settle]
      exact tested_leadsTo_walk hbody.stems endless orelse s
    have hcompleted : (if endless then .stop ∅ else orelse (l.settle s).tested : Outcome).Under P
        (l.settle s).tested (if endless then .stop ∅ else orelse' (l'.settle s').tested) := by
      split
      · exact .stop .empty
      · exact horelse.under htested
    exact ⟨hcompleted.next.mergePaths hP hbroken,
      (htrace.mono (List.subset_append_left _ _)).append hP
        ((hcompleted.trace.mono (List.subset_append_right _ _)).trans hlead)⟩

end Loop

/-! ## `finally` blocks -/

namespace Outcome

variable {o o' : Outcome} {w w' : State → Outcome} (hP : Lasts P) (hw : WalksUnder P w w')

include hP hw

/-- A return that says no more does so behind a `finally` block. -/
theorem under_exitThrough {e e' : Exit} (h : e.Under P e') (he : s.LeadsTo l e.state)
    (hl : (exitThrough w e).escapes ⊆ l) : (exitThrough w e).Under P s l (exitThrough w' e') := by
  have hwalk := hw.under h.state
  have htrace := (hwalk.trace.mono (List.Subset.trans (escapes_subset_exitThrough w e) hl)).trans he
  unfold exitThrough
  rcases hwalk.next.cases with ⟨hn, hn'⟩ | ⟨t, t', hn, hn', ht⟩
  · simp only [hn, hn']
    exact htrace
  · simp only [hn, hn']
    exact htrace.append hP (.ofExit ⟨ht, h.kind, h.span⟩)

/-- So do several, by induction along them. -/
theorem under_foldl_exitThrough {exits exits' : List Exit}
    (h : List.Forall₂ (Exit.Under P) exits exits') {x x' : Trace}
    (hexits : ∀ e ∈ exits, s.LeadsTo l e.state) (hx : x.Under P s l x')
    (hl : (exits.foldl (fun x e => x ++ exitThrough w e) x).escapes ⊆ l) :
    (exits.foldl (fun x e => x ++ exitThrough w e) x).Under P s l
      (exits'.foldl (fun x e => x ++ exitThrough w' e) x') := by
  induction h generalizing x x' with
  | nil => exact hx
  | cons he hes ih =>
    rw [List.forall_mem_cons] at hexits
    refine ih hexits.2 (hx.append hP (under_exitThrough hP hw he hexits.1 ?_)) hl
    exact List.Subset.trans (escapes_exitThrough_subset_foldl w _ x List.mem_cons_self) hl

omit hP in
/-- So does a path. -/
theorem under_onPath (h : PathUnder P p p') (hp : Leads s l p)
    (hl : (onPath w p).trace.escapes ⊆ l) :
    PathUnder P (onPath w p).next (onPath w' p').next ∧
    (onPath w p).trace.Under P s l (onPath w' p').trace := by
  rcases h.cases with ⟨rfl, rfl⟩ | ⟨t, t', rfl, rfl, ht⟩
  · exact ⟨trivial, .empty⟩
  · have hwalk := hw.under ht
    exact ⟨hwalk.next, (hwalk.trace.mono hl).trans (hp t rfl)⟩

/-- So do jumps. -/
theorem under_jumpsThrough {j j' : Jumps} (h : j.Under P j') (hj : j.StemFrom s l)
    (hl : (jumpsThrough w j).escapes ⊆ l) :
    (jumpsThrough w j).Under P s l (jumpsThrough w' j') := by
  obtain ⟨hbnext, hbtrace⟩ := under_onPath hw h.broken hj.broken
    (List.Subset.trans (List.subset_append_left _ _) hl)
  obtain ⟨hcnext, hctrace⟩ := under_onPath hw h.continued hj.continued
    (List.Subset.trans (List.subset_append_right _ _) hl)
  have hboth := hbtrace.append hP hctrace
  exact ⟨hboth.exits, hboth.jumps hP, ⟨hbnext, hcnext⟩, hboth.deletions, hboth.flagged⟩

/-- A region and its `finally` block. -/
theorem Under.closeWith (ho : o.StemsFrom s) (h : o.Under P s o') :
    (o.closeWith w).Under P s (o'.closeWith w') := by
  have hregion := h.trace.mono (escapes_subset_closeWith o w)
  have hexits : (o.exitsOut w).Under P s (o.closeWith w).trace.escapes (o'.exitsOut w') :=
    under_foldl_exitThrough hP hw h.trace.exits
      (fun e he => (ho.trace.exits e he).mono (escapes_subset_closeWith o w)) .empty
      (escapes_exitsOut_subset_closeWith o w)
  have hjumps := under_jumpsThrough hP hw ((hregion.append hP hexits).jumps hP)
    (stemFrom_jumps_closeWith hw.stems ho) (escapes_jumpsOut_subset_closeWith o w)
  obtain ⟨hnext, hthrough⟩ := under_onPath hw h.next
    (ho.next.mono (escapes_subset_closeWith o w)) (List.subset_append_right _ _)
  refine ⟨hnext, ?_⟩
  rw [trace_closeWith, trace_closeWith]
  exact ((hregion.withoutExits.withoutJumps.append hP hexits.withoutJumps).append hP hjumps).append
    hP hthrough

end Outcome

/-! ## Bodies -/

/-- A call of a base's initializer adds no more than another does, and lets the receiver escape
if the other does. -/
structure BaseCall.Weakens (P : State → Prop) (call call' : BaseCall) : Prop where
  fold : ∀ {s s'}, s.Under P s' → (call.fold true s).Under P (call'.fold true s')
  escapes : ∀ span, (call'.escape? span).isSome = true → (call.escape? span).isSome = true

theorem BaseCall.fold_false (call : BaseCall) (s : State) : call.fold false s = s := by
  cases call <;> rfl

/-- A call gives both states the same. -/
theorem State.Weakens.fold (h : s.Weakens s') (call : BaseCall) :
    (call.fold true s).Weakens (call.fold true s') := by
  cases call with
  | analyzed _ facts => exact h.defineAll (List.Subset.refl facts.alwaysDefined.toList)
  | inert | missing _ | notABase _ => exact h

theorem State.Weakens.fold_right (h : s.Weakens s') (call : BaseCall) (contributes : Bool) :
    s.Weakens (call.fold contributes s') := by
  cases call with
  | analyzed _ facts =>
    cases contributes with
    | true => exact h.defineAll_right facts.alwaysDefined.toList
    | false => exact h
  | inert | missing _ | notABase _ => exact h

namespace Scope

variable {sc sc' : Scope} {A : Name → Prop} {T : SuperTarget → Prop}

/-- A property that assignments keep holds after all of them. -/
theorem keeps_defineAll {properties : AttrSet}
    (hgain : ∀ s a, A a → a ∉ properties → P s → P (s.define a))
    {attrs : List Name} (hA : ∀ a ∈ attrs, A a) (hnot : ∀ a ∈ attrs, a ∉ properties) (h : P s) :
    P (s.defineAll attrs) := by
  induction attrs generalizing s with
  | nil => exact h
  | cons a attrs ih =>
    rw [List.forall_mem_cons] at hA hnot
    exact ih hA.2 hnot.2 (hgain s a hA.1 hnot.1 h)

/-- What an assignment leaves stems from the state before it. -/
theorem stemsFrom_assign (m : Mode) (v : Verdict) (attrs : List Name) (s : State) :
    (Scope.assign m v attrs s).StemsFrom s := by
  unfold Scope.assign
  split
  · refine .goOn ?_
    unfold Scope.define
    split
    · exact .refl s _
    · exact .defineAll s attrs _
  · exact .check v s

/-- So does what a call leaves. -/
theorem stemsFrom_judged (call : BaseCall) (v : AttrSet → Verdict) (m : Mode) (span : Span)
    (s : State) : (call.judged v m span s).StemsFrom s := by
  refine .check_andThen ?_
  dsimp only
  split
  · exact .goOn (.fold call _ _ _)
  · exact .trans (.fold call _ _ _) (.check _ _)

/-- Every walk stems from where it starts. -/
theorem comparison_stems (sc : Scope) : Comparison sc sc (fun _ => True) (fun _ => True)
    (fun _ _ => True) fun w _ => ∀ s, (w s).StemsFrom s where
  properties := rfl
  expr _ := trivial
  fixed _ _ := trivial
  inTurn _ _ := trivial
  goOn s := .goOn (.refl s _)
  raise _ := .stop .empty
  exit _ s := .stop (.ofExit (.refl s _))
  broken s := .stop (.ofJumps ⟨(State.LeadsTo.refl s _).leads, .none⟩)
  continued s := .stop (.ofJumps ⟨.none, (State.LeadsTo.refl s _).leads⟩)
  remove attr s := ⟨(State.LeadsTo.undefine s attr _).leads, .ofDeletion attr⟩
  check _ s := .check _ s
  assign m attrs _ _ _ s := stemsFrom_assign m _ attrs s
  call m span target _ _ s := stemsFrom_judged (sc.baseCall target) _ m span s
  andThen hw hx s := (hw s).andThen hx
  either hw hx s := (hw s).either (hx s)
  loop infinite _ hw hx := Loop.stemsFrom_walk hw hx infinite
  region hw hx hy s := (hw s).region hx (hy _)
  closeWith hw hx s := (hw s).closeWith hx

/-- An assignment that is safe less often says no more. -/
theorem under_assign (hP : Lasts P)
    (hgain : ∀ s a, A a → a ∉ sc.judge.properties → P s → P (s.define a))
    {v v' : Verdict} (hv : v.isSafe = true → v'.isSafe = true) (m : Mode) {attrs : List Name}
    (hA : ∀ a ∈ attrs, A a) (hnot : v.isSafe = true → ∀ a ∈ attrs, a ∉ sc.judge.properties)
    (h : s.Under P s') : (assign m v attrs s).Under P s (assign m v' attrs s') := by
  unfold assign
  cases hsafe : v.isSafe with
  | true =>
    rw [if_pos rfl, if_pos (hv hsafe)]
    refine .goOn ?_
    unfold define
    split
    · exact h
    · exact ⟨h.toWeakens.defineAll (List.Subset.refl _),
        keeps_defineAll hgain hA (hnot hsafe) h.keeps⟩
  | false =>
    have hnot' : ¬v.isSafe = true := by simp [hsafe]
    -- The first verdict is not safe. The second may be, and then it has assigned what the first has
    -- not.
    rw [if_neg (by simp)]
    have hcheck : (Outcome.check v s).Under P s (.check v' s') :=
      .check hP h fun hs => absurd hs hnot'
    have hquiet : (Trace.ofVerdict v s).Under P s (Trace.ofVerdict v s).escapes
        (.ofVerdict .safe s') := .ofVerdict fun _ => rfl
    split
    · have hweak : (s.check v).Weakens (define m attrs s') := by
        have hleft := (State.Weakens.check_left s v).trans h.toWeakens
        unfold define
        split
        · exact hleft
        · exact hleft.defineAll_right attrs
      exact ⟨⟨hweak, hP s _ (.check_left s v) h.keeps⟩, hquiet⟩
    · exact hcheck

/-- What is left of a call once its arguments are judged and the base's attributes are added. -/
theorem under_escape {call call' : BaseCall} (hP : Lasts P) (hcall : call.Weakens P call')
    (span : Span) (h : t.Under P t') :
    (match call.escape? span with
      | none => .goOn t
      | some site => .check (.escapes site) t : Outcome).Under P t
    (match call'.escape? span with
      | none => .goOn t'
      | some site => .check (.escapes site) t') := by
  cases hesc : call.escape? span with
  | none =>
    have hesc' : call'.escape? span = none := by
      by_contra hne
      have hsome := hcall.escapes span (Option.isSome_iff_ne_none.2 hne)
      rw [hesc] at hsome
      exact absurd hsome (by simp)
    rw [hesc']
    exact .goOn h
  | some site =>
    have hsite : ∀ v : Verdict, (Outcome.check (.escapes site) t).Under P t (.check v t') :=
      fun v => .check hP h fun hs => absurd hs (by simp [Verdict.isSafe])
    cases call'.escape? span with
    | none => exact hsite .safe
    | some site' => exact hsite (.escapes site')

/-- A call that gives less says no more. -/
theorem under_judged {call call' : BaseCall} (hP : Lasts P) (hcall : call.Weakens P call')
    {v v' : AttrSet → Verdict} (m : Mode) (span : Span)
    (hv : (v s.defined).isSafe = true → (v' s'.defined).isSafe = true) (h : s.Under P s') :
    (call.judged v m span s).Under P s (call'.judged v' m span s') := by
  refine (Outcome.Under.check hP h hv).andThen hP (.check _ s) ?_
  intro t t' ht ht' hunder
  dsimp only
  refine .trans (.fold call _ t _) (under_escape hP hcall span ?_)
  cases hsafe : (v s.defined).isSafe with
  | true =>
    rw [hv hsafe]
    cases m.shielded with
    | true =>
      rw [Bool.not_true, Bool.and_false, BaseCall.fold_false, BaseCall.fold_false]
      exact hunder
    | false => exact hcall.fold hunder
  | false =>
    rw [Bool.false_and, BaseCall.fold_false]
    exact ⟨hunder.toWeakens.fold_right call' _, hunder.keeps⟩

/-- Walks with a stricter judge and calls that give less say no more. -/
theorem comparison_under (hP : Lasts P) (hjudge : sc.judge.Milder sc'.judge)
    (hgain : ∀ s a, A a → a ∉ sc.judge.properties → P s → P (s.define a))
    (hcall : ∀ target, T target → (sc.baseCall target).Weakens P (sc'.baseCall target)) :
    Comparison sc sc' A T
      (fun v v' => ∀ {d d' : AttrSet}, d ⊆ d' → (v d).isSafe = true → (v' d').isSafe = true)
      (WalksUnder P) where
  properties := hjudge.properties
  expr e _ _ hd := Judge.isSafe_expr_mono hjudge hd e
  fixed _ _ _ _ _ := id
  inTurn hu hv _ _ hd hsafe := by
    rw [Verdict.isSafe_andThen, Bool.and_eq_true] at hsafe ⊢
    exact ⟨hu hd hsafe.1, hv hd hsafe.2⟩
  goOn := ⟨(comparison_stems sc).goOn, fun h => .goOn h⟩
  raise := ⟨(comparison_stems sc).raise, fun _ => .stop .empty⟩
  exit span := ⟨(comparison_stems sc).exit span, fun h => .stop (.ofExit ⟨h, rfl, rfl⟩)⟩
  broken := ⟨(comparison_stems sc).broken, fun h => .stop (.ofJumps ⟨h, trivial⟩)⟩
  continued := ⟨(comparison_stems sc).continued, fun h => .stop (.ofJumps ⟨trivial, h⟩)⟩
  remove attr := ⟨(comparison_stems sc).remove attr, fun h =>
    ⟨⟨h.toWeakens.undefine attr, hP _ _ (.undefine_left _ attr) h.keeps⟩, .ofDeletion attr⟩⟩
  check hv := ⟨fun s => .check _ s, fun h => .check hP h (hv h.defined)⟩
  assign m attrs hv hA hnot := ⟨fun s => stemsFrom_assign m _ attrs s,
    fun h => under_assign hP hgain (hv h.defined) m hA (hnot _) h⟩
  call m span target hv hT := ⟨stemsFrom_judged (sc.baseCall target) _ m span,
    fun h => under_judged hP (hcall target hT) m span (hv h.defined) h⟩
  andThen hw hx := ⟨fun s => (hw.stems s).andThen hx.stems,
    fun h => (hw.under h).andThen hP (hw.stems _) fun _ _ _ _ => hx.under⟩
  either hw hx := ⟨fun s => (hw.stems s).either (hx.stems s),
    fun h => (hw.under h).either hP (hx.under h)⟩
  loop infinite hv hw hx := Loop.walksUnder_walk hP (fun h => hv h.defined) hw hx infinite
  region hw hx hy := ⟨fun s => (hw.stems s).region hx.stems (hy.stems _), fun h =>
    (hw.under h).region hP (hw.stems _) (fun _ _ => hx.under)
      (hy.under ((hw.under h).interrupted hP h))⟩
  closeWith hw hx := ⟨fun s => (hw.stems s).closeWith hx.stems,
    fun h => (hw.under h).closeWith hP hx (hw.stems _)⟩

end Scope

/-! ## Summaries -/

/-- A summary says of an attribute that it is assigned if it is so wherever the body completes and
wherever the receiver escapes. -/
theorem Summary.mem_defined_ofOutcome {o : Outcome} {recordSites : Bool} {a : Name} :
    a ∈ (ofOutcome o recordSites).defined ↔ o.exits ≠ [] ∧ (∀ e ∈ o.exits, a ∈ e.state.defined) ∧
      ∀ e ∈ o.trace.escapes, a ∈ e.defined := by
  rw [ofOutcome, mem_defined_ofStates, List.forall_mem_append, List.forall_mem_map,
    List.forall_mem_map, ne_eq, List.map_eq_nil_iff]
  rfl

/-- What the summary of a walk under another says is assigned, that of the other says too, unless
an escape is noted there that lacks it. -/
theorem Outcome.Under.mem_defined {o o' : Outcome} (h : o.Under P s o') {recordSites : Bool}
    {a : Name} (ha : a ∈ (Summary.ofOutcome o recordSites).defined)
    (hescapes : ∀ e ∈ o'.trace.escapes, a ∈ e.defined) :
    a ∈ (Summary.ofOutcome o' recordSites).defined := by
  obtain ⟨hne, hexits, -⟩ := Summary.mem_defined_ofOutcome.1 ha
  have hboth := (List.forall₂_and_left _ _).2 ⟨hexits, h.exits⟩
  have hright :
      List.Forall₂ (fun e' e => a ∈ e'.state.defined ∧ Exit.Under P e e') o'.exits o.exits :=
    .flip (hboth.imp fun _ _ he => ⟨he.2.state.defined a he.1, he.2⟩)
  refine Summary.mem_defined_ofOutcome.2
    ⟨fun hnil => ?_, ((List.forall₂_and_left _ _).1 hright).1, hescapes⟩
  rw [hnil] at hright
  exact hne (List.forall₂_nil_left_iff.1 hright)

/-! ## One body from two states -/

/-- Whether a walk goes on to the end of the body, and where and how the initializer completes. -/
def Outcome.shape (o : Outcome) : Bool × List (ExitKind × Span) :=
  (o.next.isSome, o.exits.map fun e => (e.kind, e.span))

/-- Walks that say no more than each other have the same shape. -/
theorem Outcome.Under.shape_eq {o o' : Outcome} (h : o.Under P s o') : o.shape = o'.shape := by
  have hnext : o.next.isSome = o'.next.isSome := by
    rcases h.next.cases with ⟨hn, hn'⟩ | ⟨t, t', hn, hn', -⟩ <;> simp [hn, hn']
  have hplaces : List.Forall₂ (fun e e' => (e.kind, e.span) = (e'.kind, e'.span))
      o.exits o'.exits := h.exits.imp fun _ _ he => Prod.ext he.kind he.span
  refine Prod.ext hnext ?_
  rw [shape, shape, ← List.forall₂_eq_eq_eq, List.forall₂_map_left_iff, List.forall₂_map_right_iff]
  exact hplaces

namespace Scope

theorem comparison_weaker (sc : Scope) : Comparison sc sc (fun _ => True) (fun _ => True)
    (fun v v' => ∀ {d d' : AttrSet}, d ⊆ d' → (v d).isSafe = true → (v' d').isSafe = true)
    (WalksUnder fun _ => True) :=
  comparison_under (fun _ _ _ _ => trivial) (.refl sc.judge) (fun _ _ _ _ _ => trivial)
    fun _ _ => ⟨fun hs => ⟨hs.toWeakens.fold _, trivial⟩, fun _ => id⟩

/-- A block says no more from a state that says no more. -/
theorem walksUnder_block (sc : Scope) (m : Mode) (body : List Stmt) :
    WalksUnder (fun _ => True) (sc.block m body) (sc.block m body) :=
  sc.comparison_weaker.block body m (fun _ _ => trivial) fun _ _ => trivial

/-- From a weaker state a body is walked under the walk from the other. -/
theorem under_block (sc : Scope) (m : Mode) (body : List Stmt) (h : s.Weakens t) :
    (sc.block m body s).Under (fun _ => True) s (sc.block m body t) :=
  (sc.walksUnder_block m body).under ⟨h, trivial⟩

/-- The state in which both agree is weaker than either, so all walks have one shape. -/
theorem shape_block (sc : Scope) (m : Mode) (body : List Stmt) (s t : State) :
    (sc.block m body s).shape = (sc.block m body t).shape :=
  calc (sc.block m body s).shape
    _ = (sc.block m body (s.merge t)).shape :=
      ((sc.under_block m body (.merge_left s t)).shape_eq).symm
    _ = (sc.block m body t).shape := (sc.under_block m body (.merge_right s t)).shape_eq

end Scope

/-- From any two states a body is walked to its end or not, and completes at the same places in the
same order and manner. If the first state says no more than the second, no state in which the first
walk goes on or completes says more than the one in its place. -/
theorem Graph.block_monotone (g : Graph) (known : ClassTable Facts) (o : Options) (id : ClassId)
    (m : Mode) (body : List Stmt) (s t : State) :
    ((g.scope known o id).block m body s).shape = ((g.scope known o id).block m body t).shape ∧
    (s.Weakens t →
      Option.Rel State.Weakens ((g.scope known o id).block m body s).next
        ((g.scope known o id).block m body t).next ∧
      List.Forall₂ (fun e e' => e.state.Weakens e'.state)
        ((g.scope known o id).block m body s).exits
        ((g.scope known o id).block m body t).exits) := by
  refine ⟨(g.scope known o id).shape_block m body s t, fun h => ?_⟩
  have hunder := (g.scope known o id).under_block m body h
  exact ⟨hunder.next.rel, hunder.exits.imp fun _ _ he => he.state.toWeakens⟩

/-- A loop that may return, in a `try` statement whose last block reads an attribute and assigns
another. -/
def guardedLoop : List Stmt :=
  [.guarded
    [.loopWhile (.var .param ⟨8⟩)
      [.branch (.var .param ⟨9⟩) [.leave none] [], .setAttr ⟨31⟩ (.selfAttr ⟨30⟩)] []] [] []
    [.setAttr ⟨32⟩ (.selfAttr ⟨30⟩)]]

/-- Where the attribute is not assigned yet, the receiver escapes. -/
theorem Graph.block_monotone_guardedLoop :
    ∃ walk, (single.scope ∅ .default ⟨0⟩).block .top guardedLoop = walk ∧
      (walk ⟨∅, false⟩).exits.map (fun e => (e.kind, e.state.defined.toList, e.state.escaped)) =
        [(.returned, [], true), (.fellThrough, [], true)] ∧
      (walk ⟨.ofList [⟨30⟩], false⟩).exits.map
          (fun e => (e.kind, e.state.defined.toList, e.state.escaped)) =
        [(.returned, [⟨30⟩, ⟨32⟩], false), (.fellThrough, [⟨30⟩, ⟨32⟩], false)] ∧
      (walk ⟨∅, false⟩).shape = (walk ⟨.ofList [⟨30⟩], false⟩).shape ∧
      Option.Rel State.Weakens (walk ⟨∅, false⟩).next (walk ⟨.ofList [⟨30⟩], false⟩).next ∧
      List.Forall₂ (fun e e' => e.state.Weakens e'.state) (walk ⟨∅, false⟩).exits
        (walk ⟨.ofList [⟨30⟩], false⟩).exits := by
  obtain ⟨hshape, hmono⟩ := block_monotone single ∅ .default ⟨0⟩ .top guardedLoop
    ⟨∅, false⟩ ⟨.ofList [⟨30⟩], false⟩
  refine ⟨_, rfl, by cbv, by cbv, hshape, hmono ⟨?_, ?_⟩⟩
  · exact fun a ha => absurd ha (AttrSet.not_mem_empty a)
  · exact id

end DefiniteInit
