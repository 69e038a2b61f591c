import DefiniteInit.Proofs.Schedules
import DefiniteInit.Proofs.ThoroughWalk
import Mathlib.Order.BooleanAlgebra.Set

/-!
# Initializers that run those of their bases

In a run of an initializer a call of a base's initializer runs the body of that base, which
calls the initializers of its own bases in turn (`Graph.initializing`). The walk over a body
knows a base by its facts alone. These say what is assigned when the base is done, and
not what the base takes away.

So the facts of a class hold of every run that completes, as long as nothing is taken away
behind the back of the walk (`Graph.assigned_of_not_loses`). An attribute is, if the
initializer of a base leaves it unassigned which was assigned before, or if the body deletes
what has a default. Behind its back are also the exceptions that enter a `finally` block. Where
one does, in the body or in a base's, only what the thorough walks of all these bodies know is
sure to be assigned (`Graph.surelyAssigned`); whatever else has no default counts as lost
(`Ending.Loses`). The guarantee of a class holds exactly when whatever is so lost is assigned
again.

The walk of bodies and their thorough walk are two ways to treat `finally` blocks. That a
table of facts rests on either (`Graph.RestsOn`) is enough for what it says to be delivered
(`Graph.delivers_initializing`), and is proved of both.
-/

namespace DefiniteInit

/-! ## Calls that run a body -/

/-- How a call is left whose code is left in this way. No jump leads out of a body. -/
def Flow.ofCall : Flow → Flow
  | .next | .returned => .next
  | .unfinished => .unfinished
  | .broke | .continued | .raised => .raised

/-- Whether the event takes attributes away from a caller. -/
def Event.isLoss : Event → Bool
  | .drops _ | .raisesIntoFinal => true
  | _ => false

/-- The code as its caller sees it. Of what happens in it only losses are seen, and which
attributes are gone when it is left. -/
def Behaviour.called (b : Behaviour) : Behaviour := fun σ r =>
  ∃ r₁, b σ r₁ ∧
    r = ⟨r₁.flow.ofCall, r₁.log.filter Event.isLoss ++ [.drops (σ \ r₁.attrs)], r₁.attrs⟩

namespace Graph

/-- What calls in the initializer of a class do, if the initializer of a base does what
`bases` says. -/
def calling (g : Graph) (known : ClassTable Facts) (bases : ClassId → Behaviour) (id : ClassId)
    (target : SuperTarget) : Behaviour :=
  match g.baseCall known id target with
  | .analyzed base _ => (bases base).called
  | _ => .plain

/-- Runs of the initializer of a class, with calls fewer than `n` deep. A class without an
initializer uses that of its primary base. -/
def initializing (g : Graph) (known : ClassTable Facts) : Nat → ClassId → Behaviour
  | 0, _ => .never
  | n + 1, id =>
    match (g.class? id).bind Class.initializer with
    | some init => Stmt.execAll (g.calling known (g.initializing known n) id) false init.body
    | none =>
      match g.primaryBase? id with
      | some base => g.initializing known n base
      | none => .plain

end Graph

variable {A : Set Name} {a : Name}

/-- An event that spoils attributes is a loss. -/
theorem Event.Spoils.isLoss {e : Event} (h : e.Spoils A) : e.isLoss = true := by
  cases e with
  | drops _ | raisesIntoFinal => rfl
  | handsOver _ | unbinds _ | deletes _ => exact h.elim

/-- Whether a log spoils anything can be read off its losses alone. -/
theorem unspoiled_filter_isLoss {l : List Event} :
    Unspoiled A (l.filter Event.isLoss) ↔ Unspoiled A l := by
  constructor
  · exact fun h e he hs => h e (List.mem_filter.2 ⟨he, hs.isLoss⟩) hs
  · exact fun h e he => h e (List.mem_filter.1 he).1

/-- One event that drops attributes spoils exactly those. -/
theorem unspoiled_drops {attrs : Set Name} :
    Unspoiled A [.drops attrs] ↔ ∀ a ∈ A, a ∉ attrs := by
  simp [Unspoiled, Event.Spoils]

namespace Behaviour

variable {b : Behaviour}

/-- A call keeps what was assigned before it, apart from what its log takes away. -/
theorem keeps_called : b.called.Keeps := by
  rintro σ r ⟨r₁, -, rfl⟩ a ha hu -
  rw [unspoiled_append, unspoiled_drops] at hu
  constructor
  · by_contra hn
    exact hu.2 a rfl ⟨ha, hn⟩
  · intro τ hτ
    rcases List.mem_append.1 hτ with hτ | hτ
    · exact absurd (List.mem_filter.1 hτ).2 (by simp [Event.isLoss])
    · simp at hτ

/-- What a behaviour can do again, a call of it can do again. -/
theorem Replays.called (hb : b.Replays) : b.called.Replays := by
  rintro σ r ⟨r₁, h₁, rfl⟩ τ
  obtain ⟨r₁', h₁', m⟩ := hb σ r₁ h₁ τ
  refine ⟨_, ⟨r₁', h₁', rfl⟩, by rw [m.flow], m.le, m.ge, fun A hA hu => ?_⟩
  simp only [unspoiled_append, unspoiled_filter_isLoss, unspoiled_drops] at hu ⊢
  refine ⟨m.unspoiled A hA hu.1, fun a ha hdrop => hu.2 a ha ⟨hA a ha hdrop.1, fun hr₁ => ?_⟩⟩
  exact hdrop.2 (m.ge a (fun _ => hdrop.1) hr₁)

theorem isPlain_ofCall (f : Flow) : f.ofCall.isPlain = true := by cases f <;> rfl

/-- A call reports no deletion: what the body it runs takes away, the caller sees as dropped. -/
theorem not_deletes_of_called {σ : Set Name} {r : Ending} (h : b.called σ r) (a : Name) :
    Event.deletes a ∉ r.log := by
  obtain ⟨r₁, -, rfl⟩ := h
  intro ha
  rcases List.mem_append.1 ha with ha | ha
  · exact absurd (List.mem_filter.1 ha).2 (by simp [Event.isLoss])
  · simp at ha

end Behaviour

namespace Graph

variable {g : Graph} {known : ClassTable Facts} {o : Options}

/-- However the bases behave, a call of one of them keeps what its log does not take away. -/
theorem keeps_calling (bases : ClassId → Behaviour) (id : ClassId) (t : SuperTarget) :
    (g.calling known bases id t).Keeps := by
  unfold calling
  split
  · exact Behaviour.keeps_called
  · exact Behaviour.keeps_law.plain

/-- Calls of bases replay when the bases do. -/
theorem replays_calling {bases : ClassId → Behaviour} (h : ∀ c, (bases c).Replays) (id : ClassId)
    (t : SuperTarget) : (g.calling known bases id t).Replays := by
  unfold calling
  split
  · exact (h _).called
  · exact Behaviour.replays_law.plain

/-- A call that runs the initializer of a class whose facts are known is one of a base, which the
table of facts has no part in choosing. -/
theorem exists_baseCallOn {id base : ClassId} {facts : Facts} {t : SuperTarget}
    (h : g.baseCall known id t = .analyzed base facts) :
    .inUnit base ∈ g.bases id ∧ known.get? base = some facts ∧
      ∀ known' facts', known'.get? base = some facts' →
        g.baseCall known' id t = .analyzed base facts' := by
  -- The base is settled by the call alone; only its facts come from the table.
  have hon : ∀ b, g.baseCallOn known b = .analyzed base facts →
      b = .inUnit base ∧ known.get? base = some facts ∧
        ∀ known' facts', known'.get? base = some facts' →
          g.baseCallOn known' b = .analyzed base facts' := by
    intro b hcall
    cases b with
    | foreign _ => simp [baseCallOn] at hcall
    | inUnit base' =>
      simp only [baseCallOn] at hcall ⊢
      split at hcall
      · simp at hcall
      · rename_i hinert
        cases hfacts : known.get? base' with
        | none => simp [hfacts] at hcall
        | some facts' =>
          obtain ⟨rfl, rfl⟩ : base' = base ∧ facts' = facts := by simpa [hfacts] using hcall
          exact ⟨rfl, hfacts, fun known' facts' h' => by rw [if_neg hinert, h']⟩
  cases t with
  | next =>
    cases hb : (g.bases id).head? with
    | none => simp [baseCall, hb] at h
    | some b =>
      simp only [baseCall, hb] at h ⊢
      obtain ⟨rfl, hrest⟩ := hon b h
      exact ⟨List.mem_of_head? hb, hrest⟩
  | explicit name =>
    cases hb : (g.bases id).find? (g.isNamed name) with
    | none =>
      simp only [baseCall, hb] at h
      split at h <;> simp at h
    | some b =>
      simp only [baseCall, hb] at h ⊢
      obtain ⟨rfl, hrest⟩ := hon b h
      exact ⟨List.mem_of_find?_eq_some hb, hrest⟩

/-- A call that is analyzed goes to a base in the unit whose facts are known. -/
theorem baseCall_eq_analyzed {id base : ClassId} {facts : Facts} {t : SuperTarget}
    (h : g.baseCall known id t = .analyzed base facts) :
    base ∈ g.localBases id ∧ known.get? base = some facts :=
  ⟨mem_localBases.2 (exists_baseCallOn h).1, (exists_baseCallOn h).2.1⟩

/-- The table has facts for every class. -/
def IsFull (g : Graph) (known : ClassTable Facts) : Prop :=
  ∀ id ∈ g.ids, ∃ facts, known.get? id = some facts

/-- What calls run depends on which classes have facts, and not on the facts. -/
theorem calling_congr {known' : ClassTable Facts} (h : g.IsFull known) (h' : g.IsFull known')
    (bases : ClassId → Behaviour) (id : ClassId) (t : SuperTarget) :
    g.calling known bases id t = g.calling known' bases id t := by
  -- A full table knows every base, so a call analyzed with one table is analyzed with any other.
  have hswap : ∀ {k k' : ClassTable Facts} {base : ClassId} {facts : Facts}, g.IsFull k' →
      g.baseCall k id t = .analyzed base facts →
      ∃ facts', g.baseCall k' id t = .analyzed base facts' := by
    intro k k' base facts hfull hcall
    obtain ⟨hbase, -, hswap⟩ := exists_baseCallOn hcall
    obtain ⟨facts', hfacts'⟩ := hfull base (mem_ids_of_mem_localBases (mem_localBases.2 hbase))
    exact ⟨facts', hswap k' facts' hfacts'⟩
  unfold calling
  cases hcall : g.baseCall known id t with
  | analyzed base facts =>
    obtain ⟨facts', hcall'⟩ := hswap h' hcall
    simp only [hcall']
  | inert | missing _ | notABase _ =>
    cases hcall' : g.baseCall known' id t with
    | analyzed base facts' =>
      obtain ⟨facts, hcall''⟩ := hswap h hcall'
      simp [hcall] at hcall''
    | inert | missing _ | notABase _ => rfl

/-- The runs of a class are the same with every table that knows all the classes. -/
theorem initializing_congr {known' : ClassTable Facts} (h : g.IsFull known)
    (h' : g.IsFull known') (n : Nat) (id : ClassId) :
    g.initializing known n id = g.initializing known' n id := by
  induction n generalizing id with
  | zero => rfl
  | succ n ih =>
    unfold initializing
    rw [funext ih, funext (calling_congr h h' _ id)]

/-! ## Runs as they are read -/

end Graph

/-- Walks and readings that go together, where a call of an initializer is read by reading what
it runs. -/
structure ClosesCalls (close : Closing) (h : Behaviour → Behaviour)
    (fin : Behaviour → Flow → Behaviour) : Prop extends Closes close h fin where
  called : ∀ b : Behaviour, h b.called = (h b).called

/-- The walk as it is goes with runs read as they are. -/
theorem closesCalls_closeWith : ClosesCalls (fun o _ w => o.closeWith w) id Behaviour.final where
  toCloses := closes_closeWith
  called _ := rfl

/-- Hushing commutes with being called. -/
theorem Behaviour.hushed_called (b : Behaviour) : b.called.hushed = b.hushed.called := by
  have hlog : ∀ (l : List Event) (attrs : Set Name),
      (l.filter Event.isLoss ++ [Event.drops attrs]).filter Event.isHeard =
        (l.filter Event.isHeard).filter Event.isLoss ++ [.drops attrs] := by
    intro l attrs
    rw [List.filter_append, List.filter_filter, List.filter_filter]
    simp [Event.isHeard, Bool.and_comm]
  funext σ r
  refine propext ⟨?_, ?_⟩
  · rintro ⟨_, ⟨r₁, h₁, rfl⟩, rfl⟩
    exact ⟨r₁.hushed, ⟨r₁, h₁, rfl⟩, by simp only [Ending.hushed, hlog]⟩
  · rintro ⟨_, ⟨r₁, h₁, rfl⟩, rfl⟩
    exact ⟨_, ⟨r₁, h₁, rfl⟩, by simp only [Ending.hushed, hlog]⟩

/-- The thorough walk goes with hushed runs. -/
theorem closesCalls_closeThoroughly :
    ClosesCalls Outcome.closeThoroughly Behaviour.hushed Behaviour.closing where
  toCloses := closes_closeThoroughly
  called := Behaviour.hushed_called

namespace Graph

variable {g : Graph} {known : ClassTable Facts} {o : Options} {close : Closing}
  {h : Behaviour → Behaviour} {fin : Behaviour → Flow → Behaviour} (C : ClosesCalls close h fin)

include C

/-- Reading a call of a base is calling the base as it is read. -/
theorem read_calling (bases : ClassId → Behaviour) (id : ClassId) (t : SuperTarget) :
    h (g.calling known bases id t) = g.calling known (fun c => h (bases c)) id t := by
  unfold calling
  split
  · exact C.called _
  · exact C.plain

/-- Runs of initializers replay, as they are read. -/
theorem replays_initializing (n : Nat) (id : ClassId) :
    (h (g.initializing known n id)).Replays := by
  induction n generalizing id with
  | zero =>
    rw [initializing, C.never]
    exact Behaviour.replays_law.never
  | succ n ih =>
    unfold initializing
    split
    · refine C.replays_execAll (fun t => ?_) false _
      rw [read_calling C]
      exact replays_calling ih id t
    · split
      · exact ih _
      · rw [C.plain]
        exact Behaviour.replays_law.plain

/-- Runs of initializers keep what their log does not take away, as they are read. -/
theorem keeps_initializing (n : Nat) (id : ClassId) : (h (g.initializing known n id)).Keeps := by
  induction n generalizing id with
  | zero =>
    rw [initializing, C.never]
    exact Behaviour.keeps_law.never
  | succ n ih =>
    unfold initializing
    split
    · refine C.keeps_execAll (fun t => ?_) false _
      rw [read_calling C]
      exact keeps_calling _ id t
    · split
      · exact ih _
      · rw [C.plain]
        exact Behaviour.keeps_law.plain

end Graph

/-! ## Bases that deliver -/

namespace Graph

variable {g : Graph} {known : ClassTable Facts} {o : Options}

/-- The initializer of a class does what its facts say of the attribute, unless a run of it
takes it away. -/
def Delivers (known : ClassTable Facts) (a : Name) (id : ClassId) (b : Behaviour) : Prop :=
  AlwaysDefines known id a → ∀ σ r, b σ r → r.flow.completes = true → Unspoiled {a} r.log →
    a ∈ r.attrs

/-- Calls do what is known of the bases if the initializers of the bases do. -/
theorem faithful_calling {bases : ClassId → Behaviour} {id : ClassId}
    (hreplays : ∀ c, (bases c).Replays)
    (h : ∀ base ∈ g.localBases id, Delivers known a base (bases base)) :
    (g.scope known o id).Faithful {a} (g.calling known bases id) where
  keeps := keeps_calling bases id
  replays := replays_calling hreplays id
  isPlain t σ r hr := by
    cases hcall : g.baseCall known id t with
    | analyzed base facts =>
      rw [calling, hcall] at hr
      refine ⟨?_, Behaviour.not_deletes_of_called hr⟩
      obtain ⟨r₁, -, rfl⟩ := hr
      exact Behaviour.isPlain_ofCall _
    | inert | missing _ | notABase _ =>
      rw [calling, hcall] at hr
      obtain ⟨-, hlog, hplain⟩ := hr
      exact ⟨hplain, by simp [hlog]⟩
  -- A completed call is a completed run of the base, and the base delivers what its facts promise.
  gives t base facts σ r hcall hr hf a' ha' hmem hu := by
    obtain rfl : a' = a := ha'
    have hcall' : g.baseCall known id t = .analyzed base facts := hcall
    obtain ⟨hbase, hfacts⟩ := baseCall_eq_analyzed hcall'
    rw [calling, hcall'] at hr
    obtain ⟨r₁, h₁, rfl⟩ := hr
    have hdone : r₁.flow.completes = true := by
      cases hflow : r₁.flow <;> simp_all [Flow.ofCall, Flow.completes]
    rw [unspoiled_append, unspoiled_filter_isLoss] at hu
    exact h base hbase ⟨facts, hfacts, hmem⟩ σ r₁ h₁ hdone hu.1

/-- What the initializer of a class assigns by the walk that treats `finally` blocks as `close`
says, or that of the base whose initializer it uses. -/
def assignedWith (g : Graph) (close : Closing) (known : ClassTable Facts) (o : Options)
    (id : ClassId) : AttrSet :=
  match (g.class? id).bind Class.initializer with
  | some init =>
    (Summary.ofOutcome ((g.scope known o id).blockWith close .top init.body
      ⟨g.defaultedAttrs id, false⟩) o.recordEscapeSites).defined
  | none => (((g.primaryBase? id).bind known.get?).map Facts.alwaysDefined).getD ∅

/-- What the table says of a class beyond its defaults comes from that walk. -/
def RestsOn (g : Graph) (close : Closing) (o : Options) (known : ClassTable Facts) : Prop :=
  ∀ id ∈ g.ids, ∀ a, AlwaysDefines known id a → a ∉ g.defaultedAttrs id →
    a ∈ g.assignedWith close known o id

/-- The induction is on the depth of calls. A base has no default that the class lacks. -/
theorem delivers_initializing {close : Closing} {h : Behaviour → Behaviour}
    {fin : Behaviour → Flow → Behaviour} (C : ClosesCalls close h fin)
    (hrests : g.RestsOn close o known) (n : Nat) {id : ClassId} (hid : id ∈ g.ids)
    (ha : a ∉ g.defaultedAttrs id) : Delivers known a id (h (g.initializing known n id)) := by
  -- On the length of the chain of calls: the bases run with one call less, and deliver by
  -- hypothesis.
  induction n generalizing id with
  | zero =>
    intro _ σ r hr
    rw [initializing, C.never] at hr
    exact hr.elim
  | succ n ih =>
    intro hdef σ r hr hdone hu
    have hbases : ∀ base ∈ g.localBases id,
        Delivers known a base (h (g.initializing known n base)) :=
      fun base hbase => ih (mem_ids_of_mem_localBases hbase) fun h =>
        ha (mem_defaultedAttrs_of_derivesFrom (.single hbase) h)
    have hmem := hrests id hid a hdef ha
    cases hinit : (g.class? id).bind Class.initializer with
    | some init =>
      simp only [initializing, hinit] at hr
      simp only [assignedWith, hinit] at hmem
      have hfaithful := faithful_calling (o := o) (replays_initializing C n) hbases
      rw [← funext (read_calling C _ id)] at hfaithful
      have hcovers := (g.scope known o id).covers_blockWith C.toCloses _ init.body {a} hfaithful
        .top ⟨g.defaultedAttrs id, false⟩
      -- Before the body nothing is known about the attribute, as it is not defaulted.
      have htells : State.Tells ⟨g.defaultedAttrs id, false⟩ {a} σ := by
        rintro _ rfl hdefault
        exact absurd hdefault ha
      exact (hcovers σ r htells hr hu).assigned hdone rfl hmem
    | none =>
      cases hbase : g.primaryBase? id with
      | none => simp [assignedWith, hinit, hbase] at hmem
      | some base =>
        simp only [initializing, hinit, hbase] at hr
        obtain ⟨facts, hfacts, hmem⟩ : AlwaysDefines known base a := by
          cases hfacts : known.get? base with
          | none => simp [assignedWith, hinit, hbase, hfacts] at hmem
          | some facts =>
            exact ⟨facts, hfacts, by simpa [assignedWith, hinit, hbase, hfacts] using hmem⟩
        exact hbases base (mem_localBases_of_primaryBase? hbase) ⟨facts, hfacts, hmem⟩ σ r hr hdone
          hu

/-! ## The facts and the thorough facts -/

/-- The table of an analyzed hierarchy without cycles is full. -/
theorem isFull_analyze (hcycle : g.findCycle? = none) : g.IsFull (g.analyze o) :=
  fun _ hid => ⟨_, get?_analyze hcycle hid⟩

/-- What a class always defines it has by default, or from its initializer. -/
theorem mem_initialFacts (hcycle : g.findCycle? = none) {id : ClassId}
    (h : AlwaysDefines (g.analyze o) id a) (ha : a ∉ g.defaultedAttrs id) :
    a ∈ (g.initialFacts (g.analyze o) o id).alwaysDefined := by
  obtain ⟨facts, hfacts, hmem⟩ := h
  rw [get?_analyze hcycle (mem_ids_of_get?_analyze hfacts)] at hfacts
  obtain rfl := Option.some.inj hfacts
  unfold factsOf at hmem
  split at hmem
  · simp [Facts.ofTrait] at hmem
  · split at hmem
    · simp [Facts.seeded] at hmem
    · exact (AttrSet.mem_union.1 (AttrSet.mem_filter.1 hmem).1).resolve_left ha

/-- The facts rest on the walk as it is. -/
theorem restsOn_analyze (hcycle : g.findCycle? = none) :
    g.RestsOn (fun o _ w => o.closeWith w) o (g.analyze o) := by
  intro id _ a hdef ha
  have hmem := mem_initialFacts hcycle hdef ha
  cases hinit : (g.class? id).bind Class.initializer with
  | some init =>
    rw [initialFacts, hinit] at hmem
    rw [assignedWith, hinit]
    dsimp only
    -- With the closing of the walk itself the two walks are one.
    rwa [(g.scope (g.analyze o) o id).blockWith_eq_block init.body fun _ _ _ _ => rfl]
  | none =>
    cases hbase : g.primaryBase? id with
    | none => simp [initialFacts, hinit, hbase] at hmem
    | some base =>
      obtain ⟨facts, hfacts⟩ := isFull_analyze (o := o) hcycle base
        (mem_ids_of_mem_localBases (mem_localBases_of_primaryBase? hbase))
      simpa [assignedWith, initialFacts, hinit, hbase, hfacts] using hmem

/-- The facts of a class, but of what it defines only what its initializer is sure to assign
though exceptions enter `finally` blocks. -/
def thoroughFacts (g : Graph) (known : ClassTable Facts) (o : Options) (id : ClassId) : Facts :=
  { g.factsOf known o id with alwaysDefined := g.assignedWith .closeThoroughly known o id }

/-- The thorough facts of a class read the facts of its bases and nothing else. -/
theorem thoroughFacts_congr {known' : ClassTable Facts} {id : ClassId}
    (h : ∀ base ∈ g.localBases id, known.get? base = known'.get? base) :
    g.thoroughFacts known o id = g.thoroughFacts known' o id := by
  have hassigned : g.assignedWith .closeThoroughly known o id =
      g.assignedWith .closeThoroughly known' o id := by
    unfold assignedWith
    cases (g.class? id).bind Class.initializer with
    | some init => simp only [scope, baseCall_congr h]
    | none =>
      cases hbase : g.primaryBase? id with
      | none => rfl
      | some base => simp only [Option.bind_some, h base (mem_localBases_of_primaryBase? hbase)]
  rw [thoroughFacts, thoroughFacts, factsOf_congr h, hassigned]

/-- The thorough facts of all classes. -/
def analyzeThoroughly (g : Graph) (o : Options) : ClassTable Facts :=
  .fill (fun known id => g.thoroughFacts known o id) g.waves.flatten

/-- The thorough table solves its own equations. -/
theorem get?_analyzeThoroughly (hcycle : g.findCycle? = none) {id : ClassId} (hid : id ∈ g.ids) :
    (g.analyzeThoroughly o).get? id = some (g.thoroughFacts (g.analyzeThoroughly o) o id) := by
  have hschedule := isSchedule_waves (findCycle?_eq_none_iff.1 hcycle)
  exact ClassTable.get?_fill (f := fun known id => g.thoroughFacts known o id)
    (fun _ _ _ h => thoroughFacts_congr h) hschedule.basesFirst
    (hschedule.perm.nodup_iff.2 nodup_ids) id (hschedule.perm.mem_iff.2 hid)

/-- The thorough table is full. -/
theorem isFull_analyzeThoroughly (hcycle : g.findCycle? = none) :
    g.IsFull (g.analyzeThoroughly o) :=
  fun _ hid => ⟨_, get?_analyzeThoroughly hcycle hid⟩

/-- What the thorough table promises rests on the thorough walk. -/
theorem restsOn_analyzeThoroughly (hcycle : g.findCycle? = none) :
    g.RestsOn .closeThoroughly o (g.analyzeThoroughly o) := by
  rintro id hid a ⟨facts, hfacts, hmem⟩ -
  rw [get?_analyzeThoroughly hcycle hid] at hfacts
  obtain rfl := Option.some.inj hfacts
  exact hmem

/-- What the initializer of a class is sure to assign, whatever exceptions enter the `finally`
blocks of its body and of the bodies it runs. -/
def surelyAssigned (g : Graph) (o : Options) (id : ClassId) : AttrSet :=
  (((g.analyzeThoroughly o).get? id).map Facts.alwaysDefined).getD ∅

/-- What is surely assigned is what the thorough table promises. -/
theorem alwaysDefines_of_mem_surelyAssigned {id : ClassId} (h : a ∈ g.surelyAssigned o id) :
    AlwaysDefines (g.analyzeThoroughly o) id a := by
  cases hfacts : (g.analyzeThoroughly o).get? id with
  | none => simp [surelyAssigned, hfacts] at h
  | some facts => exact ⟨facts, hfacts, by simpa [surelyAssigned, hfacts] using h⟩

/-- A `finally` block that returns, though an exception is on its way, leaves out what comes after
it. What comes before is sure. -/
example :
    let g := ofDeclarations [(Declaration.named ⟨20⟩).withInitializer
      ⟨[.setAttr ⟨1⟩ (.literal .none),
        .branch (.var .param ⟨9⟩)
          [.guarded [.throwing (.callNamed ⟨12⟩ [])] [] [] [.leave none]] [],
        .setAttr ⟨2⟩ (.literal .none)], .empty⟩]
    ((g.analyze .default).get? ⟨0⟩).map Facts.alwaysDefined = some (.ofList [⟨1⟩, ⟨2⟩]) ∧
      g.surelyAssigned .default ⟨0⟩ = .ofList [⟨1⟩] := by
  decide +kernel

end Graph

/-! ## What a run takes away -/

/-- The run took the attribute away: a base's initializer did, or the body deleted what has a
default, or an exception entered a `finally` block and the attribute has no default and is not
one of those that are sure to be assigned all the same. -/
def Ending.Loses (r : Ending) (defaults sure : AttrSet) (a : Name) : Prop :=
  (∃ attrs, Event.drops attrs ∈ r.log ∧ a ∈ attrs) ∨ (a ∈ defaults ∧ Event.deletes a ∈ r.log) ∨
    (a ∉ defaults ∧ a ∉ sure ∧ Event.raisesIntoFinal ∈ r.log)

/-- A log spares one attribute when it never drops it and no exception enters a final block. -/
theorem unspoiled_singleton {l : List Event} : Unspoiled {a} l ↔
    (∀ attrs, Event.drops attrs ∈ l → a ∉ attrs) ∧ Event.raisesIntoFinal ∉ l := by
  constructor
  · exact fun h => ⟨fun attrs hd ha => h _ hd ⟨a, rfl, ha⟩, fun hr => h _ hr trivial⟩
  · rintro ⟨hdrops, hfinal⟩ e he hs
    cases e with
    | drops attrs =>
      obtain ⟨_, rfl, ha⟩ := hs
      exact hdrops attrs he ha
    | raisesIntoFinal => exact hfinal he
    | handsOver _ | unbinds _ | deletes _ => exact hs

/-- A hushed log spares an attribute as soon as it never drops it. -/
theorem Ending.unspoiled_hushed {r : Ending} (h : ∀ attrs, Event.drops attrs ∈ r.log → a ∉ attrs) :
    Unspoiled {a} r.hushed.log := by
  refine unspoiled_singleton.2 ⟨fun attrs hd => h attrs (List.mem_filter.1 hd).1, fun hr => ?_⟩
  exact absurd (List.mem_filter.1 hr).2 (by simp [Event.isHeard])

namespace Graph

variable {g : Graph} {o : Options}

/-- A run of the initializer of a class that completes. It starts with what the lineage of the
class gives a default. -/
def Initializes (g : Graph) (known : ClassTable Facts) (id : ClassId) (σ : Set Name) (r : Ending) :
    Prop :=
  (∃ n, g.initializing known n id σ r) ∧ (∀ a ∈ g.defaultedAttrs id, a ∈ σ) ∧
    r.flow.completes = true

/-- What a class always defines is assigned when its initializer completes, unless the run
took it away. -/
theorem assigned_of_not_loses (hcycle : g.findCycle? = none) {id : ClassId} {σ : Set Name}
    {r : Ending} (hr : g.Initializes (g.analyze o) id σ r)
    (ha : AlwaysDefines (g.analyze o) id a)
    (hl : ¬r.Loses (g.defaultedAttrs id) (g.surelyAssigned o id) a) : a ∈ r.attrs := by
  obtain ⟨⟨n, hrun⟩, hdefaults, hdone⟩ := hr
  simp only [Ending.Loses, not_or, not_and, not_exists] at hl
  obtain ⟨hdrops, hdeletes, hfinal⟩ := hl
  have hhushed := Ending.unspoiled_hushed hdrops
  have hid : id ∈ g.ids := mem_ids_of_get?_analyze ha.choose_spec.1
  -- A defaulted attribute is there from the start and only has to be kept; any other has to be
  -- assigned by the run, which the thorough table promises for every run and the plain one for runs
  -- that raise into no final block.
  by_cases hdefault : a ∈ g.defaultedAttrs id
  · have hdeleted : Event.deletes a ∉ r.hushed.log :=
      fun h => hdeletes hdefault (List.mem_filter.1 h).1
    exact (keeps_initializing closesCalls_closeThoroughly n id σ r.hushed ⟨r, hrun, rfl⟩ a
      (hdefaults a hdefault) hhushed hdeleted).1
  · by_cases hsure : a ∈ g.surelyAssigned o id
    · rw [initializing_congr (isFull_analyze hcycle) (isFull_analyzeThoroughly hcycle)] at hrun
      exact delivers_initializing closesCalls_closeThoroughly (restsOn_analyzeThoroughly hcycle) n
        hid hdefault (alwaysDefines_of_mem_surelyAssigned hsure) σ r.hushed ⟨r, hrun, rfl⟩ hdone
        hhushed
    · exact delivers_initializing closesCalls_closeWith (restsOn_analyze hcycle) n hid hdefault ha
        σ r hrun hdone (unspoiled_singleton.2 ⟨hdrops, hfinal hdefault hsure⟩)

end Graph

namespace CompileUnit

/-- When the initializer of a class of an analyzed unit completes, each call of a base's
initializer having run that initializer, all that the class always defines is assigned exactly
if what the run took away of it has been assigned again. -/
theorem chain_sound_iff (u : CompileUnit) (o : Options) (report : Report) (u' : CompileUnit)
    (h : u.analyze o = .ok (report, u')) (id : ClassId) (set : AttrSet)
    (hset : u'.alwaysDefined? id = some set) (σ : Set Name) (r : Ending)
    (hr : u'.graph.Initializes u'.facts id σ r) :
    (∀ a ∈ set, a ∈ r.attrs) ↔
      ∀ a ∈ set, r.Loses (u'.graph.defaultedAttrs id) (u'.graph.surelyAssigned o id) a →
        a ∈ r.attrs := by
  obtain ⟨hcycle, hfacts, -⟩ := of_analyze_eq_ok h
  constructor
  · exact fun hsound a ha _ => hsound a ha
  · intro hagain a ha
    by_cases hl : r.Loses (u'.graph.defaultedAttrs id) (u'.graph.surelyAssigned o id) a
    · exact hagain a ha hl
    · obtain ⟨facts, hget, rfl⟩ := Option.map_eq_some_iff.1 hset
      rw [hfacts] at hr hget
      exact Graph.assigned_of_not_loses hcycle hr ⟨facts, hget, ha⟩ hl

/-- A class whose initializer assigns an attribute, calls that of its base, which deletes the
attribute, and may assign it again. -/
def dropping : CompileUnit where
  names := .fresh
  graph := .ofDeclarations
    [(Declaration.named ⟨20⟩).withInitializer ⟨[.delAttr ⟨30⟩], .empty⟩,
      ((Declaration.named ⟨21⟩).addBase ⟨20⟩).withInitializer
        ⟨[.setAttr ⟨30⟩ (.literal .none), .callInit .next [],
          .branch (.var .param ⟨9⟩) [.setAttr ⟨30⟩ (.literal .none)] []], .empty⟩]
  facts := ∅
  narrowed := ∅

/-- The unit with its facts. -/
def droppingAnalyzed : CompileUnit := { dropping with
  facts := dropping.graph.analyze .default
  narrowed := dropping.graph.narrow (dropping.graph.analyze .default) }

/-- The hierarchy has no cycle, so the analysis answers. -/
theorem analyze_dropping : dropping.analyze .default =
    .ok (dropping.graph.report (dropping.graph.analyze .default), droppingAnalyzed) :=
  analyze_eq_ok_iff.2 ⟨fun _ _ => rfl, by decide +kernel, rfl, rfl⟩

/-- The derived class is reported to always define the attribute its base drops. -/
theorem alwaysDefined?_dropping : droppingAnalyzed.alwaysDefined? ⟨1⟩ = some (.ofList [⟨30⟩]) := by
  decide +kernel

open Behaviour in
/-- The initializer of the base, called with the attribute assigned, drops it. -/
theorem called_base_dropping :
    (droppingAnalyzed.graph.initializing droppingAnalyzed.facts 1 ⟨0⟩).called {⟨30⟩}
      ⟨.next, [.drops {⟨30⟩}], ∅⟩ := by
  refine ⟨⟨.next, [.deletes ⟨30⟩], ∅⟩, ?_, by simp [Flow.ofCall, Event.isLoss]⟩
  have hremove : removes ⟨30⟩ {⟨30⟩} ⟨.next, [.deletes ⟨30⟩], ∅⟩ := by simp [removes]
  have hdelete : Target.deleteAll [.ofSelf ⟨30⟩] {⟨30⟩} ⟨.next, [.deletes ⟨30⟩] ++ [], ∅⟩ := by
    rw [Target.deleteAll, Target.deleteAll, Target.ofSelf, Target.delete]
    exact andThen_append (andThen_quiet (plain_quiet rfl _) hremove) (plain_quiet rfl _)
  show Stmt.execAll _ false [.delAttr ⟨30⟩] {⟨30⟩} _
  rw [Stmt.execAll, Stmt.execAll, Stmt.delAttr, Stmt.exec]
  exact andThen_append hdelete rfl

open Behaviour in
/-- The base deletes the attribute, and then the test goes either way. -/
theorem initializes_dropping (again : Bool) :
    droppingAnalyzed.graph.Initializes droppingAnalyzed.facts ⟨1⟩ ∅
      ⟨.next, [.drops {⟨30⟩}], if again then {⟨30⟩} else ∅⟩ := by
  have hdefaults : droppingAnalyzed.graph.defaultedAttrs ⟨1⟩ = ∅ := by decide +kernel
  refine ⟨⟨2, ?_⟩, by simp [hdefaults], rfl⟩
  show Stmt.execAll _ false [.setAttr ⟨30⟩ (.literal .none), .callInit .next [],
    .branch (.var .param ⟨9⟩) [.setAttr ⟨30⟩ (.literal .none)] []] ∅ _
  have hset := fun calls => exec_setAttr calls false ⟨30⟩ (.literal .none) ∅
  simp only [insert_empty_eq] at hset
  have hcall : ∀ calls, calls .next {⟨30⟩} ⟨.next, [.drops {⟨30⟩}], ∅⟩ →
      (Stmt.callInit .next []).exec calls false {⟨30⟩} ⟨.next, [.drops {⟨30⟩}], ∅⟩ := by
    intro calls h
    rw [Stmt.callInit, Stmt.exec]
    exact andThen_quiet (evaluating_quiet _ rfl _) h
  -- The last statement assigns the attribute again or does not, as the caller chooses.
  have hbranch : ∀ calls, (Stmt.branch (.var .param ⟨9⟩) [.setAttr ⟨30⟩ (.literal .none)] []).exec
      calls false ∅ ⟨.next, [], if again then {⟨30⟩} else ∅⟩ := by
    intro calls
    rw [Stmt.branch, Stmt.exec, Stmt.execAll, Stmt.execAll]
    refine andThen_quiet (evaluating_quiet _ rfl _) ?_
    cases again with
    | true => exact Or.inl (andThen_quiet (hset calls) rfl)
    | false => exact Or.inr rfl
  rw [Stmt.execAll, Stmt.execAll, Stmt.execAll, Stmt.execAll]
  refine andThen_quiet (hset _) (andThen_append (hcall _ ?_) (andThen_quiet (hbranch _) rfl))
  have hbase : droppingAnalyzed.graph.baseCall droppingAnalyzed.facts ⟨1⟩ .next =
      .analyzed ⟨0⟩ ⟨∅, false, .analyzed, none⟩ := by decide +kernel
  rw [Graph.calling, hbase]
  exact called_base_dropping

/-- The run that assigns the attribute again has lost it on the way, and has it at the
end. -/
theorem chain_sound_iff_dropping :
    Ending.Loses ⟨.next, [.drops {⟨30⟩}], {⟨30⟩}⟩ (droppingAnalyzed.graph.defaultedAttrs ⟨1⟩)
        (droppingAnalyzed.graph.surelyAssigned .default ⟨1⟩) ⟨30⟩ ∧
      ((∀ a ∈ AttrSet.ofList [⟨30⟩], a ∈ ({⟨30⟩} : Set Name)) ↔ ∀ a ∈ AttrSet.ofList [⟨30⟩],
        Ending.Loses ⟨.next, [.drops {⟨30⟩}], {⟨30⟩}⟩ (droppingAnalyzed.graph.defaultedAttrs ⟨1⟩)
            (droppingAnalyzed.graph.surelyAssigned .default ⟨1⟩) a →
          a ∈ ({⟨30⟩} : Set Name)) :=
  ⟨Or.inl ⟨{⟨30⟩}, by simp, rfl⟩, chain_sound_iff dropping .default _ droppingAnalyzed
    analyze_dropping ⟨1⟩ _ alwaysDefined?_dropping ∅ _ (initializes_dropping true)⟩

/-- The run that does not completes without what its class always defines. -/
theorem not_chain_sound_dropping : ¬∀ σ r,
    droppingAnalyzed.graph.Initializes droppingAnalyzed.facts ⟨1⟩ σ r →
      ∀ set, droppingAnalyzed.alwaysDefined? ⟨1⟩ = some set → ∀ a ∈ set, a ∈ r.attrs := by
  intro h
  have ha := h ∅ _ (initializes_dropping false) _ alwaysDefined?_dropping ⟨30⟩ (by simp)
  simp at ha

end CompileUnit

end DefiniteInit
