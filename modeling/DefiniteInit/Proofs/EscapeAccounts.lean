import DefiniteInit.Proofs.HandOver
import DefiniteInit.Proofs.Permanence

/-!
# Hand-overs that a walk shows

Where a run hands the receiver over, the walk passes a verdict that is not safe. It notes
an escape there, unless its state says already that the receiver has escaped: then the
verdict is overlooked (`overlooked`). Either way the states it goes on in say that the
receiver has escaped, and know no more than was assigned at the hand-over
(`State.Marked`).

`Shown` says this of one hand-over. An outcome tracks a behaviour if it covers it and shows
every hand-over of every run (`Tracks`). Outcomes are put together as the behaviours they
track: one after the other (`Tracks.andThen`), side by side (`Tracks.either`), in a loop
(`Tracks.loop`), in a `try` statement without a last block (`Tracks.region`) and under a
manager (`Tracks.managed`).
-/

namespace DefiniteInit

variable {s t : State} {σ τ : Set Name} {r : Ending} {v w : Verdict} {b c d : Behaviour}
  {o p : Outcome} {ms ns : List State} {f : Flow}

/-! ## Marked states -/

/-- The receiver has escaped, and what is known was so when the attributes `τ` were
assigned. -/
structure State.Marked (s : State) (τ : Set Name) : Prop where
  escaped : s.escaped = true
  tells : s.Tells Set.univ τ

theorem lasts_marked : Lasts fun s => s.Marked τ :=
  fun _ _ hw hs => ⟨hw.escaped hs.escaped, fun a _ ha => hs.tells a trivial (hw.defined a ha)⟩

/-- Since escapes last, a marked state leads to none but marked ones. -/
theorem State.LeadsTo.marked {l : List Escape} (h : s.LeadsTo l t) (hs : s.Marked τ) : t.Marked τ :=
  ⟨h.stays hs.escaped, fun a _ ha => hs.tells a trivial (h.shrinks hs.escaped a ha)⟩

/-- Jumps of each kind stem from where all do. -/
theorem Jumps.StemFrom.on {j : Jumps} {l : List Escape} (h : j.StemFrom s l) (f : Flow) :
    Leads s l (j.on f) := by
  cases f with
  | broke => exact h.broken
  | continued => exact h.continued
  | next | returned | raised | unfinished => exact .none

/-- A walk from a marked state knows how a run leaves the code in none but marked states. -/
theorem Outcome.StemsFrom.endsIn_marked {A : Set Name} (ho : o.StemsFrom s) (hs : s.Marked τ)
    (h : o.Accounts A r) : o.EndsIn (fun s => s.Marked τ) r.flow where
  next hf := by
    obtain ⟨t, ht, -⟩ := h.next hf
    exact ⟨t, ht, (ho.next t ht).marked hs⟩
  trace :=
    { returned := fun hf => by
        obtain ⟨e, he, -⟩ := h.trace.returned hf
        exact ⟨e, he, (ho.trace.exits e he).marked hs⟩
      jumped := fun hf => by
        obtain ⟨t, ht, -⟩ := h.trace.jumped hf
        exact ⟨t, ht, (ho.trace.jumps.on r.flow t ht).marked hs⟩ }

/-! ## Verdicts that are not safe -/

/-- The state, if a verdict passed in it is not safe and goes unnoted. -/
def overlooked (v : Verdict) (s : State) : List State := if s.escaped && !v.isSafe then [s] else []

theorem escaped_check (hv : v.isSafe = false) : (s.check v).escaped = true := by
  simp [State.check, hv, State.escape]

/-- A verdict that is not safe marks the state. -/
theorem marked_check (hv : v.isSafe = false) (hs : s.Tells Set.univ τ) : (s.check v).Marked τ := by
  refine ⟨escaped_check hv, fun a _ ha => hs a trivial ?_⟩
  rwa [State.defined_check] at ha

/-- After an escape a verdict that is not safe is overlooked. -/
theorem mem_overlooked (hv : v.isSafe = false) (hs : s.escaped = true) : s ∈ overlooked v s := by
  simp [overlooked, hs, hv]

/-- A verdict that is not safe is noted where the receiver has not escaped before. -/
theorem exists_noted (hv : v.isSafe = false) (hs : s.escaped = false) :
    ∃ e ∈ (Trace.ofVerdict v s).escapes, e.state = s.escape := by
  cases v with
  | safe => simp [Verdict.isSafe] at hv
  | escapes site | aliases site =>
    exact ⟨⟨s.defined, site⟩, by simp [Trace.ofVerdict, Verdict.site?, hs], rfl⟩

/-- Where judged code hands the receiver over, the verdict on it is not safe, and the
state before it tells what was assigned. -/
theorem Behaviour.Judged.tells_of_handsOver (hb : Judged v b) (hs : s.Tells Set.univ σ) (hr : b σ r)
    (hu : Unspoiled Set.univ r.log) (hτ : Event.handsOver τ ∈ r.log) :
    v.isSafe = false ∧ s.Tells Set.univ τ := by
  constructor
  · by_contra hv
    exact hb.silent (by simpa using hv) σ r hr τ hτ
  · intro a _ ha
    have hkept := hb.keeps σ r hr a (hs a trivial ha) (hu.mono (Set.subset_univ _))
      ((hb.grows σ r hr).2.2 a)
    exact hkept.2 τ hτ

/-! ## Hand-overs that are shown -/

/-- An outcome of a walk from `s` passes over a hand-over with the attributes `τ` assigned, in
a run that leaves the code in the way `f`. -/
structure PassesOver (s : State) (o : Outcome) (missed : List State) (τ : Set Name) (f : Flow) :
    Prop where
  /-- It is known that the receiver may have escaped. -/
  flagged : s.escaped = true ∨ o.trace.escapes ≠ []
  /-- A state in which a verdict is overlooked tells what was assigned. -/
  met : ∃ h ∈ missed, h.Tells Set.univ τ
  /-- The run ends in a marked state. -/
  marked : o.EndsIn (fun s => s.Marked τ) f

/-- The outcome shows the hand-over: as an escape that is noted, or as one passed over. -/
def Shown (s : State) (o : Outcome) (missed : List State) (τ : Set Name) (f : Flow) : Prop :=
  (∃ e ∈ o.trace.escapes, e.state.Tells Set.univ τ) ∨ PassesOver s o missed τ f

/-- What a part of a walk shows, the whole shows. -/
theorem Shown.within {f' : Flow} (h : Shown t o ms τ f) (hlead : s.LeadsTo p.trace.escapes t)
    (hescapes : o.trace.escapes ⊆ p.trace.escapes) (hmissed : ms ⊆ ns)
    (hmarked : PassesOver t o ms τ f → p.EndsIn (fun s => s.Marked τ) f') : Shown s p ns τ f' := by
  rcases h with ⟨e, he, ht⟩ | h
  · exact Or.inl ⟨e, hescapes he, ht⟩
  · obtain ⟨m, hm, ht⟩ := h.met
    refine Or.inr ⟨h.flagged.elim hlead.cause fun hne => Or.inr fun hnil => hne ?_,
      ⟨m, hmissed hm, ht⟩, hmarked h⟩
    exact List.eq_nil_of_subset_nil (hnil ▸ hescapes)

/-- A verdict that is not safe shows a hand-over. -/
theorem Shown.of_verdict (hv : v.isSafe = false) (ht : t.Tells Set.univ τ)
    (hlead : s.LeadsTo o.trace.escapes t)
    (hescapes : (Trace.ofVerdict v t).escapes ⊆ o.trace.escapes) (hmissed : overlooked v t ⊆ ms)
    (hmarked : t.Marked τ → o.EndsIn (fun s => s.Marked τ) f) : Shown s o ms τ f := by
  cases he : t.escaped with
  | true =>
    exact Or.inr ⟨hlead.cause he, ⟨t, hmissed (mem_overlooked hv he), ht⟩, hmarked ⟨he, ht⟩⟩
  | false =>
    obtain ⟨e, hmem, hstate⟩ := exists_noted hv he
    refine Or.inl ⟨e, hescapes hmem, ?_⟩
    rw [hstate]
    exact ht

/-- The outcome of a walk from `s` covers the behaviour and shows the hand-overs of its runs,
but for those that the verdict `v`, passed before `s` was reached, is about. -/
structure Tracks (v : Verdict) (s : State) (o : Outcome) (missed : List State) (b : Behaviour) :
    Prop where
  covers : Covers Set.univ s o b
  stems : o.StemsFrom s
  shows : ∀ σ r, s.Tells Set.univ σ → b σ r → Unspoiled Set.univ r.log →
    ∀ τ, Event.handsOver τ ∈ r.log →
      Shown s o missed τ r.flow ∨ v.isSafe = false ∧ s.Tells Set.univ τ

namespace Tracks

variable {walk : State → Outcome} {after : State → List State}

theorem shown (h : Tracks .safe s o ms b) (hs : s.Tells Set.univ σ) (hr : b σ r)
    (hu : Unspoiled Set.univ r.log) (hτ : Event.handsOver τ ∈ r.log) : Shown s o ms τ r.flow :=
  (h.shows σ r hs hr hu τ hτ).resolve_right (by simp [Verdict.isSafe])

/-- More may be overlooked. -/
theorem mono (h : Tracks v s o ms b) (hms : ms ⊆ ns) : Tracks v s o ns b where
  covers := h.covers
  stems := h.stems
  shows σ r hs hr hu τ hτ := (h.shows σ r hs hr hu τ hτ).imp
    (fun hshown => hshown.within (.refl s _) (List.Subset.refl _) hms fun h => h.marked) id

/-- Nothing is to be shown of code that hands nothing over. -/
theorem of_silent (hb : b.Silent) (hc : Covers Set.univ s o b) (ho : o.StemsFrom s) :
    Tracks .safe s o [] b :=
  ⟨hc, ho, fun σ r _ hr _ τ hτ => absurd hτ (hb σ r hr τ)⟩

theorem goOn (hb : b.Silent) (hg : b.Grows) : Tracks .safe s (.goOn s) [] b :=
  of_silent hb (.goOn hg) (.goOn (.refl s _))

/-- A verdict tracks the code that it is about. -/
theorem check (hb : b.Judged v) : Tracks .safe s (.check v s) (overlooked v s) b where
  covers := .check hb.grows v
  stems := .check v s
  shows σ r hs hr hu τ hτ := by
    obtain ⟨hv, ht⟩ := hb.tells_of_handsOver hs hr hu hτ
    have hplain := (hb.grows σ r hr).2.1
    exact Or.inl (.of_verdict hv ht (.refl s _) (List.Subset.refl _) (List.Subset.refl _)
      fun _ => ⟨fun _ => ⟨_, rfl, marked_check hv ht⟩, .of_plain hplain⟩)

/-- Judged code before code that is tracked. -/
theorem judged_andThen (hb : b.Judged v) (hc : Tracks w s o ms c) :
    Tracks (v.andThen w) s o ms (b.andThen c) where
  covers := .grows_andThen hb.grows hc.covers
  stems := hc.stems
  shows σ r hs hr hu τ hτ := by
    rw [Verdict.isSafe_andThen, Bool.and_eq_false_iff]
    rcases Behaviour.andThen_cases hr with ⟨r₁, r₂, h₁, -, h₂, rfl⟩ | ⟨h, -⟩
    · rw [Ending.log_after, unspoiled_append] at hu
      rcases List.mem_append.1 hτ with hτ | hτ
      · obtain ⟨hv, ht⟩ := hb.tells_of_handsOver hs h₁ hu.1 hτ
        exact Or.inr ⟨Or.inl hv, ht⟩
      · refine (hc.shows _ r₂ (hs.mono (hb.grows σ r₁ h₁).1) h₂ hu.2 τ hτ).imp id ?_
        exact fun h => ⟨Or.inr h.1, h.2⟩
    · obtain ⟨hv, ht⟩ := hb.tells_of_handsOver hs h hu hτ
      exact Or.inr ⟨Or.inl hv, ht⟩

/-- Code with a verdict and code that is tracked are tracked in turn. -/
theorem judged_andThen_safe (hb : b.Judged v) (hc : Tracks .safe s o ms c) :
    Tracks v s o ms (b.andThen c) := by
  have h := judged_andThen hb hc
  rwa [Verdict.andThen_safe] at h

/-- A verdict, and then a walk from the state after it. -/
theorem check_andThen (h : Tracks v (s.check v) (walk (s.check v)) ms b) :
    Tracks .safe s ((Outcome.check v s).andThen walk) (overlooked v s ++ ms) b where
  covers := .check_andThen h.covers
  stems := .check_andThen h.stems
  shows σ r hs hr hu τ hτ := by
    have hs' : (s.check v).Tells Set.univ σ := by rwa [State.Tells, State.defined_check]
    have hescapes := Outcome.escapes_subset_andThen (.check v s) walk
    have hcheck := (State.LeadsTo.check s v).mono hescapes
    left
    rcases h.shows σ r hs' hr hu τ hτ with hshown | ⟨hv, ht⟩
    · exact hshown.within hcheck (List.subset_append_right _ _) (List.subset_append_right _ _)
        fun h => .andThen rfl h.marked lasts_marked
    · rw [State.Tells, State.defined_check] at ht
      have hmarked := h.stems.endsIn_marked (marked_check hv ht) (h.covers σ r hs' hr hu)
      exact .of_verdict hv ht (.refl s _) hescapes (List.subset_append_left _ _)
        fun _ => .andThen rfl hmarked lasts_marked

/-- Walks in turn track code in turn, and overlook what each overlooks where it is walked. -/
theorem andThen (hb : Tracks .safe s o ms b) (hc : ∀ t, Tracks .safe t (walk t) (after t) c) :
    Tracks .safe s (o.andThen walk) (ms ++ o.next.elim [] after) (b.andThen c) where
  covers := .andThen hb.covers fun t => (hc t).covers
  stems := .andThen hb.stems fun t => (hc t).stems
  shows σ r hs hr hu τ hτ := by
    left
    rcases Behaviour.andThen_cases hr with ⟨r₁, r₂, h₁, hf, h₂, rfl⟩ | ⟨h, hf⟩
    · rw [Ending.log_after, unspoiled_append] at hu
      obtain ⟨t, ht, htell⟩ := (hb.covers σ r₁ hs h₁ hu.1).next hf
      have hescapes := Outcome.escapes_subset_andThen o walk
      -- The first part hands over, and then its mark has to last through the second, or the second
      -- does so itself.
      rcases List.mem_append.1 hτ with hτ | hτ
      · refine (hb.shown hs h₁ hu.1 hτ).within (.refl s _) hescapes (List.subset_append_left _ _) ?_
        intro h
        obtain ⟨t', ht', hmark⟩ := h.marked.next hf
        obtain rfl : t' = t := Option.some.inj (ht'.symm.trans ht)
        have hmarked := (hc t').stems.endsIn_marked hmark ((hc t').covers _ r₂ htell h₂ hu.2)
        exact .andThen ht hmarked lasts_marked
      · refine ((hc t).shown htell h₂ hu.2 hτ).within ((hb.stems.next t ht).mono hescapes) ?_ ?_
          fun h => .andThen ht h.marked lasts_marked
        · rw [Outcome.andThen_of_some ht]
          exact List.subset_append_right _ _
        · rw [ht]
          exact List.subset_append_right _ _
    · exact (hb.shown hs h hu hτ).within (.refl s _) (Outcome.escapes_subset_andThen o walk)
        (List.subset_append_left _ _) fun h => h.marked.andThen_of_ne_next lasts_marked hf walk

/-- Walks of branches track both branches. -/
theorem either (hb : Tracks v s o ms b) (hc : Tracks v s p ns c) :
    Tracks v s (o.either p) (ms ++ ns) (b.either c) where
  covers := .either hb.covers hc.covers
  stems := .either hb.stems hc.stems
  shows := by
    rintro σ r hs (h | h) hu τ hτ
    · refine (hb.shows σ r hs h hu τ hτ).imp (fun hshown => ?_) id
      exact hshown.within (.refl s _) (List.subset_append_left _ _) (List.subset_append_left _ _)
        fun h => h.marked.either_left lasts_marked p
    · refine (hc.shows σ r hs h hu τ hτ).imp (fun hshown => ?_) id
      exact hshown.within (.refl s _) (List.subset_append_right _ _) (List.subset_append_right _ _)
        fun h => h.marked.either_right lasts_marked o

/-- A handler runs its body or leaves the exception to the next, which is walked from where
no verdict on the first was passed. -/
theorem handler (hb : b.Judged v) (hc : Tracks .safe (s.check v) (walk (s.check v)) ms c)
    (hd : Tracks .safe s p ns d) :
    Tracks .safe s (((Outcome.check v s).andThen walk).either p) (overlooked v s ++ ms ++ ns)
      (b.andThen (c.either d)) := by
  have hfirst := check_andThen (judged_andThen_safe hb hc)
  have hrest := judged_andThen_safe hb hd
  refine ⟨(Covers.either hfirst.covers hrest.covers).of_imp fun _ _ h => Behaviour.andThen_either h,
    .either hfirst.stems hd.stems, fun σ r hs hr hu τ hτ => Or.inl ?_⟩
  have hleft := List.subset_append_left ((Outcome.check v s).andThen walk).trace.escapes
    p.trace.escapes
  rcases Behaviour.andThen_either hr with h | h
  · exact (hfirst.shown hs h hu hτ).within (.refl s _) hleft (List.subset_append_left _ _)
      fun h => h.marked.either_left lasts_marked p
  · rcases hrest.shows σ r hs h hu τ hτ with hshown | ⟨hv, ht⟩
    · exact hshown.within (.refl s _) (List.subset_append_right _ _) (List.subset_append_right _ _)
        fun h => h.marked.either_right lasts_marked _
    · have hescapes := Outcome.escapes_subset_andThen (.check v s) walk
      exact .of_verdict hv ht (.refl s _) (List.Subset.trans hescapes hleft) (by simp)
        fun hs' =>
          (hd.stems.endsIn_marked hs' (hrest.covers σ r hs h hu)).either_right lasts_marked _

end Tracks

/-! ## Regions left by an exception -/

/-- After a hand-over that is passed over, the state in which an exception leaves the region
is marked. -/
theorem PassesOver.marked_interrupted (h : PassesOver s o ms τ f) (hs : s.Tells Set.univ σ)
    (hb : b.Keeps) (hr : b σ r) (hu : Unspoiled Set.univ r.log) (ho : o.Accounts Set.univ r)
    (hτ : Event.handsOver τ ∈ r.log) : (s.interrupted o.trace).Marked τ where
  escaped := by simpa [State.interrupted] using h.flagged
  tells _ hA ha := (hs.kept hb hr hu ho hA ha).2 τ hτ

namespace Tracks

variable {walk : State → Outcome} {after : State → List State}

/-- A `try` statement without a last block: its body, then the `else` block or a handler. -/
theorem region (hb : Tracks .safe s o ms b) (hk : b.Keeps)
    (hc : ∀ t, Tracks .safe t (walk t) (after t) c)
    (hd : Tracks .safe (s.interrupted o.trace) p ns d) :
    Tracks .safe s ((o.andThen walk).either p) (ms ++ o.next.elim [] after ++ ns)
      (b.bind (.handling d c)) where
  covers := .region hb.covers hk (fun t => (hc t).covers) hd.covers
  stems := .region hb.stems (fun t => (hc t).stems) hd.stems
  shows σ r hs hr hu τ hτ := by
    left
    have hescapes := List.subset_append_left (o.andThen walk).trace.escapes p.trace.escapes
    have hbody := List.Subset.trans (Outcome.escapes_subset_andThen o walk) hescapes
    rcases Behaviour.handling_cases hr with h | ⟨r₁, r₂, h₁, -, h₂, rfl⟩
    · exact ((hb.andThen hc).shown hs h hu hτ).within (.refl s _) hescapes
        (List.subset_append_left _ _) fun h => h.marked.either_left lasts_marked p
    · rw [Ending.log_after, unspoiled_append] at hu
      have ho := hb.covers σ r₁ hs h₁ hu.1
      have hint := hs.interrupted hk h₁ hu.1 ho
      rcases List.mem_append.1 hτ with hτ | hτ
      · refine (hb.shown hs h₁ hu.1 hτ).within (.refl s _) hbody (by simp) fun h => ?_
        have hmark := h.marked_interrupted hs hk h₁ hu.1 ho hτ
        have hmarked := hd.stems.endsIn_marked hmark (hd.covers _ r₂ hint h₂ hu.2)
        exact hmarked.either_right lasts_marked _
      · exact (hd.shown hint h₂ hu.2 hτ).within
          ((State.LeadsTo.interrupted s o.trace).mono hbody) (List.subset_append_right _ _)
          (List.subset_append_right _ _) fun h => h.marked.either_right lasts_marked _

/-- Code under a manager, which may swallow an exception that leaves it. -/
theorem managed (hb : Tracks v s o ms b) (hk : b.Keeps)
    (ho : Fades (some (s.interrupted o.trace)) o.next) : Tracks v s o ms b.managed where
  covers := .managed hb.covers hk ho
  stems := hb.stems
  shows := by
    rintro σ r hs ⟨r₁, r₂, h₁, h₂, rfl⟩ hu τ hτ
    rw [Ending.log_after, unspoiled_append] at hu
    obtain ⟨-, hlog, -⟩ := Behaviour.leaving_cases h₂
    have hτ₁ : Event.handsOver τ ∈ r₁.log := by simpa [hlog] using hτ
    refine (hb.shows σ r₁ hs h₁ hu.1 τ hτ₁).imp (fun hshown => ?_) id
    refine hshown.within (.refl s _) (List.Subset.refl _) (List.Subset.refl _) fun h => ?_
    rw [Ending.flow_after]
    have hmark := h.marked_interrupted hs hk h₁ hu.1 (hb.covers σ r₁ hs h₁ hu.1) hτ₁
    exact h.marked.leaving h₂ fun _ => On.fade lasts_marked ⟨_, rfl, hmark⟩ ho

/-- A walk that may also go on along another path. -/
theorem orElse {q : Option State} (hb : Tracks v s o ms b) (hq : Leads s o.trace.escapes q) :
    Tracks v s ⟨mergePaths o.next q, o.trace⟩ ms b where
  covers := hb.covers.orElse q
  stems := ⟨hb.stems.next.mergePaths hq, hb.stems.trace⟩
  shows σ r hs hr hu τ hτ := by
    refine (hb.shows σ r hs hr hu τ hτ).imp (fun hshown => ?_) id
    exact hshown.within (.refl s _) (List.Subset.refl _) (List.Subset.refl _) fun h =>
      ⟨fun hf => (h.marked.next hf).fade lasts_marked (.merge_left _ _), h.marked.trace⟩

/-- The managers of a `with` statement, each around the next. One verdict on entering them
all is passed before. -/
theorem withItems (hb : Tracks .safe s o ms b) (hk : b.Keeps) (j : Judge) (known : AttrSet) :
    ∀ items : List WithItem, Tracks (Scope.enter j known items) s
      ⟨mergePaths o.next (some (s.interrupted o.trace)), o.trace⟩ ms (WithItem.exec b items)
  | [] => by
    rw [WithItem.exec, Scope.enter]
    exact (hb.orElse (State.LeadsTo.interrupted s o.trace).leads).managed hk (.merge_right _ _)
  | ⟨manager, target⟩ :: rest => by
    rw [WithItem.exec, Scope.enter]
    have hmanager := j.judged_manager known manager
    have htarget := j.judged_target? known target
    refine judged_andThen hmanager
      (managed (judged_andThen htarget (withItems hb hk j known rest)) ?_
      (.merge_right _ _))
    exact Behaviour.keeps_law.andThen htarget.keeps (Behaviour.keeps_law.withItems hk rest)

end Tracks

/-! ## Loops -/

/-- The states in which verdicts are overlooked in a loop: in the test from the head at rest,
in the body and in the `else` block from there. -/
def Loop.missed (l : Loop) (inBody inElse : State → List State) (s : State) : List State :=
  overlooked (l.test (l.rest s)) (l.rest s) ++ inBody (l.lastRound s).tested ++
    inElse (l.lastRound s).tested

section Loops

variable {l : Loop} {orelse : State → Outcome} {endless : Bool} {test body els : Behaviour}
  {inBody inElse : State → List State}

/-- The escapes of the last round are among those of the loop. -/
theorem Loop.escapes_body_walk (l : Loop) (endless : Bool) (orelse : State → Outcome) (s : State) :
    (l.lastRound s).body.trace.escapes ⊆ (l.walk endless orelse s).trace.escapes :=
  List.Subset.trans (List.subset_append_right _ _) (l.escapes_lastRound_walk endless orelse s)

variable (htest : ∀ t, test.Judged (l.test t))
  (hbody : ∀ t, Tracks .safe t (l.body t) (inBody t) body)
  (hels : ∀ t, Tracks .safe t (orelse t) (inElse t) els)

include hbody

/-- What the body shows in the last round the loop shows. -/
theorem Shown.of_body {f' : Flow} (h : Shown (l.lastRound s).tested (l.lastRound s).body
      (inBody (l.lastRound s).tested) τ f)
    (hmarked : (l.lastRound s).body.EndsIn (fun s => s.Marked τ) f →
      (l.walk endless orelse s).EndsIn (fun s => s.Marked τ) f') :
    Shown s (l.walk endless orelse s) (l.missed inBody inElse s) τ f' :=
  h.within (Loop.tested_leadsTo_walk (fun t => (hbody t).stems) _ orelse s)
    (l.escapes_body_walk endless orelse s)
    (List.subset_append_of_subset_left _ (List.subset_append_right _ _)) fun h => hmarked h.marked

/-- What the `else` block shows the loop shows. -/
theorem Shown.of_else (h : Shown (l.lastRound s).tested (orelse (l.lastRound s).tested)
      (inElse (l.lastRound s).tested) τ f) :
    Shown s (l.walk false orelse s) (l.missed inBody inElse s) τ f := by
  refine h.within (Loop.tested_leadsTo_walk (fun t => (hbody t).stems) _ orelse s) ?_
    (List.subset_append_right _ _)
    fun h => Loop.endsIn_walk_of_else lasts_marked h.marked
  rw [← l.tested_settle]
  exact List.subset_append_right _ _

include hels

/-- From a marked state at rest all that follows is marked. -/
theorem Loop.endsIn_walk_of_marked (hrest : (l.rest s).Marked τ)
    (h : (l.walk endless orelse s).Accounts Set.univ r) :
    (l.walk endless orelse s).EndsIn (fun s => s.Marked τ) r.flow :=
  (stemsFrom_rest (fun t => (hbody t).stems) (fun t => (hels t).stems) endless s).endsIn_marked
    hrest h

/-- A hand-over in the test at the head. -/
theorem Shown.of_test (hv : (l.test (l.rest s)).isSafe = false) (ht : (l.rest s).Tells Set.univ τ)
    (h : (l.walk endless orelse s).Accounts Set.univ r) :
    Shown s (l.walk endless orelse s) (l.missed inBody inElse s) τ r.flow := by
  have hlead := Loop.rest_leadsTo_walk (fun t => (hbody t).stems) endless orelse s
  refine .of_verdict hv ht hlead ?_ ?_ fun hrest => Loop.endsIn_walk_of_marked hbody hels hrest h
  · exact List.Subset.trans (List.subset_append_left _ _)
      (l.escapes_lastRound_walk endless orelse s)
  · exact List.subset_append_of_subset_left _ (List.subset_append_left _ _)

include htest

/-- A run of a loop from attributes of which the head at rest tells the truth is accounted for. -/
theorem Tracks.accounts_rounds (n : Nat) (hs : (l.rest s).Tells Set.univ σ)
    (hr : Behaviour.rounds test body els endless n σ r) (hu : Unspoiled Set.univ r.log) :
    (l.walk endless orelse s).Accounts Set.univ r :=
  Covers.rounds (htest s).grows (fun t => (hbody t).covers) (fun t => (hels t).covers) n hs hr hu

/-- A hand-over in the body. After one in a round that goes on to another, the state at rest
is marked. -/
theorem Shown.of_round (n : Nat) {r' : Ending} (hs : (l.lastRound s).tested.Tells Set.univ σ)
    (hr : body σ r) (hu : Unspoiled Set.univ r.log) (hτ : Event.handsOver τ ∈ r.log)
    (hr' : Behaviour.nextRound (.rounds test body els endless n) r.flow r.attrs r')
    (hu' : Unspoiled Set.univ r'.log) :
    Shown s (l.walk endless orelse s) (l.missed inBody inElse s) τ r'.flow := by
  have hbody' := (hbody _).covers σ r hs hr hu
  refine .of_body hbody ((hbody _).shown hs hr hu hτ) fun hmarked => ?_
  rcases Behaviour.nextRound_cases hr' with ⟨hgo, hr'⟩ | ⟨hn, hc, rfl⟩
  · have hrest := Loop.rest_of_endsIn lasts_tells hbody'.toEndsIn hgo
    exact Loop.endsIn_walk_of_marked hbody hels (Loop.rest_of_endsIn lasts_marked hmarked hgo)
      (Tracks.accounts_rounds htest hbody hels n hrest hr' hu')
  · exact Loop.endsIn_walk_of_leave lasts_marked hmarked hn hc

/-- A hand-over in any round is shown by the last one. The induction is on a bound of the rounds. -/
theorem Shown.of_rounds (n : Nat) (hs : (l.rest s).Tells Set.univ σ)
    (hr : Behaviour.rounds test body els endless n σ r) (hu : Unspoiled Set.univ r.log)
    (hτ : Event.handsOver τ ∈ r.log) :
    Shown s (l.walk endless orelse s) (l.missed inBody inElse s) τ r.flow := by
  induction n generalizing σ r with
  | zero => exact hr.elim
  | succ n ih =>
    have hwhole := Tracks.accounts_rounds htest hbody hels (n + 1) hs hr hu
    -- The hand-over is in the test, in the body, in the `else` block or in a later round.
    rcases Behaviour.andThen_cases hr with ⟨r₁, r₂, h₁, -, h₂, rfl⟩ | ⟨h, -⟩
    · rw [Ending.log_after, unspoiled_append] at hu
      rcases List.mem_append.1 hτ with hτ | hτ
      · obtain ⟨hv, ht⟩ := (htest (l.rest s)).tells_of_handsOver hs h₁ hu.1 hτ
        exact .of_test hbody hels hv ht hwhole
      · have htell : (l.lastRound s).tested.Tells Set.univ r₁.attrs := by
          rw [State.Tells, Loop.defined_tested_lastRound]
          exact hs.mono ((htest s).grows σ r₁ h₁).1
        rw [Ending.flow_after]
        rcases h₂ with h₂ | ⟨r₃, r₄, h₃, h₄, rfl⟩
        · cases endless with
          | true => exact h₂.elim
          | false => exact .of_else hbody ((hels _).shown htell h₂ hu.2 hτ)
        · have hu' := hu.2
          rw [Ending.log_after, unspoiled_append] at hu'
          rw [Ending.flow_after]
          rcases List.mem_append.1 hτ with hτ | hτ
          · exact .of_round htest hbody hels n htell h₃ hu'.1 hτ h₄ hu'.2
          · have hbody' := (hbody _).covers _ r₃ htell h₃ hu'.1
            rcases Behaviour.nextRound_cases h₄ with ⟨hgo, h₄⟩ | ⟨-, -, rfl⟩
            · exact ih (Loop.rest_of_endsIn lasts_tells hbody'.toEndsIn hgo) h₄ hu'.2 hτ
            · simp at hτ
    · obtain ⟨hv, ht⟩ := (htest (l.rest s)).tells_of_handsOver hs h hu hτ
      exact .of_test hbody hels hv ht hwhole

/-- A loop tracks all that its runs hand over. -/
theorem Tracks.loop (s : State) :
    Tracks .safe s (l.walk endless orelse s) (l.missed inBody inElse s)
    (.looping test body els endless) where
  covers := .loop (htest s).grows (fun t => (hbody t).covers) fun t => (hels t).covers
  stems := Loop.stemsFrom_walk (fun t => (hbody t).stems) (fun t => (hels t).stems) endless s
  shows := by
    rintro σ r hs ⟨n, hr⟩ hu τ hτ
    have hrest : (l.rest s).Tells Set.univ σ := fun a hA ha => hs a hA (l.mem_defined_of_rest ha)
    exact Or.inl (.of_rounds htest hbody hels n hrest hr hu hτ)

end Loops

end DefiniteInit
