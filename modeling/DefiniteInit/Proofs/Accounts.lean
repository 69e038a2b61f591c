import DefiniteInit.Proofs.Endings

/-!
# Runs that a walk accounts for

A walk from a state accounts for a run if it knows the way in which the run leaves the
code, in a state that tells no more than is so: a path that goes on for one that runs
through, an exit for one that returns, a jump for one that jumps, and a deletion for every
attribute deleted on the way (`Outcome.Accounts`). An outcome covers a behaviour if it
accounts for all its runs from where the state tells the truth (`Covers`).

All of this is about the attributes of a set `A`. A run whose log has an event that spoils
them is left out (`Unspoiled`). Each way to put outcomes together covers the behaviours put
together in the same way: one after the other (`Covers.andThen`), side by side
(`Covers.either`), in a loop (`Covers.loop`), in a `try` statement (`Covers.region`,
`Covers.closeWith`) and under a manager (`Covers.managed`).
-/

namespace DefiniteInit

variable {A σ : Set Name} {s : State} {r : Ending}

/-! ## States that tell the truth -/

/-- What the state says of the attributes of `A` is so. -/
def State.Tells (s : State) (A σ : Set Name) : Prop := ∀ a ∈ A, a ∈ s.defined → a ∈ σ

/-- A path has not ended, and its state tells the truth. -/
def Told (A σ : Set Name) (p : Option State) : Prop := On (fun s => s.Tells A σ) p

theorem State.Tells.mono {τ : Set Name} (h : s.Tells A σ) (hτ : σ ⊆ τ) : s.Tells A τ :=
  fun a hA ha => hτ (h a hA ha)

theorem lasts_tells : Lasts fun s => s.Tells A σ :=
  fun _ _ hw hs a hA ha => hs a hA (hw.defined a ha)

/-- A path tells the truth if it is there and what is sure on it is so. -/
theorem told_iff {p : Option State} :
    Told A σ p ↔ p.isSome = true ∧ ∀ a ∈ A, Surely p a → a ∈ σ := by
  cases p with
  | none => simp [Told, On]
  | some s => simp [Told, On, State.Tells]

/-! ## Traces and outcomes that account for a run -/

/-- The trace knows how the run leaves the code, unless it runs through or raises, and what
it deletes. -/
structure Trace.Accounts (t : Trace) (A : Set Name) (r : Ending) : Prop extends
    t.EndsIn (fun s => s.Tells A r.attrs) r.flow where
  deleted : ∀ a, Event.deletes a ∈ r.log → a ∈ t.deletions

/-- The outcome knows how the run leaves the code, and what it deletes. -/
structure Outcome.Accounts (o : Outcome) (A : Set Name) (r : Ending) : Prop extends
    o.EndsIn (fun s => s.Tells A r.attrs) r.flow where
  deleted : ∀ a, Event.deletes a ∈ r.log → a ∈ o.trace.deletions

namespace Trace.Accounts

variable {t u : Trace}

/-- What accounts for a run does so with more after it. -/
theorem append_left (h : t.Accounts A r) (u : Trace) : (t ++ u).Accounts A r :=
  ⟨h.toEndsIn.append_left lasts_tells u, fun a ha => List.mem_append_left _ (h.deleted a ha)⟩

theorem append_right (h : u.Accounts A r) (t : Trace) : (t ++ u).Accounts A r :=
  ⟨h.toEndsIn.append_right lasts_tells t, fun a ha => List.mem_append_right _ (h.deleted a ha)⟩

end Trace.Accounts

namespace Outcome.Accounts

variable {o p : Outcome} {w : State → Outcome}

theorem accounts_trace (h : o.Accounts A r) : o.trace.Accounts A r := ⟨h.trace, h.deleted⟩

/-- For a run that does not go on the trace is enough. -/
theorem of_trace (h : o.trace.Accounts A r) (hf : r.flow ≠ .next) : o.Accounts A r :=
  ⟨⟨fun h => absurd h hf, h.toEndsIn⟩, h.deleted⟩

/-- Of a run that does not delete, return or jump it is only to be known where it runs
through. -/
theorem of_plain (hf : r.flow.isPlain = true) (hd : ∀ a, Event.deletes a ∉ r.log)
    (hnext : r.flow = .next → Told A r.attrs o.next) : o.Accounts A r :=
  ⟨⟨hnext, .of_plain hf⟩, fun a ha => absurd ha (hd a)⟩

/-- A run that is left early is accounted for where it is left. -/
theorem andThen_of_ne_next (h : o.Accounts A r) (hf : r.flow ≠ .next) (w : State → Outcome) :
    (o.andThen w).Accounts A r :=
  ⟨h.toEndsIn.andThen_of_ne_next lasts_tells hf w,
    fun a ha => mem_deletions_andThen (h.deleted a ha)⟩

/-- One run after the other is accounted for by one walk after the other. -/
theorem andThen {r' : Ending} (h : o.Accounts A r) (ho : o.next = some s)
    (hw : (w s).Accounts A r') : (o.andThen w).Accounts A (r'.after r.log) := by
  refine ⟨.andThen ho hw.toEndsIn lasts_tells, fun a ha => ?_⟩
  rcases List.mem_append.1 ha with ha | ha
  · exact mem_deletions_andThen (h.deleted a ha)
  · rw [andThen_of_some ho]
    exact List.mem_append_right _ (hw.deleted a ha)

/-- A run of one branch is accounted for by the statement. -/
theorem either_left (h : o.Accounts A r) (p : Outcome) : (o.either p).Accounts A r :=
  ⟨h.toEndsIn.either_left lasts_tells p, fun a ha => List.mem_append_left _ (h.deleted a ha)⟩

theorem either_right (h : p.Accounts A r) (o : Outcome) : (o.either p).Accounts A r :=
  ⟨h.toEndsIn.either_right lasts_tells o, fun a ha => List.mem_append_right _ (h.deleted a ha)⟩

/-- What was deleted before is to be known too. -/
theorem after (h : o.Accounts A r) {log : List Event}
    (hlog : ∀ a, Event.deletes a ∈ log → a ∈ o.trace.deletions) : o.Accounts A (r.after log) :=
  ⟨h.toEndsIn, fun a ha => (List.mem_append.1 ha).elim (hlog a) (h.deleted a)⟩

end Outcome.Accounts

/-! ## Outcomes that cover a behaviour -/

/-- The outcome of a walk from `s` accounts for every run from where `s` tells the truth,
unless the run's log has an event that spoils. -/
def Covers (A : Set Name) (s : State) (o : Outcome) (b : Behaviour) : Prop :=
  ∀ σ r, s.Tells A σ → b σ r → Unspoiled A r.log → o.Accounts A r

namespace Covers

variable {o p : Outcome} {w : State → Outcome} {b c : Behaviour}

/-- Fewer runs are covered too. -/
theorem of_imp (h : Covers A s o c) (hb : ∀ σ r, b σ r → c σ r) : Covers A s o b :=
  fun σ r hs hr => h σ r hs (hb σ r hr)

/-- Code that only adds is covered by a verdict on it. -/
theorem check (hb : b.Grows) (v : Verdict) : Covers A s (.check v s) b := by
  intro σ r hs hr _
  obtain ⟨hsub, hplain, hdel⟩ := hb σ r hr
  refine .of_plain hplain hdel fun _ => ⟨_, rfl, fun a hA ha => hsub (hs a hA ?_)⟩
  rwa [State.defined_check] at ha

theorem goOn (hb : b.Grows) : Covers A s (.goOn s) b := by
  intro σ r hs hr _
  obtain ⟨hsub, hplain, hdel⟩ := hb σ r hr
  exact .of_plain hplain hdel fun _ => ⟨s, rfl, hs.mono hsub⟩

/-- Code that only adds, before a run that is accounted for. -/
theorem grows_andThen (hb : b.Grows) (hc : Covers A s o c) : Covers A s o (b.andThen c) := by
  intro σ r hs hr hu
  rcases Behaviour.andThen_cases hr with ⟨r₁, r₂, h₁, hf, h₂, rfl⟩ | ⟨h, hf⟩
  · rw [Ending.log_after, unspoiled_append] at hu
    obtain ⟨hsub, -, hdel⟩ := hb σ r₁ h₁
    exact (hc _ r₂ (hs.mono hsub) h₂ hu.2).after fun a ha => absurd ha (hdel a)
  · obtain ⟨-, hplain, hdel⟩ := hb σ r h
    exact .of_plain hplain hdel fun h => absurd h hf

/-- A verdict changes nothing of what the state tells. -/
theorem check_andThen {v : Verdict} (hw : Covers A (s.check v) (w (s.check v)) b) :
    Covers A s ((Outcome.check v s).andThen w) b := by
  intro σ r hs hr hu
  rw [Outcome.andThen_of_some (o := .check v s) rfl]
  have h := hw σ r (by rwa [State.Tells, State.defined_check]) hr hu
  exact ⟨⟨h.next, h.trace.append_right lasts_tells _⟩,
    fun a ha => List.mem_append_right _ (h.deleted a ha)⟩

/-- Walks in turn cover code in turn. -/
theorem andThen (hb : Covers A s o b) (hw : ∀ s', Covers A s' (w s') c) :
    Covers A s (o.andThen w) (b.andThen c) := by
  intro σ r hs hr hu
  rcases Behaviour.andThen_cases hr with ⟨r₁, r₂, h₁, hf, h₂, rfl⟩ | ⟨h, hf⟩
  · rw [Ending.log_after, unspoiled_append] at hu
    have ho := hb σ r₁ hs h₁ hu.1
    obtain ⟨s', hs', htell⟩ := ho.next hf
    exact ho.andThen hs' (hw s' _ r₂ htell h₂ hu.2)
  · exact (hb σ r hs h hu).andThen_of_ne_next hf w

/-- A walk that may also go on along another path. -/
theorem orElse (hb : Covers A s o b) (q : Option State) :
    Covers A s ⟨mergePaths o.next q, o.trace⟩ b := by
  intro σ r hs hr hu
  have h := hb σ r hs hr hu
  exact ⟨⟨fun hf => (h.next hf).fade lasts_tells (.merge_left _ _), h.trace⟩, h.deleted⟩

/-- Walks of branches cover the branches. -/
theorem either (hb : Covers A s o b) (hc : Covers A s p c) :
    Covers A s (o.either p) (b.either c) := by
  rintro σ r hs (h | h) hu
  · exact (hb σ r hs h hu).either_left p
  · exact (hc σ r hs h hu).either_right o

end Covers

/-! ## Loops -/

namespace Loop

variable {l : Loop} {orelse : State → Outcome} {endless : Bool}

theorem defined_tested_lastRound : (l.lastRound s).tested.defined = (l.rest s).defined :=
  State.defined_check _ _

/-- Deletions in the last round are deletions of the loop. -/
theorem mem_deletions_walk {a : Name} (h : a ∈ (l.lastRound s).body.trace.deletions) :
    a ∈ (l.walk endless orelse s).trace.deletions := by
  have hlast : a ∈ (l.lastRound s).trace.deletions := List.mem_append_right _ h
  exact List.mem_append_left _ (l.mem_deletions_settle hlast)

/-- A run that ends in the `else` block is accounted for by it. -/
theorem accounts_walk_of_else (h : (orelse (l.lastRound s).tested).Accounts A r) :
    (l.walk false orelse s).Accounts A r := by
  refine ⟨endsIn_walk_of_else lasts_tells h.toEndsIn, fun a ha => List.mem_append_right _ ?_⟩
  rw [l.tested_settle]
  exact h.deleted a ha

end Loop

namespace Covers

variable {test body els : Behaviour} {endless : Bool} {l : Loop} {orelse : State → Outcome}

/-- The induction is on the rounds. The state at rest tells the truth before each, since the
last round leaves it as it is. -/
theorem rounds (ht : test.Grows) (hbody : ∀ s', Covers A s' (l.body s') body)
    (hels : ∀ s', Covers A s' (orelse s') els) (n : Nat) {σ : Set Name} {r : Ending}
    (hs : (l.rest s).Tells A σ) (hr : Behaviour.rounds test body els endless n σ r)
    (hu : Unspoiled A r.log) : (l.walk endless orelse s).Accounts A r := by
  -- On the number of rounds the run may still take; the resting state of the loop tells the truth
  -- before each of them.
  induction n generalizing σ r with
  | zero => exact hr.elim
  | succ n ih =>
    rcases Behaviour.andThen_cases hr with ⟨r₁, r₂, h₁, -, h₂, rfl⟩ | ⟨h, hf⟩
    · obtain ⟨hsub, -, hdel⟩ := ht σ r₁ h₁
      have htell : (l.lastRound s).tested.Tells A r₁.attrs := by
        rw [State.Tells, Loop.defined_tested_lastRound]
        exact hs.mono hsub
      rw [Ending.log_after, unspoiled_append] at hu
      refine Outcome.Accounts.after ?_ fun a ha => absurd ha (hdel a)
      rcases h₂ with h₂ | ⟨r₃, r₄, h₃, h₄, rfl⟩
      · cases endless with
        | true => exact h₂.elim
        | false => exact Loop.accounts_walk_of_else (hels _ _ _ htell h₂ hu.2)
      · have hu' := hu.2
        rw [Ending.log_after, unspoiled_append] at hu'
        have hbody' := hbody _ _ r₃ htell h₃ hu'.1
        refine Outcome.Accounts.after ?_ fun a ha =>
          Loop.mem_deletions_walk (hbody'.deleted a ha)
        rcases Behaviour.nextRound_cases h₄ with ⟨hgo, h₄⟩ | ⟨hn, hc, rfl⟩
        · exact ih (Loop.rest_of_endsIn lasts_tells hbody'.toEndsIn hgo) h₄ hu'.2
        · exact ⟨Loop.endsIn_walk_of_leave lasts_tells hbody'.toEndsIn hn hc, by simp⟩
    · obtain ⟨-, hplain, hdel⟩ := ht σ r h
      exact .of_plain hplain hdel fun h => absurd h hf

/-- A loop covers all of its runs, though it is walked from one head alone: each round of a run
starts from attributes of which that head tells the truth. -/
theorem loop (ht : test.Grows) (hbody : ∀ s', Covers A s' (l.body s') body)
    (hels : ∀ s', Covers A s' (orelse s') els) :
    Covers A s (l.walk endless orelse s) (.looping test body els endless) := by
  rintro σ r hs ⟨n, hr⟩ hu
  exact rounds ht hbody hels n (fun a hA ha => hs a hA (l.mem_defined_of_rest ha)) hr hu

end Covers

/-! ## Regions left by an exception -/

/-- In the state in which an exception leaves a region, only what the region keeps is
known. -/
theorem State.Tells.kept {b : Behaviour} {o : Outcome} (hs : s.Tells A σ) (hb : b.Keeps)
    (hr : b σ r) (hu : Unspoiled A r.log) (ho : o.Accounts A r) {a : Name} (hA : a ∈ A)
    (ha : a ∈ (s.interrupted o.trace).defined) :
    a ∈ r.attrs ∧ ∀ τ, Event.handsOver τ ∈ r.log → a ∈ τ := by
  have hmem : a ∈ s.defined ∧ a ∉ o.trace.deletions := by simpa [State.interrupted] using ha
  have hkept : Unspoiled {a} r.log := hu.mono (Set.singleton_subset_iff.2 hA)
  exact hb σ r hr a (hs a hA hmem.1) hkept fun hd => hmem.2 (ho.deleted a hd)

/-- An exception leaves a region with what was assigned on entry, but for what has been deleted in
it. -/
theorem State.Tells.interrupted {b : Behaviour} {o : Outcome} (hs : s.Tells A σ) (hb : b.Keeps)
    (hr : b σ r) (hu : Unspoiled A r.log) (ho : o.Accounts A r) :
    (s.interrupted o.trace).Tells A r.attrs :=
  fun _ hA ha => (hs.kept hb hr hu ho hA ha).1

namespace Covers

variable {o p : Outcome} {w : State → Outcome} {b c d : Behaviour}

/-- The region of a `try` statement: its body, then the `else` block or a handler. -/
theorem region (hb : Covers A s o b) (hk : b.Keeps) (hw : ∀ s', Covers A s' (w s') c)
    (hp : Covers A (s.interrupted o.trace) p d) :
    Covers A s ((o.andThen w).either p) (b.bind (.handling d c)) := by
  intro σ r hs hr hu
  rcases Behaviour.handling_cases hr with h | ⟨r₁, r₂, h₁, -, h₂, rfl⟩
  · exact (hb.andThen hw σ r hs h hu).either_left p
  · rw [Ending.log_after, unspoiled_append] at hu
    have ho := hb σ r₁ hs h₁ hu.1
    have hp' := hp _ r₂ (hs.interrupted hk h₁ hu.1 ho) h₂ hu.2
    refine (hp'.either_right _).after fun a ha => List.mem_append_left _ ?_
    exact Outcome.mem_deletions_andThen (ho.deleted a ha)

/-- Code under a manager, which may swallow an exception that leaves it. -/
theorem managed (hb : Covers A s o b) (hk : b.Keeps)
    (ho : Fades (some (s.interrupted o.trace)) o.next) : Covers A s o b.managed := by
  rintro σ r hs ⟨r₁, r₂, h₁, h₂, rfl⟩ hu
  rw [Ending.log_after, unspoiled_append] at hu
  have hr₁ := hb σ r₁ hs h₁ hu.1
  have hswallowed := On.fade lasts_tells ⟨_, rfl, hs.interrupted hk h₁ hu.1 hr₁⟩ ho
  refine Outcome.Accounts.after ?_ hr₁.deleted
  obtain ⟨hsub, hlog, -⟩ := Behaviour.leaving_cases h₂
  have hends := hr₁.toEndsIn.leaving h₂ fun _ => hswallowed
  exact ⟨hends.imp fun s hs => hs.mono hsub, by simp [hlog]⟩

end Covers

/-! ## `finally` blocks -/

namespace Outcome

variable {o : Outcome} {w : State → Outcome} {c : Behaviour} {f : Flow}

/-- A return that passes through a `finally` block is accounted for. -/
theorem accounts_exitThrough {e : Exit} (hw : Covers A e.state (w e.state) c)
    (hs : e.state.Tells A σ) (hr : c.andThen (.jump .returned) σ r) (hu : Unspoiled A r.log) :
    (exitThrough w e).Accounts A r := by
  unfold exitThrough
  rcases Behaviour.andThen_cases hr with ⟨r₁, r₂, h₁, hf, rfl, rfl⟩ | ⟨h, -⟩
  · rw [Ending.log_after, unspoiled_append] at hu
    have ho := hw σ r₁ hs h₁ hu.1
    obtain ⟨s', hs', htell⟩ := ho.next hf
    simp only [hs']
    refine ⟨⟨fun _ => ⟨_, List.mem_append_right _ (List.mem_singleton_self _), htell⟩, nofun⟩,
      fun a ha => List.mem_append_left _ (ho.deleted a ?_)⟩
    simpa using ha
  · have ho := (hw σ r hs h hu).accounts_trace
    cases hn : (w e.state).next with
    | none => simpa only [hn] using ho
    | some s' => simpa only [hn] using ho.append_left _

/-- The pass of one return accounts for a run in the passes of all. -/
theorem accounts_foldl_exitThrough (exits : List Exit) (t : Trace)
    (h : t.Accounts A r ∨ ∃ e ∈ exits, (exitThrough w e).Accounts A r) :
    (exits.foldl (fun t e => t ++ exitThrough w e) t).Accounts A r := by
  induction exits generalizing t with
  | nil => exact h.resolve_right (by simp)
  | cons e es ih =>
    refine ih _ ?_
    rcases h with h | ⟨e', he', h⟩
    · exact Or.inl (h.append_left _)
    · rcases List.mem_cons.1 he' with rfl | he'
      · exact Or.inl (h.append_right _)
      · exact Or.inr ⟨e', he', h⟩

theorem accounts_exitsThrough {exits : List Exit} {e : Exit} (he : e ∈ exits)
    (h : (exitThrough w e).Accounts A r) : (exitsThrough w exits).Accounts A r :=
  accounts_foldl_exitThrough exits ∅ (Or.inr ⟨e, he, h⟩)

theorem onPath_of_some {p : Option State} {s' : State} (h : p = some s') : onPath w p = w s' := by
  rw [h]
  rfl

/-- Jumps behind a `finally` block are its own and those that have passed through it. -/
theorem on_jumpsThrough {jumps : Jumps} : (jumpsThrough w jumps).jumps.on f =
    mergePaths (((onPath w jumps.broken).trace ++ (onPath w jumps.continued).trace).jumps.on f)
      (onPath w (jumps.on f)).next := by
  cases f <;> rfl

theorem mem_deletions_jumpsThrough {jumps : Jumps} (hf : f.isJump = true) {a : Name}
    (h : a ∈ (onPath w (jumps.on f)).trace.deletions) : a ∈ (jumpsThrough w jumps).deletions := by
  cases f with
  | broke => exact List.mem_append_left _ h
  | continued => exact List.mem_append_right _ h
  | next | returned | raised | unfinished => simp [Flow.isJump] at hf

/-- The jumps the block itself makes are jumps of the whole. -/
theorem accounts_jumpsThrough {jumps : Jumps} (hf : f.isJump = true)
    (h : (onPath w (jumps.on f)).trace.Accounts A r) : (jumpsThrough w jumps).Accounts A r := by
  have ht : ((onPath w jumps.broken).trace ++ (onPath w jumps.continued).trace).Accounts A r := by
    cases f with
    | broke => exact h.append_left _
    | continued => exact h.append_right _
    | next | returned | raised | unfinished => simp [Flow.isJump] at hf
  refine ⟨⟨ht.returned, fun hr => ?_⟩, ht.deleted⟩
  rw [on_jumpsThrough]
  exact (ht.jumped hr).fade lasts_tells (.merge_left _ _)

/-- A jump that passes through the block. -/
theorem accounts_jumpsThrough_of_jump {jumps : Jumps} {s' : State} (hf : f.isJump = true)
    (hj : jumps.on f = some s') (hw : Covers A s' (w s') c) (hs : s'.Tells A σ)
    (hr : c.andThen (.jump f) σ r) (hu : Unspoiled A r.log) :
    (jumpsThrough w jumps).Accounts A r := by
  have hpath := onPath_of_some (w := w) hj
  rcases Behaviour.andThen_cases hr with ⟨r₁, r₂, h₁, hn, rfl, rfl⟩ | ⟨h, -⟩
  · rw [Ending.log_after, unspoiled_append] at hu
    have ho := hw σ r₁ hs h₁ hu.1
    rw [← hpath] at ho
    refine ⟨⟨fun h => ?_, fun _ => ?_⟩, fun a ha => mem_deletions_jumpsThrough hf (ho.deleted a ?_)⟩
    · obtain rfl : f = .returned := h
      simp [Flow.isJump] at hf
    · rw [Ending.flow_after, on_jumpsThrough]
      exact (ho.next hn).fade lasts_tells (.merge_right _ _)
    · simpa using ha
  · refine accounts_jumpsThrough hf ?_
    rw [hpath]
    exact (hw σ r hs h hu).accounts_trace

/-- Walking the block from where a run of it ended accounts for a run that leaves it in the
same way and has, of the attributes the first lacks, none. -/
theorem accounts_again (hw : ∀ B ⊆ A, Covers B s (w s) c) (hc : c.Replays) (hr : c σ r)
    (hu : Unspoiled A r.log) (hs : s.Tells A r.attrs) :
    ∃ r', r'.flow = r.flow ∧ (w s).Accounts {a | a ∈ A ∧ a ∉ r.attrs} r' ∧
      ∀ a ∉ r.attrs, a ∉ r'.attrs := by
  obtain ⟨r', hr', hfollows⟩ := hc σ r hr r.attrs
  have hsub : {a | a ∈ A ∧ a ∉ r.attrs} ⊆ A := fun a ha => ha.1
  refine ⟨r', hfollows.flow, hw _ hsub r.attrs r' (fun a ha => hs a ha.1) hr' ?_, ?_⟩
  · exact hfollows.unspoiled _ (fun a ha h => absurd h ha.2) (hu.mono hsub)
  · exact fun a ha ha' => ha (hfollows.le a (fun h => absurd h ha) ha')

/-- What is told for fewer attributes is told for all, if the others are assigned. -/
theorem told_again {ρ ρ' : Set Name} {p : Option State}
    (h : Told {a | a ∈ A ∧ a ∉ ρ} ρ' p) (hρ : ∀ a ∉ ρ, a ∉ ρ') : Told A ρ p := by
  rw [told_iff] at h ⊢
  refine ⟨h.1, fun a hA ha => ?_⟩
  by_contra hn
  exact hρ a hn (h.2 a ⟨hA, hn⟩ ha)

/-- The returns that have passed through the block. -/
def exitsOut (o : Outcome) (w : State → Outcome) : Trace := exitsThrough w o.trace.exits

/-- What holds of each return that has passed through the block holds of all of them, if it holds of
two traces one after the other when it holds of both. -/
theorem exitsOut_induction {P : Trace → Prop} (hempty : P ∅)
    (happend : ∀ {x y}, P x → P y → P (x ++ y)) (h : ∀ e ∈ o.trace.exits, P (exitThrough w e)) :
    P (o.exitsOut w) := by
  have hfold : ∀ (exits : List Exit) (x : Trace), (∀ e ∈ exits, P (exitThrough w e)) → P x →
      P (exits.foldl (fun x e => x ++ exitThrough w e) x) := by
    intro exits
    induction exits with
    | nil => exact fun _ _ hx => hx
    | cons e es ih =>
      intro x hes hx
      obtain ⟨he, hes⟩ := List.forall_mem_cons.1 hes
      exact ih _ hes (happend hx he)
  exact hfold _ ∅ h hempty

/-- The jumps that have passed through the block. -/
def jumpsOut (o : Outcome) (w : State → Outcome) : Trace :=
  jumpsThrough w (o.trace ++ o.exitsOut w).jumps

theorem trace_closeWith : (o.closeWith w).trace = o.trace.withoutExits.withoutJumps ++
    (o.exitsOut w).withoutJumps ++ o.jumpsOut w ++ (onPath w o.next).trace := rfl

/-- Deletions in a region stay noted behind its `finally` block. -/
theorem mem_deletions_closeWith {a : Name} (h : a ∈ o.trace.deletions) :
    a ∈ (o.closeWith w).trace.deletions := by
  have h' : a ∈ o.trace.withoutExits.withoutJumps.deletions := h
  rw [trace_closeWith]
  simp only [Trace.deletions_append, List.mem_append]
  exact Or.inl (Or.inl (Or.inl h'))

/-- A run that goes on from the region is accounted for by the block. -/
theorem accounts_closeWith_of_next {s' : State} (hn : o.next = some s')
    (h : (w s').Accounts A r) : (o.closeWith w).Accounts A r := by
  rw [← onPath_of_some (w := w) hn] at h
  exact ⟨⟨h.next, h.trace.append_right lasts_tells _⟩, (h.accounts_trace.append_right _).deleted⟩

theorem accounts_closeWith_of_jumps (hf : r.flow ≠ .next) (h : (o.jumpsOut w).Accounts A r) :
    (o.closeWith w).Accounts A r :=
  .of_trace ((h.append_right _).append_left _) hf

/-- A jump made by the block while a return passes through it passes through the block
again. That it is still known then is where a run of the block is made again. -/
theorem told_closeWith_of_exits (hw : ∀ B ⊆ A, ∀ s', Covers B s' (w s') c) (hc : c.Replays)
    (hr : c σ r) (hu : Unspoiled A r.log) (hf : r.flow.isJump = true)
    (h : (o.exitsOut w).Accounts A r) : Told A r.attrs ((o.closeWith w).trace.jumps.on r.flow) := by
  obtain ⟨s', hj, hs⟩ := (h.append_right o.trace).jumped hf
  obtain ⟨r', hf', hacc, hlacks⟩ := accounts_again (fun B hB => hw B hB s') hc hr hu hs
  rw [← onPath_of_some (w := w) hj] at hacc
  have hjumps := (accounts_jumpsThrough hf hacc.accounts_trace).jumped (by rwa [hf'])
  rw [hf'] at hjumps
  have hall : Told A r.attrs ((o.jumpsOut w).jumps.on r.flow) := told_again hjumps hlacks
  exact hall.fade lasts_tells
    ((Trace.fades_append_right _ _ _).trans (Trace.fades_append_left _ _ _))

/-- A return that has passed through the block is accounted for, though the jumps of such passes are
merged with others. -/
theorem accounts_closeWith_of_exits (hw : ∀ B ⊆ A, ∀ s', Covers B s' (w s') c) (hc : c.Replays)
    (hr : c.andThen (.jump .returned) σ r) (hu : Unspoiled A r.log)
    (h : (o.exitsOut w).Accounts A r) : (o.closeWith w).Accounts A r := by
  have hne := Behaviour.flow_ne_next_of_andThen_jump (by simp) hr
  refine ⟨⟨fun hn => absurd hn hne, fun hf => ?_, fun hf => ?_⟩, fun a ha => ?_⟩
  · obtain ⟨e, he, hs⟩ := h.returned hf
    exact ⟨e, List.mem_append_left _ (List.mem_append_left _ (List.mem_append_right _ he)), hs⟩
  · rcases Behaviour.andThen_cases hr with ⟨r₁, r₂, -, -, rfl, rfl⟩ | ⟨hrun, -⟩
    · simp [Flow.isJump] at hf
    · exact told_closeWith_of_exits hw hc hrun hu hf h
  · have hdel : a ∈ (o.exitsOut w).withoutJumps.deletions := h.deleted a ha
    rw [trace_closeWith]
    simp only [Trace.deletions_append, List.mem_append]
    exact Or.inl (Or.inl (Or.inr hdel))

end Outcome

/-- A region and its `finally` block. No exception has entered the block, or the log would
say so. -/
theorem Covers.closeWith {o : Outcome} {w : State → Outcome} {b c : Behaviour}
    (hb : Covers A s o b) (hw : ∀ B ⊆ A, ∀ s', Covers B s' (w s') c) (hc : c.Replays) :
    Covers A s (o.closeWith w) (b.bind (.final c)) := by
  rintro σ r hs ⟨r₁, r₂, h₁, h₂, rfl⟩ hu
  rw [Ending.log_after, unspoiled_append] at hu
  have ho := hb σ r₁ hs h₁ hu.1
  have hwA := hw A subset_rfl
  refine Outcome.Accounts.after ?_ fun a ha => Outcome.mem_deletions_closeWith (ho.deleted a ha)
  have hjump : r₁.flow.isJump = true → c.andThen (.jump r₁.flow) r₁.attrs r₂ →
      (o.closeWith w).Accounts A r₂ := by
    intro hf h₂
    obtain ⟨s', hj, htell⟩ := (ho.accounts_trace.append_left (o.exitsOut w)).jumped hf
    refine Outcome.accounts_closeWith_of_jumps (Behaviour.flow_ne_next_of_andThen_jump ?_ h₂)
      (Outcome.accounts_jumpsThrough_of_jump hf hj (hwA s') htell h₂ hu.2)
    rintro hn
    simp [hn, Flow.isJump] at hf
  -- The cases are the ways in which the region is left. An exception is the one that the walk has
  -- no pass for, and it spoils.
  cases hf : r₁.flow with
  | next =>
    rw [hf] at h₂
    obtain ⟨s', hs', htell⟩ := ho.next hf
    exact Outcome.accounts_closeWith_of_next hs'
      (hwA s' _ r₂ htell (Behaviour.andThen_jump_next h₂) hu.2)
  | returned =>
    rw [hf] at h₂
    obtain ⟨e, he, htell⟩ := ho.trace.returned hf
    exact Outcome.accounts_closeWith_of_exits hw hc h₂ hu.2 (Outcome.accounts_exitsThrough he
      (Outcome.accounts_exitThrough (hwA e.state) htell h₂ hu.2))
  | broke | continued =>
    rw [hf] at h₂ hjump
    exact hjump rfl h₂
  | raised =>
    rw [hf] at h₂
    rcases Behaviour.andThen_cases h₂ with ⟨r₃, r₄, rfl, -, -, rfl⟩ | ⟨rfl, hne⟩
    · exact absurd trivial (hu.2 .raisesIntoFinal (by simp))
    · exact absurd rfl hne
  | unfinished =>
    rw [hf] at h₂
    obtain rfl : r₂ = ⟨.unfinished, [], r₁.attrs⟩ := h₂
    exact .of_plain rfl (by simp) nofun

end DefiniteInit
