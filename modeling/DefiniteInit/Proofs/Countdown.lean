import DefiniteInit.Proofs.WriteOnce
import Mathlib.Data.List.Sort
import Mathlib.Order.Bounds.Basic

/-!
# Waves by counting down

The waves can be found with one counter for each class, which says how many of its bases are not
done. When a class is done, the counter of each class that names it as a base goes down by one, as
often as it is named, and a class whose counter comes to zero is released into the next wave
(`Countdown.tick`, `Graph.schedule?`). A counter that is at zero cannot go down, and then the count
fails.

It never does. When a wave begins the counters are the numbers of bases that wait, and what is
taken from a counter during the wave is what stands in the wave of these
(`Graph.count_flatMap_subclasses`). So the count gives the waves (`Graph.schedule?_eq`), in any
hierarchy.

The waves are layers: a class is in the wave whose number is the length of the longest chain of
bases above it (`Graph.isGreatest_chainLengths`). For classes that do not wait all chains are
shorter than the number of waves done, and for those that wait there is a chain of that length.
-/

namespace DefiniteInit

/-! ## Counters -/

/-- How many bases of each class are not done, by the position of the class, and the classes all of
whose bases have been done meanwhile. -/
structure Countdown where
  pending : List Nat
  released : List ClassId

namespace Countdown

/-- One base of the class is done. Fails if none was to be done. -/
def tick (c : Countdown) (sub : ClassId) : Option Countdown :=
  match c.pending[sub.index]? with
  | some (n + 1) =>
    some ⟨c.pending.set sub.index n, if n = 0 then c.released ++ [sub] else c.released⟩
  | _ => none

/-- How often the counters can go down, all together. -/
def ticksLeft (pending : List Nat) : Nat := pending.foldr (· + ·) 0

/-- Taking one from a counter takes one from their sum. -/
theorem ticksLeft_set_add_one {pending : List Nat} {i n : Nat} (h : pending[i]? = some (n + 1)) :
    ticksLeft (pending.set i n) + 1 = ticksLeft pending := by
  induction pending generalizing i with
  | nil => simp at h
  | cons m pending ih =>
    cases i with
    | zero =>
      obtain rfl : m = n + 1 := by simpa using h
      simp only [ticksLeft, List.set_cons_zero, List.foldr_cons]
      omega
    | succ i =>
      have hrest := ih (by simpa using h)
      simp only [ticksLeft, List.set_cons_succ, List.foldr_cons] at hrest ⊢
      omega

/-- One tick takes one from the sum. -/
theorem ticksLeft_tick {c c' : Countdown} {sub : ClassId} (h : c.tick sub = some c') :
    ticksLeft c'.pending + 1 = ticksLeft c.pending := by
  unfold tick at h
  split at h
  · rename_i n hn
    obtain rfl := Option.some.inj h
    exact ticksLeft_set_add_one hn
  · simp at h

/-- As many ticks as there are subclasses take that many from the sum. -/
theorem ticksLeft_foldlM_tick {subs : List ClassId} {c c' : Countdown}
    (h : subs.foldlM tick c = some c') :
    ticksLeft c'.pending + subs.length = ticksLeft c.pending := by
  induction subs generalizing c with
  | nil =>
    obtain rfl : c = c' := by simpa using h
    rfl
  | cons sub subs ih =>
    rw [List.foldlM_cons, Option.bind_eq_bind, Option.bind_eq_some_iff] at h
    obtain ⟨c₁, htick, hrest⟩ := h
    have hfirst := ticksLeft_tick htick
    have hlater := ih hrest
    rw [List.length_cons]
    omega

end Countdown

namespace Graph

/-- All classes of a wave are done. -/
def finishWave (g : Graph) (pending : List Nat) (wave : List ClassId) : Option Countdown :=
  (wave.flatMap g.subclasses).foldlM Countdown.tick ⟨pending, []⟩

/-- Wave after wave, as long as classes are released. -/
def countDown (g : Graph) (pending : List Nat) (wave : List ClassId) :
    Option (List (List ClassId)) :=
  if wave.isEmpty then some []
  else
    match _ : g.finishWave pending wave with
    | none => none
    | some c =>
      (g.countDown c.pending (c.released.mergeSort fun a b => a.index ≤ b.index)).map (wave :: ·)
termination_by (Countdown.ticksLeft pending, wave.length)
decreasing_by
  rename_i hwave hfinish
  have hleft := Countdown.ticksLeft_foldlM_tick hfinish
  by_cases hsubs : wave.flatMap g.subclasses = []
  · obtain rfl : ⟨pending, []⟩ = c := by simpa [finishWave, hsubs] using hfinish
    refine Prod.Lex.right _ ?_
    simpa [List.isEmpty_iff, List.length_pos_iff] using hwave
  · refine Prod.Lex.left _ _ ?_
    have := List.length_pos_iff.2 hsubs
    simp only at hleft ⊢
    omega

/-- The waves by counting down, first those classes that have no bases in the unit. -/
def schedule? (g : Graph) : Option (List (List ClassId)) :=
  g.countDown (g.ids.map fun id => (g.localBases id).length)
    (g.ids.filter fun id => (g.localBases id).length = 0)

/-! ## What is taken from a counter -/

variable {g : Graph} {id sub : ClassId} {waiting wave : List ClassId}

/-- Classes that are in one of two groups are counted in one of them. -/
theorem countP_mem_eq_add {all first second : List ClassId}
    (hall : ∀ c, c ∈ all ↔ c ∈ first ∨ c ∈ second) (hdisjoint : ∀ c ∈ first, c ∉ second)
    (bases : List ClassId) :
    bases.countP (· ∈ all) = bases.countP (· ∈ first) + bases.countP (· ∈ second) := by
  induction bases with
  | nil => rfl
  | cons base bases ih =>
    have hbase : (if base ∈ all then 1 else 0) =
        (if base ∈ first then 1 else 0) + (if base ∈ second then 1 else 0) := by
      by_cases hfirst : base ∈ first
      · simp [hall, hfirst, hdisjoint base hfirst]
      · simp [hall, hfirst]
    simp only [List.countP_cons, decide_eq_true_eq, ih, hbase]
    omega

/-- A class stands among the subclasses of another as often as it names it. -/
theorem count_subclasses : (g.subclasses id).count sub = (g.localBases sub).count id := by
  have hnamed : ((g.localBases sub).filter (· = id)).length = (g.localBases sub).count id :=
    List.countP_eq_length_filter.symm
  -- By induction on the classes looked through: each is listed once, and contributes as often as it
  -- names the base.
  have hcount : ∀ ids : List ClassId, ids.Nodup →
      (ids.flatMap fun c => ((g.localBases c).filter (· = id)).map fun _ => c).count sub =
        if sub ∈ ids then (g.localBases sub).count id else 0 := by
    intro ids hnodup
    induction ids with
    | nil => rfl
    | cons c ids ih =>
      obtain ⟨hc, hids⟩ := List.nodup_cons.1 hnodup
      rw [List.flatMap_cons, List.count_append, ih hids, List.map_const', List.count_replicate]
      by_cases hsub : sub = c
      · subst hsub
        simp [hc, hnamed]
      · have hne : (c == sub) = false := by simpa using Ne.symm hsub
        simp [hsub, hne]
  rw [subclasses, hcount g.ids nodup_ids]
  split
  · rfl
  · rename_i hsub
    rw [localBases_eq_nil_of_not_mem_ids hsub, List.count_nil]

/-- While a wave is done, a class is told of as many bases as it has in the wave. -/
theorem count_flatMap_subclasses (hnodup : wave.Nodup) :
    (wave.flatMap g.subclasses).count sub = (g.localBases sub).countP (· ∈ wave) := by
  induction wave with
  | nil => simp
  | cons c wave ih =>
    obtain ⟨hc, hwave⟩ := List.nodup_cons.1 hnodup
    have hfirst : (g.localBases sub).count c = (g.localBases sub).countP (· ∈ [c]) :=
      List.countP_congr fun base _ => by simp
    have hsplit : (g.localBases sub).countP (· ∈ c :: wave) =
        (g.localBases sub).countP (· ∈ [c]) + (g.localBases sub).countP (· ∈ wave) :=
      countP_mem_eq_add (fun _ => by simp) (by simpa using hc) _
    rw [List.flatMap_cons, List.count_append, ih hwave, count_subclasses, hfirst, hsplit]

/-- Of the bases that wait, those that are ready are done with the wave. -/
theorem pending_eq_add (waiting : List ClassId) (sub : ClassId) : g.pending waiting sub =
    (g.localBases sub).countP (· ∈ g.ready waiting) + g.pending (g.blocked waiting) sub := by
  refine countP_mem_eq_add (fun c => ?_) (fun c hc hblocked => (mem_blocked.1 hblocked).2 hc) _
  rw [mem_blocked]
  constructor
  · exact fun hc => (em (c ∈ g.ready waiting)).imp_right fun hr => ⟨hc, hr⟩
  · rintro (hc | hc)
    · exact (mem_ready.1 hc).1
    · exact hc.1

/-! ## The count comes to the waves -/

/-- The counter of a class that has bases to be done goes down. -/
theorem tick_ids {f : ClassId → Nat} {n : Nat} (hsub : sub ∈ g.ids) (hn : f sub = n + 1)
    (released : List ClassId) : Countdown.tick ⟨g.ids.map f, released⟩ sub =
      some ⟨g.ids.map (Function.update f sub n),
        if n = 0 then released ++ [sub] else released⟩ := by
  have hlt : sub.index < g.size := mem_ids.1 hsub
  have hget : (g.ids.map f)[sub.index]? = some (n + 1) := by
    simp [ids, hlt, hn]
  -- Position by position: the counter of the class changes and no other does.
  have hset : (g.ids.map f).set sub.index n = g.ids.map (Function.update f sub n) := by
    refine List.ext_getElem? fun i => ?_
    rw [List.getElem?_set]
    by_cases hi : sub.index = i
    · subst hi
      simp [ids, hlt]
    · have hne : (⟨i⟩ : ClassId) ≠ sub := by
        rintro rfl
        exact hi rfl
      rw [if_neg hi]
      rcases Nat.lt_or_ge i g.size with hlt' | hge
      · simp [ids, hlt', Function.update_of_ne hne]
      · simp [ids, hge]
  simp only [Countdown.tick, hget, hset]

/-- As long as no class is told of more bases than it has to wait for, no counter is at zero when
it is to go down. Those classes are released that are told of all. -/
theorem foldlM_tick {subs : List ClassId} {f : ClassId → Nat} (hsubs : ∀ c ∈ subs, c ∈ g.ids)
    (hle : ∀ c, subs.count c ≤ f c) (released : List ClassId) :
    ∃ new : List ClassId, subs.foldlM Countdown.tick ⟨g.ids.map f, released⟩ =
        some ⟨g.ids.map fun c => f c - subs.count c, released ++ new⟩ ∧
      new.Nodup ∧ ∀ c, c ∈ new ↔ 0 < f c ∧ subs.count c = f c := by
  induction subs generalizing f released with
  | nil =>
    refine ⟨[], by simp, List.nodup_nil, fun c => iff_of_false List.not_mem_nil fun h => ?_⟩
    rw [List.count_nil] at h
    omega
  | cons sub subs ih =>
    obtain ⟨hsub, hrest⟩ := List.forall_mem_cons.1 hsubs
    obtain ⟨n, hn⟩ : ∃ n, f sub = n + 1 := by
      have hsub := hle sub
      rw [List.count_cons_self] at hsub
      exact Nat.exists_eq_add_one.2 (by omega)
    -- Each tick moves one occurrence from the list into the counters, so this sum stays.
    have hcount : ∀ c, (sub :: subs).count c + Function.update f sub n c = subs.count c + f c := by
      intro c
      by_cases hc : c = sub
      · subst hc
        rw [List.count_cons_self, Function.update_self, hn]
        omega
      · rw [List.count_cons_of_ne (Ne.symm hc), Function.update_of_ne hc]
    have hle' : ∀ c, subs.count c ≤ Function.update f sub n c := fun c => by
      have := hle c
      have := hcount c
      omega
    obtain ⟨new, hfold, hnodup, hnew⟩ :=
      ih hrest hle' (if n = 0 then released ++ [sub] else released)
    -- The class is released by this tick exactly if its counter stood at one.
    refine ⟨if n = 0 then sub :: new else new, ?_, ?_, fun c => ?_⟩
    · rw [List.foldlM_cons, tick_ids hsub hn, Option.bind_eq_bind, Option.bind_some, hfold]
      have hcounters : (fun c => Function.update f sub n c - subs.count c) =
          fun c => f c - (sub :: subs).count c := by
        funext c
        have := hcount c
        omega
      rw [hcounters]
      split <;> simp
    · split
      · rename_i hzero
        refine List.nodup_cons.2 ⟨fun hmem => ?_, hnodup⟩
        have hpos := ((hnew sub).1 hmem).1
        rw [Function.update_self, hzero] at hpos
        omega
      · exact hnodup
    · have hupdate := hcount c
      by_cases hc : c = sub
      · subst hc
        have hle := hle' c
        have hmem := hnew c
        rw [Function.update_self] at hle hmem hupdate
        split
        · refine iff_of_true List.mem_cons_self ?_
          omega
        · rw [hmem]
          omega
      · rw [Function.update_of_ne hc] at hupdate
        have hmem : c ∈ (if n = 0 then sub :: new else new) ↔ c ∈ new := by
          split <;> simp [hc]
        rw [hmem, hnew, Function.update_of_ne hc]
        omega

/-- A class that does not wait has no base that waits. -/
def Closed (g : Graph) (waiting : List ClassId) : Prop :=
  ∀ c, c ∉ waiting → ∀ base ∈ g.localBases c, base ∉ waiting

/-- After a wave, too, only a class that waits has a base that waits. -/
theorem Closed.blocked (h : g.Closed waiting) : g.Closed (g.blocked waiting) := by
  intro c hc base hbase hblocked
  have hwaits := (mem_blocked.1 hblocked).1
  by_cases hcw : c ∈ waiting
  · exact (mem_ready.1 (by_contra fun hr => hc (mem_blocked.2 ⟨hcw, hr⟩))).2 base hbase hwaits
  · exact h c hcw base hbase hwaits

/-- Only a class of the unit has bases in the unit. -/
theorem closed_ids : g.Closed g.ids := by
  intro c hc base hbase
  rw [localBases_eq_nil_of_not_mem_ids hc] at hbase
  simp at hbase

/-- The classes that are told of all bases they waited for are those ready next. -/
theorem mem_ready_blocked (h : g.Closed waiting) : id ∈ g.ready (g.blocked waiting) ↔
    0 < g.pending waiting id ∧ g.pending (g.blocked waiting) id = 0 := by
  have hwaits : 0 < g.pending waiting id → id ∈ waiting := by
    intro hpos
    by_contra hid
    obtain ⟨base, hbase, hbw⟩ := List.countP_pos_iff.1 hpos
    exact h id hid base hbase (by simpa using hbw)
  simp only [ready, blocked, List.mem_filter, decide_eq_true_eq, ← Nat.pos_iff_ne_zero]
  exact and_congr_left fun _ => and_iff_right_of_imp hwaits

/-- A list in increasing order of index has no duplicates. -/
theorem nodup_of_pairwise_index {l : List ClassId} (h : l.Pairwise (·.index < ·.index)) : l.Nodup :=
  h.imp fun hlt heq => (Nat.ne_of_lt hlt) (congrArg ClassId.index heq)

/-- After a wave the counters are the numbers of bases that still wait, and those classes have been
released that are ready next. -/
theorem finishWave_ready (hsorted : waiting.Pairwise (·.index < ·.index)) (h : g.Closed waiting) :
    ∃ new, g.finishWave (g.ids.map (g.pending waiting)) (g.ready waiting) =
        some ⟨g.ids.map (g.pending (g.blocked waiting)), new⟩ ∧
      new.mergeSort (fun a b => a.index ≤ b.index) = g.ready (g.blocked waiting) := by
  have hwave : (g.ready waiting).Nodup := (nodup_of_pairwise_index hsorted).filter _
  have hcount : ∀ c, ((g.ready waiting).flatMap g.subclasses).count c +
      g.pending (g.blocked waiting) c = g.pending waiting c := fun c => by
    rw [count_flatMap_subclasses hwave, ← pending_eq_add]
  have hsubs : ∀ c ∈ (g.ready waiting).flatMap g.subclasses, c ∈ g.ids := by
    intro c hc
    obtain ⟨base, -, hsub⟩ := List.mem_flatMap.1 hc
    exact mem_ids_of_localBases_ne_nil (mem_subclasses.1 hsub)
  obtain ⟨new, hfold, hnodup, hnew⟩ :=
    foldlM_tick hsubs (fun c => Nat.le.intro (hcount c)) []
  have hpending : (fun c => g.pending waiting c -
      ((g.ready waiting).flatMap g.subclasses).count c) = g.pending (g.blocked waiting) := by
    funext c
    have := hcount c
    omega
  refine ⟨new, by rw [finishWave, hfold, hpending, List.nil_append], ?_⟩
  have hready : (g.ready (g.blocked waiting)).Pairwise (·.index < ·.index) :=
    (hsorted.filter _).filter _
  have hperm : new.Perm (g.ready (g.blocked waiting)) := by
    refine (List.perm_ext_iff_of_nodup hnodup (nodup_of_pairwise_index hready)).2 fun c => ?_
    rw [hnew, mem_ready_blocked h]
    have := hcount c
    omega
  -- Sorting fixes the order, which is that of the classes that wait.
  have hmerge : (new.mergeSort fun a b => a.index ≤ b.index).Pairwise (·.index ≤ ·.index) := by
    simpa using @List.pairwise_mergeSort ClassId (fun a b => a.index ≤ b.index)
      (by simpa using fun a b c => Nat.le_trans) (by simpa using fun a b => Nat.le_total _ _) new
  refine List.Perm.eq_of_pairwise (fun a b _ _ hab hba => ?_) hmerge
    (hready.imp Nat.le_of_lt) ((List.mergeSort_perm _ _).trans hperm)
  exact congrArg ClassId.mk (Nat.le_antisymm hab hba)

/-- From counters that say how many bases wait, the count goes through the waves to their end. -/
theorem countDown_eq (hsorted : waiting.Pairwise (·.index < ·.index)) (h : g.Closed waiting) :
    g.countDown (g.ids.map (g.pending waiting)) (g.ready waiting) =
      some (g.wavesFrom waiting) := by
  fun_induction wavesFrom g waiting with
  | case1 waiting hempty => rw [countDown, if_pos hempty]
  | case2 waiting hready ih =>
    obtain ⟨new, hfinish, hnew⟩ := finishWave_ready hsorted h
    rw [countDown, if_neg hready]
    split
    · simp_all
    · rename_i c hc
      obtain rfl := Option.some.inj (hfinish.symm.trans hc)
      rw [hnew, ih (hsorted.filter _) h.blocked, Option.map_some]

/-- The classes of the unit come in increasing order of index. -/
theorem pairwise_ids : g.ids.Pairwise (·.index < ·.index) :=
  List.pairwise_map.2 List.pairwise_lt_range

/-- Counting down never fails, and comes to the waves. -/
theorem schedule?_eq (g : Graph) : g.schedule? = some g.waves := by
  have hpending : ∀ id, (g.localBases id).length = g.pending g.ids id := fun id =>
    (List.countP_eq_length.2 fun base hbase => by
      simpa using mem_ids_of_mem_localBases hbase).symm
  simp only [schedule?, hpending]
  exact countDown_eq pairwise_ids closed_ids

/-! ## Layers -/

/-- The lengths of the chains of bases that lead up from a class. -/
def chainLengths (g : Graph) (id : ClassId) : Set Nat :=
  {n | ∃ chain : List ClassId, g.IsPath (id :: chain) ∧ chain.length = n}

/-- The chain of the class alone has length zero. -/
theorem zero_mem_chainLengths : 0 ∈ g.chainLengths id := ⟨[], List.isChain_singleton id, rfl⟩

/-- A chain above a class is empty, or leads on from a base. -/
theorem succ_mem_chainLengths {n : Nat} :
    n + 1 ∈ g.chainLengths id ↔ ∃ base ∈ g.localBases id, n ∈ g.chainLengths base := by
  constructor
  · rintro ⟨_ | ⟨base, chain⟩, hpath, hlength⟩
    · simp at hlength
    · obtain ⟨hbase, hrest⟩ := List.isChain_cons_cons.1 hpath
      exact ⟨base, hbase, chain, hrest, by simpa using hlength⟩
  · rintro ⟨base, hbase, chain, hpath, rfl⟩
    exact ⟨base :: chain, List.isChain_cons_cons.2 ⟨hbase, hpath⟩, rfl⟩

/-- If the chains above classes that do not wait are shorter than the number of waves done, and
those that wait have a chain of that length, the next wave holds the classes for which this is the
longest. -/
theorem isGreatest_of_mem_wavesFrom {done i : Nat}
    (hshort : ∀ c ∈ g.ids, c ∉ waiting → ∀ n ∈ g.chainLengths c, n < done)
    (hlong : ∀ c ∈ waiting, done ∈ g.chainLengths c)
    (hwave : (g.wavesFrom waiting)[i]? = some wave) (hid : id ∈ wave) :
    IsGreatest (g.chainLengths id) (done + i) := by
  -- The invariant of the waves: what is settled has only chains shorter than the number of waves
  -- done, what waits has a chain of exactly that length.
  fun_induction wavesFrom g waiting generalizing done i with
  | case1 waiting hempty => simp at hwave
  | case2 waiting hready ih =>
    have hle : ∀ c ∈ g.ready waiting, ∀ n ∈ g.chainLengths c, n ≤ done := by
      intro c hc n hn
      cases n with
      | zero => exact Nat.zero_le done
      | succ n =>
        obtain ⟨base, hbase, hchain⟩ := succ_mem_chainLengths.1 hn
        exact hshort base (mem_ids_of_mem_localBases hbase) ((mem_ready.1 hc).2 base hbase) n hchain
    cases i with
    | zero =>
      obtain rfl : g.ready waiting = wave := by simpa using hwave
      exact ⟨hlong id (mem_ready.1 hid).1, hle id hid⟩
    | succ i =>
      rw [Nat.add_comm i, ← Nat.add_assoc]
      refine ih (fun c hc hblocked n hn => ?_) (fun c hc => ?_) (by simpa using hwave)
      · by_cases hcw : c ∈ waiting
        · have hcr : c ∈ g.ready waiting := by_contra fun hr => hblocked (mem_blocked.2 ⟨hcw, hr⟩)
          exact Nat.lt_succ_of_le (hle c hcr n hn)
        · exact (hshort c hc hcw n hn).trans (Nat.lt_succ_self done)
      -- A class that is not ready waits for a base, and its chain goes one further.
      · obtain ⟨hcw, hcr⟩ := mem_blocked.1 hc
        have hbase : ∃ base ∈ g.localBases c, base ∈ waiting := by
          by_contra hnone
          exact hcr (mem_ready.2 ⟨hcw, fun base hb hbw => hnone ⟨base, hb, hbw⟩⟩)
        obtain ⟨base, hb, hbw⟩ := hbase
        exact succ_mem_chainLengths.2 ⟨base, hb, hlong base hbw⟩

/-- A class is in the wave whose number is the length of the longest chain of bases above it. -/
theorem isGreatest_chainLengths {i : Nat} (hwave : g.waves[i]? = some wave) (hid : id ∈ wave) :
    IsGreatest (g.chainLengths id) i := by
  have h : IsGreatest (g.chainLengths id) (0 + i) := isGreatest_of_mem_wavesFrom
    (fun c hc hnot => absurd hc hnot) (fun _ _ => zero_mem_chainLengths) hwave hid
  rwa [Nat.zero_add] at h

/-- Without cycles every class is in some wave. -/
theorem exists_getElem?_waves (h : g.Acyclic) (hid : id ∈ g.ids) :
    ∃ (i : Nat) (wave : List ClassId), g.waves[i]? = some wave ∧ id ∈ wave := by
  obtain ⟨wave, hwave, hmem⟩ :=
    List.mem_flatten.1 (mem_waves (findCycle?_eq_none_iff.2 h) hid)
  obtain ⟨i, hi⟩ := List.mem_iff_getElem?.1 hwave
  exact ⟨i, wave, hi, hmem⟩

/-- No wave is empty, and each lists its classes in increasing order of index. -/
theorem wave_of_mem_wavesFrom (hsorted : waiting.Pairwise (·.index < ·.index))
    (hwave : wave ∈ g.wavesFrom waiting) :
    wave ≠ [] ∧ wave.Pairwise (·.index < ·.index) := by
  fun_induction wavesFrom g waiting with
  | case1 waiting hempty => simp at hwave
  | case2 waiting hready ih =>
    rcases List.mem_cons.1 hwave with rfl | hwave
    · exact ⟨by simpa using hready, hsorted.filter _⟩
    · exact ih (hsorted.filter _) hwave

/-! ## Reports -/

/-- The facts of every class are of one of the kinds that are counted. -/
theorem report_counts (known : ClassTable Facts) :
    (g.report known).analyzed + (g.report known).inherited + (g.report known).seeded +
      (g.report known).traits = (g.waves.flatten.filterMap known.get?).length := by
  simp only [report]
  induction g.waves.flatten.filterMap known.get? with
  | nil => rfl
  | cons f facts ih =>
    simp only [List.countP_cons, List.length_cons]
    cases f.origin <;> simp <;> omega

/-- Every class of the unit gets facts, so the report counts each of them. -/
theorem length_filterMap_get? (h : g.Acyclic) (o : Options) :
    (g.waves.flatten.filterMap (g.analyze o).get?).length = g.size := by
  have hfacts : g.waves.flatten.filterMap (g.analyze o).get? =
      g.waves.flatten.map (g.factsOf (g.analyze o) o) := by
    rw [← List.filterMap_eq_map]
    exact List.filterMap_congr fun id hid =>
      solves_analyze h o id ((isSchedule_waves h).perm.mem_iff.1 hid)
  rw [hfacts, List.length_map, (isSchedule_waves h).perm.length_eq, ids, List.length_map,
    List.length_range]

end Graph

namespace CompileUnit

/-- Counting down never takes a counter below zero, also where a class names a base several times.
Every class is in one wave, and the number of its wave is the length of the longest chain of bases
above it. The analysis looks at the classes wave by wave, each once; it counts the waves, and counts
each class as one of four kinds. -/
theorem waves_by_depth (names : NameTable) (decls : List Declaration) (u : CompileUnit)
    (hbuild : build names decls = .ok u) (hacyclic : u.graph.Acyclic) (o : Options) :
    ∃ waves report u', u.graph.schedule? = some waves ∧ u.analyze o = .ok (report, u') ∧
      (∀ id ∈ u.graph.ids, ∃! i : Nat, ∃ wave, waves[i]? = some wave ∧ id ∈ wave) ∧
      (∀ (i : Nat) (wave : List ClassId), waves[i]? = some wave →
        wave ≠ [] ∧ wave.Pairwise (·.index < ·.index) ∧
        ∀ id ∈ wave, id ∈ u.graph.ids ∧ IsGreatest (u.graph.chainLengths id) i ∧
          ∀ base ∈ u.graph.localBases id, ∃ j < i, ∃ earlier, waves[j]? = some earlier ∧
            base ∈ earlier) ∧
      report.order = waves.flatten ∧ report.order.Perm u.graph.ids ∧
      report.waves = waves.length ∧
      report.analyzed + report.inherited + report.seeded + report.traits = u.graph.size := by
  have hempty : ∀ id ∈ u.graph.ids, u.facts.get? id = none :=
    fun id _ => get?_facts_of_build hbuild id
  refine ⟨_, _, _, u.graph.schedule?_eq, analyze_eq_ok_of_acyclic hempty hacyclic o,
    fun id hid => ?_, fun i wave hwave => ?_, rfl, (Graph.isSchedule_waves hacyclic).perm, rfl, ?_⟩
  -- The wave of a class is the length of its longest chain, so there is only one.
  · obtain ⟨i, wave, hwave, hmem⟩ := Graph.exists_getElem?_waves hacyclic hid
    refine ⟨i, ⟨wave, hwave, hmem⟩, ?_⟩
    rintro j ⟨wave', hwave', hmem'⟩
    exact (Graph.isGreatest_chainLengths hwave' hmem').unique
      (Graph.isGreatest_chainLengths hwave hmem)
  · have hin := List.mem_of_getElem? hwave
    obtain ⟨hne, hsorted⟩ := Graph.wave_of_mem_wavesFrom Graph.pairwise_ids hin
    refine ⟨hne, hsorted, fun id hid => ?_⟩
    have hgreatest := Graph.isGreatest_chainLengths hwave hid
    refine ⟨Graph.mem_of_mem_wavesFrom (List.mem_flatten.2 ⟨wave, hin, hid⟩), hgreatest,
      fun base hbase => ?_⟩
    obtain ⟨j, earlier, hearlier, hmem⟩ :=
      Graph.exists_getElem?_waves hacyclic (Graph.mem_ids_of_mem_localBases hbase)
    have hchain := (Graph.isGreatest_chainLengths hearlier hmem).1
    exact ⟨j, hgreatest.2 (Graph.succ_mem_chainLengths.2 ⟨base, hbase, hchain⟩), earlier, hearlier,
      hmem⟩
  · rw [Graph.report_counts, Graph.length_filterMap_get? hacyclic]

/-- A class that names one base twice and another in between, a class that names its base twice,
the class above both, and one that stands alone. -/
def namedTwice : List Declaration :=
  [(((Declaration.named ⟨20⟩).addBase ⟨21⟩).addBase ⟨22⟩).addBase ⟨21⟩,
    ((Declaration.named ⟨21⟩).addBase ⟨22⟩).addBase ⟨22⟩,
    (Declaration.named ⟨22⟩).withInitializer ⟨[.setAttr ⟨30⟩ (.literal .none)], .empty⟩,
    (Declaration.named ⟨23⟩).asTrait]

/-- The unit of the four classes, before it is analyzed. -/
def namedTwiceUnit : CompileUnit := ⟨.fresh, .ofDeclarations namedTwice, ∅, ∅⟩

/-- The first class waits for two waves, though one of its bases is in the first. -/
theorem waves_by_depth_namedTwice : build .fresh namedTwice = .ok namedTwiceUnit ∧
    namedTwiceUnit.graph.Acyclic ∧
    ∃ report u', namedTwiceUnit.graph.schedule? = some [[⟨2⟩, ⟨3⟩], [⟨1⟩], [⟨0⟩]] ∧
      namedTwiceUnit.analyze .default = .ok (report, u') ∧
      IsGreatest (namedTwiceUnit.graph.chainLengths ⟨0⟩) 2 ∧
      report.order = [⟨2⟩, ⟨3⟩, ⟨1⟩, ⟨0⟩] ∧ report.waves = 3 ∧
      report.analyzed + report.inherited + report.seeded + report.traits = 4 := by
  have hbuild : build .fresh namedTwice = .ok namedTwiceUnit := rfl
  have hacyclic : namedTwiceUnit.graph.Acyclic := Graph.findCycle?_eq_none_iff.1 (by decide +kernel)
  obtain ⟨waves, report, u', hschedule, hanalyze, -, hwave, horder, -, hcount, hkinds⟩ :=
    waves_by_depth .fresh namedTwice namedTwiceUnit hbuild hacyclic .default
  obtain rfl : waves = [[⟨2⟩, ⟨3⟩], [⟨1⟩], [⟨0⟩]] := by
    rw [Graph.schedule?_eq, Option.some_inj] at hschedule
    rw [← hschedule]
    decide +kernel
  obtain ⟨-, -, hdepth⟩ := hwave 2 [⟨0⟩] rfl
  exact ⟨hbuild, hacyclic, report, u', hschedule, hanalyze, (hdepth ⟨0⟩ (by simp)).2.1, horder,
    hcount, hkinds⟩

end CompileUnit

end DefiniteInit
