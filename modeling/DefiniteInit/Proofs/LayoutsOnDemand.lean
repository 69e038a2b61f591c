import DefiniteInit.Proofs.LayoutGrowth

/-!
# Layouts on demand

Layouts can also be planned without an order of the classes. Whoever needs the layout of a class
asks for it. It is built when it is first asked for, which asks for the layouts of the bases, and
then kept (`Graph.demand`, `Graph.build`). How deep this goes is up to the hierarchy; a computation
that goes deeper than it may has no result.

In a hierarchy without cycles the number of classes is deep enough. All that is kept are planned
layouts (`Graph.KeepsPlanned`), so a layout that is built of kept ones is the planned one too
(`Graph.plans_demand`), and in the end the layouts kept for the classes are those that are planned
base first (`Graph.layoutsOnDemand_eq`).
-/

namespace DefiniteInit

/-- Computations that keep layouts, and may go too deep. -/
abbrev Planner := StateT (ClassTable Layout) Option

namespace Graph

/-- Builds the layout of a class, starting from that of the base its initializer comes from. The
layouts of the bases are asked for. -/
def build (g : Graph) (guaranteed : ClassId → Name → Bool) (ask : ClassId → Planner Layout)
    (id : ClassId) : Planner Layout := do
  let start ← (match g.primaryBase? id with
    | some base => ask base
    | none => pure .empty)
  let deletable := g.deletableAttrs id
  let secondary := (g.localBases id).filter (some · ≠ g.primaryBase? id)
  let inherited ← secondary.foldlM
    (fun l base => do
      let above ← ask base
      pure (above.slots.foldl (inheritSlot guaranteed id deletable (g.isTrait base)) l))
    start
  pure ((g.attributes id).foldl (declareSlot guaranteed id) inherited)

/-- The layout of a class: the one that is kept, or else one that is built and then kept. -/
def demand (g : Graph) (guaranteed : ClassId → Name → Bool) :
    (depth : Nat) → ClassId → Planner Layout
  | 0, _ => failure
  | depth + 1, id => do
    match (← get).get? id with
    | some l => pure l
    | none =>
      let l ← g.build guaranteed (g.demand guaranteed depth) id
      modify (·.insert id l)
      pure l

/-- Asks for the layouts of classes, one after the other. -/
def demandAll (g : Graph) (guaranteed : ClassId → Name → Bool) (depth : Nat) (ids : List ClassId) :
    Planner Unit :=
  ids.forM fun id => do
    let _ ← g.demand guaranteed depth id

/-- The layouts that are kept once each class has been asked for. -/
def layoutsOnDemand (g : Graph) (guaranteed : ClassId → Name → Bool) :
    Option (List (ClassId × Layout)) :=
  ((g.demandAll guaranteed g.ids.length g.ids).run ∅).map fun (_, kept) =>
    g.ids.filterMap fun id => (kept.get? id).map (id, ·)

/-! ## What is kept -/

variable {g : Graph} {guaranteed : ClassId → Name → Bool} {id : ClassId}

/-- The layouts that are kept are planned ones. -/
def KeepsPlanned (g : Graph) (guaranteed : ClassId → Name → Bool) (kept : ClassTable Layout) :
    Prop :=
  ∀ c l, kept.get? c = some l → g.layoutAt guaranteed c = l

/-- Where planned layouts are kept the computation has this result, and still keeps planned layouts
only, those that it kept before among them. -/
def Plans (g : Graph) (guaranteed : ClassId → Name → Bool) {α : Type} (m : Planner α)
    (result : α) : Prop :=
  ∀ kept, g.KeepsPlanned guaranteed kept → ∃ kept', m.run kept = some (result, kept') ∧
    g.KeepsPlanned guaranteed kept' ∧
    ∀ c, (kept.get? c).isSome = true → (kept'.get? c).isSome = true

/-- A planned layout may be kept as well. -/
theorem KeepsPlanned.insert {kept : ClassTable Layout} (h : g.KeepsPlanned guaranteed kept)
    (id : ClassId) :
    g.KeepsPlanned guaranteed (kept.insert id (g.layoutAt guaranteed id)) := by
  intro c l hl
  rw [ClassTable.get?_insert] at hl
  split at hl
  · rename_i hc
    rw [hc]
    exact Option.some.inj hl
  · exact h c l hl

namespace Plans

variable {α β : Type} {m : Planner α} {a : α} {b : β}

/-- Giving back a value plans it and keeps what is kept. -/
theorem pure (a : α) : g.Plans guaranteed (Pure.pure a) a :=
  fun kept hkept => ⟨kept, rfl, hkept, fun _ h => h⟩

/-- Plans compose. -/
theorem bind {f : α → Planner β} (hm : g.Plans guaranteed m a) (hf : g.Plans guaranteed (f a) b) :
    g.Plans guaranteed (m >>= f) b := by
  intro kept hkept
  obtain ⟨kept₁, hrun₁, hkept₁, hmem₁⟩ := hm kept hkept
  obtain ⟨kept₂, hrun₂, hkept₂, hmem₂⟩ := hf kept₁ hkept₁
  refine ⟨kept₂, ?_, hkept₂, fun c hc => hmem₂ c (hmem₁ c hc)⟩
  rw [StateT.run_bind, hrun₁]
  exact hrun₂

/-- A loop whose steps have these results has their fold as its result. -/
theorem foldlM {f : β → ClassId → Planner β} {step : β → ClassId → β} {bases : List ClassId}
    (h : ∀ b, ∀ base ∈ bases, g.Plans guaranteed (f b base) (step b base)) (b : β) :
    g.Plans guaranteed (bases.foldlM f b) (bases.foldl step b) := by
  induction bases generalizing b with
  | nil => exact pure b
  | cons base bases ih =>
    have hrest := ih fun b base hbase => h b base (List.mem_cons_of_mem _ hbase)
    rw [List.foldlM_cons, List.foldl_cons]
    exact (h b base List.mem_cons_self).bind (hrest (step b base))

end Plans

/-! ## What is asked for -/

/-- What is built is the planned layout, if asking for a base gives that of the base. -/
theorem plans_build (h : g.Acyclic) (hid : id ∈ g.ids) {ask : ClassId → Planner Layout}
    (hask : ∀ base ∈ g.localBases id, g.Plans guaranteed (ask base) (g.layoutAt guaranteed base)) :
    g.Plans guaranteed (g.build guaranteed ask id) (g.layoutAt guaranteed id) := by
  rw [build, layoutAt_eq h hid, layoutAfter, inheritedLayout]
  refine Plans.bind (a := ((g.primaryBase? id).map (g.layoutAt guaranteed)).getD .empty) ?start
    (Plans.bind (Plans.foldlM (fun l base hbase => ?step) _) (Plans.pure _))
  case start =>
    cases hprimary : g.primaryBase? id with
    | none => exact Plans.pure _
    | some base => exact hask base (mem_localBases_of_primaryBase? hprimary)
  case step => exact (hask base (List.mem_filter.1 hbase).1).bind (Plans.pure _)

/-- The bases of a class come before it in the waves. -/
theorem idxOf_waves_lt (h : g.Acyclic) (hid : id ∈ g.ids) {base : ClassId}
    (hbase : base ∈ g.localBases id) :
    g.waves.flatten.idxOf base < g.waves.flatten.idxOf id := by
  have hmem := (isSchedule_waves h).perm.mem_iff.2 hid
  obtain ⟨before, after, horder, hbefore⟩ := List.eq_append_cons_of_mem hmem
  have hfirst := (isSchedule_waves h).basesFirst before id after horder base hbase
  rw [horder, List.idxOf_append_of_mem hfirst, List.idxOf_append_of_notMem hbefore,
    List.idxOf_cons_self, Nat.add_zero]
  exact List.idxOf_lt_length_of_mem hfirst

/-- Asking for the layout of a class gives the planned one, if it may go as deep as there are
classes before it in the waves. -/
theorem plans_demand (h : g.Acyclic) {depth : Nat} (hid : id ∈ g.ids)
    (hdepth : g.waves.flatten.idxOf id < depth) :
    g.Plans guaranteed (g.demand guaranteed depth id) (g.layoutAt guaranteed id) := by
  -- On the depth: bases come strictly earlier in the waves, so asking for them needs less.
  induction depth generalizing id with
  | zero => omega
  | succ depth ih =>
    intro kept hkept
    rw [demand, StateT.run_bind, StateT.run_get]
    -- A kept layout is the planned one; a new one is built from the bases and kept.
    cases hget : kept.get? id with
    | some l =>
      obtain rfl := hkept id l hget
      exact ⟨kept, by simp [hget], hkept, fun _ hc => hc⟩
    | none =>
      have hask : ∀ base ∈ g.localBases id, g.Plans guaranteed (g.demand guaranteed depth base)
          (g.layoutAt guaranteed base) := by
        intro base hbase
        have hlt := idxOf_waves_lt h hid hbase
        exact ih (mem_ids_of_mem_localBases hbase) (by omega)
      obtain ⟨kept', hrun, hkept', hmem⟩ := plans_build h hid hask kept hkept
      refine ⟨_, by simp [hget, hrun], hkept'.insert id, fun c hc => ?_⟩
      rw [ClassTable.get?_insert]
      split
      · rfl
      · exact hmem c hc

/-- A layout that was asked for is kept. -/
theorem get?_of_run_demand {depth : Nat} {kept kept' : ClassTable Layout} {l : Layout}
    (h : (g.demand guaranteed depth id).run kept = some (l, kept')) : kept'.get? id = some l := by
  cases depth with
  | zero => simp [demand] at h
  | succ depth =>
    rw [demand, StateT.run_bind, StateT.run_get] at h
    cases hget : kept.get? id with
    | some l' =>
      obtain ⟨rfl, rfl⟩ : l' = l ∧ kept = kept' := by simpa [hget] using h
      exact hget
    | none =>
      obtain ⟨kept₁, -, rfl⟩ : ∃ kept₁,
          (g.build guaranteed (g.demand guaranteed depth) id).run kept = some (l, kept₁) ∧
            kept₁.insert id l = kept' := by
        simpa [hget, Option.bind_eq_some_iff] using h
      rw [ClassTable.get?_insert, if_pos rfl]

/-- The classes that were asked for have their planned layouts kept. -/
theorem run_demandAll (h : g.Acyclic) {ids : List ClassId} (hids : ∀ id ∈ ids, id ∈ g.ids)
    {kept : ClassTable Layout} (hkept : g.KeepsPlanned guaranteed kept) :
    ∃ kept', (g.demandAll guaranteed g.ids.length ids).run kept = some ((), kept') ∧
      g.KeepsPlanned guaranteed kept' ∧
      ∀ c, (kept.get? c).isSome = true ∨ c ∈ ids → (kept'.get? c).isSome = true := by
  induction ids generalizing kept with
  | nil => exact ⟨kept, rfl, hkept, fun c hc => hc.resolve_right (by simp)⟩
  | cons id ids ih =>
    obtain ⟨hid, hids⟩ := List.forall_mem_cons.1 hids
    have hperm := (isSchedule_waves h).perm
    -- The place of a class in the waves is less than the number of classes, so the depth is enough.
    have hdepth : g.waves.flatten.idxOf id < g.ids.length :=
      hperm.length_eq ▸ List.idxOf_lt_length_of_mem (hperm.mem_iff.2 hid)
    obtain ⟨kept₁, hrun₁, hkept₁, hmem₁⟩ := plans_demand h hid hdepth kept hkept
    obtain ⟨kept₂, hrun₂, hkept₂, hmem₂⟩ := ih hids hkept₁
    refine ⟨kept₂, ?_, hkept₂, fun c hc => hmem₂ c ?_⟩
    · simpa [demandAll, hrun₁] using hrun₂
    · rcases hc with hc | hc
      · exact .inl (hmem₁ c hc)
      · rcases List.mem_cons.1 hc with rfl | hc
        · exact .inl (Option.isSome_of_eq_some (get?_of_run_demand hrun₁))
        · exact .inr hc

/-- Asking for the layout of each class never goes too deep, and gives those planned base first. -/
theorem layoutsOnDemand_eq (h : g.Acyclic) (guaranteed : ClassId → Name → Bool) :
    g.layoutsOnDemand guaranteed =
      some (g.ids.map fun id => (id, g.layoutAt guaranteed id)) := by
  have hempty : g.KeepsPlanned guaranteed ∅ := by simp [KeepsPlanned]
  obtain ⟨kept, hrun, hkept, hmem⟩ := run_demandAll h (fun _ hid => hid) hempty
  rw [layoutsOnDemand, hrun, Option.map_some, ← List.filterMap_eq_map]
  refine congrArg some (List.filterMap_congr fun id hid => ?_)
  obtain ⟨l, hl⟩ := Option.isSome_iff_exists.1 (hmem id (.inr hid))
  rw [hl, Option.map_some, Function.comp_apply, hkept id l hl]

end Graph

end DefiniteInit
