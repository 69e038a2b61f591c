import DefiniteInit.Proofs.Schedules
import Mathlib.Data.List.Forall2
import Mathlib.Logic.Equiv.Basic

/-!
# Renaming classes

A class is known by its position among the declarations, so to declare the classes of a unit in
another order is to give them other names. A graph is another one with its classes renamed if the
class of the new name is the class of the old one, its bases renamed (`Graph.Renamed`).

What the hierarchy says of a class is then the same under its new name: its bases, its lineage and
the attributes and properties it has from there. Lists that follow the order of positions are the
same up to their order, wave by wave (`Graph.Renamed.forall₂_waves`).
-/

namespace DefiniteInit

variable {σ : ClassId ≃ ClassId}

/-! ## Classes with other names -/

/-- The base under its new name. -/
def Base.rename (σ : ClassId ≃ ClassId) : Base → Base
  | .inUnit id => .inUnit (σ id)
  | .foreign name => .foreign name

/-- The class with its bases renamed. -/
def Class.rename (σ : ClassId ≃ ClassId) (c : Class) : Class :=
  { c with bases := c.bases.map (Base.rename σ) }

@[simp]
theorem Base.inUnit?_rename (b : Base) : (b.rename σ).inUnit? = b.inUnit?.map σ := by
  cases b <;> rfl

@[simp]
theorem Base.isForeign_rename (b : Base) : (b.rename σ).isForeign = b.isForeign := by
  cases b <;> rfl

/-- Names taken back are as before. -/
theorem Base.rename_symm_rename (b : Base) : (b.rename σ).rename σ.symm = b := by
  cases b with
  | inUnit id => exact congrArg Base.inUnit (σ.symm_apply_apply id)
  | foreign _ => rfl

namespace Class

/-- Names taken back are as before. -/
theorem rename_symm_rename (c : Class) : (c.rename σ).rename σ.symm = c := by
  have hbases : (c.bases.map (Base.rename σ)).map (Base.rename σ.symm) = c.bases := by
    rw [List.map_map]
    exact List.map_id'' Base.rename_symm_rename _
  rw [rename, rename, hbases]

/-- The bases from the unit have the new names, in the same order. -/
theorem localBases_rename (c : Class) : (c.rename σ).localBases = c.localBases.map σ := by
  simp only [localBases, rename, List.filterMap_map, List.map_filterMap]
  exact List.filterMap_congr fun b _ => b.inUnit?_rename

theorem hasForeignBase_rename (c : Class) : (c.rename σ).hasForeignBase = c.hasForeignBase := by
  simp [hasForeignBase, rename, List.any_map, Function.comp_def]

end Class

/-! ## Hierarchies -/

/-- The second graph is the first with its classes renamed. -/
def Graph.Renamed (σ : ClassId ≃ ClassId) (g g' : Graph) : Prop :=
  ∀ id, g'.class? (σ id) = (g.class? id).map (Class.rename σ)

namespace Graph.Renamed

variable {g g' : Graph} {id : ClassId} (h : Renamed σ g g')

include h

/-- The renaming can be undone. -/
theorem symm : Renamed σ.symm g' g := by
  intro c
  have hclass := h (σ.symm c)
  rw [σ.apply_symm_apply] at hclass
  rw [hclass, Option.map_map]
  cases g.class? (σ.symm c) with
  | none => rfl
  | some cls => exact congrArg some cls.rename_symm_rename.symm

/-- What does not depend on the names of bases is the same. -/
theorem map_class? {α : Type} (f : Class → α) (hf : ∀ c, f (c.rename σ) = f c) (id : ClassId) :
    (g'.class? (σ id)).map f = (g.class? id).map f := by
  rw [h id, Option.map_map]
  exact congrArg (Option.map · _) (funext hf)

/-- What does not depend on names is said of a class under both of its names. -/
theorem any_class? (p : Class → Bool) (hp : ∀ c, p (c.rename σ) = p c) (id : ClassId) :
    (g'.class? (σ id)).any p = (g.class? id).any p := by
  rw [h id]
  cases g.class? id with
  | none => rfl
  | some c => exact hp c

theorem bases_eq (id : ClassId) : g'.bases (σ id) = (g.bases id).map (Base.rename σ) := by
  rw [bases, bases, h id]
  cases g.class? id <;> rfl

/-- The bases of a class are found under their new names, in the same order. -/
theorem localBases_eq (id : ClassId) : g'.localBases (σ id) = (g.localBases id).map σ := by
  rw [localBases, localBases, h id]
  cases g.class? id with
  | none => rfl
  | some c => exact c.localBases_rename

theorem attributes_eq (id : ClassId) : g'.attributes (σ id) = g.attributes id := by
  rw [attributes, attributes, h.map_class? Class.attributes fun _ => rfl]

theorem isTrait_eq (id : ClassId) : g'.isTrait (σ id) = g.isTrait id := by
  rw [isTrait, isTrait, h.map_class? Class.isTrait fun _ => rfl]

/-- A class is declared under both of its names or under neither. -/
theorem mem_ids_iff : σ id ∈ g'.ids ↔ id ∈ g.ids := by
  have hsome : ∀ (g : Graph) (id : ClassId), id ∈ g.ids ↔ (g.class? id).isSome = true := by
    intro g id
    simp [mem_ids, class?, size]
  rw [hsome, hsome, h id, Option.isSome_map]

theorem mem_localBases_iff {base : ClassId} :
    σ base ∈ g'.localBases (σ id) ↔ base ∈ g.localBases id := by
  rw [h.localBases_eq, List.mem_map_of_injective σ.injective]

/-- The primary base is the same class. -/
theorem primaryBase?_eq (id : ClassId) : g'.primaryBase? (σ id) = (g.primaryBase? id).map σ := by
  have hfind : g'.initializerBase? (σ id) = (g.initializerBase? id).map (Base.rename σ) := by
    rw [initializerBase?, initializerBase?, h.bases_eq, List.find?_map]
    congr 2
    funext b
    cases b with
    | inUnit base => exact congrArg (! ·) (h.isTrait_eq base)
    | foreign _ => rfl
  rw [primaryBase?, primaryBase?, hfind]
  cases g.initializerBase? id with
  | none => rfl
  | some b => exact b.inUnit?_rename

/-- The search for ancestors meets the same classes in the same order. -/
theorem ascend_eq (root : ClassId) (stack met : List ClassId) :
    g'.ascend (σ root) (stack.map σ) (met.map σ) = (g.ascend root stack met).map σ := by
  have hseen : ∀ next : ClassId, ∀ met : List ClassId,
      (σ next = σ root ∨ σ next ∈ met.map σ) ↔ (next = root ∨ next ∈ met) := by
    intro next met
    rw [σ.apply_eq_iff_eq, List.mem_map_of_injective σ.injective]
  -- Both graphs meet the same classes again, so the second ascends as the first does.
  fun_induction ascend g root stack met with
  | case1 met => rw [List.map_nil, ascend]
  | case2 met next rest hmet ih =>
    rw [List.map_cons, ascend, if_pos ((hseen next met).2 hmet), ih]
  | case3 met next rest hnew ih =>
    rw [List.map_append, List.map_append] at ih
    rw [List.map_cons, ascend, if_neg (mt (hseen next met).1 hnew), h.localBases_eq]
    exact ih

/-- A class has the same lineage under both names. -/
theorem lineage_eq (id : ClassId) : g'.lineage (σ id) = (g.lineage id).map σ := by
  have hascend := h.ascend_eq id (g.localBases id) []
  rw [List.map_nil] at hascend
  rw [lineage, lineage, ancestors, ancestors, h.localBases_eq, hascend, List.map_cons]

/-- The attributes along the lineage are the same ones in the same order. -/
theorem flatMap_attributes_eq (id : ClassId) :
    (g'.lineage (σ id)).flatMap g'.attributes = (g.lineage id).flatMap g.attributes := by
  rw [h.lineage_eq, List.flatMap_map]
  exact List.flatMap_congr fun c _ => h.attributes_eq c

theorem lineageProperties_eq (id : ClassId) :
    g'.lineageProperties (σ id) = g.lineageProperties id := by
  rw [lineageProperties, lineageProperties, h.lineage_eq, List.flatMap_map]
  refine congrArg AttrSet.ofList (List.flatMap_congr fun c _ => ?_)
  rw [h.map_class? Class.properties fun _ => rfl]

theorem defaultedAttrs_eq (id : ClassId) : g'.defaultedAttrs (σ id) = g.defaultedAttrs id := by
  rw [defaultedAttrs, defaultedAttrs, h.flatMap_attributes_eq]

theorem deletableAttrs_eq (id : ClassId) : g'.deletableAttrs (σ id) = g.deletableAttrs id := by
  rw [deletableAttrs, deletableAttrs, h.flatMap_attributes_eq]

theorem hasBase_le : (fun d base => base ∈ g.localBases d) ≤
    Function.onFun (fun d base => base ∈ g'.localBases d) σ :=
  fun _ _ hbase => h.mem_localBases_iff.2 hbase

/-- A class derives under its new name from what it derives from. -/
theorem derivesFrom {c : ClassId} (hc : g.DerivesFrom id c) : g'.DerivesFrom (σ id) (σ c) :=
  Relation.ReflTransGen.lift σ h.hasBase_le id c hc

/-- A class derives from the same classes under both names. -/
theorem derivesFrom_iff {c : ClassId} : g'.DerivesFrom (σ id) (σ c) ↔ g.DerivesFrom id c := by
  refine ⟨fun hc => ?_, h.derivesFrom⟩
  simpa using h.symm.derivesFrom hc

theorem acyclic (hacyclic : g.Acyclic) : g'.Acyclic := by
  intro id hcycle
  exact hacyclic (σ.symm id) (Relation.TransGen.lift σ.symm h.symm.hasBase_le id id hcycle)

/-- Renaming makes no cycle and takes none away. -/
theorem acyclic_iff : g'.Acyclic ↔ g.Acyclic := ⟨h.symm.acyclic, h.acyclic⟩

/-! ## Waves -/

/-- The classes are the same, in whatever order they are declared. -/
theorem perm_ids : g'.ids.Perm (g.ids.map σ) := by
  refine (List.perm_ext_iff_of_nodup nodup_ids (nodup_ids.map σ.injective)).2 fun id => ?_
  obtain ⟨c, rfl⟩ := σ.surjective id
  rw [h.mem_ids_iff, List.mem_map_of_injective σ.injective]

section Waiting

variable {waiting waiting' : List ClassId} (hw : waiting'.Perm (waiting.map σ))

include hw

/-- A class waits for as many bases under both names. -/
theorem pending_eq (id : ClassId) : g'.pending waiting' (σ id) = g.pending waiting id := by
  rw [pending, pending, h.localBases_eq, List.countP_map]
  refine List.countP_congr fun base _ => ?_
  simp [hw.mem_iff]

/-- The classes that wait for certain numbers of bases are the same. -/
theorem perm_filter_pending (p : Nat → Bool) :
    (waiting'.filter fun id => p (g'.pending waiting' id)).Perm
      ((waiting.filter fun id => p (g.pending waiting id)).map σ) := by
  refine (hw.filter _).trans (.of_eq ?_)
  rw [List.filter_map]
  congr 1
  exact List.filter_congr fun id _ => congrArg p (h.pending_eq hw id)

/-- The same classes are ready. -/
theorem perm_ready : (g'.ready waiting').Perm ((g.ready waiting).map σ) :=
  h.perm_filter_pending hw (· = 0)

/-- The same classes have to wait on. -/
theorem perm_blocked : (g'.blocked waiting').Perm ((g.blocked waiting).map σ) :=
  h.perm_filter_pending hw (· ≠ 0)

/-- The waves have the same classes, each in an order of its own. -/
theorem forall₂_wavesFrom :
    List.Forall₂ (fun wave wave' => wave'.Perm (wave.map σ)) (g.wavesFrom waiting)
      (g'.wavesFrom waiting') := by
  -- The classes that wait stand in another order in the second graph, and so do those that are
  -- ready. Which these are depends on how many bases wait, and that is the same.
  fun_induction wavesFrom g waiting generalizing waiting' with
  | case1 waiting hempty =>
    have hempty' : (g'.ready waiting').isEmpty = true := by
      rw [List.isEmpty_iff] at hempty ⊢
      have hready := h.perm_ready hw
      rwa [hempty, List.map_nil, List.perm_nil] at hready
    rw [wavesFrom, if_pos hempty']
    exact .nil
  | case2 waiting hsome ih =>
    have hsome' : ¬(g'.ready waiting').isEmpty = true := by
      rw [List.isEmpty_iff] at hsome ⊢
      intro hnil
      have hready := h.perm_ready hw
      rw [hnil, List.nil_perm, List.map_eq_nil_iff] at hready
      exact hsome hready
    have hwaves : g'.wavesFrom waiting' =
        g'.ready waiting' :: g'.wavesFrom (g'.blocked waiting') := by rw [wavesFrom, if_neg hsome']
    rw [hwaves]
    exact .cons (h.perm_ready hw) (ih (h.perm_blocked hw))

end Waiting

/-- The waves are the same up to the order within each. -/
theorem forall₂_waves :
    List.Forall₂ (fun wave wave' => wave'.Perm (wave.map σ)) g.waves g'.waves :=
  h.forall₂_wavesFrom h.perm_ids

/-- The analysis looks at the same classes. -/
theorem perm_flatten_waves (hacyclic : g.Acyclic) :
    g'.waves.flatten.Perm (g.waves.flatten.map σ) :=
  (isSchedule_waves (h.acyclic hacyclic)).perm.trans
    (h.perm_ids.trans ((isSchedule_waves hacyclic).perm.map σ).symm)

end Graph.Renamed

end DefiniteInit
