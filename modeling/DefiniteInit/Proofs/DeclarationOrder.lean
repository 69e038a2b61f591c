import DefiniteInit.Proofs.CycleReports
import DefiniteInit.Proofs.Forwarding
import DefiniteInit.Proofs.LayoutGrowth
import DefiniteInit.Proofs.Narrowing
import DefiniteInit.Proofs.RenamedWalks
import Mathlib.Data.List.Perm.Subperm

/-!
# The order of declarations

A class is known by its position among the declarations, so another order of the declarations
gives all classes new names. Nothing else changes. No two declarations have one name, so that bases
are resolved to the same classes (`Graph.renamed_ofDeclarations`), and where two graphs differ in
the names of the classes alone, so do their facts (`Graph.Renamed.factsRenamed_analyze`), their
narrowed sets (`Graph.Renamed.narrow_eq`) and their layouts (`Graph.Renamed.layoutAt_eq`).

Narrowed sets are met in the order of the subclasses, which is the order of declaration. That the
result has the same order is due to where it starts: all meets are parts of the set of the class
itself, in its order (`AttrSet.eq_of_sublist`).
-/

namespace DefiniteInit

variable {σ : ClassId ≃ ClassId}

/-! ## Facts -/

/-- The table has the facts of the other under the new names. -/
def FactsRenamed (σ : ClassId ≃ ClassId) (known known' : ClassTable Facts) : Prop :=
  ∀ id, known'.get? (σ id) = (known.get? id).map (Facts.rename σ)

theorem Origin.rename_eq_seeded_iff {origin : Origin} {reason : SeedReason} :
    origin.rename σ = .seeded reason ↔ origin = .seeded reason := by
  cases origin <;> simp [rename]

/-- A class always defines the same under both names. -/
theorem FactsRenamed.alwaysDefines_iff {known known' : ClassTable Facts}
    (h : FactsRenamed σ known known') {id : ClassId} {a : Name} :
    Graph.AlwaysDefines known' (σ id) a ↔ Graph.AlwaysDefines known id a := by
  unfold Graph.AlwaysDefines
  rw [h id]
  cases known.get? id with
  | none => simp
  | some f => simp [Facts.rename]

/-- Two parts of a set, both in its order, that have the same members. -/
theorem AttrSet.eq_of_sublist {s t u : AttrSet} (hs : s.toList.Sublist u.toList)
    (ht : t.toList.Sublist u.toList) (h : ∀ a, a ∈ s ↔ a ∈ t) : s = t := by
  -- A part of a list without repetitions is what is left when the rest is dropped.
  have hfilter : ∀ s : AttrSet, s.toList.Sublist u.toList →
      s.toList = u.toList.filter (· ∈ s) := by
    intro s hs
    have hsub := hs.filter (· ∈ s)
    rw [List.filter_eq_self.2 (by simp)] at hsub
    refine hsub.eq_of_length_le (List.Subperm.length_le ?_)
    refine List.subperm_of_subset (u.nodup.filter _) fun a ha => ?_
    simpa using (List.mem_filter.1 ha).2
  refine AttrSet.ext ?_
  rw [hfilter s hs, hfilter t ht]
  exact List.filter_congr fun a _ => by simp [h a]

theorem Graph.get?_narrow_of_not_mem {g : Graph} {known : ClassTable Facts} {id : ClassId}
    (hid : id ∉ g.ids) : (g.narrow known).get? id = none := by
  have hnot : id ∉ g.waves.reverse.flatten := fun hmem =>
    hid (mem_of_mem_wavesFrom (mem_reverse_wavesFrom.1 hmem))
  rw [narrow, ClassTable.get?_foldl_insert_of_not_mem ∅ hnot, ClassTable.get?_empty]

namespace Graph.Renamed

variable {g g' : Graph} {known known' : ClassTable Facts} {o : Options} {id : ClassId}
  (h : Renamed σ g g') (hknown : FactsRenamed σ known known')

include h

/-- A base has the name it had. -/
theorem isNamed_eq (name : Name) (b : Base) : g'.isNamed name (b.rename σ) = g.isNamed name b := by
  cases b with
  | inUnit id => exact h.any_class? (fun c => decide (c.name = name)) (fun _ => rfl) id
  | foreign _ => rfl

include hknown

/-- A call on a base runs the same class under its new name. -/
theorem baseCallOn_eq (b : Base) :
    g'.baseCallOn known' (b.rename σ) = (g.baseCallOn known b).rename σ := by
  cases b with
  | foreign _ => rfl
  | inUnit base =>
    have hinert := h.any_class? (fun c => c.isTrait || c.openToForeign) (fun _ => rfl) base
    simp only [baseCallOn, Base.rename, hinert, hknown base]
    split
    · rfl
    · cases known.get? base <;> rfl

/-- A call runs the same class under its new name. -/
theorem baseCall_eq (id : ClassId) (t : SuperTarget) :
    g'.baseCall known' (σ id) t = (g.baseCall known id t).rename σ := by
  cases t with
  | next =>
    simp only [baseCall, h.bases_eq, List.head?_map]
    cases (g.bases id).head? with
    | none => rfl
    | some b => exact h.baseCallOn_eq hknown b
  | explicit name =>
    have hnamed : g'.isNamed name ∘ Base.rename σ = g.isNamed name := funext (h.isNamed_eq name)
    simp only [baseCall, h.bases_eq, List.find?_map, hnamed]
    cases (g.bases id).find? (g.isNamed name) with
    | none =>
      simp only [Option.map_none]
      split <;> rfl
    | some b => exact h.baseCallOn_eq hknown b

/-- A class is passed over for the same reason. -/
theorem seedReason?_eq (id : ClassId) : g'.seedReason? known' (σ id) = g.seedReason? known id := by
  have hany : ((g'.localBases (σ id)).any fun base =>
      (known'.get? base).any (·.origin = .seeded .foreignAncestry)) =
      (g.localBases id).any fun base =>
        (known.get? base).any (·.origin = .seeded .foreignAncestry) := by
    rw [h.localBases_eq, List.any_map]
    congr 1
    funext base
    rw [Function.comp_apply, hknown base]
    cases known.get? base with
    | none => rfl
    | some f => simp [Facts.rename, Origin.rename_eq_seeded_iff]
  simp only [seedReason?, hany, h.any_class? Class.hasForeignBase Class.hasForeignBase_rename,
    h.any_class? Class.openToForeign fun _ => rfl]

/-- An initializer comes to the same facts under the new names. -/
theorem initialFacts_eq (id : ClassId) :
    g'.initialFacts known' o (σ id) = (g.initialFacts known o id).rename σ := by
  have hinit : (g'.class? (σ id)).bind Class.initializer =
      (g.class? id).bind Class.initializer := by
    rw [h id]
    cases g.class? id <;> rfl
  have hblock : ∀ body s, (g'.scope known' o (σ id)).block .top body s =
      ((g.scope known o id).block .top body s).rename σ :=
    Scope.block_rename (by rw [scope, scope, h.lineageProperties_eq]) (h.baseCall_eq hknown id) .top
  unfold initialFacts
  rw [hinit, h.defaultedAttrs_eq, h.primaryBase?_eq]
  cases (g.class? id).bind Class.initializer with
  | some init =>
    simp only [walkBody, hblock, Summary.ofOutcome_rename]
    rfl
  | none =>
    cases g.primaryBase? id with
    | none => rfl
    | some base =>
      simp only [Option.map_some, hknown base]
      cases known.get? base <;> rfl

/-- A class has the same facts under its new name. -/
theorem factsOf_eq (id : ClassId) :
    g'.factsOf known' o (σ id) = (g.factsOf known o id).rename σ := by
  simp only [factsOf, h.isTrait_eq, h.seedReason?_eq hknown, h.initialFacts_eq hknown,
    h.defaultedAttrs_eq, h.deletableAttrs_eq]
  split
  · rfl
  · cases g.seedReason? known id <;> rfl

/-- A wave adds the same facts under the new names. -/
theorem factsRenamed_analyzeWave {wave wave' : List ClassId} (hwave : wave'.Perm (wave.map σ)) :
    FactsRenamed σ (g.analyzeWave o known wave) (g'.analyzeWave o known' wave') := by
  intro id
  have hmem : σ id ∈ wave' ↔ id ∈ wave := by
    rw [hwave.mem_iff, List.mem_map_of_injective σ.injective]
  rw [get?_analyzeWave, get?_analyzeWave, h.factsOf_eq hknown, hknown id]
  by_cases hid : id ∈ wave
  · rw [if_pos hid, if_pos (hmem.2 hid), Option.map_some]
  · rw [if_neg hid, if_neg (mt hmem.1 hid)]

/-- So do all waves, by induction along them. -/
theorem factsRenamed_foldl_analyzeWave {waves waves' : List (List ClassId)}
    (hwaves : List.Forall₂ (fun wave wave' => wave'.Perm (wave.map σ)) waves waves') :
    FactsRenamed σ (waves.foldl (g.analyzeWave o) known)
      (waves'.foldl (g'.analyzeWave o) known') := by
  induction hwaves generalizing known known' with
  | nil => exact hknown
  | cons hwave _ ih => exact ih (h.factsRenamed_analyzeWave hknown hwave)

omit hknown in
/-- The facts of all classes are the same under the new names. -/
theorem factsRenamed_analyze (o : Options) : FactsRenamed σ (g.analyze o) (g'.analyze o) :=
  h.factsRenamed_foldl_analyzeWave (fun _ => rfl) h.forall₂_waves

/-! ## Accounts -/

/-- Classes of one kind are as many under the new names. -/
theorem countP_facts_eq (hacyclic : g.Acyclic) (p : Facts → Bool)
    (hp : ∀ f : Facts, p (f.rename σ) = p f) :
    (g'.waves.flatten.filterMap known'.get?).countP p =
      (g.waves.flatten.filterMap known.get?).countP p := by
  have hperm := (h.perm_flatten_waves hacyclic).filterMap known'.get?
  have hfacts : (g.waves.flatten.map σ).filterMap known'.get? =
      (g.waves.flatten.filterMap known.get?).map (Facts.rename σ) := by
    rw [List.filterMap_map, List.map_filterMap]
    exact List.filterMap_congr fun id _ => hknown id
  have hcomp : p ∘ Facts.rename σ = p := funext hp
  rw [hperm.countP_eq, hfacts, List.countP_map, hcomp]

/-- The account is the same but for the order in which the classes were looked at. -/
theorem report_eq (hacyclic : g.Acyclic) :
    g'.report known' = { g.report known with order := g'.waves.flatten } := by
  simp only [report, h.forall₂_waves.length_eq]
  -- What is counted is whether the origin is of some kind, or whether the class is compromised.
  congr 1 <;> refine h.countP_facts_eq hknown hacyclic _ ?_
  all_goals
    rintro ⟨alwaysDefined, compromised, origin, firstEscape⟩
    cases origin <;> rfl

/-! ## Narrowed sets -/

/-- Classes have the same narrowed sets under both names. -/
theorem narrow_eq (hacyclic : g.Acyclic) (hall : ∀ id ∈ g.ids, (known.get? id).isSome = true)
    (id : ClassId) : (g'.narrow known').get? (σ id) = (g.narrow known).get? id := by
  by_cases hid : id ∈ g.ids
  · have hid' : σ id ∈ g'.ids := h.mem_ids_iff.2 hid
    have hacyclic' := h.acyclic hacyclic
    obtain ⟨f, hf⟩ := Option.isSome_iff_exists.1 (hall id hid)
    have hf' : known'.get? (σ id) = some (f.rename σ) := by rw [hknown id, hf, Option.map_some]
    rw [get?_narrow hacyclic' hid', get?_narrow hacyclic hid]
    -- The subclasses are met in another order, so the two meets are not equal step by step.
    have hsub := toList_narrowedBy_sublist (g := g') (t := g'.narrow known') hf'
    refine congrArg some (AttrSet.eq_of_sublist (u := f.alwaysDefined) hsub
      (toList_narrowedBy_sublist hf) fun a => ?_)
    rw [mem_narrow_iff hacyclic' hid', mem_narrow_iff hacyclic hid, σ.surjective.forall]
    exact forall_congr' fun d => imp_congr h.derivesFrom_iff hknown.alwaysDefines_iff
  · have hid' : σ id ∉ g'.ids := mt h.mem_ids_iff.1 hid
    rw [get?_narrow_of_not_mem hid', get?_narrow_of_not_mem hid]

end Graph.Renamed

/-! ## Layouts -/

/-- The slot with its owner renamed. -/
def Slot.rename (σ : ClassId ≃ ClassId) (slot : Slot) : Slot :=
  { slot with owner := σ slot.owner }

/-- The layout with the owners of its slots renamed. -/
def Layout.rename (σ : ClassId ≃ ClassId) (l : Layout) : Layout :=
  { l with slots := l.slots.map (Slot.rename σ) }

namespace Layout

/-- A slot is found where it was. -/
theorem slot?_rename (l : Layout) (name : Name) :
    (l.rename σ).slot? name = (l.slot? name).map (Slot.rename σ) := by
  rw [slot?, slot?, rename, List.find?_map]
  rfl

/-- A new slot goes to the same place. -/
theorem rename_place (l : Layout) (name : Name) (owner : ClassId) (repr : ValueRepr)
    (defined deletable : Bool) : (l.place name owner repr defined deletable).rename σ =
      (l.rename σ).place name (σ owner) repr defined deletable := by
  unfold place
  split
  · cases repr <;> simp [rename, Slot.rename]
  · simp [rename, Slot.rename]

theorem rename_boxSlot (l : Layout) (name : Name) (id : ClassId) :
    (l.boxSlot name id).rename σ = (l.rename σ).boxSlot name (σ id) := by
  simp only [boxSlot, rename, List.map_map]
  congr 1
  refine List.map_congr_left fun slot _ => ?_
  by_cases hname : slot.name = name
  · cases hboxed : slot.storage.isBoxed <;> simp [Slot.rename, hname, hboxed]
  · simp [Slot.rename, hname]

end Layout

namespace Graph

variable {g g' : Graph} {guaranteed guaranteed' : ClassId → Name → Bool}
  (hguaranteed : ∀ id, guaranteed' (σ id) = guaranteed id)

include hguaranteed

/-- A slot is taken over from a base in the same way. -/
theorem inheritSlot_rename (id : ClassId) (deletable : AttrSet) (fromTrait : Bool) (l : Layout)
    (slot : Slot) :
    inheritSlot guaranteed' (σ id) deletable fromTrait (l.rename σ) (slot.rename σ) =
      (inheritSlot guaranteed id deletable fromTrait l slot).rename σ := by
  have howner : (if fromTrait then σ id else (slot.rename σ).owner) =
      σ (if fromTrait then id else slot.owner) := by
    cases fromTrait <;> rfl
  have hslot : ((l.rename σ).slot? (slot.rename σ).name).isSome = (l.slot? slot.name).isSome := by
    rw [Layout.slot?_rename, Option.isSome_map]
    rfl
  simp only [inheritSlot, howner, hguaranteed, hslot]
  by_cases hsome : (l.slot? slot.name).isSome = true
  · rw [if_pos hsome, if_pos hsome]
  · rw [if_neg hsome, if_neg hsome, Layout.rename_place]
    rfl

/-- So are all slots of a base, by induction along them. -/
theorem foldl_inheritSlot_rename (id : ClassId) (deletable : AttrSet) (fromTrait : Bool)
    (slots : List Slot) (l : Layout) :
    (slots.map (Slot.rename σ)).foldl (inheritSlot guaranteed' (σ id) deletable fromTrait)
        (l.rename σ) =
      (slots.foldl (inheritSlot guaranteed id deletable fromTrait) l).rename σ := by
  rw [List.foldl_map]
  exact List.foldl_hom (Layout.rename σ) (inheritSlot_rename hguaranteed id deletable fromTrait)

/-- An attribute gets the same slot. -/
theorem declareSlot_rename (id : ClassId) (l : Layout) (attr : Attribute) :
    declareSlot guaranteed' (σ id) (l.rename σ) attr =
      (declareSlot guaranteed id l attr).rename σ := by
  unfold declareSlot
  rw [Layout.slot?_rename, Option.isSome_map]
  split
  · split
    · exact (Layout.rename_boxSlot l attr.name id).symm
    · rfl
  · rw [Layout.rename_place, hguaranteed]

namespace Renamed

variable (h : Renamed σ g g')

include h

/-- What the bases give is the same under the new names. -/
theorem inheritedLayout_eq {layoutAt layoutAt' : ClassId → Layout} {id : ClassId}
    (hat : ∀ base ∈ g.localBases id, layoutAt' (σ base) = (layoutAt base).rename σ) :
    g'.inheritedLayout guaranteed' layoutAt' (σ id) =
      (g.inheritedLayout guaranteed layoutAt id).rename σ := by
  have hsecondary : (g'.localBases (σ id)).filter (some · ≠ g'.primaryBase? (σ id)) =
      ((g.localBases id).filter (some · ≠ g.primaryBase? id)).map σ := by
    rw [h.localBases_eq, h.primaryBase?_eq, List.filter_map]
    congr 1
    refine List.filter_congr fun base _ => ?_
    cases g.primaryBase? id <;> simp
  -- The layout of the primary base is taken over first, then the slots of the other bases one by
  -- one.
  have hstart : ((g'.primaryBase? (σ id)).map layoutAt').getD .empty =
      (((g.primaryBase? id).map layoutAt).getD .empty).rename σ := by
    rw [h.primaryBase?_eq]
    cases hbase : g.primaryBase? id with
    | none => rfl
    | some base => exact hat base (mem_localBases_of_primaryBase? hbase)
  have hslots : ∀ l, ∀ base ∈ (g.localBases id).filter (some · ≠ g.primaryBase? id),
      (layoutAt' (σ base)).slots.foldl
          (inheritSlot guaranteed' (σ id) (g'.deletableAttrs (σ id)) (g'.isTrait (σ base))) l =
        ((layoutAt base).slots.map (Slot.rename σ)).foldl
          (inheritSlot guaranteed' (σ id) (g.deletableAttrs id) (g.isTrait base)) l := by
    intro l base hbase
    rw [hat base (List.mem_filter.1 hbase).1, h.isTrait_eq, h.deletableAttrs_eq]
    rfl
  rw [inheritedLayout, inheritedLayout, hsecondary, hstart, List.foldl_map,
    List.foldl_ext _ _ _ hslots]
  exact List.foldl_hom (Layout.rename σ) fun l base =>
    foldl_inheritSlot_rename hguaranteed id _ _ (layoutAt base).slots l

/-- A class has the same layout under its new name. -/
theorem layoutAt_eq (hacyclic : g.Acyclic) (id : ClassId) (hid : id ∈ g.ids) :
    g'.layoutAt guaranteed' (σ id) = (g.layoutAt guaranteed id).rename σ := by
  induction id using hacyclic.induction with
  | hstep id ih =>
    have hat : ∀ base ∈ g.localBases id,
        g'.layoutAt guaranteed' (σ base) = (g.layoutAt guaranteed base).rename σ :=
      fun base hbase => ih base hbase (mem_ids_of_mem_localBases hbase)
    rw [Graph.layoutAt_eq (h.acyclic hacyclic) (h.mem_ids_iff.2 hid),
      Graph.layoutAt_eq hacyclic hid, layoutAfter, layoutAfter, h.attributes_eq,
      h.inheritedLayout_eq hguaranteed hat]
    exact List.foldl_hom (Layout.rename σ) (declareSlot_rename hguaranteed id)

end Renamed

end Graph

/-! ## Declarations in another order -/

/-- The second list has at the new position of a class what the first has at the old one. -/
def Reordered (σ : ClassId ≃ ClassId) (decls decls' : List Declaration) : Prop :=
  ∀ id, decls'[(σ id).index]? = decls[id.index]?

/-- Moves all positions but the first, which stays. -/
def shiftPositions (τ : Nat ≃ Nat) : Nat ≃ Nat where
  toFun
    | 0 => 0
    | i + 1 => τ i + 1
  invFun
    | 0 => 0
    | i + 1 => τ.symm i + 1
  left_inv := by rintro (_ | i) <;> simp
  right_inv := by rintro (_ | i) <;> simp

/-- Lists with the same members are the same up to where these stand. -/
theorem exists_positions {α : Type} {l l' : List α} (h : l.Perm l') :
    ∃ τ : Nat ≃ Nat, ∀ i, l'[τ i]? = l[i]? := by
  -- The induction is on how one order is made from the other by swapping neighbours.
  induction h with
  | nil => exact ⟨.refl Nat, fun _ => rfl⟩
  | cons x _ ih =>
    obtain ⟨τ, hτ⟩ := ih
    refine ⟨shiftPositions τ, ?_⟩
    rintro (_ | i)
    · rfl
    · exact hτ i
  | swap x y l =>
    refine ⟨Equiv.swap 0 1, ?_⟩
    rintro (_ | _ | i)
    · rfl
    · rfl
    · rw [Equiv.swap_apply_of_ne_of_ne (by omega) (by omega)]
      rfl
  | trans _ _ ih ih' =>
    obtain ⟨τ, hτ⟩ := ih
    obtain ⟨τ', hτ'⟩ := ih'
    exact ⟨τ.trans τ', fun i => (hτ' (τ i)).trans (hτ i)⟩

/-- Declarations in another order are the same under new names of the classes. -/
theorem exists_reordered {decls decls' : List Declaration} (h : decls.Perm decls') :
    ∃ σ, Reordered σ decls decls' := by
  obtain ⟨τ, hτ⟩ := exists_positions h
  let position : ClassId ≃ Nat := ⟨ClassId.index, ClassId.mk, fun _ => rfl, fun _ => rfl⟩
  exact ⟨position.trans (τ.trans position.symm), fun id => hτ id.index⟩

namespace Graph

variable {decls decls' : List Declaration} {n : Name} {id : ClassId}

/-- Without repeated names a name is declared in one place at most. -/
theorem declared?_eq_some_iff (hnodup : (decls.map (·.name)).Nodup) :
    declared? decls n = some id ↔ ∃ d, decls[id.index]? = some d ∧ d.name = n := by
  constructor
  · intro h
    obtain ⟨i, hi, rfl⟩ := Option.map_eq_some_iff.1 h
    obtain ⟨hlt, hname, -⟩ := List.findIdx?_eq_some_iff_getElem.1 hi
    exact ⟨decls[i], List.getElem?_eq_getElem hlt, by simpa using hname⟩
  · rintro ⟨d, hd, rfl⟩
    obtain ⟨hlt, rfl⟩ := List.getElem?_eq_some_iff.1 hd
    rw [declared?, findIdx?_of_nodup_map hnodup hlt, Option.map_some]

/-- A name stands for the same class. -/
theorem declared?_reordered (h : Reordered σ decls decls')
    (hnodup : (decls.map (·.name)).Nodup) (hnodup' : (decls'.map (·.name)).Nodup) (n : Name) :
    declared? decls' n = (declared? decls n).map σ := by
  -- Of two declarations of one name, another might be the first in the second list.
  ext id'
  obtain ⟨id, rfl⟩ := σ.surjective id'
  rw [declared?_eq_some_iff hnodup', h id, ← declared?_eq_some_iff hnodup]
  simp

/-- A base is the same class under its new name. -/
theorem resolveBase?_reordered (h : Reordered σ decls decls')
    (hnodup : (decls.map (·.name)).Nodup) (hnodup' : (decls'.map (·.name)).Nodup)
    (base : NamedBase) :
    resolveBase? decls' base = (resolveBase? decls base).map (Base.rename σ) := by
  unfold resolveBase?
  rw [declared?_reordered h hnodup hnodup']
  by_cases hroot : base.name = .object <;> cases base.foreign <;>
    cases declared? decls base.name <;> simp [hroot, Base.rename]

/-- The classes of the reordered declarations are the same classes under new names. -/
theorem renamed_ofDeclarations (h : Reordered σ decls decls')
    (hnodup : (decls.map (·.name)).Nodup) (hnodup' : (decls'.map (·.name)).Nodup) :
    Renamed σ (ofDeclarations decls) (ofDeclarations decls') := by
  have hclass : ∀ d, classOf decls' d = (classOf decls d).rename σ := by
    intro d
    simp only [classOf, Class.rename, List.map_filterMap, resolveBase?_reordered h hnodup hnodup']
  intro id
  rw [class?_ofDeclarations, class?_ofDeclarations, h id, Option.map_map]
  exact congrArg (fun f => decls[id.index]?.map f) (funext hclass)

end Graph

namespace CompileUnit

variable {names : NameTable} {decls decls' : List Declaration} {u u' v v' : CompileUnit}
  {o : Options} {report report' : Report}

/-- A unit is built in every order or in none. -/
theorem exists_build_iff_of_perm (hperm : decls.Perm decls') :
    (∃ u, build names decls = .ok u) ↔ ∃ u, build names decls' = .ok u := by
  rw [exists_build_iff, exists_build_iff, hperm.length_eq, (hperm.map _).nodup_iff]

/-- The hierarchies differ in the names of the classes alone. -/
theorem renamed_of_build (h : Reordered σ decls decls') (hbuild : build names decls = .ok u)
    (hbuild' : build names decls' = .ok u') : Graph.Renamed σ u.graph u'.graph := by
  have hnodup := (exists_build_iff.1 ⟨u, hbuild⟩).2
  have hnodup' := (exists_build_iff.1 ⟨u', hbuild'⟩).2
  rw [eq_of_build_eq_ok hbuild, eq_of_build_eq_ok hbuild']
  exact Graph.renamed_ofDeclarations h hnodup hnodup'

/-- A unit without facts can be analyzed exactly if it has no cycle. -/
theorem exists_analyze_iff (hfacts : ∀ id, u.facts.get? id = none) (o : Options) :
    (∃ answer, u.analyze o = .ok answer) ↔ u.graph.Acyclic := by
  constructor
  · rintro ⟨⟨report, v⟩, h⟩
    exact Graph.findCycle?_eq_none_iff.1 (analyze_eq_ok_iff.1 h).2.1
  · exact fun h => ⟨_, analyze_eq_ok_of_acyclic (fun id _ => hfacts id) h o⟩

section Analyzed

variable (h : Graph.Renamed σ u.graph u'.graph) (hanalyze : u.analyze o = .ok (report, v))
  (hanalyze' : u'.analyze o = .ok (report', v'))

include h hanalyze hanalyze'

/-- The facts are the same under the new names. -/
theorem facts_renamed : FactsRenamed σ v.facts v'.facts := by
  obtain ⟨-, -, -, rfl⟩ := analyze_eq_ok_iff.1 hanalyze
  obtain ⟨-, -, -, rfl⟩ := analyze_eq_ok_iff.1 hanalyze'
  exact h.factsRenamed_analyze o

/-- The narrowed sets are the same under the new names. -/
theorem narrowed_renamed (id : ClassId) : v'.narrowed.get? (σ id) = v.narrowed.get? id := by
  obtain ⟨-, hcycle, -, rfl⟩ := analyze_eq_ok_iff.1 hanalyze
  obtain ⟨-, -, -, rfl⟩ := analyze_eq_ok_iff.1 hanalyze'
  have hacyclic := Graph.findCycle?_eq_none_iff.1 hcycle
  have hall : ∀ id ∈ u.graph.ids, ((u.graph.analyze o).get? id).isSome = true := by
    intro id hid
    rw [Graph.get?_analyze hcycle hid]
    rfl
  cases ho : o.narrowBySubclasses with
  | false => simp
  | true => simpa using h.narrow_eq (h.factsRenamed_analyze o) hacyclic hall id

/-- The accounts differ in the order of the classes alone. -/
theorem report_renamed : report' = { report with order := report'.order } ∧
    report'.order.Perm (report.order.map σ) := by
  obtain ⟨-, hcycle, rfl, -⟩ := analyze_eq_ok_iff.1 hanalyze
  obtain ⟨-, -, rfl, -⟩ := analyze_eq_ok_iff.1 hanalyze'
  have hacyclic := Graph.findCycle?_eq_none_iff.1 hcycle
  exact ⟨h.report_eq (h.factsRenamed_analyze o) hacyclic, h.perm_flatten_waves hacyclic⟩

/-- The same attributes are guaranteed for a layout. -/
theorem guaranteed_renamed (o' : Options) (id : ClassId) :
    v'.guaranteed o' (σ id) = v.guaranteed o' id := by
  have hdefined : v'.alwaysDefined? (σ id) = v.alwaysDefined? id := by
    rw [alwaysDefined?, alwaysDefined?, facts_renamed h hanalyze hanalyze' id, Option.map_map]
    rfl
  funext a
  simp only [guaranteed, hdefined, narrowed_renamed h hanalyze hanalyze' id]

/-- The plans of both units have the same layouts, each for its class. -/
theorem layouts_renamed (o' : Options) : ∃ ls ls', v.layouts o' = .ok ls ∧ v'.layouts o' = .ok ls' ∧
    ls'.Perm (ls.map fun (id, l) => (σ id, l.rename σ)) := by
  refine ⟨_, _, layouts_of_analyze hanalyze o', layouts_of_analyze hanalyze' o', ?_⟩
  have hguaranteed := guaranteed_renamed h hanalyze hanalyze' o'
  obtain ⟨-, hcycle, -, hv⟩ := analyze_eq_ok_iff.1 hanalyze
  obtain ⟨-, -, -, hv'⟩ := analyze_eq_ok_iff.1 hanalyze'
  have hgraph : v.graph = u.graph := by rw [hv]
  have hgraph' : v'.graph = u'.graph := by rw [hv']
  have hacyclic := Graph.findCycle?_eq_none_iff.1 hcycle
  have hlayouts : (u.graph.ids.map σ).map
        (fun id => (id, u'.graph.layoutAt (v'.guaranteed o') id)) =
      (u.graph.ids.map fun id => (id, u.graph.layoutAt (v.guaranteed o') id)).map
        fun (id, l) => (σ id, l.rename σ) := by
    rw [List.map_map, List.map_map]
    exact List.map_congr_left fun id hid =>
      congrArg (Prod.mk (σ id)) (h.layoutAt_eq hguaranteed hacyclic id hid)
  rw [hgraph, hgraph', ← hlayouts]
  exact h.perm_ids.map _

end Analyzed

/-- A unit is built and analyzed of the declarations in one order if and only if it is in another.
Then a class has the same facts, narrowed set and layout in both under its two names, and the
account differs in the order of the classes alone. -/
theorem declaration_order_irrelevant (names : NameTable) (decls decls' : List Declaration)
    (hperm : decls.Perm decls') :
    ((∃ u, build names decls = .ok u) ↔ ∃ u', build names decls' = .ok u') ∧
    (∃ σ, Reordered σ decls decls') ∧
    ∀ σ, Reordered σ decls decls' → ∀ u u', build names decls = .ok u →
      build names decls' = .ok u' → ∀ o,
        ((∃ answer, u.analyze o = .ok answer) ↔ ∃ answer', u'.analyze o = .ok answer') ∧
        ∀ report v report' v', u.analyze o = .ok (report, v) →
          u'.analyze o = .ok (report', v') →
            (∀ id, v'.facts.get? (σ id) = (v.facts.get? id).map (Facts.rename σ)) ∧
            (∀ id, v'.narrowed.get? (σ id) = v.narrowed.get? id) ∧
            report' = { report with order := report'.order } ∧
            report'.order.Perm (report.order.map σ) ∧
            ∀ o', ∃ ls ls', v.layouts o' = .ok ls ∧ v'.layouts o' = .ok ls' ∧
              ls'.Perm (ls.map fun (id, l) => (σ id, l.rename σ)) := by
  refine ⟨exists_build_iff_of_perm hperm, exists_reordered hperm, ?_⟩
  intro σ hσ u u' hbuild hbuild' o
  have h := renamed_of_build hσ hbuild hbuild'
  refine ⟨?_, fun report v report' v' hanalyze hanalyze' => ?_⟩
  · rw [exists_analyze_iff (get?_facts_of_build hbuild),
      exists_analyze_iff (get?_facts_of_build hbuild'), h.acyclic_iff]
  · obtain ⟨hreport, horder⟩ := report_renamed h hanalyze hanalyze'
    exact ⟨facts_renamed h hanalyze hanalyze', narrowed_renamed h hanalyze hanalyze', hreport,
      horder, layouts_renamed h hanalyze hanalyze'⟩

/-- Exchanges the first class of a diamond with the last, and the two between them. -/
def inversion : ClassId ≃ ClassId := (Equiv.swap ⟨0⟩ ⟨3⟩).trans (Equiv.swap ⟨1⟩ ⟨2⟩)

/-- The unit of the diamond that declares every class before its bases. -/
def invertedUnit : CompileUnit := ⟨.fresh, .ofDeclarations diamond.reverse, ∅, ∅⟩

theorem reordered_inversion : Reordered inversion diamond diamond.reverse := by
  rintro ⟨_ | _ | _ | _ | i⟩
  · rfl
  · rfl
  · rfl
  · rfl
  · have hfixed : inversion ⟨i + 4⟩ = ⟨i + 4⟩ := by
      simp [inversion, Equiv.swap_apply_of_ne_of_ne]
    rw [hfixed]
    rfl

/-- The lowest class of the diamond, declared first instead of last. -/
theorem declaration_order_irrelevant_diamond : diamond.Perm diamond.reverse ∧
    ∃ report v report' v', diamondUnit.analyze .default = .ok (report, v) ∧
      invertedUnit.analyze .default = .ok (report', v') ∧
      v'.facts.get? ⟨0⟩ = (v.facts.get? ⟨3⟩).map (Facts.rename inversion) ∧
      report' = { report with order := report'.order } := by
  have hperm : diamond.Perm diamond.reverse := diamond.reverse_perm.symm
  have hbuild : build .fresh diamond = .ok diamondUnit := rfl
  have hbuild' : build .fresh diamond.reverse = .ok invertedUnit := rfl
  have hacyclic : diamondUnit.graph.Acyclic :=
    Graph.findCycle?_eq_none_iff.1 (by decide +kernel)
  obtain ⟨-, -, hsame⟩ := declaration_order_irrelevant .fresh diamond diamond.reverse hperm
  obtain ⟨hiff, hsame⟩ :=
    hsame inversion reordered_inversion diamondUnit invertedUnit hbuild hbuild' .default
  obtain ⟨⟨report, v⟩, h⟩ :=
    (exists_analyze_iff (get?_facts_of_build hbuild) .default).2 hacyclic
  obtain ⟨⟨report', v'⟩, h'⟩ := hiff.1 ⟨_, h⟩
  obtain ⟨hfacts, -, hreport, -⟩ := hsame report v report' v' h h'
  exact ⟨hperm, report, v, report', v', h, h', hfacts ⟨3⟩, hreport⟩

end CompileUnit

end DefiniteInit
