import DefiniteInit.Proofs.LayoutGrowth

/-!
# Slots of attributes that may be deleted

The layout of a class has a slot for every attribute of the class and of those above it
(`Graph.isSome_slot?_layoutAt`). A slot that the class takes over from a base other than the
primary one is marked as deletable if the class or one above it lets the attribute be deleted, and
so is the slot of an attribute that the class itself lets be deleted. But a slot of the primary
base is taken as it is, whatever the other bases let be deleted.

So a slot is marked exactly if a class on the way up the primary bases marks it anew
(`Graph.marks_layoutAt_iff`). That no slot is unboxed whose attribute may be deleted is left to
narrowing: without it the slot of the primary base may be unboxed.
-/

namespace DefiniteInit

/-! ## One step -/

/-- A slot is marked if it was, or if the attribute may be deleted. -/
theorem Slot.storage_declaredBy {id : ClassId} {attrs : List Attribute} {slot : Slot} :
    (slot.declaredBy id attrs).storage = .boxedWithSentinel true ↔
      slot.storage = .boxedWithSentinel true ∨ Graph.letsDelete attrs slot.name = true := by
  cases h : Graph.letsDelete attrs slot.name with
  | false => simp [declaredBy_of_not_letsDelete h]
  | true => simp [declaredBy_of_letsDelete h, boxedBy]

namespace Layout

variable {l l' : Layout} {id : ClassId} {a : Name} {attrs : List Attribute}

/-- The slot of the attribute is boxed and marked as deletable. -/
def Marks (l : Layout) (a : Name) : Prop :=
  ∃ slot, l.slot? a = some slot ∧ slot.storage = .boxedWithSentinel true

/-- A layout marks an attribute by its slot. -/
theorem marks_of_slot?_eq_some {slot : Slot} (h : l.slot? a = some slot) :
    l.Marks a ↔ slot.storage = .boxedWithSentinel true := by
  simp [Marks, h]

/-- The slot of the attribute, if there is one, is marked exactly if `p` holds. -/
def MarkedIff (l : Layout) (a : Name) (p : Prop) : Prop :=
  ∀ slot, l.slot? a = some slot → (slot.storage = .boxedWithSentinel true ↔ p)

theorem MarkedIff.marks {p : Prop} (h : l.MarkedIff a p) :
    l.Marks a ↔ p ∧ (l.slot? a).isSome = true := by
  constructor
  · rintro ⟨slot, hslot, hstorage⟩
    exact ⟨(h slot hslot).1 hstorage, by simp [hslot]⟩
  · rintro ⟨hp, hslot⟩
    obtain ⟨slot, hslot⟩ := Option.isSome_iff_exists.1 hslot
    exact ⟨slot, hslot, (h slot hslot).2 hp⟩

theorem isSome_slot? : (l.slot? a).isSome = true ↔ ∃ slot ∈ l.slots, slot.name = a := by
  simp [slot?]

theorem name_of_slot?_eq_some {slot : Slot} (h : l.slot? a = some slot) : slot.name = a := by
  simpa using List.find?_some h

/-- A new slot is marked if the attribute may be deleted. -/
theorem newStorage_eq_iff (repr : ValueRepr) (defined deletable : Bool) :
    l.newStorage repr defined deletable = .boxedWithSentinel true ↔ deletable = true := by
  cases defined <;> cases deletable <;> cases repr <;> simp [newStorage]

/-- In a layout that begins with the slots of another, those are found first. -/
theorem slot?_of_slots_eq {rest : List Slot}
    (h : l'.slots = l.slots.map (Slot.declaredBy id attrs) ++ rest) :
    l'.slot? a = ((l.slot? a).map (Slot.declaredBy id attrs)).or (rest.find? (·.name = a)) := by
  have hname : (fun slot : Slot => decide (slot.name = a)) ∘ Slot.declaredBy id attrs =
      fun slot => decide (slot.name = a) := by
    funext slot
    simp
  rw [slot?, h, List.find?_append, List.find?_map, hname, slot?]

/-- A slot is found again in a layout that has grown. -/
theorem GrowsTo.slot? (h : l.GrowsTo id attrs l') {slot : Slot} (hslot : l.slot? a = some slot) :
    l'.slot? a = some (slot.declaredBy id attrs) := by
  obtain ⟨rest, hrest⟩ := h.slots
  rw [slot?_of_slots_eq hrest.symm, hslot]
  rfl

/-- A new slot is found where there was none. -/
theorem slot?_of_adds (new : Slot) (h : l'.slots = l.slots.map (Slot.declaredBy id attrs) ++
      if (l.slot? new.name).isSome then [] else [new]) :
    l'.slot? a = ((l.slot? a).map (Slot.declaredBy id attrs)).or
      (if new.name = a then some new else none) := by
  rw [slot?_of_slots_eq h]
  cases hslot : (l.slot? new.name).isSome with
  | false => simp only [Bool.false_eq_true, if_false, List.find?_singleton, decide_eq_true_eq]
  | true =>
    by_cases hname : new.name = a
    · obtain ⟨slot, hslot⟩ := Option.isSome_iff_exists.1 hslot
      rw [hname] at hslot
      rw [hslot]
      rfl
    · simp [hname]

end Layout

namespace Graph

variable {g : Graph} {guaranteed : ClassId → Name → Bool} {id : ClassId} {l : Layout} {a : Name}

/-- A slot that is taken over is there if none of its name was, marked if the attribute may be
deleted. -/
theorem slot?_inheritSlot (guaranteed : ClassId → Name → Bool) (id : ClassId) (deletable : AttrSet)
    (fromTrait : Bool) (l : Layout) (slot : Slot) (a : Name) :
    ∃ new : Slot, (new.storage = .boxedWithSentinel true ↔ slot.name ∈ deletable) ∧
      (inheritSlot guaranteed id deletable fromTrait l slot).slot? a =
        (l.slot? a).or (if slot.name = a then some new else none) := by
  let owner := if fromTrait then id else slot.owner
  let new : Slot := ⟨slot.name, owner, slot.repr,
    l.newStorage slot.repr (guaranteed owner slot.name) (slot.name ∈ deletable)⟩
  refine ⟨new, by simp [new, Layout.newStorage_eq_iff], ?_⟩
  have hslots : (inheritSlot guaranteed id deletable fromTrait l slot).slots =
      l.slots.map (Slot.declaredBy id []) ++ if (l.slot? new.name).isSome then [] else [new] := by
    unfold inheritSlot
    split <;> simp [*, Layout.slots_place, new, owner]
  rw [Layout.slot?_of_adds new hslots]
  cases l.slot? a <;> simp [new]

/-- Of an attribute that is declared the slot that is there is changed, or else there is a new one.
-/
theorem slot?_declareSlot (l : Layout) (attr : Attribute) :
    (declareSlot guaranteed id l attr).slot? a =
      ((l.slot? a).map (Slot.declaredBy id [attr])).or (if attr.name = a then
        some ⟨attr.name, id, attr.repr,
          l.newStorage attr.repr (guaranteed id attr.name) attr.deletable⟩ else none) :=
  Layout.slot?_of_adds ⟨_, _, _, _⟩ (slots_declareSlot attr)

/-- What each step adds to is, in the end, what held at first or some step added. -/
theorem foldl_iff {α : Type} {P : Layout → Prop} {Q : α → Prop} {step : Layout → α → Layout}
    (h : ∀ l x, P (step l x) ↔ P l ∨ Q x) (xs : List α) (l : Layout) :
    P (xs.foldl step l) ↔ P l ∨ ∃ x ∈ xs, Q x := by
  induction xs generalizing l with
  | nil => simp
  | cons x xs ih => simp [ih, h, or_assoc]

/-! ## Every attribute has a slot -/

/-- To take over a slot gives its attribute one. -/
theorem isSome_slot?_inheritSlot (deletable : AttrSet) (fromTrait : Bool) (l : Layout)
    (slot : Slot) :
    ((inheritSlot guaranteed id deletable fromTrait l slot).slot? a).isSome = true ↔
      (l.slot? a).isSome = true ∨ slot.name = a := by
  obtain ⟨new, -, hnew⟩ := slot?_inheritSlot guaranteed id deletable fromTrait l slot a
  rw [hnew, Option.isSome_or]
  split <;> simp [*]

theorem isSome_slot?_declareSlot (l : Layout) (attr : Attribute) :
    ((declareSlot guaranteed id l attr).slot? a).isSome = true ↔
      (l.slot? a).isSome = true ∨ attr.name = a := by
  rw [slot?_declareSlot, Option.isSome_or, Option.isSome_map]
  split <;> simp [*]

/-- A class takes over the slots of all its bases. -/
theorem isSome_slot?_inheritedLayout {layoutAt : ClassId → Layout} :
    ((g.inheritedLayout guaranteed layoutAt id).slot? a).isSome = true ↔
      ∃ base ∈ g.localBases id, ((layoutAt base).slot? a).isSome = true := by
  have hbase : ∀ l base, (((layoutAt base).slots.foldl (inheritSlot guaranteed id
      (g.deletableAttrs id) (g.isTrait base)) l).slot? a).isSome = true ↔
      (l.slot? a).isSome = true ∨ ((layoutAt base).slot? a).isSome = true := by
    intro l base
    rw [Layout.isSome_slot? (l := layoutAt base)]
    exact foldl_iff (P := fun l => (l.slot? a).isSome = true)
      (isSome_slot?_inheritSlot (g.deletableAttrs id) (g.isTrait base)) _ l
  refine (foldl_iff (P := fun l => (l.slot? a).isSome = true) hbase _ _).trans ?_
  constructor
  -- A slot comes with the primary base, where the layout starts, or with one of the others.
  · rintro (hstart | ⟨base, hmem, hslot⟩)
    · cases hprimary : g.primaryBase? id with
      | none => simp [hprimary, Layout.empty, Layout.slot?] at hstart
      | some base =>
        rw [hprimary] at hstart
        exact ⟨base, mem_localBases_of_primaryBase? hprimary, hstart⟩
    · exact ⟨base, (List.mem_filter.1 hmem).1, hslot⟩
  · rintro ⟨base, hmem, hslot⟩
    by_cases hprimary : g.primaryBase? id = some base
    · left
      rw [hprimary]
      exact hslot
    · exact Or.inr ⟨base, List.mem_filter.2 ⟨hmem, by simpa using fun h => hprimary h.symm⟩, hslot⟩

/-- The class or one above it has the attribute. -/
def HasAttr (g : Graph) (id : ClassId) (a : Name) : Prop :=
  ∃ c, g.DerivesFrom id c ∧ ∃ attr ∈ g.attributes c, attr.name = a

/-- A class has the attributes of its bases and its own. -/
theorem hasAttr_iff : g.HasAttr id a ↔
    (∃ base ∈ g.localBases id, g.HasAttr base a) ∨ ∃ attr ∈ g.attributes id, attr.name = a := by
  constructor
  · rintro ⟨c, hc, hattr⟩
    rcases Relation.ReflTransGen.cases_head hc with rfl | ⟨base, hbase, hc⟩
    · exact Or.inr hattr
    · exact Or.inl ⟨base, hbase, c, hc, hattr⟩
  · rintro (⟨base, hbase, c, hc, hattr⟩ | hattr)
    · exact ⟨c, .head hbase hc, hattr⟩
    · exact ⟨id, .refl, hattr⟩

/-- The slots of a class are those of the attributes that it and the classes above it have. -/
theorem isSome_slot?_layoutAt (h : g.Acyclic) (hid : id ∈ g.ids) :
    ((g.layoutAt guaranteed id).slot? a).isSome = true ↔ g.HasAttr id a := by
  induction id using h.induction with
  | hstep id ih =>
    rw [layoutAt_eq h hid, hasAttr_iff]
    refine (foldl_iff (P := fun l => (l.slot? a).isSome = true) isSome_slot?_declareSlot _ _).trans
      (or_congr_left (isSome_slot?_inheritedLayout.trans ?_))
    exact exists_congr fun base => and_congr_right fun hbase =>
      ih base hbase (mem_ids_of_mem_localBases hbase)

/-! ## Marks -/

/-- To declare an attribute marks it if it may be deleted. -/
theorem marks_declareSlot (l : Layout) (attr : Attribute) :
    (declareSlot guaranteed id l attr).Marks a ↔
      l.Marks a ∨ attr.name = a ∧ attr.deletable = true := by
  unfold Layout.Marks
  rw [slot?_declareSlot]
  cases hslot : l.slot? a with
  | none =>
    by_cases hname : attr.name = a <;> simp [hname, Layout.newStorage_eq_iff]
  | some slot =>
    simp [Slot.storage_declaredBy, letsDelete, Layout.name_of_slot?_eq_some hslot]

/-- Of what no slot was there for, marks are those of attributes that may be deleted. -/
theorem markedIff_inheritSlot {deletable : AttrSet} (h : l.MarkedIff a (a ∈ deletable))
    (fromTrait : Bool) (slot : Slot) :
    (inheritSlot guaranteed id deletable fromTrait l slot).MarkedIff a (a ∈ deletable) := by
  obtain ⟨new, hnew, hslot⟩ := slot?_inheritSlot guaranteed id deletable fromTrait l slot a
  intro found hfound
  rw [hslot, Option.or_eq_some_iff] at hfound
  rcases hfound with hfound | ⟨-, hfound⟩
  · exact h found hfound
  · split at hfound
    · rename_i hname
      obtain rfl : new = found := by simpa using hfound
      rw [hnew, hname]
    · simp at hfound

/-- A slot that the primary base does not have is taken over with a mark if the class or one above
it lets the attribute be deleted. -/
theorem markedIff_inheritedLayout {layoutAt : ClassId → Layout}
    (hnew : ∀ base, g.primaryBase? id = some base → (layoutAt base).slot? a = none) :
    (g.inheritedLayout guaranteed layoutAt id).MarkedIff a (a ∈ g.deletableAttrs id) := by
  have hstart : (((g.primaryBase? id).map layoutAt).getD .empty).slot? a = none := by
    cases hprimary : g.primaryBase? id with
    | none => rfl
    | some base => exact hnew base hprimary
  refine List.foldlRecOn (motive := fun l : Layout => l.MarkedIff a (a ∈ g.deletableAttrs id)) _ _
    (fun slot hslot => ?_) fun l hl base _ => ?_
  · rw [hstart] at hslot
    simp at hslot
  · exact List.foldlRecOn (motive := fun l : Layout => l.MarkedIff a (a ∈ g.deletableAttrs id)) _ _
      hl fun l hl slot _ => markedIff_inheritSlot hl _ slot

/-- The class marks the slot of the attribute, whatever its primary base does: the class lets the
attribute be deleted, or some class above it does and the primary base has no slot for it. -/
def MarksAnew (g : Graph) (id : ClassId) (a : Name) : Prop :=
  letsDelete (g.attributes id) a = true ∨
    a ∈ g.deletableAttrs id ∧ ∀ base, g.primaryBase? id = some base → ¬g.HasAttr base a

/-- A class marks a slot anew or has it marked from its primary base. -/
theorem marks_layoutAt (h : g.Acyclic) (hid : id ∈ g.ids) :
    (g.layoutAt guaranteed id).Marks a ↔ g.MarksAnew id a ∨
      ∃ base, g.primaryBase? id = some base ∧ (g.layoutAt guaranteed base).Marks a := by
  have hown : (g.layoutAt guaranteed id).Marks a ↔
      (g.inheritedLayout guaranteed (g.layoutAt guaranteed) id).Marks a ∨
        letsDelete (g.attributes id) a = true := by
    rw [layoutAt_eq h hid, letsDelete_eq_true]
    exact foldl_iff (P := fun l => l.Marks a) marks_declareSlot _ _
  have hslots : ∀ base, g.primaryBase? id = some base →
      (((g.layoutAt guaranteed base).slot? a).isSome = true ↔ g.HasAttr base a) :=
    fun base hprimary => isSome_slot?_layoutAt h
      (mem_ids_of_mem_localBases (mem_localBases_of_primaryBase? hprimary))
  rw [hown]
  by_cases hprimary : ∃ base, g.primaryBase? id = some base ∧ g.HasAttr base a
  · -- The slot of the primary base stays as it is until the class comes to its own attributes.
    obtain ⟨base, hprimary, hattr⟩ := hprimary
    obtain ⟨slot, hslot⟩ := Option.isSome_iff_exists.1 ((hslots base hprimary).2 hattr)
    have hgrows := growsTo_inheritedLayout g guaranteed (g.layoutAt guaranteed) id
    rw [hprimary] at hgrows
    have hkept := hgrows.slot? hslot
    rw [Slot.declaredBy_nil] at hkept
    simp [MarksAnew, hprimary, hattr, Layout.marks_of_slot?_eq_some hslot,
      Layout.marks_of_slot?_eq_some hkept, or_comm]
  · have hnew : ∀ base, g.primaryBase? id = some base → ¬g.HasAttr base a :=
      fun base hbase hattr => hprimary ⟨base, hbase, hattr⟩
    have hempty : ∀ base, g.primaryBase? id = some base →
        (g.layoutAt guaranteed base).slot? a = none := fun base hbase => by
      simpa using mt (hslots base hbase).1 (hnew base hbase)
    have hnone :
        ¬∃ base, g.primaryBase? id = some base ∧ (g.layoutAt guaranteed base).Marks a := by
      rintro ⟨base, hbase, slot, hslot, -⟩
      rw [hempty base hbase] at hslot
      simp at hslot
    rw [(markedIff_inheritedLayout hempty).marks, isSome_slot?_inheritedLayout, or_iff_left hnone,
      MarksAnew, and_iff_left hnew, or_comm]
    refine or_congr_right' fun hown => and_iff_left_of_imp fun hdel => ?_
    obtain ⟨c, hc, hdel⟩ := mem_deletableAttrs.1 hdel
    rcases Relation.ReflTransGen.cases_head hc with rfl | ⟨base, hbase, hc⟩
    · exact absurd hdel hown
    · obtain ⟨attr, hattr, hname, -⟩ := letsDelete_eq_true.1 hdel
      exact ⟨base, hbase, (isSome_slot?_layoutAt h (mem_ids_of_mem_localBases hbase)).2
        ⟨c, hc, attr, hattr, hname⟩⟩

/-- `d` is `c`, or `c` is reached from it through primary bases. -/
def DerivesPrimarily (g : Graph) : ClassId → ClassId → Prop :=
  Relation.ReflTransGen fun d base => g.primaryBase? d = some base

/-- A slot is marked if a class on the way up the primary bases marks it anew. -/
theorem marks_layoutAt_iff (h : g.Acyclic) (hid : id ∈ g.ids) :
    (g.layoutAt guaranteed id).Marks a ↔ ∃ d, g.DerivesPrimarily id d ∧ g.MarksAnew d a := by
  induction id using h.induction with
  | hstep id ih =>
    have hbase : ∀ base, g.primaryBase? id = some base →
        ((g.layoutAt guaranteed base).Marks a ↔
          ∃ d, g.DerivesPrimarily base d ∧ g.MarksAnew d a) := fun base hbase =>
      have hmem := mem_localBases_of_primaryBase? hbase
      ih base hmem (mem_ids_of_mem_localBases hmem)
    rw [marks_layoutAt h hid]
    constructor
    · rintro (hanew | ⟨base, hprimary, hmarks⟩)
      · exact ⟨id, .refl, hanew⟩
      · obtain ⟨d, hd, hanew⟩ := (hbase base hprimary).1 hmarks
        exact ⟨d, .head hprimary hd, hanew⟩
    · rintro ⟨d, hd, hanew⟩
      rcases Relation.ReflTransGen.cases_head hd with rfl | ⟨base, hprimary, hd⟩
      · exact Or.inl hanew
      · exact Or.inr ⟨base, hprimary, (hbase base hprimary).2 ⟨d, hd, hanew⟩⟩

end Graph

/-! ## Units -/

namespace CompileUnit

/-- If a class or one above it lets an attribute be deleted, the class has a slot for it. The slot
is boxed and marked as deletable exactly if a class on the way up the primary bases lets the
attribute be deleted, or takes the slot over from another base when it or a class above it does.
With narrowing the slot is boxed in any case. -/
theorem slot_of_deletable (u : CompileUnit) (o o' : Options) (report : Report) (u' : CompileUnit)
    (h : u.analyze o = .ok (report, u')) :
    ∃ ls, u'.layouts o' = .ok ls ∧ ls.map Prod.fst = u'.graph.ids ∧
      ∀ id l, (id, l) ∈ ls → ∀ c a, u'.graph.DerivesFrom id c →
        Graph.letsDelete (u'.graph.attributes c) a = true →
        ∃ slot, l.slot? a = some slot ∧
          (slot.storage = .boxedWithSentinel true ↔
            ∃ d, u'.graph.DerivesPrimarily id d ∧ u'.graph.MarksAnew d a) ∧
          (o.narrowBySubclasses = true → o'.narrowBySubclasses = true →
            slot.storage.isBoxed = true) := by
  have hacyclic := Graph.findCycle?_eq_none_iff.1 (of_analyze_eq_ok h).1
  obtain ⟨ls, hls, hids, hat⟩ := exists_layouts_of_analyze h o'
  refine ⟨ls, hls, hids, fun id l hl c a hc hdel => ?_⟩
  obtain ⟨hid, rfl⟩ := hat id l hl
  obtain ⟨attr, hattr, hname, -⟩ := Graph.letsDelete_eq_true.1 hdel
  obtain ⟨slot, hslot⟩ := Option.isSome_iff_exists.1
    ((Graph.isSome_slot?_layoutAt hacyclic hid).2 ⟨c, hc, attr, hattr, hname⟩)
  refine ⟨slot, hslot, ?_, fun ho ho' => ?_⟩
  · rw [← Layout.marks_of_slot?_eq_some hslot]
    exact Graph.marks_layoutAt_iff hacyclic hid
  · refine isBoxed_of_mem_deletableAttrs h ho ho' hid (Graph.backed_layoutAt _ id)
      (List.mem_of_find?_eq_some hslot) (Graph.mem_deletableAttrs.2 ⟨c, hc, ?_⟩)
    rwa [Layout.name_of_slot?_eq_some hslot]

/-- A class that assigns an attribute, one that lets it be deleted, and two that derive from both:
one takes its initializer from the first, the other from the second. -/
def eitherWay : CompileUnit where
  names := .fresh
  graph := .ofDeclarations
    [(Declaration.named ⟨20⟩).withInitializer ⟨[.setAttr ⟨30⟩ (.literal .none)], .empty⟩,
      (Declaration.named ⟨21⟩).addAttribute (Attribute.plain ⟨30⟩).asDeletable,
      ((Declaration.named ⟨22⟩).addBase ⟨20⟩).addBase ⟨21⟩,
      ((Declaration.named ⟨23⟩).addBase ⟨21⟩).addBase ⟨20⟩]
  facts := ∅
  narrowed := ∅

/-- Without narrowing. -/
def unnarrowed : Options := { Options.default with narrowBySubclasses := false }

/-- The slot as the first class has it. -/
def eitherWayKept : Layout := ⟨[⟨⟨30⟩, ⟨0⟩, .reference, .unboxed⟩], 0⟩

/-- The slot as the second class has it. -/
def eitherWayMarked : Layout := ⟨[⟨⟨30⟩, ⟨1⟩, .reference, .boxedWithSentinel true⟩], 0⟩

theorem analyze_eitherWay : ∃ report u', eitherWay.analyze unnarrowed = .ok (report, u') ∧
    u'.graph = eitherWay.graph ∧ u'.layouts unnarrowed = .ok [(⟨0⟩, eitherWayKept),
      (⟨1⟩, eitherWayMarked), (⟨2⟩, eitherWayKept), (⟨3⟩, eitherWayMarked)] := by
  have h := (analyze_eq_ok_iff (u := eitherWay) (o := unnarrowed)).2
    ⟨fun _ _ => rfl, by decide +kernel, rfl, rfl⟩
  obtain ⟨ls, hls, -⟩ := exists_layouts_of_analyze h unnarrowed
  have hplan : (eitherWay.analyze unnarrowed).toOption.bind (fun (_, u') =>
      (u'.layouts unnarrowed).toOption) = some [(⟨0⟩, eitherWayKept), (⟨1⟩, eitherWayMarked),
        (⟨2⟩, eitherWayKept), (⟨3⟩, eitherWayMarked)] := by decide +kernel
  rw [h] at hplan
  obtain rfl : ls = _ := by simpa [Except.toOption, hls] using hplan
  exact ⟨_, _, h, rfl, hls⟩

theorem derivesFrom_eitherWay : eitherWay.graph.DerivesFrom ⟨2⟩ ⟨1⟩ ∧
    eitherWay.graph.DerivesFrom ⟨3⟩ ⟨1⟩ ∧
    Graph.letsDelete (eitherWay.graph.attributes ⟨1⟩) ⟨30⟩ = true :=
  ⟨.single (by decide +kernel), .single (by decide +kernel), by decide +kernel⟩

/-- Of the classes below the one that lets the attribute be deleted, the slot is marked in that
which takes its initializer from there. -/
theorem slot_of_deletable_eitherWay : ∃ report u', eitherWay.analyze unnarrowed = .ok (report, u') ∧
    Graph.letsDelete (u'.graph.attributes ⟨1⟩) ⟨30⟩ = true ∧
    (u'.graph.DerivesFrom ⟨2⟩ ⟨1⟩ ∧
      ¬∃ d, u'.graph.DerivesPrimarily ⟨2⟩ d ∧ u'.graph.MarksAnew d ⟨30⟩) ∧
    u'.graph.DerivesFrom ⟨3⟩ ⟨1⟩ ∧
      ∃ d, u'.graph.DerivesPrimarily ⟨3⟩ d ∧ u'.graph.MarksAnew d ⟨30⟩ := by
  obtain ⟨report, u', h, hgraph, hlayouts⟩ := analyze_eitherWay
  obtain ⟨ls, hls, -, hslots⟩ := slot_of_deletable eitherWay unnarrowed unnarrowed report u' h
  obtain rfl : _ = ls := by simpa [hlayouts] using hls
  obtain ⟨hkept, hmarked, hdel⟩ := derivesFrom_eitherWay
  rw [← hgraph] at hkept hmarked hdel
  refine ⟨report, u', h, hdel, ⟨hkept, ?_⟩, hmarked, ?_⟩
  · obtain ⟨slot, hslot, hiff, -⟩ := hslots ⟨2⟩ eitherWayKept (by simp) ⟨1⟩ ⟨30⟩ hkept hdel
    obtain rfl : _ = slot := Option.some.inj hslot
    exact fun hmarks => by simpa using hiff.2 hmarks
  · obtain ⟨slot, hslot, hiff, -⟩ := hslots ⟨3⟩ eitherWayMarked (by simp) ⟨1⟩ ⟨30⟩ hmarked hdel
    obtain rfl : _ = slot := Option.some.inj hslot
    exact hiff.1 rfl

/-- In the other class the slot is not even boxed. -/
theorem not_slot_of_deletable_eitherWay : ¬∀ report u',
    eitherWay.analyze unnarrowed = .ok (report, u') →
      ∃ ls, u'.layouts unnarrowed = .ok ls ∧ ∀ id l, (id, l) ∈ ls → ∀ c a,
        u'.graph.DerivesFrom id c → Graph.letsDelete (u'.graph.attributes c) a = true →
        ∀ slot, l.slot? a = some slot → slot.storage.isBoxed = true := by
  intro hall
  obtain ⟨report, u', h, hgraph, hlayouts⟩ := analyze_eitherWay
  obtain ⟨ls, hls, hboxed⟩ := hall report u' h
  obtain rfl : _ = ls := by simpa [hlayouts] using hls
  obtain ⟨hkept, -, hdel⟩ := derivesFrom_eitherWay
  rw [← hgraph] at hkept hdel
  have hslot := hboxed ⟨2⟩ eitherWayKept (by simp) ⟨1⟩ ⟨30⟩ hkept hdel _ rfl
  simp [Storage.isBoxed] at hslot

end CompileUnit

end DefiniteInit
