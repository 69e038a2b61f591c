import DefiniteInit.Proofs.LayoutSoundness
import DefiniteInit.Proofs.Schedules

/-!
# Layouts begin with those of their primary bases

The layouts of all classes follow from each other (`Graph.layoutAt_eq`), since a class is planned
after its bases. A class starts from the slots of its primary base. What it inherits from other
bases and what it declares itself is put behind them, and its own attributes box the slots they
let be deleted. `Layout.GrowsTo` says so of one step and of many: the slots of the first layout,
boxed where the attributes declared on the way let them be deleted (`Slot.declaredBy`), are the
first slots of the second.

With narrowing no slot is boxed that was not: a slot that is not boxed is backed by its owner, and
then every class below always defines the attribute, which none does that lets it be deleted
(`CompileUnit.isBoxed_of_mem_deletableAttrs`).
-/

namespace DefiniteInit

/-! ## One step -/

/-- The slot, boxed by a class that lets the attribute be deleted. -/
def Slot.boxedBy (slot : Slot) (id : ClassId) : Slot :=
  { slot with
    owner := if slot.storage.isBoxed then slot.owner else id
    storage := .boxedWithSentinel true }

/-- The slot after `id` has declared the attributes. -/
def Slot.declaredBy (id : ClassId) (attrs : List Attribute) (slot : Slot) : Slot :=
  if Graph.letsDelete attrs slot.name then slot.boxedBy id else slot

namespace Slot

variable {id : ClassId} {attrs : List Attribute} {slot : Slot}

/-- A slot that is boxed stays so. -/
theorem boxedBy_boxedBy : (slot.boxedBy id).boxedBy id = slot.boxedBy id := by
  simp [boxedBy, Storage.isBoxed]

/-- An attribute that may be deleted boxes its slot. -/
theorem declaredBy_of_letsDelete (h : Graph.letsDelete attrs slot.name = true) :
    slot.declaredBy id attrs = slot.boxedBy id := if_pos h

/-- Other attributes leave a slot as it is. -/
theorem declaredBy_of_not_letsDelete (h : Graph.letsDelete attrs slot.name = false) :
    slot.declaredBy id attrs = slot := by
  simp [declaredBy, h]

@[simp]
theorem declaredBy_nil : slot.declaredBy id [] = slot := declaredBy_of_not_letsDelete rfl

@[simp]
theorem name_declaredBy : (slot.declaredBy id attrs).name = slot.name := by
  unfold declaredBy
  split <;> rfl

@[simp]
theorem repr_declaredBy : (slot.declaredBy id attrs).repr = slot.repr := by
  unfold declaredBy
  split <;> rfl

/-- Attributes change a slot one after the other. -/
theorem declaredBy_append (attrs' : List Attribute) :
    slot.declaredBy id (attrs ++ attrs') = (slot.declaredBy id attrs).declaredBy id attrs' := by
  have hsplit : Graph.letsDelete (attrs ++ attrs') slot.name =
      (Graph.letsDelete attrs slot.name || Graph.letsDelete attrs' slot.name) := List.any_append
  cases h : Graph.letsDelete attrs slot.name with
  | false =>
    rw [declaredBy_of_not_letsDelete h]
    simp [declaredBy, hsplit, h]
  | true =>
    rw [declaredBy_of_letsDelete h, declaredBy_of_letsDelete (by simp [hsplit, h])]
    unfold declaredBy
    rw [boxedBy_boxedBy, ite_self]

/-- Where only boxed slots are let be deleted, no more changes than the mark of a boxed slot. -/
theorem declaredBy_of_isBoxed
    (h : Graph.letsDelete attrs slot.name = true → slot.storage.isBoxed = true) :
    (slot.declaredBy id attrs).owner = slot.owner ∧
      ((slot.declaredBy id attrs).storage = slot.storage ∨
        slot.storage.isBoxed = true ∧
          (slot.declaredBy id attrs).storage = .boxedWithSentinel true) := by
  cases hdel : Graph.letsDelete attrs slot.name with
  | false =>
    rw [declaredBy_of_not_letsDelete hdel]
    exact ⟨rfl, Or.inl rfl⟩
  | true =>
    rw [declaredBy_of_letsDelete hdel]
    exact ⟨if_pos (h hdel), Or.inr ⟨h hdel, rfl⟩⟩

/-- Slots stay as they are that no attribute lets be deleted. -/
theorem map_declaredBy_eq_self {slots : List Slot}
    (h : ∀ slot ∈ slots, Graph.letsDelete attrs slot.name = false) :
    slots.map (declaredBy id attrs) = slots := by
  refine (List.map_congr_left fun slot hslot => ?_).trans (List.map_id slots)
  exact declaredBy_of_not_letsDelete (h slot hslot)

@[simp]
theorem map_declaredBy_nil (slots : List Slot) : slots.map (declaredBy id []) = slots :=
  map_declaredBy_eq_self fun _ _ => rfl

end Slot

namespace Layout

variable {l l' l'' : Layout} {id : ClassId} {attrs attrs' : List Attribute}

/-- The second layout begins with the slots of the first, as they are after `id` has declared the
attributes, and takes no fewer bits. -/
structure GrowsTo (l : Layout) (id : ClassId) (attrs : List Attribute) (l' : Layout) : Prop where
  slots : l.slots.map (Slot.declaredBy id attrs) <+: l'.slots
  bitmapBits : l.bitmapBits ≤ l'.bitmapBits

theorem GrowsTo.refl (l : Layout) (id : ClassId) : l.GrowsTo id [] l :=
  ⟨by simp, Nat.le_refl _⟩

/-- Growth is by steps. -/
theorem GrowsTo.trans (h : l.GrowsTo id attrs l') (h' : l'.GrowsTo id attrs' l'') :
    l.GrowsTo id (attrs ++ attrs') l'' := by
  refine ⟨?_, h.bitmapBits.trans h'.bitmapBits⟩
  have hslots := (h.slots.map (Slot.declaredBy id attrs')).trans h'.slots
  rw [List.map_map] at hslots
  simpa only [Function.comp_def, ← Slot.declaredBy_append] using hslots

/-- A slot stays at its place. -/
theorem GrowsTo.getElem? (h : l.GrowsTo id attrs l') {i : Nat} {slot : Slot}
    (hslot : l.slots[i]? = some slot) : l'.slots[i]? = some (slot.declaredBy id attrs) := by
  obtain ⟨rest, hrest⟩ := h.slots
  obtain ⟨hi, -⟩ := List.getElem?_eq_some_iff.1 hslot
  rw [← hrest, List.getElem?_append_left (by simpa using hi), List.getElem?_map, hslot,
    Option.map_some]

/-- How a new slot is kept. -/
def newStorage (l : Layout) (repr : ValueRepr) (defined deletable : Bool) : Storage :=
  if defined && !deletable then
    match repr with
    | .reference => .unboxed
    | .overlapping => .unboxedWithBitmap l.bitmapBits
  else .boxedWithSentinel deletable

/-- A new slot is put at the end. -/
theorem slots_place (name : Name) (owner : ClassId) (repr : ValueRepr) (defined deletable : Bool) :
    (l.place name owner repr defined deletable).slots =
      l.slots ++ [⟨name, owner, repr, l.newStorage repr defined deletable⟩] := by
  unfold place newStorage
  split
  · cases repr <;> rfl
  · rfl

/-- A new slot takes no bit away. -/
theorem bitmapBits_le_place (name : Name) (owner : ClassId) (repr : ValueRepr)
    (defined deletable : Bool) :
    l.bitmapBits ≤ (l.place name owner repr defined deletable).bitmapBits := by
  unfold place
  split
  · cases repr
    · exact Nat.le_refl _
    · exact Nat.le_succ _
  · exact Nat.le_refl _

theorem growsTo_place (name : Name) (owner : ClassId) (repr : ValueRepr)
    (defined deletable : Bool) : l.GrowsTo id [] (l.place name owner repr defined deletable) :=
  ⟨by simp [slots_place], bitmapBits_le_place ..⟩

/-- Where an attribute has no slot, no slot has its name. -/
theorem name_ne_of_slot?_eq_none {name : Name} (h : (l.slot? name).isSome = false) :
    ∀ slot ∈ l.slots, slot.name ≠ name := by
  simpa [slot?] using h

end Layout

namespace Graph

variable {g : Graph} {guaranteed : ClassId → Name → Bool} {id : ClassId} {l : Layout}

/-- To take a slot over from a base changes no slot that is there. -/
theorem growsTo_inheritSlot (deletable : AttrSet) (fromTrait : Bool) (slot : Slot) :
    l.GrowsTo id [] (inheritSlot guaranteed id deletable fromTrait l slot) := by
  unfold inheritSlot
  split
  · exact .refl l id
  · exact Layout.growsTo_place ..

/-- Declaring an attribute boxes the slot it lets be deleted, or makes a new one. -/
theorem slots_declareSlot (attr : Attribute) : (declareSlot guaranteed id l attr).slots =
    l.slots.map (Slot.declaredBy id [attr]) ++ if (l.slot? attr.name).isSome then [] else
      [⟨attr.name, id, attr.repr,
        l.newStorage attr.repr (guaranteed id attr.name) attr.deletable⟩] := by
  unfold declareSlot
  cases hslot : (l.slot? attr.name).isSome with
  | true =>
    cases hdel : attr.deletable with
    | true =>
      simp only [if_true, List.append_nil]
      refine List.map_congr_left fun slot _ => ?_
      simp [Slot.declaredBy, Slot.boxedBy, letsDelete, hdel, eq_comm (a := attr.name)]
    | false =>
      have hmap : l.slots.map (Slot.declaredBy id [attr]) = l.slots :=
        Slot.map_declaredBy_eq_self fun slot _ => by simp [letsDelete, hdel]
      simp [hmap]
  | false =>
    have hmap : l.slots.map (Slot.declaredBy id [attr]) = l.slots :=
      Slot.map_declaredBy_eq_self fun slot hmem => by
        simp [letsDelete, (Layout.name_ne_of_slot?_eq_none hslot slot hmem).symm]
    simp [hmap, Layout.slots_place]

/-- To declare an attribute adds a slot, or boxes the one that is there. -/
theorem growsTo_declareSlot (attr : Attribute) :
    l.GrowsTo id [attr] (declareSlot guaranteed id l attr) := by
  refine ⟨⟨_, (slots_declareSlot attr).symm⟩, ?_⟩
  unfold declareSlot
  split
  · split
    · exact Nat.le_refl _
    · exact Nat.le_refl _
  · exact Layout.bitmapBits_le_place ..

/-! ## From the primary base to the class -/

/-- A step that only adds may be made again and again. -/
theorem growsTo_foldl {α : Type} {step : Layout → α → Layout}
    (h : ∀ (l : Layout) (a : α), l.GrowsTo id [] (step l a)) (as : List α) (l : Layout) :
    l.GrowsTo id [] (as.foldl step l) := by
  induction as generalizing l with
  | nil => exact .refl l id
  | cons a as ih => exact (h l a).trans (ih (step l a))

/-- Attributes are declared one after the other. -/
theorem growsTo_foldl_declareSlot (attrs : List Attribute) (l : Layout) :
    l.GrowsTo id attrs (attrs.foldl (declareSlot guaranteed id) l) := by
  induction attrs generalizing l with
  | nil => exact .refl l id
  | cons attr attrs ih => exact (growsTo_declareSlot attr).trans (ih _)

/-- The slots of other bases come after those of the primary base. -/
theorem growsTo_inheritedLayout (g : Graph) (guaranteed : ClassId → Name → Bool)
    (layoutAt : ClassId → Layout) (id : ClassId) :
    (((g.primaryBase? id).map layoutAt).getD .empty).GrowsTo id []
      (g.inheritedLayout guaranteed layoutAt id) :=
  growsTo_foldl (fun _ _ => growsTo_foldl (fun _ slot => growsTo_inheritSlot _ _ slot) _ _) _ _

/-- The layout of a class depends on those of its bases alone. -/
theorem layoutOf_congr {t t' : ClassTable Layout}
    (h : ∀ base ∈ g.localBases id, t.get? base = t'.get? base) :
    g.layoutOf guaranteed t id = g.layoutOf guaranteed t' id := by
  have hstart : (g.primaryBase? id).map (fun base => (t.get? base).getD .empty) =
      (g.primaryBase? id).map (fun base => (t'.get? base).getD .empty) := by
    refine Option.map_congr fun base hbase => ?_
    rw [h base (mem_localBases_of_primaryBase? hbase)]
  rw [layoutOf_eq, layoutOf_eq, inheritedLayout, inheritedLayout, hstart]
  congr 1
  refine List.foldl_ext _ _ _ fun l base hbase => ?_
  rw [h base (List.mem_filter.1 hbase).1]

/-- The planned layout of a class. -/
def layoutAt (g : Graph) (guaranteed : ClassId → Name → Bool) (id : ClassId) : Layout :=
  ((g.planLayouts guaranteed).get? id).getD .empty

/-- The layout of a class when it has come to the end of these attributes of its own. -/
def layoutAfter (g : Graph) (guaranteed : ClassId → Name → Bool) (id : ClassId)
    (attrs : List Attribute) : Layout :=
  attrs.foldl (declareSlot guaranteed id)
    (g.inheritedLayout guaranteed (g.layoutAt guaranteed) id)

/-- The layout of a class follows from those of its bases. -/
theorem get?_planLayouts (h : g.Acyclic) (hid : id ∈ g.ids) :
    (g.planLayouts guaranteed).get? id = some (g.layoutAfter guaranteed id (g.attributes id)) :=
  ClassTable.get?_fill (fun _ _ _ => layoutOf_congr) (isSchedule_waves h).basesFirst
    nodup_waves id ((isSchedule_waves h).perm.mem_iff.2 hid)

/-- The layout of every class is what follows from the layouts of all. -/
theorem layoutAt_eq (h : g.Acyclic) (hid : id ∈ g.ids) :
    g.layoutAt guaranteed id = g.layoutAfter guaranteed id (g.attributes id) := by
  rw [layoutAt, get?_planLayouts h hid, Option.getD_some]

/-- The layout of a class grows from that of its primary base. -/
theorem growsTo_layoutAt (guaranteed : ClassId → Name → Bool) (h : g.Acyclic) {base : ClassId}
    (hbase : g.primaryBase? id = some base) :
    (g.layoutAt guaranteed base).GrowsTo id (g.attributes id) (g.layoutAt guaranteed id) := by
  have hid := mem_ids_of_localBases_ne_nil (mem_localBases_of_primaryBase? hbase)
  have hinherited : (g.layoutAt guaranteed base).GrowsTo id []
      (g.inheritedLayout guaranteed (g.layoutAt guaranteed) id) := by
    have hgrows := growsTo_inheritedLayout g guaranteed (g.layoutAt guaranteed) id
    rwa [hbase] at hgrows
  rw [layoutAt_eq h hid]
  exact hinherited.trans (growsTo_foldl_declareSlot _ _)

/-- All slots of a layout are backed, by induction along the bases. -/
theorem backed_layoutAt (guaranteed : ClassId → Name → Bool) (id : ClassId) :
    g.Backed guaranteed id (g.layoutAt guaranteed id) := by
  unfold layoutAt
  cases hl : (g.planLayouts guaranteed).get? id with
  | none => exact backed_empty
  | some l => exact backed_planLayouts hl

theorem backed_layoutAfter (attrs : List Attribute) :
    g.Backed guaranteed id (g.layoutAfter guaranteed id attrs) :=
  .foldl_declareSlot _ _ (backed_inheritedLayout (backed_layoutAt guaranteed) id)

end Graph

/-! ## Units -/

namespace CompileUnit

variable {u u' : CompileUnit} {o o' : Options} {report : Report}

/-- An analyzed unit has its layouts, one for each class in the order of declaration. -/
theorem layouts_of_analyze (h : u.analyze o = .ok (report, u')) (o' : Options) : u'.layouts o' =
    .ok (u'.graph.ids.map fun id => (id, u'.graph.layoutAt (u'.guaranteed o') id)) := by
  obtain ⟨hcycle, hfacts, -⟩ := of_analyze_eq_ok h
  have hall : ∀ id ∈ u'.graph.ids, (u'.facts.get? id).isSome = true := by
    intro id hid
    rw [hfacts, Graph.get?_analyze hcycle hid]
    rfl
  rw [layouts_eq_ok hall, ← List.filterMap_eq_map]
  refine congrArg Except.ok (List.filterMap_congr fun id hid => ?_)
  have hacyclic := Graph.findCycle?_eq_none_iff.1 hcycle
  rw [Function.comp_apply, Graph.get?_planLayouts hacyclic hid, Graph.layoutAt_eq hacyclic hid,
    Option.map_some]

/-- An analyzed unit has layouts for all of its classes. -/
theorem exists_layouts_of_analyze (h : u.analyze o = .ok (report, u')) (o' : Options) :
    ∃ ls, u'.layouts o' = .ok ls ∧ ls.map Prod.fst = u'.graph.ids ∧
      ∀ id l, (id, l) ∈ ls → id ∈ u'.graph.ids ∧ u'.graph.layoutAt (u'.guaranteed o') id = l := by
  refine ⟨_, layouts_of_analyze h o', ?_, fun id l hl => ?_⟩
  · rw [List.map_map]
    exact List.map_id _
  obtain ⟨id', hid, heq⟩ := List.mem_map.1 hl
  obtain ⟨rfl, rfl⟩ := Prod.mk.inj heq
  exact ⟨hid, rfl⟩

/-- With narrowing, a slot is boxed that the class or one above it lets be deleted. -/
theorem isBoxed_of_mem_deletableAttrs (h : u.analyze o = .ok (report, u'))
    (ho : o.narrowBySubclasses = true) (ho' : o'.narrowBySubclasses = true) {id : ClassId}
    (hid : id ∈ u'.graph.ids) {l : Layout} (hl : u'.graph.Backed (u'.guaranteed o') id l)
    {slot : Slot} (hslot : slot ∈ l.slots) (hdel : slot.name ∈ u'.graph.deletableAttrs id) :
    slot.storage.isBoxed = true := by
  obtain ⟨hcycle, hfacts, hnarrowed⟩ := of_analyze_eq_ok h
  obtain ⟨howner, hguar⟩ := hl slot hslot
  by_contra hboxed
  obtain ⟨set, hset, hmem⟩ := alwaysDefined_below_of_guaranteed hcycle (hnarrowed ho) ho'
    (howner.mem_ids hid) (hguar (Bool.eq_false_iff.2 hboxed)) howner
  obtain ⟨facts, hget, rfl⟩ := Option.map_eq_some_iff.1 hset
  rw [hfacts] at hget
  exact Graph.not_mem_deletableAttrs_of_alwaysDefines hcycle ⟨facts, hget, hmem⟩ hdel

/-- The first slots of a class are those of its primary base: of the same names and values in the
same order, and the same in all unless the class lets the attribute be deleted, and then boxed as
deletable. With narrowing in the analysis and the plan no slot is boxed that was not, so that no
more than the mark of a boxed slot changes. -/
theorem layouts_extend_primary (u : CompileUnit) (o o' : Options) (report : Report)
    (u' : CompileUnit) (h : u.analyze o = .ok (report, u')) :
    ∃ ls, u'.layouts o' = .ok ls ∧ ls.map Prod.fst = u'.graph.ids ∧
      ∀ id base l above, (id, l) ∈ ls → (base, above) ∈ ls →
        u'.graph.initializerBase? id = some (.inUnit base) →
        above.bitmapBits ≤ l.bitmapBits ∧
        (∀ (i : Nat) (slot : Slot), above.slots[i]? = some slot →
          ∃ slot' : Slot, l.slots[i]? = some slot' ∧ slot'.name = slot.name ∧
          slot'.repr = slot.repr ∧
          (Graph.letsDelete (u'.graph.attributes id) slot.name = false → slot' = slot) ∧
          (Graph.letsDelete (u'.graph.attributes id) slot.name = true →
            slot'.storage = .boxedWithSentinel true) ∧
          (o.narrowBySubclasses = true → o'.narrowBySubclasses = true →
            slot'.owner = slot.owner ∧ (slot'.storage = slot.storage ∨
              slot.storage.isBoxed = true ∧ slot'.storage = .boxedWithSentinel true))) ∧
        u'.graph.layoutAfter (u'.guaranteed o') id (u'.graph.attributes id) = l ∧
        (o.narrowBySubclasses = true → o'.narrowBySubclasses = true →
          ∀ before attr after, u'.graph.attributes id = before ++ attr :: after →
            attr.deletable = true →
            ∀ slot ∈ (u'.graph.layoutAfter (u'.guaranteed o') id before).slots,
              slot.name = attr.name → slot.storage.isBoxed = true) := by
  have hacyclic := Graph.findCycle?_eq_none_iff.1 (of_analyze_eq_ok h).1
  obtain ⟨ls, hls, hids, hat⟩ := exists_layouts_of_analyze h o'
  refine ⟨ls, hls, hids, fun id base l above hl habove hinit => ?_⟩
  obtain ⟨hid, rfl⟩ := hat id l hl
  obtain ⟨-, rfl⟩ := hat base above habove
  have hbase : u'.graph.primaryBase? id = some base := by
    rw [Graph.primaryBase?, hinit]
    rfl
  -- The layout of the class grows out of the one of its primary base, slot by slot.
  have hgrows := Graph.growsTo_layoutAt (u'.guaranteed o') hacyclic hbase
  refine ⟨hgrows.bitmapBits, fun i slot hslot => ?_, (Graph.layoutAt_eq hacyclic hid).symm,
    fun ho ho' before attr after hattrs hdel slot hslot hname => ?_⟩
  · refine ⟨_, hgrows.getElem? hslot, Slot.name_declaredBy, Slot.repr_declaredBy,
      Slot.declaredBy_of_not_letsDelete, fun hdel => ?_, fun ho ho' => ?_⟩
    · rw [Slot.declaredBy_of_letsDelete hdel]
      rfl
    · have hbacked := (Graph.backed_layoutAt (u'.guaranteed o') base).of_base
        (Graph.mem_localBases_of_primaryBase? hbase)
      exact Slot.declaredBy_of_isBoxed fun hdel => isBoxed_of_mem_deletableAttrs h ho ho' hid
        hbacked (List.mem_of_getElem? hslot) (Graph.mem_deletableAttrs.2 ⟨id, .refl, hdel⟩)
  · refine isBoxed_of_mem_deletableAttrs h ho ho' hid (Graph.backed_layoutAfter before) hslot ?_
    refine Graph.mem_deletableAttrs.2 ⟨id, .refl, Graph.letsDelete_eq_true.2 ⟨attr, ?_, ?_⟩⟩
    · simp [hattrs]
    · exact ⟨hname.symm, hdel⟩

/-- A class with two attributes, of which it assigns one that takes a bit, and a subclass that lets
the other be deleted and adds one that takes a bit. -/
def twoBits : CompileUnit where
  names := .fresh
  graph := .ofDeclarations
    [(((Declaration.named ⟨20⟩).addAttribute
          ((Attribute.plain ⟨30⟩).withRepr .overlapping)).addAttribute
        (.plain ⟨31⟩)).withInitializer ⟨[.setAttr ⟨30⟩ (.literal .none)], .empty⟩,
      ((((Declaration.named ⟨21⟩).addBase ⟨20⟩).addAttribute
          (Attribute.plain ⟨31⟩).asDeletable).addAttribute
        ((Attribute.plain ⟨32⟩).withRepr .overlapping)).withInitializer
          ⟨[.callInit .next [], .setAttr ⟨32⟩ (.literal .none)], .empty⟩]
  facts := ∅
  narrowed := ∅

/-- The layout of the class above. -/
def twoBitsAbove : Layout :=
  ⟨[⟨⟨30⟩, ⟨0⟩, .overlapping, .unboxedWithBitmap 0⟩,
    ⟨⟨31⟩, ⟨0⟩, .reference, .boxedWithSentinel false⟩], 1⟩

/-- The layout of the subclass. -/
def twoBitsBelow : Layout :=
  ⟨[⟨⟨30⟩, ⟨0⟩, .overlapping, .unboxedWithBitmap 0⟩,
    ⟨⟨31⟩, ⟨0⟩, .reference, .boxedWithSentinel true⟩,
    ⟨⟨32⟩, ⟨1⟩, .overlapping, .unboxedWithBitmap 1⟩], 2⟩

/-- The first bit is shared, and the boxed slot is marked in the subclass. -/
theorem layouts_extend_primary_twoBits : ∃ report u',
    twoBits.analyze .default = .ok (report, u') ∧
      u'.layouts .default = .ok [(⟨0⟩, twoBitsAbove), (⟨1⟩, twoBitsBelow)] ∧
      u'.graph.initializerBase? ⟨1⟩ = some (.inUnit ⟨0⟩) ∧
      ∀ (i : Nat) (slot : Slot), twoBitsAbove.slots[i]? = some slot →
        ∃ slot' : Slot, twoBitsBelow.slots[i]? = some slot' ∧ slot'.owner = slot.owner ∧
          (slot'.storage = slot.storage ∨
            slot.storage.isBoxed = true ∧ slot'.storage = .boxedWithSentinel true) := by
  have h := (analyze_eq_ok_iff (u := twoBits) (o := .default)).2
    ⟨fun _ _ => rfl, by decide +kernel, rfl, rfl⟩
  obtain ⟨ls, hls, -, hgrow⟩ := layouts_extend_primary twoBits .default .default _ _ h
  have hplan : (twoBits.analyze .default).toOption.bind (fun (_, u') =>
      (u'.layouts .default).toOption) = some [(⟨0⟩, twoBitsAbove), (⟨1⟩, twoBitsBelow)] := by
    decide +kernel
  rw [h] at hplan
  obtain rfl : ls = [(⟨0⟩, twoBitsAbove), (⟨1⟩, twoBitsBelow)] := by
    simpa [Except.toOption, hls] using hplan
  have hinit : twoBits.graph.initializerBase? ⟨1⟩ = some (.inUnit ⟨0⟩) := by decide +kernel
  obtain ⟨-, hslots, -⟩ := hgrow ⟨1⟩ ⟨0⟩ twoBitsBelow twoBitsAbove (by simp) (by simp) hinit
  refine ⟨_, _, h, hls, hinit, fun i slot hslot => ?_⟩
  obtain ⟨slot', hslot', -, -, -, -, hnarrow⟩ := hslots i slot hslot
  exact ⟨slot', hslot', hnarrow rfl rfl⟩

end CompileUnit

end DefiniteInit
