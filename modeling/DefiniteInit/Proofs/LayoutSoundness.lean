import DefiniteInit.Proofs.Hierarchy
import DefiniteInit.Stmt.Shorthand

/-!
# Soundness of layouts

A slot is unboxed by a class that guarantees the attribute, its owner. Subclasses copy the
slot, or decide about it again in the name of the same owner, so the owner of a slot of a
class is the class itself or above it (`Graph.Backed`, `Graph.backed_planLayouts`). Narrowing
lets a class guarantee an attribute only if its subclasses do (`Graph.Narrows`,
`Graph.narrows_narrow`), and so all classes below it (`Graph.assigned_below_of_mem_narrow`).
Together: what a slot holds unboxed is always defined in every class whose instances have
the slot.
-/

namespace DefiniteInit

/-! ## Tables filled class by class -/

namespace ClassTable

variable {α : Type} {f : ClassTable α → ClassId → α} {ids : List ClassId}

/-- An invariant of a table in which classes without a value get one, each once. -/
theorem foldl_insert_induction {P : ClassTable α → Prop}
    (hstep : ∀ t id, t.get? id = none → P t → P (t.insert id (f t id))) (t : ClassTable α)
    (hnodup : ids.Nodup) (hfresh : ∀ id ∈ ids, t.get? id = none) (ht : P t) :
    P (ids.foldl (fun t id => t.insert id (f t id)) t) := by
  induction ids generalizing t with
  | nil => exact ht
  | cons c ids ih =>
    obtain ⟨hc, hids⟩ := List.nodup_cons.1 hnodup
    obtain ⟨hfc, hfids⟩ := List.forall_mem_cons.1 hfresh
    refine ih _ hids (fun id hid => ?_) (hstep t c hfc ht)
    have hne : id ≠ c := by
      rintro rfl
      exact hc hid
    rw [get?_insert, if_neg hne]
    exact hfids id hid

/-- A class that is filled in has an entry. -/
theorem isSome_get?_foldl_insert (t : ClassTable α) {id : ClassId}
    (h : id ∈ ids ∨ (t.get? id).isSome = true) :
    ((ids.foldl (fun t id => t.insert id (f t id)) t).get? id).isSome = true := by
  induction ids generalizing t with
  | nil => exact h.resolve_left (by simp)
  | cons c ids ih =>
    refine ih _ ?_
    rw [get?_insert]
    by_cases hc : id = c
    · simp [hc]
    · rw [if_neg hc]
      exact h.imp (fun h => (List.mem_cons.1 h).resolve_left hc) fun h => h

/-- A class that is not filled in keeps its entry. -/
theorem get?_foldl_insert_of_not_mem (t : ClassTable α) {id : ClassId} (h : id ∉ ids) :
    (ids.foldl (fun t id => t.insert id (f t id)) t).get? id = t.get? id := by
  induction ids generalizing t with
  | nil => rfl
  | cons c ids ih =>
    rw [List.mem_cons, not_or] at h
    rw [List.foldl_cons, ih _ h.2, get?_insert, if_neg h.1]

end ClassTable

/-! ## Narrowing -/

theorem AttrSet.mem_getD_empty {set : Option AttrSet} {a : Name} :
    a ∈ set.getD ∅ ↔ ∃ s, set = some s ∧ a ∈ s := by
  cases set with
  | none => simp
  | some s => simp

namespace Graph

variable {g : Graph} {known : ClassTable Facts} {t : ClassTable AttrSet}

theorem mem_subclasses {id sub : ClassId} : sub ∈ g.subclasses id ↔ id ∈ g.localBases sub := by
  simp only [subclasses, List.mem_flatMap, List.mem_map, List.mem_filter]
  constructor
  · rintro ⟨sub', -, base, ⟨hbase, heq⟩, rfl⟩
    obtain rfl : base = id := by simpa using heq
    exact hbase
  · exact fun h => ⟨sub, mem_ids_of_localBases_ne_nil h, id, ⟨h, by simp⟩, rfl⟩

/-- What all sets have in common is in each of them. -/
theorem mem_foldl_inter {a : Name} {subs : List ClassId} {start : AttrSet} :
    a ∈ subs.foldl (fun set sub => set ∩ (t.get? sub).getD ∅) start ↔
      a ∈ start ∧ ∀ sub ∈ subs, a ∈ (t.get? sub).getD ∅ := by
  induction subs generalizing start with
  | nil => simp
  | cons sub subs ih => simp [ih, and_assoc]

/-- What the table says of a class is so of the class, and the table says it of its
subclasses. -/
def Narrows (g : Graph) (known : ClassTable Facts) (t : ClassTable AttrSet) : Prop :=
  ∀ id set, t.get? id = some set → ∀ a ∈ set, AlwaysDefines known id a ∧
    ∀ sub, id ∈ g.localBases sub → ∃ set', t.get? sub = some set' ∧ a ∈ set'

/-- What is left of a class is defined by it and left of all classes right below it. -/
theorem mem_narrowedBy {id : ClassId} {a : Name} (h : a ∈ g.narrowedBy known t id) :
    AlwaysDefines known id a ∧
      ∀ sub, id ∈ g.localBases sub → ∃ set', t.get? sub = some set' ∧ a ∈ set' := by
  obtain ⟨hown, hsubs⟩ := mem_foldl_inter.1 h
  constructor
  · obtain ⟨set, hset, ha⟩ := AttrSet.mem_getD_empty.1 hown
    obtain ⟨facts, hfacts, rfl⟩ := Option.map_eq_some_iff.1 hset
    exact ⟨facts, hfacts, ha⟩
  · exact fun sub hsub => AttrSet.mem_getD_empty.1 (hsubs sub (mem_subclasses.2 hsub))

/-- A class that had no value takes none from another when it gets one. -/
theorem Narrows.insert (h : g.Narrows known t) {id : ClassId} (hfresh : t.get? id = none) :
    g.Narrows known (t.insert id (g.narrowedBy known t id)) := by
  have hkeep : ∀ sub a, (∃ set', t.get? sub = some set' ∧ a ∈ set') →
      ∃ set', (t.insert id (g.narrowedBy known t id)).get? sub = some set' ∧ a ∈ set' := by
    rintro sub a ⟨set', hset', ha⟩
    have hne : sub ≠ id := by
      rintro rfl
      simp [hfresh] at hset'
    exact ⟨set', by rw [ClassTable.get?_insert, if_neg hne, hset'], ha⟩
  intro c set hset a ha
  rw [ClassTable.get?_insert] at hset
  split at hset
  · rename_i hc
    subst hc
    obtain rfl : g.narrowedBy known t c = set := by simpa using hset
    obtain ⟨hown, hsubs⟩ := mem_narrowedBy ha
    exact ⟨hown, fun sub hsub => hkeep sub a (hsubs sub hsub)⟩
  · obtain ⟨hown, hsubs⟩ := h c set hset a ha
    exact ⟨hown, fun sub hsub => hkeep sub a (hsubs sub hsub)⟩

theorem nodup_reverse_waves : g.waves.reverse.flatten.Nodup :=
  ((List.reverse_perm g.waves).flatten).nodup_iff.2 nodup_waves

/-- The narrowed sets say only what classes and those below them always define. -/
theorem narrows_narrow : g.Narrows known (g.narrow known) :=
  ClassTable.foldl_insert_induction (fun _ _ hfresh h => h.insert hfresh) ∅ nodup_reverse_waves
    (by simp) (by simp [Narrows])

/-- What narrowing leaves to a class, all classes below it always define. -/
theorem assigned_below_of_mem_narrow {id d : ClassId} {set : AttrSet} {a : Name}
    (hset : (g.narrow known).get? id = some set) (ha : a ∈ set) (hd : g.DerivesFrom d id) :
    AlwaysDefines known d a := by
  have hmem : ∃ set', (g.narrow known).get? d = some set' ∧ a ∈ set' := by
    induction hd using Relation.ReflTransGen.head_induction_on with
    | refl => exact ⟨set, hset, ha⟩
    | head hbase _ ih =>
      obtain ⟨set', hset', ha'⟩ := ih
      exact (narrows_narrow _ set' hset' a ha').2 _ hbase
  obtain ⟨set', hset', ha'⟩ := hmem
  exact (narrows_narrow d set' hset' a ha').1

/-- Every class has a narrowed set. -/
theorem isSome_get?_narrow (h : g.findCycle? = none) {id : ClassId} (hid : id ∈ g.ids) :
    ((g.narrow known).get? id).isSome = true := by
  refine ClassTable.isSome_get?_foldl_insert ∅ (Or.inl ?_)
  rw [List.mem_flatten]
  obtain ⟨wave, hwave, hmem⟩ := List.mem_flatten.1 (mem_waves h hid)
  exact ⟨wave, List.mem_reverse.2 hwave, hmem⟩

/-! ## Slots -/

variable {guaranteed : ClassId → Name → Bool} {id : ClassId} {l : Layout}

/-- The owner of every slot is the class or above it, and guarantees the attribute if the
slot is not boxed. -/
def Backed (g : Graph) (guaranteed : ClassId → Name → Bool) (id : ClassId) (l : Layout) : Prop :=
  ∀ slot ∈ l.slots, g.DerivesFrom id slot.owner ∧
    (slot.storage.isBoxed = false → guaranteed slot.owner slot.name = true)

theorem backed_empty : g.Backed guaranteed id .empty := by simp [Backed, Layout.empty]

/-- The slots of a base are backed for the class too. -/
theorem Backed.of_base {base : ClassId} (h : g.Backed guaranteed base l)
    (hbase : base ∈ g.localBases id) : g.Backed guaranteed id l := by
  intro slot hslot
  obtain ⟨howner, hboxed⟩ := h slot hslot
  exact ⟨.head hbase howner, hboxed⟩

/-- A new slot is backed if it is boxed or guaranteed. -/
theorem Backed.append (h : g.Backed guaranteed id l) {slot : Slot} {bits : Nat}
    (howner : g.DerivesFrom id slot.owner)
    (hboxed : slot.storage.isBoxed = false → guaranteed slot.owner slot.name = true) :
    g.Backed guaranteed id ⟨l.slots ++ [slot], bits⟩ := by
  intro slot' hslot'
  rcases List.mem_append.1 hslot' with hslot' | hslot'
  · exact h slot' hslot'
  · obtain rfl := List.mem_singleton.1 hslot'
    exact ⟨howner, hboxed⟩

/-- A new slot is unboxed only if its owner guarantees the attribute. -/
theorem Backed.place (h : g.Backed guaranteed id l) {owner : ClassId}
    (howner : g.DerivesFrom id owner) (name : Name) (repr : ValueRepr) (deletable : Bool) :
    g.Backed guaranteed id (l.place name owner repr (guaranteed owner name) deletable) := by
  unfold Layout.place
  split
  · rename_i hdef
    have hguar : guaranteed owner name = true := by
      rw [Bool.and_eq_true] at hdef
      exact hdef.1
    cases repr with
    | reference => exact h.append howner fun _ => hguar
    | overlapping => exact h.append howner fun _ => hguar
  · exact h.append howner fun hboxed => by simp [Storage.isBoxed] at hboxed

/-- To box a slot takes no backing away. -/
theorem Backed.boxSlot (h : g.Backed guaranteed id l) (name : Name) :
    g.Backed guaranteed id (l.boxSlot name id) := by
  intro slot hslot
  obtain ⟨slot', hslot', rfl⟩ := List.mem_map.1 hslot
  obtain ⟨howner, hboxed⟩ := h slot' hslot'
  split
  · refine ⟨?_, fun hb => by simp [Storage.isBoxed] at hb⟩
    dsimp only
    split
    · exact howner
    · exact .refl
  · exact ⟨howner, hboxed⟩

/-- A slot that is taken over is backed. -/
theorem Backed.inheritSlot (h : g.Backed guaranteed id l) {slot : Slot}
    (howner : g.DerivesFrom id slot.owner) (deletable : AttrSet) (fromTrait : Bool) :
    g.Backed guaranteed id (inheritSlot guaranteed id deletable fromTrait l slot) := by
  unfold Graph.inheritSlot
  split
  · exact h
  · refine h.place ?_ _ _ _
    split
    · exact .refl
    · exact howner

/-- A slot that is declared is backed. -/
theorem Backed.declareSlot (h : g.Backed guaranteed id l) (attr : Attribute) :
    g.Backed guaranteed id (declareSlot guaranteed id l attr) := by
  unfold Graph.declareSlot
  split
  · split
    · exact h.boxSlot attr.name
    · exact h
  · exact h.place .refl _ _ _

/-- All slots of a base are backed when they are taken over, by induction along them. -/
theorem Backed.foldl_inheritSlot {base : ClassId} (hbase : base ∈ g.localBases id)
    {slots : List Slot} (hslots : ∀ slot ∈ slots, g.DerivesFrom base slot.owner)
    (deletable : AttrSet) (fromTrait : Bool) (l : Layout) (h : g.Backed guaranteed id l) :
    g.Backed guaranteed id
      (slots.foldl (Graph.inheritSlot guaranteed id deletable fromTrait) l) := by
  induction slots generalizing l with
  | nil => exact h
  | cons slot slots ih =>
    obtain ⟨hslot, hrest⟩ := List.forall_mem_cons.1 hslots
    exact ih hrest _ (h.inheritSlot (.head hbase hslot) deletable fromTrait)

/-- So are those of all bases. -/
theorem Backed.foldl_bases {layoutAt : ClassId → Layout}
    (hat : ∀ base, g.Backed guaranteed base (layoutAt base)) {bases : List ClassId}
    (hbases : ∀ base ∈ bases, base ∈ g.localBases id) (deletable : AttrSet) (l : Layout)
    (h : g.Backed guaranteed id l) : g.Backed guaranteed id (bases.foldl (fun l base =>
      (layoutAt base).slots.foldl (Graph.inheritSlot guaranteed id deletable (g.isTrait base)) l)
      l) := by
  induction bases generalizing l with
  | nil => exact h
  | cons base bases ih =>
    obtain ⟨hbase, hrest⟩ := List.forall_mem_cons.1 hbases
    exact ih hrest _ (.foldl_inheritSlot hbase (fun slot hslot => (hat base slot hslot).1) _ _ l h)

theorem Backed.foldl_declareSlot (attrs : List Attribute) (l : Layout)
    (h : g.Backed guaranteed id l) :
    g.Backed guaranteed id (attrs.foldl (Graph.declareSlot guaranteed id) l) := by
  induction attrs generalizing l with
  | nil => exact h
  | cons attr attrs ih => exact ih _ (h.declareSlot attr)

/-- The layout of a class before it comes to its own attributes, given those of its bases. -/
def inheritedLayout (g : Graph) (guaranteed : ClassId → Name → Bool) (layoutAt : ClassId → Layout)
    (id : ClassId) : Layout :=
  ((g.localBases id).filter (some · ≠ g.primaryBase? id)).foldl
    (fun l base => (layoutAt base).slots.foldl
      (inheritSlot guaranteed id (g.deletableAttrs id) (g.isTrait base)) l)
    (((g.primaryBase? id).map layoutAt).getD .empty)

theorem layoutOf_eq (planned : ClassTable Layout) (id : ClassId) :
    g.layoutOf guaranteed planned id = (g.attributes id).foldl (declareSlot guaranteed id)
      (g.inheritedLayout guaranteed (fun base => (planned.get? base).getD .empty) id) := rfl

/-- What the bases give is backed. -/
theorem backed_inheritedLayout {layoutAt : ClassId → Layout}
    (hat : ∀ base, g.Backed guaranteed base (layoutAt base)) (id : ClassId) :
    g.Backed guaranteed id (g.inheritedLayout guaranteed layoutAt id) := by
  have hstart : g.Backed guaranteed id (((g.primaryBase? id).map layoutAt).getD .empty) := by
    cases hbase : g.primaryBase? id with
    | none => exact backed_empty
    | some base => exact (hat base).of_base (mem_localBases_of_primaryBase? hbase)
  exact .foldl_bases hat (fun base hbase => (List.mem_filter.1 hbase).1) _ _ hstart

/-- The layout of a class is backed if those of its bases are. -/
theorem backed_layoutOf {planned : ClassTable Layout}
    (h : ∀ base l, planned.get? base = some l → g.Backed guaranteed base l) (id : ClassId) :
    g.Backed guaranteed id (g.layoutOf guaranteed planned id) := by
  have hat : ∀ base, g.Backed guaranteed base ((planned.get? base).getD .empty) := by
    intro base
    cases hl : planned.get? base with
    | none => exact backed_empty
    | some l => exact h base l hl
  rw [layoutOf_eq]
  exact .foldl_declareSlot _ _ (backed_inheritedLayout hat id)

/-- Every planned layout is backed. -/
theorem backed_planLayouts {l : Layout} (h : (g.planLayouts guaranteed).get? id = some l) :
    g.Backed guaranteed id l := by
  have hinv : ∀ base l, (g.planLayouts guaranteed).get? base = some l →
      g.Backed guaranteed base l := by
    refine ClassTable.foldl_insert_induction
      (P := fun t => ∀ base l, t.get? base = some l → g.Backed guaranteed base l)
      (fun t c _ ht base l hl => ?_) ∅ nodup_waves (by simp) (by simp)
    rw [ClassTable.get?_insert] at hl
    split at hl
    · rename_i hc
      subst hc
      obtain rfl : g.layoutOf guaranteed t base = l := by simpa using hl
      exact backed_layoutOf ht base
    · exact ht base l hl
  exact hinv id l h

theorem isSome_get?_planLayouts (h : g.findCycle? = none) (hid : id ∈ g.ids) :
    ((g.planLayouts guaranteed).get? id).isSome = true :=
  ClassTable.isSome_get?_foldl_insert ∅ (Or.inl (mem_waves h hid))

/-- What a class of the unit derives from is of the unit. -/
theorem DerivesFrom.mem_ids {c : ClassId} (h : g.DerivesFrom id c) (hid : id ∈ g.ids) :
    c ∈ g.ids := by
  cases h with
  | refl => exact hid
  | tail _ hbase => exact mem_ids_of_mem_localBases hbase

end Graph

/-! ## Units -/

namespace CompileUnit

variable {u : CompileUnit} {o : Options}

theorem map_fst_filterMap {α : Type} {f : ClassId → Option α} {ids : List ClassId}
    (h : ∀ id ∈ ids, (f id).isSome = true) :
    (ids.filterMap fun id => (f id).map (id, ·)).map Prod.fst = ids := by
  induction ids with
  | nil => rfl
  | cons id ids ih =>
    obtain ⟨hid, hids⟩ := List.forall_mem_cons.1 h
    obtain ⟨value, hvalue⟩ := Option.isSome_iff_exists.1 hid
    simp [hvalue, ih hids]

/-- An analyzed unit has the layouts that are planned. -/
theorem layouts_eq_ok (h : ∀ id ∈ u.graph.ids, (u.facts.get? id).isSome = true) (o : Options) :
    u.layouts o = .ok (u.graph.ids.filterMap fun id =>
      ((u.graph.planLayouts (u.guaranteed o)).get? id).map (id, ·)) := by
  have hfind : (u.graph.ids.find? fun id => (u.facts.get? id).isNone) = none := by
    rw [List.find?_eq_none]
    intro id hid
    simpa using Option.isSome_iff_ne_none.1 (h id hid)
  unfold layouts
  rw [hfind]

/-- With narrowing, what a class guarantees all classes below it always define. -/
theorem alwaysDefined_below_of_guaranteed (hcycle : u.graph.findCycle? = none)
    (hnarrowed : u.narrowed = u.graph.narrow u.facts) (ho : o.narrowBySubclasses = true)
    {id d : ClassId} {a : Name} (hid : id ∈ u.graph.ids) (h : u.guaranteed o id a = true)
    (hd : u.graph.DerivesFrom d id) : ∃ set, u.alwaysDefined? d = some set ∧ a ∈ set := by
  have hsome : ((u.graph.narrow u.facts).get? id).isSome = true :=
    Graph.isSome_get?_narrow hcycle hid
  obtain ⟨set, hset⟩ := Option.isSome_iff_exists.1 hsome
  have ha : a ∈ set := by
    simpa [guaranteed, ho, hnarrowed, hset] using h
  obtain ⟨facts, hfacts, hmem⟩ := Graph.assigned_below_of_mem_narrow hset ha hd
  exact ⟨facts.alwaysDefined, by rw [alwaysDefined?, hfacts]; rfl, hmem⟩

/-- After an analysis with narrowing, layouts planned with narrowing exist for all classes, and what
a slot of a class holds unboxed is always defined in the class and in every class below it. -/
theorem layouts_sound (u : CompileUnit) (o o' : Options) (report : Report) (u' : CompileUnit)
    (h : u.analyze o = .ok (report, u')) (ho : o.narrowBySubclasses = true)
    (ho' : o'.narrowBySubclasses = true) :
    ∃ ls, u'.layouts o' = .ok ls ∧ ls.map Prod.fst = u'.graph.ids ∧
      ∀ id l, (id, l) ∈ ls → ∀ slot ∈ l.slots, slot.storage.isBoxed = false →
        ∀ d, u'.graph.DerivesFrom d id →
          ∃ set, u'.alwaysDefined? d = some set ∧ slot.name ∈ set := by
  obtain ⟨hcycle, hfacts, hnarrowed⟩ := of_analyze_eq_ok h
  refine ⟨_, layouts_eq_ok (fun id hid => ?_) o', ?_, ?_⟩
  · rw [hfacts, Graph.get?_analyze hcycle hid]
    rfl
  · exact map_fst_filterMap fun id hid => Graph.isSome_get?_planLayouts hcycle hid
  · intro id l hl slot hslot hboxed d hd
    obtain ⟨id', hid, hl⟩ := List.mem_filterMap.1 hl
    obtain ⟨l', hplanned, heq⟩ := Option.map_eq_some_iff.1 hl
    obtain ⟨rfl, rfl⟩ := Prod.mk.inj heq
    obtain ⟨howner, hguar⟩ := Graph.backed_planLayouts hplanned slot hslot
    exact alwaysDefined_below_of_guaranteed hcycle (hnarrowed ho) ho' (howner.mem_ids hid)
      (hguar hboxed) (hd.trans howner)

/-- A class that assigns two attributes, and a subclass that assigns one of them. -/
def halfKept : CompileUnit where
  names := .fresh
  graph := .ofDeclarations
    [(Declaration.named ⟨20⟩).withInitializer
        ⟨[.setAttr ⟨30⟩ (.literal .none), .setAttr ⟨31⟩ (.literal .none)], .empty⟩,
      ((Declaration.named ⟨21⟩).addBase ⟨20⟩).withInitializer
        ⟨[.setAttr ⟨30⟩ (.literal .none)], .empty⟩]
  facts := ∅
  narrowed := ∅

/-- Both classes hold the first attribute unboxed and the other boxed. -/
theorem layouts_sound_halfKept : ∃ report u' ls, halfKept.analyze .default = .ok (report, u') ∧
    u'.layouts .default = .ok ls ∧
    (ls.map fun (_, l) => l.slots.map (·.storage.isBoxed)) = [[false, true], [false, true]] ∧
    ∀ id l, (id, l) ∈ ls → ∀ slot ∈ l.slots, slot.storage.isBoxed = false →
      ∀ d, u'.graph.DerivesFrom d id → ∃ set, u'.alwaysDefined? d = some set ∧ slot.name ∈ set := by
  have h := (analyze_eq_ok_iff (u := halfKept) (o := .default)).2
    ⟨fun _ _ => rfl, by decide +kernel, rfl, rfl⟩
  obtain ⟨ls, hls, -, hsound⟩ := layouts_sound halfKept .default .default _ _ h rfl rfl
  refine ⟨_, _, ls, h, hls, ?_, hsound⟩
  have hboxed : (halfKept.analyze .default).toOption.bind (fun (_, u') =>
      (u'.layouts .default).toOption.map fun ls =>
        ls.map fun (_, l) => l.slots.map (·.storage.isBoxed)) =
      some [[false, true], [false, true]] := by decide +kernel
  rw [h] at hboxed
  simpa [Except.toOption, hls] using hboxed

end CompileUnit

end DefiniteInit
