import DefiniteInit.Proofs.ClassCalls
import DefiniteInit.Proofs.Countdown
import DefiniteInit.Proofs.DeclarationOrder

/-!
# The graph of a unit

A unit in which a name of a class repeats is refused for the first name that does, and any other is
built (`CompileUnit.ofCalls_cases`). `BuiltFrom` says what is built in terms of the texts and calls
that the classes were declared with: where a class is found, what each of its bases stands for
(`Resolves`), and which attributes it has, in which order.

Bases lead up and subclasses down. The lists of subclasses are those that are filled when the bases
are gone through class by class (`Graph.fillSubclasses_eq`), so each class stands below another as
often as it names it, and no class stands before one declared earlier (`Graph.pairwise_subclasses`).
-/

namespace DefiniteInit

/-! ## Repeated names -/

/-- The first element that is in the list before. -/
def FirstRepeat {α : Type} (l : List α) (a : α) : Prop :=
  ∃ before after, l = before ++ a :: after ∧ before.Nodup ∧ a ∈ before

/-- A list with a repeat has one. -/
theorem FirstRepeat.not_nodup {α : Type} {l : List α} {a : α} (h : FirstRepeat l a) :
    ¬l.Nodup := by
  obtain ⟨before, after, rfl, -, hmem⟩ := h
  intro hnodup
  exact (List.nodup_append.1 hnodup).2.2 a hmem a List.mem_cons_self rfl

theorem FirstRepeat.mem {α : Type} {l : List α} {a : α} (h : FirstRepeat l a) : a ∈ l := by
  obtain ⟨before, after, rfl, -, -⟩ := h
  exact List.mem_append_right _ List.mem_cons_self

/-- A repeat of images is one of what they are images of. -/
theorem FirstRepeat.of_map {α β : Type} {f : α → β} {l : List α} {b : β}
    (hinj : ∀ x ∈ l, ∀ y ∈ l, f x = f y → x = y) (h : FirstRepeat (l.map f) b) :
    ∃ a, f a = b ∧ FirstRepeat l a := by
  obtain ⟨before, after, heq, hnodup, hmem⟩ := h
  obtain ⟨l₁, l₂, rfl, rfl, h₂⟩ := List.map_eq_append_iff.1 heq
  obtain ⟨a, l₂, rfl, rfl, rfl⟩ := List.map_eq_cons_iff.1 h₂
  obtain ⟨a', ha', heq⟩ := List.mem_map.1 hmem
  have hsame : a' = a := hinj a' (by simp [ha']) a (by simp) heq
  exact ⟨a, rfl, l₁, l₂, rfl, hnodup.of_map, hsame ▸ ha'⟩

namespace CompileUnit

/-- All names before the duplicate are new, to each other and to those seen. -/
theorem exists_of_firstDuplicate? {seen names : List Name} {n : Name} (hseen : seen.Nodup)
    (h : firstDuplicate? seen names = some n) :
    ∃ before after, names = before ++ n :: after ∧ (before ++ seen).Nodup ∧ n ∈ before ++ seen := by
  induction names generalizing seen with
  | nil => simp [firstDuplicate?] at h
  | cons m names ih =>
    rw [firstDuplicate?] at h
    split at h
    · rename_i hm
      obtain rfl := Option.some.inj h
      exact ⟨[], names, rfl, hseen, hm⟩
    · rename_i hm
      obtain ⟨before, after, rfl, hnodup, hmem⟩ := ih (List.nodup_cons.2 ⟨hm, hseen⟩) h
      exact ⟨m :: before, after, rfl, List.nodup_middle.1 hnodup, List.perm_middle.mem_iff.1 hmem⟩

/-- The name that is reported is the first that is repeated. -/
theorem firstRepeat_of_firstDuplicate? {names : List Name} {n : Name}
    (h : firstDuplicate? [] names = some n) : FirstRepeat names n := by
  obtain ⟨before, after, hnames, hbefore⟩ := exists_of_firstDuplicate? List.nodup_nil h
  rw [List.append_nil] at hbefore
  exact ⟨before, after, hnames, hbefore⟩

end CompileUnit

/-! ## Subclasses -/

namespace Graph

variable {g : Graph} {id sub : ClassId}

/-- Subclasses are listed in ascending order. -/
theorem pairwise_subclasses : (g.subclasses id).Pairwise (·.index ≤ ·.index) := by
  refine List.pairwise_flatMap.2 ⟨fun sub _ => ?_, pairwise_ids.imp fun hlt x hx y hy => ?_⟩
  · rw [List.map_const']
    exact List.pairwise_replicate_of_refl
  · obtain ⟨-, -, rfl⟩ := List.mem_map.1 hx
    obtain ⟨-, -, rfl⟩ := List.mem_map.1 hy
    exact hlt.le

/-- A class is entered below one of its bases. -/
def enter (sub : ClassId) (below : List (List ClassId)) : Base → List (List ClassId)
  | .inUnit id => below.modify id.index (· ++ [sub])
  | .foreign _ => below

/-- The lists of subclasses as they are filled, class by class and base by base. -/
def fillSubclasses (g : Graph) : List (List ClassId) :=
  g.ids.foldl (fun below sub => (g.bases sub).foldl (enter sub) below) (List.replicate g.size [])

/-- A class is entered below its base and nowhere else. -/
theorem getElem?_enter (base : Base) (below : List (List ClassId)) :
    (enter sub below base)[id.index]? = below[id.index]?.map
      (· ++ (base.inUnit?.toList.filter (· = id)).map fun _ => sub) := by
  cases base with
  | foreign n => simp [enter, Base.inUnit?]
  | inUnit base =>
    rw [enter, List.getElem?_modify]
    by_cases hbase : base = id
    · subst hbase
      simp [Base.inUnit?]
    · have hindex : base.index ≠ id.index := fun h => hbase (congrArg ClassId.mk h)
      simp [Base.inUnit?, hbase, hindex]

/-- A class is entered below another as often as it has it as a base. -/
theorem getElem?_foldl_enter (bases : List Base) (below : List (List ClassId)) :
    (bases.foldl (enter sub) below)[id.index]? = below[id.index]?.map
      (· ++ ((bases.filterMap Base.inUnit?).filter (· = id)).map fun _ => sub) := by
  induction bases generalizing below with
  | nil => simp
  | cons base bases ih =>
    -- A base that is a class of the unit is one more local base, and any other is none.
    have hcons : (base :: bases).filterMap Base.inUnit? =
        base.inUnit?.toList ++ bases.filterMap Base.inUnit? := by
      rw [List.filterMap_eq_flatMap_toList, List.flatMap_cons, ← List.filterMap_eq_flatMap_toList]
    rw [List.foldl_cons, ih, getElem?_enter, Option.map_map, hcons, List.filter_append,
      List.map_append]
    simp only [Function.comp_def, List.append_assoc]

theorem filterMap_bases (g : Graph) (sub : ClassId) :
    (g.bases sub).filterMap Base.inUnit? = g.localBases sub := by
  rw [bases, localBases]
  cases g.class? sub <;> rfl

/-- After all classes are entered, each has those below it in their order. -/
theorem getElem?_foldl_enterAll (g : Graph) (id : ClassId) (subs : List ClassId)
    (below : List (List ClassId)) :
    (subs.foldl (fun below sub => (g.bases sub).foldl (enter sub) below) below)[id.index]? =
      below[id.index]?.map (· ++ subs.flatMap fun sub =>
        ((g.localBases sub).filter (· = id)).map fun _ => sub) := by
  induction subs generalizing below with
  | nil => simp
  | cons sub subs ih =>
    rw [List.foldl_cons, ih, getElem?_foldl_enter, Option.map_map, filterMap_bases]
    simp only [Function.comp_def, List.append_assoc, List.flatMap_cons]

/-- What is filled in are the lists of subclasses. -/
theorem fillSubclasses_eq (g : Graph) : g.fillSubclasses = g.ids.map g.subclasses := by
  refine List.ext_getElem? fun i => ?_
  have hrow := getElem?_foldl_enterAll g ⟨i⟩ g.ids (List.replicate g.size [])
  rw [fillSubclasses, hrow, List.getElem?_replicate, List.getElem?_map]
  by_cases hi : i < g.size <;> simp [hi, ids, subclasses]

end Graph

/-! ## What is built -/

/-- What a base stands for in a unit of those classes. -/
inductive Resolves (names : NameTable) (classes : List String) : String × Bool → Option Base → Prop
  /-- A class of the unit, unless the base is known to come from outside. -/
  | inUnit {text : String} {i : Nat} (h : classes[i]? = some text) :
      Resolves names classes (text, false) (some (.inUnit ⟨i⟩))
  /-- The root class, which is left out. -/
  | root {foreign : Bool} (h : foreign = true ∨ "object" ∉ classes) :
      Resolves names classes ("object", foreign) none
  /-- A class from outside, known by its name. -/
  | outside {text : String} {foreign : Bool} {n : Name} (h : foreign = true ∨ text ∉ classes)
      (hroot : text ≠ "object") (hname : names.text? n = some text) :
      Resolves names classes (text, foreign) (some (.foreign n))

/-- The body of the initializer that was given last; without statements if there is none. -/
def ClassScript.body (s : ClassScript) : List Stmt := (s.initializer?.map (·.body)).getD []

/-- The unit is what the calls declare, with the texts before them in its table. -/
structure BuiltFrom (before : List String) (scripts : List ClassScript) (u : CompileUnit) :
    Prop where
  names : u.names.texts = (Name.wellKnown ++ before ++ scripts.flatMap (·.texts)).eraseDups
  size : u.graph.size = scripts.length
  /-- A class is found by its name, at its position, and nothing else is found. -/
  lookup : ∀ text id, u.lookup? text = some id ↔ (scripts.map (·.name))[id.index]? = some text
  /-- The bases are those named, in that order, but for the root class. -/
  bases : ∀ i s, scripts[i]? = some s → ∃ resolved,
    List.Forall₂ (Resolves u.names (scripts.map (·.name))) s.bases resolved ∧
      u.graph.bases ⟨i⟩ = resolved.reduceOption
  valid : ∀ id, ∀ base ∈ u.graph.localBases id, base.index < u.graph.size
  subclasses_ascending : ∀ id, (u.graph.subclasses id).Pairwise (·.index ≤ ·.index)
  count_subclasses : ∀ id sub,
    (u.graph.subclasses id).count sub = (u.graph.localBases sub).count id
  filled : u.graph.fillSubclasses = u.graph.ids.map u.graph.subclasses
  /-- The attributes are those declared, and then those that the initializer assigns besides. -/
  attributes : ∀ i s, scripts[i]? = some s → ∃ standing assigned,
    LastDeclared (s.attributes u.names) standing ∧ InTextOrder s.body assigned ∧
      u.graph.attributes ⟨i⟩ =
        standing ++ (assigned.filter (· ∉ standing.map (·.name))).map Attribute.plain
  attributes_nodup : ∀ id, ((u.graph.attributes id).map (·.name)).Nodup

/-- The table has the texts of the classes and of the root class. -/
structure NameTable.Covers (t : NameTable) (scripts : List ClassScript) : Prop where
  mem_texts : ∀ s ∈ scripts, ∀ text ∈ s.texts, text ∈ t.texts
  object : t.text? .object = some "object"

namespace ClassScript

variable {t : NameTable} {scripts : List ClassScript} {s : ClassScript} {text : String} {i : Nat}
  {id : ClassId}

theorem mem_texts_of_mem_bases {b : String × Bool} (h : b ∈ s.bases) : b.1 ∈ s.texts := by
  obtain ⟨c, hc, hb⟩ := List.mem_filterMap.1 h
  refine List.mem_cons_of_mem _ (List.mem_flatMap.2 ⟨c, hc, ?_⟩)
  cases c with
  | base text foreign =>
    obtain rfl := Option.some.inj hb
    exact List.mem_singleton.2 rfl
  | _ => simp [ClassCall.base?] at hb

theorem map_name_declaration (t : NameTable) (scripts : List ClassScript) :
    (scripts.map (declaration t)).map (·.name) = (scripts.map (·.name)).map t.nameOf := by
  rw [List.map_map, List.map_map]
  exact List.map_congr_left fun s _ => (s.declaration_fields t).1

theorem name_mem_texts (hcovers : t.Covers scripts) (h : text ∈ scripts.map (·.name)) :
    text ∈ t.texts := by
  obtain ⟨s, hs, rfl⟩ := List.mem_map.1 h
  exact hcovers.mem_texts s hs s.name List.mem_cons_self

/-- Different names of classes stay different. -/
theorem nameOf_injOn (hcovers : t.Covers scripts) : ∀ text ∈ scripts.map (·.name),
    ∀ text' ∈ scripts.map (·.name), t.nameOf text = t.nameOf text' → text = text' :=
  fun _ h _ h' =>
    (NameTable.nameOf_inj (name_mem_texts hcovers h) (name_mem_texts hcovers h')).1

/-- Names are repeated in the declarations exactly if they are in the scripts. -/
theorem nodup_map_name_iff (hcovers : t.Covers scripts) :
    ((scripts.map (declaration t)).map (·.name)).Nodup ↔ (scripts.map (·.name)).Nodup := by
  rw [map_name_declaration]
  exact ⟨List.Nodup.of_map _, List.Nodup.map_on (nameOf_injOn hcovers)⟩

/-- A text is found as the class of which it is the name. -/
theorem declared?_nameOf (hcovers : t.Covers scripts) (hnodup : (scripts.map (·.name)).Nodup)
    (htext : text ∈ t.texts) :
    Graph.declared? (scripts.map (declaration t)) (t.nameOf text) = some id ↔
      (scripts.map (·.name))[id.index]? = some text := by
  rw [Graph.declared?_eq_some_iff ((nodup_map_name_iff hcovers).2 hnodup)]
  simp only [List.getElem?_map, Option.map_eq_some_iff]
  constructor
  · rintro ⟨_, ⟨s, hs, rfl⟩, hname⟩
    have hmem := hcovers.mem_texts s (List.mem_of_getElem? hs) s.name List.mem_cons_self
    rw [(s.declaration_fields t).1] at hname
    exact ⟨s, hs, (NameTable.nameOf_inj hmem htext).1 hname⟩
  · rintro ⟨s, hs, rfl⟩
    exact ⟨_, ⟨s, hs, rfl⟩, (s.declaration_fields t).1⟩

/-- A name that no class has stands for a class from outside. -/
theorem declared?_nameOf_eq_none (hcovers : t.Covers scripts)
    (hnodup : (scripts.map (·.name)).Nodup) (htext : text ∈ t.texts) :
    Graph.declared? (scripts.map (declaration t)) (t.nameOf text) = none ↔
      text ∉ scripts.map (·.name) := by
  rw [Option.eq_none_iff_forall_ne_some]
  simp only [ne_eq, declared?_nameOf hcovers hnodup htext, List.mem_iff_getElem?, not_exists]
  exact ⟨fun h i => h ⟨i⟩, fun h id => h id.index⟩

/-- A base of the declaration is resolved as its text says. -/
theorem resolves_resolveBase? (hcovers : t.Covers scripts) (hnodup : (scripts.map (·.name)).Nodup)
    (htext : text ∈ t.texts) (foreign : Bool) :
    Resolves t (scripts.map (·.name)) (text, foreign)
      (Graph.resolveBase? (scripts.map (declaration t)) ⟨t.nameOf text, foreign⟩) := by
  have hroot : t.nameOf text = .object ↔ text = "object" := by
    rw [← NameTable.nameOf_eq_of_text? hcovers.object]
    exact NameTable.nameOf_inj htext (List.mem_of_getElem? hcovers.object)
  have houtside : (foreign = true ∨ text ∉ scripts.map (·.name)) →
      Resolves t (scripts.map (·.name)) (text, foreign)
        (if t.nameOf text = .object then none else some (.foreign (t.nameOf text))) := by
    intro h
    split
    · obtain rfl := hroot.1 ‹_›
      exact .root h
    · exact .outside h (mt hroot.2 ‹_›) (NameTable.text?_nameOf htext)
  cases foreign with
  | true => exact houtside (.inl rfl)
  | false =>
    rw [Graph.resolveBase?]
    cases hfound : Graph.declared? (scripts.map (declaration t)) (t.nameOf text) with
    | none => exact houtside (.inr ((declared?_nameOf_eq_none hcovers hnodup htext).1 hfound))
    | some id => exact .inUnit ((declared?_nameOf hcovers hnodup htext).1 hfound)

theorem class?_declaration (hs : scripts[i]? = some s) :
    (Graph.ofDeclarations (scripts.map (declaration t))).class? ⟨i⟩ =
      some (Graph.classOf (scripts.map (declaration t)) (s.declaration t)) := by
  rw [Graph.class?_ofDeclarations, List.getElem?_map, hs, Option.map_some, Option.map_some]

/-- Bases are what their names stand for. -/
theorem bases_resolved (hcovers : t.Covers scripts) (hnodup : (scripts.map (·.name)).Nodup)
    (hs : scripts[i]? = some s) : ∃ resolved,
      List.Forall₂ (Resolves t (scripts.map (·.name))) s.bases resolved ∧
        (Graph.ofDeclarations (scripts.map (declaration t))).bases ⟨i⟩ = resolved.reduceOption := by
  refine ⟨s.bases.map fun b => Graph.resolveBase? (scripts.map (declaration t)) ⟨t.nameOf b.1, b.2⟩,
    ?_, ?_⟩
  · refine List.forall₂_map_right_iff.2 (List.forall₂_same.2 fun b hb => ?_)
    have htext := hcovers.mem_texts s (List.mem_of_getElem? hs) b.1 (mem_texts_of_mem_bases hb)
    exact resolves_resolveBase? hcovers hnodup htext b.2
  · rw [Graph.bases, class?_declaration hs, Option.map_some, Option.getD_some]
    calc (s.declaration t).bases.filterMap (Graph.resolveBase? (scripts.map (declaration t)))
      _ = s.bases.filterMap fun b =>
          Graph.resolveBase? (scripts.map (declaration t)) ⟨t.nameOf b.1, b.2⟩ := by
        rw [(s.declaration_fields t).2.1]
        exact List.filterMap_map
      _ = _ := (List.filterMap_map (g := id)).symm

/-- The attributes of a class are those declared last, then those assigned and not declared. -/
theorem attributes_standing (hs : scripts[i]? = some s) : ∃ standing assigned,
    LastDeclared (s.attributes t) standing ∧ InTextOrder s.body assigned ∧
      (Graph.ofDeclarations (scripts.map (declaration t))).attributes ⟨i⟩ =
        standing ++ (assigned.filter (· ∉ standing.map (·.name))).map Attribute.plain := by
  refine ⟨_, _, Declaration.lastDeclared_foldl _, inTextOrder_assignedAttrs _, ?_⟩
  obtain ⟨-, -, hattributes, hinit⟩ := s.declaration_fields t
  have hbody : (s.initializer?.map fun init => (assignedAttrs init.body).toList).getD [] =
      (assignedAttrs s.body).toList := by
    rw [body]
    cases s.initializer? <;> rfl
  rw [Graph.attributes, class?_declaration hs, Option.map_some, Option.getD_some, Graph.classOf,
    Graph.allAttributes, hattributes, hinit, hbody]
  refine congrArg (_ ++ ·) (congrArg _ (List.filter_congr fun a _ => ?_))
  rw [Bool.eq_iff_iff]
  simp

/-- No attribute is there twice. -/
theorem nodup_names_attributes (t : NameTable) (scripts : List ClassScript) (id : ClassId) :
    (((Graph.ofDeclarations (scripts.map (declaration t))).attributes id).map (·.name)).Nodup := by
  cases hs : scripts[id.index]? with
  | none => simp [Graph.attributes, Graph.class?_ofDeclarations, hs]
  | some s =>
    obtain ⟨standing, assigned, hstanding, hassigned, hattributes⟩ :=
      attributes_standing (t := t) hs
    have hplain : ∀ names : List Name, (names.map Attribute.plain).map (·.name) = names := by
      simp [Attribute.plain, Function.comp_def]
    rw [hattributes, List.map_append, hplain]
    refine List.nodup_append.2 ⟨hstanding.names ▸ nodup_eraseDups_names _,
      hassigned.nodup.filter _, fun a ha b hb heq => ?_⟩
    exact of_decide_eq_true (List.mem_filter.1 hb).2 (heq ▸ ha)

end ClassScript

namespace CompileUnit

variable {before : List String} {scripts : List ClassScript} {t : NameTable}

/-- Declares the classes, in a table that has some texts before, and builds the unit. -/
def ofCalls (before : List String) (scripts : List ClassScript) : Except Fault CompileUnit :=
  let st := ClassScript.declareAll (NameTable.fresh.insertAll before) scripts
  build st.1 st.2

/-- Calls one after the other build what all declarations build at once. -/
theorem ofCalls_eq (before : List String) (scripts : List ClassScript) :
    ∃ t, ofCalls before scripts = build t (scripts.map (ClassScript.declaration t)) ∧
      t.texts = (Name.wellKnown ++ before ++ scripts.flatMap (·.texts)).eraseDups ∧
      t.Covers scripts := by
  refine ⟨NameTable.fresh.insertAll (before ++ scripts.flatMap (·.texts)), ?_, ?_, ?_, ?_⟩
  · rw [ofCalls, ClassScript.declareAll_eq, NameTable.insertAll_append]
  · rw [NameTable.texts_insertAll, List.append_assoc]
  · intro s hs text htext
    exact NameTable.mem_texts_insertAll
      (List.mem_append_right _ (List.mem_flatMap.2 ⟨s, hs, htext⟩))
  · exact (NameTable.text?_wellKnown _).2.2.1

/-- A class is found under its name. -/
theorem lookup?_iff (hcovers : t.Covers scripts) (hnodup : (scripts.map (·.name)).Nodup)
    (text : String) (id : ClassId) :
    lookup? ⟨t, .ofDeclarations (scripts.map (ClassScript.declaration t)), ∅, ∅⟩ text = some id ↔
      (scripts.map (·.name))[id.index]? = some text := by
  have hgraph : ∀ n, (Graph.ofDeclarations (scripts.map (ClassScript.declaration t))).lookup? n =
      Graph.declared? (scripts.map (ClassScript.declaration t)) n := by
    intro n
    rw [Graph.lookup?, Graph.declared?, Graph.ofDeclarations, List.findIdx?_map]
    rfl
  by_cases htext : text ∈ t.texts
  · have hget := NameTable.get?_of_text? (NameTable.text?_nameOf htext)
    rw [lookup?, hget, Option.bind_some, hgraph, ClassScript.declared?_nameOf hcovers hnodup htext]
  · have hnone : t.get? text = none := if_neg htext
    rw [lookup?, hnone, Option.bind_none]
    refine iff_of_false (by simp) fun h => htext ?_
    exact ClassScript.name_mem_texts hcovers (List.mem_of_getElem? h)

/-- The unit of calls that declare no class twice. -/
theorem builtFrom_ofDeclarations (hcovers : t.Covers scripts)
    (hnodup : (scripts.map (·.name)).Nodup)
    (htexts : t.texts = (Name.wellKnown ++ before ++ scripts.flatMap (·.texts)).eraseDups) :
    BuiltFrom before scripts
      ⟨t, .ofDeclarations (scripts.map (ClassScript.declaration t)), ∅, ∅⟩ where
  names := htexts
  size := by simp [Graph.size, Graph.ofDeclarations]
  lookup := lookup?_iff hcovers hnodup
  bases i s hs := ClassScript.bases_resolved hcovers hnodup hs
  valid id base hbase := Graph.mem_ids.1 (Graph.mem_ids_of_mem_localBases hbase)
  subclasses_ascending id := Graph.pairwise_subclasses
  count_subclasses id sub := Graph.count_subclasses
  filled := Graph.fillSubclasses_eq _
  attributes i s hs := ClassScript.attributes_standing hs
  attributes_nodup := ClassScript.nodup_names_attributes t scripts

/-- Declarations that are not too many have a first name that repeats, or make a unit. -/
theorem build_cases (names : NameTable) {decls : List Declaration}
    (hcount : decls.length ≤ maxClasses) :
    (∃ n, FirstRepeat (decls.map (·.name)) n ∧
      build names decls = .error (.duplicateClass (names.display n))) ∨
    (decls.map (·.name)).Nodup ∧ build names decls = .ok ⟨names, .ofDeclarations decls, ∅, ∅⟩ := by
  rw [build, if_neg (Nat.not_lt.2 hcount)]
  cases hfirst : firstDuplicate? [] (decls.map (·.name)) with
  | some n => exact .inl ⟨n, firstRepeat_of_firstDuplicate? hfirst, rfl⟩
  | none => exact .inr ⟨(firstDuplicate?_eq_none_iff.1 hfirst).1, rfl⟩

/-- The unit is built unless a name is repeated. -/
theorem ofCalls_cases (before : List String) (hcount : scripts.length < UInt32.size) :
    (∃ text, FirstRepeat (scripts.map (·.name)) text ∧
      ofCalls before scripts = .error (.duplicateClass text)) ∨
    (scripts.map (·.name)).Nodup ∧
      ∃ u, ofCalls before scripts = .ok u ∧ BuiltFrom before scripts u := by
  obtain ⟨t, hcalls, htexts, hcovers⟩ := ofCalls_eq before scripts
  have hdecls : (scripts.map (ClassScript.declaration t)).length ≤ maxClasses := by
    rw [List.length_map]
    exact Nat.le_sub_one_of_lt hcount
  rcases build_cases t hdecls with ⟨n, hrepeat, hfault⟩ | ⟨hnodup, hu⟩
  · -- Different texts have different names, so the text repeats where the name does.
    rw [ClassScript.map_name_declaration] at hrepeat
    obtain ⟨text, rfl, htext⟩ := hrepeat.of_map (ClassScript.nameOf_injOn hcovers)
    have hmem := ClassScript.name_mem_texts hcovers htext.mem
    refine .inl ⟨text, htext, ?_⟩
    rw [hcalls, hfault, NameTable.display, NameTable.text?_nameOf hmem, Option.getD_some]
  · have hnodup := (ClassScript.nodup_map_name_iff hcovers).1 hnodup
    exact .inr ⟨hnodup, _, hcalls.trans hu, builtFrom_ofDeclarations hcovers hnodup htexts⟩

/-- Calls are refused exactly when two of the classes have one name, and then for the first name
that repeats. All others make a unit that is what they declare. -/
theorem ofCalls_builtFrom (before : List String) (scripts : List ClassScript)
    (hcount : scripts.length < UInt32.size) :
    ((∃ text, ofCalls before scripts = .error (.duplicateClass text)) ↔
      ¬(scripts.map (·.name)).Nodup) ∧
    (∀ fault, ofCalls before scripts = .error fault →
      ∃ text, fault = .duplicateClass text ∧ FirstRepeat (scripts.map (·.name)) text) ∧
    ((scripts.map (·.name)).Nodup →
      ∃ u, ofCalls before scripts = .ok u ∧ BuiltFrom before scripts u) := by
  rcases ofCalls_cases before hcount with ⟨text, hrepeat, hfault⟩ | ⟨hnodup, u, hu, hbuilt⟩
  · refine ⟨iff_of_true ⟨text, hfault⟩ hrepeat.not_nodup, fun fault h => ?_, fun hnodup => ?_⟩
    · exact ⟨text, (Except.error.inj (hfault.symm.trans h)).symm, hrepeat⟩
    · exact absurd hnodup hrepeat.not_nodup
  · refine ⟨iff_of_false ?_ (not_not_intro hnodup), ?_, fun _ => ⟨u, hu, hbuilt⟩⟩
    · rintro ⟨text, htext⟩
      exact nomatch hu.symm.trans htext
    · intro fault hfault
      exact nomatch hu.symm.trans hfault

/-- A square, declared before the shape it derives from. It names that shape as a base twice, and
once more as a class from outside. One attribute is declared again, and the initializer given last
assigns it after one that is not declared. -/
def squareFirst : List ClassScript :=
  [⟨"Square", [.base "Shape" false, .base "Mixin" false, .base "Shape" false, .base "Shape" true,
      .base "object" false, .attr "side" false false false, .attr "color" true false false,
      .attr "side" false true false, .initializer ⟨[.setAttr ⟨10⟩ (.var .param ⟨8⟩)], .empty⟩,
      .initializer ⟨[.assignAll [.ofList [.ofSelf ⟨4⟩, .ofSelf ⟨8⟩]] (.var .param ⟨8⟩)], .empty⟩]⟩,
    ⟨"Shape", [.intern "round", .base "object" true, .asTrait]⟩]

theorem ofCalls_builtFrom_squareFirst : squareFirst.length < UInt32.size ∧
    ∃ u, ofCalls ["area"] squareFirst = .ok u ∧ BuiltFrom ["area"] squareFirst u ∧
      u.graph.bases ⟨0⟩ = [.inUnit ⟨1⟩, .foreign ⟨7⟩, .inUnit ⟨1⟩, .foreign ⟨6⟩] ∧
      u.graph.bases ⟨1⟩ = [] ∧ u.graph.subclasses ⟨1⟩ = [⟨0⟩, ⟨0⟩] ∧
      u.graph.attributes ⟨0⟩ = [⟨⟨8⟩, false, true, false, .reference⟩,
        ⟨⟨9⟩, true, false, false, .reference⟩, .plain ⟨4⟩] := by
  have hcount : squareFirst.length < UInt32.size := by decide
  obtain ⟨u, hu, hbuilt⟩ := (ofCalls_builtFrom ["area"] squareFirst hcount).2.2 (by decide)
  refine ⟨hcount, _, rfl, ?_, by decide +kernel, by decide +kernel, by decide +kernel,
    by decide +kernel⟩
  exact (Except.ok.inj hu : _ = u) ▸ hbuilt

/-- The first name that repeats is not that of the class declared first. -/
example : ofCalls [] [⟨"Square", []⟩, ⟨"Shape", []⟩, ⟨"Shape", []⟩, ⟨"Square", []⟩] =
    .error (.duplicateClass "Shape") := rfl

end CompileUnit

end DefiniteInit
