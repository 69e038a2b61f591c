import DefiniteInit.Proofs.Comparisons
import DefiniteInit.Proofs.WriteOnce

/-!
# Forwarding and inheriting

A class without an initializer uses that of its primary base, and takes over what is known of it.
A class whose initializer does nothing but call the next one in line says the same in another way.
Its body is walked from its defaults: the call adds what the base always defines, in the same order,
and is an escape if the base is compromised (`Scope.block_forwarding`).

Nothing else of a unit depends on whether a class has an initializer (`Graph.SameOutline`), and
facts that differ in their origin and first escape only make no difference to the classes below
(`Facts.Alike`, `Graph.SameFrame.factsOf_eq`). So by induction along the hierarchy all classes
have the facts they had (`Graph.Forwards.analyze_alike`), and the layouts stay as they are.
-/

namespace DefiniteInit

/-! ## Unions -/

namespace AttrSet

/-- New names go to the end, in their order. -/
theorem toList_insertAll {names : List Name} (hnodup : names.Nodup) (s : AttrSet) :
    (s.insertAll names).toList = s.toList ++ names.filter (· ∉ s) := by
  induction names generalizing s with
  | nil => simp [insertAll]
  | cons a names ih =>
    obtain ⟨ha, hnames⟩ := List.nodup_cons.1 hnodup
    rw [insertAll, List.foldl_cons, ← insertAll, ih hnames]
    by_cases hmem : a ∈ s
    · rw [insert_of_mem hmem, List.filter_cons_of_neg (by simpa using hmem)]
    · have hrest : names.filter (· ∉ s.insert a) = names.filter (· ∉ s) := by
        refine List.filter_congr fun b hb => ?_
        have hba : b ≠ a := ne_of_mem_of_not_mem hb ha
        simp [hba]
      rw [toList_insert_of_not_mem hmem, hrest, List.filter_cons_of_pos (by simpa using hmem)]
      simp

theorem toList_union (s t : AttrSet) : (s ∪ t).toList = s.toList ++ t.toList.filter (· ∉ s) :=
  toList_insertAll t.nodup s

/-- What a set begins with need not be added to it. -/
theorem union_union_left (s t : AttrSet) : s ∪ (s ∪ t) = s ∪ t := by
  refine AttrSet.ext ?_
  rw [toList_union, toList_union s t, List.filter_append, List.filter_filter]
  simp

theorem inter_self (s : AttrSet) : s ∩ s = s := by
  refine AttrSet.ext (List.filter_eq_self.2 ?_)
  simp

end AttrSet

/-! ## Graphs that differ in initializers -/

/-- The class without its initializer. -/
def Class.outline (c : Class) : Class := { c with initializer := none }

/-- The class without its initializer and without the attributes that neither have a default nor may
be deleted. The analysis makes no use of those. -/
def Class.frame (c : Class) : Class :=
  { c with
    initializer := none
    attributes := c.attributes.filter fun a => a.isDefaulted || a.deletable }

namespace Graph

/-- The two graphs differ at most in the initializers of their classes. -/
def SameOutline (g g' : Graph) : Prop :=
  g'.classes.map Class.outline = g.classes.map Class.outline

/-- The two graphs differ at most in the initializers of their classes and in attributes that
neither have a default nor may be deleted. -/
def SameFrame (g g' : Graph) : Prop := g'.classes.map Class.frame = g.classes.map Class.frame

/-- What does not depend on what is left out of the classes is the same in both. -/
theorem map_class?_of_map_classes {g g' : Graph} {part : Class → Class}
    (h : g'.classes.map part = g.classes.map part) {α : Type} (f : Class → α)
    (hf : ∀ c, f (part c) = f c) (id : ClassId) :
    (g'.class? id).map f = (g.class? id).map f := by
  have hmap : ∀ g : Graph, (g.class? id).map f = ((g.classes.map part)[id.index]?).map f := by
    intro g
    rw [List.getElem?_map, Option.map_map, class?]
    cases g.classes[id.index]? with
    | none => rfl
    | some c => simp [hf]
  rw [hmap, hmap, h]

end Graph

namespace Graph.SameFrame

variable {g g' : Graph} (h : g.SameFrame g')

include h

/-- What does not depend on the initializer is the same of both classes. -/
theorem map_class? {α : Type} (f : Class → α) (hf : ∀ c, f c.frame = f c) (id : ClassId) :
    (g'.class? id).map f = (g.class? id).map f := map_class?_of_map_classes h f hf id

theorem any_class? (p : Class → Bool) (hp : ∀ c, p c.frame = p c) (id : ClassId) :
    (g'.class? id).any p = (g.class? id).any p := by
  have hany : ∀ o : Option Class, o.any p = (o.map p).getD false := by rintro (_ | _) <;> rfl
  rw [hany, hany, h.map_class? p hp]

theorem size_eq : g'.size = g.size := by
  have hlength := congrArg List.length h
  rwa [List.length_map, List.length_map] at hlength

theorem ids_eq : g'.ids = g.ids := by rw [ids, ids, h.size_eq]

theorem bases_eq : g'.bases = g.bases := by
  funext id
  rw [bases, bases, h.map_class? Class.bases fun _ => rfl]

theorem localBases_eq : g'.localBases = g.localBases := by
  funext id
  rw [localBases, localBases, h.map_class? Class.localBases fun _ => rfl]

/-- Attributes with a default, and such that may be deleted, are the same in both. -/
theorem filter_attributes_eq {p : Attribute → Bool}
    (hp : ∀ a, p a = true → (a.isDefaulted || a.deletable) = true) (id : ClassId) :
    (g'.attributes id).filter p = (g.attributes id).filter p := by
  have hfilter : ∀ c : Class, c.frame.attributes.filter p = c.attributes.filter p := by
    intro c
    rw [Class.frame, List.filter_filter]
    refine List.filter_congr fun a _ => ?_
    cases hpa : p a with
    | false => rfl
    | true => rw [hp a hpa]; rfl
  have hmap := h.map_class? (fun c => c.attributes.filter p) hfilter id
  unfold attributes
  cases hc : g.class? id <;> cases hc' : g'.class? id <;> simp_all

theorem isTrait_eq : g'.isTrait = g.isTrait := by
  funext id
  rw [isTrait, isTrait, h.map_class? Class.isTrait fun _ => rfl]

theorem subclasses_eq : g'.subclasses = g.subclasses := by
  funext id
  rw [subclasses, subclasses, h.ids_eq, h.localBases_eq]

theorem primaryBase?_eq : g'.primaryBase? = g.primaryBase? := by
  funext id
  rw [primaryBase?, primaryBase?, initializerBase?, initializerBase?, h.bases_eq, h.isTrait_eq]

/-- The search for ancestors does not look at initializers. -/
theorem ascend_eq (root : ClassId) (stack met : List ClassId) :
    g'.ascend root stack met = g.ascend root stack met := by
  fun_induction ascend g root stack met with
  | case1 met => rw [ascend]
  | case2 met next rest hseen ih => rw [ascend, if_pos hseen, ih]
  | case3 met next rest hnew ih => rw [ascend, if_neg hnew, h.localBases_eq, ih]

/-- A class has the same lineage in both graphs. -/
theorem lineage_eq : g'.lineage = g.lineage := by
  funext id
  rw [lineage, lineage, ancestors, ancestors, h.localBases_eq, h.ascend_eq]

theorem lineageProperties_eq : g'.lineageProperties = g.lineageProperties := by
  funext id
  have hproperties : ∀ c, (g'.class? c).map Class.properties = (g.class? c).map Class.properties :=
    h.map_class? Class.properties fun _ => rfl
  simp only [lineageProperties, h.lineage_eq, hproperties]

theorem defaultedAttrs_eq : g'.defaultedAttrs = g.defaultedAttrs := by
  funext id
  have hfilter := h.filter_attributes_eq (p := Attribute.isDefaulted) fun a ha => by simp [ha]
  simp only [defaultedAttrs, h.lineage_eq, List.filter_flatMap, hfilter]

theorem deletableAttrs_eq : g'.deletableAttrs = g.deletableAttrs := by
  funext id
  have hfilter := h.filter_attributes_eq (p := Attribute.deletable) fun a ha => by simp [ha]
  simp only [deletableAttrs, h.lineage_eq, List.filter_flatMap, hfilter]

theorem pending_eq : g'.pending = g.pending := by
  funext waiting id
  rw [pending, pending, h.localBases_eq]

/-- Waves do not depend on initializers. -/
theorem wavesFrom_eq (waiting : List ClassId) : g'.wavesFrom waiting = g.wavesFrom waiting := by
  have hready : ∀ waiting, g'.ready waiting = g.ready waiting := by
    intro waiting
    rw [ready, ready, h.pending_eq]
  have hblocked : ∀ waiting, g'.blocked waiting = g.blocked waiting := by
    intro waiting
    rw [blocked, blocked, h.pending_eq]
  fun_induction wavesFrom g waiting with
  | case1 waiting hempty => rw [wavesFrom, if_pos (by rwa [hready])]
  | case2 waiting hsome ih => rw [wavesFrom, if_neg (by rwa [hready]), hready, hblocked, ih]

theorem waves_eq : g'.waves = g.waves := by rw [waves, waves, h.ids_eq, h.wavesFrom_eq]

/-- Neither graph has a cycle if the other has none. -/
theorem acyclic (hacyclic : g.Acyclic) : g'.Acyclic := by
  unfold Acyclic
  rwa [h.localBases_eq]

end Graph.SameFrame

namespace Graph.SameOutline

variable {g g' : Graph} (h : g.SameOutline g')

include h

theorem frame : g.SameFrame g' := by
  have hframe : Class.frame = Class.frame ∘ Class.outline := rfl
  rw [SameFrame, hframe, ← List.map_map, ← List.map_map, h]

theorem attributes_eq : g'.attributes = g.attributes := by
  funext id
  rw [attributes, attributes, map_class?_of_map_classes h Class.attributes fun _ => rfl]

theorem acyclic (hacyclic : g.Acyclic) : g'.Acyclic := h.frame.acyclic hacyclic

end Graph.SameOutline

/-- The two initializers are walked alike, by whatever scope. -/
def Initializer.WalkedAlike (init init' : Initializer) : Prop :=
  ∀ sc : Scope, sc.block .top init'.body = sc.block .top init.body

/-- Initializers that are walked alike have the same summary. -/
theorem Initializer.WalkedAlike.walkBody_eq {init init' : Initializer} (h : init.WalkedAlike init')
    (g : Graph) (known : ClassTable Facts) (o : Options) (id : ClassId) (entry : State) :
    g.walkBody known o id init'.body entry = g.walkBody known o id init.body entry := by
  rw [Graph.walkBody, Graph.walkBody, h]

/-! ## Facts that say the same of instances -/

/-- The facts say the same of the instances of a class and of the classes below it, wherever they
come from. -/
structure Facts.Alike (f f' : Facts) : Prop where
  alwaysDefined : f'.alwaysDefined = f.alwaysDefined
  compromised : f'.compromised = f.compromised
  passedOver : f'.origin = .seeded .foreignAncestry ↔ f.origin = .seeded .foreignAncestry

theorem Facts.Alike.refl (f : Facts) : f.Alike f := ⟨rfl, rfl, Iff.rfl⟩

/-- What is known of the class is alike in both tables, or nothing is in either. -/
def AlikeAt (known known' : ClassTable Facts) (id : ClassId) : Prop :=
  (known.get? id = none ∧ known'.get? id = none) ∨
    ∃ f f', known.get? id = some f ∧ known'.get? id = some f' ∧ f.Alike f'

namespace AlikeAt

variable {known known' : ClassTable Facts} {id : ClassId} (h : AlikeAt known known' id)

include h

/-- Facts that say the same of instances have the same attributes in the same order. -/
theorem map_alwaysDefined :
    (known'.get? id).map Facts.alwaysDefined = (known.get? id).map Facts.alwaysDefined := by
  obtain ⟨hnone, hnone'⟩ | ⟨f, f', hf, hf', halike⟩ := h
  · rw [hnone, hnone']
  · rw [hf, hf', Option.map_some, Option.map_some, halike.alwaysDefined]

theorem map_compromised :
    (known'.get? id).map Facts.compromised = (known.get? id).map Facts.compromised := by
  obtain ⟨hnone, hnone'⟩ | ⟨f, f', hf, hf', halike⟩ := h
  · rw [hnone, hnone']
  · rw [hf, hf', Option.map_some, Option.map_some, halike.compromised]

end AlikeAt

namespace Graph.SameFrame

variable {g g' : Graph} {known known' : ClassTable Facts} {o : Options} {id : ClassId}
  (h : g.SameFrame g')
  (hbases : ∀ base ∈ g.localBases id, AlikeAt known known' base)

include h hbases

/-- A class is passed over in both graphs or in neither. -/
theorem seedReason?_eq : g'.seedReason? known' id = g.seedReason? known id := by
  have hany : ((g.localBases id).any fun base =>
      (known'.get? base).any (·.origin = .seeded .foreignAncestry)) =
      (g.localBases id).any fun base =>
        (known.get? base).any (·.origin = .seeded .foreignAncestry) := by
    rw [Bool.eq_iff_iff, List.any_eq_true, List.any_eq_true]
    refine exists_congr fun base => and_congr_right fun hbase => ?_
    obtain ⟨hnone, hnone'⟩ | ⟨f, f', hf, hf', halike⟩ := hbases base hbase
    · rw [hnone, hnone']
    · simpa [hf, hf'] using halike.passedOver
  simp only [seedReason?, h.localBases_eq, hany, h.any_class? Class.hasForeignBase fun _ => rfl,
    h.any_class? Class.openToForeign fun _ => rfl]

/-- A call does the same if the facts of the base say the same of instances. -/
theorem effects_baseCallOn_eq {b : Base} (hb : b ∈ g.bases id) :
    (g'.baseCallOn known' b).fold = (g.baseCallOn known b).fold ∧
      (g'.baseCallOn known' b).escape? = (g.baseCallOn known b).escape? := by
  cases b with
  | foreign _ => exact ⟨rfl, rfl⟩
  | inUnit base =>
    have hinert := h.any_class? (fun c => c.isTrait || c.openToForeign) (fun _ => rfl) base
    simp only [baseCallOn, hinert]
    split
    · exact ⟨rfl, rfl⟩
    · obtain ⟨hnone, hnone'⟩ | ⟨f, f', hf, hf', halike⟩ := hbases base (mem_localBases.2 hb)
      · rw [hnone, hnone']
        exact ⟨rfl, rfl⟩
      · rw [hf, hf']
        constructor
        · funext contributes s
          simp only [BaseCall.fold, halike.alwaysDefined]
        · funext span
          simp only [BaseCall.escape?, halike.compromised]

/-- Calls of bases' initializers have the same effects. -/
theorem effects_baseCall_eq (t : SuperTarget) :
    (g'.baseCall known' id t).fold = (g.baseCall known id t).fold ∧
      (g'.baseCall known' id t).escape? = (g.baseCall known id t).escape? := by
  have hnamed : g'.isNamed = g.isNamed := by
    funext name b
    cases b with
    | foreign _ => rfl
    | inUnit base => exact h.any_class? (fun c => decide (c.name = name)) (fun _ => rfl) base
  cases t with
  | next =>
    simp only [baseCall, h.bases_eq]
    cases hhead : (g.bases id).head? with
    | none => exact ⟨rfl, rfl⟩
    | some b => exact h.effects_baseCallOn_eq hbases (List.mem_of_head? hhead)
  | explicit name =>
    simp only [baseCall, h.bases_eq, hnamed]
    cases hfind : (g.bases id).find? (g.isNamed name) with
    | none => exact ⟨rfl, rfl⟩
    | some b => exact h.effects_baseCallOn_eq hbases (List.mem_of_find?_eq_some hfind)

/-- A body is walked alike if the facts of the bases say the same of instances. -/
theorem walkBody_eq (body : List Stmt) (entry : State) :
    g'.walkBody known' o id body entry = g.walkBody known o id body entry := by
  have hblock : (g'.scope known' o id).block .top body = (g.scope known o id).block .top body :=
    Scope.block_congr (by simp only [scope, h.lineageProperties_eq])
      (fun t => (h.effects_baseCall_eq hbases t).1)
      (fun t => (h.effects_baseCall_eq hbases t).2) _ _
  rw [walkBody, walkBody, hblock]

/-- A class whose initializer is walked alike has the same facts. -/
theorem factsOf_eq_of_rel (hinit : Option.Rel Initializer.WalkedAlike
      ((g.class? id).bind Class.initializer) ((g'.class? id).bind Class.initializer)) :
    g'.factsOf known' o id = g.factsOf known o id := by
  have hinitial : g'.initialFacts known' o id = g.initialFacts known o id := by
    unfold initialFacts
    rw [h.primaryBase?_eq, h.defaultedAttrs_eq]
    generalize (g.class? id).bind Class.initializer = init at hinit ⊢
    generalize (g'.class? id).bind Class.initializer = init' at hinit ⊢
    cases hinit with
    | some hwalk => simp only [h.walkBody_eq hbases, hwalk.walkBody_eq]
    | none =>
      cases hbase : g.primaryBase? id with
      | none => rfl
      | some base =>
        obtain ⟨hnone, hnone'⟩ | ⟨f, f', hf, hf', halike⟩ :=
          hbases base (mem_localBases_of_primaryBase? hbase)
        · simp only [hnone, hnone']
        · simp only [hf, hf', halike.alwaysDefined, halike.compromised]
  simp only [factsOf, h.isTrait_eq, h.seedReason?_eq hbases, hinitial, h.deletableAttrs_eq,
    h.defaultedAttrs_eq]

/-- A class with the same initializer has the same facts. -/
theorem factsOf_eq
    (hinit : (g'.class? id).bind Class.initializer = (g.class? id).bind Class.initializer) :
    g'.factsOf known' o id = g.factsOf known o id := by
  refine h.factsOf_eq_of_rel hbases ?_
  rw [hinit]
  cases (g.class? id).bind Class.initializer with
  | none => exact .none
  | some init => exact .some fun _ => rfl

end Graph.SameFrame

/-! ## An initializer that calls the next one -/

/-- An initializer that does nothing but call the next one in line. -/
def Initializer.forwarding (callSpan span : Span) : Initializer :=
  ⟨[.superInit .next [] [] callSpan], span⟩

/-- The body assigns what the base assigns, and lets the receiver escape if the base does. -/
theorem Scope.block_forwarding {sc : Scope} {base : ClassId} {facts : Facts}
    (hcall : sc.baseCall .next = .analyzed base facts) (defaults : AttrSet) (callSpan span : Span) :
    sc.block .top (Initializer.forwarding callSpan span).body ⟨defaults, false⟩ =
      if facts.compromised then
        .check (.escapes ⟨.compromisedBase base, callSpan⟩) ⟨defaults ∪ facts.alwaysDefined, false⟩
      else .goOn ⟨defaults ∪ facts.alwaysDefined, false⟩ := by
  have hnil : sc.block .top [] = .goOn := funext fun s => by rw [block]
  have hdefine : State.defineAll ⟨defaults, false⟩ facts.alwaysDefined.toList =
      ⟨defaults ∪ facts.alwaysDefined, false⟩ := State.defineAll_of_not_escaped rfl _
  have hfold : (BaseCall.analyzed base facts).fold (Verdict.safe.isSafe && !Mode.top.shielded)
      ⟨defaults, false⟩ = ⟨defaults ∪ facts.alwaysDefined, false⟩ := hdefine
  rw [Initializer.forwarding, block, hnil, Outcome.andThen_goOn, stmt, superInit, hcall,
    Judge.exprs, Judge.keywords, Verdict.safe_andThen, Outcome.check_safe_andThen]
  simp only [hfold, BaseCall.escape?]
  cases facts.compromised <;> rfl

namespace Graph

variable {g g' : Graph} {known known' : ClassTable Facts} {o : Options} {id base : ClassId}

/-- A body that only calls the next initializer has what the base has. -/
theorem walkBody_forwarding {facts : Facts}
    (hcall : g.baseCall known id .next = .analyzed base facts) (defaults : AttrSet)
    (callSpan span : Span) :
    (g.walkBody known o id (Initializer.forwarding callSpan span).body ⟨defaults, false⟩).defined =
        defaults ∪ facts.alwaysDefined ∧
      (g.walkBody known o id (Initializer.forwarding callSpan span).body
        ⟨defaults, false⟩).escaped = facts.compromised := by
  have hscope : (g.scope known o id).baseCall .next = .analyzed base facts := hcall
  rw [walkBody, Scope.block_forwarding hscope]
  cases facts.compromised with
  | false => exact ⟨rfl, rfl⟩
  | true => exact ⟨AttrSet.inter_self _, rfl⟩

/-- The graph `g'` is `g`, but for the class `id`, which has no initializer in `g` and forwards to
that of its first base in `g'`. -/
structure Forwards (g g' : Graph) (id base : ClassId) (init : Initializer) : Prop where
  outline : g.SameOutline g'
  others : ∀ c, c ≠ id →
    (g'.class? c).bind Class.initializer = (g.class? c).bind Class.initializer
  inherits : (g.class? id).bind Class.initializer = none
  forwards : (g'.class? id).bind Class.initializer = some init
  first : (g.bases id).head? = some (.inUnit base)
  runs : ((g.class? base).any fun c => c.isTrait || c.openToForeign) = false

namespace Forwards

variable {callSpan span : Span} (h : Forwards g g' id base (.forwarding callSpan span))

include h

/-- The base that is called is the one whose initializer was used. -/
theorem primaryBase?_eq : g.primaryBase? id = some base := by
  have htrait : g.isTrait base = false := by
    have hruns := h.runs
    unfold isTrait
    cases hc : g.class? base with
    | none => rfl
    | some c =>
      rw [hc] at hruns
      simp_all
  obtain ⟨rest, hrest⟩ := List.head?_eq_some_iff.1 h.first
  simp [primaryBase?, initializerBase?, hrest, htrait, Base.inUnit?]

/-- The call runs that base. -/
theorem baseCall_next_eq {facts : Facts} (hfacts : known.get? base = some facts) :
    g.baseCall known id .next = .analyzed base facts := by
  have hruns := h.runs
  simp only [baseCall, h.first, baseCallOn, hruns, hfacts]
  rfl

/-- Forwarding, a class has facts like those it inherits. -/
theorem alike_factsOf
    (hbases : ∀ c ∈ g.localBases id, AlikeAt known known' c)
    (hknown : (known.get? base).isSome = true) :
    (g.factsOf known o id).Alike (g'.factsOf known' o id) := by
  obtain ⟨facts, hfacts⟩ := Option.isSome_iff_exists.1 hknown
  have hinherits : g.initialFacts known o id =
      ⟨facts.alwaysDefined, facts.compromised, .inherited base, none⟩ := by
    simp only [initialFacts, h.inherits, h.primaryBase?_eq, hfacts]
  obtain ⟨hdefined, hescaped⟩ := walkBody_forwarding (o := o) (h.baseCall_next_eq hfacts)
    (g.defaultedAttrs id) callSpan span
  have hforwards : ∃ site, g'.initialFacts known' o id =
      ⟨g.defaultedAttrs id ∪ facts.alwaysDefined, facts.compromised, .analyzed, site⟩ := by
    simp only [initialFacts, h.forwards, h.outline.frame.walkBody_eq hbases,
      h.outline.frame.defaultedAttrs_eq, hdefined, hescaped]
    exact ⟨_, rfl⟩
  obtain ⟨site, hforwards⟩ := hforwards
  unfold factsOf
  rw [h.outline.frame.isTrait_eq, h.outline.frame.seedReason?_eq hbases,
    h.outline.frame.deletableAttrs_eq, h.outline.frame.defaultedAttrs_eq, hinherits, hforwards]
  split
  · exact .refl _
  · split
    · exact .refl _
    · exact ⟨by simp only [AttrSet.union_union_left], rfl, by simp⟩

/-- All facts say the same of instances, and those of the other classes are the same. The induction
is along the bases. -/
theorem analyze_alike (hacyclic : g.Acyclic) (o : Options) (c : ClassId) :
    AlikeAt (g.analyze o) (g'.analyze o) c ∧
      (c ≠ id → (g'.analyze o).get? c = (g.analyze o).get? c) := by
  have hacyclic' := h.outline.acyclic hacyclic
  induction c using hacyclic.induction with
  | hstep c ih =>
    have hbases : ∀ b ∈ g.localBases c, AlikeAt (g.analyze o) (g'.analyze o) b :=
      fun b hb => (ih b hb).1
    by_cases hc : c ∈ g.ids
    · have hc' : c ∈ g'.ids := by rwa [h.outline.frame.ids_eq]
      have hfacts := solves_analyze hacyclic o c hc
      have hfacts' := solves_analyze hacyclic' o c hc'
      -- Only the class itself is declared otherwise; every other stands as it did over bases that
      -- are alike.
      by_cases hid : c = id
      · subst hid
        have hbase := mem_localBases_of_primaryBase? h.primaryBase?_eq
        have hknown : ((g.analyze o).get? base).isSome = true := by
          rw [solves_analyze hacyclic o base (mem_ids_of_mem_localBases hbase)]
          rfl
        exact ⟨.inr ⟨_, _, hfacts, hfacts', h.alike_factsOf hbases hknown⟩,
          fun hne => absurd rfl hne⟩
      · have heq := h.outline.frame.factsOf_eq (o := o) hbases (h.others c hid)
        rw [heq] at hfacts'
        exact ⟨.inr ⟨_, _, hfacts, hfacts', .refl _⟩, fun _ => by rw [hfacts, hfacts']⟩
    · have hnone : (g.analyze o).get? c = none := get?_analyze_of_not_mem hc
      have hnone' : (g'.analyze o).get? c = none :=
        get?_analyze_of_not_mem (by rwa [h.outline.frame.ids_eq])
      exact ⟨.inl ⟨hnone, hnone'⟩, fun _ => by rw [hnone, hnone']⟩

end Forwards

/-! ## Narrowed sets and layouts -/

/-- Narrowing looks at what classes always define and at nothing else. -/
theorem SameFrame.narrow_eq (h : g.SameFrame g')
    (hdefined : ∀ c, (known'.get? c).map Facts.alwaysDefined =
      (known.get? c).map Facts.alwaysDefined) : g'.narrow known' = g.narrow known := by
  have hnarrowedBy : g'.narrowedBy known' = g.narrowedBy known := by
    funext narrowed c
    rw [narrowedBy, narrowedBy, h.subclasses_eq, hdefined]
  rw [narrow, narrow, h.waves_eq, hnarrowedBy]

namespace SameOutline

variable (h : g.SameOutline g')

include h

theorem narrow_eq (hdefined : ∀ c, (known'.get? c).map Facts.alwaysDefined =
    (known.get? c).map Facts.alwaysDefined) : g'.narrow known' = g.narrow known :=
  h.frame.narrow_eq hdefined

/-- Layouts do not depend on initializers. -/
theorem planLayouts_eq (guaranteed : ClassId → Name → Bool) :
    g'.planLayouts guaranteed = g.planLayouts guaranteed := by
  have hlayoutOf : g'.layoutOf guaranteed = g.layoutOf guaranteed := by
    funext planned c
    rw [layoutOf, layoutOf, h.frame.primaryBase?_eq, h.frame.localBases_eq,
      h.frame.deletableAttrs_eq, h.frame.isTrait_eq, h.attributes_eq]
  rw [planLayouts, planLayouts, h.frame.waves_eq, hlayoutOf]

end SameOutline

/-! ## Declarations -/

/-- Bases are found by the names of the declarations. -/
theorem resolveBase?_congr {decls decls' : List Declaration}
    (h : decls'.map (·.name) = decls.map (·.name)) : resolveBase? decls' = resolveBase? decls := by
  have hdeclared : declared? decls' = declared? decls := by
    funext name
    have hfind : ∀ decls : List Declaration, decls.findIdx? (·.name = name) =
        (decls.map (·.name)).findIdx? (· = name) := by
      intro decls
      rw [List.findIdx?_map]
      rfl
    rw [declared?, declared?, hfind, hfind, h]
  funext b
  rw [resolveBase?, resolveBase?, hdeclared]

section Declarations

variable {decls : List Declaration} {i : Nat} {d : Declaration}

/-- What is the same of the new declaration is the same of all. -/
theorem map_set_eq {α : Type} (f : Declaration → α) (d' : Declaration) (hd : decls[i]? = some d)
    (hf : f d' = f d) : (decls.set i d').map f = decls.map f := by
  obtain ⟨hlt, rfl⟩ := List.getElem?_eq_some_iff.1 hd
  rw [List.map_set, hf, ← List.getElem_map f (h := by simpa using hlt), List.set_getElem_self]

/-- To give a declaration an initializer changes no other class. -/
theorem classOf_set (hd : decls[i]? = some d) (init : Initializer) :
    classOf (decls.set i (d.withInitializer init)) = classOf decls := by
  have hnames := map_set_eq (·.name) (d.withInitializer init) hd rfl
  funext d'
  rw [classOf, classOf, resolveBase?_congr hnames]

theorem class?_ofDeclarations (decls : List Declaration) (c : ClassId) :
    (ofDeclarations decls).class? c = decls[c.index]?.map (classOf decls) :=
  List.getElem?_map ..

/-- A class that forwards assigns nothing itself, so it has the attributes it has without an
initializer. -/
theorem outline_classOf_forwarding (hnone : d.initializer = none) (callSpan span : Span) :
    (classOf decls (d.withInitializer (.forwarding callSpan span))).outline =
      (classOf decls d).outline := by
  have hattributes :
      allAttributes (d.withInitializer (.forwarding callSpan span)) = allAttributes d := by
    rw [allAttributes, allAttributes, hnone]
    rfl
  rw [classOf, classOf, Class.outline, Class.outline, hattributes]
  rfl

/-- The graph of the changed declarations is the one with a class that forwards. -/
theorem forwards_ofDeclarations (hd : decls[i]? = some d) (hnone : d.initializer = none)
    (hfirst : ((ofDeclarations decls).bases ⟨i⟩).head? = some (.inUnit base))
    (hruns :
      (((ofDeclarations decls).class? base).any fun c => c.isTrait || c.openToForeign) = false)
    (callSpan span : Span) :
    Forwards (ofDeclarations decls)
      (ofDeclarations (decls.set i (d.withInitializer (.forwarding callSpan span)))) ⟨i⟩ base
      (.forwarding callSpan span) where
  outline := by
    show (List.map _ _).map _ = (List.map _ _).map _
    rw [classOf_set hd, List.map_map, List.map_map]
    exact map_set_eq _ _ hd (outline_classOf_forwarding hnone callSpan span)
  others c hc := by
    have hne : i ≠ c.index := fun h => hc (by rw [h])
    rw [class?_ofDeclarations, class?_ofDeclarations, classOf_set hd, List.getElem?_set_ne hne]
  inherits := by
    rw [class?_ofDeclarations, hd]
    exact hnone
  forwards := by
    obtain ⟨hlt, -⟩ := List.getElem?_eq_some_iff.1 hd
    rw [class?_ofDeclarations, List.getElem?_set_self hlt]
    rfl
  first := hfirst
  runs := hruns

end Declarations

end Graph

namespace CompileUnit

variable {names : NameTable} {decls : List Declaration} {i : Nat} {d : Declaration}

/-- A unit can be built whatever the initializers of its classes are. -/
theorem build_set (hd : decls[i]? = some d) (init : Initializer) {u : CompileUnit}
    (hbuild : build names decls = .ok u) :
    build names (decls.set i (d.withInitializer init)) =
      .ok ⟨names, .ofDeclarations (decls.set i (d.withInitializer init)), ∅, ∅⟩ := by
  have hnames := Graph.map_set_eq (·.name) (d.withInitializer init) hd rfl
  unfold build at hbuild ⊢
  rw [List.length_set, hnames]
  split at hbuild
  · simp at hbuild
  · rename_i hcount
    rw [if_neg hcount]
    split at hbuild
    · simp at hbuild
    · rfl

/-- Layouts follow from what classes always define, and not from initializers. -/
theorem layouts_congr {v v' : CompileUnit} (houtline : v.graph.SameOutline v'.graph)
    (hall : ∀ id ∈ v.graph.ids, (v.facts.get? id).isSome = true)
    (hdefined : ∀ id, v'.alwaysDefined? id = v.alwaysDefined? id)
    (hnarrowed : ∀ id, v'.narrowed.get? id = v.narrowed.get? id) (o : Options) :
    v'.layouts o = v.layouts o := by
  have hall' : ∀ id ∈ v'.graph.ids, (v'.facts.get? id).isSome = true := by
    intro id hid
    rw [houtline.frame.ids_eq] at hid
    have hsome := congrArg Option.isSome (hdefined id)
    rwa [alwaysDefined?, alwaysDefined?, Option.isSome_map, Option.isSome_map, hall id hid] at hsome
  have hguaranteed : v'.guaranteed o = v.guaranteed o := by
    funext id attr
    rw [guaranteed, guaranteed, hdefined, hnarrowed]
  rw [layouts_eq_ok hall, layouts_eq_ok hall', houtline.frame.ids_eq, hguaranteed,
    houtline.planLayouts_eq]

section Forwards

variable {u u' : CompileUnit} {id base : ClassId} {callSpan span : Span}
  (h : u.graph.Forwards u'.graph id base (.forwarding callSpan span)) (hacyclic : u.graph.Acyclic)
  (o : Options)

include h hacyclic

theorem alwaysDefined?_analyzed_of_forwards (c : ClassId) :
    (u'.analyzed o).alwaysDefined? c = (u.analyzed o).alwaysDefined? c :=
  (h.analyze_alike hacyclic o c).1.map_alwaysDefined

/-- The narrowed sets are the same. -/
theorem narrowed_analyzed_of_forwards : (u'.analyzed o).narrowed = (u.analyzed o).narrowed := by
  have hnarrow := h.outline.narrow_eq fun c => (h.analyze_alike hacyclic o c).1.map_alwaysDefined
  simp only [analyzed, hnarrow]

/-- The layouts are the same. -/
theorem layouts_analyzed_of_forwards (o' : Options) :
    (u'.analyzed o).layouts o' = (u.analyzed o).layouts o' := by
  have houtline : (u.analyzed o).graph.SameOutline (u'.analyzed o).graph := h.outline
  refine layouts_congr houtline (fun c hc => isSome_get?_analyzed hacyclic hc)
    (alwaysDefined?_analyzed_of_forwards h hacyclic o) (fun c => ?_) o'
  rw [narrowed_analyzed_of_forwards h hacyclic o]

end Forwards

/-- If a class without an initializer, whose first base is of the unit and neither a trait nor open
to foreign classes, is given one that only calls the next in line, the unit is built and analyzed as
before. All classes always define the same in the same order, and narrowed sets and layouts are the
same; all other classes have the very same facts. -/
theorem forwarding_eq_inheriting (names : NameTable) (decls : List Declaration) (u : CompileUnit)
    (hbuild : build names decls = .ok u) (hacyclic : u.graph.Acyclic) (i : Nat) (d : Declaration)
    (hd : decls[i]? = some d) (hnone : d.initializer = none) (base : ClassId)
    (hfirst : (u.graph.bases ⟨i⟩).head? = some (.inUnit base))
    (hruns : ((u.graph.class? base).any fun c => c.isTrait || c.openToForeign) = false)
    (callSpan span : Span) (o : Options) :
    ∃ u' report report' v v',
      build names (decls.set i (d.withInitializer ⟨[.superInit .next [] [] callSpan], span⟩)) =
        .ok u' ∧
      u.analyze o = .ok (report, v) ∧ u'.analyze o = .ok (report', v') ∧
      (∀ id, v'.alwaysDefined? id = v.alwaysDefined? id) ∧
      (∀ id, (v'.facts.get? id).map Facts.compromised = (v.facts.get? id).map Facts.compromised) ∧
      (∀ id, id ≠ ⟨i⟩ → v'.facts.get? id = v.facts.get? id) ∧
      (∀ id, v'.narrowed.get? id = v.narrowed.get? id) ∧
      ∀ o', v'.layouts o' = v.layouts o' := by
  obtain rfl := eq_of_build_eq_ok hbuild
  have h := Graph.forwards_ofDeclarations hd hnone hfirst hruns callSpan span
  refine ⟨_, _, _, _, _, build_set hd (.forwarding callSpan span) hbuild,
    analyze_of_acyclic rfl hacyclic o, analyze_of_acyclic rfl (h.outline.acyclic hacyclic) o,
    alwaysDefined?_analyzed_of_forwards h hacyclic o,
    fun id => (h.analyze_alike hacyclic o id).1.map_compromised,
    fun id => (h.analyze_alike hacyclic o id).2, fun id => ?_,
    layouts_analyzed_of_forwards h hacyclic o⟩
  rw [narrowed_analyzed_of_forwards h hacyclic o]

/-- A class with a default and an attribute that may be deleted, whose initializer assigns it and
lets the receiver escape; a class that inherits that initializer and has a default of its own; and
one that calls it. -/
def inheriting : List Declaration :=
  [((((Declaration.named ⟨20⟩).addAttribute (Attribute.plain ⟨31⟩).asDeletable).addAttribute
        (Attribute.plain ⟨32⟩).withDefault)).withInitializer
      ⟨[.setAttr ⟨30⟩ (.literal .none), .setAttr ⟨31⟩ (.literal .none),
        .run (.callNamed ⟨12⟩ [.receiver])], .empty⟩,
    ((Declaration.named ⟨21⟩).addBase ⟨20⟩).addAttribute (Attribute.plain ⟨33⟩).withDefault,
    ((Declaration.named ⟨22⟩).addBase ⟨21⟩).withInitializer
      ⟨[.callInit .next [], .setAttr ⟨34⟩ (.literal .none)], .empty⟩]

/-- The unit of the three classes. -/
def inheritingUnit : CompileUnit := ⟨.fresh, .ofDeclarations inheriting, ∅, ∅⟩

/-- The class in the middle inherits from a class that is compromised. -/
theorem forwarding_eq_inheriting_compromised : build .fresh inheriting = .ok inheritingUnit ∧
    inheritingUnit.graph.Acyclic ∧
    ∃ u' report report' v v',
      build .fresh (inheriting.set 1 ((((Declaration.named ⟨21⟩).addBase ⟨20⟩).addAttribute
        (Attribute.plain ⟨33⟩).withDefault).withInitializer
          ⟨[.superInit .next [] [] .empty], .empty⟩)) = .ok u' ∧
      inheritingUnit.analyze .default = .ok (report, v) ∧ u'.analyze .default = .ok (report', v') ∧
      v.alwaysDefined? ⟨1⟩ = some (.ofList [⟨33⟩, ⟨32⟩, ⟨30⟩]) ∧
      v'.alwaysDefined? ⟨1⟩ = some (.ofList [⟨33⟩, ⟨32⟩, ⟨30⟩]) ∧
      v'.facts.get? ⟨2⟩ = v.facts.get? ⟨2⟩ := by
  have hbuild : build .fresh inheriting = .ok inheritingUnit := rfl
  have hacyclic : inheritingUnit.graph.Acyclic := Graph.findCycle?_eq_none_iff.1 (by decide +kernel)
  obtain ⟨u', report, report', v, v', hbuild', hanalyze, hanalyze', hdefined, -, hothers, -⟩ :=
    forwarding_eq_inheriting .fresh inheriting inheritingUnit hbuild hacyclic 1 _ rfl rfl ⟨0⟩
      (by decide +kernel) (by decide +kernel) .empty .empty .default
  have hv : v.alwaysDefined? ⟨1⟩ = some (.ofList [⟨33⟩, ⟨32⟩, ⟨30⟩]) := by
    obtain ⟨-, -, -, rfl⟩ := analyze_eq_ok_iff.1 hanalyze
    decide +kernel
  exact ⟨hbuild, hacyclic, u', report, report', v, v', hbuild', hanalyze, hanalyze', hv,
    (hdefined ⟨1⟩).trans hv, hothers ⟨2⟩ (by decide)⟩

end CompileUnit

end DefiniteInit
