import DefiniteInit.Class.Declaration
import DefiniteInit.Proofs.AssignmentPlaces

/-!
# Classes declared call by call

A class is declared by calls, each of which says one thing of it and gives its names as texts. A
text is looked up in a table that grows while the classes are declared, and that others may add to
in the meantime (`ClassCall.make`). What the calls do can as well be read off the table as it is at
the end (`ClassScript.declareAll_eq`), where every text has its name and two texts have different
ones.

What a call changes is said once (`ClassCall.apply_fields`). The bases of a class are those named,
in the order of the calls, its initializer is the one given last
(`ClassScript.declaration_fields`), and an attribute stands where it was first declared, as it was
declared last (`Declaration.lastDeclared_foldl`).
-/

namespace DefiniteInit

/-! ## Names of texts -/

namespace NameTable

variable {t t' : NameTable} {n : Name} {text text' : String}

/-- The name that the table has for a text, or gives it when asked. -/
def nameOf (t : NameTable) (text : String) : Name := (t.intern text).1

/-- The name of a text that is there stands for it. -/
theorem text?_nameOf (h : text ∈ t.texts) : t.text? (t.nameOf text) = some text := by
  have htext : (t.insert text).text? (t.nameOf text) = some text := t.text?_intern text
  rwa [insert_of_mem h] at htext

/-- Texts that are there have different names. -/
theorem nameOf_inj (h : text ∈ t.texts) (h' : text' ∈ t.texts) :
    t.nameOf text = t.nameOf text' ↔ text = text' := by
  refine ⟨fun heq => Option.some.inj ?_, congrArg _⟩
  rw [← text?_nameOf h, heq, text?_nameOf h']

theorem nameOf_eq_of_text? (h : t.text? n = some text) : t.nameOf text = n := by
  have hmem : text ∈ t.texts := List.mem_of_getElem? h
  have hget := get?_of_text? h
  rw [get?, if_pos hmem] at hget
  exact Option.some.inj hget

/-- The name that a text is given is its name from then on. -/
theorem nameOf_mono (h : (t.insert text).texts <+: t'.texts) : t'.nameOf text = t.nameOf text :=
  nameOf_eq_of_text? (text?_mono h (t.text?_intern text))

theorem mem_texts_insertAll {texts : List String} (h : text ∈ texts) :
    text ∈ (t.insertAll texts).texts := by
  obtain ⟨before, after, rfl⟩ := List.append_of_mem h
  rw [insertAll_append]
  refine (prefix_insertAll (t.insertAll before |>.insert text) after).mem ?_
  rw [texts_insert]
  split
  · assumption
  · exact List.mem_append_right _ List.mem_cons_self

end NameTable

/-! ## Calls -/

/-- What is said of a class while it is declared. -/
inductive ClassCall where
  /-- Nothing, but another asks the table for the name of a text. -/
  | intern (text : String)
  /-- It has a base of that name, which is or is not known to come from outside the unit. -/
  | base (text : String) (foreign : Bool)
  /-- It has an attribute, whose name is at hand. -/
  | declare (a : Attribute)
  /-- It has an attribute of that name. -/
  | attr (text : String) (hasDefault deletable declaredOnly : Bool)
  | property (text : String)
  | initializer (init : Initializer)
  | asTrait
  | openToForeign
  | span (s : Span)

namespace ClassCall

/-- The text that has to have a name first. -/
def text? : ClassCall → Option String
  | .intern text | .base text _ | .attr text _ _ _ | .property text => some text
  | .declare _ | .initializer _ | .asTrait | .openToForeign | .span _ => none

/-- What the call makes of a declaration, by the names of a table. -/
def apply (t : NameTable) (d : Declaration) : ClassCall → Declaration
  | .intern _ => d
  | .base text false => d.addBase (t.nameOf text)
  | .base text true => d.addForeignBase (t.nameOf text)
  | .declare a => d.addAttribute a
  | .attr text hasDefault deletable declaredOnly =>
    d.addAttribute ⟨t.nameOf text, hasDefault, deletable, declaredOnly, .reference⟩
  | .property text => d.addProperty (t.nameOf text)
  | .initializer init => d.withInitializer init
  | .asTrait => d.asTrait
  | .openToForeign => d.asOpenToForeign
  | .span s => d.withSpan s

/-- The call as it is made, which leaves the table with its text. -/
def make (st : NameTable × Declaration) (c : ClassCall) : NameTable × Declaration :=
  (st.1.insertAll c.text?.toList, c.apply st.1 st.2)

/-- The base that a call adds. -/
def base? : ClassCall → Option (String × Bool)
  | .base text foreign => some (text, foreign)
  | _ => none

/-- The attribute that a call declares. -/
def attribute? (t : NameTable) : ClassCall → Option Attribute
  | .declare a => some a
  | .attr text hasDefault deletable declaredOnly =>
    some ⟨t.nameOf text, hasDefault, deletable, declaredOnly, .reference⟩
  | _ => none

/-- The initializer that a call gives the class. -/
def initializer? : ClassCall → Option Initializer
  | .initializer init => some init
  | _ => none

variable {t t' : NameTable} {c : ClassCall} {calls : List ClassCall} {d : Declaration}

/-- A later table makes the same of a call. -/
theorem apply_mono (h : (t.insertAll c.text?.toList).texts <+: t'.texts) (d : Declaration) :
    c.apply t' d = c.apply t d := by
  have hname : ∀ text, c.text? = some text → t'.nameOf text = t.nameOf text := by
    intro text htext
    rw [htext] at h
    exact NameTable.nameOf_mono h
  cases c with
  | base text foreign => cases foreign <;> simp only [apply, hname text rfl]
  | attr text => simp only [apply, hname text rfl]
  | property text => simp only [apply, hname text rfl]
  | intern | declare | initializer | asTrait | openToForeign | span => rfl

/-- Calls made one after the other do what they do by the names of any later table. -/
theorem foldl_make (st : NameTable × Declaration)
    (h : (st.1.insertAll (calls.flatMap (·.text?.toList))).texts <+: t'.texts) :
    calls.foldl make st =
      (st.1.insertAll (calls.flatMap (·.text?.toList)), calls.foldl (apply t') st.2) := by
  induction calls generalizing st with
  | nil => rfl
  | cons c calls ih =>
    rw [List.flatMap_cons, NameTable.insertAll_append] at h ⊢
    -- The calls that follow only add texts, so the last table also grew from the one after `c`.
    rw [List.foldl_cons, List.foldl_cons, ih _ h, make,
      apply_mono ((NameTable.prefix_insertAll _ _).trans h)]

/-- What a call changes of a declaration. -/
theorem apply_fields (c : ClassCall) (t : NameTable) (d : Declaration) :
    (c.apply t d).name = d.name ∧
    (c.apply t d).bases = d.bases ++ c.base?.toList.map (fun b => ⟨t.nameOf b.1, b.2⟩) ∧
    (c.apply t d).attributes = (c.attribute? t).toList.foldl Declaration.declare d.attributes ∧
    (c.apply t d).initializer = c.initializer?.or d.initializer := by
  cases c with
  | base text foreign => cases foreign <;> exact ⟨rfl, rfl, rfl, (Option.none_or).symm⟩
  | property text =>
    simp only [apply, Declaration.addProperty]
    split <;> exact ⟨rfl, (List.append_nil _).symm, rfl, Option.none_or.symm⟩
  | initializer init => exact ⟨rfl, (List.append_nil _).symm, rfl, rfl⟩
  | _ => exact ⟨rfl, (List.append_nil _).symm, rfl, Option.none_or.symm⟩

end ClassCall

/-- A class, and what is said of it. -/
structure ClassScript where
  name : String
  calls : List ClassCall

namespace ClassScript

variable {t t' : NameTable}

/-- The texts that have names once the class is declared. -/
def texts (s : ClassScript) : List String := s.name :: s.calls.flatMap (·.text?.toList)

/-- Declares the class. -/
def declare (t : NameTable) (s : ClassScript) : NameTable × Declaration :=
  s.calls.foldl ClassCall.make (t.insert s.name, .named (t.nameOf s.name))

/-- Declares one more class. -/
def declareNext (st : NameTable × List Declaration) (s : ClassScript) :
    NameTable × List Declaration :=
  ((s.declare st.1).1, st.2 ++ [(s.declare st.1).2])

/-- Declares the classes one after the other. -/
def declareAll (t : NameTable) (scripts : List ClassScript) : NameTable × List Declaration :=
  scripts.foldl declareNext (t, [])

/-- The bases of the class, and which of them are known to come from outside. -/
def bases (s : ClassScript) : List (String × Bool) := s.calls.filterMap ClassCall.base?

/-- The attributes that are declared, as often as they are. -/
def attributes (t : NameTable) (s : ClassScript) : List Attribute :=
  s.calls.filterMap (ClassCall.attribute? t)

/-- The initializer that was given last. -/
def initializer? (s : ClassScript) : Option Initializer :=
  (s.calls.filterMap ClassCall.initializer?).getLast?

/-- The declaration, by the names of a table. -/
def declaration (t : NameTable) (s : ClassScript) : Declaration :=
  s.calls.foldl (ClassCall.apply t) (.named (t.nameOf s.name))

/-- Calls one after the other declare what all of them say, with names from any later table. -/
theorem declare_eq {s : ClassScript} (h : (t.insertAll s.texts).texts <+: t'.texts) :
    s.declare t = (t.insertAll s.texts, s.declaration t') := by
  have hname : t'.nameOf s.name = t.nameOf s.name :=
    NameTable.nameOf_mono ((NameTable.prefix_insertAll (t.insert s.name) _).trans h)
  rw [declare, declaration, hname]
  exact ClassCall.foldl_make _ h

/-- So do the calls for all classes. -/
theorem foldl_declareNext {scripts : List ClassScript} (st : NameTable × List Declaration)
    (h : (st.1.insertAll (scripts.flatMap texts)).texts <+: t'.texts) :
    scripts.foldl declareNext st =
      (st.1.insertAll (scripts.flatMap texts), st.2 ++ scripts.map (declaration t')) := by
  induction scripts generalizing st with
  | nil => simp [NameTable.insertAll]
  | cons s scripts ih =>
    rw [List.flatMap_cons, NameTable.insertAll_append] at h ⊢
    have hs := declare_eq ((NameTable.prefix_insertAll _ _).trans h)
    rw [List.foldl_cons, declareNext, hs, ih _ h, List.map_cons, List.append_assoc,
      List.singleton_append]

/-- All that is declared can be read off the table as it is at the end. -/
theorem declareAll_eq (t : NameTable) (scripts : List ClassScript) :
    declareAll t scripts = (t.insertAll (scripts.flatMap texts),
      scripts.map (declaration (t.insertAll (scripts.flatMap texts)))) :=
  foldl_declareNext (t, []) (List.prefix_refl _)

/-- A declaration has the name, the bases, the attributes and the last initializer of its calls. -/
theorem declaration_fields (t : NameTable) (s : ClassScript) :
    (s.declaration t).name = t.nameOf s.name ∧
    (s.declaration t).bases = s.bases.map (fun b => ⟨t.nameOf b.1, b.2⟩) ∧
    (s.declaration t).attributes = (s.attributes t).foldl Declaration.declare [] ∧
    (s.declaration t).initializer = s.initializer? := by
  obtain ⟨name, calls⟩ := s
  -- The induction is on the calls from the last one back, as each is made on what those before have
  -- left.
  induction calls using List.reverseRecOn with
  | nil => exact ⟨rfl, rfl, rfl, rfl⟩
  | append_singleton calls c ih =>
    obtain ⟨hname, hbases, hattributes, hinit⟩ := ih
    obtain ⟨hname', hbases', hattributes', hinit'⟩ :=
      c.apply_fields t (declaration t ⟨name, calls⟩)
    have hcall : declaration t ⟨name, calls ++ [c]⟩ = c.apply t (declaration t ⟨name, calls⟩) :=
      List.foldl_append
    have hsingle : ∀ {β : Type} (f : ClassCall → Option β), [c].filterMap f = (f c).toList :=
      fun f => by rw [List.filterMap_eq_flatMap_toList, List.flatMap_singleton]
    rw [hcall]
    refine ⟨hname'.trans hname, ?_, ?_, ?_⟩
    · rw [hbases', hbases, bases, bases, List.filterMap_append, hsingle, List.map_append]
    · rw [hattributes', hattributes, attributes, attributes, List.filterMap_append, hsingle,
        List.foldl_append]
    · rw [hinit', hinit, initializer?, initializer?, List.filterMap_append, hsingle,
        List.getLast?_append]
      cases c.initializer? <;> rfl

end ClassScript

/-! ## Attributes declared again -/

/-- What stands of attributes declared one after the other: every name where it came first, as it
was declared last. -/
structure LastDeclared (declared standing : List Attribute) : Prop where
  names : standing.map (·.name) = (declared.map (·.name)).eraseDups
  last : ∀ a ∈ standing, ∃ before after, declared = before ++ a :: after ∧
    ∀ b ∈ after, b.name ≠ a.name

theorem nodup_eraseDups_names (names : List Name) : names.eraseDups.Nodup :=
  AttrSet.toList_ofList names ▸ (AttrSet.ofList names).nodup

namespace Declaration

/-- To declare an attribute again leaves it where it is. -/
theorem names_declare (l : List Attribute) (a : Attribute) : (declare l a).map (·.name) =
    if a.name ∈ l.map (·.name) then l.map (·.name) else l.map (·.name) ++ [a.name] := by
  induction l with
  | nil => rfl
  | cons b l ih =>
    rw [declare]
    by_cases hb : b.name = a.name
    · simp [hb]
    · rw [if_neg hb, List.map_cons, ih]
      by_cases ha : a.name ∈ l.map (·.name) <;> simp [ha, Ne.symm hb]

/-- An attribute that is declared again replaces the one before. -/
theorem mem_declare {l : List Attribute} {a b : Attribute} (hnodup : (l.map (·.name)).Nodup)
    (h : b ∈ declare l a) : b = a ∨ b ∈ l ∧ b.name ≠ a.name := by
  induction l with
  | nil => exact .inl (List.mem_singleton.1 h)
  | cons c l ih =>
    obtain ⟨hc, hl⟩ := List.nodup_cons.1 hnodup
    rw [declare] at h
    split at h
    · -- The name is taken over, and no attribute further on has it.
      rename_i hname
      refine (List.mem_cons.1 h).imp_right fun hb => ⟨List.mem_cons_of_mem _ hb, fun heq => ?_⟩
      exact hc (List.mem_map.2 ⟨b, hb, heq.trans hname.symm⟩)
    · rename_i hname
      rcases List.mem_cons.1 h with rfl | hb
      · exact .inr ⟨List.mem_cons_self, hname⟩
      · exact (ih hl hb).imp_right fun h => ⟨List.mem_cons_of_mem _ h.1, h.2⟩

/-- Of attributes declared more than once the last declaration counts, at the place of the first. -/
theorem lastDeclared_foldl (declared : List Attribute) :
    LastDeclared declared (declared.foldl declare []) := by
  induction declared using List.reverseRecOn with
  | nil => exact ⟨rfl, by simp⟩
  | append_singleton declared a ih =>
    rw [List.foldl_append, List.foldl_cons, List.foldl_nil]
    refine ⟨?_, fun b hb => ?_⟩
    · rw [names_declare, List.map_append, List.map_singleton, eraseDups_concat, ih.names]
      simp only [List.mem_eraseDups]
    · have hnodup := ih.names ▸ nodup_eraseDups_names _
      rcases mem_declare hnodup hb with rfl | ⟨hb, hne⟩
      · exact ⟨declared, [], rfl, by simp⟩
      · obtain ⟨before, after, rfl, hafter⟩ := ih.last b hb
        refine ⟨before, after ++ [a], by simp, fun c hc => ?_⟩
        rcases List.mem_append.1 hc with hc | hc
        · exact hafter c hc
        · exact List.mem_singleton.1 hc ▸ hne.symm

end Declaration

end DefiniteInit
