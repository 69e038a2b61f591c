import DefiniteInit.Proofs.Credits
import Mathlib.Data.List.Flatten
import Mathlib.Data.List.Perm.Subperm

/-!
# The search for ancestors

The ancestors of a class are found with a stack of classes to be looked at. The stack may grow while
the search goes on, and a class may be put on it many times, by classes that name it twice, by
several classes below it, or round a cycle. `Climb.turn` is one turn of that search, and
`Climb.turns` a number of them.

The search ends. The bases of a class are put on the stack when the class is met, which happens
once, so it takes as many turns as the class and its ancestors have bases (`Graph.turns_ancestors`),
and at most as many as there are bases in the whole unit
(`Graph.length_flatMap_lineage_le`). The classes found are all different, the class itself is not
among them (`Graph.nodup_lineage`), and they are the classes that it derives from
(`Graph.mem_ancestors`).
-/

namespace DefiniteInit

/-- Where a search for ancestors stands: the classes still to be looked at, the next one first, and
those met so far, in the order in which they were met. -/
structure Climb where
  stack : List ClassId
  met : List ClassId

namespace Climb

/-- Looks at the next class. The root and a class met before are passed over; the bases of any
other are to be looked at next. There is no turn when no class is left. -/
def turn (g : Graph) (root : ClassId) : Climb → Option Climb
  | ⟨[], _⟩ => none
  | ⟨next :: rest, met⟩ =>
    if next = root ∨ next ∈ met then some ⟨rest, met⟩
    else some ⟨g.localBases next ++ rest, met ++ [next]⟩

/-- That many turns. -/
def turns (g : Graph) (root : ClassId) : Nat → Climb → Option Climb
  | 0, c => some c
  | n + 1, c => (c.turn g root).bind (turns g root n)

end Climb

namespace Graph

variable {g : Graph} {id c root : ClassId} {stack met : List ClassId} {a : Name}

/-! ## The search ends -/

/-- Of the classes on the stack and the bases of the classes that are still to be met, each takes
one turn. -/
theorem exists_turns_ascend (g : Graph) (root : ClassId) (stack met : List ClassId) :
    ∃ new, g.ascend root stack met = met ++ new ∧
      Climb.turns g root (stack.length + (new.flatMap g.localBases).length) ⟨stack, met⟩ =
        some ⟨[], met ++ new⟩ := by
  -- Every turn takes one class off the stack, and a class met for the first time puts its bases on
  -- it.
  fun_induction ascend g root stack met with
  | case1 met => exact ⟨[], by simp, by simp [Climb.turns]⟩
  | case2 met next rest hseen ih =>
    obtain ⟨new, hmet, hturns⟩ := ih
    refine ⟨new, hmet, ?_⟩
    rw [List.length_cons, Nat.add_right_comm, Climb.turns, Climb.turn, if_pos hseen,
      Option.bind_some, hturns]
  | case3 met next rest hnew ih =>
    obtain ⟨new, hmet, hturns⟩ := ih
    have hcount : (next :: rest).length + ((next :: new).flatMap g.localBases).length =
        (g.localBases next ++ rest).length + (new.flatMap g.localBases).length + 1 := by
      simp only [List.length_cons, List.length_append, List.flatMap_cons]
      omega
    refine ⟨next :: new, by simpa using hmet, ?_⟩
    rw [hcount, Climb.turns, Climb.turn, if_neg hnew, Option.bind_some, hturns]
    simp

/-- The search for the ancestors of a class ends, after as many turns as its lineage names bases. -/
theorem turns_ancestors (g : Graph) (id : ClassId) :
    Climb.turns g id ((g.lineage id).flatMap g.localBases).length ⟨g.localBases id, []⟩ =
      some ⟨[], g.ancestors id⟩ := by
  obtain ⟨new, hmet, hturns⟩ := exists_turns_ascend g id (g.localBases id) []
  obtain rfl : g.ancestors id = new := hmet
  rw [lineage, List.flatMap_cons, List.length_append, hturns, List.nil_append]

/-! ## What it finds -/

/-- No class is met twice. -/
theorem nodup_ascend (hmet : met.Nodup) : (g.ascend root stack met).Nodup := by
  fun_induction ascend g root stack met with
  | case1 met => exact hmet
  | case2 met next rest hseen ih => exact ih hmet
  | case3 met next rest hnew ih =>
    refine ih (hmet.append (List.nodup_singleton next) ?_)
    simpa using fun h => hnew (.inr h)

/-- The search never meets the class it started from. -/
theorem root_not_mem_ascend (hmet : root ∉ met) : root ∉ g.ascend root stack met := by
  fun_induction ascend g root stack met with
  | case1 met => exact hmet
  | case2 met next rest hseen ih => exact ih hmet
  | case3 met next rest hnew ih =>
    refine ih fun h => ?_
    rcases List.mem_append.1 h with h | h
    · exact hmet h
    · exact hnew (.inl (List.mem_singleton.1 h).symm)

/-- A class and its ancestors are all different. -/
theorem nodup_lineage (g : Graph) (id : ClassId) : (g.lineage id).Nodup :=
  List.nodup_cons.2 ⟨root_not_mem_ascend List.not_mem_nil, nodup_ascend List.nodup_nil⟩

/-- The ancestors of a class are the other classes that one base or more lead to. -/
theorem mem_ancestors : c ∈ g.ancestors id ↔
    c ≠ id ∧ Relation.TransGen (fun d base => base ∈ g.localBases d) id c := by
  have hlineage : c = id ∨ c ∈ g.ancestors id ↔ g.DerivesFrom id c :=
    List.mem_cons.symm.trans mem_lineage
  constructor
  · intro h
    have hne : c ≠ id := ne_of_mem_of_not_mem h (List.nodup_cons.1 (g.nodup_lineage id)).1
    have hderives := Relation.reflTransGen_iff_eq_or_transGen.1 (hlineage.1 (.inr h))
    exact ⟨hne, hderives.resolve_left hne⟩
  · rintro ⟨hne, h⟩
    exact (hlineage.2 h.to_reflTransGen).resolve_left hne

/-- A class of the unit derives from classes of the unit only. -/
theorem mem_ids_of_derivesFrom (h : g.DerivesFrom id c) (hid : id ∈ g.ids) : c ∈ g.ids := by
  induction h with
  | refl => exact hid
  | tail _ hbase => exact mem_ids_of_mem_localBases hbase

/-- No base of the unit is looked at twice. -/
theorem length_flatMap_lineage_le (g : Graph) (id : ClassId) :
    ((g.lineage id).flatMap g.localBases).length ≤ (g.ids.flatMap g.localBases).length := by
  by_cases hid : id ∈ g.ids
  · have hsubset : g.lineage id ⊆ g.ids := fun c hc => mem_ids_of_derivesFrom (mem_lineage.1 hc) hid
    obtain ⟨l, hperm, hsub⟩ := (g.nodup_lineage id).subperm hsubset
    rw [← (hperm.flatMap_right g.localBases).length_eq]
    exact (hsub.flatMap g.localBases).length_le
  · have hbases : g.localBases id = [] := localBases_eq_nil_of_not_mem_ids hid
    rw [lineage, ancestors, hbases, ascend, List.flatMap_singleton, hbases]
    exact Nat.zero_le _

/-- The defaults of a class are those declared by the classes it derives from, itself included. -/
theorem mem_defaultedAttrs : a ∈ g.defaultedAttrs id ↔ ∃ c, g.DerivesFrom id c ∧
    ∃ attr ∈ g.attributes c, attr.name = a ∧ attr.isDefaulted = true := by
  simp only [defaultedAttrs, AttrSet.mem_ofList, List.mem_map, List.mem_filter, List.mem_flatMap,
    mem_lineage]
  constructor
  · rintro ⟨attr, ⟨⟨c, hc, hattr⟩, hdefault⟩, rfl⟩
    exact ⟨c, hc, attr, hattr, rfl, hdefault⟩
  · rintro ⟨c, hc, attr, hattr, rfl, hdefault⟩
    exact ⟨attr, ⟨⟨c, hc, hattr⟩, hdefault⟩, rfl⟩

/-- The search for the ancestors of a class comes to an end, round cycles too, after as many turns
as the class and its ancestors have bases. What it has met are the ancestors: all different, and the
classes other than the class itself that one base or more lead to. So properties, defaults and
deletable attributes are those of the class and of all it derives from. -/
theorem ancestors_exact (g : Graph) (id : ClassId) :
    (∃ n ≤ (g.ids.flatMap g.localBases).length, n = ((g.lineage id).flatMap g.localBases).length ∧
      Climb.turns g id n ⟨g.localBases id, []⟩ = some ⟨[], g.ancestors id⟩) ∧
    (g.ancestors id).Nodup ∧
    (∀ c, c ∈ g.ancestors id ↔
      c ≠ id ∧ Relation.TransGen (fun d base => base ∈ g.localBases d) id c) ∧
    (g.lineage id).Nodup ∧ (∀ c, c ∈ g.lineage id ↔ g.DerivesFrom id c) ∧
    (∀ a, a ∈ g.lineageProperties id ↔ ∃ c, g.DerivesFrom id c ∧
      ∃ cls, g.class? c = some cls ∧ a ∈ cls.properties) ∧
    (∀ a, a ∈ g.defaultedAttrs id ↔ ∃ c, g.DerivesFrom id c ∧ ∃ attr ∈ g.attributes c,
      attr.name = a ∧ attr.hasDefault = true ∧ attr.declaredOnly = false) ∧
    ∀ a, a ∈ g.deletableAttrs id ↔ ∃ c, g.DerivesFrom id c ∧ ∃ attr ∈ g.attributes c,
      attr.name = a ∧ attr.deletable = true := by
  refine ⟨⟨_, g.length_flatMap_lineage_le id, rfl, g.turns_ancestors id⟩,
    (List.nodup_cons.1 (g.nodup_lineage id)).2, fun c => mem_ancestors, g.nodup_lineage id,
    fun c => mem_lineage, fun a => mem_lineageProperties, fun a => ?_, fun a => ?_⟩
  · simp only [mem_defaultedAttrs, Attribute.isDefaulted, Bool.and_eq_true, Bool.not_eq_true']
  · simp only [mem_deletableAttrs, letsDelete_eq_true]

end Graph

end DefiniteInit
