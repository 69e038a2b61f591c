import DefiniteInit.Proofs.NameTables
import DefiniteInit.Stmt.Assigned
import Mathlib.Tactic.Choose

/-!
# Where a body assigns

A place in a statement says which part of the statement, which target or statement of that part,
and so on down to an attribute of the receiver. Places are lists of numbers, and one place comes
before another in the text if it does in the order of the dictionary. `Stmt.AssignsAt` says which
attributes a statement assigns at which places.

The attributes that a body assigns are listed place by place (`Stmt.isListing_block`). What is left
when every attribute is listed once is in the order in which the text first assigns them
(`inTextOrder_assignedAttrs`).
-/

namespace DefiniteInit

/-! ## Listings -/

/-- The names that stand at the places, from the first place to the last. -/
def IsListing (At : List Nat → Name → Prop) (names : List Name) : Prop :=
  ∃ places : List (List Nat × Name), places.map Prod.snd = names ∧
    places.Pairwise (fun x y => x.1 < y.1) ∧ ∀ p a, (p, a) ∈ places ↔ At p a

/-- What stands at a place in one element of a list, at the place made of the two. -/
def InTurn {β : Type} (l : List β) (At : β → List Nat → Name → Prop) (p : List Nat) (a : Name) :
    Prop :=
  ∃ i b q, p = i :: q ∧ l[i]? = some b ∧ At b q a

/-- A listing depends on the places alone. -/
theorem IsListing.congr {At At' : List Nat → Name → Prop} {names : List Name}
    (h : IsListing At names) (hiff : ∀ p a, At p a ↔ At' p a) : IsListing At' names := by
  obtain ⟨places, hnames, hsorted, hmem⟩ := h
  exact ⟨places, hnames, hsorted, fun p a => (hmem p a).trans (hiff p a)⟩

theorem isListing_nil {At : List Nat → Name → Prop} (h : ∀ p a, ¬At p a) : IsListing At [] :=
  ⟨[], rfl, .nil, by simpa using h⟩

/-- Listings of the elements, one after the other, list the whole. -/
theorem IsListing.flatMap {β : Type} {l : List β} {At : β → List Nat → Name → Prop}
    {f : β → List Name} (h : ∀ b ∈ l, IsListing (At b) (f b)) :
    IsListing (InTurn l At) (l.flatMap f) := by
  -- A place in the whole is the number of the part and the place in it.
  choose! places hnames hsorted hmem using h
  refine ⟨l.zipIdx.flatMap fun x => (places x.1).map fun y => (x.2 :: y.1, y.2), ?_, ?_, ?_⟩
  · have hf : ∀ x ∈ l.zipIdx,
        ((places x.1).map fun y => (x.2 :: y.1, y.2)).map Prod.snd = f x.1 := by
      intro x hx
      rw [← hnames x.1 (List.fst_mem_of_mem_zipIdx hx), List.map_map]
      rfl
    rw [List.map_flatMap, List.flatMap_congr hf, ← List.flatMap_map, List.zipIdx_map_fst]
  · refine List.pairwise_flatMap.2 ⟨fun x hx => ?_, ?_⟩
    · refine List.pairwise_map.2 ((hsorted x.1 (List.fst_mem_of_mem_zipIdx hx)).imp fun h => ?_)
      exact List.cons_lt_cons_iff.2 (.inr ⟨rfl, h⟩)
    -- Places in different parts are in the order of the parts.
    · have hindex : (l.zipIdx.map Prod.snd).Pairwise (· < ·) := by
        rw [List.zipIdx_map_snd]
        exact List.pairwise_lt_range'
      refine (List.pairwise_map.1 hindex).imp fun hlt y hy z hz => ?_
      obtain ⟨y, -, rfl⟩ := List.mem_map.1 hy
      obtain ⟨z, -, rfl⟩ := List.mem_map.1 hz
      exact List.cons_lt_cons_iff.2 (.inl hlt)
  · intro p a
    simp only [List.mem_flatMap, List.mem_map, Prod.mk.injEq, Prod.exists]
    constructor
    · rintro ⟨b, i, hb, q, a, hq, rfl, rfl⟩
      have hget := List.mk_mem_zipIdx_iff_getElem?.1 hb
      exact ⟨i, b, q, rfl, hget, (hmem b (List.mem_of_getElem? hget) q a).1 hq⟩
    · rintro ⟨i, b, q, rfl, hget, hq⟩
      exact ⟨b, i, List.mk_mem_zipIdx_iff_getElem?.2 hget, q, a,
        (hmem b (List.mem_of_getElem? hget) q a).2 hq, rfl, rfl⟩

/-- Of two names, each listed once, the one before stands somewhere before the other does
anywhere. -/
theorem pairwise_eraseDups_listing {places : List (List Nat × Name)}
    (hsorted : places.Pairwise fun x y => x.1 < y.1) :
    (places.map Prod.snd).eraseDups.Pairwise fun a b =>
      ∃ p, (p, a) ∈ places ∧ ∀ q, (q, b) ∈ places → p < q := by
  -- The last place comes after all others, so it takes nothing from what was first before.
  induction places using List.reverseRecOn with
  | nil => exact .nil
  | append_singleton places last ih =>
    obtain ⟨p, a⟩ := last
    obtain ⟨hbefore, -, hlast⟩ := List.pairwise_append.1 hsorted
    have hkeep : (places.map Prod.snd).eraseDups.Pairwise fun b c =>
        ∃ q, (q, b) ∈ places ++ [(p, a)] ∧ ∀ r, (r, c) ∈ places ++ [(p, a)] → q < r := by
      refine (ih hbefore).imp fun {b c} ⟨q, hq, hfirst⟩ => ⟨q, List.mem_append_left _ hq, ?_⟩
      intro r hr
      rcases List.mem_append.1 hr with hr | hr
      · exact hfirst r hr
      · exact (Prod.mk.inj (List.mem_singleton.1 hr)).1 ▸ hlast _ hq _ List.mem_cons_self
    rw [List.map_append, List.map_singleton, eraseDups_concat]
    split
    · exact hkeep
    · rename_i hnew
      refine List.pairwise_append.2 ⟨hkeep, List.pairwise_singleton _ _, fun b hb c hc => ?_⟩
      obtain rfl := List.mem_singleton.1 hc
      obtain ⟨⟨q, b⟩, hq, rfl⟩ := List.mem_map.1 (List.mem_eraseDups.1 hb)
      refine ⟨q, List.mem_append_left _ hq, fun r hr => ?_⟩
      rcases List.mem_append.1 hr with hr | hr
      · exact absurd (List.mem_map.2 ⟨_, hr, rfl⟩) hnew
      · exact (Prod.mk.inj (List.mem_singleton.1 hr)).1 ▸ hlast _ hq _ List.mem_cons_self

/-! ## Targets -/

namespace Target

/-- The target names the attribute of the receiver at that place in it. -/
inductive NamesAt : Target → List Nat → Name → Prop
  | here {a : Name} {span : Span} : NamesAt (.selfAttr a span) [] a
  | element {elements : List Target} {span : Span} {i : Nat} {t : Target} {p : List Nat} {a : Name}
      (ht : elements[i]? = some t) (h : NamesAt t p a) : NamesAt (.tuple elements span) (i :: p) a

theorem assignedAll_eq_flatMap (ts : List Target) : assignedAll ts = ts.flatMap assigned := by
  induction ts with
  | nil => rfl
  | cons t ts ih => rw [assignedAll, ih, List.flatMap_cons]

theorem assignedAll_filterMap_target (items : List WithItem) :
    assignedAll (items.filterMap (·.target)) = items.flatMap WithItem.assigned := by
  induction items with
  | nil => rfl
  | cons item items ih =>
    rw [List.flatMap_cons, ← ih]
    cases htarget : item.target <;> simp [WithItem.assigned, htarget, assignedAll]

mutual

/-- The attributes of a target are listed from left to right. -/
theorem isListing_target : ∀ t : Target, IsListing t.NamesAt t.assigned
  | .selfAttr attr span => by
    refine ⟨[([], attr)], rfl, List.pairwise_singleton _ _, fun p a => ?_⟩
    simp only [List.mem_singleton, Prod.mk.injEq]
    constructor
    · rintro ⟨rfl, rfl⟩
      exact .here
    · rintro ⟨⟩
      exact ⟨rfl, rfl⟩
  | .tuple elements span => by
    rw [assigned, assignedAll_eq_flatMap]
    refine (IsListing.flatMap (isListing_targets elements)).congr fun p a => ?_
    constructor
    · rintro ⟨i, t, q, rfl, ht, h⟩
      exact .element ht h
    · rintro ⟨⟩
      exact ⟨_, _, _, rfl, ‹_›, ‹_›⟩
  | .self _ | .name _ _ | .attribute _ _ _ | .subscript _ _ _ =>
    isListing_nil fun _ _ h => nomatch h

theorem isListing_targets : ∀ ts : List Target, ∀ t ∈ ts,
    IsListing t.NamesAt t.assigned
  | [] => by simp
  | t :: ts => List.forall_mem_cons.2 ⟨isListing_target t, isListing_targets ts⟩

end

end Target

/-! ## Statements -/

/-- What stands one after the other in a statement. -/
inductive Part where
  /-- Targets that it assigns. -/
  | targets (targets : List Target)
  | block (body : List Stmt)

namespace Stmt

/-- The parts of a statement in which attributes can be assigned, in the order of the text. -/
def parts : Stmt → List Part
  | .assign targets _ _ => [.targets targets]
  | .ifElse _ body orelse _ | .whileLoop _ body orelse _ => [.block body, .block orelse]
  | .forLoop target _ body orelse _ => [.targets [target], .block body, .block orelse]
  | .tryBlock body handlers orelse final _ =>
    .block body :: (handlers.map (.block ·.body) ++ [.block orelse, .block final])
  | .withBlock items body _ => [.targets (items.filterMap (·.target)), .block body]
  | _ => []

/-- The statement assigns the attribute at that place in it. -/
inductive AssignsAt : Stmt → List Nat → Name → Prop
  | target {s : Stmt} {i j : Nat} {ts : List Target} {t : Target} {p : List Nat} {a : Name}
      (hpart : s.parts[i]? = some (.targets ts)) (ht : ts[j]? = some t) (h : t.NamesAt p a) :
      AssignsAt s (i :: j :: p) a
  | block {s s' : Stmt} {i j : Nat} {body : List Stmt} {p : List Nat} {a : Name}
      (hpart : s.parts[i]? = some (.block body)) (hs' : body[j]? = some s')
      (h : AssignsAt s' p a) : AssignsAt s (i :: j :: p) a

end Stmt

namespace Part

/-- The attributes of the receiver that are assigned in a part. -/
def assigned : Part → List Name
  | .targets ts => Target.assignedAll ts
  | .block body => Stmt.assignedAll body

/-- The attribute is assigned at that place in the part. -/
def AssignsAt : Part → List Nat → Name → Prop
  | .targets ts => InTurn ts Target.NamesAt
  | .block body => InTurn body Stmt.AssignsAt

theorem isListing_targets (ts : List Target) :
    IsListing (AssignsAt (.targets ts)) (assigned (.targets ts)) := by
  rw [assigned, Target.assignedAll_eq_flatMap]
  exact IsListing.flatMap (Target.isListing_targets ts)

end Part

namespace Stmt

theorem assignedAll_eq_flatMap (ss : List Stmt) : assignedAll ss = ss.flatMap assigned := by
  induction ss with
  | nil => rfl
  | cons s ss ih => rw [assignedAll, ih, List.flatMap_cons]

theorem assignedHandlers_eq_flatMap (hs : List Handler) :
    assignedHandlers hs = hs.flatMap fun h => assignedAll h.body := by
  induction hs with
  | nil => rfl
  | cons h hs ih =>
    obtain ⟨type, name, body, span⟩ := h
    rw [assignedHandlers, ih, List.flatMap_cons]

/-- The attributes of a statement are those of its parts in turn. -/
theorem assigned_eq_flatMap (s : Stmt) : s.assigned = s.parts.flatMap Part.assigned := by
  cases s with
  | tryBlock body handlers orelse final span =>
    simp [assigned, parts, Part.assigned, assignedHandlers_eq_flatMap, List.flatMap_map]
  | withBlock items body span =>
    simp [assigned, parts, Part.assigned, Target.assignedAll_filterMap_target]
  | forLoop target source body orelse span =>
    simp [assigned, parts, Part.assigned, Target.assignedAll]
  | _ => simp [assigned, parts, Part.assigned]

/-- A statement assigns at a place in one of its parts. -/
theorem assignsAt_iff {s : Stmt} {p : List Nat} {a : Name} :
    s.AssignsAt p a ↔ InTurn s.parts Part.AssignsAt p a := by
  constructor
  · rintro (⟨hpart, ht, h⟩ | ⟨hpart, hs', h⟩)
    · exact ⟨_, _, _, rfl, hpart, _, _, _, rfl, ht, h⟩
    · exact ⟨_, _, _, rfl, hpart, _, _, _, rfl, hs', h⟩
  · rintro ⟨i, part, q, rfl, hpart, hq⟩
    cases part with
    | targets ts =>
      obtain ⟨j, t, r, rfl, ht, h⟩ := hq
      exact .target hpart ht h
    | block body =>
      obtain ⟨j, s', r, rfl, hs', h⟩ := hq
      exact .block hpart hs' h

/-- A statement is listed if its parts are. -/
theorem isListing_of_parts {s : Stmt}
    (h : ∀ part ∈ s.parts, IsListing part.AssignsAt part.assigned) :
    IsListing s.AssignsAt s.assigned := by
  rw [assigned_eq_flatMap]
  exact (IsListing.flatMap h).congr fun p a => assignsAt_iff.symm

mutual

/-- The attributes of a statement are listed in the order of the text, by induction on its parts. -/
theorem isListing_stmt : ∀ s : Stmt, IsListing s.AssignsAt s.assigned
  | .assign targets _ _ =>
    isListing_of_parts (List.forall_mem_singleton.2 (Part.isListing_targets targets))
  | .ifElse _ body orelse _ | .whileLoop _ body orelse _ =>
    isListing_of_parts (List.forall_mem_cons.2 ⟨isListing_block body,
      List.forall_mem_singleton.2 (isListing_block orelse)⟩)
  | .forLoop target _ body orelse _ =>
    isListing_of_parts (List.forall_mem_cons.2 ⟨Part.isListing_targets [target],
      List.forall_mem_cons.2 ⟨isListing_block body,
        List.forall_mem_singleton.2 (isListing_block orelse)⟩⟩)
  | .tryBlock body handlers orelse final _ =>
    isListing_of_parts (List.forall_mem_cons.2 ⟨isListing_block body,
      List.forall_mem_append.2 ⟨by
        simpa using isListing_handlers handlers,
        List.forall_mem_cons.2 ⟨isListing_block orelse,
          List.forall_mem_singleton.2 (isListing_block final)⟩⟩⟩)
  | .withBlock items body _ =>
    isListing_of_parts (List.forall_mem_cons.2 ⟨Part.isListing_targets _,
      List.forall_mem_singleton.2 (isListing_block body)⟩)
  | .eval _ _ | .ret _ _ | .raise _ _ _ | .assertion _ _ _ | .superInit _ _ _ _ | .rebindSelf _ _
  | .delete _ _ | .nestedDef _ _ _ | .pass _ | .breakLoop _ | .continueLoop _
  | .unsupported _ => isListing_of_parts (List.forall_mem_nil _)

theorem isListing_stmts : ∀ ss : List Stmt, ∀ s ∈ ss,
    IsListing s.AssignsAt s.assigned
  | [] => by simp
  | s :: ss => List.forall_mem_cons.2 ⟨isListing_stmt s, isListing_stmts ss⟩

/-- So are those of a block. -/
theorem isListing_block (ss : List Stmt) :
    IsListing (Part.AssignsAt (.block ss)) (Part.assigned (.block ss)) := by
  rw [Part.assigned, assignedAll_eq_flatMap]
  exact IsListing.flatMap (isListing_stmts ss)

theorem isListing_handlers : ∀ hs : List Handler, ∀ h ∈ hs,
    IsListing (Part.AssignsAt (.block h.body)) (Part.assigned (.block h.body))
  | [] => by simp
  | ⟨_, _, body, _⟩ :: hs => List.forall_mem_cons.2 ⟨isListing_block body, isListing_handlers hs⟩

end

end Stmt

/-! ## Every attribute once -/

theorem AttrSet.toList_ofList (names : List Name) :
    (AttrSet.ofList names).toList = names.eraseDups := by
  induction names using List.reverseRecOn with
  | nil => rfl
  | append_singleton names a ih =>
    have hstep : AttrSet.ofList (names ++ [a]) = (AttrSet.ofList names).insert a := by
      simp only [ofList, insertAll, List.foldl_append, List.foldl_cons, List.foldl_nil]
    rw [hstep, eraseDups_concat, ← ih]
    split
    · rw [insert_of_mem (mem_ofList.2 ‹_›)]
    · rw [toList_insert_of_not_mem (mt mem_ofList.1 ‹_›)]

/-- The attributes that a body assigns, each once and in the order in which the text first assigns
them. -/
structure InTextOrder (body : List Stmt) (names : List Name) : Prop where
  nodup : names.Nodup
  mem_iff : ∀ a, a ∈ names ↔ ∃ p, InTurn body Stmt.AssignsAt p a
  order : names.Pairwise fun a b => ∃ p, InTurn body Stmt.AssignsAt p a ∧
    ∀ q, InTurn body Stmt.AssignsAt q b → p < q

/-- Each attribute is listed once, where it is assigned first. -/
theorem inTextOrder_assignedAttrs (body : List Stmt) :
    InTextOrder body (assignedAttrs body).toList := by
  obtain ⟨places, hnames, hsorted, hmem⟩ : IsListing (InTurn body Stmt.AssignsAt) _ :=
    Stmt.isListing_block body
  have hlist : (assignedAttrs body).toList = (places.map Prod.snd).eraseDups := by
    rw [hnames]
    exact AttrSet.toList_ofList _
  refine ⟨(assignedAttrs body).nodup, fun a => ?_, ?_⟩
  · simp [hlist, ← hmem]
  · simpa only [hlist, hmem] using pairwise_eraseDups_listing hsorted

end DefiniteInit
