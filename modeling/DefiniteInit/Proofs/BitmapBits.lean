import DefiniteInit.Proofs.Narrowing
import DefiniteInit.Proofs.SlotTables
import Mathlib.Order.Bounds.Basic

/-!
# Bits of the bitmap

A slot that gets a bit gets the next one. It may lose it, when a subclass boxes its copy of the
slot, but then the bit is not given to another: the number of bits of a layout only grows. So the
bits of a layout are distinct and below that number (`Layout.DistinctBits`), by whatever way its
slots have come to it.

The bits of a class above those of its primary base are those of the slots that are new in it
(`Layout.TakesBits`). None of these is lost within the class. A slot that it takes over is boxed
from the start if it lets the attribute be deleted, and one that it makes has a bit only if it
always defines the attribute, which no class does that lets it be deleted.
-/

namespace DefiniteInit

/-- The bit of a slot that has one. -/
def Storage.bit? : Storage → Option Nat
  | .unboxedWithBitmap bit => some bit
  | _ => none

/-! ## Layouts -/

namespace Layout

variable {l above : Layout} {deletables : AttrSet} {name : Name} {owner id : ClassId}
  {repr : ValueRepr} {defined deletable : Bool} {bit : Nat}

/-- The bits of the slots that have one. -/
def bits (l : Layout) : List Nat := l.slots.filterMap (·.storage.bit?)

/-- Only an attribute that is always defined and never deleted gets a bit, and that is the next one.
-/
theorem eq_of_bit?_newStorage (h : (l.newStorage repr defined deletable).bit? = some bit) :
    bit = l.bitmapBits ∧ defined = true ∧ deletable = false := by
  unfold newStorage at h
  split at h
  · rename_i hkept
    cases repr with
    | reference => simp [Storage.bit?] at h
    | overlapping => exact ⟨(Option.some.inj h).symm, by simpa using hkept⟩
  · simp [Storage.bit?] at h

/-- A new slot adds its bit, if it has one, at the end. -/
theorem bits_place : (l.place name owner repr defined deletable).bits =
    l.bits ++ (l.newStorage repr defined deletable).bit?.toList := by
  rw [bits, slots_place, List.filterMap_append, bits]
  cases h : (l.newStorage repr defined deletable).bit? <;> simp [h]

theorem bitmapBits_place : (l.place name owner repr defined deletable).bitmapBits =
    l.bitmapBits + (l.newStorage repr defined deletable).bit?.toList.length := by
  unfold place newStorage
  split
  · cases repr <;> rfl
  · rfl

/-- To box a slot takes its bit away. -/
theorem bits_boxSlot : (l.boxSlot name id).bits =
    (l.slots.filter (·.name ≠ name)).filterMap (·.storage.bit?) := by
  rw [bits, boxSlot, List.filterMap_map, List.filterMap_filter]
  refine List.filterMap_congr fun slot _ => ?_
  by_cases hname : slot.name = name <;> simp [hname, Storage.bit?]

/-- No two slots have the same bit, all bits have been counted, and there are no more than
slots. -/
structure DistinctBits (l : Layout) : Prop where
  nodup : l.bits.Nodup
  lt : ∀ bit ∈ l.bits, bit < l.bitmapBits
  le_length : l.bitmapBits ≤ l.slots.length

theorem distinctBits_empty : empty.DistinctBits :=
  ⟨List.nodup_nil, by simp [bits, empty], Nat.le_refl 0⟩

/-- A new slot gets a bit that no other has. -/
theorem DistinctBits.place (h : l.DistinctBits) :
    (l.place name owner repr defined deletable).DistinctBits := by
  have hlength : (l.place name owner repr defined deletable).slots.length = l.slots.length + 1 := by
    simp [slots_place]
  have hle := h.le_length
  cases hbit : (l.newStorage repr defined deletable).bit? with
  | none =>
    have hbits : (l.place name owner repr defined deletable).bits = l.bits := by
      simp [bits_place, hbit]
    have hcount : (l.place name owner repr defined deletable).bitmapBits = l.bitmapBits := by
      simp [bitmapBits_place, hbit]
    exact ⟨hbits ▸ h.nodup, by rw [hbits, hcount]; exact h.lt, by omega⟩
  | some bit =>
    obtain ⟨rfl, -⟩ := eq_of_bit?_newStorage hbit
    have hbits : (l.place name owner repr defined deletable).bits = l.bits ++ [l.bitmapBits] := by
      simp [bits_place, hbit]
    have hcount : (l.place name owner repr defined deletable).bitmapBits = l.bitmapBits + 1 := by
      simp [bitmapBits_place, hbit]
    -- The new bit is the number of bits so far, which is above all of them.
    have hnew : l.bitmapBits ∉ l.bits := fun hmem => Nat.lt_irrefl _ (h.lt _ hmem)
    refine ⟨?_, fun bit hmem => ?_, by omega⟩
    · rw [hbits]
      exact h.nodup.append (List.nodup_singleton _) (by simpa using hnew)
    · rw [hbits, List.mem_append, List.mem_singleton] at hmem
      rw [hcount]
      rcases hmem with hmem | rfl
      · exact Nat.lt_succ_of_lt (h.lt bit hmem)
      · exact Nat.lt_succ_self _

/-- To box a slot leaves the bits of the others distinct. -/
theorem DistinctBits.boxSlot (h : l.DistinctBits) : (l.boxSlot name id).DistinctBits := by
  have hsub : (l.boxSlot name id).bits.Sublist l.bits := by
    rw [bits_boxSlot]
    exact List.filter_sublist.filterMap _
  exact ⟨h.nodup.sublist hsub, fun bit hmem => h.lt bit (hsub.subset hmem),
    by simpa [Layout.boxSlot] using h.le_length⟩

/-- The slot has a bit, and there is none of its name above. -/
def isNewBit (above : Layout) (slot : Slot) : Bool :=
  slot.name ∉ above.names && slot.storage.bit?.isSome

/-- The layout has the names of the one above and counts, beside the bits of that one, those of its
new slots. No new slot of an attribute that may be deleted has a bit. -/
structure TakesBits (above : Layout) (deletables : AttrSet) (l : Layout) : Prop where
  names : above.names ⊆ l.names
  bitmapBits : l.bitmapBits = above.bitmapBits + l.slots.countP above.isNewBit
  kept : ∀ slot ∈ l.slots, above.isNewBit slot = true → slot.name ∉ deletables

theorem takesBits_refl (above : Layout) (deletables : AttrSet) :
    above.TakesBits deletables above := by
  have hnone : ∀ slot ∈ above.slots, ¬above.isNewBit slot = true := fun slot hslot hnew => by
    have hname : slot.name ∈ above.names := List.mem_map_of_mem hslot
    simp [isNewBit, hname] at hnew
  exact ⟨List.Subset.refl _, by rw [List.countP_eq_zero.2 hnone, Nat.add_zero],
    fun slot hslot hnew => absurd hnew (hnone slot hslot)⟩

/-- A new slot is counted if it has a bit. -/
theorem TakesBits.place (h : above.TakesBits deletables l) (hnew : ¬(l.slot? name).isSome = true)
    (hkept : defined = true → deletable = false → name ∉ deletables) :
    above.TakesBits deletables (l.place name owner repr defined deletable) := by
  -- The slot is new in the layout, so it is none of those of the base.
  have habove : name ∉ above.names :=
    fun hmem => hnew (isSome_slot?_iff_mem_names.2 (h.names hmem))
  refine ⟨?_, ?_, ?_⟩
  · rw [names_place]
    exact List.subset_append_of_subset_left _ h.names
  · rw [bitmapBits_place, h.bitmapBits, slots_place, List.countP_append, List.countP_singleton,
      Nat.add_assoc]
    cases hbit : (l.newStorage repr defined deletable).bit? <;> simp [isNewBit, habove, hbit]
  · rw [slots_place]
    intro slot hslot hbit
    rcases List.mem_append.1 hslot with hslot | hslot
    · exact h.kept slot hslot hbit
    · obtain rfl := List.mem_singleton.1 hslot
      obtain ⟨bit, hbit⟩ := Option.isSome_iff_exists.1 (Bool.and_eq_true_iff.1 hbit).2
      obtain ⟨-, hdefined, hdeletable⟩ := eq_of_bit?_newStorage hbit
      exact hkept hdefined hdeletable

/-- To box a slot leaves the count as it is. -/
theorem TakesBits.boxSlot (h : above.TakesBits deletables l) (hname : name ∈ deletables) :
    above.TakesBits deletables (l.boxSlot name id) := by
  -- A slot that is boxed may be deleted, so it had no new bit to lose.
  have hsame : ∀ slot ∈ l.slots, above.isNewBit
      (if slot.name = name then slot.boxedBy id else slot) = above.isNewBit slot := by
    intro slot hslot
    split
    · rename_i hslotName
      have hold : above.isNewBit slot = false := Bool.eq_false_iff.2 fun hnew =>
        h.kept slot hslot hnew (hslotName ▸ hname)
      rw [hold]
      simp [isNewBit, Slot.boxedBy, Storage.bit?]
    · rfl
  refine ⟨?_, ?_, ?_⟩
  · rw [names_boxSlot]
    exact h.names
  · refine h.bitmapBits.trans (congrArg _ ?_)
    rw [Layout.boxSlot, List.countP_map]
    exact List.countP_congr fun slot hslot => by rw [← hsame slot hslot]; rfl
  · intro slot hslot hnew
    obtain ⟨old, hold, rfl⟩ := List.mem_map.1 hslot
    have hkept := h.kept old hold ((hsame old hold).symm.trans hnew)
    split
    · exact hkept
    · exact hkept

/-- The bitmap takes the least number of words that hold its bits. -/
theorem isLeast_bitmapWords (l : Layout) : IsLeast {n | l.bitmapBits ≤ 32 * n} l.bitmapWords := by
  simp only [bitmapWords, bitmapWordBits]
  constructor
  · rw [Set.mem_ofPred_eq]
    omega
  · intro n hn
    rw [Set.mem_ofPred_eq] at hn
    omega

end Layout

/-! ## Classes -/

namespace Graph

variable {g : Graph} {guaranteed : ClassId → Name → Bool} {id : ClassId} {l above : Layout}
  {deletables : AttrSet}

/-- The bits of every layout are distinct. -/
theorem distinctBits_layoutAt (h : g.Acyclic) (id : ClassId) :
    (g.layoutAt guaranteed id).DistinctBits :=
  layoutAt_induction h Layout.distinctBits_empty (fun _ _ _ _ _ _ hl _ => hl.place)
    (fun _ _ _ hl => hl.boxSlot) id

/-- There are no more bits than attributes. -/
theorem bitmapBits_layoutAt_le (h : g.Acyclic) (hid : id ∈ g.ids) :
    (g.layoutAt guaranteed id).bitmapBits ≤ (g.lineageAttrs id).size := by
  rw [AttrSet.size, ← (perm_names_layoutAt h hid).length_eq, Layout.names, List.length_map]
  exact (distinctBits_layoutAt h id).le_length

theorem takesBits_inheritSlot (h : above.TakesBits deletables l) (fromTrait : Bool)
    (slot : Slot) :
    above.TakesBits deletables (inheritSlot guaranteed id deletables fromTrait l slot) := by
  unfold inheritSlot
  split
  · exact h
  · exact h.place ‹_› fun _ hdeletable => of_decide_eq_false hdeletable

theorem takesBits_declareSlot (h : above.TakesBits deletables l) {attr : Attribute}
    (hdel : attr.deletable = true → attr.name ∈ deletables)
    (hguar : ∀ a, guaranteed id a = true → a ∉ deletables) :
    above.TakesBits deletables (declareSlot guaranteed id l attr) := by
  unfold declareSlot
  split
  · split
    · exact h.boxSlot (hdel ‹_›)
    · exact h
  · exact h.place ‹_› fun hdefined _ => hguar _ hdefined

/-- Every layout takes the bits of its primary base and one more for each new slot with a bit. -/
theorem takesBits_layoutAt (h : g.Acyclic) (hid : id ∈ g.ids)
    (hguar : ∀ a, guaranteed id a = true → a ∉ g.deletableAttrs id) :
    (((g.primaryBase? id).map (g.layoutAt guaranteed)).getD .empty).TakesBits
      (g.deletableAttrs id) (g.layoutAt guaranteed id) := by
  rw [layoutAt_eq h hid]
  refine List.foldlRecOn _ _ ?_ fun l hl attr hattr => ?_
  · refine List.foldlRecOn _ _ (Layout.takesBits_refl _ _) fun l hl base _ => ?_
    exact List.foldlRecOn _ _ hl fun l hl slot _ => takesBits_inheritSlot hl _ slot
  · refine takesBits_declareSlot hl (fun hdel => mem_deletableAttrs.2 ⟨id, .refl, ?_⟩) hguar
    exact letsDelete_eq_true.2 ⟨attr, hattr, rfl, hdel⟩

end Graph

namespace CompileUnit

variable {u u' : CompileUnit} {o o' : Options} {report : Report} {id : ClassId}

/-- What is guaranteed for a layout is always defined. -/
theorem alwaysDefines_of_guaranteed (h : u.analyze o = .ok (report, u')) {a : Name}
    (hguar : u'.guaranteed o' id a = true) : Graph.AlwaysDefines u'.facts id a := by
  have hown : ∀ set, u'.alwaysDefined? id = some set → a ∈ set →
      Graph.AlwaysDefines u'.facts id a :=
    fun set hset ha => exists_alwaysDefined?_iff.1 ⟨set, hset, ha⟩
  have hnarrowed : ∀ set, u'.narrowed.get? id = some set → a ∈ set →
      Graph.AlwaysDefines u'.facts id a := by
    obtain ⟨-, -, -, rfl⟩ := analyze_eq_ok_iff.1 h
    intro set hset ha
    cases ho : o.narrowBySubclasses with
    | false => simp [ho] at hset
    | true =>
      rw [ho, if_pos rfl] at hset
      exact (Graph.narrows_narrow id set hset a ha).1
  -- The set that guarantees is the narrowed one where there is one, and the class's own where not.
  obtain ⟨set, hset, ha⟩ := (Option.any_eq_true _ _).1 hguar
  have ha : a ∈ set := of_decide_eq_true ha
  split at hset
  · rcases Option.or_eq_some_iff.1 hset with hset | ⟨-, hset⟩
    · exact hnarrowed set hset ha
    · exact hown set hset ha
  · exact hown set hset ha

/-- In every layout of an analyzed unit the bits of the slots are distinct and below the number of
bits. That number is the one of the primary base and one more for each new slot that has a bit, and
the bitmap takes the least number of words of 32 bits that hold its bits. -/
theorem bitmap_bits_distinct (u : CompileUnit) (o o' : Options) (report : Report)
    (u' : CompileUnit) (h : u.analyze o = .ok (report, u')) :
    ∃ ls, u'.layouts o' = .ok ls ∧ ls.map Prod.fst = u'.graph.ids ∧
      ∀ id l, (id, l) ∈ ls →
        l.bits.Nodup ∧ (∀ bit ∈ l.bits, bit < l.bitmapBits) ∧
        (∃ above : Layout, (∀ base, u'.graph.primaryBase? id = some base → (base, above) ∈ ls) ∧
          (u'.graph.primaryBase? id = none → above = .empty) ∧
          l.bitmapBits = above.bitmapBits + l.slots.countP above.isNewBit) ∧
        l.bitmapBits ≤ (u'.graph.lineageAttrs id).size ∧
        IsLeast {n | l.bitmapBits ≤ 32 * n} l.bitmapWords := by
  obtain ⟨hcycle, hfacts, -⟩ := of_analyze_eq_ok h
  have hacyclic := Graph.findCycle?_eq_none_iff.1 hcycle
  obtain ⟨ls, hls, hids, hat⟩ := exists_layouts_of_analyze h o'
  have hmem : ∀ id ∈ u'.graph.ids, (id, u'.graph.layoutAt (u'.guaranteed o') id) ∈ ls := by
    intro id hid
    rw [← hids] at hid
    obtain ⟨⟨_, l⟩, hl, rfl⟩ := List.mem_map.1 hid
    rwa [(hat _ l hl).2]
  refine ⟨ls, hls, hids, fun id l hl => ?_⟩
  obtain ⟨hid, rfl⟩ := hat id l hl
  have hdistinct : (u'.graph.layoutAt (u'.guaranteed o') id).DistinctBits :=
    Graph.distinctBits_layoutAt hacyclic id
  -- What may be deleted is not guaranteed, so no slot that has a bit is boxed later.
  have hguar : ∀ a, u'.guaranteed o' id a = true → a ∉ u'.graph.deletableAttrs id := by
    intro a ha
    have hdefined := alwaysDefines_of_guaranteed h ha
    rw [hfacts] at hdefined
    exact Graph.not_mem_deletableAttrs_of_alwaysDefines hcycle hdefined
  have htakes := Graph.takesBits_layoutAt hacyclic hid hguar
  refine ⟨hdistinct.nodup, hdistinct.lt, ⟨_, fun base hbase => ?_, fun hnone => ?_,
    htakes.bitmapBits⟩, Graph.bitmapBits_layoutAt_le hacyclic hid, Layout.isLeast_bitmapWords _⟩
  · rw [hbase]
    exact hmem base (Graph.mem_ids_of_mem_localBases (Graph.mem_localBases_of_primaryBase? hbase))
  · rw [hnone]
    rfl

/-- A class with two attributes that take a bit, a class with another, and a class that derives from
both, lets the second attribute be deleted and adds a fourth that takes a bit. -/
def fourBits : CompileUnit where
  names := .fresh
  graph := .ofDeclarations
    [(((Declaration.named ⟨20⟩).addAttribute
          ((Attribute.plain ⟨30⟩).withRepr .overlapping)).addAttribute
        ((Attribute.plain ⟨31⟩).withRepr .overlapping)).withInitializer
          ⟨[.setAttr ⟨30⟩ (.literal .none), .setAttr ⟨31⟩ (.literal .none)], .empty⟩,
      ((Declaration.named ⟨21⟩).addAttribute
        ((Attribute.plain ⟨32⟩).withRepr .overlapping)).withInitializer
          ⟨[.setAttr ⟨32⟩ (.literal .none)], .empty⟩,
      (((((Declaration.named ⟨22⟩).addBase ⟨20⟩).addBase ⟨21⟩).addAttribute
          (Attribute.plain ⟨31⟩).asDeletable).addAttribute
        ((Attribute.plain ⟨33⟩).withRepr .overlapping)).withInitializer
          ⟨[.callInit .next [], .setAttr ⟨33⟩ (.literal .none)], .empty⟩]
  facts := ∅
  narrowed := ∅

/-- The layout of the primary base. -/
def fourBitsAbove : Layout :=
  ⟨[⟨⟨30⟩, ⟨0⟩, .overlapping, .unboxedWithBitmap 0⟩,
    ⟨⟨31⟩, ⟨0⟩, .overlapping, .unboxedWithBitmap 1⟩], 2⟩

/-- The layout of the other base. -/
def fourBitsBeside : Layout := ⟨[⟨⟨32⟩, ⟨1⟩, .overlapping, .unboxedWithBitmap 0⟩], 1⟩

/-- The layout of the class that derives from both. -/
def fourBitsBelow : Layout :=
  ⟨[⟨⟨30⟩, ⟨0⟩, .overlapping, .unboxedWithBitmap 0⟩,
    ⟨⟨31⟩, ⟨2⟩, .overlapping, .boxedWithSentinel true⟩,
    ⟨⟨32⟩, ⟨1⟩, .overlapping, .unboxedWithBitmap 2⟩,
    ⟨⟨33⟩, ⟨2⟩, .overlapping, .unboxedWithBitmap 3⟩], 4⟩

/-- The slot that is boxed leaves its bit behind, and the one from the other base gets a new bit. -/
theorem bitmap_bits_distinct_fourBits : ∃ report u',
    fourBits.analyze unnarrowed = .ok (report, u') ∧
      u'.layouts unnarrowed = .ok [(⟨0⟩, fourBitsAbove), (⟨1⟩, fourBitsBeside),
        (⟨2⟩, fourBitsBelow)] ∧
      u'.graph.primaryBase? ⟨2⟩ = some ⟨0⟩ ∧
      fourBitsBelow.bits = [0, 2, 3] ∧ fourBitsBelow.bits.Nodup ∧
      (∀ bit ∈ fourBitsBelow.bits, bit < fourBitsBelow.bitmapBits) ∧
      fourBitsBelow.bitmapBits =
        fourBitsAbove.bitmapBits + fourBitsBelow.slots.countP fourBitsAbove.isNewBit ∧
      fourBitsBelow.bitmapBits ≤ (u'.graph.lineageAttrs ⟨2⟩).size ∧
      IsLeast {n | fourBitsBelow.bitmapBits ≤ 32 * n} 1 := by
  have h := (analyze_eq_ok_iff (u := fourBits) (o := unnarrowed)).2
    ⟨fun _ _ => rfl, by decide +kernel, rfl, rfl⟩
  obtain ⟨ls, hls, -, hbits⟩ := bitmap_bits_distinct fourBits unnarrowed unnarrowed _ _ h
  have hplan : (fourBits.analyze unnarrowed).toOption.bind (fun (_, u') =>
      (u'.layouts unnarrowed).toOption) = some [(⟨0⟩, fourBitsAbove), (⟨1⟩, fourBitsBeside),
        (⟨2⟩, fourBitsBelow)] := by decide +kernel
  rw [h] at hplan
  obtain rfl : ls = _ := by simpa [Except.toOption, hls] using hplan
  have hbase : fourBits.graph.primaryBase? ⟨2⟩ = some ⟨0⟩ := by decide +kernel
  obtain ⟨hnodup, hlt, ⟨above, habove, -, hcount⟩, hle, hleast⟩ :=
    hbits ⟨2⟩ fourBitsBelow (by simp)
  obtain rfl : above = fourBitsAbove := by simpa using habove ⟨0⟩ hbase
  exact ⟨_, _, h, hls, hbase, rfl, hnodup, hlt, hcount, hle, hleast⟩

end CompileUnit

end DefiniteInit
