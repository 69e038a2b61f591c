import DefiniteInit.Class.Waves
import DefiniteInit.Class.Lineage

/-!
# Storage of attributes

Where an instance keeps its attributes, and which reads have to check that a value is
there. The class that declares an attribute decides about its slot, once; its subclasses
copy the slot, bitmap bit included, so that the slots of a class begin with those of the
base its initializer comes from. A subclass in which the attribute may be deleted boxes
its copy.
-/

namespace DefiniteInit

/-- Number of bits of a word of the bitmap. -/
def bitmapWordBits : Nat := 32

/-- How a slot is kept. -/
inductive Storage where
  /-- As it is: it always has a value. -/
  | unboxed
  /-- As it is, with a bit that says whether it has been assigned, for code outside the
  initializer: no bit pattern is left to say so. -/
  | unboxedWithBitmap (bit : Nat)
  /-- Boxed, with a mark for "no value". -/
  | boxedWithSentinel (deletable : Bool)
deriving DecidableEq

namespace Storage

/-- Whether a read has to check that a value is there. -/
def needsCheck : Storage → Bool
  | .unboxed => false
  | _ => true

/-- Whether the slot is boxed. -/
def isBoxed : Storage → Bool
  | .boxedWithSentinel _ => true
  | _ => false

end Storage

/-- The slot of an attribute. -/
structure Slot where
  name : Name
  /-- The class that decided about it. -/
  owner : ClassId
  repr : ValueRepr
  storage : Storage
deriving DecidableEq

/-- The slots of a class. -/
structure Layout where
  slots : List Slot
  /-- Number of bits taken from the bitmap. -/
  bitmapBits : Nat
deriving DecidableEq

namespace Layout

/-- No slots. -/
def empty : Layout := ⟨[], 0⟩

instance : Inhabited Layout := ⟨empty⟩

/-- The slot of an attribute. -/
def slot? (l : Layout) (name : Name) : Option Slot := l.slots.find? (·.name = name)

/-- Number of words the bitmap takes. -/
def bitmapWords (l : Layout) : Nat := (l.bitmapBits + (bitmapWordBits - 1)) / bitmapWordBits

/-- Adds a slot for an attribute that has none. It is unboxed if every instance has a
value for it and keeps it. -/
def place (l : Layout) (name : Name) (owner : ClassId) (repr : ValueRepr)
    (defined deletable : Bool) : Layout :=
  if defined && !deletable then
    match repr with
    | .reference => { l with slots := l.slots ++ [⟨name, owner, repr, .unboxed⟩] }
    | .overlapping =>
      { slots := l.slots ++ [⟨name, owner, repr, .unboxedWithBitmap l.bitmapBits⟩]
        bitmapBits := l.bitmapBits + 1 }
  else { l with slots := l.slots ++ [⟨name, owner, repr, .boxedWithSentinel deletable⟩] }

/-- Boxes the slot of an attribute that `id` lets be deleted. -/
def boxSlot (l : Layout) (name : Name) (id : ClassId) : Layout :=
  { l with
    slots := l.slots.map fun slot =>
      if slot.name = name then
        { slot with
          owner := if slot.storage.isBoxed then slot.owner else id
          storage := .boxedWithSentinel true }
      else slot }

end Layout

namespace Graph

/-- Takes over a slot of a base other than the primary one, unless there is a slot for
that attribute. The fields of a trait belong to the class that uses it. -/
def inheritSlot (guaranteed : ClassId → Name → Bool) (id : ClassId) (deletable : AttrSet)
    (fromTrait : Bool) (l : Layout) (slot : Slot) : Layout :=
  if (l.slot? slot.name).isSome then l
  else
    let owner := if fromTrait then id else slot.owner
    l.place slot.name owner slot.repr (guaranteed owner slot.name) (slot.name ∈ deletable)

/-- Makes room for an attribute of the class itself. -/
def declareSlot (guaranteed : ClassId → Name → Bool) (id : ClassId) (l : Layout)
    (attr : Attribute) : Layout :=
  if (l.slot? attr.name).isSome then
    if attr.deletable then l.boxSlot attr.name id else l
  else l.place attr.name id attr.repr (guaranteed id attr.name) attr.deletable

/-- The layout of a class, given those of its bases. -/
def layoutOf (g : Graph) (guaranteed : ClassId → Name → Bool) (planned : ClassTable Layout)
    (id : ClassId) : Layout :=
  let layoutAt base := (planned.get? base).getD .empty
  let primary := g.primaryBase? id
  let secondary := (g.localBases id).filter (some · ≠ primary)
  let deletable := g.deletableAttrs id
  let start := (primary.map layoutAt).getD .empty
  let inherited := secondary.foldl
    (fun l base =>
      (layoutAt base).slots.foldl (inheritSlot guaranteed id deletable (g.isTrait base)) l)
    start
  (g.attributes id).foldl (declareSlot guaranteed id) inherited

/-- The layouts of all classes. `guaranteed` says whether every instance of a class, or of
one that shares its slots, has a value for an attribute. -/
def planLayouts (g : Graph) (guaranteed : ClassId → Name → Bool) : ClassTable Layout :=
  g.waves.flatten.foldl (fun t id => t.insert id (g.layoutOf guaranteed t id)) ∅

end Graph

end DefiniteInit
