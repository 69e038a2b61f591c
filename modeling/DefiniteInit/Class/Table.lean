/-!
# Classes of a unit, and tables over them

A class of a compile unit is known by its position among the declarations. `ClassTable`
holds one value for some of the classes.
-/

namespace DefiniteInit

/-- A class, as its position among the declarations of the unit. -/
structure ClassId where
  /-- Position of the declaration. -/
  index : Nat
deriving DecidableEq, Repr

/-- What stands in for the name of a class that does not exist. -/
def ClassId.display (id : ClassId) : String := s!"ClassId({id.index})"

/-- Values for some classes; of two entries for one class the later counts. -/
structure ClassTable (α : Type) where
  /-- The entries, the latest first. -/
  entries : List (ClassId × α)

namespace ClassTable

variable {α : Type}

/-- No values. -/
def empty : ClassTable α := ⟨[]⟩

instance : EmptyCollection (ClassTable α) := ⟨empty⟩

instance : Inhabited (ClassTable α) := ⟨∅⟩

/-- The value of a class. -/
def get? (t : ClassTable α) (id : ClassId) : Option α := t.entries.lookup id

/-- Gives a class a value. -/
def insert (t : ClassTable α) (id : ClassId) (value : α) : ClassTable α :=
  ⟨(id, value) :: t.entries⟩

/-- Gives several classes their values. -/
def insertAll (t : ClassTable α) (values : List (ClassId × α)) : ClassTable α :=
  values.foldl (fun t (id, value) => t.insert id value) t

@[simp]
theorem get?_empty (id : ClassId) : (∅ : ClassTable α).get? id = none := rfl

theorem get?_insert (t : ClassTable α) (id id' : ClassId) (value : α) :
    (t.insert id value).get? id' = if id' = id then some value else t.get? id' := by
  by_cases h : id' = id
  · simp [insert, get?, h]
  · have hb : (id' == id) = false := by simpa using h
    simp [insert, get?, List.lookup_cons, h, hb]

end ClassTable

end DefiniteInit
