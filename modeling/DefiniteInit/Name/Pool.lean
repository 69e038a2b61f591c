import DefiniteInit.Name.Table

/-!
# Shared tables of names

Several parts of a compiler may hold the same table. `NamePool` keeps the tables and
numbers the handles on them: `share` makes one more handle on the table of another, and
a name interned through either is seen through both; `add` makes a handle on a table of
its own.
-/

namespace DefiniteInit

/-- Tables of names, and the handles that refer to them. -/
structure NamePool where
  /-- The tables. -/
  tables : List NameTable
  /-- For each handle, the position of its table. -/
  handles : List Nat

namespace NamePool

/-- One fresh table, with handle `0` on it. -/
def start : NamePool := ⟨[.fresh], [0]⟩

/-- The table behind a handle. -/
def table? (p : NamePool) (handle : Nat) : Option NameTable :=
  p.handles[handle]?.bind (p.tables[·]?)

/-- A new handle on the table of `handle`. -/
def share (p : NamePool) (handle : Nat) : Option (Nat × NamePool) :=
  p.handles[handle]?.map fun table =>
    (p.handles.length, { p with handles := p.handles ++ [table] })

/-- A new handle on a fresh table. -/
def add (p : NamePool) : Nat × NamePool :=
  (p.handles.length, ⟨p.tables ++ [.fresh], p.handles ++ [p.tables.length]⟩)

/-- Interns `text` through a handle. -/
def intern (p : NamePool) (handle : Nat) (text : String) : Option (Name × NamePool) := do
  let table ← p.handles[handle]?
  let names ← p.tables[table]?
  let (name, names) := names.intern text
  return (name, { p with tables := p.tables.set table names })

end NamePool

end DefiniteInit
