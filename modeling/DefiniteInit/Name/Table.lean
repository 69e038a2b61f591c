import DefiniteInit.Name.Basic

/-!
# The table of names

`NameTable` lists texts without repetition. `intern` gives the name of a text, adding
the text at the end when it is new. The name stands for the text (`text?_intern`), it is
the one a later look-up finds (`get?_intern`), and names given before keep their text
(`text?_intern_of_lt`).
-/

namespace DefiniteInit

/-- The texts behind names, in the order in which they were first seen. -/
structure NameTable where
  /-- The texts; a name is a position in this list. -/
  texts : List String
  /-- No text is listed twice. -/
  nodup : texts.Nodup

namespace NameTable

/-- A table of the well-known names only. -/
def fresh : NameTable where
  texts := Name.wellKnown
  nodup := by decide

instance : Inhabited NameTable := ⟨fresh⟩

/-- Number of names. -/
def size (t : NameTable) : Nat := t.texts.length

/-- Whether the table has no name at all. -/
def isEmpty (t : NameTable) : Bool := t.texts.isEmpty

/-- The name of a text, if the table has it. -/
def get? (t : NameTable) (text : String) : Option Name :=
  if text ∈ t.texts then some ⟨t.texts.idxOf text⟩ else none

/-- The text of a name, if the table has it. -/
def text? (t : NameTable) (n : Name) : Option String := t.texts[n.index]?

/-- The text of a name; for a name the table does not have, `#` and its position. -/
def display (t : NameTable) (n : Name) : String :=
  (t.text? n).getD s!"#{n.index}"

/-- One line that says how many names there are. -/
def summary (t : NameTable) : String := s!"Interner \x7b len: {t.size} \x7d"

/-- The table with `text` in it. A text it has keeps its place. -/
def insert (t : NameTable) (text : String) : NameTable :=
  if h : text ∈ t.texts then t
  else
    { texts := t.texts ++ [text]
      nodup := List.nodup_append.2 ⟨t.nodup, by simp, by rintro a ha b hb rfl; simp_all⟩ }

/-- The name of `text`, and the table that has it. -/
def intern (t : NameTable) (text : String) : Name × NameTable :=
  (⟨t.texts.idxOf text⟩, t.insert text)

theorem insert_of_mem {t : NameTable} {text : String} (h : text ∈ t.texts) :
    t.insert text = t := by simp [insert, h]

theorem texts_insert_of_not_mem {t : NameTable} {text : String} (h : text ∉ t.texts) :
    (t.insert text).texts = t.texts ++ [text] := by simp [insert, h]

/-- The interned name stands for the text. -/
theorem text?_intern (t : NameTable) (text : String) :
    (t.intern text).2.text? (t.intern text).1 = some text := by
  by_cases h : text ∈ t.texts
  · simp [intern, text?, insert_of_mem h,
      List.getElem?_eq_getElem (List.idxOf_lt_length_of_mem h)]
  · simp [intern, text?, texts_insert_of_not_mem h, List.idxOf_eq_length h]

/-- The interned name is the one found from then on. -/
theorem get?_intern (t : NameTable) (text : String) :
    (t.intern text).2.get? text = some (t.intern text).1 := by
  by_cases h : text ∈ t.texts
  · simp [intern, get?, insert_of_mem h, h]
  · have hmem : text ∈ (t.insert text).texts := by simp [texts_insert_of_not_mem h]
    have hidx : (t.insert text).texts.idxOf text = t.texts.idxOf text := by
      rw [texts_insert_of_not_mem h, List.idxOf_append, if_neg h, List.idxOf_eq_length h]
      simp
    rw [intern, get?, if_pos hmem, hidx]

/-- Names given before keep their text. -/
theorem text?_intern_of_lt {t : NameTable} {n : Name} (h : n.index < t.size) (text : String) :
    (t.intern text).2.text? n = t.text? n := by
  by_cases hm : text ∈ t.texts
  · simp [intern, insert_of_mem hm]
  · simp only [intern, text?, texts_insert_of_not_mem hm]
    exact List.getElem?_append_left h

end NameTable

end DefiniteInit
