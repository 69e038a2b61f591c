import DefiniteInit.Name.Pool
import Mathlib.Data.List.Induction
import Mathlib.Data.List.Nodup

/-!
# Names stand for texts

A table of names answers two questions that are inverse to each other: which name a text has, and
which text a name has (`NameTable.text?_eq_some_iff`). It lists the texts it was given, each where
it came first (`NameTable.texts_insertAll`), so a name once given stands for its text in every later
table (`NameTable.text?_mono`).

A table can also be kept in two parts, the names by text and the texts by position. `SplitTable`
looks a text up before it writes, and once more when it writes, and then adds to both parts. It
answers whatever it is asked as the one list does (`SplitTable.exists_exchanges`).

Handles share a table. `NamePool.LedTo` lists what has been asked through the handles of a pool and
what was answered. What was asked through the handles of one table, in that order, is all that the
table depends on (`NamePool.LedTo.keeps`). A name is a position, of any size; a table of no more
than `UInt32.size` texts can do with 32 bits for it (`NameTable.word_inj`).
-/

namespace DefiniteInit

/-- A last element stays only if the list has it nowhere before. -/
theorem eraseDups_concat {α : Type} [DecidableEq α] (l : List α) (a : α) :
    (l ++ [a]).eraseDups = if a ∈ l then l.eraseDups else l.eraseDups ++ [a] := by
  rw [List.eraseDups_append]
  by_cases h : a ∈ l <;> simp [List.removeAll, h, List.eraseDups_cons]

/-! ## The two views of a table -/

/-- The name as a number of 32 bits. -/
def Name.word (n : Name) : UInt32 := .ofNat n.index

namespace NameTable

variable {t t' : NameTable} {n : Name} {text : String}

/-- The text of a name is the text of no other. -/
theorem get?_of_text? (h : t.text? n = some text) : t.get? text = some n := by
  obtain ⟨hlt, htext⟩ := List.getElem?_eq_some_iff.1 h
  have hmem : text ∈ t.texts := htext ▸ List.getElem_mem hlt
  have hidx : t.texts.idxOf text = n.index := htext ▸ t.nodup.idxOf_getElem n.index hlt
  rw [get?, if_pos hmem, hidx]

/-- The two views are inverse to each other. -/
theorem text?_eq_some_iff : t.text? n = some text ↔ t.get? text = some n := by
  refine ⟨get?_of_text?, fun h => ?_⟩
  unfold get? at h
  split at h
  · rename_i hmem
    rw [← Option.some.inj h]
    exact List.getElem?_eq_some_iff.2
      ⟨List.idxOf_lt_length_of_mem hmem, List.getElem_idxOf _⟩
  · simp at h

/-- Names stand for texts up to the size of the table. -/
theorem isSome_text?_iff : (t.text? n).isSome = true ↔ n.index < t.size := by
  simp [text?, size]

/-- As long as 32 bits are enough for the texts of a table, they tell its names apart. -/
theorem word_inj (h : t.size ≤ UInt32.size) {n' : Name} (hn : n.index < t.size)
    (hn' : n'.index < t.size) : n.word = n'.word ↔ n = n' := by
  rw [Name.word, Name.word, ← UInt32.toNat_inj,
    UInt32.toNat_ofNat_of_lt' (Nat.lt_of_lt_of_le hn h),
    UInt32.toNat_ofNat_of_lt' (Nat.lt_of_lt_of_le hn' h)]
  exact ⟨fun hindex => congrArg Name.mk hindex, congrArg Name.index⟩

theorem isSome_get?_iff : (t.get? text).isSome = true ↔ text ∈ t.texts := by
  rw [get?]
  split <;> simp_all

/-! ## Adding texts -/

/-- A new text goes to the end. -/
theorem texts_insert (t : NameTable) (text : String) :
    (t.insert text).texts = if text ∈ t.texts then t.texts else t.texts ++ [text] := by
  split
  · rw [insert_of_mem ‹_›]
  · rw [texts_insert_of_not_mem ‹_›]

/-- Adding a text leaves the others where they are. -/
theorem prefix_insert (t : NameTable) (text : String) : t.texts <+: (t.insert text).texts := by
  rw [texts_insert]
  split
  · exact List.prefix_refl _
  · exact List.prefix_append _ _

/-- Adds several texts. -/
def insertAll (t : NameTable) (texts : List String) : NameTable := texts.foldl insert t

theorem insertAll_append (t : NameTable) (texts texts' : List String) :
    t.insertAll (texts ++ texts') = (t.insertAll texts).insertAll texts' := List.foldl_append

theorem insertAll_concat (t : NameTable) (texts : List String) (text : String) :
    t.insertAll (texts ++ [text]) = (t.insertAll texts).insert text :=
  insertAll_append t texts [text]

theorem prefix_insertAll (t : NameTable) (texts : List String) :
    t.texts <+: (t.insertAll texts).texts := by
  induction texts using List.reverseRecOn with
  | nil => exact List.prefix_refl _
  | append_singleton texts text ih =>
    rw [insertAll_concat]
    exact ih.trans (prefix_insert _ text)

/-- A table lists the well-known texts and those added since, each where it came first. -/
theorem texts_insertAll (texts : List String) :
    (fresh.insertAll texts).texts = (Name.wellKnown ++ texts).eraseDups := by
  induction texts using List.reverseRecOn with
  | nil => decide
  | append_singleton texts text ih =>
    rw [insertAll_concat, texts_insert, ← List.append_assoc, eraseDups_concat, ih]
    simp only [List.mem_eraseDups]

/-- A text that is added is found under the name it is given. -/
theorem get?_insert (t : NameTable) (text text' : String) : (t.insert text).get? text' =
    if text' = text then some (t.intern text).1 else t.get? text' := by
  by_cases hsame : text' = text
  · subst hsame
    rw [if_pos rfl]
    exact t.get?_intern text'
  · rw [if_neg hsame]
    by_cases hmem : text ∈ t.texts
    · rw [insert_of_mem hmem]
    · simp only [get?, texts_insert_of_not_mem hmem, List.mem_append, List.mem_singleton, hsame,
        or_false]
      split
      · rw [List.idxOf_append_of_mem ‹_›]
      · rfl

/-- A name stands for its text in every table that the table grows to. -/
theorem text?_mono (h : t.texts <+: t'.texts) (htext : t.text? n = some text) :
    t'.text? n = some text := by
  obtain ⟨more, hmore⟩ := h
  rw [text?, ← hmore, List.getElem?_append_left (List.getElem?_eq_some_iff.1 htext).1]
  exact htext

/-- The well-known names have their texts in every table. -/
theorem text?_wellKnown (texts : List String) : (fresh.insertAll texts).text? .self = some "self" ∧
    (fresh.insertAll texts).text? .init = some "__init__" ∧
    (fresh.insertAll texts).text? .object = some "object" ∧
    (fresh.insertAll texts).text? .super = some "super" :=
  have hgrown := prefix_insertAll fresh texts
  ⟨text?_mono hgrown rfl, text?_mono hgrown rfl, text?_mono hgrown rfl,
    text?_mono hgrown rfl⟩

end NameTable

/-! ## What is asked and answered -/

/-- What a table of names is asked. -/
inductive NameCall where
  /-- For the name of a text, which is added if it is new. -/
  | intern (text : String)
  /-- For the name of a text, if it has one. -/
  | get (text : String)
  /-- For the text of a name, if it has one. -/
  | resolve (name : Name)
  /-- For a text to show a name by. -/
  | display (name : Name)
deriving DecidableEq

/-- What is answered. -/
inductive NameAnswer where
  | named (name : Name)
  | found (name : Option Name)
  | resolved (text : Option String)
  | shown (text : String)
deriving DecidableEq

/-- A call and its answer. -/
structure Exchange where
  call : NameCall
  answer : NameAnswer
deriving DecidableEq

namespace Exchange

/-- The text that was interned. -/
def interned? (x : Exchange) : Option String :=
  match x.call with
  | .intern text => some text
  | _ => none

theorem interned?_eq_some {x : Exchange} {text : String} :
    x.interned? = some text ↔ x.call = .intern text := by
  obtain ⟨call, answer⟩ := x
  cases call <;> simp [interned?]

/-- The name of the text was given in answer. -/
def Names (x : Exchange) (text : String) (n : Name) : Prop :=
  x = ⟨.intern text, .named n⟩ ∨ x = ⟨.get text, .found (some n)⟩

end Exchange

/-- From one state to another by calls and answers, one after the other. -/
inductive Exchanges {σ : Type} (serve : σ → NameCall → NameAnswer × σ) (start : σ) :
    List Exchange → σ → Prop
  | none : Exchanges serve start [] start
  | next {xs : List Exchange} {s s' : σ} {call : NameCall} {answer : NameAnswer}
      (before : Exchanges serve start xs s) (hserve : serve s call = (answer, s')) :
      Exchanges serve start (xs ++ [⟨call, answer⟩]) s'

namespace NameTable

/-- Answers a call. -/
def serve (t : NameTable) : NameCall → NameAnswer × NameTable
  | .intern text => (.named (t.intern text).1, (t.intern text).2)
  | .get text => (.found (t.get? text), t)
  | .resolve name => (.resolved (t.text? name), t)
  | .display name => (.shown (t.display name), t)

variable {t : NameTable} {xs : List Exchange}

/-- A table is made of the texts that were interned. -/
theorem eq_insertAll (h : Exchanges serve fresh xs t) :
    t = fresh.insertAll (xs.filterMap Exchange.interned?) := by
  induction h with
  | none => rfl
  | @next xs s s' call answer _ hserve ih =>
    have hs' : s' = (s.serve call).2 := (congrArg Prod.snd hserve).symm
    rw [List.filterMap_append, hs']
    cases call with
    | intern text =>
      rw [ih]
      exact (insertAll_concat fresh _ text).symm
    | get _ | resolve _ | display _ =>
      rw [List.filterMap_cons_none rfl, List.filterMap_nil, List.append_nil]
      exact ih

/-- What a name was given for, it stands for ever after. -/
theorem text?_of_names (h : Exchanges serve fresh xs t) {x : Exchange} (hx : x ∈ xs) {text : String}
    {n : Name} (hnames : x.Names text n) : t.text? n = some text := by
  induction h with
  | none => simp at hx
  | @next xs s s' call answer _ hserve ih =>
    obtain ⟨rfl, rfl⟩ := Prod.mk.inj hserve
    rcases List.mem_append.1 hx with hx | hx
    · refine text?_mono ?_ (ih hx)
      cases call with
      | intern text => exact prefix_insert s text
      | _ => exact List.prefix_refl _
    · rw [List.mem_singleton.1 hx] at hnames
      rcases hnames with hnames | hnames
      · obtain ⟨rfl, hanswer⟩ := Exchange.mk.inj hnames
        rw [← NameAnswer.named.inj hanswer]
        exact s.text?_intern text
      · obtain ⟨rfl, hanswer⟩ := Exchange.mk.inj hnames
        exact text?_eq_some_iff.2 (NameAnswer.found.inj hanswer)

end NameTable

/-! ## Tables in two parts -/

/-- A table of names kept in two parts. -/
structure SplitTable where
  /-- The names of the texts, the latest first. -/
  names : List (String × Name)
  /-- The texts; a name is a position in this list. -/
  texts : List String

namespace SplitTable

/-- Adds a text to both parts, unless it has a name. -/
def write (s : SplitTable) (text : String) : Name × SplitTable :=
  match s.names.lookup text with
  | some name => (name, s)
  | none => (⟨s.texts.length⟩, ⟨(text, ⟨s.texts.length⟩) :: s.names, s.texts ++ [text]⟩)

/-- Looks the text up and writes only if that fails. -/
def intern (s : SplitTable) (text : String) : Name × SplitTable :=
  match s.names.lookup text with
  | some name => (name, s)
  | none => s.write text

/-- The well-known names, written one after the other. -/
def fresh : SplitTable := Name.wellKnown.foldl (fun s text => (s.write text).2) ⟨[], []⟩

/-- Answers a call. -/
def serve (s : SplitTable) : NameCall → NameAnswer × SplitTable
  | .intern text => (.named (s.intern text).1, (s.intern text).2)
  | .get text => (.found (s.names.lookup text), s)
  | .resolve name => (.resolved s.texts[name.index]?, s)
  | .display name => (.shown (s.texts[name.index]?.getD s!"#{name.index}"), s)

/-- The two parts are the two views of a table. -/
structure Mirrors (s : SplitTable) (t : NameTable) : Prop where
  texts : s.texts = t.texts
  names : ∀ text, s.names.lookup text = t.get? text

variable {s : SplitTable} {t : NameTable}

/-- To intern is to write: what the look-up has not found, the write does not find. -/
theorem intern_eq_write (s : SplitTable) (text : String) : s.intern text = s.write text := by
  unfold intern
  split
  · rename_i name hname
    rw [write, hname]
  · rfl

/-- Adding a text to both parts keeps them in step with the table. -/
theorem Mirrors.write (h : s.Mirrors t) (text : String) :
    (s.write text).1 = (t.intern text).1 ∧ (s.write text).2.Mirrors (t.insert text) := by
  unfold SplitTable.write
  split
  · rename_i name hname
    have hget : t.get? text = some name := (h.names text).symm.trans hname
    have hmem : text ∈ t.texts := NameTable.isSome_get?_iff.1 (by rw [hget]; rfl)
    rw [NameTable.insert_of_mem hmem]
    refine ⟨?_, h⟩
    rw [NameTable.get?, if_pos hmem] at hget
    exact (Option.some.inj hget).symm
  · rename_i hname
    -- A text without an entry is a new one, and both tables give it the next index.
    have hnew : text ∉ t.texts := fun hmem => by
      have hsome := NameTable.isSome_get?_iff.2 hmem
      rw [← h.names text, hname] at hsome
      simp at hsome
    have hlength : (⟨s.texts.length⟩ : Name) = (t.intern text).1 := by
      rw [NameTable.intern, List.idxOf_eq_length hnew, h.texts]
    refine ⟨hlength, ⟨by rw [NameTable.texts_insert_of_not_mem hnew, h.texts], fun text' => ?_⟩⟩
    rw [NameTable.get?_insert, List.lookup_cons, hlength, h.names text']
    by_cases hsame : text' = text
    · simp [hsame]
    · have hb : (text' == text) = false := by simpa using hsame
      rw [hb, if_neg hsame]

theorem mirrors_fresh : fresh.Mirrors .fresh := by
  have hempty : SplitTable.Mirrors ⟨[], []⟩ ⟨[], List.nodup_nil⟩ := ⟨rfl, fun _ => rfl⟩
  have hfresh : NameTable.insertAll ⟨[], List.nodup_nil⟩ Name.wellKnown = .fresh := rfl
  rw [← hfresh, fresh, NameTable.insertAll]
  exact List.foldl_rel hempty fun text _ s t h => (h.write text).2

/-- Both tables give the same answer, and are again two forms of one table. -/
theorem Mirrors.serve (h : s.Mirrors t) (call : NameCall) :
    (s.serve call).1 = (t.serve call).1 ∧ (s.serve call).2.Mirrors (t.serve call).2 := by
  cases call with
  | intern text =>
    rw [SplitTable.serve, intern_eq_write]
    exact ⟨congrArg NameAnswer.named (h.write text).1, (h.write text).2⟩
  | get text => exact ⟨congrArg NameAnswer.found (h.names text), h⟩
  | resolve name =>
    refine ⟨?_, h⟩
    rw [SplitTable.serve, NameTable.serve, NameTable.text?, h.texts]
  | display name =>
    refine ⟨?_, h⟩
    rw [SplitTable.serve, NameTable.serve, NameTable.display, NameTable.text?, h.texts]

/-- The exchanges of a table are those of its two parts. -/
theorem exists_exchanges {xs : List Exchange} (h : Exchanges NameTable.serve .fresh xs t) :
    ∃ s, Exchanges SplitTable.serve .fresh xs s ∧ s.Mirrors t := by
  induction h with
  | none => exact ⟨fresh, .none, mirrors_fresh⟩
  | @next xs t t' call answer _ hserve ih =>
    obtain ⟨s, hs, hmirrors⟩ := ih
    obtain ⟨rfl, rfl⟩ := Prod.mk.inj hserve
    obtain ⟨hanswer, hnext⟩ := hmirrors.serve call
    exact ⟨_, hs.next (Prod.ext hanswer rfl), hnext⟩

end SplitTable

/-! ## Handles -/

namespace NamePool

/-- Answers a call made through a handle. -/
def ask (p : NamePool) (handle : Nat) : NameCall → Option (NameAnswer × NamePool)
  | .intern text => (p.intern handle text).map fun (name, p) => (.named name, p)
  | .get text => (p.table? handle).map fun t => (.found (t.get? text), p)
  | .resolve name => (p.table? handle).map fun t => (.resolved (t.text? name), p)
  | .display name => (p.table? handle).map fun t => (.shown (t.display name), p)

/-- The pool that was come to, by making handles on tables and by calls through them. Lists the
calls with their handles and their answers. -/
inductive LedTo : List (Nat × Exchange) → NamePool → Prop
  | start : LedTo [] .start
  | share {log : List (Nat × Exchange)} {p p' : NamePool} {handle new : Nat} (before : LedTo log p)
      (hshare : p.share handle = some (new, p')) : LedTo log p'
  | add {log : List (Nat × Exchange)} {p : NamePool} (before : LedTo log p) : LedTo log p.add.2
  | ask {log : List (Nat × Exchange)} {p p' : NamePool} {handle : Nat} {call : NameCall}
      {answer : NameAnswer} (before : LedTo log p)
      (hask : p.ask handle call = some (answer, p')) :
      LedTo (log ++ [(handle, ⟨call, answer⟩)]) p'

/-- What was asked and answered through the handles of a table. -/
def exchangesOn (p : NamePool) (log : List (Nat × Exchange)) (table : Nat) : List Exchange :=
  log.filterMap fun entry => if p.handles[entry.1]? = some table then some entry.2 else none

variable {p p' : NamePool} {log : List (Nat × Exchange)} {handle table : Nat} {t : NameTable}

/-- A call is answered by the table behind the handle, and changes that table at most. -/
theorem ask_eq (p : NamePool) (handle : Nat) (call : NameCall) : p.ask handle call =
    p.handles[handle]?.bind fun table => p.tables[table]?.map fun t =>
      ((t.serve call).1, { p with tables := p.tables.set table (t.serve call).2 }) := by
  cases hhandle : p.handles[handle]? with
  | none => cases call <;> simp [ask, NamePool.intern, table?, hhandle]
  | some table =>
    cases ht : p.tables[table]? with
    | none => cases call <;> simp [ask, NamePool.intern, table?, hhandle, ht]
    | some t =>
      obtain ⟨hlt, rfl⟩ := List.getElem?_eq_some_iff.1 ht
      cases call <;> simp [ask, NamePool.intern, table?, hhandle, ht, NameTable.serve]

/-- What a pool has to do with the calls that led to it. -/
structure Keeps (p : NamePool) (log : List (Nat × Exchange)) : Prop where
  handles : ∀ table ∈ p.handles, table < p.tables.length
  logged : ∀ entry ∈ log, entry.1 < p.handles.length
  tables : ∀ (table : Nat) (t : NameTable), p.tables[table]? = some t →
    Exchanges NameTable.serve .fresh (p.exchangesOn log table) t

/-- Handles that are added later are not those of earlier calls. -/
theorem exchangesOn_append (hlogged : ∀ entry ∈ log, entry.1 < p.handles.length)
    {more : List Nat} (hhandles : p'.handles = p.handles ++ more) (table : Nat) :
    p'.exchangesOn log table = p.exchangesOn log table := by
  refine List.filterMap_congr fun entry hentry => ?_
  rw [hhandles, List.getElem?_append_left (hlogged entry hentry)]

/-- An exchange counts for the table behind its handle. -/
theorem exchangesOn_concat (p : NamePool) (log : List (Nat × Exchange)) (handle : Nat)
    (x : Exchange) (table : Nat) : p.exchangesOn (log ++ [(handle, x)]) table =
      p.exchangesOn log table ++ if p.handles[handle]? = some table then [x] else [] := by
  rw [exchangesOn, List.filterMap_append]
  by_cases h : p.handles[handle]? = some table <;> simp [exchangesOn, h]

/-- A new handle to a table changes nothing of what was exchanged. -/
theorem Keeps.share (h : p.Keeps log) {new : Nat} (hshare : p.share handle = some (new, p')) :
    p'.Keeps log := by
  obtain ⟨table, hhandle, hp'⟩ := Option.map_eq_some_iff.1 hshare
  obtain ⟨-, rfl⟩ := Prod.mk.inj hp'
  refine ⟨fun table' hmem => ?_, fun entry hentry => ?_, fun table' t ht => ?_⟩
  · rcases List.mem_append.1 hmem with hmem | hmem
    · exact h.handles table' hmem
    · exact List.mem_singleton.1 hmem ▸ h.handles table (List.mem_of_getElem? hhandle)
  · exact Nat.lt_of_lt_of_le (h.logged entry hentry) (by simp)
  · rw [exchangesOn_append h.logged rfl]
    exact h.tables table' t ht

/-- A new table has had no exchange. -/
theorem Keeps.add (h : p.Keeps log) : p.add.2.Keeps log := by
  refine ⟨fun table' hmem => ?_, fun entry hentry => ?_, fun table' t ht => ?_⟩
  · rw [NamePool.add, List.length_append, List.length_singleton]
    rcases List.mem_append.1 hmem with hmem | hmem
    · exact Nat.lt_succ_of_lt (h.handles table' hmem)
    · exact List.mem_singleton.1 hmem ▸ Nat.lt_succ_self _
  · exact Nat.lt_of_lt_of_le (h.logged entry hentry) (by simp [NamePool.add])
  · rw [exchangesOn_append h.logged rfl]
    by_cases hold : table' < p.tables.length
    · refine h.tables table' t ?_
      rwa [NamePool.add, List.getElem?_append_left hold] at ht
    · -- No handle is on the new table, so nothing was asked of it.
      have hnone : p.exchangesOn log table' = [] := by
        refine List.filterMap_eq_nil_iff.2 fun entry _ => if_neg fun htable => ?_
        exact hold (h.handles table' (List.mem_of_getElem? htable))
      have hlt : table' < p.tables.length + 1 := by
        simpa [NamePool.add] using (List.getElem?_eq_some_iff.1 ht).1
      obtain rfl : table' = p.tables.length := by omega
      obtain rfl : .fresh = t := by simpa [NamePool.add] using ht
      rw [hnone]
      exact .none

/-- An exchange is added to those of its table and to no other. -/
theorem Keeps.ask (h : p.Keeps log) {call : NameCall} {answer : NameAnswer}
    (hask : p.ask handle call = some (answer, p')) :
    p'.Keeps (log ++ [(handle, ⟨call, answer⟩)]) := by
  rw [ask_eq, Option.bind_eq_some_iff] at hask
  obtain ⟨table, hhandle, hask⟩ := hask
  obtain ⟨t, ht, hserve⟩ := Option.map_eq_some_iff.1 hask
  obtain ⟨rfl, rfl⟩ := Prod.mk.inj hserve
  refine ⟨fun table' hmem => ?_, fun entry hentry => ?_, fun table' t' ht' => ?_⟩
  · simpa using h.handles table' hmem
  · rcases List.mem_append.1 hentry with hentry | hentry
    · exact h.logged entry hentry
    · exact List.mem_singleton.1 hentry ▸ (List.getElem?_eq_some_iff.1 hhandle).1
  · rw [exchangesOn_concat]
    by_cases hsame : table = table'
    · subst hsame
      have hlt := (List.getElem?_eq_some_iff.1 ht).1
      obtain rfl : (t.serve call).2 = t' := by simpa [hlt] using ht'
      rw [if_pos hhandle]
      exact (h.tables table t ht).next rfl
    · have hother : p.handles[handle]? ≠ some table' := by simpa [hhandle] using hsame
      rw [if_neg hother, List.append_nil]
      refine h.tables table' t' ?_
      rwa [List.getElem?_set_ne hsame] at ht'

/-- Whatever has been asked, each table is what its exchanges have led to. -/
theorem LedTo.keeps (h : LedTo log p) : p.Keeps log := by
  induction h with
  | start =>
    refine ⟨by decide, by simp, fun table t ht => ?_⟩
    obtain ⟨hlt, rfl⟩ := List.getElem?_eq_some_iff.1 ht
    obtain rfl : table = 0 := by simpa [NamePool.start] using hlt
    exact .none
  | share _ hshare ih => exact ih.share hshare
  | add _ ih => exact ih.add
  | ask _ hask ih => exact ih.ask hask

/-- Whatever was asked through the handles of a pool, a table lists the well-known texts and those
that were interned through its handles, each once and in the order in which they came. Names and
texts belong together one to one, and a name that was given for a text stands for it ever after,
also for a table in two parts. To intern a text gives it a name; to ask for more changes nothing. -/
theorem names_growing_bijection (log : List (Nat × Exchange)) (p : NamePool) (hp : LedTo log p)
    (handle : Nat) (hhandle : handle < p.handles.length) :
    ∃ (table : Nat) (t : NameTable), p.handles[handle]? = some table ∧
      p.table? handle = some t ∧
      t.texts = (Name.wellKnown ++
        (p.exchangesOn log table).filterMap Exchange.interned?).eraseDups ∧
      (∀ n text, t.text? n = some text ↔ t.get? text = some n) ∧
      (∀ n, (t.text? n).isSome = true ↔ n.index < t.size) ∧
      (t.size ≤ UInt32.size → ∀ n n' : Name, n.index < t.size → n'.index < t.size →
        (n.word = n'.word ↔ n = n')) ∧
      (∀ text, (t.get? text).isSome = true ↔ text ∈ Name.wellKnown ∨
        ∃ x ∈ p.exchangesOn log table, x.call = .intern text) ∧
      (t.text? .self = some "self" ∧ t.text? .init = some "__init__" ∧
        t.text? .object = some "object" ∧ t.text? .super = some "super") ∧
      (∃ s, Exchanges SplitTable.serve .fresh (p.exchangesOn log table) s ∧ s.texts = t.texts ∧
        ∀ text, s.names.lookup text = t.get? text) ∧
      (∀ x ∈ p.exchangesOn log table, ∀ text n, x.Names text n → t.text? n = some text ∧
        ∀ x' ∈ p.exchangesOn log table, ∀ text' n', x'.Names text' n' →
          (n = n' ↔ text = text')) ∧
      (∀ text, ∃ n p', p.ask handle (.intern text) = some (.named n, p') ∧
        p'.table? handle = some (t.insert text) ∧ t.texts <+: (t.insert text).texts ∧
        p'.ask handle (.resolve n) = some (.resolved (some text), p')) ∧
      (∀ text, p.ask handle (.get text) = some (.found (t.get? text), p)) ∧
      (∀ n, p.ask handle (.resolve n) = some (.resolved (t.text? n), p)) ∧
      (∀ n, p.ask handle (.display n) = some (.shown (t.display n), p)) ∧
      ∃ p', p.share handle = some (p.handles.length, p') ∧ p'.table? p.handles.length = some t := by
  have hkeeps := hp.keeps
  obtain ⟨table, htable⟩ : ∃ table, p.handles[handle]? = some table :=
    ⟨_, List.getElem?_eq_getElem hhandle⟩
  have hlt : table < p.tables.length := hkeeps.handles table (List.mem_of_getElem? htable)
  obtain ⟨t, ht⟩ : ∃ t, p.tables[table]? = some t := ⟨_, List.getElem?_eq_getElem hlt⟩
  have hx := hkeeps.tables table t ht
  have hbehind : p.table? handle = some t := by rw [table?, htable, Option.bind_some, ht]
  -- The table is the fresh one with all texts added that were interned through any of its handles.
  have hmade := NameTable.eq_insertAll hx
  have htexts := congrArg NameTable.texts hmade
  rw [NameTable.texts_insertAll] at htexts
  obtain ⟨s, hs, hmirrors⟩ := SplitTable.exists_exchanges hx
  refine ⟨table, t, htable, hbehind, htexts, fun _ _ => NameTable.text?_eq_some_iff,
    fun _ => NameTable.isSome_text?_iff, fun hsize _ _ => NameTable.word_inj hsize,
    fun text => ?_, hmade ▸ NameTable.text?_wellKnown _,
    ⟨s, hs, hmirrors.texts, hmirrors.names⟩, fun x hmem text n hnames =>
      ⟨NameTable.text?_of_names hx hmem hnames, fun x' hmem' text' n' hnames' => ?_⟩,
    fun text => ?_, ?_, ?_, ?_, ?_⟩
  · rw [NameTable.isSome_get?_iff, htexts, List.mem_eraseDups, List.mem_append, List.mem_filterMap]
    simp only [Exchange.interned?_eq_some]
  · have htext := NameTable.text?_of_names hx hmem hnames
    have htext' := NameTable.text?_of_names hx hmem' hnames'
    constructor
    · rintro rfl
      exact Option.some.inj (htext.symm.trans htext')
    · rintro rfl
      exact Option.some.inj ((NameTable.get?_of_text? htext).symm.trans
        (NameTable.get?_of_text? htext'))
  · have hafter : NamePool.table? { p with tables := p.tables.set table (t.insert text) } handle =
        some (t.insert text) := by
      simp [table?, htable, hlt]
    refine ⟨(t.intern text).1, { p with tables := p.tables.set table (t.insert text) }, ?_, hafter,
      t.prefix_insert text, ?_⟩
    · rw [ask_eq, htable, Option.bind_some, ht]
      rfl
    · rw [ask, hafter, Option.map_some]
      exact congrArg (fun text? => some (NameAnswer.resolved text?, _)) (t.text?_intern text)
  · exact fun text => by rw [ask, hbehind, Option.map_some]
  · exact fun n => by rw [ask, hbehind, Option.map_some]
  · exact fun n => by rw [ask, hbehind, Option.map_some]
  · refine ⟨{ p with handles := p.handles ++ [table] }, by rw [share, htable, Option.map_some], ?_⟩
    rw [table?, List.getElem?_concat_length, Option.bind_some, ht]

/-- Two handles on one table and one on another. A text is interned through the second handle, a
text through each of the others, and the first text is asked for. -/
def sharedLog : List (Nat × Exchange) :=
  [(1, ⟨.intern "a", .named ⟨4⟩⟩), (2, ⟨.intern "b", .named ⟨4⟩⟩), (0, ⟨.intern "b", .named ⟨5⟩⟩),
    (1, ⟨.get "a", .found (some ⟨4⟩)⟩)]

/-- The pool that this leads to. -/
def sharedPool : NamePool :=
  ⟨[⟨Name.wellKnown ++ ["a", "b"], by decide⟩, ⟨Name.wellKnown ++ ["b"], by decide⟩], [0, 0, 1]⟩

/-- The second handle sees what was interned through the first, and nothing of the other table. -/
theorem names_growing_bijection_sharedPool : LedTo sharedLog sharedPool ∧
    1 < sharedPool.handles.length ∧
    ∃ t, sharedPool.table? 1 = some t ∧
      t.texts = ["self", "__init__", "object", "super", "a", "b"] ∧ t.text? ⟨5⟩ = some "b" ∧
      t.text? ⟨4⟩ = some "a" ∧
      (∃ n p', sharedPool.ask 1 (.intern "c") = some (.named n, p') ∧
        p'.ask 1 (.resolve n) = some (.resolved (some "c"), p')) ∧
      ∃ s, Exchanges SplitTable.serve .fresh
          [⟨.intern "a", .named ⟨4⟩⟩, ⟨.intern "b", .named ⟨5⟩⟩, ⟨.get "a", .found (some ⟨4⟩)⟩] s ∧
        s.texts = t.texts ∧ s.names.lookup "b" = t.get? "b" := by
  have hshared : LedTo [] ⟨[.fresh], [0, 0]⟩ :=
    .share .start (rfl : NamePool.start.share 0 = some (1, _))
  have hfirst : LedTo (sharedLog.take 1) ⟨[⟨Name.wellKnown ++ ["a"], by decide⟩], [0, 0]⟩ :=
    .ask hshared rfl
  have hother : LedTo (sharedLog.take 2)
      ⟨[⟨Name.wellKnown ++ ["a"], by decide⟩, ⟨Name.wellKnown ++ ["b"], by decide⟩], [0, 0, 1]⟩ :=
    .ask hfirst.add rfl
  have hsecond : LedTo (sharedLog.take 3) sharedPool := .ask hother rfl
  have hled : LedTo sharedLog sharedPool := .ask hsecond rfl
  have hhandle : 1 < sharedPool.handles.length := by decide
  obtain ⟨table, t, htable, ht, htexts, -, -, -, -, -, ⟨s, hs, hsame, hnames⟩, hstands,
    hintern, -⟩ :=
    names_growing_bijection sharedLog sharedPool hled 1 hhandle
  obtain rfl : 0 = table := Option.some.inj htable
  obtain ⟨n, p', hask, -, -, hresolve⟩ := hintern "c"
  have hlog : sharedPool.exchangesOn sharedLog 0 = [⟨.intern "a", .named ⟨4⟩⟩,
    ⟨.intern "b", .named ⟨5⟩⟩, ⟨.get "a", .found (some ⟨4⟩)⟩] := by decide
  rw [hlog] at htexts hs hstands
  refine ⟨hled, hhandle, t, ht, htexts.trans (by decide), (hstands _ (by simp) _ _ (.inl rfl)).1,
    (hstands _ (by simp) _ _ (.inr rfl)).1, ⟨n, p', hask, hresolve⟩, s, hs, hsame, hnames "b"⟩

end NamePool

end DefiniteInit
