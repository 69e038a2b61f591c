import DefiniteInit.Document.Basic

/-!
# Reading documents

`Document.parse?` reads a JSON text. Each reader is given a bound on the readers it may
call one within the other and hands on a smaller one. Of two such readers at least one
takes a character, so twice the length of the text is enough.
-/

namespace DefiniteInit

namespace Document

/-- Drops blanks. -/
def skipBlanks (cs : List Char) : List Char :=
  cs.dropWhile fun c => c = ' ' || c = '\t' || c = '\n' || c = '\r'

/-- The value of a hexadecimal digit. -/
def hexDigit? (c : Char) : Option Nat :=
  if '0' ≤ c ∧ c ≤ '9' then some (c.toNat - 48)
  else if 'a' ≤ c ∧ c ≤ 'f' then some (c.toNat - 87)
  else if 'A' ≤ c ∧ c ≤ 'F' then some (c.toNat - 55)
  else none

/-- The number that hexadecimal digits stand for. -/
def hexNumber? (digits : List Char) : Option Nat :=
  digits.foldlM (fun n c => (hexDigit? c).map (n * 16 + ·)) 0

/-- The character a two-character escape stands for. -/
def unescape? : Char → Option Char
  | '"' => some '"'
  | '\\' => some '\\'
  | '/' => some '/'
  | 'b' => some '\x08'
  | 'f' => some '\x0c'
  | 'n' => some '\n'
  | 'r' => some '\r'
  | 't' => some '\t'
  | _ => none

/-- Whether a number is the first half of a pair that stands for one character. -/
def isHighSurrogate (n : Nat) : Bool := 0xD800 ≤ n && n < 0xDC00

/-- Whether a number is the second half of such a pair. -/
def isLowSurrogate (n : Nat) : Bool := 0xDC00 ≤ n && n < 0xE000

/-- Reads up to the closing quote. `done` is what has been read, last character first. -/
def readText (done : List Char) : List Char → Option (String × List Char)
  | [] => none
  | '"' :: cs => some (String.ofList done.reverse, cs)
  | '\\' :: 'u' :: a :: b :: c :: d :: cs =>
    match hexNumber? [a, b, c, d] with
    | none => none
    | some n =>
      if isHighSurrogate n then
        match cs with
        | '\\' :: 'u' :: a :: b :: c :: d :: cs =>
          match hexNumber? [a, b, c, d] with
          | none => none
          | some m =>
            if isLowSurrogate m then
              readText (Char.ofNat (0x10000 + (n - 0xD800) * 0x400 + (m - 0xDC00)) :: done) cs
            else none
        | _ => none
      else if isLowSurrogate n then none
      else readText (Char.ofNat n :: done) cs
  | '\\' :: c :: cs =>
    match unescape? c with
    | some c => readText (c :: done) cs
    | none => none
  | c :: cs => if c < ' ' then none else readText (c :: done) cs

/-- Takes digits, of which there has to be one. -/
def readDigits (cs : List Char) : Option (List Char × List Char) :=
  match cs.takeWhile Char.isDigit with
  | [] => none
  | digits => some (digits, cs.dropWhile Char.isDigit)

/-- The part of a number after the point, if there is one. -/
def readPoint : List Char → Option (List Char × List Char)
  | '.' :: cs => (readDigits cs).map fun (digits, cs) => ('.' :: digits, cs)
  | cs => some ([], cs)

/-- The exponent of a number, if there is one. -/
def readExponent : List Char → Option (List Char × List Char)
  | e :: cs =>
    if e = 'e' ∨ e = 'E' then
      match cs with
      | '+' :: cs => (readDigits cs).map fun (digits, cs) => (e :: '+' :: digits, cs)
      | '-' :: cs => (readDigits cs).map fun (digits, cs) => (e :: '-' :: digits, cs)
      | cs => (readDigits cs).map fun (digits, cs) => (e :: digits, cs)
    else some ([], e :: cs)
  | [] => some ([], [])

/-- The number that decimal digits stand for. -/
def decimal (digits : List Char) : Nat :=
  digits.foldl (fun n c => n * 10 + (c.toNat - 48)) 0

/-- Reads a number. Minus zero is no whole number. -/
def readNumber (cs : List Char) : Option (Document × List Char) := do
  let (sign, cs) := match cs with
    | '-' :: cs => (['-'], cs)
    | cs => ([], cs)
  let (digits, cs) ← readDigits cs
  if digits.length > 1 && digits.head? = some '0' then none
  let (point, cs) ← readPoint cs
  let (exponent, cs) ← readExponent cs
  let value := decimal digits
  if point.isEmpty && exponent.isEmpty && (sign.isEmpty || value ≠ 0) then
    return (.whole (if sign.isEmpty then value else -value), cs)
  else
    return (.fraction (String.ofList (sign ++ digits ++ point ++ exponent)), cs)

mutual

/-- Reads a value. -/
def readValue : Nat → List Char → Option (Document × List Char)
  | 0, _ => none
  | bound + 1, cs =>
    match skipBlanks cs with
    | 'n' :: 'u' :: 'l' :: 'l' :: cs => some (.null, cs)
    | 't' :: 'r' :: 'u' :: 'e' :: cs => some (.flag true, cs)
    | 'f' :: 'a' :: 'l' :: 's' :: 'e' :: cs => some (.flag false, cs)
    | '"' :: cs => (readText [] cs).map fun (value, cs) => (.text value, cs)
    | '[' :: cs =>
      match skipBlanks cs with
      | ']' :: cs => some (.list [], cs)
      | cs => readItems bound [] cs
    | '\x7b' :: cs =>
      match skipBlanks cs with
      | '\x7d' :: cs => some (.record [], cs)
      | cs => readFields bound [] cs
    | cs => readNumber cs

/-- Reads the items of a list. `done` has those read, the last first. -/
def readItems : Nat → List Document → List Char → Option (Document × List Char)
  | 0, _, _ => none
  | bound + 1, done, cs =>
    match readValue bound cs with
    | none => none
    | some (item, cs) =>
      match skipBlanks cs with
      | ',' :: cs => readItems bound (item :: done) cs
      | ']' :: cs => some (.list (item :: done).reverse, cs)
      | _ => none

/-- Reads the fields of a record. `done` has those read, the last first. -/
def readFields : Nat → List (String × Document) → List Char → Option (Document × List Char)
  | 0, _, _ => none
  | bound + 1, done, cs =>
    match skipBlanks cs with
    | '"' :: cs =>
      match readText [] cs with
      | none => none
      | some (name, cs) =>
        match skipBlanks cs with
        | ':' :: cs =>
          match readValue bound cs with
          | none => none
          | some (value, cs) =>
            match skipBlanks cs with
            | ',' :: cs => readFields bound ((name, value) :: done) cs
            | '\x7d' :: cs => some (.record ((name, value) :: done).reverse, cs)
            | _ => none
        | _ => none
    | _ => none

end

/-- The document that a text is. -/
def parse? (written : String) : Option Document :=
  let cs := written.toList
  match readValue (2 * cs.length + 1) cs with
  | some (document, rest) => if (skipBlanks rest).isEmpty then some document else none
  | none => none

end Document

end DefiniteInit
