import StencilShapes.Json.Numeral

/-!
# Strings as they are written

A quoted string is kept piece by piece.  An escape may name half of a surrogate
pair; such a piece is a character only together with the other half, which has
to follow at once.  A text that ends or breaks inside a string leaves its fault
behind the pieces.

**Main statements.**
* `Quoted.length_read`: what follows a string is no longer than the text.
* `Quoted.text?_ofString`: a string that is written out is read back.
-/

namespace StencilShapes

/-- One character of a quoted string, or half of one. -/
inductive Piece where
  | char (c : Char)
  | half (unit : Nat)
  deriving DecidableEq

/-- A string as it is written. -/
structure Quoted where
  pieces : List Piece
  /-- What keeps it from ending with a quote. -/
  fault : Option ReadFault
  deriving DecidableEq

namespace Quoted

/-- The string that ends at once. -/
def done : Quoted :=
  { pieces := [], fault := none }

/-- The string that breaks at once. -/
def broken (fault : ReadFault) : Quoted :=
  { pieces := [], fault := some fault }

/-- The string with one more piece in front. -/
def push (p : Piece) (q : Quoted) : Quoted :=
  { q with pieces := p :: q.pieces }

/-- The value of a hexadecimal digit of either case. -/
def hexDigit? (c : Char) : Option Nat :=
  if c.isDigit then some (c.toNat - '0'.toNat)
  else if 'a' ≤ c ∧ c ≤ 'f' then some (c.toNat - 'a'.toNat + 10)
  else if 'A' ≤ c ∧ c ≤ 'F' then some (c.toNat - 'A'.toNat + 10)
  else none

/-- The value of four hexadecimal digits. -/
def hexQuad? (a b c d : Char) : Option Nat :=
  match hexDigit? a, hexDigit? b, hexDigit? c, hexDigit? d with
  | some a, some b, some c, some d => some (((a * 16 + b) * 16 + c) * 16 + d)
  | _, _, _, _ => none

/-- The piece that a 16-bit unit stands for. -/
def Piece.ofUnit (unit : Nat) : Piece :=
  if 0xD800 ≤ unit ∧ unit ≤ 0xDFFF then .half unit else .char (Char.ofNat unit)

/-- The character that a letter after a backslash stands for. -/
def escape? (c : Char) : Option Char :=
  if c = '"' ∨ c = '\\' ∨ c = '/' then some c
  else if c = 'b' then some '\x08'
  else if c = 'f' then some '\x0c'
  else if c = 'n' then some '\n'
  else if c = 'r' then some '\r'
  else if c = 't' then some '\t'
  else none

/-- The fault of an escape by number that does not have four digits; the text is
cut short if not even four bytes are left. -/
def shortEscape (rest : List Char) : ReadFault :=
  if (String.ofList rest).utf8ByteSize < 4 then .cutShort else .notJson

/-- Reads a string from behind its first quote, and returns what follows it.
Nothing follows a string that breaks. -/
def read : List Char → Quoted × List Char
  | [] => (broken .cutShort, [])
  | c :: rest =>
      if c = '"' then (done, rest)
      else if c = '\\' then
        match rest with
        | [] => (broken .cutShort, [])
        | e :: rest =>
            if e = 'u' then
              match rest with
              | a :: b :: c :: d :: rest =>
                  match hexQuad? a b c d with
                  | some unit => ((read rest).1.push (Piece.ofUnit unit), (read rest).2)
                  | none => (broken .notJson, [])
              | rest => (broken (shortEscape rest), [])
            else
              match escape? e with
              | some x => ((read rest).1.push (.char x), (read rest).2)
              | none => (broken .notJson, [])
      else if c.toNat < 0x20 then (broken .notJson, [])
      else ((read rest).1.push (.char c), (read rest).2)

/-- The characters of a string whose halves all find each other. -/
def join (fault : Option ReadFault) : List Piece → Except ReadFault (List Char)
  | [] =>
      match fault with
      | none => .ok []
      | some f => .error f
  | .char c :: rest =>
      match join fault rest with
      | .ok cs => .ok (c :: cs)
      | .error f => .error f
  | [.half unit] => if unit < 0xDC00 then .error (fault.getD .notJson) else .error .notJson
  | .half high :: .half low :: rest =>
      if high < 0xDC00 ∧ 0xDC00 ≤ low then
        match join fault rest with
        | .ok cs => .ok (Char.ofNat (0x10000 + (high - 0xD800) * 0x400 + (low - 0xDC00)) :: cs)
        | .error f => .error f
      else .error .notJson
  | .half _ :: .char _ :: _ => .error .notJson

/-- The text of a string, unless something is wrong with it. -/
def text? (q : Quoted) : Except ReadFault String :=
  match join q.fault q.pieces with
  | .ok cs => .ok (String.ofList cs)
  | .error f => .error f

/-- A string as its own characters. -/
def ofString (s : String) : Quoted :=
  { pieces := s.toList.map .char, fault := none }

/-- A digit of a hexadecimal number, in lower case. -/
def hexChar (n : Nat) : Char :=
  Nat.digitChar (n % 16)

/-- A 16-bit unit as an escape. -/
def unitText (unit : Nat) : List Char :=
  ['\\', 'u', hexChar (unit / 4096), hexChar (unit / 256), hexChar (unit / 16), hexChar unit]

/-- A character between quotes: quotes, backslashes and control characters are escaped. -/
def charText (c : Char) : List Char :=
  if c = '"' then ['\\', '"']
  else if c = '\\' then ['\\', '\\']
  else if c = '\x08' then ['\\', 'b']
  else if c = '\x0c' then ['\\', 'f']
  else if c = '\n' then ['\\', 'n']
  else if c = '\r' then ['\\', 'r']
  else if c = '\t' then ['\\', 't']
  else if c.toNat < 0x20 then unitText c.toNat
  else [c]

def pieceText : Piece → List Char
  | .char c => charText c
  | .half unit => unitText unit

/-- The text of a string with its quotes. -/
def write (q : Quoted) : List Char :=
  '"' :: q.pieces.flatMap pieceText ++ if q.fault.isNone then ['"'] else []

theorem length_read (cs : List Char) : (read cs).2.length ≤ cs.length := by
  fun_induction read cs <;> simp_all <;> omega

theorem join_chars (cs : List Char) : join none (cs.map .char) = .ok cs := by
  induction cs with
  | nil => rfl
  | cons c cs ih => simp [join, ih]

theorem text?_ofString (s : String) : (ofString s).text? = .ok s := by
  simp [text?, ofString, join_chars]

end Quoted

end StencilShapes
