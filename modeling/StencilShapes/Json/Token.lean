import StencilShapes.Json.Quoted

/-!
# Tokens

A text falls into tokens with blanks between them.  Where it does not, the last
token says so, and nothing is read behind it.

**Main statements.**
* `Token.length_read`: what follows a token is no longer than what follows its
  first character.
-/

namespace StencilShapes

/-- The words and signs of a text. -/
inductive Token where
  | leftBrace
  | rightBrace
  | leftBracket
  | rightBracket
  | colon
  | comma
  | null
  | bool (b : Bool)
  | number (n : Numeral)
  | string (q : Quoted)
  | badNumber (fault : ReadFault)
  /-- A word that breaks, or a character that begins no token. -/
  | bad (fault : ReadFault)
  deriving DecidableEq

namespace Token

/-- Blanks may stand between tokens. -/
def isBlank (c : Char) : Bool :=
  c == ' ' || c == '\n' || c == '\t' || c == '\r'

/-- Reads the letters of a word one by one. -/
def readWord (token : Token) : (letters : List Char) → List Char → Token × List Char
  | [], rest => (token, rest)
  | _ :: _, [] => (.bad .cutShort, [])
  | a :: letters, c :: rest =>
      if a = c then readWord token letters rest else (.bad .notJson, [])

/-- Reads a number from its first character on. -/
def readNumber (cs : List Char) : Token × List Char :=
  match Numeral.read cs with
  | .ok (n, rest) => (.number n, rest)
  | .error fault => (.badNumber fault, [])

/-- The token that is a single sign. -/
def sign? (c : Char) : Option Token :=
  if c = '\x7b' then some .leftBrace
  else if c = '\x7d' then some .rightBrace
  else if c = '[' then some .leftBracket
  else if c = ']' then some .rightBracket
  else if c = ':' then some .colon
  else if c = ',' then some .comma
  else none

/-- The word that begins with a letter, with its other letters. -/
def word? (c : Char) : Option (Token × List Char) :=
  if c = 'n' then some (.null, ['u', 'l', 'l'])
  else if c = 't' then some (.bool true, ['r', 'u', 'e'])
  else if c = 'f' then some (.bool false, ['a', 'l', 's', 'e'])
  else none

/-- Reads the token that begins with `c`, and returns what follows it. -/
def read (c : Char) (rest : List Char) : Token × List Char :=
  match sign? c, word? c with
  | some token, _ => (token, rest)
  | none, some (token, letters) => readWord token letters rest
  | none, none =>
      if c = '"' then (.string (Quoted.read rest).1, (Quoted.read rest).2)
      else if c = '-' ∨ c.isDigit then readNumber (c :: rest)
      else (.bad .notJson, [])

/-- The text of a token.  A token that breaks has no text. -/
def text : Token → List Char
  | .leftBrace => ['\x7b']
  | .rightBrace => ['\x7d']
  | .leftBracket => ['[']
  | .rightBracket => [']']
  | .colon => [':']
  | .comma => [',']
  | .null => ['n', 'u', 'l', 'l']
  | .bool true => ['t', 'r', 'u', 'e']
  | .bool false => ['f', 'a', 'l', 's', 'e']
  | .number n => n.text
  | .string q => q.write
  | .badNumber _ => []
  | .bad _ => []

theorem length_readWord {token : Token} {letters rest : List Char} :
    (readWord token letters rest).2.length ≤ rest.length := by
  induction letters generalizing rest with
  | nil => simp [readWord]
  | cons a letters ih =>
      cases rest with
      | nil => simp [readWord]
      | cons c rest =>
          simp only [readWord]
          split
          · exact Nat.le_succ_of_le ih
          · exact Nat.zero_le _

theorem length_readNumber (c : Char) (rest : List Char) :
    (readNumber (c :: rest)).2.length ≤ rest.length := by
  unfold readNumber
  split
  · next h => exact Nat.le_of_lt_succ (Numeral.length_of_read h)
  · exact Nat.zero_le _

theorem length_read (c : Char) (rest : List Char) : (read c rest).2.length ≤ rest.length := by
  unfold read
  split
  · exact Nat.le_refl _
  · exact length_readWord
  · split
    · exact Quoted.length_read rest
    · split
      · exact length_readNumber c rest
      · exact Nat.zero_le _

/-- All tokens of a text. -/
def readAll (cs : List Char) : List Token :=
  match _h : cs.dropWhile isBlank with
  | [] => []
  | c :: rest => (read c rest).1 :: readAll (read c rest).2
termination_by cs.length
decreasing_by
  have h₁ := length_read c rest
  have h₂ : (cs.dropWhile isBlank).length ≤ cs.length :=
    (List.dropWhile_sublist isBlank).length_le
  rw [_h] at h₂
  simp only [List.length_cons] at h₂
  omega

end Token

end StencilShapes
