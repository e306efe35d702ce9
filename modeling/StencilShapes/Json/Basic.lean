import StencilShapes.Json.Token

/-!
# JSON values

A value is written without blanks from its tokens, or over several lines with
two blanks per level.
-/

namespace StencilShapes

/-- A JSON value; the members of an object keep their order. -/
inductive Json where
  | null
  | bool (b : Bool)
  | number (n : Numeral)
  | string (s : String)
  | array (items : List Json)
  | object (members : List (String × Json))

namespace Json

def int (n : Int) : Json := .number (.ofInt n)

def strings (ss : List String) : Json := .array (ss.map .string)

/-- The tokens of items, with commas between them. -/
def separated : List (List Token) → List Token
  | [] => []
  | [ts] => ts
  | ts :: rest => ts ++ .comma :: separated rest

mutual

/-- The tokens of a value. -/
def tokens : Json → List Token
  | .null => [.null]
  | .bool b => [.bool b]
  | .number n => [.number n]
  | .string s => [.string (.ofString s)]
  | .array items => .leftBracket :: separated (itemTokens items) ++ [.rightBracket]
  | .object members => .leftBrace :: separated (memberTokens members) ++ [.rightBrace]

/-- The tokens of each item. -/
def itemTokens : List Json → List (List Token)
  | [] => []
  | v :: rest => tokens v :: itemTokens rest

/-- The tokens of each member. -/
def memberTokens : List (String × Json) → List (List Token)
  | [] => []
  | (key, v) :: rest => (.string (.ofString key) :: .colon :: tokens v) :: memberTokens rest

end

/-- The text of a value without blanks. -/
def compact (v : Json) : String :=
  String.ofList (v.tokens.flatMap Token.text)

/-- The start of a line at some level. -/
def newLine (level : Nat) : List Char :=
  '\n' :: List.replicate (2 * level) ' '

/-- Puts items on lines of their own between two signs; without items, the signs alone. -/
def block (left right : Char) (level : Nat) (items : List (List Char)) : List Char :=
  if items.isEmpty then [left, right]
  else
    left :: [','].intercalate (items.map fun item => newLine (level + 1) ++ item)
      ++ newLine level ++ [right]

mutual

/-- The text of a value over several lines, at some level. -/
def lines (level : Nat) : Json → List Char
  | .array items => block '[' ']' level (itemLines (level + 1) items)
  | .object members => block '\x7b' '\x7d' level (memberLines (level + 1) members)
  | v => v.tokens.flatMap Token.text

/-- The text of each item. -/
def itemLines (level : Nat) : List Json → List (List Char)
  | [] => []
  | v :: rest => lines level v :: itemLines level rest

/-- The text of each member. -/
def memberLines (level : Nat) : List (String × Json) → List (List Char)
  | [] => []
  | (key, v) :: rest =>
      ((Quoted.ofString key).write ++ ':' :: ' ' :: lines level v) :: memberLines level rest

end

/-- The text of a value over several lines, the last of which is ended. -/
def pretty (v : Json) : String :=
  String.ofList (v.lines 0 ++ ['\n'])

end Json

end StencilShapes
