import StencilShapes.Description.Basic
import StencilShapes.Json.Draft

/-!
# Reading descriptions

The description, its functions and their fields are read from a draft from left
to right, so that the fault reported is the first one.  Each of them may be an
object, whose unknown members are passed over, or an array of its members in
order.  An operation is read as a whole before its members are looked at; only
its tag is judged where it stands.
-/

namespace StencilShapes

abbrev Read := Except ReadFault

namespace Draft

def readString : Draft → Read String
  | .string q => q.text?
  | d => .error d.mismatch

def readBool : Draft → Read Bool
  | .bool b => .ok b
  | d => .error d.mismatch

/-- Reads a rank, which is a natural number of 64 bits. -/
def readRank : Draft → Read UInt64
  | .number n =>
      match n.intBetween? 0 18446744073709551615 with
      | some i => .ok (UInt64.ofNat i.toNat)
      | none => .error (Draft.number n).mismatch
  | d => .error d.mismatch

/-- Reads the items of an array up to its end. -/
def readItems {α : Type} (read : Draft → Read α) (ending : Ending) : List Draft → Read (List α)
  | [] =>
      match ending.check with
      | .ok () => .ok []
      | .error fault => .error fault
  | d :: rest =>
      match read d with
      | .error fault => .error fault
      | .ok a =>
          match readItems read ending rest with
          | .error fault => .error fault
          | .ok as => .ok (a :: as)

def readArray {α : Type} (read : Draft → Read α) : Draft → Read (List α)
  | .array items ending => readItems read ending items
  | d => .error d.mismatch

/-- Reads the members of an object up to its end, each with what is known so far. -/
def readMembers {σ : Type} (read : σ → String → Draft → Read σ) (ending : Ending) :
    σ → List (Quoted × Draft) → Read σ
  | s, [] =>
      match ending.check with
      | .ok () => .ok s
      | .error fault => .error fault
  | s, (key, d) :: rest =>
      match key.text? with
      | .error fault => .error fault
      | .ok name =>
          match read s name d with
          | .error fault => .error fault
          | .ok s => readMembers read ending s rest

/-- Reads a member that must not have been there before. -/
def readOnce {α : Type} (known : Option α) (read : Draft → Read α) (d : Draft) : Read α :=
  match known with
  | some _ => .error .wrongShape
  | none => read d

/-- A member that has to be there. -/
def require {α : Type} : Option α → Read α
  | some a => .ok a
  | none => .error .wrongShape

/-- Reads the next item of an array that stands for members in order. -/
def nextItem {α : Type} (read : Draft → Read α) (ending : Ending) :
    List Draft → Read (Option α × List Draft)
  | [] =>
      match ending.check with
      | .ok () => .ok (none, [])
      | .error fault => .error fault
  | d :: rest =>
      match read d with
      | .ok a => .ok (some a, rest)
      | .error fault => .error fault

/-- An array that stands for members in order has no further items; a comma is
already one thing too many. -/
def noMoreItems (ending : Ending) : List Draft → Read Unit
  | [] => ending.check
  | _ :: _ => .error .notJson

/-- The element of a spelling. -/
def elementNamed (s : String) : Read Element :=
  require (Element.ofText? s)

/-- Reads an element: its spelling, or an object with the spelling as its only
key and null as the value.  Anything else is refused at its first character, in
place of the key too. -/
def readElement : Draft → Read Element
  | .string q => q.text? >>= elementNamed
  | .object [] .closed => .error .notJson
  | .object [] (.gap fault) => .error fault
  | .object ((key, d) :: rest) ending => do
      let e ← key.text? >>= elementNamed
      match d with
      | .null => noMoreItems ending (rest.map Prod.snd)
      | d => .error d.mismatch
      return e
  | .missing => .error .cutShort
  | _ => .error .notJson

end Draft

/-- The members of a field that have been read. -/
structure FieldMembers where
  name : Option String := none
  element : Option Element := none
  rank : Option UInt64 := none

namespace FieldMembers

def read (m : FieldMembers) (name : String) (d : Draft) : Read FieldMembers :=
  match name with
  | "name" => (fun x => { m with name := some x }) <$> Draft.readOnce m.name Draft.readString d
  | "element" =>
      (fun x => { m with element := some x }) <$> Draft.readOnce m.element Draft.readElement d
  | "rank" => (fun x => { m with rank := some x }) <$> Draft.readOnce m.rank Draft.readRank d
  | _ => (fun _ => m) <$> d.skip

/-- The field, if all members are there. -/
def toField (m : FieldMembers) : Read FieldDesc := do
  let name ← Draft.require m.name
  let element ← Draft.require m.element
  let rank ← Draft.require m.rank
  return { name, element, rank }

end FieldMembers

def FieldDesc.read : Draft → Read FieldDesc
  | .object members ending =>
      Draft.readMembers FieldMembers.read ending {} members >>= FieldMembers.toField
  | .array items ending => do
      let (name, items) ← Draft.nextItem Draft.readString ending items
      let name ← Draft.require name
      let (element, items) ← Draft.nextItem Draft.readElement ending items
      let element ← Draft.require element
      let (rank, items) ← Draft.nextItem Draft.readRank ending items
      let rank ← Draft.require rank
      Draft.noMoreItems ending items
      return { name, element, rank }
  | d => .error d.mismatch

namespace Json

/-- The string that a value is. -/
def string? : Json → Option String
  | .string s => some s
  | _ => none

/-- The coordinate that a value is. -/
def coord? : Json → Option Coord
  | .number n => n.int?.bind Coord.ofInt?
  | _ => none

/-- The items of an array. -/
def items? {α : Type} (read : Json → Option α) : Json → Option (List α)
  | .array items => items.mapM read
  | _ => none

/-- The point that an array of coordinates is. -/
def point? : Json → Option Point :=
  items? coord?

/-- The strings that an array holds. -/
def strings? : Json → Option (List String) :=
  items? string?

/-- A point that may be absent; null stands for its absence. -/
def optionalPoint? : Json → Option (Option Point)
  | .null => some none
  | v => (point? v).map some

/-- The operator of a spelling, or of an object with the spelling as its only
key and nothing as the value. -/
def operator? : Json → Option Operator
  | .string s => Operator.ofText? s
  | .object [(s, .null)] => Operator.ofText? s
  | .object [(s, .object [])] => Operator.ofText? s
  | _ => none

end Json

/-- The members of an operation besides its tag. -/
inductive OpMembers where
  | named (members : List (String × Json))
  | inOrder (items : List Json)

namespace OpMembers

/-- The member of a name, if there is exactly one. -/
def unique? (name : String) (members : List (String × Json)) : Option Json :=
  match members.filter (·.1 == name) with
  | [m] => some m.2
  | _ => none

/-- Members by name, put in the order of `names`; none may be missing or occur twice. -/
def select (names : List String) : OpMembers → Option (List Json)
  | .named members => names.mapM fun name => unique? name members
  | .inOrder items => some items

/-- The same where the last member may be missing; null stands for it. -/
def selectOptional (names : List String) (last : String) : OpMembers → Option (List Json)
  | .named members =>
      if members.any (·.1 == last) then (OpMembers.named members).select (names ++ [last])
      else ((OpMembers.named members).select names).map (· ++ [.null])
  | .inOrder items => some (if items.length = names.length then items ++ [.null] else items)

end OpMembers

/-- The kinds of operations of a body. -/
inductive BodyTag where
  | access
  | arith
  | ret

/-- The tag of an operation of a body: its spelling, or its position among the tags. -/
def BodyTag.ofJson? : Json → Option BodyTag
  | .string "access" => some .access
  | .string "arith" => some .arith
  | .string "return" => some .ret
  | .number n =>
      match n.int? with
      | some 0 => some .access
      | some 1 => some .arith
      | some 2 => some .ret
      | _ => none
  | _ => none

/-- The operation of a body with a tag and members. -/
def BodyOpDesc.ofMembers? (m : OpMembers) : BodyTag → Option BodyOpDesc
  | .access =>
      match m.select ["result", "param", "offset"] with
      | some [result, param, offset] => do
          return .access (← result.string?) (← param.string?) (← offset.point?)
      | _ => none
  | .arith =>
      match m.select ["result", "kind", "lhs", "rhs"] with
      | some [result, kind, lhs, rhs] => do
          return .arith (← result.string?) (← kind.operator?) (← lhs.string?) (← rhs.string?)
      | _ => none
  | .ret =>
      match m.selectOptional ["operands"] "unroll" with
      | some [operands, unroll] => do
          return .ret (← operands.strings?) (← unroll.optionalPoint?)
      | _ => none

/-- The operation of a body that a value describes. -/
def BodyOpDesc.ofJson? : Json → Option BodyOpDesc
  | .object members => do
      let tag ← BodyTag.ofJson? (← OpMembers.unique? "op" members)
      ofMembers? (.named (members.filter (·.1 != "op"))) tag
  | .array (tag :: items) => do
      let tag ← BodyTag.ofJson? tag
      ofMembers? (.inOrder items) tag
  | _ => none

/-- The kinds of operations of a function. -/
inductive OpTag where
  | load
  | apply
  | store

/-- The tag of an operation. -/
def OpTag.ofText? : String → Option OpTag
  | "load" => some .load
  | "apply" => some .apply
  | "store" => some .store
  | _ => none

/-- Reads the tag of an operation. -/
def OpTag.read (d : Draft) : Read OpTag := do
  Draft.require (OpTag.ofText? (← d.readString))

/-- The operation with a tag and members. -/
def OpDesc.ofMembers? (m : OpMembers) : OpTag → Option OpDesc
  | .load =>
      match m.select ["result", "field"] with
      | some [result, field] => do
          return .load (← result.string?) (← field.string?)
      | _ => none
  | .apply =>
      match m.select ["results", "operands", "params", "body"] with
      | some [results, operands, params, body] => do
          return .apply (← results.strings?) (← operands.strings?) (← params.strings?)
            (← body.items? BodyOpDesc.ofJson?)
      | _ => none
  | .store =>
      match m.select ["value", "field", "lb", "ub"] with
      | some [value, field, lower, upper] => do
          return .store (← value.string?) (← field.string?) (← lower.point?) (← upper.point?)
      | _ => none

/-- How deep containers may be nested inside an operation: a text may hold 127
containers inside each other, five of which lead to the operation. -/
def OpDesc.room : Nat := 122

/-- The members of an operation that have been read, latest first. -/
structure TaggedMembers where
  tag : Option OpTag := none
  members : List (String × Json) := []

/-- Reads one member of an operation. -/
def TaggedMembers.read (m : TaggedMembers) (name : String) (d : Draft) : Read TaggedMembers :=
  match name with
  | "op" => (fun x => { m with tag := some x }) <$> Draft.readOnce m.tag OpTag.read d
  | name => (fun v => { m with members := (name, v) :: m.members }) <$> d.value OpDesc.room

def OpDesc.read : Draft → Read OpDesc
  | .object members ending => do
      let m ← Draft.readMembers TaggedMembers.read ending {} members
      let tag ← Draft.require m.tag
      Draft.require (ofMembers? (.named m.members.reverse) tag)
  | .array items ending => do
      let (tag, items) ← Draft.nextItem OpTag.read ending items
      let tag ← Draft.require tag
      let items ← Draft.values OpDesc.room ending items
      Draft.require (ofMembers? (.inOrder items) tag)
  | d => .error d.mismatch

/-- The members of a function that have been read. -/
structure FunctionMembers where
  name : Option String := none
  stencil : Option Bool := none
  args : Option (List FieldDesc) := none
  ops : Option (List OpDesc) := none

namespace FunctionMembers

def read (m : FunctionMembers) (name : String) (d : Draft) : Read FunctionMembers :=
  match name with
  | "name" => (fun x => { m with name := some x }) <$> Draft.readOnce m.name Draft.readString d
  | "stencil_program" =>
      (fun x => { m with stencil := some x }) <$> Draft.readOnce m.stencil Draft.readBool d
  | "args" =>
      (fun x => { m with args := some x }) <$>
        Draft.readOnce m.args (Draft.readArray FieldDesc.read) d
  | "ops" =>
      (fun x => { m with ops := some x }) <$> Draft.readOnce m.ops (Draft.readArray OpDesc.read) d
  | _ => (fun _ => m) <$> d.skip

/-- The function.  Without the member that says otherwise it is a stencil
program, and without arguments it has none. -/
def toFunction (m : FunctionMembers) : Read FunctionDesc := do
  let name ← Draft.require m.name
  let ops ← Draft.require m.ops
  return { name, stencil := m.stencil.getD true, args := m.args.getD [], ops }

end FunctionMembers

def FunctionDesc.read : Draft → Read FunctionDesc
  | .object members ending =>
      Draft.readMembers FunctionMembers.read ending {} members >>= FunctionMembers.toFunction
  | .array items ending => do
      let (name, items) ← Draft.nextItem Draft.readString ending items
      let name ← Draft.require name
      let (stencil, items) ← Draft.nextItem Draft.readBool ending items
      let (args, items) ← Draft.nextItem (Draft.readArray FieldDesc.read) ending items
      let (ops, items) ← Draft.nextItem (Draft.readArray OpDesc.read) ending items
      let ops ← Draft.require ops
      Draft.noMoreItems ending items
      return { name, stencil := stencil.getD true, args := args.getD [], ops }
  | d => .error d.mismatch

/-- Reads one member of a description, with the functions that are known. -/
def Description.readMember (known : Option (List FunctionDesc)) (name : String) (d : Draft) :
    Read (Option (List FunctionDesc)) :=
  match name with
  | "functions" => some <$> Draft.readOnce known (Draft.readArray FunctionDesc.read) d
  | _ => (fun _ => known) <$> d.skip

def Description.read : Draft → Read Description
  | .object members ending => do
      let functions ← Draft.readMembers readMember ending none members
      return { functions := ← Draft.require functions }
  | .array items ending => do
      let (functions, items) ← Draft.nextItem (Draft.readArray FunctionDesc.read) ending items
      let functions ← Draft.require functions
      Draft.noMoreItems ending items
      return { functions }
  | d => .error d.mismatch

/-- The description that a text gives; nothing but blanks may follow it. -/
def Description.ofText (s : String) : Read Description := do
  let (draft, trailing) := Draft.ofText s
  let d ← read draft
  if trailing then .error .notJson else return d

end StencilShapes
