import StencilShapes.Json.Basic

/-!
# Drafts

A draft is what a text says as far as it can be read: a JSON value in which the
first breach of the grammar, if there is one, stands in its place.  Whoever reads
a draft from left to right meets that breach only after all that stands before
it, so a value of the wrong shape is noticed first if it comes first.

Reading is a fold over the tokens of the text.  Its state holds the containers
that are open, the innermost one first.
-/

namespace StencilShapes

inductive Ending where
  | closed
  /-- With a fault where a comma, a closing sign or the first key was due. -/
  | gap (fault : ReadFault)
  deriving DecidableEq

/-- A value as far as it can be read. -/
inductive Draft where
  | null
  | bool (b : Bool)
  | number (n : Numeral)
  | string (q : Quoted)
  | array (items : List Draft) (ending : Ending)
  | object (members : List (Quoted × Draft)) (ending : Ending)
  /-- The text ends where a value is due. -/
  | missing
  /-- Something else stands where a value is due: its fault for a reader, and for
  one who only passes over it. -/
  | gap (read skipped : ReadFault)

namespace Ending

/-- The fault of an ending for a reader who wants a comma or a closing sign. -/
def check : Ending → Except ReadFault Unit
  | .closed => .ok ()
  | .gap fault => .error fault

end Ending

namespace Draft

/-- A container that is open: what has been read of it, latest first. -/
inductive Frame where
  | items (before : List Draft)
  /-- An object with the key of the value that is due. -/
  | member (before : List (Quoted × Draft)) (key : Quoted)

/-- Closes an open container behind a value, with an ending of any kind. -/
def Frame.close (ending : Ending) (v : Draft) : Frame → Draft
  | .items before => .array (v :: before).reverse ending
  | .member before key => .object ((key, v) :: before).reverse ending

/-- Puts a draft with a gap into all open containers. -/
def plug (v : Draft) : List Frame → Draft
  | [] => v
  | f :: fs => plug (f.close (.gap .cutShort) v) fs

/-- What has been read, and what is due next. -/
inductive State where
  | value (fs : List Frame)
  /-- The first item of an array, or its end. -/
  | firstItem (fs : List Frame)
  /-- The first key of an object, or its end. -/
  | firstKey (fs : List Frame)
  | nextKey (before : List (Quoted × Draft)) (fs : List Frame)
  | colon (before : List (Quoted × Draft)) (key : Quoted) (fs : List Frame)
  | after (v : Draft) (fs : List Frame)
  /-- The whole value has been read, and something follows it. -/
  | trailing (v : Draft)
  | stuck (v : Draft)

/-- The state after a token where a value is due. -/
def begin (fs : List Frame) : Token → State
  | .null => .after .null fs
  | .bool b => .after (.bool b) fs
  | .number n => .after (.number n) fs
  | .string q => .after (.string q) fs
  | .leftBracket => .firstItem fs
  | .leftBrace => .firstKey fs
  | .badNumber fault => .stuck (plug (.gap fault .notJson) fs)
  | .bad fault => .stuck (plug (.gap fault fault) fs)
  | _ => .stuck (plug (.gap .notJson .notJson) fs)

/-- An object whose next key is missing. -/
def withoutKey (fault : ReadFault) (before : List (Quoted × Draft)) : Draft :=
  .object ((.broken fault, .missing) :: before).reverse (.gap .cutShort)

/-- An object in which a colon is missing, so that `v` is no value. -/
def withoutColon (v : Draft) (before : List (Quoted × Draft)) (key : Quoted) : Draft :=
  .object ((key, v) :: before).reverse (.gap .cutShort)

/-- The state after a token behind a value. -/
def follow (v : Draft) (fs : List Frame) (token : Token) : State :=
  match fs, token with
  | [], _ => .trailing v
  | .items before :: fs, .comma => .value (.items (v :: before) :: fs)
  | .member before key :: fs, .comma => .nextKey ((key, v) :: before) fs
  | .items before :: fs, .rightBracket => .after ((Frame.items before).close .closed v) fs
  | .member before key :: fs, .rightBrace => .after ((Frame.member before key).close .closed v) fs
  | f :: fs, _ => .stuck (plug (f.close (.gap .notJson) v) fs)

/-- The state after one more token. -/
def step (s : State) (token : Token) : State :=
  match s with
  | .value fs => begin fs token
  | .firstItem fs =>
      match token with
      | .rightBracket => .after (.array [] .closed) fs
      | token => begin (.items [] :: fs) token
  | .firstKey fs =>
      match token with
      | .rightBrace => .after (.object [] .closed) fs
      | .string key => .colon [] key fs
      | _ => .stuck (plug (.object [] (.gap .notJson)) fs)
  | .nextKey before fs =>
      match token with
      | .string key => .colon before key fs
      | _ => .stuck (plug (withoutKey .notJson before) fs)
  | .colon before key fs =>
      match token with
      | .colon => .value (.member before key :: fs)
      | _ => .stuck (plug (withoutColon (.gap .notJson .notJson) before key) fs)
  | .after v fs => follow v fs token
  | .trailing v => .trailing v
  | .stuck v => .stuck v

/-- The draft when the text ends, and whether something stands behind it. -/
def finish : State → Draft × Bool
  | .value fs => (plug .missing fs, false)
  | .firstItem fs => (plug (.array [] (.gap .cutShort)) fs, false)
  | .firstKey fs => (plug (.object [] (.gap .cutShort)) fs, false)
  | .nextKey before fs => (plug (withoutKey .cutShort before) fs, false)
  | .colon before key fs => (plug (withoutColon .missing before key) fs, false)
  | .after v fs => (plug v fs, false)
  | .trailing v => (v, true)
  | .stuck v => (v, false)

/-- The draft of some tokens, and whether something stands behind it. -/
def ofTokens (ts : List Token) : Draft × Bool :=
  finish (ts.foldl step (.value []))

/-- The draft of a text, and whether something stands behind it. -/
def ofText (s : String) : Draft × Bool :=
  ofTokens (Token.readAll s.toList)

/-- The fault of a draft where a value of another type is due.  A scalar is read
to its end before it is refused, a container is refused at once. -/
def mismatch : Draft → ReadFault
  | .number n => if n.tooLarge then .notJson else .wrongShape
  | .string q =>
      match q.text? with
      | .ok _ => .wrongShape
      | .error fault => fault
  | .missing => .cutShort
  | .gap fault _ => fault
  | _ => .wrongShape

mutual

/-- The first fault of a draft for one who passes over it: numbers may be of any
size, halves of surrogate pairs may stand alone. -/
def skip : Draft → Except ReadFault Unit
  | .string q =>
      match q.fault with
      | none => .ok ()
      | some fault => .error fault
  | .array items ending => skipItems ending items
  | .object members ending => skipMembers ending members
  | .missing => .error .cutShort
  | .gap _ fault => .error fault
  | _ => .ok ()

/-- Passes over items and the end of their array. -/
def skipItems (ending : Ending) : List Draft → Except ReadFault Unit
  | [] => ending.check
  | v :: rest =>
      match skip v with
      | .ok () => skipItems ending rest
      | .error fault => .error fault

/-- Passes over members and the end of their object. -/
def skipMembers (ending : Ending) : List (Quoted × Draft) → Except ReadFault Unit
  | [] => ending.check
  | (key, v) :: rest =>
      match key.fault with
      | some fault => .error fault
      | none =>
          match skip v with
          | .ok () => skipMembers ending rest
          | .error fault => .error fault

end

mutual

/-- The value of a draft in which nothing is wrong; containers may be nested to
a depth of `room`. -/
def value (room : Nat) : Draft → Except ReadFault Json
  | .null => .ok .null
  | .bool b => .ok (.bool b)
  | .number n => if n.tooLarge then .error .notJson else .ok (.number n)
  | .string q =>
      match q.text? with
      | .ok s => .ok (.string s)
      | .error fault => .error fault
  | .array items ending =>
      match room with
      | 0 => .error .notJson
      | room + 1 =>
          match values room ending items with
          | .ok vs => .ok (.array vs)
          | .error fault => .error fault
  | .object members ending =>
      match room with
      | 0 => .error .notJson
      | room + 1 =>
          match memberValues room ending members with
          | .ok ms => .ok (.object ms)
          | .error fault => .error fault
  | .missing => .error .cutShort
  | .gap fault _ => .error fault

/-- The values of items up to the end of their array. -/
def values (room : Nat) (ending : Ending) : List Draft → Except ReadFault (List Json)
  | [] =>
      match ending.check with
      | .ok () => .ok []
      | .error fault => .error fault
  | v :: rest =>
      match value room v with
      | .error fault => .error fault
      | .ok v =>
          match values room ending rest with
          | .ok vs => .ok (v :: vs)
          | .error fault => .error fault

/-- The values of members up to the end of their object. -/
def memberValues (room : Nat) (ending : Ending) :
    List (Quoted × Draft) → Except ReadFault (List (String × Json))
  | [] =>
      match ending.check with
      | .ok () => .ok []
      | .error fault => .error fault
  | (key, v) :: rest =>
      match key.text? with
      | .error fault => .error fault
      | .ok key =>
          match value room v with
          | .error fault => .error fault
          | .ok v =>
              match memberValues room ending rest with
              | .ok ms => .ok ((key, v) :: ms)
              | .error fault => .error fault

end

end Draft

end StencilShapes
