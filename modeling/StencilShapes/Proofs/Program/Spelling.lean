import StencilShapes.Proofs.Json.Lexing
import StencilShapes.Proofs.Point
import StencilShapes.Ty
import Mathlib.Data.Set.Function

/-!
# Types and bounds by their texts

In the text of a program, types and bounds stand among other things.  Each of them shows
where it ends: a coordinate ends before what cannot continue it, the sizes of a temp end
at its element, which begins with a letter as no size does, and what a bracket opens, a
bracket closes.  So the spelling of a type belongs to no other type and the text of bounds
to no other bounds, whatever stands behind them.

**Results.**
* `Coord.text_append_inj`: coordinates, where nothing continues them.
* `Delimited.flatMap_append_inj`: items one behind the other, up to what is no item.
* `Ty.spelling_append_inj`: types, by the marks before their element.
* `Point.text_append_inj`, `Bounds.text_append_inj`: points and bounds.
* `texts_injective`: a type and bounds are known by their texts.
-/

namespace StencilShapes

variable {s t : List Char}

theorem Numeral.ofInt_injective : Function.Injective ofInt := by
  intro m n h
  have hint := congrArg int? h
  rw [int?_ofInt, int?_ofInt] at hint
  exact Option.some.inj hint

namespace Coord

variable {a b : Coord}

/-- A coordinate is written as its numeral. -/
theorem toList_text (a : Coord) : a.text.toList = (Numeral.ofInt a.val).text := by
  rcases a with ⟨n, hn⟩
  cases n with
  | ofNat n => simp [text, Numeral.text, Numeral.ofInt, Int.repr]
  | negSucc n => simp [text, Numeral.text, Numeral.ofInt, Int.repr]

/-- A coordinate is known by its text, where nothing continues it. -/
theorem text_append_inj (hs : Numeral.Stops s) (ht : Numeral.Stops t)
    (h : a.text.toList ++ s = b.text.toList ++ t) :
    a = b ∧ s = t := by
  rw [toList_text, toList_text] at h
  have hread := Numeral.read_ofInt a.val hs
  rw [h, Numeral.read_ofInt b.val ht] at hread
  obtain ⟨hnumeral, hrest⟩ := Prod.mk.inj (Except.ok.inj hread)
  exact ⟨val_injective (Numeral.ofInt_injective hnumeral.symm), hrest.symm⟩

/-- A coordinate begins with a digit or a minus sign. -/
theorem text_append_ne {c : Char} (hminus : c ≠ '-') (hdigit : c.isDigit = false) :
    a.text.toList ++ s ≠ c :: t := by
  intro h
  obtain ⟨d, ds, htext, hd⟩ := Numeral.exists_text_ofInt a.val
  rw [toList_text, htext, List.cons_append] at h
  obtain ⟨rfl, _⟩ := List.cons.inj h
  rcases hd with hd | hd
  · exact hminus hd
  · exact Bool.false_ne_true (hdigit.symm.trans hd)

end Coord

/-- A way of writing items that shows where an item ends, if `Follows` holds of what stands
behind it, as it does where another item stands there. -/
structure Delimited {α : Type} (write : α → List Char) (Follows : List Char → Prop) : Prop where
  append_inj : ∀ {a b : α} {s t : List Char}, Follows s → Follows t →
    write a ++ s = write b ++ t → a = b ∧ s = t
  follows : ∀ (a : α) (s : List Char), Follows (write a ++ s)

namespace Delimited

variable {α : Type} {write : α → List Char} {Follows : List Char → Prop} {as bs : List α}

theorem follows_flatMap (h : Delimited write Follows) (hs : Follows s) :
    Follows (as.flatMap write ++ s) := by
  cases as with
  | nil => exact hs
  | cons a as =>
      rw [List.flatMap_cons, List.append_assoc]
      exact h.follows a _

/-- Items one behind the other are known by their text, if what ends them begins as no item
does. -/
theorem flatMap_append_inj (h : Delimited write Follows)
    (hs : Follows s) (ht : Follows t)
    (hends : ∀ a r, write a ++ r ≠ s) (hendt : ∀ a r, write a ++ r ≠ t)
    (heq : as.flatMap write ++ s = bs.flatMap write ++ t) :
    as = bs ∧ s = t := by
  -- A list that ends first would have the other's next item where only an end may stand.
  induction as generalizing bs with
  | nil =>
      cases bs with
      | nil => exact ⟨rfl, heq⟩
      | cons b bs =>
          rw [List.flatMap_cons, List.append_assoc] at heq
          exact absurd heq.symm (hends b _)
  | cons a as ih =>
      cases bs with
      | nil =>
          rw [List.flatMap_cons, List.append_assoc] at heq
          exact absurd heq (hendt a _)
      | cons b bs =>
          rw [List.flatMap_cons, List.flatMap_cons, List.append_assoc, List.append_assoc] at heq
          obtain ⟨rfl, hrest⟩ :=
            h.append_inj (h.follows_flatMap hs) (h.follows_flatMap ht) heq
          obtain ⟨rfl, rfl⟩ := ih hrest
          exact ⟨rfl, rfl⟩

end Delimited

namespace Element

variable {e f : Element}

/-- An element begins with a letter. -/
theorem exists_text (e : Element) :
    ∃ c cs, e.text.toList = c :: cs ∧ (c = 'f' ∨ c = 'i') := by
  cases e <;> simp [text]

/-- All elements are written with three characters. -/
theorem text_append_inj (h : e.text.toList ++ s = f.text.toList ++ t) : e = f ∧ s = t := by
  cases e <;> cases f <;> simp_all [text]

theorem text_append_ne (ht : t.head? = some '!') : e.text.toList ++ s ≠ t := by
  rintro rfl
  cases e <;> simp [text] at ht

end Element

/-- What is written before an `x` in the text of a type. -/
inductive Mark where
  | any
  | star
  | size (size : Coord)

namespace Mark

variable {m n : Mark} {ms ns : List Mark} {e f : Element}

/-- A mark with its `x`. -/
def text : Mark → List Char
  | .any => ['?', 'x']
  | .star => ['*', 'x']
  | .size d => d.text.toList ++ ['x']

theorem size_append_ne {d : Coord} {c : Char} (hminus : c ≠ '-') (hdigit : c.isDigit = false) :
    (size d).text ++ s ≠ c :: t := by
  rw [text, List.append_assoc]
  exact Coord.text_append_ne hminus hdigit

/-- A mark is known by its text, whatever follows it. -/
theorem text_append_inj (h : m.text ++ s = n.text ++ t) : m = n ∧ s = t := by
  cases m with
  | any =>
      cases n with
      | any => simpa [text] using h
      | star => simp [text] at h
      | size b => exact absurd h.symm (size_append_ne (c := '?') (by decide) (by decide))
  | star =>
      cases n with
      | any => simp [text] at h
      | star => simpa [text] using h
      | size b => exact absurd h.symm (size_append_ne (c := '*') (by decide) (by decide))
  | size a =>
      cases n with
      | any => exact absurd h (size_append_ne (c := '?') (by decide) (by decide))
      | star => exact absurd h (size_append_ne (c := '*') (by decide) (by decide))
      | size b =>
          have hstops := Numeral.stops_cons (c := 'x') (by decide)
          rw [text, text, List.append_assoc, List.append_assoc] at h
          obtain ⟨rfl, hrest⟩ := Coord.text_append_inj (hstops s) (hstops t) h
          exact ⟨rfl, (List.cons.inj hrest).2⟩

-- The `x` ends a mark, so anything may follow it.
theorem delimited : Delimited text fun _ => True :=
  ⟨fun _ _ => text_append_inj, fun _ _ => trivial⟩

/-- No mark begins as an element does. -/
theorem text_append_ne : m.text ++ s ≠ e.text.toList ++ t := by
  obtain ⟨c, cs, htext, hc⟩ := e.exists_text
  have hletter : '?' ≠ c ∧ '*' ≠ c ∧ c ≠ '-' ∧ c.isDigit = false := by
    rcases hc with rfl | rfl <;> decide
  obtain ⟨hany, hstar, hminus, hdigit⟩ := hletter
  rw [htext, List.cons_append]
  cases m with
  | any => exact fun h => hany (List.cons.inj h).1
  | star => exact fun h => hstar (List.cons.inj h).1
  | size d => exact size_append_ne hminus hdigit

/-- Marks and the element behind them are known by their text. -/
theorem flatMap_append_inj
    (h : ms.flatMap text ++ (e.text.toList ++ s) = ns.flatMap text ++ (f.text.toList ++ t)) :
    ms = ns ∧ e = f ∧ s = t := by
  obtain ⟨rfl, hrest⟩ := delimited.flatMap_append_inj trivial trivial
    (fun _ _ => text_append_ne) (fun _ _ => text_append_ne) h
  obtain ⟨rfl, rfl⟩ := Element.text_append_inj hrest
  exact ⟨rfl, rfl, rfl⟩

/-- The marks of a shape; a temp without one has a star. -/
def ofShape (shape : Option Point) : List Mark :=
  shape.elim [.star] (·.map .size)

theorem ofShape_injective : Function.Injective ofShape := by
  have hsize : Function.Injective Mark.size := fun a b => Mark.size.inj
  have hstar : ∀ dims : Point, dims.map size ≠ [.star] := by
    rintro (_ | ⟨d, dims⟩) <;> simp
  intro shape shape' h
  cases shape with
  | none =>
      cases shape' with
      | none => rfl
      | some dims => exact absurd h.symm (hstar dims)
  | some dims =>
      cases shape' with
      | none => exact absurd h (hstar dims)
      | some dims' => exact congrArg some (List.map_injective_iff.2 hsize h)

end Mark

namespace Ty

variable {a b : Ty}

theorem toList_spelling_field (e : Element) (rank : Nat) :
    (field e rank).spelling.toList =
      "!stencil.field<".toList ++ ((List.replicate rank Mark.any).flatMap Mark.text
        ++ (e.text.toList ++ ['>'])) := by
  have hspelling : (field e rank).spelling =
      "!stencil.field<" ++ String.join (List.replicate rank "?x") ++ e.text ++ ">" := rfl
  simp [hspelling, Mark.text, List.flatMap_replicate]

theorem toList_spelling_temp (e : Element) (shape : Option Point) :
    (temp e shape).spelling.toList =
      "!stencil.temp<".toList ++ ((Mark.ofShape shape).flatMap Mark.text
        ++ (e.text.toList ++ ['>'])) := by
  cases shape with
  | none =>
      have hspelling : (temp e none).spelling = "!stencil.temp<*x" ++ e.text ++ ">" := rfl
      simp [hspelling, Mark.ofShape, Mark.text]
  | some dims =>
      have hspelling : (temp e (some dims)).spelling =
          "!stencil.temp<" ++ String.join (dims.map fun d => d.text ++ "x") ++ e.text ++ ">" := rfl
      simp [hspelling, Mark.ofShape, Mark.text, List.flatMap_map]

/-- Fields are known by their spellings, whatever follows them. -/
theorem field_append_inj {e f : Element} {rank rank' : Nat}
    (h : (field e rank).spelling.toList ++ s = (field f rank').spelling.toList ++ t) :
    field e rank = field f rank' ∧ s = t := by
  simp only [toList_spelling_field, List.append_assoc] at h
  obtain ⟨hmarks, rfl, hrest⟩ := Mark.flatMap_append_inj (List.append_cancel_left h)
  obtain rfl : rank = rank' := by simpa using congrArg List.length hmarks
  exact ⟨rfl, (List.cons.inj hrest).2⟩

/-- Temps are known by their spellings, whatever follows them. -/
theorem temp_append_inj {e f : Element} {shape shape' : Option Point}
    (h : (temp e shape).spelling.toList ++ s = (temp f shape').spelling.toList ++ t) :
    temp e shape = temp f shape' ∧ s = t := by
  simp only [toList_spelling_temp, List.append_assoc] at h
  obtain ⟨hmarks, rfl, hrest⟩ := Mark.flatMap_append_inj (List.append_cancel_left h)
  obtain rfl := Mark.ofShape_injective hmarks
  exact ⟨rfl, (List.cons.inj hrest).2⟩

theorem field_append_ne_temp {e f : Element} {rank : Nat} {shape : Option Point} :
    (field e rank).spelling.toList ++ s ≠ (temp f shape).spelling.toList ++ t := by
  simp [toList_spelling_field, toList_spelling_temp]

/-- A type is known by its spelling, whatever follows it. -/
theorem spelling_append_inj (h : a.spelling.toList ++ s = b.spelling.toList ++ t) :
    a = b ∧ s = t := by
  -- A scalar begins with a letter, a field and a temp with an exclamation mark.
  have hfield : ∀ e rank s, ((field e rank).spelling.toList ++ s).head? = some '!' := by
    simp [toList_spelling_field]
  have htemp : ∀ e shape s, ((temp e shape).spelling.toList ++ s).head? = some '!' := by
    simp [toList_spelling_temp]
  cases a with
  | scalar e =>
      cases b with
      | scalar f =>
          obtain ⟨rfl, rfl⟩ := Element.text_append_inj h
          exact ⟨rfl, rfl⟩
      | field f rank => exact absurd h (Element.text_append_ne (hfield f rank t))
      | temp f shape => exact absurd h (Element.text_append_ne (htemp f shape t))
  | field e rank =>
      cases b with
      | scalar f => exact absurd h.symm (Element.text_append_ne (hfield e rank s))
      | field f rank' => exact field_append_inj h
      | temp f shape => exact absurd h field_append_ne_temp
  | temp e shape =>
      cases b with
      | scalar f => exact absurd h.symm (Element.text_append_ne (htemp e shape s))
      | field f rank => exact absurd h.symm field_append_ne_temp
      | temp f shape' => exact temp_append_inj h

theorem spelling_injective : Function.Injective spelling := fun _ _ h =>
  (spelling_append_inj (congrArg (·.toList ++ []) h)).1

theorem text_eq_some {w : String} (h : a.text = some w) : a.spelling = w := by
  unfold text at h
  split at h
  · exact Option.some.inj h
  · cases h

/-- A type with a text is known by it. -/
theorem text_injOn : Set.InjOn text {a | a.text ≠ none} := by
  intro a ha b _ h
  obtain ⟨w, hw⟩ := Option.ne_none_iff_exists'.1 ha
  exact spelling_injective ((text_eq_some hw).trans (text_eq_some (h.symm.trans hw)).symm)

end Ty

namespace Point

variable {p q : Point}

/-- What is written for a coordinate behind the first. -/
def laterText (a : Coord) : List Char :=
  ',' :: ' ' :: a.text.toList

theorem toList_text_nil : (text []).toList = ['[', ']'] := by
  simp [text]

theorem toList_text_cons (a : Coord) (p : Point) :
    (text (a :: p)).toList = '[' :: (a.text.toList ++ (p.flatMap laterText ++ [']'])) := by
  have hlist : ∀ a : Coord, (", ".intercalate (a.text :: p.map Coord.text)).toList =
      a.text.toList ++ p.flatMap laterText := by
    induction p with
    | nil => simp
    | cons b p ih =>
        intro a
        rw [List.map_cons, String.intercalate_cons_cons, String.toList_append,
          String.toList_append, ih b, List.flatMap_cons, List.append_assoc]
        rfl
  rw [text, String.toList_append, String.toList_append, List.map_cons, hlist a]
  simp

theorem delimited_laterText : Delimited laterText Numeral.Stops where
  append_inj hs ht h := Coord.text_append_inj hs ht (List.cons.inj (List.cons.inj h).2).2
  follows a s := Numeral.stops_cons (c := ',') (by decide) _

theorem text_cons_append_ne {a : Coord} : (text (a :: p)).toList ++ s ≠ (text []).toList ++ t := by
  rw [toList_text_cons, toList_text_nil, List.cons_append, List.append_assoc]
  intro h
  exact Coord.text_append_ne (c := ']') (by decide) (by decide) (List.cons.inj h).2

/-- Coordinates behind the first are known by their text, up to the bracket behind them. -/
theorem flatMap_laterText_inj
    (h : p.flatMap laterText ++ ']' :: s = q.flatMap laterText ++ ']' :: t) :
    p = q ∧ s = t := by
  have hstops := Numeral.stops_cons (c := ']') (by decide)
  have hcomma : ∀ (a : Coord) (r s : List Char), laterText a ++ r ≠ ']' :: s := by
    simp [laterText]
  obtain ⟨rfl, hrest⟩ := delimited_laterText.flatMap_append_inj (hstops s) (hstops t)
    (fun a r => hcomma a r s) (fun a r => hcomma a r t) h
  exact ⟨rfl, (List.cons.inj hrest).2⟩

/-- A point is known by its text, whatever follows it. -/
theorem text_append_inj (h : p.text.toList ++ s = q.text.toList ++ t) : p = q ∧ s = t := by
  cases p with
  | nil =>
      cases q with
      | nil => exact ⟨rfl, List.append_cancel_left h⟩
      | cons b q => exact absurd h.symm text_cons_append_ne
  | cons a p =>
      cases q with
      | nil => exact absurd h text_cons_append_ne
      | cons b q =>
          simp only [toList_text_cons, List.cons_append, List.append_assoc, List.nil_append] at h
          have hstops : ∀ (p : Point) s, Numeral.Stops (p.flatMap laterText ++ ']' :: s) :=
            fun p s => delimited_laterText.follows_flatMap
              (Numeral.stops_cons (c := ']') (by decide) s)
          obtain ⟨rfl, hlater⟩ :=
            Coord.text_append_inj (hstops p s) (hstops q t) (List.cons.inj h).2
          obtain ⟨rfl, rfl⟩ := flatMap_laterText_inj hlater
          exact ⟨rfl, rfl⟩

end Point

namespace Bounds

variable {b c : Bounds}

/-- Bounds are known by their text, whatever follows them. -/
theorem text_append_inj (h : b.text.toList ++ s = c.text.toList ++ t) : b = c ∧ s = t := by
  rcases b with ⟨lower, upper⟩
  rcases c with ⟨lower', upper'⟩
  simp only [text, String.toList_append, List.append_assoc] at h
  obtain ⟨rfl, hupper⟩ := Point.text_append_inj (List.append_cancel_left h)
  obtain ⟨rfl, hrest⟩ := Point.text_append_inj (List.append_cancel_left hupper)
  exact ⟨rfl, List.append_cancel_left hrest⟩

end Bounds

/-- No two types have one spelling, so none that have a text have it in common; and no two
bounds have one text. -/
theorem texts_injective :
    Function.Injective Ty.spelling ∧ Set.InjOn Ty.text {a | a.text ≠ none} ∧
      Function.Injective Bounds.text :=
  ⟨Ty.spelling_injective, Ty.text_injOn,
    fun _ _ h => (Bounds.text_append_inj (congrArg (·.toList ++ []) h)).1⟩

-- A shape without dimensions has no mark, where an unknown shape has a star.
example : (Ty.temp .f64 (some [])).text ≠ (Ty.temp .f64 none).text := by decide

end StencilShapes
