import StencilShapes.Json.Draft
import StencilShapes.Proofs.Json.Lexing
import Mathlib.Data.List.Basic

/-!
# Values are read back

The tokens of a value give a draft in which nothing is wrong, and the value is what this
draft says.  Both hold for values of integers that fit into 64 bits, with containers that
are not nested too deeply; these are the values that descriptions are written with.

**Results.**
* `Draft.ofTokens_tokens`: the tokens of a value give its draft.
* `Draft.value_draft`: the draft of a value says this value.
* `Draft.ofText_of_spaced`: a text of a value gives its draft, whatever blanks it has.
-/

namespace StencilShapes

namespace Json

/-- What holds of a value if it holds of all that the value contains holds of all values. -/
theorem induct {P : Json → Prop}
    (null : P .null)
    (bool : ∀ b, P (.bool b))
    (number : ∀ n, P (.number n))
    (string : ∀ s, P (.string s))
    (array : ∀ items, (∀ v ∈ items, P v) → P (.array items))
    (object : ∀ members, (∀ m ∈ members, P m.2) → P (.object members)) :
    ∀ v, P v :=
  Json.rec null bool number string array object (List.forall_mem_nil _)
    (fun _ _ hv hvs => List.forall_mem_cons.2 ⟨hv, hvs⟩) (List.forall_mem_nil _)
    (fun _ _ hm hms => List.forall_mem_cons.2 ⟨hm, hms⟩) fun _ _ hv => hv

mutual

/-- The draft of a value, in which nothing is wrong. -/
def draft : Json → Draft
  | .null => .null
  | .bool b => .bool b
  | .number n => .number n
  | .string s => .string (.ofString s)
  | .array items => .array (itemDrafts items) .closed
  | .object members => .object (memberDrafts members) .closed

/-- The draft of each item. -/
def itemDrafts : List Json → List Draft
  | [] => []
  | v :: rest => draft v :: itemDrafts rest

/-- The draft of each member. -/
def memberDrafts : List (String × Json) → List (Quoted × Draft)
  | [] => []
  | (key, v) :: rest => (.ofString key, draft v) :: memberDrafts rest

end

theorem itemDrafts_eq_map (items : List Json) : itemDrafts items = items.map draft := by
  induction items with
  | nil => rfl
  | cons v rest ih => rw [itemDrafts, ih, List.map_cons]

theorem memberDrafts_eq_map (members : List (String × Json)) :
    memberDrafts members = members.map fun m => (.ofString m.1, m.2.draft) := by
  induction members with
  | nil => rfl
  | cons m rest ih => rw [memberDrafts, ih, List.map_cons]

/-- Containers are nested no deeper than `room`, and numbers are integers of 64 bits, with
or without a sign. -/
inductive Fits : Nat → Json → Prop
  | null {room : Nat} : Fits room .null
  | bool {room : Nat} {b : Bool} : Fits room (.bool b)
  | int {room : Nat} {i : Int} :
      i.natAbs ≤ 18446744073709551615 →
      Fits room (.int i)
  | string {room : Nat} {s : String} : Fits room (.string s)
  | array {room : Nat} {items : List Json} :
      (∀ v ∈ items, Fits room v) →
      Fits (room + 1) (.array items)
  | object {room : Nat} {members : List (String × Json)} :
      (∀ m ∈ members, Fits room m.2) →
      Fits (room + 1) (.object members)

theorem itemTokens_eq_map (items : List Json) : itemTokens items = items.map tokens := by
  induction items with
  | nil => rfl
  | cons v rest ih => rw [itemTokens, ih, List.map_cons]

/-- The tokens of one member. -/
def pairTokens (m : String × Json) : List Token :=
  .string (.ofString m.1) :: .colon :: m.2.tokens

theorem memberTokens_eq_map (members : List (String × Json)) :
    memberTokens members = members.map pairTokens := by
  induction members with
  | nil => rfl
  | cons m rest ih => rw [memberTokens, ih, List.map_cons, pairTokens]

theorem separated_cons_cons (ts us : List Token) (tss : List (List Token)) :
    separated (ts :: us :: tss) = ts ++ .comma :: separated (us :: tss) :=
  rfl

/-- Tokens stay legible in front of others, unless these continue a number. -/
def Prepends (ts : List Token) : Prop :=
  ∀ {rest : List Token}, Token.Legible rest → (∀ u ∈ rest.head?, u.isClosing = true) →
    Token.Legible (ts ++ rest)

/-- Commas keep items apart. -/
theorem prepends_separated {tss : List (List Token)} (h : ∀ ts ∈ tss, Prepends ts) :
    Prepends (separated tss) := by
  induction tss with
  | nil => exact fun hrest _ => hrest
  | cons ts tss ih =>
      obtain ⟨hts, htss⟩ := List.forall_mem_cons.1 h
      intro rest hrest hclosing
      cases tss with
      | nil => exact hts hrest hclosing
      | cons us tss =>
          rw [separated_cons_cons, List.append_assoc, List.cons_append]
          refine hts (.cons .comma (by rintro ⟨⟩) (ih htss hrest hclosing)) ?_
          rintro u ⟨⟩
          rfl

/-- The tokens of a value are legible. -/
theorem Fits.prepends {room : Nat} {v : Json} (h : v.Fits room) : Prepends v.tokens := by
  induction h with
  | null => exact fun hrest _ => .cons .null (by rintro ⟨⟩) hrest
  | bool => exact fun hrest _ => .cons .bool (by rintro ⟨⟩) hrest
  | int => exact fun hrest hclosing => .cons .number (fun _ => hclosing) hrest
  | string => exact fun hrest _ => .cons .string (by rintro ⟨⟩) hrest
  | @array room items _ ih =>
      intro rest hrest _
      rw [tokens, itemTokens_eq_map, List.cons_append, List.cons_append, List.append_assoc]
      refine .cons .leftBracket (by rintro ⟨⟩) (prepends_separated ?_ ?_ ?_)
      · exact List.forall_mem_map.2 fun v hv => ih v hv
      · exact .cons .rightBracket (by rintro ⟨⟩) hrest
      · rintro u ⟨⟩
        rfl
  | @object room members _ ih =>
      intro rest hrest _
      rw [tokens, memberTokens_eq_map, List.cons_append, List.cons_append, List.append_assoc]
      refine .cons .leftBrace (by rintro ⟨⟩) (prepends_separated ?_ ?_ ?_)
      · refine List.forall_mem_map.2 fun m hm rest hrest hclosing => ?_
        exact .cons .string (by rintro ⟨⟩) (.cons .colon (by rintro ⟨⟩) (ih m hm hrest hclosing))
      · exact .cons .rightBrace (by rintro ⟨⟩) hrest
      · rintro u ⟨⟩
        rfl

end Json

open Json

namespace Draft

/-- The tokens of a value take a reader that wants a value behind this value. -/
def Reads (v : Json) : Prop :=
  ∀ fs, v.tokens.foldl step (.value fs) = .after v.draft fs

/-- Where an array begins, a value is read as its first item. -/
theorem Reads.firstItem {v : Json} (h : Reads v) (fs : List Frame) :
    v.tokens.foldl step (.firstItem fs) = .after v.draft (.items [] :: fs) := by
  rw [← h (.items [] :: fs)]
  cases v <;> simp [tokens, step]

/-- Items are read one after the other, up to the end of their array. -/
theorem foldl_items {items : List Json} :
    ∀ {v : Json} {before : List Draft} {fs : List Frame} {s : State},
      v.tokens.foldl step s = .after v.draft (.items before :: fs) →
      (∀ w ∈ items, Reads w) →
      (separated ((v :: items).map tokens) ++ [Token.rightBracket]).foldl step s =
        .after (.array (before.reverse ++ (v :: items).map draft) .closed) fs := by
  induction items with
  | nil =>
      intro v before fs s hv _
      rw [List.map_cons, List.map_nil, separated, List.foldl_append, hv]
      simp [step, follow, Frame.close]
  | cons w items ih =>
      intro v before fs s hv h
      obtain ⟨hw, hitems⟩ := List.forall_mem_cons.1 h
      rw [List.map_cons, List.map_cons, separated_cons_cons, List.append_assoc,
        List.foldl_append, hv]
      refine (ih (hw (.items (v.draft :: before) :: fs)) hitems).trans ?_
      simp

/-- Members are read one after the other, up to the end of their object. -/
theorem foldl_members {members : List (String × Json)} :
    ∀ {m : String × Json} {before : List (Quoted × Draft)} {fs : List Frame} {s : State},
      (pairTokens m).foldl step s = .after m.2.draft (.member before (.ofString m.1) :: fs) →
      (∀ n ∈ members, Reads n.2) →
      (separated ((m :: members).map pairTokens) ++ [Token.rightBrace]).foldl step s =
        .after (.object (before.reverse ++
          (m :: members).map fun n => (.ofString n.1, n.2.draft)) .closed) fs := by
  induction members with
  | nil =>
      intro m before fs s hm _
      rw [List.map_cons, List.map_nil, separated, List.foldl_append, hm]
      simp [step, follow, Frame.close]
  | cons n members ih =>
      intro m before fs s hm h
      obtain ⟨hn, hmembers⟩ := List.forall_mem_cons.1 h
      rw [List.map_cons, List.map_cons, separated_cons_cons, List.append_assoc,
        List.foldl_append, hm]
      refine (ih (hn (.member ((.ofString m.1, m.2.draft) :: before) (.ofString n.1) :: fs))
        hmembers).trans ?_
      simp

/-- The tokens of a value are read as its draft. -/
theorem reads (v : Json) : Reads v := by
  induction v using Json.induct with
  | null => exact fun fs => rfl
  | bool b => exact fun fs => rfl
  | number n => exact fun fs => rfl
  | string s => exact fun fs => rfl
  | array items ih =>
      intro fs
      rw [tokens, itemTokens_eq_map, draft, itemDrafts_eq_map, List.cons_append, List.foldl_cons]
      cases items with
      | nil => rfl
      | cons v items =>
          obtain ⟨hv, hitems⟩ := List.forall_mem_cons.1 ih
          exact foldl_items (hv.firstItem fs) hitems
  | object members ih =>
      intro fs
      rw [tokens, memberTokens_eq_map, draft, memberDrafts_eq_map, List.cons_append,
        List.foldl_cons]
      cases members with
      | nil => rfl
      | cons m members =>
          obtain ⟨hm, hmembers⟩ := List.forall_mem_cons.1 ih
          have hfirst : (pairTokens m).foldl step (.firstKey fs) =
              .after m.2.draft (.member [] (.ofString m.1) :: fs) :=
            hm (.member [] (.ofString m.1) :: fs)
          exact foldl_members hfirst hmembers

/-- The tokens of a value give its draft, with nothing behind it. -/
theorem ofTokens_tokens (v : Json) : ofTokens v.tokens = (v.draft, false) := by
  rw [ofTokens, reads v []]
  rfl

/-- A text of a value gives its draft, whatever blanks it has. -/
theorem ofText_of_spaced {room : Nat} {v : Json} {s : String}
    (h : v.Fits room)
    (hs : Token.Spaced v.tokens s.toList) :
    ofText s = (v.draft, false) := by
  have hlegible : Token.Legible (v.tokens ++ []) := h.prepends .nil (by rintro u ⟨⟩)
  rw [List.append_nil] at hlegible
  rw [ofText, Token.readAll_of_spaced hs hlegible, ofTokens_tokens]

end Draft

namespace Numeral

/-- Further digits make a number no less. -/
theorem le_ofDigitChars (ds : List Char) (m : Nat) : m ≤ Nat.ofDigitChars 10 ds m := by
  induction ds generalizing m with
  | nil => exact Nat.le_refl m
  | cons c ds ih =>
      rw [Nat.ofDigitChars_cons]
      exact Nat.le_trans (by omega) (ih _)

/-- The digits of a number that fits into 64 bits all count. -/
theorem foldl_push {ds : List Char} :
    ∀ {m : Nat}, Nat.ofDigitChars 10 ds m ≤ 18446744073709551615 →
      ds.foldl (fun s c => s.push c 0 1) ({ digits := m } : Scaled) =
        { digits := Nat.ofDigitChars 10 ds m } := by
  induction ds with
  | nil => exact fun _ => rfl
  | cons c ds ih =>
      intro m h
      rw [Nat.ofDigitChars_cons] at h ⊢
      have hle := Nat.le_trans (le_ofDigitChars ds _) h
      rw [List.foldl_cons, Scaled.push, if_neg (by simpa using hle)]
      exact ih h

/-- Rounding at most doubles a number. -/
theorem round53_le (n : Nat) : round53 n ≤ 2 * n := by
  unfold round53
  split
  · omega
  · next hn =>
      have hpow : 2 ^ (n.log2 - 52) ≤ n :=
        Nat.le_trans (Nat.pow_le_pow_right (by decide) (Nat.sub_le _ _))
          (Nat.log2_self_le (by rintro rfl; exact hn (by decide)))
      have hdown : n / 2 ^ (n.log2 - 52) * 2 ^ (n.log2 - 52) ≤ n := Nat.div_mul_le_self _ _
      simp only [Nat.shiftRight_eq_div_pow, Nat.shiftLeft_eq]
      split
      · rw [Nat.add_mul]
        omega
      · omega

/-- An integer of 64 bits is not too large. -/
theorem tooLarge_ofInt {i : Int} (h : i.natAbs ≤ 18446744073709551615) :
    (ofInt i).tooLarge = false := by
  have hdigits : Nat.ofDigitChars 10 (Nat.toDigits 10 i.natAbs) 0 = i.natAbs :=
    Nat.ofDigitChars_toDigits (by decide) (by decide)
  have hscaled : (ofInt i).scaled = { digits := i.natAbs } := by
    have hfold := foldl_push (hdigits.symm ▸ h :
      Nat.ofDigitChars 10 (Nat.toDigits 10 i.natAbs) 0 ≤ 18446744073709551615)
    rw [hdigits] at hfold
    simp only [scaled, ofInt]
    rw [hfold]
    rfl
  have hround := round53_le i.natAbs
  have hone : round53 (Nat.pow 10 (Int.toNat 0)) = 1 := by decide
  have hlimit : 2 * 18446744073709551615 < 1 <<< 1024 - 1 <<< 970 := by decide
  simp only [tooLarge, hscaled, hone]
  split
  · rfl
  · rw [if_neg (by decide), decide_eq_false_iff_not]
    omega

end Numeral

namespace Draft

theorem values_itemDrafts {room : Nat} {items : List Json}
    (h : ∀ v ∈ items, v.draft.value room = .ok v) :
    values room .closed (itemDrafts items) = .ok items := by
  induction items with
  | nil => rfl
  | cons v items ih =>
      obtain ⟨hv, hitems⟩ := List.forall_mem_cons.1 h
      simp only [itemDrafts, values, hv, ih hitems]

theorem memberValues_memberDrafts {room : Nat} {members : List (String × Json)}
    (h : ∀ m ∈ members, m.2.draft.value room = .ok m.2) :
    memberValues room .closed (memberDrafts members) = .ok members := by
  induction members with
  | nil => rfl
  | cons m members ih =>
      obtain ⟨hm, hmembers⟩ := List.forall_mem_cons.1 h
      simp only [memberDrafts, memberValues, Quoted.text?_ofString, hm, ih hmembers]

/-- The draft of a value says this value. -/
theorem value_draft {room : Nat} {v : Json} (h : v.Fits room) : v.draft.value room = .ok v := by
  induction h with
  | null => rfl
  | bool => rfl
  | int hi => simp only [Json.int, draft, value, Numeral.tooLarge_ofInt hi, Bool.false_eq_true,
      if_false]
  | string => simp only [draft, value, Quoted.text?_ofString]
  | array _ ih => simp only [draft, value, values_itemDrafts ih]
  | object _ ih => simp only [draft, value, memberValues_memberDrafts ih]

end Draft
end StencilShapes
