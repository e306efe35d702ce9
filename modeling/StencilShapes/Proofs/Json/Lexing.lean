import StencilShapes.Json.Token
import Mathlib.Data.List.Basic

/-!
# Tokens are read back

A text that was written token by token falls into the same tokens again, whatever blanks
stand between them.  Words and signs end where they end and a string ends at its quote; only
a number has to be kept apart from what could continue it, so behind a number a sign or the
end of the text is due.

**Results.**
* `Numeral.read_ofInt`: an integer is read back.
* `Quoted.read_pieces`: a string is read back, with all that has to be escaped in it.
* `Token.read_text`: a token is read back.
* `Token.readAll_of_spaced`: tokens are read back, with blanks between them.
-/

namespace StencilShapes

namespace Numeral

/-- What cannot continue a number. -/
def Stops (rest : List Char) : Prop :=
  ∀ c ∈ rest.head?, c.isDigit = false ∧ c ≠ '.' ∧ c ≠ 'e' ∧ c ≠ 'E'

theorem stops_cons {c : Char} (hc : c.isDigit = false ∧ c ≠ '.' ∧ c ≠ 'e' ∧ c ≠ 'E')
    (rest : List Char) : Stops (c :: rest) := by
  rintro d ⟨⟩
  exact hc

theorem takeDigits_append {ds rest : List Char}
    (hds : ∀ d ∈ ds, d.isDigit = true)
    (hrest : Stops rest) :
    takeDigits (ds ++ rest) = (ds, rest) := by
  rw [takeDigits, List.takeWhile_append_of_pos hds, List.dropWhile_append_of_pos hds]
  cases rest with
  | nil => rw [List.takeWhile_nil, List.append_nil, List.dropWhile_nil]
  | cons c rest =>
      have hc : ¬ c.isDigit = true := by
        rw [(hrest c rfl).1]
        exact Bool.false_ne_true
      rw [List.takeWhile_cons_of_neg hc, List.append_nil, List.dropWhile_cons_of_neg hc]

/-- Decimal digits begin with a zero only for the number zero. -/
theorem head?_toDigits {n : Nat} (hn : 0 < n) : (Nat.toDigits 10 n).head? ≠ some '0' := by
  induction n using Nat.strongRecOn with
  | _ n ih =>
      by_cases hlt : n < 10
      · rw [Nat.toDigits_of_lt_base hlt, List.head?_cons, ne_eq, Option.some.injEq,
          Nat.digitChar_eq_zero]
        omega
      · rw [Nat.toDigits_of_base_le (by decide) (by omega),
          List.head?_append_of_ne_nil _ Nat.toDigits_ne_nil]
        exact ih (n / 10) (by omega) (by omega)

theorem readWhole_toDigits (n : Nat) {rest : List Char} (hrest : Stops rest) :
    readWhole (Nat.toDigits 10 n ++ rest) = .ok (Nat.toDigits 10 n, rest) := by
  have htake := takeDigits_append
    (fun d hd => Nat.isDigit_of_mem_toDigits (b := 10) (n := n) (by decide) (by decide) hd) hrest
  unfold readWhole
  rw [htake]
  obtain ⟨d, ds, hds⟩ := List.exists_cons_of_ne_nil (Nat.toDigits_ne_nil (n := n) (b := 10))
  rw [hds]
  refine if_neg ?_
  rintro ⟨rfl, hne⟩
  rcases Nat.eq_zero_or_pos n with rfl | hn
  · cases hds
    exact hne rfl
  · exact head?_toDigits hn (by rw [hds]; rfl)

theorem readUnsigned_toDigits (negative : Bool) (n : Nat) {rest : List Char}
    (hrest : Stops rest) :
    readUnsigned negative (Nat.toDigits 10 n ++ rest) =
      .ok ({ negative, whole := Nat.toDigits 10 n, fraction := none, exponent := none }, rest) := by
  rw [readUnsigned, readWhole_toDigits n hrest]
  cases rest with
  | nil => rfl
  | cons c rest =>
      obtain ⟨_, hpoint, he, hE⟩ := hrest c rfl
      have hfraction : readFraction (c :: rest) = .ok (none, c :: rest) := by
        unfold readFraction
        split
        · next heq =>
            cases heq
            exact absurd rfl hpoint
        · rfl
      have hexponent : readExponent (c :: rest) = .ok (none, c :: rest) := by
        rw [readExponent, if_neg (by rintro (rfl | rfl) <;> contradiction)]
      simp only [hfraction, hexponent]

/-- An integer is read back, where nothing continues it. -/
theorem read_ofInt (i : Int) {rest : List Char} (hrest : Stops rest) :
    read ((ofInt i).text ++ rest) = .ok (ofInt i, rest) := by
  have htext : (ofInt i).text =
      (if i < 0 then ['-'] else []) ++ Nat.toDigits 10 i.natAbs := by
    simp [text, ofInt]
  rw [htext]
  by_cases hi : i < 0
  · rw [if_pos hi, List.append_assoc, List.singleton_append, read,
      readUnsigned_toDigits true _ hrest, ofInt, decide_eq_true hi]
  · rw [if_neg hi, List.nil_append]
    unfold read
    split
    · next heq =>
        obtain ⟨d, ds, hds⟩ :=
          List.exists_cons_of_ne_nil (Nat.toDigits_ne_nil (n := i.natAbs) (b := 10))
        rw [hds] at heq
        cases heq
        have hdigit : ('-').isDigit = true :=
          Nat.isDigit_of_mem_toDigits (b := 10) (n := i.natAbs) (by decide) (by decide)
            (hds ▸ List.mem_cons_self)
        cases hdigit
    · rw [readUnsigned_toDigits false _ hrest, ofInt, decide_eq_false hi]

/-- The first character of an integer. -/
theorem exists_text_ofInt (i : Int) :
    ∃ c cs, (ofInt i).text = c :: cs ∧ (c = '-' ∨ c.isDigit = true) := by
  obtain ⟨d, ds, hds⟩ :=
    List.exists_cons_of_ne_nil (Nat.toDigits_ne_nil (n := i.natAbs) (b := 10))
  by_cases hi : i < 0
  · exact ⟨'-', d :: ds, by simp [text, ofInt, hi, hds], Or.inl rfl⟩
  · refine ⟨d, ds, by simp [text, ofInt, hi, hds], Or.inr ?_⟩
    exact Nat.isDigit_of_mem_toDigits (b := 10) (n := i.natAbs) (by decide) (by decide)
      (hds ▸ List.mem_cons_self)

end Numeral

namespace Quoted

/-- A control character is read back from its number. -/
theorem ofUnit_hexQuad : ∀ n < 32,
    (hexQuad? (hexChar (n / 4096)) (hexChar (n / 256)) (hexChar (n / 16)) (hexChar n)).map
      Piece.ofUnit = some (.char (Char.ofNat n)) := by
  decide

theorem read_nil_quote (rest : List Char) : read ('"' :: rest) = (done, rest) := by
  rw [read.eq_def]
  exact if_pos rfl

/-- A character that needs no escape is read back. -/
theorem read_plain {c : Char} (hquote : c ≠ '"') (hslash : c ≠ '\\') (hc : ¬ c.toNat < 0x20)
    (rest : List Char) :
    read (c :: rest) = ((read rest).1.push (.char c), (read rest).2) := by
  rw [read.eq_def]
  simp only [if_neg hquote, if_neg hslash, if_neg hc]

/-- A letter behind a backslash is read as what it stands for. -/
theorem read_escape {e x : Char} (hx : escape? e = some x) (he : e ≠ 'u') (rest : List Char) :
    read ('\\' :: e :: rest) = ((read rest).1.push (.char x), (read rest).2) := by
  rw [read.eq_def]
  simp only [if_neg (show ('\\' : Char) ≠ '"' by decide), if_pos, if_neg he, hx]

/-- A character that is escaped by its number is read back. -/
theorem read_unitText {n : Nat} (hn : n < 0x20) (rest : List Char) :
    read (unitText n ++ rest) = ((read rest).1.push (.char (Char.ofNat n)), (read rest).2) := by
  obtain ⟨unit, hunit, hpiece⟩ := Option.map_eq_some_iff.1 (ofUnit_hexQuad n hn)
  rw [unitText, read.eq_def]
  simp only [List.cons_append, List.nil_append,
    if_neg (show ('\\' : Char) ≠ '"' by decide), if_pos, hunit, hpiece]

/-- A character is read back, whether it is escaped or not. -/
theorem read_charText (c : Char) (rest : List Char) :
    read (charText c ++ rest) = ((read rest).1.push (.char c), (read rest).2) := by
  unfold charText
  iterate 7
    split
    · next h =>
        subst h
        exact read_escape rfl (by decide) rest
  split
  · next hlt =>
      rw [read_unitText hlt, Char.ofNat_toNat]
  · next hquote hslash _ _ _ _ _ hlt => exact read_plain hquote hslash hlt rest

/-- A string is read back up to its closing quote. -/
theorem read_pieces (cs rest : List Char) :
    read ((cs.map Piece.char).flatMap pieceText ++ '"' :: rest) =
      ({ pieces := cs.map Piece.char, fault := none }, rest) := by
  induction cs with
  | nil => exact read_nil_quote rest
  | cons c cs ih =>
      rw [List.map_cons, List.flatMap_cons, List.append_assoc, pieceText, read_charText, ih]
      rfl

end Quoted

namespace Token

/-- A token that a written value may have. -/
inductive Sound : Token → Prop
  | leftBrace : Sound .leftBrace
  | rightBrace : Sound .rightBrace
  | leftBracket : Sound .leftBracket
  | rightBracket : Sound .rightBracket
  | colon : Sound .colon
  | comma : Sound .comma
  | null : Sound .null
  | bool {b : Bool} : Sound (.bool b)
  | number {i : Int} : Sound (.number (.ofInt i))
  | string {s : String} : Sound (.string (.ofString s))

def isNumber : Token → Bool
  | .number _ => true
  | _ => false

/-- The signs that may stand behind a value. -/
def isClosing : Token → Bool
  | .rightBrace | .rightBracket | .comma => true
  | _ => false

/-- A number is no sign and no word. -/
theorem sign?_word?_of_number {c : Char} (h : c = '-' ∨ c.isDigit = true) :
    sign? c = none ∧ word? c = none ∧ c ≠ '"' ∧ isBlank c = false := by
  have hne : ∀ x : Char, (x = '-' ∨ x.isDigit = true) = False → c ≠ x := by
    rintro x hx rfl
    exact hx ▸ h
  simp [sign?, word?, isBlank, hne]

/-- The first character of a token is no blank. -/
theorem exists_text {t : Token} (h : t.Sound) :
    ∃ c cs, t.text = c :: cs ∧ isBlank c = false := by
  cases h with
  | bool => rename_i b; cases b <;> exact ⟨_, _, rfl, rfl⟩
  | number =>
      obtain ⟨c, cs, htext, hc⟩ := Numeral.exists_text_ofInt _
      exact ⟨c, cs, htext, (sign?_word?_of_number hc).2.2.2⟩
  | _ => exact ⟨_, _, rfl, rfl⟩

/-- A token is read back, where nothing continues it. -/
theorem read_text {t : Token} {c : Char} {cs rest : List Char}
    (h : t.Sound)
    (htext : t.text = c :: cs)
    (hrest : t.isNumber = true → Numeral.Stops rest) :
    read c (cs ++ rest) = (t, rest) := by
  cases h with
  | bool => rename_i b; cases b <;> cases htext <;> rfl
  | @number i =>
      obtain ⟨c', cs', htext', hc⟩ := Numeral.exists_text_ofInt i
      obtain ⟨rfl, rfl⟩ := List.cons.inj (htext'.symm.trans htext)
      obtain ⟨hsign, hword, hquote, _⟩ := sign?_word?_of_number hc
      rw [read, hsign, hword]
      simp only [if_neg hquote, if_pos hc]
      rw [readNumber, ← List.cons_append, ← htext', Numeral.read_ofInt i (hrest rfl)]
  | @string s =>
      have hcons : '"' :: (((Quoted.ofString s).pieces.flatMap Quoted.pieceText) ++ ['"']) =
          c :: cs := htext
      obtain ⟨rfl, rfl⟩ := List.cons.inj hcons
      have hread := Quoted.read_pieces s.toList rest
      rw [List.append_assoc, List.singleton_append, read]
      simp only [sign?, word?]
      simp only [Quoted.ofString, hread]
      rfl
  | _ => cases htext; rfl

/-- A text that has some tokens, with blanks between them and around them. -/
inductive Spaced : List Token → List Char → Prop
  | nil {blanks : List Char} :
      (∀ c ∈ blanks, isBlank c = true) →
      Spaced [] blanks
  | cons {blanks text : List Char} {t : Token} {ts : List Token} :
      (∀ c ∈ blanks, isBlank c = true) →
      Spaced ts text →
      Spaced (t :: ts) (blanks ++ (t.text ++ text))

/-- Tokens of which no two grow together. -/
inductive Legible : List Token → Prop
  | nil : Legible []
  | cons {t : Token} {ts : List Token} :
      t.Sound →
      (t.isNumber = true → ∀ u ∈ ts.head?, u.isClosing = true) →
      Legible ts →
      Legible (t :: ts)

theorem readAll_of_blank {cs : List Char} (h : ∀ c ∈ cs, isBlank c = true) : readAll cs = [] := by
  have hdrop : cs.dropWhile isBlank = [] := by
    rw [← List.append_nil cs, List.dropWhile_append_of_pos h, List.dropWhile_nil]
  rw [readAll]
  split
  · rfl
  · next heq =>
      rw [hdrop] at heq
      cases heq

theorem readAll_cons {cs rest : List Char} {c : Char} (h : cs.dropWhile isBlank = c :: rest) :
    readAll cs = (read c rest).1 :: readAll (read c rest).2 := by
  rw [readAll]
  split
  · next heq =>
      rw [h] at heq
      cases heq
  · next heq =>
      rw [h] at heq
      cases heq
      rfl

/-- Behind a number comes a blank, a sign or nothing. -/
theorem Spaced.stops {ts : List Token} {text : List Char}
    (h : Spaced ts text)
    (hts : ∀ u ∈ ts.head?, u.isClosing = true) :
    Numeral.Stops text := by
  have hblank : ∀ {blanks rest : List Char}, (∀ c ∈ blanks, isBlank c = true) →
      Numeral.Stops rest → Numeral.Stops (blanks ++ rest) := by
    intro blanks rest hblanks hrest
    cases blanks with
    | nil => exact hrest
    | cons b blanks =>
        have hb := hblanks b List.mem_cons_self
        simp only [isBlank, Bool.or_eq_true, beq_iff_eq] at hb
        refine Numeral.stops_cons ?_ _
        rcases hb with ((rfl | rfl) | rfl) | rfl <;> decide
  cases h with
  | nil hblanks => exact List.append_nil text ▸ hblank hblanks (by rintro c ⟨⟩)
  | @cons _ _ t _ hblanks _ =>
      have ht := hts t rfl
      refine hblank hblanks ?_
      cases t with
      | rightBrace => exact Numeral.stops_cons (by decide) _
      | rightBracket => exact Numeral.stops_cons (by decide) _
      | comma => exact Numeral.stops_cons (by decide) _
      | _ => cases ht

/-- Tokens are read back from their texts, with blanks between them. -/
theorem readAll_of_spaced {ts : List Token} {cs : List Char}
    (h : Spaced ts cs)
    (hts : Legible ts) :
    readAll cs = ts := by
  induction h with
  | nil hblanks => exact readAll_of_blank hblanks
  | @cons blanks text t ts hblanks hspaced ih =>
      cases hts with
      | cons ht hnumber hts =>
          obtain ⟨c, cs, htext, hc⟩ := exists_text ht
          have hdrop : (blanks ++ (t.text ++ text)).dropWhile isBlank = c :: (cs ++ text) := by
            rw [List.dropWhile_append_of_pos hblanks, htext, List.cons_append,
              List.dropWhile_cons_of_neg (by simp [hc])]
          have hread := read_text ht htext fun hn => hspaced.stops (hnumber hn)
          rw [readAll_cons hdrop, hread, ih hts]

end Token
end StencilShapes
