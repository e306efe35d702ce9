/-!
# Numbers as they are written

A numeral keeps the digits of a number.  It denotes an integer if it has neither
a fraction nor an exponent and is no negative zero.  It is too large if its
leading digits, as many as fit into 64 bits, times its power of ten round to
infinity in the format of 64-bit floating point numbers.

**Main statements.**
* `Numeral.length_of_read`: reading a numeral consumes text.
* `Numeral.int?_ofInt`: the numeral of an integer denotes that integer.
-/

namespace StencilShapes

/-- Why a text is not read. -/
inductive ReadFault where
  | cutShort
  | notJson
  /-- The text is well formed, but does not say what it should. -/
  | wrongShape
  deriving DecidableEq

/-- The name of a kind of fault. -/
def ReadFault.text : ReadFault → String
  | .cutShort => "eof"
  | .notJson => "syntax"
  | .wrongShape => "data"

/-- The fault of a text that has `rest` left where something else is due. -/
def ReadFault.before (rest : List Char) : ReadFault :=
  if rest.isEmpty then .cutShort else .notJson

/-- A number as it is written. -/
structure Numeral where
  negative : Bool
  whole : List Char
  fraction : Option (List Char)
  /-- Whether the exponent has a minus sign, and its digits. -/
  exponent : Option (Bool × List Char)
  deriving DecidableEq

namespace Numeral

/-- The digits at the start of a text, and what follows them. -/
def takeDigits (cs : List Char) : List Char × List Char :=
  (cs.takeWhile Char.isDigit, cs.dropWhile Char.isDigit)

/-- Reads the digits before the point; a zero stands alone. -/
def readWhole (cs : List Char) : Except ReadFault (List Char × List Char) :=
  match takeDigits cs with
  | ([], rest) => .error (.before rest)
  | (d :: ds, rest) => if d = '0' ∧ ds ≠ [] then .error .notJson else .ok (d :: ds, rest)

/-- Reads digits, of which there has to be one. -/
def readDigits (cs : List Char) : Except ReadFault (List Char × List Char) :=
  match takeDigits cs with
  | ([], rest) => .error (.before rest)
  | (d :: ds, rest) => .ok (d :: ds, rest)

/-- Reads a point with digits, if there is a point. -/
def readFraction (cs : List Char) : Except ReadFault (Option (List Char) × List Char) :=
  match cs with
  | '.' :: rest =>
      match readDigits rest with
      | .ok (ds, rest) => .ok (some ds, rest)
      | .error fault => .error fault
  | _ => .ok (none, cs)

/-- Takes the sign of an exponent off a text. -/
def takeSign (cs : List Char) : Bool × List Char :=
  match cs with
  | '-' :: rest => (true, rest)
  | '+' :: rest => (false, rest)
  | _ => (false, cs)

/-- Reads an exponent, if there is one. -/
def readExponent (cs : List Char) : Except ReadFault (Option (Bool × List Char) × List Char) :=
  match cs with
  | c :: rest =>
      if c = 'e' ∨ c = 'E' then
        match readDigits (takeSign rest).2 with
        | .ok (ds, left) => .ok (some ((takeSign rest).1, ds), left)
        | .error fault => .error fault
      else .ok (none, cs)
  | [] => .ok (none, cs)

/-- Reads what follows the sign of a number. -/
def readUnsigned (negative : Bool) (cs : List Char) : Except ReadFault (Numeral × List Char) :=
  match readWhole cs with
  | .error fault => .error fault
  | .ok (whole, rest) =>
      match readFraction rest with
      | .error fault => .error fault
      | .ok (fraction, rest) =>
          match readExponent rest with
          | .error fault => .error fault
          | .ok (exponent, rest) => .ok ({ negative, whole, fraction, exponent }, rest)

/-- Reads a number, and returns what follows it. -/
def read (cs : List Char) : Except ReadFault (Numeral × List Char) :=
  match cs with
  | '-' :: rest => readUnsigned true rest
  | _ => readUnsigned false cs

/-- The text of a number. -/
def text (n : Numeral) : List Char :=
  (if n.negative then ['-'] else []) ++ n.whole
    ++ n.fraction.elim [] (fun ds => '.' :: ds)
    ++ n.exponent.elim [] (fun (negative, ds) => 'e' :: (if negative then ['-'] else []) ++ ds)

/-- The number that some digits denote. -/
def value (ds : List Char) : Nat :=
  Nat.ofDigitChars 10 ds 0

/-- The numeral of an integer. -/
def ofInt (n : Int) : Numeral :=
  { negative := decide (n < 0)
    whole := Nat.toDigits 10 n.natAbs
    fraction := none
    exponent := none }

/-- The integer that a numeral denotes, if it denotes one. -/
def int? (n : Numeral) : Option Int :=
  match n.fraction, n.exponent with
  | none, none =>
      if n.negative then
        if value n.whole = 0 then none else some (-(value n.whole : Int))
      else some (value n.whole : Int)
  | _, _ => none

/-- The integer that a numeral denotes, if it is from `low` on and up to `high`. -/
def intBetween? (low high : Int) (n : Numeral) : Option Int :=
  n.int?.filter fun i => decide (low ≤ i ∧ i ≤ high)

/-- Leading digits as far as they fit into 64 bits, and a power of ten. -/
structure Scaled where
  digits : Nat := 0
  /-- The power of ten that is still to be applied. -/
  power : Int := 0
  full : Bool := false

/-- Takes one more digit, if it fits. -/
def Scaled.push (s : Scaled) (c : Char) (taken left : Int) : Scaled :=
  let digits := 10 * s.digits + (c.toNat - '0'.toNat)
  if s.full ∨ 18446744073709551615 < digits then { s with power := s.power + left, full := true }
  else { s with digits, power := s.power + taken }

/-- The digits of a numeral that count, with its power of ten. -/
def scaled (n : Numeral) : Scaled :=
  let s : Scaled := n.whole.foldl (fun s c => s.push c 0 1) {}
  let s : Scaled := (n.fraction.getD []).foldl (fun s c => s.push c (-1) 0) { s with full := false }
  match n.exponent with
  | none => s
  | some (negative, ds) =>
      { s with power := s.power + if negative then -(value ds : Int) else (value ds : Int) }

/-- The nearest number with 53 significant bits; of two, the one with an even last bit. -/
def round53 (n : Nat) : Nat :=
  if n < 1 <<< 53 then n
  else
    let shift := n.log2 - 52
    let q := n >>> shift
    let r := n - q <<< shift
    let half := 1 <<< (shift - 1)
    if half < r ∨ (r = half ∧ q % 2 = 1) then (q + 1) <<< shift else q <<< shift

/-- The number is infinite as a 64-bit floating point number. -/
def tooLarge (n : Numeral) : Bool :=
  let s := n.scaled
  if s.digits = 0 ∨ s.power < 0 then false
  else if 308 < s.power then true
  else decide (1 <<< 1024 - 1 <<< 970 ≤ round53 s.digits * round53 (Nat.pow 10 s.power.toNat))

theorem length_takeDigits (cs : List Char) : (takeDigits cs).2.length ≤ cs.length :=
  (List.dropWhile_sublist Char.isDigit).length_le

theorem length_of_readDigits {cs ds rest : List Char} (h : readDigits cs = .ok (ds, rest)) :
    rest.length ≤ cs.length := by
  have hl := length_takeDigits cs
  unfold readDigits at h
  split at h
  · simp at h
  · next heq =>
      simp only [heq] at hl
      simp only [Except.ok.injEq, Prod.mk.injEq] at h
      exact h.2 ▸ hl

theorem length_of_readWhole {cs ds rest : List Char} (h : readWhole cs = .ok (ds, rest)) :
    rest.length < cs.length := by
  have hsplit : (takeDigits cs).1 ++ (takeDigits cs).2 = cs := List.takeWhile_append_dropWhile
  unfold readWhole at h
  split at h
  · simp at h
  · next heq =>
      simp only [heq] at hsplit
      split at h
      · simp at h
      · simp only [Except.ok.injEq, Prod.mk.injEq] at h
        rw [← hsplit, ← h.2]
        simp only [List.length_append, List.length_cons]
        omega

theorem length_of_readFraction {cs rest : List Char} {ds : Option (List Char)}
    (h : readFraction cs = .ok (ds, rest)) : rest.length ≤ cs.length := by
  unfold readFraction at h
  split at h
  · split at h
    · next hd =>
        simp only [Except.ok.injEq, Prod.mk.injEq] at h
        rw [← h.2]
        exact Nat.le_succ_of_le (length_of_readDigits hd)
    · simp at h
  · simp only [Except.ok.injEq, Prod.mk.injEq] at h
    simp [h.2]

theorem length_takeSign (cs : List Char) : (takeSign cs).2.length ≤ cs.length := by
  unfold takeSign
  split <;> simp

theorem length_of_readExponent {cs rest : List Char} {e : Option (Bool × List Char)}
    (h : readExponent cs = .ok (e, rest)) : rest.length ≤ cs.length := by
  unfold readExponent at h
  split at h
  · next c cs =>
      split at h
      · split at h
        · next hd =>
            simp only [Except.ok.injEq, Prod.mk.injEq] at h
            rw [← h.2]
            exact Nat.le_succ_of_le (Nat.le_trans (length_of_readDigits hd) (length_takeSign cs))
        · simp at h
      · simp only [Except.ok.injEq, Prod.mk.injEq] at h
        simp [← h.2]
  · simp only [Except.ok.injEq, Prod.mk.injEq] at h
    simp [← h.2]

theorem length_of_readUnsigned {b : Bool} {cs rest : List Char} {n : Numeral}
    (h : readUnsigned b cs = .ok (n, rest)) : rest.length < cs.length := by
  unfold readUnsigned at h
  split at h
  · simp at h
  · next hw =>
      split at h
      · simp at h
      · next hf =>
          split at h
          · simp at h
          · next he =>
              simp only [Except.ok.injEq, Prod.mk.injEq] at h
              rw [← h.2]
              exact Nat.lt_of_le_of_lt (length_of_readExponent he)
                (Nat.lt_of_le_of_lt (length_of_readFraction hf) (length_of_readWhole hw))

theorem length_of_read {cs rest : List Char} {n : Numeral} (h : read cs = .ok (n, rest)) :
    rest.length < cs.length := by
  unfold read at h
  split at h
  · have := length_of_readUnsigned h
    simp only [List.length_cons]
    omega
  · exact length_of_readUnsigned h

theorem int?_ofInt (n : Int) : (ofInt n).int? = some n := by
  simp only [int?, ofInt, value, Nat.ofDigitChars_toDigits (b := 10) (n := n.natAbs) (by decide)
    (by decide), decide_eq_true_eq]
  split
  · split
    · omega
    · congr 1
      omega
  · congr 1
    omega

end Numeral

end StencilShapes
