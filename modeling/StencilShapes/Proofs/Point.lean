import StencilShapes.Point
import Mathlib.Algebra.BigOperators.Group.List.Basic
import Mathlib.Algebra.Ring.Int.Defs
import Mathlib.Logic.Basic

/-!
# Points by their coordinates

Points are combined coordinate by coordinate.  This module reads a point as a
function from dimensions to integers and says in these terms when two points
combine, and to what.

**Results.**
* `Point.add_eq_ok`, `Point.add_eq_error`: sums, and when they leave the range.
* `Point.sub_eq_ok`, `Point.sub_eq_error`: differences, likewise.
* `Point.min_eq_ok`, `Point.max_eq_ok`: lesser and greater coordinates.
* `Point.coord_of_shrink`: what is left of an end when a block is taken off.
* `Point.shrink_eq_error`: when a block cannot be taken off.
* `Point.val_of_volume?`, `Point.exists_volume?`: the volume is the product of the
  coordinates, where that is positive and in range.
-/

namespace StencilShapes

/-- The integers that are coordinates. -/
def Coord.InRange (n : Int) : Prop :=
  -9223372036854775808 ≤ n ∧ n ≤ 9223372036854775807

instance (n : Int) : Decidable (Coord.InRange n) :=
  inferInstanceAs (Decidable (_ ∧ _))

theorem Coord.ofInt?_eq_none {n : Int} : ofInt? n = none ↔ ¬ InRange n := by
  rw [InRange, ← ofInt?_isSome, Bool.not_eq_true, Option.isSome_eq_false_iff,
    Option.isNone_iff_eq_none]

theorem Coord.val_injective : Function.Injective Coord.val := by
  rintro ⟨m, hm⟩ ⟨n, hn⟩ h
  cases h
  rfl

/-- A machine integer as a coordinate. -/
def Coord.ofInt64 (n : Int64) : Coord :=
  ⟨n.toInt, n.le_toInt, Int.le_of_lt_add_one n.toInt_lt⟩

namespace Point

variable {p q r : Point}

/-- The coordinate in a dimension; zero beyond the rank. -/
def coord (p : Point) (d : Nat) : Int :=
  (p[d]?).elim 0 Coord.val

theorem coord_eq {d : Nat} {a : Coord} (h : p[d]? = some a) : p.coord d = a.val := by
  rw [coord, h]
  rfl

theorem exists_coord {d : Nat} (h : d < p.length) : ∃ a, p[d]? = some a ∧ p.coord d = a.val :=
  ⟨p[d], List.getElem?_eq_getElem h, coord_eq (List.getElem?_eq_getElem h)⟩

/-- A point has no coordinates beyond its rank. -/
theorem coord_of_le {d : Nat} (h : p.length ≤ d) : p.coord d = 0 := by
  rw [coord, List.getElem?_eq_none h]
  rfl

theorem inRange_coord (p : Point) (d : Nat) : Coord.InRange (p.coord d) := by
  unfold coord
  cases p[d]? with
  | none => exact ⟨by decide, by decide⟩
  | some a => exact a.inRange

/-- All coordinates have a property when those of all dimensions have it. -/
theorem forall_mem_iff_coord {P : Int → Prop} :
    (∀ c ∈ p, P c.val) ↔ ∀ d < p.length, P (p.coord d) := by
  constructor
  · intro h d hd
    rw [coord_eq (List.getElem?_eq_getElem hd)]
    exact h _ (List.getElem_mem hd)
  · intro h c hc
    obtain ⟨d, hd, rfl⟩ := List.getElem_of_mem hc
    have := h d hd
    rwa [coord_eq (List.getElem?_eq_getElem hd)] at this

/-- Points with the same coordinates are the same. -/
theorem ext_coord (hl : p.length = q.length) (h : ∀ d < p.length, p.coord d = q.coord d) :
    p = q := by
  refine List.ext_getElem hl fun d hd hd' => ?_
  have hval := h d hd
  rw [coord_eq (List.getElem?_eq_getElem hd), coord_eq (List.getElem?_eq_getElem hd')] at hval
  exact Coord.val_injective hval

section Combine

variable {f : Coord → Coord → Option Coord} {g : Int → Int → Int}

theorem zip?_eq_some (hl : p.length = q.length) :
    zip? f p q = some r ↔
      r.length = p.length ∧ ∀ (d : Nat) (a b : Coord), p[d]? = some a → q[d]? = some b →
        ∃ c, r[d]? = some c ∧ f a b = some c := by
  induction p generalizing q r with
  | nil =>
      obtain rfl := List.length_eq_zero_iff.1 hl.symm
      simp [zip?, eq_comm]
  | cons a p ih =>
      obtain ⟨b, q, rfl⟩ := List.exists_cons_of_length_eq_add_one hl.symm
      have hl' : p.length = q.length := Nat.succ.inj hl
      constructor
      · intro h
        simp only [zip?] at h
        split at h
        · next c r' hc hr' =>
            cases h
            obtain ⟨hlen, hrest⟩ := (ih hl').1 hr'
            refine ⟨by simp [hlen], fun d => ?_⟩
            cases d with
            | zero =>
                rintro _ _ ⟨⟩ ⟨⟩
                exact ⟨c, rfl, hc⟩
            | succ d => exact hrest d
        · cases h
      · rintro ⟨hlen, h⟩
        obtain ⟨c, r, rfl⟩ := List.exists_cons_of_length_eq_add_one hlen
        obtain ⟨_, ⟨⟩, hc⟩ := h 0 a b rfl rfl
        have hr : zip? f p q = some r := (ih hl').2 ⟨Nat.succ.inj hlen, fun d => h (d + 1)⟩
        rw [zip?, hc, hr]

theorem zip?_eq_none (hl : p.length = q.length) :
    zip? f p q = none ↔
      ∃ (d : Nat) (a b : Coord), p[d]? = some a ∧ q[d]? = some b ∧ f a b = none := by
  induction p generalizing q with
  | nil =>
      obtain rfl := List.length_eq_zero_iff.1 hl.symm
      simp [zip?]
  | cons a p ih =>
      obtain ⟨b, q, rfl⟩ := List.exists_cons_of_length_eq_add_one hl.symm
      have hl' : p.length = q.length := Nat.succ.inj hl
      have hrest : zip? f (a :: p) (b :: q) = none ↔ f a b = none ∨ zip? f p q = none := by
        simp only [zip?]
        cases f a b with
        | none => simp
        | some c => cases zip? f p q <;> simp
      rw [hrest, ih hl']
      constructor
      · rintro (h | ⟨d, h⟩)
        · exact ⟨0, a, b, rfl, rfl, h⟩
        · exact ⟨d + 1, h⟩
      · rintro ⟨d, a', b', ha, hb, h⟩
        cases d with
        | zero =>
            cases ha
            cases hb
            exact Or.inl h
        | succ d => exact Or.inr ⟨d, a', b', ha, hb, h⟩

theorem combine_eq_ok :
    combine f p q = .ok r ↔ p.length = q.length ∧ zip? f p q = some r := by
  unfold combine
  split
  · next hl => cases zip? f p q <;> simp [hl]
  · next hl => simp [hl]

theorem combine_eq_error {fault : PointFault} (hl : p.length = q.length) :
    combine f p q = .error fault ↔ fault = .overflow ∧ zip? f p q = none := by
  unfold combine
  rw [if_pos hl]
  cases zip? f p q <;> simp [eq_comm]

/-- What a checked operation makes of two points. -/
theorem combine_checked_eq_ok (hf : ∀ a b, f a b = Coord.ofInt? (g a.val b.val)) :
    combine f p q = .ok r ↔
      p.length = q.length ∧ r.length = p.length ∧
        ∀ d < p.length, r.coord d = g (p.coord d) (q.coord d) := by
  rw [combine_eq_ok]
  refine and_congr_right fun hl => ?_
  rw [zip?_eq_some hl]
  refine and_congr_right fun hlen => ?_
  constructor
  · intro h d hd
    obtain ⟨a, ha, ha'⟩ := exists_coord hd
    obtain ⟨b, hb, hb'⟩ := exists_coord (p := q) (hl ▸ hd)
    obtain ⟨c, hc, hfc⟩ := h d a b ha hb
    rw [hf, Coord.ofInt?_eq_some] at hfc
    rw [coord_eq hc, ha', hb', hfc]
  · intro h d a b ha hb
    have hd : d < p.length := (List.getElem?_eq_some_iff.1 ha).1
    obtain ⟨c, hc, hc'⟩ := exists_coord (p := r) (hlen ▸ hd)
    have hval := h d hd
    rw [coord_eq ha, coord_eq hb, hc'] at hval
    exact ⟨c, hc, by rw [hf, Coord.ofInt?_eq_some, hval]⟩

/-- A checked operation fails when a coordinate leaves the range. -/
theorem combine_checked_eq_error {fault : PointFault}
    (hf : ∀ a b, f a b = Coord.ofInt? (g a.val b.val)) (hl : p.length = q.length) :
    combine f p q = .error fault ↔
      fault = .overflow ∧ ∃ d < p.length, ¬ Coord.InRange (g (p.coord d) (q.coord d)) := by
  rw [combine_eq_error hl, zip?_eq_none hl]
  refine and_congr_right fun _ => ?_
  constructor
  · rintro ⟨d, a, b, ha, hb, h⟩
    refine ⟨d, (List.getElem?_eq_some_iff.1 ha).1, ?_⟩
    rwa [coord_eq ha, coord_eq hb, ← Coord.ofInt?_eq_none, ← hf]
  · rintro ⟨d, hd, h⟩
    obtain ⟨a, ha, ha'⟩ := exists_coord hd
    obtain ⟨b, hb, hb'⟩ := exists_coord (p := q) (hl ▸ hd)
    rw [ha', hb', ← Coord.ofInt?_eq_none, ← hf] at h
    exact ⟨d, a, b, ha, hb, h⟩

end Combine

theorem add_eq_ok :
    add p q = .ok r ↔
      p.length = q.length ∧ r.length = p.length ∧
        ∀ d < p.length, r.coord d = p.coord d + q.coord d :=
  combine_checked_eq_ok fun _ _ => rfl

theorem add_eq_error {fault : PointFault} (hl : p.length = q.length) :
    add p q = .error fault ↔
      fault = .overflow ∧ ∃ d < p.length, ¬ Coord.InRange (p.coord d + q.coord d) :=
  combine_checked_eq_error (fun _ _ => rfl) hl

theorem sub_eq_ok :
    sub p q = .ok r ↔
      p.length = q.length ∧ r.length = p.length ∧
        ∀ d < p.length, r.coord d = p.coord d - q.coord d :=
  combine_checked_eq_ok fun _ _ => rfl

theorem sub_eq_error {fault : PointFault} (hl : p.length = q.length) :
    sub p q = .error fault ↔
      fault = .overflow ∧ ∃ d < p.length, ¬ Coord.InRange (p.coord d - q.coord d) :=
  combine_checked_eq_error (fun _ _ => rfl) hl

theorem min_eq_ok :
    Point.min p q = .ok r ↔
      p.length = q.length ∧ r.length = p.length ∧
        ∀ d < p.length, r.coord d = Min.min (p.coord d) (q.coord d) :=
  combine_checked_eq_ok fun a b => (Coord.ofInt?_eq_some.2 (Coord.val_min a b)).symm

theorem max_eq_ok :
    Point.max p q = .ok r ↔
      p.length = q.length ∧ r.length = p.length ∧
        ∀ d < p.length, r.coord d = Max.max (p.coord d) (q.coord d) :=
  combine_checked_eq_ok fun a b => (Coord.ofInt?_eq_some.2 (Coord.val_max a b)).symm

/-- Lesser coordinates are always in range. -/
theorem exists_min (hl : p.length = q.length) : ∃ r, Point.min p q = .ok r := by
  cases h : Point.min p q with
  | ok r => exact ⟨r, rfl⟩
  | error fault =>
      obtain ⟨_, d, a, b, _, _, h⟩ := (combine_eq_error hl).1 h |>.imp_right (zip?_eq_none hl).1
      cases h

/-- Greater coordinates are always in range. -/
theorem exists_max (hl : p.length = q.length) : ∃ r, Point.max p q = .ok r := by
  cases h : Point.max p q with
  | ok r => exact ⟨r, rfl⟩
  | error fault =>
      obtain ⟨_, d, a, b, _, _, h⟩ := (combine_eq_error hl).1 h |>.imp_right (zip?_eq_none hl).1
      cases h

/-- A block is taken off without the one cell at which it stands. -/
theorem coord_of_shrink {u : Point} (h : shrink p u = .ok r) :
    p.length = u.length ∧ r.length = p.length ∧
      ∀ d < p.length, r.coord d = p.coord d - u.coord d + 1 := by
  rcases combine_eq_ok.1 h with ⟨hl, h⟩
  obtain ⟨hlen, h⟩ := (zip?_eq_some hl).1 h
  refine ⟨hl, hlen, fun d hd => ?_⟩
  obtain ⟨a, ha, ha'⟩ := exists_coord hd
  obtain ⟨b, hb, hb'⟩ := exists_coord (p := u) (hl ▸ hd)
  obtain ⟨c, hc, hf⟩ := h d a b ha hb
  rcases Option.bind_eq_some_iff.1 hf with ⟨e, he, hc'⟩
  have he' := Coord.ofInt?_eq_some.1 he
  have hc'' := Coord.ofInt?_eq_some.1 hc'
  rw [coord_eq hc, ha', hb', hc'', he']
  rfl

/-- A block cannot be taken off when the difference leaves the range, with or without
the one cell that is given back. -/
theorem shrink_eq_error {u : Point} {fault : PointFault} (hl : p.length = u.length) :
    shrink p u = .error fault ↔
      fault = .overflow ∧ ∃ d < p.length, ¬ Coord.InRange (p.coord d - u.coord d) ∨
        ¬ Coord.InRange (p.coord d - u.coord d + 1) := by
  have hcell : ∀ a b : Coord, (Coord.sub? a b).bind (Coord.add? · Coord.one) = none ↔
      ¬ Coord.InRange (a.val - b.val) ∨ ¬ Coord.InRange (a.val - b.val + 1) := by
    intro a b
    cases hsub : Coord.sub? a b with
    | none => simp [Coord.ofInt?_eq_none.1 hsub]
    | some c =>
        have hval : c.val = a.val - b.val := Coord.ofInt?_eq_some.1 hsub
        have hin : Coord.InRange (a.val - b.val) := hval ▸ c.inRange
        rw [Option.bind_some, Coord.add?, Coord.ofInt?_eq_none, hval]
        simp [hin, Coord.one]
  rw [shrink, combine_eq_error hl, zip?_eq_none hl]
  refine and_congr_right fun _ => ?_
  constructor
  · rintro ⟨d, a, b, ha, hb, h⟩
    refine ⟨d, (List.getElem?_eq_some_iff.1 ha).1, ?_⟩
    rw [coord_eq ha, coord_eq hb]
    exact (hcell a b).1 h
  · rintro ⟨d, hd, h⟩
    obtain ⟨a, ha, ha'⟩ := exists_coord hd
    obtain ⟨b, hb, hb'⟩ := exists_coord (p := u) (hl ▸ hd)
    rw [ha', hb'] at h
    exact ⟨d, a, b, ha, hb, (hcell a b).2 h⟩

section Volume

theorem val_of_foldlM_mul? :
    ∀ {p : Point} {a b : Coord}, p.foldlM Coord.mul? a = some b →
      b.val = a.val * (p.map Coord.val).prod := by
  intro p
  induction p with
  | nil =>
      rintro a b ⟨⟩
      simp
  | cons c p ih =>
      intro a b h
      rw [List.foldlM_cons] at h
      obtain ⟨m, hm, hb⟩ := Option.bind_eq_some_iff.1 h
      rw [ih hb, Coord.ofInt?_eq_some.1 hm, List.map_cons, List.prod_cons, Int.mul_assoc]

/-- No factor of a positive product in range leaves the range. -/
theorem inRange_of_mul {x y : Int} (h : 1 ≤ x * y) (h' : x * y ≤ 9223372036854775807) :
    Coord.InRange x := by
  have hle : x ≤ x * y := Int.le_of_dvd (by omega) ⟨y, rfl⟩
  have hle' : -x ≤ x * y := Int.le_of_dvd (by omega) ⟨-y, by rw [Int.neg_mul_neg]⟩
  constructor <;> omega

theorem exists_foldlM_mul? :
    ∀ {p : Point} {a : Coord}, 1 ≤ a.val * (p.map Coord.val).prod →
      a.val * (p.map Coord.val).prod ≤ 9223372036854775807 →
      ∃ b, p.foldlM Coord.mul? a = some b := by
  intro p
  induction p with
  | nil => exact fun _ _ => ⟨_, rfl⟩
  | cons c p ih =>
      intro a h h'
      rw [List.map_cons, List.prod_cons, ← Int.mul_assoc] at h h'
      obtain ⟨m, hm⟩ := Option.isSome_iff_exists.1 (Coord.ofInt?_isSome.2 (inRange_of_mul h h'))
      have hval := Coord.ofInt?_eq_some.1 hm
      rw [← hval] at h h'
      obtain ⟨b, hb⟩ := ih h h'
      exact ⟨b, Option.bind_eq_some_iff.2 ⟨m, hm, hb⟩⟩

theorem val_of_volume? {a : Coord} (h : p.volume? = some a) : a.val = (p.map Coord.val).prod := by
  rw [val_of_foldlM_mul? h, Coord.one, Int.one_mul]

/-- A positive product in range is the volume: no part of it is greater. -/
theorem exists_volume? (h : 1 ≤ (p.map Coord.val).prod)
    (h' : (p.map Coord.val).prod ≤ 9223372036854775807) :
    ∃ a, p.volume? = some a :=
  exists_foldlM_mul? (by rwa [Coord.one, Int.one_mul]) (by rwa [Coord.one, Int.one_mul])

end Volume

end Point
end StencilShapes
