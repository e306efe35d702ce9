import StencilShapes.Proofs.Description.Blocks
import StencilShapes.Proofs.Extent.Box
import Mathlib.Algebra.BigOperators.Ring.List
import Mathlib.Algebra.Group.Nat.Even
import Mathlib.Algebra.Order.Ring.Int

/-!
# What acceptance says of an unroll

A return may come with an unroll, the block of cells that one instance of the body
computes.  When an apply is closed the volume of the block is looked at, and nothing else:
it has to be positive and to divide the number of returned values.  So no component is
zero and the negative ones are even in number, but there may be negative ones, and in
their dimensions taking the block off an extent widens it.

**Results.**
* `prod_pos_iff_even`: the sign of a product.
* `Description.yields_of_elaborate`: each return of an elaborated program yields the
  results of its apply.
* `Description.unroll_accepted`: what holds of an accepted unroll.
-/

namespace StencilShapes

/-- A product without zeros is positive when the negative factors are even in number. -/
theorem prod_pos_iff_even {xs : List Int} (h : xs.prod ≠ 0) :
    0 < xs.prod ↔ Even (xs.countP (· < 0)) := by
  induction xs with
  | nil => simp
  | cons x xs ih =>
      rw [List.prod_cons] at h ⊢
      obtain ⟨hx, hxs⟩ := Int.mul_ne_zero_iff.1 h
      rw [List.countP_cons]
      rcases lt_or_gt_of_ne hx with hneg | hpos
      · -- A negative factor changes the sign, and the parity with it.
        have hflip : 0 < x * xs.prod ↔ ¬ 0 < xs.prod := by
          rw [mul_pos_iff, not_lt]
          constructor
          · rintro (⟨hx', _⟩ | ⟨_, hlt⟩)
            · exact absurd hx' (not_lt.2 hneg.le)
            · exact hlt.le
          · exact fun hle => Or.inr ⟨hneg, lt_of_le_of_ne hle hxs⟩
        simp only [hneg, decide_true, if_true]
        rw [hflip, ih hxs, Nat.even_add_one]
      · have hnot : ¬ x < 0 := not_lt.2 hpos.le
        simp only [hnot, decide_false, Bool.false_eq_true, if_false, Nat.add_zero]
        rw [mul_pos_iff_of_pos_left hpos, ih hxs]

/-- What is asked of the unroll of a return of some values, and what follows: the volume
is positive and divides the number of values, so no component is zero and the negative
ones are even in number. -/
structure AcceptedUnroll (u : Point) (values : Nat) : Prop where
  volume_pos : 1 ≤ (u.map Coord.val).prod
  divides : (u.map Coord.val).prod ∣ (values : Int)
  ne_zero : ∀ c ∈ u, c.val ≠ 0
  even : Even (u.countP (·.val < 0))

/-- The components of an accepted unroll are positive, or two of them at least are not. -/
theorem AcceptedUnroll.positive_or {u : Point} {values : Nat} (h : AcceptedUnroll u values) :
    (∀ c ∈ u, 1 ≤ c.val) ∨ 2 ≤ u.countP (·.val < 0) := by
  rcases Nat.eq_zero_or_pos (u.countP (·.val < 0)) with hzero | hpos
  · refine Or.inl fun c hc => ?_
    have hnot := List.countP_eq_zero.1 hzero c hc
    have hne := h.ne_zero c hc
    simp only [decide_eq_true_eq] at hnot
    omega
  · obtain ⟨k, hk⟩ := h.even
    exact Or.inr (by omega)

theorem acceptedUnroll_of_yields {u : Point} {values results : Nat}
    (h : Yields values (some u) results) :
    AcceptedUnroll u values := by
  have hpos : 1 ≤ (u.map Coord.val).prod := h.volume_pos
  have hne : (u.map Coord.val).prod ≠ 0 := by omega
  constructor
  case volume_pos => exact hpos
  case divides => exact ⟨results, h.count⟩
  case ne_zero =>
    intro c hc hzero
    exact hne (List.prod_eq_zero (hzero ▸ List.mem_map_of_mem hc))
  case even =>
    have heven := (prod_pos_iff_even hne).1 (by omega)
    rwa [List.countP_map] at heven

namespace Extent

variable {e e' : Extent} {u : Point}

/-- Taking a block off moves the positive end by the width of the block less one. -/
theorem positive_of_unroll (h : e.unroll u = .ok e') :
    ∀ i < u.length, e'.positive.coord i = e.positive.coord i - u.coord i + 1 := by
  intro i hi
  obtain ⟨hlen, _, hcoord⟩ := Point.coord_of_shrink (unroll_eq_ok.1 h).2
  exact hcoord i (hlen ▸ hi)

/-- It does not widen an extent in just those dimensions in which the block is not empty. -/
theorem positive_le_iff_of_unroll {i : Nat} (h : e.unroll u = .ok e') (hi : i < u.length) :
    e'.positive.coord i ≤ e.positive.coord i ↔ 1 ≤ u.coord i := by
  rw [positive_of_unroll h i hi]
  omega

end Extent

namespace Description

open Program

variable {d : Description} {p : Program}

/-- A return stands in the body of an apply, and the values that it returns make up the
results. -/
theorem yields_of_elaborate {u : OpId} {o : Operation} {unroll : Option Point}
    (h : d.elaborate = .ok p)
    (ho : p.op? u = some o)
    (hk : o.kind = .ret unroll) :
    ∃ n, Yields o.operands.length unroll n := by
  obtain ⟨a, oa, block, hoa, hblock, hu⟩ := exists_block_of_inner h ho (by rw [hk]; rfl)
  obtain ⟨f, hf, results, operands, params, body, hop, _, hbody⟩ := exists_applyDesc h hoa hblock
  obtain ⟨_, _, hwell⟩ := ((wellFormed_of_elaborate h f hf).ops _ hop).body
  obtain ⟨op, hmem, _, o', ho', hinner⟩ := hbody.exists_op u hu
  obtain rfl : o = o' := Option.some.inj (ho.symm.trans ho')
  obtain ⟨init, names, unroll', rfl, hinit, hyields⟩ := hwell.returns
  have hreturn : op.isReturn = true := op.isReturn_iff.2 ⟨unroll, hinner.kind.symm.trans hk⟩
  -- The only return is the last operation.
  rcases List.mem_append.1 hmem with hmem | hmem
  · rw [hinit op hmem] at hreturn
    cases hreturn
  · obtain rfl := List.mem_singleton.1 hmem
    have hlength := congrArg List.length hinner.operands
    rw [List.length_map, List.length_map] at hlength
    have hunroll : OpKind.ret unroll = .ret unroll' := hk.symm.trans hinner.kind
    cases hunroll
    rw [hlength]
    exact ⟨_, hyields⟩

/-- An accepted unroll has a positive volume that divides the number of returned values;
its components are positive, or two of them at least are negative.  Taking it off an
extent widens this in the dimensions in which it is negative and in no others. -/
theorem unroll_accepted {u : OpId} {o : Operation} {factor : Point}
    (h : d.elaborate = .ok p)
    (ho : p.op? u = some o)
    (hk : o.kind = .ret (some factor)) :
    AcceptedUnroll factor o.operands.length ∧
      ((∀ c ∈ factor, 1 ≤ c.val) ∨ 2 ≤ factor.countP (·.val < 0)) ∧
      ∀ e e' : Extent, e.unroll factor = .ok e' → ∀ i < factor.length,
        (e'.positive.coord i ≤ e.positive.coord i ↔ 1 ≤ factor.coord i) := by
  obtain ⟨_, hyields⟩ := yields_of_elaborate h ho hk
  have haccepted := acceptedUnroll_of_yields hyields
  exact ⟨haccepted, haccepted.positive_or,
    fun e e' hunroll i hi => Extent.positive_le_iff_of_unroll hunroll hi⟩

/-- A body in two dimensions that returns what it reads, as often as asked for. -/
def blocked (factor : Point) (copies : Nat) : Description :=
  { functions :=
      [{ name := "blocked"
         stencil := true
         args :=
           [{ name := "in", element := .f64, rank := 2 },
             { name := "out", element := .f64, rank := 2 }]
         ops :=
           [.load "t" "in",
             .apply ["u"] ["t"] ["a"]
               [.access "r" "a" [.ofInt64 0, .ofInt64 0], .ret (List.replicate copies "r") factor],
             .store "u" "out" [.ofInt64 0, .ofInt64 0] [.ofInt64 4, .ofInt64 4]] }] }

/-- The program of such a body. -/
def blockedProgram (factor : Point) (copies : Nat) : Program :=
  (elaborateFunctions {} (blocked factor copies).functions).1

theorem unroll_accepted_blocked :
    (blockedProgram [.ofInt64 2, .ofInt64 1] 2).op? ⟨3⟩ = some
        { id := ⟨3⟩, kind := .ret (some [.ofInt64 2, .ofInt64 1]), operands := [⟨4⟩, ⟨4⟩]
          operandTypes := [.scalar .f64, .scalar .f64], results := [], parent := some ⟨1⟩ } ∧
      AcceptedUnroll [.ofInt64 2, .ofInt64 1] 2 ∧
      ∀ e e' : Extent, e.unroll [.ofInt64 2, .ofInt64 1] = .ok e' → ∀ i < 2,
        (e'.positive.coord i ≤ e.positive.coord i ↔
          1 ≤ Point.coord [.ofInt64 2, .ofInt64 1] i) := by
  have hload : (blocked [.ofInt64 2, .ofInt64 1] 2).elaborate =
      .ok (blockedProgram [.ofInt64 2, .ofInt64 1] 2) := by rfl
  have ho : (blockedProgram [.ofInt64 2, .ofInt64 1] 2).op? ⟨3⟩ = some
      { id := ⟨3⟩, kind := .ret (some [.ofInt64 2, .ofInt64 1]), operands := [⟨4⟩, ⟨4⟩]
        operandTypes := [.scalar .f64, .scalar .f64], results := [], parent := some ⟨1⟩ } := by
    decide
  obtain ⟨haccepted, _, hextents⟩ := unroll_accepted hload ho rfl
  exact ⟨ho, haccepted, hextents⟩

/-- With both components negative an unroll is accepted, and taking it off the extent of a
single cell widens this in both dimensions. -/
theorem unroll_accepted_negative :
    ∃ p o e, (blocked [.ofInt64 (-1), .ofInt64 (-1)] 1).elaborate = .ok p ∧
      p.op? ⟨3⟩ = some o ∧ o.kind = .ret (some [.ofInt64 (-1), .ofInt64 (-1)]) ∧
      ¬ (∀ c ∈ ([.ofInt64 (-1), .ofInt64 (-1)] : Point), 1 ≤ c.val) ∧
      (Extent.single [.ofInt64 0, .ofInt64 0]).unroll [.ofInt64 (-1), .ofInt64 (-1)] = .ok e ∧
      e.positive = [.ofInt64 2, .ofInt64 2] := by
  have ho : (blockedProgram [.ofInt64 (-1), .ofInt64 (-1)] 1).op? ⟨3⟩ = some
      { id := ⟨3⟩, kind := .ret (some [.ofInt64 (-1), .ofInt64 (-1)]), operands := [⟨4⟩]
        operandTypes := [.scalar .f64], results := [], parent := some ⟨1⟩ } := by
    decide
  exact ⟨blockedProgram [.ofInt64 (-1), .ofInt64 (-1)] 1, _, _, by rfl, ho, rfl, by decide, by rfl,
    by decide⟩

end Description
end StencilShapes
