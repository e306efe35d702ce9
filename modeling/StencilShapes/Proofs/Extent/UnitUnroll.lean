import StencilShapes.Proofs.Extent.UnrollOrder
import StencilShapes.Proofs.Program.UnitUnroll

/-!
# Taking off the unroll by one

The unroll by one is taken off an extent in two steps: first the one is taken off the positive
end, then it is given back.  The first step leaves the range where the positive end is the
least coordinate that there is, and nowhere else.  So the extents of an apply are the same with
the unroll by one as without any, unless all accesses to an operand stand at that edge in some
dimension.

**Results.**
* `Extent.unroll_ones`: the unroll by one is taken off an extent.
* `Program.applyExtents_withUnit`: the extents of an apply that returns with it.
* `Program.unrollOverflows_of_least`: an apply that has no extents because of it.
-/

namespace StencilShapes

/-- The least integer that is a coordinate. -/
def Coord.least : Int := -9223372036854775808

theorem Point.coord_ones {n d : Nat} (h : d < n) : (Point.ones n).coord d = 1 := by
  rw [coord, ones, List.getElem?_replicate, if_pos h]
  rfl

/-- Away from the edge of the range the unroll by one takes nothing off. -/
theorem Extent.unroll_ones {e : Extent} {n : Nat}
    (hlength : e.positive.length = n)
    (hinside : ∀ d < n, e.positive.coord d ≠ Coord.least) :
    e.unroll (.ones n) = .ok e := by
  have hones : (Point.ones n).length = n := List.length_replicate
  cases h : e.unroll (.ones n) with
  | error fault =>
      rcases unroll_eq_error.1 h with ⟨hne, _⟩ | ⟨_, _, d, hd, hout⟩
      · exact absurd (hlength.trans hones.symm) hne
      · have hrange := Point.inRange_coord e.positive d
        have hne := hinside d (hlength ▸ hd)
        rw [Point.coord_ones (hlength ▸ hd)] at hout
        simp only [Coord.InRange, Coord.least] at hrange hout hne
        omega
  | ok e' =>
      obtain ⟨hnegative, hshrink⟩ := unroll_eq_ok.1 h
      obtain ⟨_, hlength', hcoord⟩ := Point.coord_of_shrink hshrink
      have hpositive : e'.positive = e.positive := by
        refine Point.ext_coord hlength' fun d hd => ?_
        rw [hlength'] at hd
        rw [hcoord d hd, Point.coord_ones (hlength ▸ hd)]
        omega
      rcases e with ⟨negative, positive⟩
      rcases e' with ⟨negative', positive'⟩
      obtain rfl : negative' = negative := hnegative
      obtain rfl : positive' = positive := hpositive
      rfl

/-- A table whose entries stay the same stays the same. -/
theorem Table.change_eq_self {α ε : Type} {t : Table α} {f : α → Except ε α}
    (h : ∀ k a, t.find? k = some a → f a = .ok a) :
    t.change f = .ok t := by
  cases hchange : t.change f with
  | error fault =>
      obtain ⟨k, a, ha, hfault⟩ := change_eq_error hchange
      rw [h k a ha] at hfault
      cases hfault
  | ok t' =>
      refine congrArg Except.ok (ext_find? fun k => ?_)
      rcases find?_change hchange k with ⟨hnone, hnone'⟩ | ⟨a, b, ha, hb, hb'⟩
      · rw [hnone, hnone']
      · rw [h k a ha] at hb
        cases hb
        rw [ha, hb']

namespace Program

section Views

variable (x : OpId) (n : Nat) (p : Program) (o : Operation)

theorem access?_withUnit (body : Block) (operands : List ValueId) :
    access? body operands (o.withUnit n) = access? body operands o := by
  rcases o with ⟨id, kind, _, _, _, _⟩
  rcases kind with _ | _ | _ | _ | ⟨_ | _⟩ | _ <;> rfl

theorem accesses_withUnit : (p.withUnit x n).accesses o = p.accesses o := by
  rw [accesses, accesses]
  cases o.kind.body? with
  | none => rfl
  | some body =>
      simp only [opsAt, List.filterMap_filterMap]
      refine List.filterMap_congr fun u _ => ?_
      cases ho : p.op? u with
      | none => rw [op?_withUnit_of_none x n p ho]
      | some ox =>
          rcases op?_withUnit_of_some x n p ho with hu | hu
          · rw [hu]
          · rw [hu]
            exact access?_withUnit n ox body o.operands

/-- An apply has the unroll that it had, or it had none and has the unroll by one. -/
theorem unroll?_withUnit_cases :
    (p.withUnit x n).unroll? o = p.unroll? o ∨
      p.unroll? o = none ∧ ∃ ret, (p.withUnit x n).unroll? o = some (ret, .ones n) := by
  rcases terminator?_withUnit_cases x n p o with hlast | hlast
  · exact .inl (by rw [unroll?, unroll?, hlast])
  · rw [unroll?, unroll?, hlast]
    rcases p.terminator? o with _ | ⟨id, kind, _, _, _, _⟩
    · exact .inl rfl
    · rcases kind with _ | _ | _ | _ | ⟨_ | _⟩ | _
      case ret.none => exact .inr ⟨rfl, id, rfl⟩
      all_goals exact .inl rfl

end Views

section Applies

variable {x : OpId} {n : Nat} {p : Program} {u : OpId} {o : Operation}

/-- The extents of an apply that returns with the unroll by one, if each operand that it reads
is read beyond the least coordinate in each dimension. -/
theorem applyExtents_withUnit {r : Nat}
    (hc : (p.withUnit x n).Coherent)
    (ho : (p.withUnit x n).op? u = some o)
    (hr : (p.withUnit x n).OpRank o r)
    (hinside : (p.withUnit x n).unroll? o ≠ p.unroll? o → ∀ v d,
      ((p.withUnit x n).offsetsAt o v).Nonempty →
      ∃ offset ∈ (p.withUnit x n).offsetsAt o v, offset.coord d ≠ Coord.least) :
    (p.withUnit x n).applyExtents o = p.applyExtents o := by
  rcases unroll?_withUnit_cases x n p o with heq | ⟨hnone, ret, hunroll⟩
  · rw [applyExtents, applyExtents, accesses_withUnit, heq]
  have hbeyond := hinside (by rw [hnone, hunroll]; exact Option.some_ne_none _)
  obtain ⟨extents, hfold⟩ := exists_foldAccesses hc ho hr
  have hkept : extents.change (·.unroll (.ones n)) = .ok extents := by
    refine Table.change_eq_self fun k e he => ?_
    have hspans := spans_of_records (v := ⟨k⟩) hc ho (records_of_foldAccesses hfold) he
    obtain ⟨first, hfirst⟩ := hspans.nonempty
    have hrank : e.negative.length = n := by
      rw [← hspans.rank first hfirst, hr.length_of_offsetsAt hfirst, ← hr.length_of_unroll hunroll]
      exact List.length_replicate
    refine Extent.unroll_ones (hspans.positive_length.trans hrank) fun d hd hleast => ?_
    obtain ⟨offset, hoffset, hne⟩ := hbeyond ⟨k⟩ d ⟨first, hfirst⟩
    have hle : offset.coord d ≤ e.positive.coord d :=
      (hspans.isGreatest d (hrank.symm ▸ hd)).2 (Set.mem_image_of_mem _ hoffset)
    exact hne (le_antisymm (hle.trans hleast.le) (Point.inRange_coord offset d).1)
  rw [accesses_withUnit] at hfold
  simp only [applyExtents, accesses_withUnit, hfold, hnone, hunroll]
  rw [hkept]

/-- The unroll by one overflows if all accesses to some operand have the least coordinate in
some dimension. -/
theorem unrollOverflows_of_least {r d : Nat} {v : ValueId} {ret : OpId}
    (hr : p.OpRank o r)
    (hunroll : p.unroll? o = some (ret, .ones n))
    (hread : (p.offsetsAt o v).Nonempty)
    (hleast : ∀ offset ∈ p.offsetsAt o v, offset.coord d = Coord.least) :
    p.UnrollOverflows o := by
  obtain ⟨first, hfirst⟩ := hread
  -- A dimension in which a coordinate is not zero is one of those that the unroll has.
  have hd : d < (Point.ones n).length := by
    rw [hr.length_of_unroll hunroll, ← hr.length_of_offsetsAt hfirst]
    by_contra hge
    have hzero := Point.coord_of_le (Nat.not_lt.1 hge)
    rw [hleast first hfirst] at hzero
    cases hzero
  have hgreatest : IsGreatest ((Point.coord · d) '' p.offsetsAt o v) Coord.least := by
    refine ⟨⟨first, hfirst, hleast first hfirst⟩, ?_⟩
    rintro _ ⟨offset, hoffset, rfl⟩
    exact (hleast offset hoffset).le
  refine ⟨v, ret, _, d, _, hunroll, hd, hgreatest, .inl ?_⟩
  rw [Point.coord_ones (List.length_replicate (n := n) ▸ hd)]
  decide

/-- The analysis visits operations as before, if it finds the same extents. -/
theorem foldEntries_congr {q : Program} {es : List (Function × OpId)}
    (h : ∀ f u, (f, u) ∈ es → q.op? u = p.op? u ∧
      ∀ o, p.op? u = some o → q.applyExtents o = p.applyExtents o) :
    ∀ t : ExtentTable, q.foldEntries t es = p.foldEntries t es := by
  induction es with
  | nil => exact fun _ => rfl
  | cons e es ih =>
      rcases e with ⟨f, u⟩
      have hrest := ih fun g w hw => h g w (List.mem_cons_of_mem _ hw)
      obtain ⟨hop, hextents⟩ := h f u List.mem_cons_self
      intro t
      rw [foldEntries, foldEntries, hop]
      cases ho : p.op? u with
      | none => exact hrest t
      | some o =>
          simp only [hextents o ho, hrest]

end Applies
end Program
end StencilShapes
