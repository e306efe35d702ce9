import StencilShapes.Proofs.Domain.Visit

/-!
# Why an operation has no domain

A load or an apply that is not admissible is rejected.  Ends and sizes that leave
the range come first, then missing uses, then empty dimensions.  An end that leaves
the range is reported at the reader that demands it, everything else at the
operation itself.

**Results.**
* `Program.Verdict.not_admissible`: only what is not admissible is rejected.
* `Program.Visit.verdict`: a visit that stops reports the verdict.
-/

namespace StencilShapes
namespace Program

/-- Some reader demands an end out of range. -/
def Overflows (p : Program) (t : ExtentTable) (bounds : OpId → Option Bounds) (x : OpId) : Prop :=
  ∃ v u b, p.Reads x v u ∧ bounds u = some b ∧ ¬ Widens t u v b

/-- The demands span a size out of range. -/
def Oversized (p : Program) (t : ExtentTable) (bounds : OpId → Option Bounds) (x : OpId) : Prop :=
  ∃ d lo hi, IsLeast (p.lowerNeeds t bounds x d) lo ∧ IsGreatest (p.upperNeeds t bounds x d) hi ∧
    ¬ Coord.InRange (hi - lo)

/-- No result is read in a dimension. -/
def Unused (p : Program) (x : OpId) : Prop :=
  ¬ ∃ v u r, p.Reads x v u ∧ p.HasRank v r ∧ 0 < r

/-- The demands span a size less than one. -/
def Vacant (p : Program) (t : ExtentTable) (bounds : OpId → Option Bounds) (x : OpId) : Prop :=
  ∃ d lo hi, IsLeast (p.lowerNeeds t bounds x d) lo ∧ IsGreatest (p.upperNeeds t bounds x d) hi ∧
    hi - lo < 1

/-- The diagnostic that an operation without a domain deserves. -/
inductive Verdict (p : Program) (t : ExtentTable) (bounds : OpId → Option Bounds)
    (function : String) (x : OpId) (o : Operation) : Diagnostic → Prop
  | overflow {d : Diagnostic} {v : ValueId} {u : OpId} {b : Bounds} {ou : Operation} :
      p.Reads x v u →
      bounds u = some b →
      ¬ Widens t u v b →
      p.op? u = some ou →
      d.code = some .overflow →
      d.place = .ofOp function ou →
      d.related.map Related.place = [.ofOp function o] →
      Verdict p t bounds function x o d
  | oversized {d : Diagnostic} :
      ¬ p.Overflows t bounds x →
      p.Oversized t bounds x →
      d.code = some .overflow →
      d.place = .ofOp function o →
      Verdict p t bounds function x o d
  | unused {d : Diagnostic} :
      ¬ p.Overflows t bounds x →
      ¬ p.Oversized t bounds x →
      p.Unused x →
      d.code = some .unbounded →
      d.place = .ofOp function o →
      Verdict p t bounds function x o d
  | vacant {d : Diagnostic} :
      ¬ p.Overflows t bounds x →
      ¬ p.Oversized t bounds x →
      ¬ p.Unused x →
      p.Vacant t bounds x →
      d.code = some .emptyDimension →
      d.place = .ofOp function o →
      Verdict p t bounds function x o d

theorem Verdict.not_admissible {p : Program} {t : ExtentTable} {bounds : OpId → Option Bounds}
    {function : String} {x : OpId} {o : Operation} {d : Diagnostic}
    (h : p.Verdict t bounds function x o d) :
    ¬ p.Admissible t bounds x := by
  intro ha
  cases h with
  | overflow hr hb hout => exact hout (ha.widens _ _ _ hr hb)
  | oversized _ h =>
      rcases h with ⟨d, lo, hi, hlo, hhi, hout⟩
      exact hout (ha.sized d lo hi hlo hhi)
  | unused _ _ h => exact h ha.used
  | vacant _ _ _ h =>
      rcases h with ⟨d, lo, hi, hlo, hhi, hlt⟩
      exact absurd (ha.nonempty d lo hi hlo hhi) (by omega)

theorem placeOf_eq_of_frame {function : String} {o o' : Operation}
    (hid : o.id = o'.id)
    (hkind : o.kind.frame = o'.kind.frame) :
    Place.ofOp function o = Place.ofOp function o' := by
  rw [Place.ofOp, Place.ofOp, hid, OpKind.name_eq_of_frame hkind]

namespace Visit

variable {p q : Program} {t : ExtentTable} {f : Function} {x : OpId} {o : Operation} {r : Nat}

theorem not_overflows (h : Visit p q t f x o r)
    (hfits : ∀ use ∈ o.results.flatMap q.usesOf, q.Fits t r use) :
    ¬ p.Overflows t q.boundsOf x := by
  rintro ⟨v, u, b, hr, hb, hout⟩
  exact hout (h.widens_iff.1 hfits v u b hr hb)

/-- A visit that stops reports the verdict. -/
theorem verdict (h : Visit p q t f x o r) {o' : Operation} {fault : DomainFault}
    (ho' : q.op? x = some o')
    (herror : q.inferOp t f.name o' = .error fault) :
    p.Verdict t q.boundsOf f.name x o fault.diagnostic := by
  obtain ⟨hid, hkind, _, hresults⟩ := h.frame.op_eq h.op ho'
  have hplace : Place.ofOp f.name o' = Place.ofOp f.name o := placeOf_eq_of_frame hid hkind
  have hbounded : ∀ use ∈ o.results.flatMap q.usesOf, ∃ ou b v, q.Bounded t r use ou b v :=
    fun use huse => (h.bounded huse).imp fun _ => Exists.imp fun _ => Exists.imp fun _ => And.left
  rw [inferOp_eq_error, hresults, hplace] at herror
  rcases herror with hmeet | ⟨b, hmeet, hrest⟩
  · -- The first use whose demand leaves the range is blamed.
    obtain ⟨before, use, after, ou, b, v, base, extent, huses, _, hb, hout, rfl⟩ :=
      meetDemands_eq_error (Or.inl rfl) hbounded hmeet
    have huse : use ∈ o.results.flatMap q.usesOf := by
      rw [huses]
      exact List.mem_append_right _ List.mem_cons_self
    obtain ⟨ou₁, b₁, v₁, hb₁, hr, ou', hou', hid', hkind'⟩ := h.bounded huse
    obtain rfl : ou = ou₁ := Option.some.inj (hb.op.symm.trans hb₁.op)
    obtain rfl : b = b₁ := Option.some.inj (hb.bounds.symm.trans hb₁.bounds)
    obtain rfl : v = v₁ := Option.some.inj (hb.value.symm.trans hb₁.value)
    have hwidens : ¬ Widens t use.user v b := fun hw => hout fun d hd => by
      rw [hb.lowerNeed_eq, hb.upperNeed_eq]
      exact hw d (hb.ranked.rank_eq.symm ▸ hd)
    have hbu : q.boundsOf use.user = some b := by
      rw [boundsOf, hb.op]
      exact hb.bounds
    exact .overflow hr hbu hwidens hou' rfl (placeOf_eq_of_frame hid' hkind') rfl
  obtain ⟨hfits, hcases⟩ := meetDemands_eq_ok hbounded hmeet
  have hoverflows := h.not_overflows hfits
  rcases hrest with hshape | ⟨shape, commitFault, _, hcommit, _⟩
  · rcases hcases with ⟨hnil, rfl⟩ | ⟨hne, hspans⟩
    · -- Nothing reads a result, so there is no dimension.
      have hreads : ∀ v u, ¬ p.Reads x v u := fun v u hr => by
        obtain ⟨use, huse, _⟩ := exists_use_of_reads h.coherent h.op hr
        rw [← h.frame.uses, hnil] at huse
        cases huse
      rcases domainShape_eq_error (r := 0) ⟨rfl, rfl⟩ hshape with
        ⟨_, d, hd, _⟩ | ⟨_, ⟨_, rfl⟩ | ⟨hr, _⟩⟩
      · exact absurd hd (Nat.not_lt_zero d)
      · refine .unused hoverflows ?_ ?_ rfl rfl
        · rintro ⟨d, lo, hi, ⟨⟨v, u, _, hr, _⟩, _⟩, _⟩
          exact hreads v u hr
        · rintro ⟨v, u, _, hr, _⟩
          exact hreads v u hr
      · exact absurd hr (Nat.lt_irrefl 0)
    · have hneeds := h.spans_needs hspans
      have hsized : (∀ d < r, Coord.InRange (b.upper.coord d - b.lower.coord d)) →
          ¬ p.Oversized t q.boundsOf x := by
        rintro hin ⟨d, lo, hi, hlo, hhi, hout⟩
        have hd := h.lt_of_isLeast hlo
        rw [hlo.unique (hneeds.isLeast d hd), hhi.unique (hneeds.isGreatest d hd)] at hout
        exact hout (hin d hd)
      obtain ⟨use, huse⟩ := List.exists_mem_of_ne_nil _ hne
      obtain ⟨_, _, v, _, hreads, _⟩ := h.bounded huse
      obtain ⟨_, _, _, hv⟩ := h.ranked_of_reads hreads
      rcases domainShape_eq_error hspans.ranked hshape with
        ⟨rfl, d, hd, hout⟩ | ⟨hin, ⟨rfl, rfl⟩ | ⟨hr, ⟨d, hd, hlt⟩, shape, rfl⟩⟩
      · exact .oversized hoverflows
          ⟨d, _, _, hneeds.isLeast d hd, hneeds.isGreatest d hd, hout⟩ rfl rfl
      · refine .unused hoverflows (hsized hin) ?_ rfl rfl
        rintro ⟨w, u, s, hr, hw, hs⟩
        obtain ⟨_, _, _, hw'⟩ := h.ranked_of_reads hr
        rw [hw.unique hw'] at hs
        exact Nat.lt_irrefl 0 hs
      · refine .vacant hoverflows (hsized hin) (fun hun => hun ⟨v, use.user, r, hreads, hv, hr⟩)
          ⟨d, _, _, hneeds.isLeast d hd, hneeds.isGreatest d hd, hlt⟩ rfl rfl
  · -- Nothing is known of the operation yet, so it can be committed.
    have hk : o'.kind.isInferable = true :=
      (OpKind.isInferable_eq_of_frame hkind).trans h.inferable
    obtain ⟨q', hq'⟩ := exists_commit b ho' hk h.free
    rw [hid, h.coherent.op_id h.op, hq'] at hcommit
    cases hcommit

end Visit
end Program
end StencilShapes
