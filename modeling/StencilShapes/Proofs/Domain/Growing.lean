import StencilShapes.Proofs.Domain.Correspondence
import StencilShapes.Proofs.Domain.Meeting

/-!
# More requirements, larger domains

The operations of one program may have counterparts in another one that ask for at least as
much: stores that write more, and applies that read the same operands at further offsets.  An
operand that is read for the first time is none of this, since without an access it counts as
read at offset zero.  Where both programs have been inferred, the domain of an operation then
lies in that of its counterpart, from the last operations on up.

**Results.**
* `Program.Widened.extent_le`: further offsets widen an extent at both ends.
* `Program.Outgrown.reads_le`: counterparts read at extents that are at least as wide.
* `Program.covers_of_settled`: a domain is at least as large if those of all readers are.
* `Program.Outgrown.covers`: the domain of the counterpart covers that of the operation.
-/

namespace StencilShapes

/-- A box that spans demands covers one that spans demands which reach less far. -/
theorem Bounds.Spans.covers {b b' : Bounds} {r : Nat} {L U L' U' : Nat → Set Int}
    (h : b.Spans r L U) (h' : b'.Spans r L' U')
    (hlower : ∀ d < r, ∀ n ∈ L d, ∃ n' ∈ L' d, n' ≤ n)
    (hupper : ∀ d < r, ∀ n ∈ U d, ∃ n' ∈ U' d, n ≤ n') :
    b'.Covers b where
  lower_length := h.ranked.1.trans h'.ranked.1.symm
  upper_length := h.ranked.2.trans h'.ranked.2.symm
  lower d hd := by
    rw [h'.ranked.1] at hd
    obtain ⟨n', hn', hle⟩ := hlower d hd _ (h.isLeast d hd).1
    exact ((h'.isLeast d hd).2 hn').trans hle
  upper d hd := by
    rw [h'.ranked.2] at hd
    obtain ⟨n', hn', hle⟩ := hupper d hd _ (h.isGreatest d hd).1
    exact hle.trans ((h'.isGreatest d hd).2 hn')

namespace Program

/-- The operation `o'` asks for at least as much as `o`, of values that correspond. -/
structure Widened (p p' : Program) (V : ValueId → ValueId → Prop) (o o' : Operation) : Prop where
  isShaped : o.kind.isShaped = o'.kind.isShaped
  isInferable : o.kind.isInferable = o'.kind.isInferable
  bounds : ∀ b b', o.kind.bounds? = some b → o'.kind.bounds? = some b' → b'.Covers b
  operands : List.Forall₂ V o.operands o'.operands
  results : List.Forall₂ V o.results o'.results
  offsets : ∀ {v v'}, V v v' → p.offsetsAt o v ⊆ p'.offsetsAt o' v'
  /-- No operand is read for the first time. -/
  seeded : ∀ {v v'}, V v v' → (p'.offsetsAt o' v').Nonempty → (p.offsetsAt o v).Nonempty
  unroll : (p.unroll? o).map Prod.snd = (p'.unroll? o').map Prod.snd

/-- Operations `R` and values `V` of the first program have counterparts in the second one that
ask for at least as much. -/
structure Outgrown (p p' : Program) (R : OpId → OpId → Prop) (V : ValueId → ValueId → Prop) :
    Prop where
  widened : ∀ {u u'}, R u u' →
    ∃ o o', p.op? u = some o ∧ p'.op? u' = some o' ∧ p.Widened p' V o o'
  value : ∀ {v w w'}, V v w → V v w' → w = w'
  /-- What reads a result of an operation has a counterpart if that has one. -/
  readers : ∀ {x x' v u}, R x x' → p.Reads x v u → ∃ u', R u u'
  stencil : ∀ {x x'}, R x x' → InStencil p.functions.toList x → InStencil p'.functions.toList x'

section Extents

variable {p p' : Program} {R : OpId → OpId → Prop} {V : ValueId → ValueId → Prop}
  {o o' : Operation} {u u' : OpId} {v v' : ValueId} {e e' : Extent} {t t' : ExtentTable}

/-- Further offsets widen an extent at both ends. -/
theorem Widened.extent_le
    (h : p.Widened p' V o o')
    (hv : V v v')
    (hread : (p.offsetsAt o v).Nonempty)
    (he : p.IsExtent o v e) (he' : p'.IsExtent o' v' e') (d : Nat) :
    e'.negative.coord d ≤ e.negative.coord d ∧ e.positive.coord d ≤ e'.positive.coord d := by
  obtain ⟨offset, hoffset⟩ := hread
  have hlength : e'.negative.length = e.negative.length :=
    (he'.rank offset (h.offsets hv hoffset)).symm.trans (he.rank offset hoffset)
  by_cases hd : d < e.negative.length
  · have hsubset := Set.image_mono (f := (Point.coord · d)) (h.offsets hv)
    refine ⟨(he'.negative d (hlength ▸ hd)).2 (hsubset (he.negative d hd).1), ?_⟩
    obtain ⟨m, hm, hpositive⟩ := he.positive d hd
    obtain ⟨m', hm', hpositive'⟩ := he'.positive d (hlength ▸ hd)
    have hstride : p.strideOf o d = p'.strideOf o' d := by
      rw [strideOf_eq_elim, strideOf_eq_elim, h.unroll]
    have hle : m ≤ m' := hm'.2 (hsubset hm.1)
    omega
  · have hzero : ∀ {q : Point}, q.length = e.negative.length → q.coord d = 0 := fun hq =>
      Point.coord_of_le (hq ▸ Nat.not_lt.1 hd)
    rw [hzero hlength, hzero rfl, hzero he.positive_length,
      hzero (he'.positive_length.trans hlength)]
    exact ⟨le_rfl, le_rfl⟩

/-- An extent is known where a body of a stencil program reads the operand. -/
theorem ExtentsExact.find?_eq_none_iff
    (hexact : p.ExtentsExact) (ht : p.extents = .ok t)
    (ho : p.op? u = some o) (hin : InStencil p.functions.toList u) :
    t.find? u v = none ↔ ¬ (p.offsetsAt o v).Nonempty := by
  rw [← Option.not_isSome_iff_eq_none, hexact.isSome_iff t ht u v]
  refine not_congr ⟨?_, fun hread => ?_⟩
  · rintro ⟨_, _, _, _, o₁, ho₁, hread⟩
    rwa [Option.some.inj (ho.symm.trans ho₁)]
  · obtain ⟨f, hf, hstencil, hmem⟩ := hin
    exact ⟨f, hf, hstencil, hmem, o, ho, hread⟩

/-- Counterparts read at extents that are at least as wide. -/
theorem Outgrown.reads_le
    (h : p.Outgrown p' R V)
    (hexact : p.ExtentsExact) (hexact' : p'.ExtentsExact)
    (ht : p.extents = .ok t) (ht' : p'.extents = .ok t')
    (hu : R u u') (hv : V v v')
    (hin : InStencil p.functions.toList u) (d : Nat) :
    t'.negativeAt u' v' d ≤ t.negativeAt u v d ∧ t.positiveAt u v d ≤ t'.positiveAt u' v' d := by
  obtain ⟨o, o', ho, ho', hwidened⟩ := h.widened hu
  have hnone := hexact.find?_eq_none_iff (v := v) ht ho hin
  have hnone' := hexact'.find?_eq_none_iff (v := v') ht' ho' (h.stencil hu hin)
  rw [ExtentTable.negativeAt, ExtentTable.negativeAt, ExtentTable.positiveAt,
    ExtentTable.positiveAt]
  cases he : t.find? u v with
  | none =>
      rw [hnone'.2 fun hread' => hnone.1 he (hwidened.seeded hv hread')]
      exact ⟨le_rfl, le_rfl⟩
  | some e =>
      have hread : (p.offsetsAt o v).Nonempty := by
        by_contra hread
        rw [hnone.2 hread] at he
        cases he
      cases he' : t'.find? u' v' with
      | none => exact absurd (hread.mono (hwidened.offsets hv)) (hnone'.1 he')
      | some e' =>
          obtain ⟨o₁, ho₁, hextent⟩ := hexact.isExtent t ht u v e he
          obtain rfl := Option.some.inj (ho.symm.trans ho₁)
          obtain ⟨o₁', ho₁', hextent'⟩ := hexact'.isExtent t' ht' u' v' e' he'
          obtain rfl := Option.some.inj (ho'.symm.trans ho₁')
          exact hwidened.extent_le hv hread hextent hextent' d

end Extents

section Domains

variable {p p' q q' : Program} {R : OpId → OpId → Prop} {V : ValueId → ValueId → Prop}
  {t t' : ExtentTable} {x x' u : OpId} {v : ValueId} {b b' : Bounds}

/-- What reads a result has a counterpart that reads the counterpart of the result. -/
theorem Outgrown.reads (h : p.Outgrown p' R V) (hx : R x x') (hread : p.Reads x v u) :
    ∃ u' v', R u u' ∧ V v v' ∧ p'.Reads x' v' u' := by
  obtain ⟨u', hu⟩ := h.readers hx hread
  obtain ⟨ox, ox', hox, hox', hwidened⟩ := h.widened hx
  obtain ⟨ou, ou', hou, hou', hwidened'⟩ := h.widened hu
  obtain ⟨v', hv, hread'⟩ := hread.counterpart hox hox' hou hou' hwidened.results
    hwidened'.operands hwidened'.isShaped h.value
  exact ⟨u', v', hu, hv, hread'⟩

/-- A domain covers another one if each reader of the one operation has a counterpart among the
readers of the other, which reads at a wider extent and has a domain that covers its own. -/
theorem covers_of_settled
    (hstage : p.Stage t q) (hstage' : p'.Stage t' q')
    (hsettled : p.Settled t q.boundsOf x)
    (hsettled' : p'.Settled t' q'.boundsOf x')
    (hb : q.boundsOf x = some b) (hb' : q'.boundsOf x' = some b')
    (hreader : ∀ {v u c}, p.Reads x v u → q.boundsOf u = some c →
      ∃ v' u' c', p'.Reads x' v' u' ∧ q'.boundsOf u' = some c' ∧ c'.Covers c ∧
        ∀ d, t'.negativeAt u' v' d ≤ t.negativeAt u v d ∧
          t.positiveAt u v d ≤ t'.positiveAt u' v' d) :
    b'.Covers b := by
  obtain ⟨o, b₁, r, ho, hr, hb₁, hspans⟩ := hsettled.spans
  obtain rfl := Option.some.inj (hb.symm.trans hb₁)
  obtain ⟨o', b₁, r', ho', hr', hb₁', hspans'⟩ := hsettled'.spans
  obtain rfl := Option.some.inj (hb'.symm.trans hb₁')
  -- Some reader there is, and it gives both operations one rank.
  obtain ⟨v, u, _, hread, _⟩ := hsettled.admissible.used
  obtain ⟨c, hc⟩ := hsettled.readers v u hread
  obtain ⟨v', u', c', hread', hc', hcovers, _⟩ := hreader hread hc
  obtain rfl : r = r' :=
    (hstage.rank_eq ho hr hread hc).trans
      (hcovers.rank_eq.trans (hstage'.rank_eq ho' hr' hread' hc').symm)
  refine hspans.covers hspans' ?_ ?_
  · rintro d - n ⟨v, u, c, hread, hc, hd, rfl⟩
    obtain ⟨v', u', c', hread', hc', hcovers, hle⟩ := hreader hread hc
    have hd' : d < c'.rank := hcovers.rank_eq ▸ hd
    refine ⟨_, ⟨v', u', c', hread', hc', hd', rfl⟩, ?_⟩
    exact Int.add_le_add (hcovers.lower d hd') (hle d).1
  · rintro d - n ⟨v, u, c, hread, hc, hd, rfl⟩
    obtain ⟨v', u', c', hread', hc', hcovers, hle⟩ := hreader hread hc
    have hd' : d < c'.rank := hcovers.rank_eq ▸ hd
    obtain ⟨s, _, hranked⟩ := hstage'.ranked hread' hc'
    refine ⟨_, ⟨v', u', c', hread', hc', hd', rfl⟩, ?_⟩
    rw [hranked.rank_eq, ← hranked.2] at hd'
    exact Int.add_le_add (hcovers.upper d hd') (hle d).2

/-- The domain of the counterpart covers that of the operation. -/
theorem Outgrown.covers
    (h : p.Outgrown p' R V)
    (hle : ∀ {u u' v v'}, R u u' → V v v' → InStencil p.functions.toList u → ∀ d,
      t'.negativeAt u' v' d ≤ t.negativeAt u v d ∧
        t.positiveAt u v d ≤ t'.positiveAt u' v' d)
    (hstage : p.Stage t q) (hstage' : p'.Stage t' q')
    (hx : R x x')
    (hin : InStencil p.functions.toList x)
    (hb : q.boundsOf x = some b) (hb' : q'.boundsOf x' = some b') :
    b'.Covers b := by
  -- What reads a result stands behind it, so fewer operations are left there.
  induction hn : p.ops.size - x.index using Nat.strong_induction_on
    generalizing x x' b b' with
  | _ n ih =>
      obtain ⟨o, o', ho, ho', hwidened⟩ := h.widened hx
      have hinferable := hwidened.isInferable
      cases hk : o.kind.isInferable with
      | false =>
          rw [hstage.boundsOf_eq ho hk] at hb
          rw [hstage'.boundsOf_eq ho' (hinferable ▸ hk)] at hb'
          exact hwidened.bounds b b' hb hb'
      | true =>
          have hsettled' := hstage'.settled ho' (hinferable ▸ hk) hb'
          refine covers_of_settled hstage hstage' (hstage.settled ho hk hb) hsettled' hb hb' ?_
          intro v u c hread hc
          obtain ⟨u', v', hu, hv, hread'⟩ := h.reads hx hread
          obtain ⟨c', hc'⟩ := hsettled'.readers v' u' hread'
          obtain ⟨f, hf, hstencil, hmem⟩ := hin
          obtain ⟨hmem', hlt⟩ := mem_body_of_reads hstage.coherent hstage.inScope hf hmem hread
          obtain ⟨_, ou, _, _, hou, _⟩ := hread
          have hsize := op?_lt hou
          have hin' : InStencil p.functions.toList u := ⟨f, hf, hstencil, hmem'⟩
          exact ⟨v', u', c', hread', hc', ih _ (by omega) hu hin' hc hc' rfl, hle hu hv hin'⟩

end Domains
end Program
end StencilShapes
