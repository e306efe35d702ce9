import StencilShapes.Proofs.Domain.Run
import StencilShapes.Proofs.Extent.Exact

/-!
# Programs that mirror each other

Two programs may have the same operations under other identifiers and in another order, with
operands and results that correspond.  Of the extents of an apply nothing then changes, since
they depend on the offsets at which its body reads an operand and on the unroll of the body,
and on no order.

**Results.**
* `Program.IsExtent.unique`: an operand that is read has one extent.
* `Program.Mirrors.extents_error`, `Program.Corresponds.extents_iff`: extents are found for
  both programs or for neither.
* `Program.Corresponds.find?_eq`: where they are found they are equal.
-/

namespace StencilShapes
namespace Program

/-- The types of what the operations of a body define. -/
def innerTypes (p : Program) (o : Operation) : List (List Ty) :=
  (p.opsAt (o.kind.body?.elim [] Block.ops)).map fun ox => ox.results.map p.typeOf

/-- Bodies whose operations define values of the same types, one by one. -/
theorem innerTypes_eq_of_forall₂ {p p' : Program} {o o' : Operation} {block block' : Block}
    (hblock : o.kind.body? = some block) (hblock' : o'.kind.body? = some block')
    (h : List.Forall₂ (fun x x' => ∃ ox ox', p.op? x = some ox ∧ p'.op? x' = some ox' ∧
      ox.results.map p.typeOf = ox'.results.map p'.typeOf) block.ops block'.ops) :
    p.innerTypes o = p'.innerTypes o' := by
  rw [innerTypes, innerTypes, hblock, hblock', Option.elim_some, Option.elim_some]
  generalize block.ops = xs at h ⊢
  generalize block'.ops = xs' at h ⊢
  induction h with
  | nil => rfl
  | cons hx _ ih =>
      obtain ⟨ox, ox', hox, hox', htypes⟩ := hx
      rw [opsAt, opsAt, List.filterMap_cons, List.filterMap_cons, hox, hox']
      exact congrArg₂ List.cons htypes ih

/-- Operations of two programs that do the same, where values correspond. -/
structure Twins (p p' : Program) (V : ValueId → ValueId → Prop) (o o' : Operation) : Prop where
  head : o.kind.head = o'.kind.head
  operands : List.Forall₂ V o.operands o'.operands
  results : List.Forall₂ V o.results o'.results
  /-- The bodies read corresponding operands at the same offsets. -/
  offsets : ∀ {v v'}, V v v' → p.offsetsAt o v = p'.offsetsAt o' v'
  unroll : (p.unroll? o).map Prod.snd = (p'.unroll? o').map Prod.snd
  inner : p.innerTypes o = p'.innerTypes o'

/-- Operations `R` and values `V` of the first program have counterparts in the second one,
among them all operations of stencil programs. -/
structure Mirrors (p p' : Program) (R : OpId → OpId → Prop) (V : ValueId → ValueId → Prop) :
    Prop where
  twins : ∀ {u u'}, R u u' → ∃ o o', p.op? u = some o ∧ p'.op? u' = some o' ∧ p.Twins p' V o o'
  value : ∀ {v w w'}, V v w → V v w' → w = w'
  types : ∀ {v w}, V v w → p.typeOf v = p'.typeOf w
  /-- What reads a result of an operation has a counterpart if that has one. -/
  readers : ∀ {x x' v u}, R x x' → p.Reads x v u → ∃ u', R u u'
  stencil : ∀ {x x'}, R x x' → InStencil p.functions.toList x → InStencil p'.functions.toList x'
  total : ∀ {x}, InStencil p.functions.toList x → ∃ x', R x x'

/-- Two programs mirror each other. -/
structure Corresponds (p p' : Program) (R : OpId → OpId → Prop)
    (V : ValueId → ValueId → Prop) : Prop where
  forth : p.Mirrors p' R V
  back : p'.Mirrors p (flip R) (flip V)

section Extents

variable {p p' : Program} {R : OpId → OpId → Prop} {V : ValueId → ValueId → Prop}
  {o o' : Operation} {u u' : OpId} {v v' : ValueId} {e e' : Extent}

/-- Extent analysis finds the extents of all applies, or else one that has none. -/
theorem Coherent.extentsExact (hc : p.Coherent) (hf : p.Fresh) : p.ExtentsExact := by
  have hrun := foldEntries_spec hc p.stencilEntries Tabulates.empty
  rw [stencilEntries, ← foldFunctions_eq_foldEntries hf] at hrun
  rcases hrun with ⟨t, ht, htab⟩ | ⟨before, f, u, after, o, fault, t, hsplit, ho, hfault, htab, ht⟩
  · exact exact_of_tabulates hc ht htab
  · exact exact_of_error hc ht hsplit ho hfault htab

/-- An operand that is read has one extent. -/
theorem IsExtent.unique
    (h : p.IsExtent o v e) (h' : p.IsExtent o v e')
    (hread : (p.offsetsAt o v).Nonempty) :
    e = e' := by
  obtain ⟨offset, hoffset⟩ := hread
  have hlength : e.negative.length = e'.negative.length :=
    (h.rank offset hoffset).symm.trans (h'.rank offset hoffset)
  have hnegative : e.negative = e'.negative := Point.ext_coord hlength fun d hd =>
    (h.negative d hd).unique (h'.negative d (hlength ▸ hd))
  have hpositive : e.positive = e'.positive := by
    refine Point.ext_coord ?_ fun d hd => ?_
    · rw [h.positive_length, h'.positive_length, hlength]
    · rw [h.positive_length] at hd
      obtain ⟨m, hm, hcoord⟩ := h.positive d hd
      obtain ⟨m', hm', hcoord'⟩ := h'.positive d (hlength ▸ hd)
      rw [hcoord, hcoord', hm.unique hm']
  cases e
  cases e'
  cases hnegative
  cases hpositive
  rfl

/-- The stride is that of the unroll, whichever return carries it. -/
theorem strideOf_eq_elim (p : Program) (o : Operation) (d : Nat) :
    p.strideOf o d = ((p.unroll? o).map Prod.snd).elim 1 fun block => block.coord d := by
  rw [strideOf]
  cases p.unroll? o <;> rfl

namespace Twins

theorem isShaped_eq (h : p.Twins p' V o o') : o.kind.isShaped = o'.kind.isShaped := by
  rw [← OpKind.isShaped_head, h.head, OpKind.isShaped_head]

theorem isInferable_eq (h : p.Twins p' V o o') : o.kind.isInferable = o'.kind.isInferable := by
  rw [← OpKind.isInferable_head, h.head, OpKind.isInferable_head]

theorem bounds?_eq (h : p.Twins p' V o o') : o.kind.bounds? = o'.kind.bounds? := by
  rw [← OpKind.bounds?_head, h.head, OpKind.bounds?_head]

theorem strideOf_eq (h : p.Twins p' V o o') (d : Nat) : p.strideOf o d = p'.strideOf o' d := by
  rw [strideOf_eq_elim, strideOf_eq_elim, h.unroll]

/-- The unroll of a body, with some return that carries it. -/
theorem exists_unroll {ret : OpId} {block : Point}
    (h : p.Twins p' V o o')
    (hunroll : p.unroll? o = some (ret, block)) :
    ∃ ret', p'.unroll? o' = some (ret', block) := by
  have hmap := h.unroll
  rw [hunroll] at hmap
  obtain ⟨⟨ret', block'⟩, hunroll', rfl⟩ := Option.map_eq_some_iff.1 hmap.symm
  exact ⟨ret', hunroll'⟩

theorem symm (h : p.Twins p' V o o') : p'.Twins p (flip V) o' o :=
  ⟨h.head.symm, h.operands.flip, h.results.flip, fun hv => (h.offsets hv).symm, h.unroll.symm,
    h.inner.symm⟩

theorem isExtent
    (h : p.Twins p' V o o')
    (hv : V v v')
    (he : p.IsExtent o v e) :
    p'.IsExtent o' v' e := by
  refine ⟨?_, he.positive_length, fun ret block hunroll => ?_, ?_, fun d hd => ?_⟩
  · rw [← h.offsets hv]
    exact he.rank
  · obtain ⟨ret', hunroll'⟩ := h.symm.exists_unroll hunroll
    exact he.unroll_length ret' block hunroll'
  · rw [← h.offsets hv]
    exact he.negative
  · rw [← h.offsets hv, ← h.strideOf_eq]
    exact he.positive d hd

/-- What is read at an offset is an operand, so it has a counterpart. -/
theorem exists_value (h : p.Twins p' V o o') (hread : (p.offsetsAt o v).Nonempty) :
    ∃ v', V v v' := by
  obtain ⟨_, _, _, _, _, i, _, _, _, _, _, _, hi⟩ := hread
  obtain ⟨v', _, hv⟩ := exists_getElem?_of_forall₂ h.operands hi
  exact ⟨v', hv⟩

/-- A body that cannot be measured has a counterpart that cannot be measured. -/
theorem unmeasurable (h : p.Twins p' V o o') (hnone : p.Unmeasurable o) :
    p'.Unmeasurable o' := by
  rcases hnone with ⟨v, a, ha, hclash⟩ | ⟨v, ret, block, hunroll, a, ha, hne⟩ |
    ⟨v, ret, block, d, m, hunroll, hd, hm, hout⟩
  · obtain ⟨v', hv⟩ := h.exists_value ⟨a, ha⟩
    rw [h.offsets hv] at ha hclash
    exact .inl ⟨v', a, ha, hclash⟩
  · obtain ⟨v', hv⟩ := h.exists_value ⟨a, ha⟩
    obtain ⟨ret', hunroll'⟩ := h.exists_unroll hunroll
    rw [h.offsets hv] at ha
    exact .inr (.inl ⟨v', ret', block, hunroll', a, ha, hne⟩)
  · obtain ⟨a, ha, _⟩ := hm.1
    obtain ⟨v', hv⟩ := h.exists_value ⟨a, ha⟩
    obtain ⟨ret', hunroll'⟩ := h.exists_unroll hunroll
    rw [h.offsets hv] at hm
    exact .inr (.inr ⟨v', ret', block, d, m, hunroll', hd, hm, hout⟩)

end Twins

variable {t t' : ExtentTable}

namespace Mirrors

/-- An extent is found for the counterpart of an operand, and it is the same one. -/
theorem find?_eq_some
    (h : p.Mirrors p' R V)
    (hexact : p.ExtentsExact) (hexact' : p'.ExtentsExact)
    (ht : p.extents = .ok t) (ht' : p'.extents = .ok t')
    (hu : R u u') (hv : V v v')
    (he : t.find? u v = some e) :
    t'.find? u' v' = some e := by
  obtain ⟨o, o', ho, ho', htwins⟩ := h.twins hu
  obtain ⟨f, hf, hstencil, hmem, o₁, ho₁, hread⟩ :=
    (hexact.isSome_iff t ht u v).1 (by rw [he]; rfl)
  obtain rfl := Option.some.inj (ho.symm.trans ho₁)
  obtain ⟨o₂, ho₂, hextent⟩ := hexact.isExtent t ht u v e he
  obtain rfl := Option.some.inj (ho.symm.trans ho₂)
  obtain ⟨g, hg, hstencil', hmem'⟩ := h.stencil hu ⟨f, hf, hstencil, hmem⟩
  rw [htwins.offsets hv] at hread
  obtain ⟨e', he'⟩ := Option.isSome_iff_exists.1
    ((hexact'.isSome_iff t' ht' u' v').2 ⟨g, hg, hstencil', hmem', o', ho', hread⟩)
  obtain ⟨o₃, ho₃, hextent'⟩ := hexact'.isExtent t' ht' u' v' e' he'
  obtain rfl := Option.some.inj (ho'.symm.trans ho₃)
  rw [he', (htwins.isExtent hv hextent).unique hextent' hread]

/-- Extents that cannot be found in one program cannot be found in the other. -/
theorem extents_error
    (h : p.Mirrors p' R V)
    (hexact : p.ExtentsExact) (hexact' : p'.ExtentsExact)
    (herror : ∃ d, p.extents = .error d) :
    ∃ d, p'.extents = .error d := by
  obtain ⟨f, u, o, hmem, ho, hnone⟩ := hexact.fails_iff.1 herror
  obtain ⟨hf, hstencil, hu⟩ := mem_entriesOf.1 hmem
  obtain ⟨u', huu⟩ := h.total ⟨f, hf, hstencil, hu⟩
  obtain ⟨g, hg, hstencil', hu'⟩ := h.stencil huu ⟨f, hf, hstencil, hu⟩
  obtain ⟨o₁, o', ho₁, ho', htwins⟩ := h.twins huu
  obtain rfl := Option.some.inj (ho.symm.trans ho₁)
  exact hexact'.fails_iff.2
    ⟨g, u', o', mem_entriesOf.2 ⟨hg, hstencil', hu'⟩, ho', htwins.unmeasurable hnone⟩

end Mirrors

namespace Corresponds

/-- Corresponding operands are read at the same extents. -/
theorem find?_eq
    (h : p.Corresponds p' R V)
    (hexact : p.ExtentsExact) (hexact' : p'.ExtentsExact)
    (ht : p.extents = .ok t) (ht' : p'.extents = .ok t')
    (hu : R u u') (hv : V v v') :
    t.find? u v = t'.find? u' v' :=
  Option.ext fun _ => ⟨h.forth.find?_eq_some hexact hexact' ht ht' hu hv,
    h.back.find?_eq_some hexact' hexact ht' ht hu hv⟩

/-- Extents are found for both programs or for neither. -/
theorem extents_iff
    (h : p.Corresponds p' R V)
    (hexact : p.ExtentsExact) (hexact' : p'.ExtentsExact) :
    p.extents.toOption.isSome ↔ p'.extents.toOption.isSome := by
  have hfound : ∀ {p : Program}, p.extents.toOption.isSome ↔ ¬ ∃ d, p.extents = .error d := by
    intro p
    cases p.extents <;> simp [Except.toOption]
  rw [hfound, hfound]
  exact not_congr ⟨h.forth.extents_error hexact hexact', h.back.extents_error hexact' hexact⟩

end Corresponds

end Extents
end Program
end StencilShapes
