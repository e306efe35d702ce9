import StencilShapes.Proofs.Compilation.Pipeline
import StencilShapes.Proofs.Domain.Chain

/-!
# Inferred programs pass verification

When inference ends without a fault all loads and applies of stencil programs have
bounds, their results have the shape of these bounds, and declared types follow the
types of values.  These are the four obligations of a certificate, so verification
has nothing to report on a program that was just loaded.

**Results.**
* `Program.Progress.certify_eq`: the certificate of a program whose stencil programs
  are done.
* `Description.verification_succeeds`: verification never fails after inference.
-/

namespace StencilShapes
namespace Program

/-- The results of loads and applies of stencil programs are temps with a shape, which
has a dimension at least and is nowhere less than one. -/
def HasStaticShapes (p : Program) : Prop :=
  ∀ f ∈ p.functions.toList, f.stencil = true → ∀ x ∈ f.body, ∀ o, p.op? x = some o →
    o.kind.isInferable = true → ∀ v ∈ o.results,
      ∃ e shape, p.typeOf v = .temp e (some shape) ∧ shape ≠ [] ∧ ∀ c ∈ shape, 1 ≤ c.val

theorem mem_stencilOps {p : Program} {o : Operation} (h : o ∈ p.stencilOps) :
    ∃ x, InStencil p.functions.toList x ∧ p.op? x = some o := by
  rcases List.mem_flatMap.1 h with ⟨f, hf, ho⟩
  rcases List.mem_filter.1 hf with ⟨hf, hstencil⟩
  rcases mem_opsAt.1 ho with ⟨x, hx, ho⟩
  exact ⟨x, ⟨f, hf, hstencil, hx⟩, ho⟩

/-- Declared types that follow the types of values pass the check. -/
theorem Typed.declaresOperands {p : Program} {x : OpId} {o : Operation}
    (h : p.Typed)
    (ho : p.op? x = some o)
    (hk : o.kind.isShaped = true) :
    p.declaresOperands o = true := by
  have hzip : ∀ {vs : List ValueId} {tys : List Ty} {v ty}, vs.map p.typeOf = tys →
      (v, ty) ∈ vs.zip tys → p.typeOf v = ty := by
    rintro vs tys v ty rfl hmem
    obtain ⟨i, hi⟩ := List.getElem?_of_mem hmem
    rcases List.getElem?_zip_eq_some.1 hi with ⟨hv, hty⟩
    rw [List.getElem?_map, hv] at hty
    exact Option.some.inj hty
  rw [Program.declaresOperands, Bool.and_eq_true]
  constructor
  · rw [List.all_eq_true]
    rintro ⟨v, ty⟩ hmem
    simp [hzip (h.declared ho hk).symm hmem]
  · cases hbody : o.kind.body? with
    | none => rfl
    | some body =>
        rw [Option.elim_some, List.all_eq_true]
        rintro ⟨v, ty⟩ hmem
        simp [hzip (h.arg_types ho hbody) hmem]

namespace Progress

variable {p q : Program} {t : ExtentTable}

/-- What is known of a load or an apply of a stencil program once all of them are done. -/
theorem shaped_of_op {x : OpId} {o : Operation}
    (h : p.Progress t (InStencil p.functions.toList) q)
    (hx : InStencil q.functions.toList x)
    (ho : q.op? x = some o)
    (hk : o.kind.isInferable = true) :
    ∃ b shape, o.kind.bounds? = some b ∧ b.shape? = some shape ∧ shape ≠ [] ∧
      (∀ c ∈ shape, 1 ≤ c.val) ∧ ∀ v ∈ o.results, ∃ e, q.typeOf v = .temp e (some shape) := by
  obtain ⟨o', ho', _, hkind, _, hres⟩ := h.frame.symm.exists_op ho
  rw [h.frame.functions] at hx
  obtain ⟨b, shape, hb, hrest⟩ :=
    h.shaped ho' ((OpKind.isInferable_eq_of_frame hkind).trans hk) hx
  rw [boundsOf, ho] at hb
  rw [hres] at hrest
  exact ⟨b, shape, hb, hrest⟩

theorem hasStaticShapes (h : p.Progress t (InStencil p.functions.toList) q) :
    q.HasStaticShapes := by
  intro f hf hstencil x hx o ho hk v hv
  obtain ⟨_, shape, _, _, hne, hpos, hres⟩ := h.shaped_of_op ⟨f, hf, hstencil, hx⟩ ho hk
  obtain ⟨e, he⟩ := hres v hv
  exact ⟨e, shape, he, hne, hpos⟩

/-- All four obligations hold once all stencil programs are done. -/
theorem certify_eq (h : p.Progress t (InStencil p.functions.toList) q) :
    q.certify =
      { boundsFinalized := true, staticResultTypes := true, shapeMatchesBounds := true
        operandTypesConsistent := true } := by
  have hinferable : ∀ o ∈ q.stencilOps.filter (·.kind.isInferable), ∃ b shape,
      o.kind.bounds? = some b ∧ b.shape? = some shape ∧
        ∀ v ∈ o.results, (q.typeOf v).shape? = some shape := by
    intro o ho
    rcases List.mem_filter.1 ho with ⟨ho, hk⟩
    obtain ⟨x, hx, ho⟩ := mem_stencilOps ho
    obtain ⟨b, shape, hb, hshape, _, _, hres⟩ := h.shaped_of_op hx ho hk
    refine ⟨b, shape, hb, hshape, fun v hv => ?_⟩
    obtain ⟨e, he⟩ := hres v hv
    rw [he]
    rfl
  simp only [certify, Certificate.mk.injEq, List.all_eq_true]
  refine ⟨fun o ho => ?_, fun o ho => ?_, fun o ho => ?_, fun o ho => ?_⟩
  · obtain ⟨b, _, hb, _⟩ := hinferable o ho
    rw [hb]
    rfl
  · obtain ⟨_, shape, _, _, hres⟩ := hinferable o ho
    rw [hasStaticResults, List.all_eq_true]
    intro v hv
    rw [hres v hv]
    rfl
  · obtain ⟨b, shape, hb, hshape, hres⟩ := hinferable o ho
    rw [matchesBounds, hb, Option.bind_some, hshape, List.all_eq_true]
    intro v hv
    rw [hres v hv]
    exact beq_self_eq_true _
  · rcases List.mem_filter.1 ho with ⟨ho, hk⟩
    obtain ⟨x, _, ho⟩ := mem_stencilOps ho
    exact h.typed.declaresOperands ho hk

end Progress
end Program

/-- Verification never fails after successful inference of a loaded program. -/
theorem Description.verification_succeeds {d : Description} {p : Program}
    (hload : d.elaborate = .ok p) :
    (∀ t q s, p.extents = .ok t → p.inferShapes t = (q, s, none) →
      q.certify =
        { boundsFinalized := true, staticResultTypes := true, shapeMatchesBounds := true
          operandTypesConsistent := true } ∧
      q.HasStaticShapes) ∧
    ∀ terminal, ∀ diagnostic ∈
      (Compilation.run { program := p } terminal).compilation.diagnostics,
        diagnostic.code ≠ some .unverified := by
  have hc := Description.coherent_of_elaborate hload
  have hs := Description.scoped_of_elaborate hload
  have hprogress : ∀ {t q s}, p.extents = .ok t → p.inferShapes t = (q, s, none) →
      p.Progress t (Program.InStencil p.functions.toList) q := fun hextents hinfer =>
    Program.progress_of_inferShapes hc hs (Program.measured_of_extents hc hextents) hinfer
  refine ⟨fun t q s hextents hinfer => ?_, fun terminal diagnostic hmem => ?_⟩
  · have h := hprogress hextents hinfer
    exact ⟨h.certify_eq, h.hasStaticShapes⟩
  · cases Compilation.reports_of_run hmem with
    | extents hextents => exact (Program.extents_eq_error hextents).2
    | domain _ _ hfault =>
        rw [hfault]
        exact (DomainFault.diagnostic_spec _).2
    | certificate hextents hinfer hcertificate =>
        rw [(hprogress hextents hinfer).certify_eq] at hcertificate
        cases hcertificate

theorem Description.verification_succeeds_smoothing :
    Program.smoothingShaped.certify =
        { boundsFinalized := true, staticResultTypes := true, shapeMatchesBounds := true
          operandTypesConsistent := true } ∧
      Program.smoothingShaped.HasStaticShapes :=
  (Description.verification_succeeds Program.elaborate_smoothing).1 _ _ _
    Program.extents_smoothing Program.inferShapes_smoothing

end StencilShapes
