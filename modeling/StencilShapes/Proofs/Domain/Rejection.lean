import StencilShapes.Compilation.Basic
import StencilShapes.Proofs.Description.Elaborated
import StencilShapes.Proofs.Domain.Run
import StencilShapes.Proofs.Domain.Verdict

/-!
# When inference rejects a program

Inference reports nothing exactly when all loads and applies of stencil programs are
admissible.  Otherwise it reports the verdict on one of them: the last one that is not
admissible in the first function that has such an operation.

**Results.**
* `Program.admissible_of_inferShapes`: nothing is rejected without a fault.
* `Program.firstViolation_of_fault`: a fault is the verdict on the first violation.
* `Description.rejects_iff_violation`: both, for a program that was loaded.
-/

namespace StencilShapes
namespace Program

/-- All loads and applies among some operations are admissible. -/
def AllAdmissible (p : Program) (t : ExtentTable) (bounds : OpId → Option Bounds)
    (xs : List OpId) : Prop :=
  ∀ x ∈ xs, ∀ o, p.op? x = some o → o.kind.isInferable = true → p.Admissible t bounds x

/-- The last violation in the first stencil program that has one. -/
structure FirstViolation (p : Program) (t : ExtentTable) (bounds : OpId → Option Bounds)
    (f : Function) (x : OpId) (o : Operation) : Prop where
  /-- The stencil programs before this one have no violation. -/
  functions : ∃ before after, p.functions.toList = before ++ f :: after ∧
    ∀ g ∈ before, g.stencil = true → p.AllAdmissible t bounds g.body
  stencil : f.stencil = true
  /-- There is no violation behind the operation. -/
  body : ∃ before after, f.body = before ++ x :: after ∧ p.AllAdmissible t bounds after
  op : p.op? x = some o
  inferable : o.kind.isInferable = true
  /-- The bounds of whatever reads its results are known. -/
  readers : ∀ v u, p.Reads x v u → ∃ b, bounds u = some b
  violates : ¬ p.Admissible t bounds x

variable {p q : Program} {t : ExtentTable} {s : ShapeSummary}

theorem admissible_of_inferShapes
    (hc : p.Coherent) (hs : p.Scoped) (hm : p.Measured t)
    (h : p.inferShapes t = (q, s, none)) :
    ∀ f ∈ p.functions.toList, f.stencil = true → p.AllAdmissible t q.boundsOf f.body :=
  fun f hf hstencil _ hx _ ho hk =>
    ((progress_of_inferShapes hc hs hm h).settled ho hk ⟨f, hf, hstencil, hx⟩).admissible

theorem firstViolation_of_fault {fault : DomainFault}
    (hc : p.Coherent) (hs : p.Scoped) (hm : p.Measured t)
    (h : p.inferShapes t = (q, s, some fault)) :
    ∃ f x o, p.FirstViolation t q.boundsOf f x o ∧
      p.Verdict t q.boundsOf f.name x o fault.diagnostic := by
  obtain ⟨before, f, after, hfs, hstencil, earlier, x, later, o, r, o', hbody, hprogress, hvisit,
    ho', herror⟩ := progress_of_fault hc hs hm h
  have hverdict := hvisit.verdict ho' herror
  refine ⟨f, x, o, ⟨⟨before, after, hfs, ?_⟩, hstencil, ⟨earlier, later, hbody, ?_⟩, hvisit.op,
    hvisit.inferable, ?_, hverdict.not_admissible⟩, hverdict⟩
  · intro g hg hgs y hy oy hoy hk
    exact (hprogress.settled hoy hk (Or.inl ⟨g, hg, hgs, hy⟩)).admissible
  · intro y hy oy hoy hk
    exact (hprogress.settled hoy hk (Or.inr hy)).admissible
  · intro v u hreads
    exact (hvisit.ranked_of_reads hreads).imp fun b hb => hb.1

end Program

/-- Inference reports nothing exactly when all loads and applies of stencil programs are
admissible, and else the verdict on the first violation. -/
theorem Description.rejects_iff_violation {d : Description} {p : Program} {t : ExtentTable}
    {c : Compilation} {ds : List Diagnostic}
    (hload : d.elaborate = .ok p)
    (hextents : p.extents = .ok t)
    (hinfer : Compilation.perform { program := p, extents := some t } .shapeInference = (c, ds)) :
    (ds = [] ↔ ∀ f ∈ p.functions.toList, f.stencil = true →
      p.AllAdmissible t c.program.boundsOf f.body) ∧
    (ds ≠ [] → ∃ diagnostic f x o, ds = [diagnostic] ∧
      p.FirstViolation t c.program.boundsOf f x o ∧
      p.Verdict t c.program.boundsOf f.name x o diagnostic) := by
  have hc := Description.coherent_of_elaborate hload
  have hs := Description.scoped_of_elaborate hload
  have hm := Program.measured_of_extents hc hextents
  rcases h : p.inferShapes t with ⟨q, s, _ | fault⟩
  · simp only [Compilation.perform, Option.getD_some, h, Prod.mk.injEq] at hinfer
    rcases hinfer with ⟨rfl, rfl⟩
    exact ⟨⟨fun _ => Program.admissible_of_inferShapes hc hs hm h, fun _ => rfl⟩,
      fun hne => absurd rfl hne⟩
  · simp only [Compilation.perform, Option.getD_some, h, Prod.mk.injEq] at hinfer
    rcases hinfer with ⟨rfl, rfl⟩
    obtain ⟨f, x, o, hfirst, hverdict⟩ := Program.firstViolation_of_fault hc hs hm h
    refine ⟨⟨fun hnil => ?_, fun hall => ?_⟩, fun _ => ⟨_, f, x, o, rfl, hfirst, hverdict⟩⟩
    · cases hnil
    · obtain ⟨before, after, hfs, _⟩ := hfirst.functions
      rcases hfirst.body with ⟨earlier, later, hbody, _⟩
      exact absurd
        (hall f (by rw [hfs]; simp) hfirst.stencil x (by rw [hbody]; simp) o hfirst.op
          hfirst.inferable)
        hfirst.violates

/-- A body that reads one cell ahead, stored up to the last coordinate. -/
def Description.overreaching : Description :=
  { functions :=
      [{ name := "overreach"
         stencil := true
         args :=
           [{ name := "in", element := .f64, rank := 1 },
             { name := "out", element := .f64, rank := 1 }]
         ops :=
           [.load "t" "in",
             .apply ["u"] ["t"] ["a"] [.access "r" "a" [.one], .ret ["r"] none],
             .store "u" "out" [.one] [{ val := 9223372036854775807 }]] }] }

namespace Program

/-- The program of the body that reads one cell ahead. -/
def overreaching : Program :=
  (elaborateFunctions {} Description.overreaching.functions).1

def overreachingExtents : ExtentTable :=
  overreaching.extents.toOption.getD .empty

/-- What inference makes of it. -/
def overreachingOutcome : Compilation × List Diagnostic :=
  Compilation.perform { program := overreaching, extents := some overreachingExtents }
    .shapeInference

end Program

theorem Description.rejects_iff_violation_overreaching :
    ∃ diagnostic f x o, Program.overreachingOutcome.2 = [diagnostic] ∧
      Program.overreaching.FirstViolation Program.overreachingExtents
        Program.overreachingOutcome.1.program.boundsOf f x o ∧
      Program.overreaching.Verdict Program.overreachingExtents
        Program.overreachingOutcome.1.program.boundsOf f.name x o diagnostic := by
  have hload : Description.overreaching.elaborate = .ok Program.overreaching := by rfl
  have hextents : Program.overreaching.extents = .ok Program.overreachingExtents := by rfl
  have hne : Program.overreachingOutcome.2 ≠ [] := by decide
  exact (Description.rejects_iff_violation hload hextents Prod.mk.eta.symm).2 hne

end StencilShapes
