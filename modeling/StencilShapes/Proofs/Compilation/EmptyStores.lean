import StencilShapes.Proofs.Description.Elaborated
import StencilShapes.Proofs.Domain.Reach
import StencilShapes.Proofs.Domain.Run

/-!
# Stores without points

Inference asks whether a domain has points after the demands of all readers are put
together.  A store over a box without points makes a run fail, unless the box drowns in
what another reader of the same producer demands, or unless nothing computes what is
stored: the box of a store is looked at nowhere else.

**Results.**
* `Compilation.exists_error_of_failing`: a run that fails reports an error.
* `Program.Progress.reachedBeyond_of_empty_store`: whatever hides a store without points
  reaches beyond its box.
* `Description.empty_store_rejected`: what is left is rejected.
-/

namespace StencilShapes

namespace Compilation

theorem exists_error_of_failing {passes : List Pass} {pass : Pass} :
    ∀ {c : Compilation}, (c.runPasses passes).failing = some pass →
      ∃ d ∈ (c.runPasses passes).compilation.diagnostics, d.isError = true := by
  induction passes with
  | nil =>
      intro c h
      cases h
  | cons next rest ih =>
      intro c h
      rw [runPasses_cons] at h ⊢
      split at h
      · next herror =>
          obtain ⟨d, hd, hlevel⟩ := List.any_eq_true.1 herror
          rw [if_pos herror]
          exact ⟨d, List.mem_append_right _ hd, hlevel⟩
      · next hnone =>
          rw [if_neg hnone]
          exact ih h

end Compilation

namespace Program

/-- A reader of what `x` computes, other than the operation `s`, demands points outside a
box in one dimension, for the given bounds. -/
def ReachedBeyond (p : Program) (t : ExtentTable) (bounds : OpId → Option Bounds) (x s : OpId)
    (b : Bounds) (i : Nat) : Prop :=
  ∃ v u c, u ≠ s ∧ p.Reads x v u ∧ bounds u = some c ∧
    (c.lower.coord i + t.negativeAt u v i < b.lower.coord i ∨
      b.upper.coord i < c.upper.coord i + t.positiveAt u v i)

namespace Progress

variable {p q : Program} {t : ExtentTable} {f : Function} {x s : OpId} {v : ValueId}
  {o os : Operation} {b : Bounds} {done : OpId → Prop}

/-- A store demands its own box. -/
theorem store_demand {w : ValueId} {c : Bounds} {i : Nat}
    (h : p.Progress t done q)
    (hm : p.Measured t)
    (hos : p.op? s = some os)
    (hk : os.kind = .store b)
    (hc : q.boundsOf s = some c) :
    c.lower.coord i + t.negativeAt s w i = b.lower.coord i ∧
      c.upper.coord i + t.positiveAt s w i = b.upper.coord i := by
  obtain ⟨os', hos', hkind, _⟩ := h.frame.exists_op_eq hos (by rw [hk]; rfl)
  rw [boundsOf, hos', Option.bind_some, hkind, hk] at hc
  obtain rfl : b = c := Option.some.inj hc
  simp [ExtentTable.negativeAt, ExtentTable.positiveAt, hm.find?_of_store hos hk w]

/-- The domain of a producer has points; if a store of its result has none, then another
reader reaches beyond the box of the store. -/
theorem reachedBeyond_of_empty_store {i : Nat}
    (h : p.Progress t done q)
    (hc : p.Coherent) (hs : p.Scoped) (hm : p.Measured t)
    (hf : f ∈ p.functions.toList)
    (hdone : ∀ u ∈ f.body, done u)
    (hmem : s ∈ f.body)
    (hos : p.op? s = some os)
    (hk : os.kind = .store b)
    (hv : v ∈ os.operands)
    (ho : p.op? x = some o)
    (hres : v ∈ o.results)
    (hi : i < b.rank)
    (hempty : b.upper.coord i ≤ b.lower.coord i) :
    p.ReachedBeyond t q.boundsOf x s b i := by
  obtain ⟨hx, hreads⟩ := mem_body_of_operand hc hs hf hmem hos hv ho hres
  have hsettled := h.settled ho (hreads.isInferable hs hf hx ho) (hdone x hx)
  obtain ⟨o', d, r, ho', hr, hd, hspans⟩ := hsettled.spans
  obtain rfl : o = o' := Option.some.inj (ho.symm.trans ho')
  obtain ⟨os', c, hos', hcs, _, hcr, _⟩ := h.reader_bounds hc hs
    (fun u hr => hdone u (mem_body_of_reads hc hs hf hx hr).1) ho hr hreads
  have hir : i < r := by
    obtain ⟨os'', hos'', hkind, _⟩ := h.frame.exists_op_eq hos (by rw [hk]; rfl)
    rw [boundsOf, hos'', Option.bind_some, hkind, hk] at hcs
    obtain rfl : b = c := Option.some.inj hcs
    exact hcr.rank_eq ▸ hi
  have hleast := hspans.isLeast i hir
  have hgreatest := hspans.isGreatest i hir
  have hsize := hsettled.admissible.nonempty i _ _ hleast hgreatest
  -- One of the two ends of the domain lies outside the box of the store.
  by_cases hlow : d.lower.coord i < b.lower.coord i
  · obtain ⟨w, u, c', hru, hcu, _, heq⟩ := hleast.1
    refine ⟨w, u, c', ?_, hru, hcu, Or.inl (heq ▸ hlow)⟩
    rintro rfl
    have hown := (h.store_demand (w := w) (i := i) hm hos hk hcu).1
    omega
  · obtain ⟨w, u, c', hru, hcu, _, heq⟩ := hgreatest.1
    have hup : b.upper.coord i < d.upper.coord i := by omega
    refine ⟨w, u, c', ?_, hru, hcu, Or.inr (heq ▸ hup)⟩
    rintro rfl
    have hown := (h.store_demand (w := w) (i := i) hm hos hk hcu).2
    omega

end Progress
end Program

/-- A store without points is rejected, unless it stores an argument or another reader of
the producer reaches beyond its box. -/
theorem Description.empty_store_rejected {d : Description} {p : Program} {f : Function}
    {s : OpId} {o : Operation} {b : Bounds} {v : ValueId} {i : Nat}
    (hload : d.elaborate = .ok p)
    (hf : f ∈ p.functions.toList)
    (hstencil : f.stencil = true)
    (hs : s ∈ f.body)
    (ho : p.op? s = some o)
    (hk : o.kind = .store b)
    (hv : o.operands.head? = some v)
    (hi : i < b.rank)
    (hempty : b.upper.coord i ≤ b.lower.coord i) :
    ((∃ pass, (Compilation.run { program := p } .verification).failing = some pass) ∧
      ∃ e ∈ (Compilation.run { program := p } .verification).compilation.diagnostics,
        e.isError = true) ∨
    (∃ j, p.originOf v = some (.arg none j)) ∨
    ∃ t x j, p.extents = .ok t ∧ p.originOf v = some (.result x j) ∧
      p.ReachedBeyond t
        (Compilation.run { program := p } .verification).compilation.program.boundsOf x s b i := by
  have hc := Description.coherent_of_elaborate hload
  have hscoped := Description.scoped_of_elaborate hload
  cases hrun : (Compilation.run { program := p } .verification).failing with
  | some pass => exact Or.inl ⟨⟨pass, rfl⟩, Compilation.exists_error_of_failing hrun⟩
  | none =>
      obtain ⟨t, summary, hextents, hinfer⟩ := Compilation.of_run_verification hrun
      have hm := Program.measured_of_extents hc hextents
      have hprogress := Program.progress_of_inferShapes hc hscoped hm hinfer
      have hmem : v ∈ o.operands := List.mem_of_head? hv
      rcases hscoped.visible f hf s hs o ho v hmem with harg | ⟨x, hx, j, hj⟩
      · exact Or.inr (Or.inl harg)
      · obtain ⟨ox, hox, hres⟩ := hc.result.1 hj
        exact Or.inr (Or.inr ⟨t, x, j, hextents, hj,
          hprogress.reachedBeyond_of_empty_store hc hscoped hm hf
            (fun u hu => ⟨f, hf, hstencil, hu⟩) hs ho hk hmem hox (List.mem_of_getElem? hres) hi
            hempty⟩)

/-- A load whose result is stored over some boxes. -/
def Description.storing (boxes : List Bounds) : Description :=
  { functions :=
      [{ name := "hidden"
         stencil := true
         args :=
           [{ name := "in", element := .f64, rank := 1 },
             { name := "out", element := .f64, rank := 1 }]
         ops := .load "t" "in" :: boxes.map fun b => .store "t" "out" b.lower b.upper }] }

namespace Program

/-- The program of a load whose result is stored over some boxes. -/
def storing (boxes : List Bounds) : Program :=
  (elaborateFunctions {} (Description.storing boxes).functions).1

/-- A box that ends where it starts. -/
def noCells : Bounds :=
  { lower := [.ofInt64 5], upper := [.ofInt64 5] }

/-- A box around it. -/
def tenCells : Bounds :=
  { lower := [.ofInt64 0], upper := [.ofInt64 10] }

/-- What a run makes of a load whose result is stored over some boxes. -/
def storingRun (boxes : List Bounds) : PassRun :=
  Compilation.run { program := storing boxes } .verification

theorem elaborate_storing_alone :
    (Description.storing [noCells]).elaborate = .ok (storing [noCells]) := by rfl

theorem functions_storing_alone :
    (storing [noCells]).functions.toList =
      [{ name := "hidden", stencil := true, args := [⟨0⟩, ⟨1⟩], body := [⟨0⟩, ⟨1⟩] }] := by
  decide

/-- Only the store reads what is loaded. -/
theorem not_reachedBeyond_storing_alone {t : ExtentTable} {bounds : OpId → Option Bounds}
    {b : Bounds} {i : Nat} :
    ¬ (storing [noCells]).ReachedBeyond t bounds ⟨0⟩ ⟨1⟩ b i := by
  have hload : (storing [noCells]).op? ⟨0⟩ = some
      { id := ⟨0⟩, kind := .load none, operands := [⟨0⟩], operandTypes := [.field .f64 1],
        results := [⟨2⟩], parent := none } := by decide
  have hsize : (storing [noCells]).ops.size = 2 := by decide
  rintro ⟨v, u, c, hne, ⟨ox, ou, hox, hv, hou, _, hmem⟩, _⟩
  obtain rfl := Option.some.inj (hload.symm.trans hox)
  obtain rfl := List.mem_singleton.1 hv
  have hlt : u.index < 2 := hsize ▸ op?_lt hou
  obtain rfl : u = ⟨0⟩ := by
    rcases u with ⟨_ | _ | n⟩
    · rfl
    · exact absurd rfl hne
    · exact absurd hlt (by simp)
  obtain rfl := Option.some.inj (hload.symm.trans hou)
  cases List.mem_singleton.1 hmem

end Program

theorem Description.empty_store_rejected_alone :
    Program.noCells.upper.coord 0 ≤ Program.noCells.lower.coord 0 ∧
      (∃ pass, (Program.storingRun [Program.noCells]).failing = some pass) ∧
      ∃ e ∈ (Program.storingRun [Program.noCells]).compilation.diagnostics, e.isError = true := by
  have hempty : Program.noCells.upper.coord 0 ≤ Program.noCells.lower.coord 0 := by decide
  have horigin : (Program.storing [Program.noCells]).originOf ⟨2⟩ = some (.result ⟨0⟩ 0) := by decide
  have hstore : (Program.storing [Program.noCells]).op? ⟨1⟩ = some
      { id := ⟨1⟩, kind := .store Program.noCells, operands := [⟨2⟩, ⟨1⟩]
        operandTypes := [.temp .f64 none, .field .f64 1], results := [], parent := none } := by
    decide
  have h := Description.empty_store_rejected (s := ⟨1⟩) (v := ⟨2⟩) (i := 0)
    Program.elaborate_storing_alone
    (by rw [Program.functions_storing_alone]; exact List.mem_singleton_self _) rfl (by decide)
    hstore rfl rfl (by decide) hempty
  rw [horigin] at h
  rcases h with hrejected | ⟨j, hj⟩ | ⟨t, x, j, _, hj, hbeyond⟩
  · exact ⟨hempty, hrejected⟩
  · cases hj
  · cases hj
    exact absurd hbeyond Program.not_reachedBeyond_storing_alone

/-- Next to a store over a box around it, a store without points goes unnoticed. -/
theorem Description.empty_store_hidden :
    ∃ p, (Description.storing [Program.noCells, Program.tenCells]).elaborate = .ok p ∧
      (∃ f ∈ p.functions.toList, f.stencil = true ∧ ∃ s ∈ f.body, ∃ o, p.op? s = some o ∧
        o.kind = .store Program.noCells ∧
        Program.noCells.upper.coord 0 ≤ Program.noCells.lower.coord 0) ∧
      (Compilation.run { program := p } .verification).failing = none ∧
      (Compilation.run { program := p } .verification).compilation.diagnostics = [] := by
  have hfunctions : (Program.storing [Program.noCells, Program.tenCells]).functions.toList =
      [{ name := "hidden", stencil := true, args := [⟨0⟩, ⟨1⟩], body := [⟨0⟩, ⟨1⟩, ⟨2⟩] }] := by
    decide
  have hstore : (Program.storing [Program.noCells, Program.tenCells]).op? ⟨1⟩ = some
      { id := ⟨1⟩, kind := .store Program.noCells, operands := [⟨2⟩, ⟨1⟩]
        operandTypes := [.temp .f64 none, .field .f64 1], results := [], parent := none } := by
    decide
  refine ⟨Program.storing [Program.noCells, Program.tenCells], by rfl,
    ⟨_, by rw [hfunctions]; exact List.mem_singleton_self _, rfl, ⟨1⟩, by decide, _, hstore, rfl,
      by decide⟩, ?_, ?_⟩
  · rw [Compilation.run, Pass.required_verification]
    decide
  · rw [Compilation.run, Pass.required_verification]
    decide

end StencilShapes
