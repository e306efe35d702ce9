import StencilShapes.Proofs.Compilation.Verified
import StencilShapes.Proofs.Description.Construction
import StencilShapes.Proofs.Description.Modular
import StencilShapes.Proofs.Domain.Modular
import StencilShapes.Report

/-!
# Functions compile independently

The functions of a description share their arenas, the table of extents and the fault that
ends a run.  Still each one is compiled as if it were alone: a run succeeds exactly when it
succeeds on every single function, and then it reports what these report, under identifiers
that have moved by the functions before.

**Results.**
* `Description.run_eq_none_iff`: what it takes for a run to succeed.
* `Program.shapes_layout`, `ExtentTable.report_layout`: reports on programs one behind the
  other.
* `Description.functions_compile_independently`: compilation is function by function.
-/

namespace StencilShapes

section Reports

variable (s : IdSupply)

def OpShape.shift (o : OpShape) : OpShape :=
  { o with op := o.op.shift s }

def FunctionShapes.shift (f : FunctionShapes) : FunctionShapes :=
  { f with ops := f.ops.map (OpShape.shift s) }

def OperandExtent.shift (o : OperandExtent) : OperandExtent :=
  { o with value := o.value.shift s }

def ApplyExtents.shift (a : ApplyExtents) : ApplyExtents :=
  { op := a.op.shift s, operands := a.operands.map (OperandExtent.shift s) }

end Reports

open Program

namespace ExtentTable

/-- A program is reported on behind others as it is alone. -/
theorem report_layout {T : ExtentTable} {qs : List Program}
    (hT : T.applies.entries = layoutEntries {} qs) :
    T.report.applies =
      layoutLists ApplyExtents.shift {} (qs.map fun q => (q, q.table.report.applies)) := by
  have hlist : ∀ (qs : List Program) (s : IdSupply),
      ((layoutEntries s qs).filter fun e => !e.2.entries.isEmpty).map (fun e => ({
          op := ⟨e.1⟩
          operands := e.2.entries.map fun x => { value := ⟨x.1⟩, extent := x.2 } } :
            ApplyExtents)) =
        layoutLists ApplyExtents.shift s (qs.map fun q => (q, q.table.report.applies)) := by
    intro qs
    induction qs with
    | nil => exact fun _ => rfl
    | cons q qs ih =>
        intro s
        rw [layoutEntries, List.map_cons, layoutLists, List.filter_append, List.map_append,
          ← layoutEntries, ih, List.map_cons, layoutLists]
        congr 1
        have hempty : ((fun e : Nat × Table Extent => !e.2.entries.isEmpty) ∘
            fun e : Nat × Table Extent => (s.nextOp + e.1, e.2.shift s.nextValue)) =
            fun e => !e.2.entries.isEmpty := by
          funext e
          rw [Function.comp_apply, Table.shift, List.isEmpty_map]
        rw [List.filter_map, List.map_map, report, List.map_map, hempty]
        refine List.map_congr_left fun e _ => ?_
        simp [ApplyExtents.shift, OperandExtent.shift, OpId.shift, ValueId.shift, Table.shift]
  rw [report, hT]
  exact hlist qs {}

end ExtentTable

namespace ShapeSummary

/-- What was committed for an operation is told apart from what was committed elsewhere. -/
theorem opShape?_shift {S : ShapeSummary} {s : IdSupply} {n : Nat} {inferred : List Inferred}
    {before after : List Inferred} {o : Operation}
    (hS : S.inferred = before ++ (inferred.map (Inferred.shift s) ++ after))
    (hbefore : ∀ i ∈ before, i.op.index < s.nextOp)
    (hafter : ∀ i ∈ after, s.nextOp + n ≤ i.op.index)
    (ho : o.id.index < n) (skipped : List String) :
    S.opShape? (o.shift s) =
      (({ inferred, skipped } : ShapeSummary).opShape? o).map (OpShape.shift s) := by
  have hnone : ∀ {is : List Inferred}, (∀ i ∈ is, i.op.index ≠ s.nextOp + o.id.index) →
      is.find? (·.op == (o.shift s).id) = none := by
    intro is hne
    refine List.find?_eq_none.2 fun i hi he => hne i hi ?_
    exact congrArg OpId.index (beq_iff_eq.1 he)
  have hkey : ((·.op == (o.shift s).id) ∘ Inferred.shift s) =
      fun i : Inferred => i.op == o.id := by
    funext i
    rw [Bool.eq_iff_iff, beq_iff_eq, Function.comp_apply, beq_iff_eq]
    exact OpId.shift_inj
  rw [opShape?, opShape?, hS, List.find?_append, List.find?_append, List.find?_map, hkey,
    hnone fun i hi => Nat.ne_of_lt (Nat.lt_of_lt_of_le (hbefore i hi) (Nat.le_add_right _ _)),
    hnone fun i hi => Nat.ne_of_gt (Nat.lt_of_lt_of_le (Nat.add_lt_add_left ho _) (hafter i hi)),
    Option.none_or, Option.or_none]
  cases inferred.find? (·.op == o.id) with
  | none => rfl
  | some i =>
      simp only [Option.map_some, Operation.shift, OpKind.name_shift]
      rfl

end ShapeSummary

namespace Program

/-- What inference in a program leaves behind. -/
def summary (q : Program) : ShapeSummary :=
  { inferred := q.inference.1.inferred, skipped := q.inference.2 }

/-- The report on inference in a program. -/
def shapes (q : Program) : ShapeReport :=
  q.summary.report q.inference.1.program

/-- The operations of an inferred program are those of the program. -/
theorem inferred_lt {q : Program} (hq : q.Closed) :
    ∀ i ∈ q.inference.1.inferred, i.op.index < q.ops.size :=
  fun i hi => isSome_op?.1 (isSome_op?_of_mem_inferFunctions hq i hi)

/-- What is reported on a program between others. -/
theorem shapes_between {S : ShapeSummary} {p r q : Program} {before after : List Inferred}
    (hq : q.Closed)
    (hS : S.inferred =
      before ++ (q.inference.1.inferred.map (Inferred.shift p.supply) ++ after))
    (hbefore : ∀ i ∈ before, i.op.index < p.supply.nextOp)
    (hafter : ∀ i ∈ after, (p.supply.after q).nextOp ≤ i.op.index) :
    ((q.inference.1.program.functions.toList.map (Function.shift p.supply)).filter
        (·.stencil)).map (fun f => ({
          name := f.name
          ops := ((between p r q.inference.1.program).opsAt f.body).filterMap S.opShape? } :
            FunctionShapes)) =
      q.shapes.functions.map (FunctionShapes.shift p.supply) := by
  have hframe := sameFrame_inference q
  have hq' := hq.of_sameFrame hframe
  rw [List.filter_map, List.map_map, shapes, ShapeSummary.report, List.map_map]
  refine List.map_congr_left fun f hf => ?_
  have hbody := hq'.inRange.isSome_op?_function (List.mem_of_mem_filter hf)
  simp only [Function.comp_apply, Function.shift, FunctionShapes.shift,
    opsAt_between p r hbody, List.filterMap_map, List.map_filterMap]
  refine congrArg _ (List.filterMap_congr fun o ho => ?_)
  obtain ⟨u, _, hu⟩ := List.mem_filterMap.1 ho
  have hlt : o.id.index < q.ops.size := by
    rw [hq'.inRange.op_id u o hu, ← isSome_op?, ← hframe.op?_isSome, hu]
    rfl
  exact ShapeSummary.opShape?_shift hS hbefore hafter hlt _

theorem shapes_layout {S : ShapeSummary} {qs : List Program} :
    (∀ q ∈ qs, q.Closed) → ∀ {p : Program} {before : List Inferred},
      S.inferred = before ++ layoutLists Inferred.shift p.supply
        (qs.map fun q => (q, q.inference.1.inferred)) →
      (∀ i ∈ before, i.op.index < p.supply.nextOp) →
      let r := layout p.supply (qs.map fun q => q.inference.1.program)
      (r.functions.toList.filter (·.stencil)).map (fun f => ({
          name := f.name
          ops := ((p.extend r).opsAt f.body).filterMap S.opShape? } : FunctionShapes)) =
        layoutLists FunctionShapes.shift p.supply (qs.map fun q => (q, q.shapes.functions)) := by
  induction qs with
  | nil => exact fun _ _ _ _ _ => rfl
  | cons q qs ih =>
      intro hqs p before hS hbefore
      obtain ⟨hq, hqs⟩ := List.forall_mem_cons.1 hqs
      have hframe := sameFrame_inference q
      have hsupply : (p.join q.inference.1.program).supply = p.supply.after q := by
        rw [supply_join, hframe.after]
      intro r
      have hr : p.extend r = between p (layout (p.supply.after q)
          (qs.map fun q => q.inference.1.program)) q.inference.1.program := by
        rw [← hsupply]
        exact extend_layout_cons p q.inference.1.program (qs.map fun q => q.inference.1.program)
      have hfunctions := functions_layout_cons p.supply q.inference.1.program
        (qs.map fun q => q.inference.1.program)
      rw [hframe.after] at hfunctions
      rw [show r.functions.toList = _ from hfunctions, List.filter_append, List.map_append, hr]
      have hS' : S.inferred = before ++ (q.inference.1.inferred.map (Inferred.shift p.supply) ++
          layoutLists Inferred.shift (p.supply.after q)
            (qs.map fun q => (q, q.inference.1.inferred))) := hS
      have hbefore' : ∀ i ∈ before ++ q.inference.1.inferred.map (Inferred.shift p.supply),
          i.op.index < (p.join q.inference.1.program).supply.nextOp := by
        rw [hsupply]
        intro i hi
        rcases List.mem_append.1 hi with hi | hi
        · exact Nat.lt_of_lt_of_le (hbefore i hi) (Nat.le_add_right _ _)
        · obtain ⟨j, hj, rfl⟩ := List.mem_map.1 hi
          exact Nat.add_lt_add_left (inferred_lt hq j hj) _
      have hone := shapes_between (r := layout (p.supply.after q)
        (qs.map fun q => q.inference.1.program)) hq hS' hbefore
        (le_key_of_mem_layoutLists (fun _ _ => Nat.le_add_right _ _) _ _)
      have hrest := ih hqs (by rw [hS', hsupply, List.append_assoc]) hbefore'
      rw [hsupply] at hrest
      rw [hone]
      exact congrArg (_ ++ ·) hrest

end Program

/-- A run towards verification succeeds with these reports. -/
structure Program.CompilesTo (p : Program) (shapes : ShapeReport) (extents : ExtentReport) :
    Prop where
  failing : (Compilation.run { program := p } .verification).failing = none
  shapes : (Compilation.run { program := p } .verification).compilation.shapes.map
    (·.report (Compilation.run { program := p } .verification).compilation.program) = some shapes
  extents : (Compilation.run { program := p } .verification).compilation.extents.map
    ExtentTable.report = some extents

/-- A program with the reports of a run that succeeds on it. -/
structure Compiled where
  program : Program
  shapes : ShapeReport
  extents : ExtentReport
  compiles : program.CompilesTo shapes extents

namespace Description

variable {d : Description} {p : Program}

/-- A run succeeds when the extents are found and inference has no fault. -/
theorem compilesTo_of_inference (h : d.elaborate = .ok p) (hfound : p.extents.toOption.isSome)
    (hfault : p.inference.1.fault = none) :
    p.CompilesTo p.shapes p.table.report := by
  have ht := extents_eq_table hfound
  have hinfer : p.inferShapes p.table = (p.inference.1.program, p.summary, none) := by
    rw [← hfault]
    rfl
  have hc := coherent_of_elaborate h
  have hcertificate := (progress_of_inferShapes hc (scoped_of_elaborate h)
    (measured_of_extents hc ht) hinfer).certify_eq
  have hnothing : p.inference.1.program.certificateDiagnostics
      p.inference.1.program.certify = [] := by
    rw [hcertificate]
    rfl
  have hrun : (Compilation.run { program := p } .verification).failing = none ∧
      (Compilation.run { program := p } .verification).compilation.program =
        p.inference.1.program ∧
      (Compilation.run { program := p } .verification).compilation.shapes = some p.summary ∧
      (Compilation.run { program := p } .verification).compilation.extents = some p.table := by
    have hending := Compilation.ending_of_run p .verification
    generalize (Compilation.run { program := p } .verification).failing = failing at hending ⊢
    generalize (Compilation.run { program := p } .verification).compilation = c at hending ⊢
    cases hending with
    | unmeasured herror =>
        rw [ht] at herror
        cases herror
    | halted _ ht' hother =>
        rw [← Except.ok.inj (ht.symm.trans ht'), hinfer] at hother
        cases hother
    | uncertified ht' hother hd =>
        rw [← Except.ok.inj (ht.symm.trans ht'), hinfer] at hother
        cases hother
        rw [hnothing] at hd
        cases hd
    | certified ht' hother _ =>
        obtain rfl := Except.ok.inj (ht.symm.trans ht')
        rw [hinfer] at hother
        cases hother
        exact ⟨rfl, rfl, rfl, rfl⟩
  obtain ⟨hfailing, hprogram, hshapes, hextents⟩ := hrun
  constructor
  case failing => exact hfailing
  case shapes =>
    rw [hshapes, hprogram]
    rfl
  case extents =>
    rw [hextents]
    rfl

/-- A run succeeds on a program that comes from a description exactly when its extents are
found and inference has no fault. -/
theorem run_eq_none_iff (h : d.elaborate = .ok p) :
    (Compilation.run { program := p } .verification).failing = none ↔
      p.extents.toOption.isSome ∧ p.inference.1.fault = none := by
  constructor
  · intro hrun
    obtain ⟨t, s, ht, hinfer⟩ := Compilation.of_run_verification hrun
    have hfound : p.extents.toOption.isSome := by
      rw [ht]
      rfl
    obtain rfl : p.table = t := Except.ok.inj ((extents_eq_table hfound).symm.trans ht)
    exact ⟨hfound, congrArg (fun x => x.2.2) hinfer⟩
  · rintro ⟨hfound, hfault⟩
    exact (compilesTo_of_inference h hfound hfault).failing

/-- The reports of a run that succeeds. -/
theorem compilesTo_of_run (h : d.elaborate = .ok p)
    (hrun : (Compilation.run { program := p } .verification).failing = none) :
    p.CompilesTo p.shapes p.table.report := by
  obtain ⟨hfound, hfault⟩ := (run_eq_none_iff h).1 hrun
  exact compilesTo_of_inference h hfound hfault

/-- Each function compiles as it does alone.  A description is accepted only if its functions
are, and then the program compiles exactly when their programs do.  The reports are those on
the functions, one behind the other: identifiers move by the operations, and by the values,
of the functions before. -/
theorem functions_compile_independently (h : d.elaborate = .ok p) :
    ∃ qs : List Program,
      List.Forall₂ (fun f q => (single f).elaborate = .ok q) d.functions qs ∧
      ((Compilation.run { program := p } .verification).failing = none ↔
        ∀ q ∈ qs, (Compilation.run { program := q } .verification).failing = none) ∧
      ((Compilation.run { program := p } .verification).failing = none →
        ∃ (whole : Compiled) (parts : List Compiled),
          whole.program = p ∧ parts.map Compiled.program = qs ∧
          whole.shapes.functions = layoutLists FunctionShapes.shift {}
            (parts.map fun c => (c.program, c.shapes.functions)) ∧
          whole.extents.applies = layoutLists ApplyExtents.shift {}
            (parts.map fun c => (c.program, c.extents.applies))) := by
  obtain ⟨qs, hqs, rfl⟩ := elaborate_eq_layout.1 h
  have hsingle : ∀ q ∈ qs, ∃ f, (single f).elaborate = .ok q := fun q hq =>
    (exists_mem_of_forall₂ hqs q hq).imp fun _ hf => hf.2
  have hclosed : ∀ q ∈ qs, q.Closed := by
    intro q hq q' hframe
    obtain ⟨f, hf⟩ := hsingle q hq
    exact (sound_of_elaborate hf).inRange hframe
  obtain ⟨hsome, hentries⟩ := extents_layout fun q hq => (hclosed q hq).inRange
  have hruns : ∀ q ∈ qs, ((Compilation.run { program := q } .verification).failing = none ↔
      q.extents.toOption.isSome ∧ q.inference.1.fault = none) := by
    intro q hq
    obtain ⟨f, hf⟩ := hsingle q hq
    exact run_eq_none_iff hf
  have hiff : (Compilation.run { program := layout {} qs } .verification).failing = none ↔
      ∀ q ∈ qs, (Compilation.run { program := q } .verification).failing = none := by
    rw [run_eq_none_iff h]
    constructor
    · rintro ⟨hfound, hfault⟩ q hq
      have hinference := inference_layout hclosed (hentries hfound)
      exact (hruns q hq).2 ⟨hsome.1 hfound q hq, hinference.1.1 hfault q hq⟩
    · intro hall
      have hfound := hsome.2 fun q hq => ((hruns q hq).1 (hall q hq)).1
      have hinference := inference_layout hclosed (hentries hfound)
      exact ⟨hfound, hinference.1.2 fun q hq => ((hruns q hq).1 (hall q hq)).2⟩
  refine ⟨qs, hqs, hiff, fun hrun => ?_⟩
  obtain ⟨hfound, hfault⟩ := (run_eq_none_iff h).1 hrun
  obtain ⟨hprogram, hinferred, _⟩ := (inference_layout hclosed (hentries hfound)).2 hfault
  have hparts : ∀ q ∈ qs, q.CompilesTo q.shapes q.table.report := by
    intro q hq
    obtain ⟨f, hf⟩ := hsingle q hq
    exact compilesTo_of_run hf (hiff.1 hrun q hq)
  refine ⟨⟨layout {} qs, _, _, compilesTo_of_run h hrun⟩,
    qs.pmap (fun q hq => ⟨q, q.shapes, q.table.report, hq⟩) hparts, rfl, ?_, ?_, ?_⟩
  · simp only [List.map_pmap, List.pmap_eq_map, List.map_id']
  · simp only [List.map_pmap, List.pmap_eq_map]
    have hsummary : (layout {} qs).summary.inferred = [] ++
        layoutLists Inferred.shift {} (qs.map fun q => (q, q.inference.1.inferred)) := hinferred
    have hshapes := shapes_layout hclosed (p := {}) hsummary (List.forall_mem_nil _)
    simp only [empty_extend] at hshapes
    rw [shapes, hprogram]
    exact hshapes
  · simp only [List.map_pmap, List.pmap_eq_map]
    exact ExtentTable.report_layout (hentries hfound)

/-- The smoothing step twice. -/
def smoothingTwice : Description :=
  { functions := smoothing.functions ++ smoothing.functions }

theorem elaborate_smoothingTwice :
    smoothingTwice.elaborate = .ok (layout {} [Program.smoothing, Program.smoothing]) :=
  elaborate_eq_layout.2
    ⟨_, .cons Program.elaborate_smoothing (.cons Program.elaborate_smoothing .nil), rfl⟩

theorem run_smoothing :
    (Compilation.run { program := Program.smoothing } .verification).failing = none :=
  (run_eq_none_iff Program.elaborate_smoothing).2
    ⟨by rw [Program.extents_smoothing]; rfl,
      congrArg (fun r => r.2.2) Program.inferShapes_smoothing⟩

theorem functions_compile_independently_smoothingTwice :
    ∃ (whole : Compiled) (parts : List Compiled),
      whole.program = layout {} [Program.smoothing, Program.smoothing] ∧
      parts.map Compiled.program = [Program.smoothing, Program.smoothing] ∧
      whole.shapes.functions = layoutLists FunctionShapes.shift {}
        (parts.map fun c => (c.program, c.shapes.functions)) ∧
      whole.extents.applies = layoutLists ApplyExtents.shift {}
        (parts.map fun c => (c.program, c.extents.applies)) := by
  obtain ⟨qs, hqs, hiff, hreports⟩ := functions_compile_independently elaborate_smoothingTwice
  obtain ⟨q, _, hq, hrest, rfl⟩ := List.forall₂_cons_left_iff.1 hqs
  obtain ⟨q', _, hq', hnil, rfl⟩ := List.forall₂_cons_left_iff.1 hrest
  obtain rfl := List.forall₂_nil_left_iff.1 hnil
  obtain rfl := Except.ok.inj (Program.elaborate_smoothing.symm.trans hq)
  obtain rfl := Except.ok.inj (Program.elaborate_smoothing.symm.trans hq')
  refine hreports (hiff.2 ?_)
  simp [run_smoothing]

end Description
end StencilShapes
