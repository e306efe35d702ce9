import StencilShapes.Compilation.Basic

/-!
# Running the passes

A run performs the passes that its goal requires in order, and a pass that reports an
error ends it.  None of them reports anything but errors.  So on a new compilation the
passes before the last one have reported nothing, and what is left behind depends on the
pass with which the run has ended.

**Results.**
* `Compilation.ending_of_run`: how a run on a new compilation ends.
* `Compilation.of_run_verification`: what a run has done that ends without error.
* `Compilation.reports_of_run`: where the diagnostics of a run come from.
-/

namespace StencilShapes

/-- The faults of extent analysis are errors about points. -/
theorem ExtentFault.diagnostic_spec (function : String) (fault : ExtentFault) :
    (fault.diagnostic function).isError = true ∧
      ((fault.diagnostic function).code = some .rankMismatch ∨
        (fault.diagnostic function).code = some .overflow) := by
  have hpoint : ∀ (f : PointFault) (place : Place) (context : String),
      (Diagnostic.ofPointFault f place context).isError = true ∧
        ((Diagnostic.ofPointFault f place context).code = some .rankMismatch ∨
          (Diagnostic.ofPointFault f place context).code = some .overflow) := by
    intro f place context
    cases f with
    | rankMismatch l r => exact ⟨rfl, Or.inl rfl⟩
    | overflow => exact ⟨rfl, Or.inr rfl⟩
  cases fault with
  | access op f => exact hpoint f _ _
  | unroll op f => exact hpoint f _ _

/-- The faults of inference are errors, and none of them is about verification. -/
theorem DomainFault.diagnostic_spec (fault : DomainFault) :
    fault.diagnostic.isError = true ∧ fault.diagnostic.code ≠ some .unverified := by
  cases fault with
  | noShape producer bounds f =>
      cases f with
      | rankMismatch l r => exact ⟨rfl, by rintro ⟨⟩⟩
      | overflow => exact ⟨rfl, by rintro ⟨⟩⟩
  | _ => exact ⟨rfl, by rintro ⟨⟩⟩

namespace Program

theorem foldApplies_eq_error {p : Program} {os : List Operation} {fault : ExtentFault} :
    ∀ {t : ExtentTable}, p.foldApplies t os = .error fault →
      ∃ o ∈ os, o.kind.body?.isSome ∧ p.applyExtents o = .error fault := by
  induction os with
  | nil =>
      intro t h
      cases h
  | cons o os ih =>
      intro t h
      have hrest : ∀ {t : ExtentTable}, p.foldApplies t os = .error fault →
          ∃ o' ∈ o :: os, o'.kind.body?.isSome ∧ p.applyExtents o' = .error fault := fun h => by
        obtain ⟨o', ho', herror⟩ := ih h
        exact ⟨o', List.mem_cons_of_mem _ ho', herror⟩
      simp only [foldApplies] at h
      split at h
      · next hk =>
          split at h
          · exact hrest h
          · next herror =>
              cases h
              exact ⟨o, List.mem_cons_self, by rw [hk]; rfl, herror⟩
      · exact hrest h

/-- Extent analysis of some functions fails at an apply of one of them. -/
theorem foldFunctions_eq_error {p : Program} {fs : List Function} {d : Diagnostic} :
    ∀ {t : ExtentTable}, p.foldFunctions t fs = .error d →
      ∃ f ∈ fs, ∃ o ∈ p.walk f.body, o.kind.body?.isSome ∧
        ∃ fault, p.applyExtents o = .error fault ∧ d = fault.diagnostic f.name := by
  induction fs with
  | nil =>
      intro t h
      cases h
  | cons f fs ih =>
      intro t h
      have hrest : ∀ {t : ExtentTable}, p.foldFunctions t fs = .error d →
          ∃ g ∈ f :: fs, ∃ o ∈ p.walk g.body, o.kind.body?.isSome ∧
            ∃ fault, p.applyExtents o = .error fault ∧ d = fault.diagnostic g.name := fun h => by
        obtain ⟨g, hg, herror⟩ := ih h
        exact ⟨g, List.mem_cons_of_mem _ hg, herror⟩
      simp only [foldFunctions] at h
      split at h
      · split at h
        · exact hrest h
        · next fault hfault =>
            cases h
            obtain ⟨o, ho, hbody, herror⟩ := foldApplies_eq_error hfault
            exact ⟨f, List.mem_cons_self, o, ho, hbody, fault, herror, rfl⟩
      · exact hrest h

/-- Extent analysis reports an error about points. -/
theorem extents_eq_error {p : Program} {d : Diagnostic} (h : p.extents = .error d) :
    d.isError = true ∧ d.code ≠ some .unverified := by
  obtain ⟨f, _, _, _, _, fault, _, rfl⟩ := foldFunctions_eq_error h
  obtain ⟨herror, hcode | hcode⟩ := fault.diagnostic_spec f.name
  · exact ⟨herror, by rw [hcode]; rintro ⟨⟩⟩
  · exact ⟨herror, by rw [hcode]; rintro ⟨⟩⟩

end Program

namespace Compilation

/-- A pass that reports an error ends the run; the others follow on one that does not. -/
theorem runPasses_cons (c : Compilation) (pass : Pass) (rest : List Pass) :
    c.runPasses (pass :: rest) =
      if (c.perform pass).2.any Diagnostic.isError then
        { compilation := (c.perform pass).1.record (c.perform pass).2
          reports := [{ pass, diagnostics := (c.perform pass).2 }], failing := some pass }
      else
        let r := ((c.perform pass).1.record (c.perform pass).2).runPasses rest
        { r with reports := { pass, diagnostics := (c.perform pass).2 } :: r.reports } :=
  rfl

/-- How a run on a new compilation of a program can end: its goal, the pass that has failed,
and what is left behind. -/
inductive Ending (p : Program) : Pass → Option Pass → Compilation → Prop
  | unmeasured {terminal : Pass} {d : Diagnostic} :
      p.extents = .error d →
      Ending p terminal (some .extentAnalysis)
        { program := p, diagnostics := [d], hasError := true }
  | measured {t : ExtentTable} :
      p.extents = .ok t →
      Ending p .extentAnalysis none { program := p, extents := some t }
  | halted {terminal : Pass} {t : ExtentTable} {q : Program} {s : ShapeSummary}
      {fault : DomainFault} :
      terminal ≠ .extentAnalysis →
      p.extents = .ok t →
      p.inferShapes t = (q, s, some fault) →
      Ending p terminal (some .shapeInference)
        { program := q, extents := some t, shapes := some s, diagnostics := [fault.diagnostic],
          hasError := true }
  | shaped {t : ExtentTable} {q : Program} {s : ShapeSummary} :
      p.extents = .ok t →
      p.inferShapes t = (q, s, none) →
      Ending p .shapeInference none { program := q, extents := some t, shapes := some s }
  | uncertified {t : ExtentTable} {q : Program} {s : ShapeSummary} {d : Diagnostic} :
      p.extents = .ok t →
      p.inferShapes t = (q, s, none) →
      q.certificateDiagnostics q.certify = [d] →
      Ending p .verification (some .verification)
        { program := q, extents := some t, shapes := some s, certificate := some q.certify,
          diagnostics := [d], hasError := true }
  | certified {t : ExtentTable} {q : Program} {s : ShapeSummary} :
      p.extents = .ok t →
      p.inferShapes t = (q, s, none) →
      q.certificateDiagnostics q.certify = [] →
      Ending p .verification none
        { program := q, extents := some t, shapes := some s, certificate := some q.certify }

/-- A run leaves the program as it was, or as inference has left it. -/
theorem Ending.program {p : Program} {terminal : Pass} {failing : Option Pass} {c : Compilation}
    (h : Ending p terminal failing c) :
    c.program = p ∨ ∃ t, c.program = (p.inferShapes t).1 := by
  cases h with
  | unmeasured => exact .inl rfl
  | measured => exact .inl rfl
  | halted _ _ hinfer => exact .inr ⟨_, by rw [hinfer]⟩
  | shaped _ hinfer => exact .inr ⟨_, by rw [hinfer]⟩
  | uncertified _ hinfer => exact .inr ⟨_, by rw [hinfer]⟩
  | certified _ hinfer => exact .inr ⟨_, by rw [hinfer]⟩

section Endings

variable {c c' : Compilation} {pass : Pass} {d : Diagnostic} {p q : Program} {t : ExtentTable}
  {s : ShapeSummary}

theorem runPasses_of_error (rest : List Pass)
    (h : c.perform pass = (c', [d]))
    (hd : d.isError = true) :
    (c.runPasses (pass :: rest)).failing = some pass ∧
      (c.runPasses (pass :: rest)).compilation =
        { c' with diagnostics := c'.diagnostics ++ [d], hasError := true } := by
  rw [runPasses_cons, h]
  simp [hd, record]

/-- A pass that has nothing to report leaves no trace in the diagnostics. -/
theorem runPasses_of_quiet (rest : List Pass) (h : c.perform pass = (c', [])) :
    (c.runPasses (pass :: rest)).failing = (c'.runPasses rest).failing ∧
      (c.runPasses (pass :: rest)).compilation = (c'.runPasses rest).compilation := by
  have hrecord : c'.record [] = c' := by simp [record]
  rw [runPasses_cons, h]
  simp [hrecord]

/-- Verification reports one error or nothing. -/
theorem ending_of_verification
    (ht : p.extents = .ok t)
    (hinfer : p.inferShapes t = (q, s, none))
    (hc : c = { program := q, extents := some t, shapes := some s }) :
    Ending p .verification (c.runPasses [.verification]).failing
      (c.runPasses [.verification]).compilation := by
  have hperform : c.perform .verification =
      ({ c with certificate := some q.certify }, q.certificateDiagnostics q.certify) := by
    subst hc
    rfl
  cases hpass : q.certify.allPass with
  | true =>
      have hnone : q.certificateDiagnostics q.certify = [] := by
        rw [Program.certificateDiagnostics, if_pos hpass]
      rw [hnone] at hperform
      obtain ⟨hfailing, hcompilation⟩ := runPasses_of_quiet [] hperform
      rw [hfailing, hcompilation, hc]
      exact .certified ht hinfer hnone
  | false =>
      obtain ⟨d, hd, herror⟩ : ∃ d, q.certificateDiagnostics q.certify = [d] ∧
          d.isError = true := by
        rw [Program.certificateDiagnostics, hpass]
        exact ⟨_, rfl, rfl⟩
      rw [hd] at hperform
      obtain ⟨hfailing, hcompilation⟩ := runPasses_of_error [] hperform herror
      rw [hfailing, hcompilation, hc]
      exact .uncertified ht hinfer hd

/-- Inference reports one error or nothing. -/
theorem ending_of_inference {terminal : Pass} {rest : List Pass}
    (hrest : (terminal = .shapeInference ∧ rest = []) ∨
      (terminal = .verification ∧ rest = [.verification]))
    (ht : p.extents = .ok t)
    (hc : c = { program := p, extents := some t }) :
    Ending p terminal (c.runPasses (.shapeInference :: rest)).failing
      (c.runPasses (.shapeInference :: rest)).compilation := by
  rcases hinfer : p.inferShapes t with ⟨q, s, fault?⟩
  have hperform : c.perform .shapeInference =
      ({ program := q, extents := some t, shapes := some s },
        fault?.toList.map DomainFault.diagnostic) := by
    simp [hc, perform, hinfer]
  cases fault? with
  | some fault =>
      obtain ⟨hfailing, hcompilation⟩ :=
        runPasses_of_error rest hperform fault.diagnostic_spec.1
      have hterminal : terminal ≠ .extentAnalysis := by
        rcases hrest with ⟨rfl, _⟩ | ⟨rfl, _⟩
        · decide
        · decide
      rw [hfailing, hcompilation]
      exact .halted hterminal ht hinfer
  | none =>
      obtain ⟨hfailing, hcompilation⟩ := runPasses_of_quiet rest hperform
      rw [hfailing, hcompilation]
      rcases hrest with ⟨rfl, rfl⟩ | ⟨rfl, rfl⟩
      · exact .shaped ht hinfer
      · exact ending_of_verification ht hinfer rfl

end Endings

/-- Extent analysis reports one error or nothing, and the other passes follow. -/
theorem ending_of_run (p : Program) (terminal : Pass) :
    Ending p terminal (Compilation.run { program := p } terminal).failing
      (Compilation.run { program := p } terminal).compilation := by
  obtain ⟨rest, hrequired⟩ : ∃ rest, terminal.required = .extentAnalysis :: rest := by
    cases terminal with
    | extentAnalysis => exact ⟨_, Pass.required_extentAnalysis⟩
    | shapeInference => exact ⟨_, Pass.required_shapeInference⟩
    | verification => exact ⟨_, Pass.required_verification⟩
  rw [run, hrequired]
  cases ht : p.extents with
  | error d =>
      have hperform : Compilation.perform { program := p } .extentAnalysis =
          ({ program := p }, [d]) := by
        rw [perform, ht]
      obtain ⟨hfailing, hcompilation⟩ :=
        runPasses_of_error rest hperform (Program.extents_eq_error ht).1
      rw [hfailing, hcompilation]
      exact .unmeasured ht
  | ok t =>
      have hperform : Compilation.perform { program := p } .extentAnalysis =
          ({ program := p, extents := some t }, []) := by
        rw [perform, ht]
      obtain ⟨hfailing, hcompilation⟩ := runPasses_of_quiet rest hperform
      rw [hfailing, hcompilation]
      cases terminal with
      | extentAnalysis =>
          obtain rfl := (List.cons.inj (hrequired.symm.trans Pass.required_extentAnalysis)).2
          exact .measured ht
      | shapeInference =>
          obtain rfl := (List.cons.inj (hrequired.symm.trans Pass.required_shapeInference)).2
          exact ending_of_inference (Or.inl ⟨rfl, rfl⟩) ht rfl
      | verification =>
          obtain rfl := (List.cons.inj (hrequired.symm.trans Pass.required_verification)).2
          exact ending_of_inference (Or.inr ⟨rfl, rfl⟩) ht rfl

/-- A run towards verification that ends without error has inferred all domains. -/
theorem of_run_verification {p : Program}
    (h : (Compilation.run { program := p } .verification).failing = none) :
    ∃ t s, p.extents = .ok t ∧
      p.inferShapes t =
        ((Compilation.run { program := p } .verification).compilation.program, s, none) := by
  have hending := ending_of_run p .verification
  rw [h] at hending
  generalize (Compilation.run { program := p } .verification).compilation = c at hending ⊢
  cases hending with
  | certified ht hinfer _ => exact ⟨_, _, ht, hinfer⟩

/-- The extents that are found stay in the compilation. -/
theorem extents_of_run_verification {p : Program} {t : ExtentTable}
    (ht : p.extents = .ok t)
    (h : (Compilation.run { program := p } .verification).failing = none) :
    (Compilation.run { program := p } .verification).compilation.extents = some t := by
  have hending := ending_of_run p .verification
  rw [h] at hending
  generalize (Compilation.run { program := p } .verification).compilation = c at hending ⊢
  cases hending with
  | certified ht' _ _ => rw [Except.ok.inj (ht.symm.trans ht')]

/-- What a run on a program can report. -/
inductive Reports (p : Program) (d : Diagnostic) : Prop
  | extents :
      p.extents = .error d →
      Reports p d
  | domain {t : ExtentTable} {q : Program} {s : ShapeSummary} {fault : DomainFault} :
      p.extents = .ok t →
      p.inferShapes t = (q, s, some fault) →
      d = fault.diagnostic →
      Reports p d
  | certificate {t : ExtentTable} {q : Program} {s : ShapeSummary} :
      p.extents = .ok t →
      p.inferShapes t = (q, s, none) →
      d ∈ q.certificateDiagnostics q.certify →
      Reports p d

/-- A run reports nothing else than its passes. -/
theorem reports_of_run {p : Program} {terminal : Pass} {d : Diagnostic}
    (h : d ∈ (Compilation.run { program := p } terminal).compilation.diagnostics) :
    Reports p d := by
  have hending := ending_of_run p terminal
  generalize (Compilation.run { program := p } terminal).failing = failing at hending
  generalize (Compilation.run { program := p } terminal).compilation = c at h hending
  cases hending with
  | unmeasured hextents =>
      obtain rfl := List.mem_singleton.1 h
      exact .extents hextents
  | measured _ => cases h
  | halted _ ht hinfer => exact .domain ht hinfer (List.mem_singleton.1 h)
  | shaped _ _ => cases h
  | uncertified ht hinfer hd =>
      rw [← hd] at h
      exact .certificate ht hinfer h
  | certified _ _ _ => cases h

end Compilation
end StencilShapes
