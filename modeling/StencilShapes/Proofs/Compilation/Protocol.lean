import StencilShapes.Proofs.Compilation.Pipeline
import StencilShapes.Proofs.Domain.Effects

/-!
# The protocol of a run

A run performs passes one after the other.  Each one leaves its artifacts and hands in a
report; the diagnostics of the report are kept, and an error among them ends the run.  So the
reports tell which passes were performed, what was added to the diagnostics and how the run
has ended, whatever the compilation held before.

On a new compilation the passes before the last one have nothing to report.  So there is one
diagnostic at most, and what is left behind depends on the pass that has failed.

Nothing is asked of the program: it need not be built by calls, and it may have been compiled
before.

**Results.**
* `Compilation.has_outputs_perform`, `Program.ListsCommits.inferOp`: what one step leaves.
* `Compilation.course_of_runPasses`: the reports of a run.
* `Compilation.Ending.leaves`: what a run on a new compilation leaves behind.
* `Compilation.run_follows_protocol`: the protocol of a run.
-/

namespace StencilShapes

namespace Program

/-- What is listed has been committed, and nothing else. -/
structure ListsCommits (p : Program) (listed : List Inferred) (q : Program) : Prop where
  once : (listed.map Inferred.op).Nodup
  /-- What is listed had no bounds and has got those of its entry. -/
  committed : ∀ i ∈ listed, p.boundsOf i.op = none ∧ q.boundsOf i.op = some i.bounds
  changed_iff : ∀ x, q.boundsOf x ≠ p.boundsOf x ↔ ∃ i ∈ listed, i.op = x

namespace ListsCommits

variable {p q q' : Program} {listed : List Inferred}

theorem refl (p : Program) : p.ListsCommits [] p :=
  ⟨List.nodup_nil, List.forall_mem_nil _, fun x => by simp⟩

/-- A visit commits the operation that it lists, which nothing has listed before. -/
theorem inferOp {t : ExtentTable} {name : String} {o : Operation} {i : Inferred}
    (h : p.ListsCommits listed q)
    (hok : q.inferOp t name o = .ok (q', i)) :
    p.ListsCommits (listed ++ [i]) q' := by
  obtain ⟨b, shape, q₁, _, _, hcommit, _, hi⟩ := inferOp_eq_ok.1 hok
  have hop : o.id = i.op := by rw [hi]
  have hbounds := (inferOp_spec hok).2
  rw [hop] at hbounds hcommit
  have hfree : q.boundsOf i.op = none := boundsOf_eq_none_of_commit hcommit
  have hnew : ∀ j ∈ listed, j.op ≠ i.op := by
    intro j hj heq
    have hknown := (h.committed j hj).2
    rw [heq, hfree] at hknown
    cases hknown
  have hfirst : p.boundsOf i.op = none := by
    by_contra hne
    obtain ⟨j, hj, heq⟩ := (h.changed_iff i.op).1 fun heq => hne (heq ▸ hfree)
    exact hnew j hj heq
  constructor
  case once =>
    rw [List.map_append, List.nodup_append]
    refine ⟨h.once, List.nodup_singleton _, fun x hx y hy => ?_⟩
    obtain ⟨j, hj, rfl⟩ := List.mem_map.1 hx
    obtain rfl := List.mem_singleton.1 hy
    exact hnew j hj
  case committed =>
    intro j hj
    rcases List.mem_append.1 hj with hj | hj
    · rw [hbounds, if_neg (hnew j hj)]
      exact h.committed j hj
    · obtain rfl := List.mem_singleton.1 hj
      exact ⟨hfirst, by rw [hbounds, if_pos rfl]⟩
  case changed_iff =>
    intro x
    rw [hbounds]
    by_cases hx : x = i.op
    · subst hx
      rw [if_pos rfl, hfirst]
      exact iff_of_true (Option.some_ne_none _)
        ⟨i, List.mem_append_right _ List.mem_cons_self, rfl⟩
    · rw [if_neg hx, h.changed_iff]
      constructor
      · rintro ⟨j, hj, rfl⟩
        exact ⟨j, List.mem_append_left _ hj, rfl⟩
      · rintro ⟨j, hj, rfl⟩
        rcases List.mem_append.1 hj with hj | hj
        · exact ⟨j, hj, rfl⟩
        · obtain rfl := List.mem_singleton.1 hj
          exact absurd rfl hx

end ListsCommits

/-- Inference lists what it commits, in any program and however it ends. -/
theorem listsCommits_of_inferShapes (p : Program) (t : ExtentTable) :
    p.ListsCommits (p.inferShapes t).2.1.inferred (p.inferShapes t).1 :=
  inferShapes_lists (ListsCommits.refl p) fun h _ hok => h.inferOp hok

end Program

/-- No pass is asked for twice. -/
theorem Pass.nodup_required (p : Pass) : p.required.Nodup := by
  cases p with
  | extentAnalysis =>
      rw [required_extentAnalysis]
      decide
  | shapeInference =>
      rw [required_shapeInference]
      decide
  | verification =>
      rw [required_verification]
      decide

/-- A report with an error. -/
def PassReport.Fails (r : PassReport) : Prop :=
  ∃ d ∈ r.diagnostics, d.isError = true

theorem PassReport.fails_iff {r : PassReport} :
    r.Fails ↔ r.diagnostics.any Diagnostic.isError = true :=
  List.any_eq_true.symm

namespace Compilation

/-- An artifact is there. -/
def has (c : Compilation) : Artifact → Bool
  | .extents => c.extents.isSome
  | .shapes => c.shapes.isSome
  | .certificate => c.certificate.isSome

/-- The passes of the reports were performed in this order, each on what the one before had
left, and what they reported was kept. -/
inductive Performs : Compilation → List PassReport → Compilation → Prop
  | nil (c : Compilation) :
      Performs c [] c
  | cons {c c' c'' : Compilation} {r : PassReport} {rs : List PassReport} :
      c.perform r.pass = (c', r.diagnostics) →
      Performs (c'.record r.diagnostics) rs c'' →
      Performs c (r :: rs) c''

section Steps

variable {c c' : Compilation} {pass : Pass} {ds : List Diagnostic} {a : Artifact}

/-- Keeping diagnostics leaves the artifacts alone. -/
theorem has_record (c : Compilation) (ds : List Diagnostic) (a : Artifact) :
    (c.record ds).has a = c.has a := by
  cases a <;> rfl

/-- A pass does not touch what earlier ones have reported. -/
theorem diagnostics_perform (h : c.perform pass = (c', ds)) :
    c'.diagnostics = c.diagnostics ∧ c'.hasError = c.hasError := by
  cases pass with
  | extentAnalysis =>
      rw [perform] at h
      split at h
      · cases h
        exact ⟨rfl, rfl⟩
      · cases h
        exact ⟨rfl, rfl⟩
  | shapeInference =>
      cases h
      exact ⟨rfl, rfl⟩
  | verification =>
      cases h
      exact ⟨rfl, rfl⟩

/-- What is there stays there, or is replaced. -/
theorem has_perform (h : c.perform pass = (c', ds)) (ha : c.has a = true) : c'.has a = true := by
  cases pass with
  | extentAnalysis =>
      rw [perform] at h
      split at h
      · cases h
        cases a with
        | extents => rfl
        | shapes => exact ha
        | certificate => exact ha
      · cases h
        exact ha
  | shapeInference =>
      cases h
      cases a with
      | extents => rfl
      | shapes => rfl
      | certificate => exact ha
  | verification =>
      cases h
      cases a with
      | extents => exact ha
      | shapes => exact ha
      | certificate => rfl

/-- A pass that reports no error leaves its artifacts. -/
theorem has_outputs_perform (h : c.perform pass = (c', ds))
    (hok : ds.any Diagnostic.isError = false)
    (ha : a ∈ pass.outputs) :
    c'.has a = true := by
  cases pass with
  | extentAnalysis =>
      obtain rfl := List.mem_singleton.1 ha
      rw [perform] at h
      split at h
      · cases h
        rfl
      · next d hextents =>
          cases h
          rw [List.any_cons, (Program.extents_eq_error hextents).1] at hok
          cases hok
  | shapeInference =>
      obtain rfl := List.mem_singleton.1 ha
      cases h
      rfl
  | verification =>
      obtain rfl := List.mem_singleton.1 ha
      cases h
      rfl

end Steps

namespace Performs

variable {c c' : Compilation} {rs : List PassReport} {r : PassReport} {a : Artifact}

theorem diagnostics (h : Performs c rs c') :
    c'.diagnostics = c.diagnostics ++ rs.flatMap PassReport.diagnostics := by
  induction h with
  | nil c => rw [List.flatMap_nil, List.append_nil]
  | cons hstep _ ih =>
      rw [ih, record, (diagnostics_perform hstep).1, List.flatMap_cons, List.append_assoc]

theorem hasError_iff (h : Performs c rs c') :
    c'.hasError = true ↔ c.hasError = true ∨ ∃ r ∈ rs, r.Fails := by
  induction h with
  | nil c => simp
  | @cons c c' c'' r rs hstep _ ih =>
      have hrecord : (c'.record r.diagnostics).hasError = true ↔ c.hasError = true ∨ r.Fails := by
        rw [record, (diagnostics_perform hstep).2, Bool.or_eq_true, PassReport.fails_iff]
      rw [ih, hrecord, or_assoc, List.exists_mem_cons_iff]

theorem has (h : Performs c rs c') (ha : c.has a = true) : c'.has a = true := by
  induction h with
  | nil c => exact ha
  | cons hstep _ ih =>
      refine ih ?_
      rw [has_record]
      exact has_perform hstep ha

/-- The artifacts of the passes that have reported no error. -/
theorem has_outputs (h : Performs c rs c')
    (hr : r ∈ rs)
    (hok : ¬ r.Fails)
    (ha : a ∈ r.pass.outputs) :
    c'.has a = true := by
  induction h with
  | nil c => cases hr
  | cons hstep hrest ih =>
      rcases List.mem_cons.1 hr with rfl | hr
      · rw [PassReport.fails_iff, Bool.not_eq_true] at hok
        refine hrest.has ?_
        rw [has_record]
        exact has_outputs_perform hstep hok ha
      · exact ih hr

end Performs

/-- The course of a run: it performs the passes in order until one of them fails. -/
structure Course (c : Compilation) (passes : List Pass) (r : PassRun) : Prop where
  performs : Performs c r.reports r.compilation
  initial : r.reports.map PassReport.pass <+: passes
  complete : r.failing = none → r.reports.map PassReport.pass = passes
  succeeds_iff : r.failing = none ↔ ∀ x ∈ r.reports, ¬ x.Fails
  /-- The pass that has failed is the last one. -/
  fails_iff : ∀ pass, r.failing = some pass ↔
    ∃ x, r.reports.getLast? = some x ∧ x.pass = pass ∧ x.Fails
  /-- Nothing is performed after an error. -/
  earlier : ∀ x ∈ r.reports.dropLast, ¬ x.Fails

namespace Course

variable {c c' : Compilation} {pass : Pass} {rest : List Pass} {x : PassReport} {r : PassRun}

theorem done (c : Compilation) :
    Course c [] { compilation := c, reports := [], failing := none } := by
  refine ⟨.nil c, List.prefix_refl _, fun _ => rfl, by simp, fun pass => by simp, ?_⟩
  exact List.forall_mem_nil _

/-- A pass that fails ends the run. -/
theorem stop
    (hstep : c.perform x.pass = (c', x.diagnostics))
    (hfails : x.Fails) :
    Course c (x.pass :: rest)
      { compilation := c'.record x.diagnostics, reports := [x], failing := some x.pass } := by
  refine ⟨.cons hstep (.nil _), ⟨rest, rfl⟩, ?_, ?_, fun pass => ?_, List.forall_mem_nil _⟩
  · rintro ⟨⟩
  · simp [hfails]
  · simp [hfails]

/-- A pass that does not fail comes before those that follow. -/
theorem cons
    (hstep : c.perform x.pass = (c', x.diagnostics))
    (hok : ¬ x.Fails)
    (h : Course (c'.record x.diagnostics) rest r) :
    Course c (x.pass :: rest) { r with reports := x :: r.reports } := by
  constructor
  case performs => exact .cons hstep h.performs
  case initial => exact (List.prefix_cons_inj x.pass).2 h.initial
  case complete => exact fun hnone => congrArg (x.pass :: ·) (h.complete hnone)
  case succeeds_iff =>
    rw [List.forall_mem_cons, and_iff_right hok]
    exact h.succeeds_iff
  case fails_iff =>
    intro pass
    rw [show r.failing = some pass ↔ _ from h.fails_iff pass]
    cases hreports : r.reports with
    | nil => simp [hok]
    | cons y ys => rw [List.getLast?_cons_cons]
  case earlier =>
    cases hreports : r.reports with
    | nil => exact List.forall_mem_nil _
    | cons y ys =>
        rw [List.dropLast_cons_cons, ← hreports]
        exact List.forall_mem_cons.2 ⟨hok, h.earlier⟩

end Course

/-- Every run takes its course, whatever the compilation holds. -/
theorem course_of_runPasses (passes : List Pass) :
    ∀ c : Compilation, Course c passes (c.runPasses passes) := by
  induction passes with
  | nil => exact Course.done
  | cons pass rest ih =>
      intro c
      let x : PassReport := { pass, diagnostics := (c.perform pass).2 }
      rw [runPasses_cons]
      split
      · next herror => exact Course.stop (x := x) rfl (PassReport.fails_iff.2 herror)
      · next hok => exact Course.cons (x := x) rfl (mt PassReport.fails_iff.1 hok) (ih _)

/-- What the reports of a run tell: the passes it performed, each once and in order; what was
added to the diagnostics; and how the run has ended. -/
structure Protocol (c : Compilation) (terminal : Pass) (r : PassRun) : Prop
    extends Course c terminal.required r where
  once : (r.reports.map PassReport.pass).Nodup
  diagnostics : r.compilation.diagnostics =
    c.diagnostics ++ r.reports.flatMap PassReport.diagnostics
  hasError_iff : r.compilation.hasError = true ↔
    c.hasError = true ∨ ∃ x ∈ r.reports, x.Fails
  artifacts : r.failing = none →
    ∀ pass ∈ terminal.required, ∀ a ∈ pass.outputs, r.compilation.has a = true
  flagged : ∀ pass, r.failing = some pass → r.compilation.hasError = true

/-- What a run on a new compilation of a program leaves behind: one diagnostic at most, and
the artifacts of the passes before the one that has failed. -/
structure Leaves (p : Program) (r : PassRun) : Prop where
  single : r.compilation.diagnostics.length ≤ 1
  unmeasured : r.failing = some .extentAnalysis →
    r.compilation.program = p ∧ r.compilation.extents = none ∧
      r.compilation.shapes = none ∧ r.compilation.certificate = none
  halted : r.failing = some .shapeInference →
    ∃ t s, p.extents = .ok t ∧ r.compilation.extents = some t ∧
      r.compilation.shapes = some s ∧ p.ListsCommits s.inferred r.compilation.program ∧
      r.compilation.certificate = none

theorem protocol_of_run (c : Compilation) (terminal : Pass) :
    Protocol c terminal (c.run terminal) := by
  have h : Course c terminal.required (c.run terminal) := course_of_runPasses _ c
  constructor
  case toCourse => exact h
  case once => exact h.initial.sublist.nodup terminal.nodup_required
  case diagnostics => exact h.performs.diagnostics
  case hasError_iff => exact h.performs.hasError_iff
  case artifacts =>
    intro hnone pass hpass a ha
    rw [← h.complete hnone] at hpass
    obtain ⟨x, hx, rfl⟩ := List.mem_map.1 hpass
    exact h.performs.has_outputs hx (h.succeeds_iff.1 hnone x hx) ha
  case flagged =>
    intro pass hsome
    obtain ⟨x, hlast, -, hfails⟩ := (h.fails_iff pass).1 hsome
    exact h.performs.hasError_iff.2 (Or.inr ⟨x, List.mem_of_getLast? hlast, hfails⟩)

theorem Ending.leaves {p : Program} {terminal : Pass} {r : PassRun}
    (h : Ending p terminal r.failing r.compilation) :
    Leaves p r := by
  obtain ⟨c, reports, failing⟩ := r
  constructor
  case single => cases h <;> simp
  case unmeasured =>
    rintro rfl
    cases h with
    | unmeasured _ => exact ⟨rfl, rfl, rfl, rfl⟩
  case halted =>
    rintro rfl
    cases h with
    | @halted _ t q s fault _ ht hinfer =>
        have hlists := p.listsCommits_of_inferShapes t
        rw [hinfer] at hlists
        exact ⟨t, s, ht, rfl, rfl, hlists, rfl⟩

/-- Every run follows the protocol, on whatever compilation.  On a new one it leaves one
diagnostic at most, and what it leaves tells which pass has failed. -/
theorem run_follows_protocol (terminal : Pass) :
    (∀ c : Compilation, Protocol c terminal (c.run terminal)) ∧
      ∀ p : Program, Leaves p (Compilation.run { program := p } terminal) :=
  ⟨fun c => protocol_of_run c terminal, fun p => (ending_of_run p terminal).leaves⟩

end Compilation
end StencilShapes
