import StencilShapes.Proofs.Compilation.Rerun
import StencilShapes.Proofs.Domain.OnlyShapes
import StencilShapes.Report
import Mathlib.Data.List.Flatten

/-!
# What the report on shapes says

Inference lists its commits in the order in which it makes them, and that order runs backwards
through each function.  The report goes through the functions and asks for each operation
whether its commit is listed.  Operations stand in one place only, so nothing is lost on the
way and nothing occurs twice, and what is listed is what the program says: also where functions
have the same name, and where a fault has ended the run.

**Results.**
* `ShapeSummary.map_op_report`, `ShapeSummary.exists_of_mem_report`: what is reported of some
  operations.
* `Program.Commits.perm_listed`: the commits, and the operations of functions that are listed.
* `Program.skipped_inferFunctions`: the functions that are passed over.
* `Description.report_mirrors_program`: the report on a run over an elaborated program.
-/

namespace StencilShapes

/-- What is reported of an operation is what the program says of it, and the shape is the
difference of the ends. -/
structure OpShape.Describes (x : OpShape) (q : Program) : Prop where
  op : ∃ o, q.op? x.op = some o ∧ x.name = o.kind.name ∧ o.kind.bounds? = some x.bounds ∧
    ∀ v ∈ o.results, ∃ e, q.typeOf v = .temp e (some x.shape)
  shape : x.bounds.lower.length = x.shape.length ∧ x.bounds.upper.length = x.shape.length ∧
    ∀ d < x.shape.length, x.shape.coord d = x.bounds.upper.coord d - x.bounds.lower.coord d

namespace ShapeSummary

variable {s : ShapeSummary} {q : Program} {us : List OpId}

/-- The commit of an operation is listed. -/
def lists (s : ShapeSummary) (u : OpId) : Bool :=
  s.inferred.any (·.op == u)

theorem lists_iff {u : OpId} : s.lists u = true ↔ ∃ i ∈ s.inferred, i.op = u := by
  simp [lists]

theorem opShape?_eq_some {o : Operation} {x : OpShape} (h : s.opShape? o = some x) :
    ∃ i ∈ s.inferred, i.op = o.id ∧
      x = { op := o.id, name := o.kind.name, bounds := i.bounds, shape := i.shape } := by
  obtain ⟨i, hfind, hx⟩ := Option.map_eq_some_iff.1 h
  have hop := List.find?_some hfind
  exact ⟨i, List.mem_of_find?_eq_some hfind, beq_iff_eq.1 hop, hx.symm⟩

/-- Something is reported of an operation exactly when its commit is listed. -/
theorem map_op_opShape? (o : Operation) :
    (s.opShape? o).map OpShape.op = if s.lists o.id then some o.id else none := by
  rw [opShape?]
  cases hfind : s.inferred.find? (·.op == o.id) with
  | none =>
      have hlists : ¬ s.lists o.id = true := by
        rw [lists_iff]
        rintro ⟨i, hi, hop⟩
        exact List.find?_eq_none.1 hfind i hi (beq_iff_eq.2 hop)
      rw [if_neg hlists]
      rfl
  | some i =>
      have hop := List.find?_some hfind
      rw [if_pos (lists_iff.2 ⟨i, List.mem_of_find?_eq_some hfind, beq_iff_eq.1 hop⟩)]
      rfl

/-- The operations that are reported are those that are listed, in the order of the program. -/
theorem map_op_report (hus : ∀ u ∈ us, ∃ o, q.op? u = some o ∧ o.id = u) :
    ((q.opsAt us).filterMap s.opShape?).map OpShape.op = us.filter s.lists := by
  rw [Program.opsAt, List.filterMap_filterMap, List.map_filterMap, ← List.filterMap_eq_filter]
  refine List.filterMap_congr fun u hu => ?_
  obtain ⟨o, ho, rfl⟩ := hus u hu
  rw [ho, Option.bind_some, map_op_opShape?]
  rfl

/-- What is reported of some operations is a commit of one of them. -/
theorem exists_of_mem_report {x : OpShape} (hx : x ∈ (q.opsAt us).filterMap s.opShape?) :
    ∃ o u, u ∈ us ∧ q.op? u = some o ∧ ∃ i ∈ s.inferred, i.op = o.id ∧
      x = { op := o.id, name := o.kind.name, bounds := i.bounds, shape := i.shape } := by
  obtain ⟨o, ho, hshape⟩ := List.mem_filterMap.1 hx
  obtain ⟨u, hu, hop⟩ := List.mem_filterMap.1 ho
  exact ⟨o, u, hu, hop, opShape?_eq_some hshape⟩

end ShapeSummary

/-- The entry of a function: it has the name of the function and lists some of its operations,
each once, as the program has them. -/
structure FunctionShapes.Mirrors (g : FunctionShapes) (q : Program) (f : Function)
    (listed : List OpId) : Prop where
  name : g.name = f.name
  ops : g.ops.map OpShape.op = listed
  once : listed.Nodup
  each : ∀ x ∈ g.ops, x.Describes q

namespace Program

variable {p q : Program} {t : ExtentTable} {s : ShapeSummary} {fault : Option DomainFault}
  {f : Function} {u : OpId}

/-- The operations among some that had no bounds and have some now, in order. -/
def committedIn (p q : Program) (us : List OpId) : List OpId :=
  us.filter fun u => (p.boundsOf u).isNone && (q.boundsOf u).isSome

/-- The stencil programs among the functions, in order. -/
def stencils (p : Program) : List Function :=
  p.functions.toList.filter (·.stencil)

theorem mem_stencils : f ∈ p.stencils ↔ f ∈ p.functions.toList ∧ f.stencil = true :=
  List.mem_filter

theorem Fresh.nodup_entries (h : p.Fresh) : p.entries.Nodup :=
  h.ordered.imp fun hlt heq => Nat.ne_of_lt hlt (congrArg OpId.index heq)

section Commits

variable (h : p.Commits s.inferred q)
include h

/-- What is listed is what has been committed. -/
theorem Commits.lists_iff :
    s.lists u = true ↔ p.boundsOf u = none ∧ ∃ b, q.boundsOf u = some b := by
  rw [ShapeSummary.lists_iff]
  constructor
  · rintro ⟨i, hi, rfl⟩
    exact ⟨(h.committed i hi).unbounded, i.bounds, (h.committed i hi).bounds⟩
  · rintro ⟨hnone, b, hb⟩
    by_contra hnot
    have hkeep := h.bounds u fun i hi hop => hnot ⟨i, hi, hop⟩
    rw [hkeep, hnone] at hb
    cases hb

theorem Commits.filter_lists (us : List OpId) : us.filter s.lists = p.committedIn q us := by
  refine List.filter_congr fun u _ => ?_
  rw [Bool.eq_iff_iff, h.lists_iff, Bool.and_eq_true, Option.isNone_iff_eq_none,
    Option.isSome_iff_exists]

/-- A commit says of an operation what the program says. -/
theorem Commits.describes {o : Operation} {i : Inferred}
    (hi : i ∈ s.inferred)
    (hu : q.op? u = some o)
    (hop : i.op = u) :
    OpShape.Describes { op := u, name := o.kind.name, bounds := i.bounds, shape := i.shape } q := by
  subst hop
  have hcommitted := h.committed i hi
  obtain ⟨o', ho', _, hresults⟩ := hcommitted.results
  obtain ⟨_, _, _, hsame⟩ := h.frame.op_eq ho' hu
  refine ⟨⟨o, hu, rfl, ?_, fun v hv => hresults v (hsame ▸ hv)⟩, hcommitted.shape⟩
  simpa [boundsOf, hu] using hcommitted.bounds

/-- The report has an entry for each stencil program, in order. -/
theorem Commits.functions_report :
    (s.report q).functions = p.stencils.map fun f =>
      { name := f.name, ops := (q.opsAt f.body).filterMap s.opShape? } := by
  rw [ShapeSummary.report, h.frame.functions]
  rfl

variable (hbuilt : p.Built)
include hbuilt

/-- The entry of a function, in a report on some commits. -/
theorem Commits.mirrors (hf : f ∈ p.functions.toList) :
    FunctionShapes.Mirrors { name := f.name, ops := (q.opsAt f.body).filterMap s.opShape? } q f
      (p.committedIn q f.body) := by
  have hentry : ∀ u ∈ f.body, u ∈ p.entries := fun u hu => List.mem_flatMap.2 ⟨f, hf, hu⟩
  have hbody : ∀ u ∈ f.body, ∃ o, q.op? u = some o ∧ o.id = u := fun u hu => by
    obtain ⟨o, ho, _⟩ := hbuilt.fresh.entry u (hentry u hu)
    obtain ⟨o', ho', hsame, _⟩ := h.frame.exists_op ho
    exact ⟨o', ho', hsame.trans (hbuilt.coherent.op_id ho)⟩
  constructor
  case name => rfl
  case ops => exact (ShapeSummary.map_op_report hbody).trans (h.filter_lists f.body)
  case once =>
    have hnodup : f.body.Nodup :=
      (List.nodup_flatMap.1 hbuilt.fresh.nodup_entries).1 f hf
    exact hnodup.filter _
  case each =>
    intro x hx
    obtain ⟨o, u, _, ho, i, hi, hop, rfl⟩ := ShapeSummary.exists_of_mem_report hx
    have hu : o.id = u := h.frame.op_id hbuilt.coherent.op_id ho
    exact h.describes hi (hu ▸ ho) hop

theorem Commits.forall₂_mirrors :
    List.Forall₂ (fun f g => FunctionShapes.Mirrors g q f (p.committedIn q f.body))
      p.stencils (s.report q).functions := by
  rw [h.functions_report, List.forall₂_map_right_iff, List.forall₂_same]
  exact fun f hf => h.mirrors hbuilt (mem_stencils.1 hf).1

variable
  (hplaces : ∀ i ∈ s.inferred, ∃ f ∈ p.functions.toList, f.stencil = true ∧ i.op ∈ f.body)
include hplaces

/-- The commits are those of the stencil programs, in another order. -/
theorem Commits.perm_listed :
    (p.stencils.flatMap fun f => p.committedIn q f.body).Perm (s.inferred.map Inferred.op) := by
  have hsublist : (p.stencils.flatMap fun f => p.committedIn q f.body).Sublist p.entries :=
    (List.Sublist.flatMap_right _ fun f _ => List.filter_sublist).trans
      (List.filter_sublist.flatMap _)
  refine (List.perm_ext_iff_of_nodup (hbuilt.fresh.nodup_entries.sublist hsublist) h.once).2
    fun u => ?_
  have hlisted : u ∈ s.inferred.map Inferred.op ↔ s.lists u = true := by
    rw [ShapeSummary.lists_iff, List.mem_map]
  rw [hlisted, List.mem_flatMap]
  simp only [← h.filter_lists, List.mem_filter]
  constructor
  · rintro ⟨f, _, _, hu⟩
    exact hu
  · intro hu
    obtain ⟨i, hi, rfl⟩ := ShapeSummary.lists_iff.1 hu
    obtain ⟨f, hf, hs, hmem⟩ := hplaces i hi
    exact ⟨f, mem_stencils.2 ⟨hf, hs⟩, hmem, hu⟩

/-- As many operations are reported as are listed. -/
theorem Commits.sum_ops_report :
    ((s.report q).functions.map (·.ops.length)).sum = s.inferred.length := by
  have hperm := (h.perm_listed hbuilt hplaces).length_eq
  rw [List.length_flatMap, List.length_map] at hperm
  rw [h.functions_report, List.map_map, ← hperm]
  refine congrArg List.sum (List.map_congr_left fun f hf => ?_)
  rw [← (h.mirrors hbuilt (mem_stencils.1 hf).1).ops, List.length_map]
  rfl

end Commits

/-- A run without fault passes over all functions that are no stencil programs. -/
theorem skipped_inferFunctions (fs : List Function) :
    ∀ p : Program, (p.inferFunctions t fs).1.fault = none →
      (p.inferFunctions t fs).2 = (fs.filter (!·.stencil)).map (·.name) := by
  induction fs with
  | nil => exact fun _ _ => rfl
  | cons f fs ih =>
      intro p hnone
      simp only [inferFunctions] at hnone ⊢
      split at hnone
      · next hs =>
          rw [if_pos hs, List.filter_cons_of_neg (by simp [hs])]
          split at hnone
          · next hfault =>
              rw [hfault] at hnone
              cases hnone
          · exact ih _ hnone
      · next hs =>
          rw [if_neg hs, List.filter_cons_of_pos (by simp [hs]), List.map_cons, ← ih p hnone]

theorem skipped_of_inferShapes (hrun : p.inferShapes t = (q, s, none)) :
    s.skipped = (p.functions.toList.filter (!·.stencil)).map (·.name) := by
  simp only [inferShapes, Prod.mk.injEq] at hrun
  obtain ⟨_, rfl, hnone⟩ := hrun
  exact skipped_inferFunctions p.functions.toList p hnone

/-- The loads and applies of a stencil program are all committed by a run without fault. -/
theorem committedIn_eq_inferablesIn
    (h : p.Built)
    (hrun : p.inferShapes t = (q, s, none))
    (hf : f ∈ p.stencils) :
    p.committedIn q f.body = p.inferablesIn f.body := by
  obtain ⟨hframe, hbounds⟩ := exists_bounds_of_inferShapes h hrun
  refine List.filter_congr fun u hu => ?_
  rw [Bool.eq_iff_iff, Bool.and_eq_true, Option.isNone_iff_eq_none, Option.isSome_iff_exists]
  obtain ⟨o, ho, hshaped⟩ := h.fresh.entry u
    (List.mem_flatMap.2 ⟨f, (mem_stencils.1 hf).1, hu⟩)
  rw [ho, Option.elim_some]
  constructor
  · rintro ⟨hnone, b, hb⟩
    rw [boundsOf, ho, Option.bind_some] at hnone
    cases hk : o.kind <;> simp_all [OpKind.bounds?, OpKind.isShaped, OpKind.isInferable]
  · intro hk
    refine ⟨?_, hbounds f (mem_stencils.1 hf).1 (mem_stencils.1 hf).2 u
      (mem_inferablesIn_iff.2 ⟨hu, o, ho, hk⟩)⟩
    rw [boundsOf, ho]
    exact h.fresh.unbounded ho hk

/-- What a report has to say about a run that has made the program `q` of `p`. -/
structure Reports (p q : Program) (s : ShapeSummary) (fault : Option DomainFault) : Prop where
  functions : List.Forall₂ (fun f g => g.Mirrors q f (p.committedIn q f.body))
    p.stencils (s.report q).functions
  count : ((s.report q).functions.map (·.ops.length)).sum = s.inferred.length
  complete : fault = none → ∀ f ∈ p.stencils, p.committedIn q f.body = p.inferablesIn f.body
  skipped : fault = none →
    (s.report q).skipped = (p.functions.toList.filter (!·.stencil)).map (·.name)

end Program

open Program

namespace Description

/-- However inference ends in an elaborated program, and with whatever extents, the report has
an entry for each stencil program, in order and with its name.  The entry lists just the
operations of that function that have been committed, in the order of the program and each of
them once, with the bounds that they have there, the difference of these and the shape of their
results.  As many operations are listed as the run has committed; if it has no fault, these are
all loads and applies of stencil programs, and all other functions are named as skipped. -/
theorem report_mirrors_program {d : Description} {p q : Program} {t : ExtentTable}
    {s : ShapeSummary} {fault : Option DomainFault}
    (h : d.elaborate = .ok p)
    (hrun : p.inferShapes t = (q, s, fault)) :
    p.Reports q s fault := by
  have hbuilt : p.Built := (sound_of_elaborate h).building
  have hdone := run_inferFunctions (t := t) hbuilt.coherent hbuilt.fresh p.functions.toList
    (Commits.start p)
  obtain ⟨hcommits, hplaces⟩ : p.Commits s.inferred q ∧
      ∀ i ∈ s.inferred, ∃ f ∈ p.functions.toList, f.stencil = true ∧ i.op ∈ f.body := by
    cases hrun
    exact ⟨hdone.commits, fun i hi => hdone.exists_stencil hi⟩
  constructor
  case functions => exact hcommits.forall₂_mirrors hbuilt
  case count => exact hcommits.sum_ops_report hbuilt hplaces
  case complete =>
    rintro rfl f hf
    exact committedIn_eq_inferablesIn hbuilt hrun hf
  case skipped =>
    rintro rfl
    exact skipped_of_inferShapes hrun

/-- A function that is no stencil program, and two stencil programs of one name; in the last one
nothing reads the first load. -/
def unread : Description :=
  let input : FieldDesc := { name := "in", element := .f64, rank := 1 }
  let write : OpDesc := .store "t" "in" [.ofInt64 0] [.ofInt64 8]
  { functions :=
      [{ name := "plain", stencil := false, args := [input], ops := [.load "t" "in"] },
        { name := "copy", stencil := true, args := [input], ops := [.load "t" "in", write] },
        { name := "copy", stencil := true, args := [input]
          ops := [.load "s" "in", .load "t" "in", write] }] }

/-- The program of these functions. -/
def unreadProgram : Program :=
  (elaborateFunctions {} unread.functions).1

theorem report_mirrors_program_unread :
    let run := unreadProgram.inferShapes .empty
    run.2.2.isSome ∧ unreadProgram.Reports run.1 run.2.1 run.2.2 ∧
      (run.2.1.report run.1).functions.map (fun g => (g.name, g.ops.map (·.op.index))) =
        [("copy", [1]), ("copy", [4])] := by
  intro run
  have helaborate : unread.elaborate = .ok unreadProgram := rfl
  have hreports : ∀ r, unreadProgram.inferShapes .empty = r →
      unreadProgram.Reports r.1 r.2.1 r.2.2 := fun r hr => report_mirrors_program helaborate hr
  exact ⟨by decide, hreports run rfl, by decide⟩

end Description
end StencilShapes
