import StencilShapes.Compilation.Basic
import StencilShapes.Proofs.Domain.Demand
import StencilShapes.Proofs.Domain.Typing
import StencilShapes.Proofs.Program.Built

/-!
# What a run of inference leaves behind

Inference visits the loads and applies of each stencil program from the last to the
first.  Each visit either commits the bounds of its operation and gives its results
their shape, or it fails and writes nothing.  So at any time the summary lists exactly
the operations whose bounds are not as they were built, and after a failure these are
all that the schedule has in front of the operation that failed.

Nothing is asked of the program but that calls have built it, and nothing at all of the
extents: values may flow between functions, and ranks may differ.

**Results.**
* `Program.Commits.step`: one visit.
* `Program.run_inferOps`, `Program.run_inferFunctions`: a run, and where it stops.
* `Program.inference_commits_suffix`: what inference leaves behind.
-/

namespace StencilShapes

/-- The name of the function and the operation of a commit. -/
def Inferred.entry (i : Inferred) : String × OpId :=
  (i.function, i.op)

namespace Program

/-- The loads and applies among some operations. -/
def inferablesIn (p : Program) (us : List OpId) : List OpId :=
  us.filter fun u => (p.op? u).elim false (·.kind.isInferable)

/-- The loads and applies of the stencil programs among some functions, with the names of
these, in the order in which they are visited. -/
def schedule (p : Program) : List Function → List (String × OpId)
  | [] => []
  | f :: fs =>
      (if f.stencil then (p.inferablesIn f.body.reverse).map (fun u => (f.name, u)) else []) ++
        p.schedule fs

/-- A commit that is in the program: the operation had no bounds, has those of the entry,
and its results are temps of just that size. -/
structure Committed (p q : Program) (i : Inferred) : Prop where
  unbounded : p.boundsOf i.op = none
  bounds : q.boundsOf i.op = some i.bounds
  /-- The shape is the difference of the ends. -/
  shape : i.bounds.lower.length = i.shape.length ∧ i.bounds.upper.length = i.shape.length ∧
    ∀ d < i.shape.length, i.shape.coord d = i.bounds.upper.coord d - i.bounds.lower.coord d
  nonempty : i.shape ≠ []
  positive : ∀ c ∈ i.shape, 1 ≤ c.val
  results : ∃ o, p.op? i.op = some o ∧ o.kind.isInferable = true ∧
    ∀ v ∈ o.results, ∃ e, q.typeOf v = .temp e (some i.shape)

/-- The listed commits are in the program, and nothing else has been committed. -/
structure Commits (p : Program) (listed : List Inferred) (q : Program) : Prop where
  frame : p.SameFrame q
  once : (listed.map Inferred.op).Nodup
  committed : ∀ i ∈ listed, p.Committed q i
  bounds : ∀ x, (∀ i ∈ listed, i.op ≠ x) → q.boundsOf x = p.boundsOf x
  types : ∀ v, p.Flows v → (∀ i ∈ listed, ∀ o, p.op? i.op = some o → v ∉ o.results) →
    q.typeOf v = p.typeOf v

section Steps

variable {p q q' : Program} {t : ExtentTable} {listed : List Inferred} {x : OpId}
  {o o' : Operation} {i : Inferred} {name : String}

theorem sizes_of_shape? {b : Bounds} {shape : Point} (h : b.shape? = some shape) :
    b.lower.length = shape.length ∧ b.upper.length = shape.length ∧
      ∀ d < shape.length, shape.coord d = b.upper.coord d - b.lower.coord d := by
  have hsub : Point.sub b.upper b.lower = .ok shape := by
    unfold Bounds.shape? at h
    split at h
    · next heq =>
        cases h
        exact heq
    · cases h
  obtain ⟨hl, hlen, hcoord⟩ := Point.sub_eq_ok.1 hsub
  exact ⟨(hlen.trans hl).symm, hlen.symm, fun d hd => hcoord d (hlen ▸ hd)⟩

theorem Commits.start (p : Program) : p.Commits [] p where
  frame := SameFrame.refl p
  once := List.nodup_nil
  committed i hi := by cases hi
  bounds _ _ := rfl
  types _ _ _ := rfl

/-- What has been committed stays so when another operation gets its bounds and the types
of its results. -/
theorem Committed.mono {j : Inferred}
    (h : p.Committed q j)
    (hc : p.Coherent)
    (hbounds : q'.boundsOf j.op = q.boundsOf j.op)
    (htypes : ∀ v, p.Flows v → v ∉ o.results → q'.typeOf v = q.typeOf v)
    (ho : p.op? x = some o)
    (hne : j.op ≠ x) :
    p.Committed q' j := by
  obtain ⟨oj, hoj, hk, hres⟩ := h.results
  refine ⟨h.unbounded, hbounds.trans h.bounds, h.shape, h.nonempty, h.positive, oj, hoj, hk,
    fun v hv => ?_⟩
  rw [htypes v (hc.flows hoj hv) (hc.not_mem_results hoj ho hv hne)]
  exact hres v hv

/-- A visit that goes on commits its operation and touches nothing else. -/
theorem Commits.step
    (h : p.Commits listed q)
    (hc : p.Coherent)
    (hf : p.Fresh)
    (ho : p.op? x = some o)
    (hk : o.kind.isInferable = true)
    (ho' : q.op? x = some o')
    (hok : q.inferOp t name o' = .ok (q', i)) :
    p.Commits (listed ++ [i]) q' ∧ i.entry = (name, x) := by
  obtain ⟨_, _, _, hresults⟩ := h.frame.op_eq ho ho'
  have hx : o'.id = x := h.frame.op_id hc.op_id ho'
  obtain ⟨hframe, hbounds⟩ := inferOp_spec hok
  obtain ⟨b, shape, p', _, hshape, hcommit, rfl, rfl⟩ := inferOp_eq_ok.1 hok
  simp only [hx, hresults] at hbounds hcommit hframe ⊢
  have hfree : q.boundsOf x = none := boundsOf_eq_none_of_commit hcommit
  have hnew : ∀ j ∈ listed, j.op ≠ x := by
    rintro j hj rfl
    rw [(h.committed j hj).bounds] at hfree
    cases hfree
  have huntyped : ∀ v ∈ o.results, ∃ e, q.typeOf v = .temp e none := by
    intro v hv
    obtain ⟨e, he⟩ := hf.untyped ho hk v hv
    refine ⟨e, (h.types v (hc.flows ho hv) fun j hj oj hoj => ?_).trans he⟩
    exact hc.not_mem_results ho hoj hv (hnew j hj).symm
  obtain ⟨hin, hout⟩ := Typed.typeOf_retypeResults hc shape
    (h.frame.trans (sameFrame_commit hcommit)) fun v hv => ⟨hc.flows ho hv, by
      rw [typeOf_commit hcommit]
      exact (huntyped v hv).imp fun e he => ⟨none, he⟩⟩
  rw [typeOf_commit hcommit] at hout
  refine ⟨?_, rfl⟩
  constructor
  case frame => exact h.frame.trans hframe
  case once =>
    rw [List.map_append, List.nodup_append]
    refine ⟨h.once, by simp, fun y hy z hz => ?_⟩
    obtain ⟨j, hj, rfl⟩ := List.mem_map.1 hy
    obtain rfl := List.mem_singleton.1 hz
    exact hnew j hj
  case committed =>
    intro j hj
    rcases List.mem_append.1 hj with hj | hj
    · exact (h.committed j hj).mono hc (by rw [hbounds, if_neg (hnew j hj)]) hout ho (hnew j hj)
    · obtain rfl := List.mem_singleton.1 hj
      obtain ⟨hsub, hne, hpos⟩ := shape_of_domainShape hshape
      refine ⟨?_, by rw [hbounds, if_pos rfl], sizes_of_shape? hsub, hne, hpos, o, ho, hk, hin⟩
      rw [← hfree]
      exact (h.bounds x hnew).symm
  case bounds =>
    intro y hy
    have hyx : y ≠ x := fun he => hy _ (List.mem_append_right _ List.mem_cons_self) he.symm
    rw [hbounds, if_neg hyx]
    exact h.bounds y fun j hj => hy j (List.mem_append_left _ hj)
  case types =>
    intro v hv hout'
    rw [hout v hv (hout' _ (List.mem_append_right _ List.mem_cons_self) o ho)]
    exact h.types v hv fun j hj => hout' j (List.mem_append_left _ hj)

end Steps

/-- The visit of an operation fails. -/
def FailsAt (q : Program) (t : ExtentTable) (name : String) (x : OpId) (fault : DomainFault) :
    Prop :=
  ∃ o, q.op? x = some o ∧ o.kind.isInferable = true ∧ q.inferOp t name o = .error fault

section Runs

variable {p : Program} {t : ExtentTable}

theorem inferablesIn_cons_of_false {u : OpId} (us : List OpId)
    (h : ∀ o, p.op? u = some o → o.kind.isInferable = false) :
    p.inferablesIn (u :: us) = p.inferablesIn us := by
  have hu : (p.op? u).elim false (·.kind.isInferable) = false := by
    cases ho : p.op? u with
    | none => rfl
    | some o => exact h o ho
  rw [inferablesIn, List.filter_cons_of_neg (by rw [hu]; exact Bool.false_ne_true)]
  rfl

theorem inferablesIn_cons_of_true {u : OpId} {o : Operation} (us : List OpId)
    (ho : p.op? u = some o) (hk : o.kind.isInferable = true) :
    p.inferablesIn (u :: us) = u :: p.inferablesIn us :=
  List.filter_cons_of_pos (by rw [ho]; exact hk)

/-- The outcome of a run over some operations, after those in `listed` were committed: the
loads and applies are committed in order, up to the first one whose visit fails. -/
structure OpsRun (p : Program) (t : ExtentTable) (name : String) (listed : List Inferred)
    (us : List OpId) (r : Inference) : Prop where
  commits : p.Commits (listed ++ r.inferred) r.program
  complete : r.fault = none →
    r.inferred.map Inferred.entry = (p.inferablesIn us).map fun u => (name, u)
  stopped : ∀ fault, r.fault = some fault → ∃ done x rest, us = done ++ x :: rest ∧
    r.program.FailsAt t name x fault ∧
    r.inferred.map Inferred.entry = (p.inferablesIn done).map fun u => (name, u)

namespace OpsRun

variable {name : String} {listed : List Inferred} {us : List OpId} {u : OpId} {r : Inference}

/-- An operation that is neither a load nor an apply is passed over. -/
theorem skip
    (h : p.OpsRun t name listed us r)
    (hk : ∀ o, p.op? u = some o → o.kind.isInferable = false) :
    p.OpsRun t name listed (u :: us) r := by
  refine ⟨h.commits, fun hnone => ?_, fun fault hfault => ?_⟩
  · rw [inferablesIn_cons_of_false us hk]
    exact h.complete hnone
  · obtain ⟨done, x, rest, hsplit, hfails, hentries⟩ := h.stopped fault hfault
    refine ⟨u :: done, x, rest, by rw [hsplit]; rfl, hfails, ?_⟩
    rw [inferablesIn_cons_of_false done hk]
    exact hentries

/-- A commit comes before those that follow. -/
theorem cons {i : Inferred} {o : Operation}
    (h : p.OpsRun t name (listed ++ [i]) us r)
    (ho : p.op? u = some o)
    (hk : o.kind.isInferable = true)
    (hi : i.entry = (name, u)) :
    p.OpsRun t name listed (u :: us) (r.cons i) := by
  refine ⟨?_, fun hnone => ?_, fun fault hfault => ?_⟩
  · have hcommits := h.commits
    rw [List.append_assoc] at hcommits
    exact hcommits
  · rw [inferablesIn_cons_of_true us ho hk, List.map_cons, ← h.complete hnone, ← hi]
    rfl
  · obtain ⟨done, x, rest, hsplit, hfails, hentries⟩ := h.stopped fault hfault
    refine ⟨u :: done, x, rest, by rw [hsplit]; rfl, hfails, ?_⟩
    rw [inferablesIn_cons_of_true done ho hk, List.map_cons, ← hentries, ← hi]
    rfl

/-- A visit that fails ends the run. -/
theorem stop {q : Program} {fault : DomainFault}
    (h : p.Commits listed q)
    (hfails : q.FailsAt t name u fault) :
    p.OpsRun t name listed (u :: us) { program := q, inferred := [], fault := some fault } := by
  refine ⟨by rwa [List.append_nil], fun hnone => ?_, fun fault' hfault => ?_⟩
  · cases hnone
  · cases hfault
    exact ⟨[], u, us, rfl, hfails, rfl⟩

end OpsRun

theorem run_inferOps (hc : p.Coherent) (hf : p.Fresh) (name : String) (us : List OpId) :
    ∀ {q : Program} {listed : List Inferred}, p.Commits listed q →
      p.OpsRun t name listed us (q.inferOps t name us) := by
  induction us with
  | nil =>
      intro q listed h
      refine ⟨?_, fun _ => rfl, fun fault hfault => ?_⟩
      · rw [inferOps, List.append_nil]
        exact h
      · cases hfault
  | cons u us ih =>
      intro q listed h
      rw [inferOps]
      cases ho' : q.op? u with
      | none =>
          refine (ih h).skip fun o ho => ?_
          obtain ⟨o', ho'', _⟩ := h.frame.exists_op ho
          rw [ho'] at ho''
          cases ho''
      | some o' =>
          obtain ⟨o, ho, _, hkind, _⟩ := h.frame.symm.exists_op ho'
          have hinf := OpKind.isInferable_eq_of_frame hkind
          dsimp only
          split
          · next hk =>
              split
              · next hstep => exact .stop h ⟨o', ho', hk, hstep⟩
              · next hstep =>
                  obtain ⟨hcommits, hentry⟩ := h.step hc hf ho (hinf.trans hk) ho' hstep
                  exact (ih hcommits).cons ho (hinf.trans hk) hentry
          · next hk =>
              refine (ih h).skip fun o₁ ho₁ => ?_
              obtain rfl : o = o₁ := Option.some.inj (ho.symm.trans ho₁)
              rw [hinf]
              exact Bool.not_eq_true _ ▸ hk

/-- The outcome of a run over some functions: all stencil programs are done, or all before
the one in which a visit has failed, and in that one what stands behind that visit. -/
structure FunctionsRun (p : Program) (t : ExtentTable) (listed : List Inferred)
    (fs : List Function) (r : Inference) : Prop where
  commits : p.Commits (listed ++ r.inferred) r.program
  complete : r.fault = none → r.inferred.map Inferred.entry = p.schedule fs
  stopped : ∀ fault, r.fault = some fault →
    ∃ before f after earlier x later, fs = before ++ f :: after ∧ f.stencil = true ∧
      f.body = earlier ++ x :: later ∧ r.program.FailsAt t f.name x fault ∧
      r.inferred.map Inferred.entry =
        p.schedule before ++ (p.inferablesIn later.reverse).map fun u => (f.name, u)

namespace FunctionsRun

variable {listed : List Inferred} {fs : List Function} {f : Function} {r r' : Inference}

/-- A function that is no stencil program is passed over. -/
theorem skip (h : p.FunctionsRun t listed fs r) (hs : ¬ f.stencil = true) :
    p.FunctionsRun t listed (f :: fs) r := by
  have hschedule : ∀ gs, p.schedule (f :: gs) = p.schedule gs := fun gs => by simp [schedule, hs]
  refine ⟨h.commits, fun hnone => ?_, fun fault hfault => ?_⟩
  · rw [hschedule]
    exact h.complete hnone
  · obtain ⟨before, g, after, earlier, x, later, hsplit, hg, hbody, hfails, hentries⟩ :=
      h.stopped fault hfault
    refine ⟨f :: before, g, after, earlier, x, later, by rw [hsplit]; rfl, hg, hbody, hfails, ?_⟩
    rw [hschedule]
    exact hentries

/-- A stencil program that is done comes before those that follow. -/
theorem cons
    (h : p.OpsRun t f.name listed f.body.reverse r)
    (hnone : r.fault = none)
    (hs : f.stencil = true)
    (h' : p.FunctionsRun t (listed ++ r.inferred) fs r') :
    p.FunctionsRun t listed (f :: fs) { r' with inferred := r.inferred ++ r'.inferred } := by
  have hschedule : ∀ gs, p.schedule (f :: gs) = r.inferred.map Inferred.entry ++ p.schedule gs :=
    fun gs => by rw [h.complete hnone, schedule, if_pos hs]
  refine ⟨?_, fun hnone' => ?_, fun fault hfault => ?_⟩
  · have hcommits := h'.commits
    rw [List.append_assoc] at hcommits
    exact hcommits
  · rw [hschedule, ← h'.complete hnone', List.map_append]
  · obtain ⟨before, g, after, earlier, x, later, hsplit, hg, hbody, hfails, hentries⟩ :=
      h'.stopped fault hfault
    refine ⟨f :: before, g, after, earlier, x, later, by rw [hsplit]; rfl, hg, hbody, hfails, ?_⟩
    rw [hschedule, List.map_append, hentries, List.append_assoc]

/-- A visit that fails ends the run. -/
theorem stop {fault : DomainFault}
    (h : p.OpsRun t f.name listed f.body.reverse r)
    (hfault : r.fault = some fault)
    (hs : f.stencil = true) :
    p.FunctionsRun t listed (f :: fs) r := by
  refine ⟨h.commits, fun hnone => ?_, fun fault' hfault' => ?_⟩
  · rw [hfault] at hnone
    cases hnone
  · obtain ⟨done, x, rest, hsplit, hfails, hentries⟩ := h.stopped fault' hfault'
    refine ⟨[], f, fs, rest.reverse, x, done.reverse, rfl, hs, ?_, hfails, ?_⟩
    · have hbody := congrArg List.reverse hsplit
      rw [List.reverse_reverse] at hbody
      simpa using hbody
    · rw [List.reverse_reverse]
      exact hentries

end FunctionsRun

theorem run_inferFunctions (hc : p.Coherent) (hf : p.Fresh) (fs : List Function) :
    ∀ {q : Program} {listed : List Inferred}, p.Commits listed q →
      p.FunctionsRun t listed fs (q.inferFunctions t fs).1 := by
  induction fs with
  | nil =>
      intro q listed h
      refine ⟨?_, fun _ => rfl, fun fault hfault => ?_⟩
      · rw [inferFunctions, List.append_nil]
        exact h
      · cases hfault
  | cons f fs ih =>
      intro q listed h
      simp only [inferFunctions]
      split
      · next hs =>
          have hrun : p.OpsRun t f.name listed f.body.reverse (q.inferFunction t f) :=
            run_inferOps hc hf f.name f.body.reverse h
          split
          · next fault hfault => exact .stop hrun hfault hs
          · next hnone => exact .cons hrun hnone hs (ih hrun.commits)
      · next hs => exact (ih h).skip hs

end Runs

/-- The bounds of an operation and the types of its results are as they were. -/
def Untouched (p q : Program) (x : OpId) : Prop :=
  q.boundsOf x = p.boundsOf x ∧ ∀ o, p.op? x = some o → ∀ v ∈ o.results, q.typeOf v = p.typeOf v

/-- What inference leaves behind: the program `q`, the commits that the summary lists, and
the diagnostics. -/
structure LeavesSuffix (p : Program) (t : ExtentTable) (q : Program) (inferred : List Inferred)
    (ds : List Diagnostic) : Prop where
  diagnostics : ds.length ≤ 1
  /-- The summary lists the operations whose bounds have changed. -/
  changed_iff : ∀ x, q.boundsOf x ≠ p.boundsOf x ↔ ∃ i ∈ inferred, i.op = x
  once : (inferred.map Inferred.op).Nodup
  committed : ∀ i ∈ inferred, p.Committed q i
  complete : ds = [] → inferred.map Inferred.entry = p.schedule p.functions.toList
  /-- What stands in front of a failed visit in the schedule is committed, and the rest is
  untouched. -/
  stopped : ∀ d, ds = [d] → ∃ before f after earlier x later fault,
    p.functions.toList = before ++ f :: after ∧ f.stencil = true ∧
    f.body = earlier ++ x :: later ∧ q.FailsAt t f.name x fault ∧ d = fault.diagnostic ∧
    inferred.map Inferred.entry =
      p.schedule before ++ (p.inferablesIn later.reverse).map (fun u => (f.name, u)) ∧
    p.Untouched q x ∧ (∀ y ∈ earlier, p.Untouched q y) ∧
    ∀ g ∈ after, ∀ y ∈ g.body, p.Untouched q y

section Untouched

variable {p q : Program} {listed : List Inferred}

/-- What is not listed is untouched. -/
theorem Commits.untouched (h : p.Commits listed q) (hc : p.Coherent) {x : OpId}
    (hx : ∀ i ∈ listed, i.op ≠ x) :
    p.Untouched q x :=
  ⟨h.bounds x hx, fun _ ho v hv => h.types v (hc.flows ho hv) fun i hi _ hoi =>
    hc.not_mem_results ho hoi hv (hx i hi).symm⟩

theorem mem_inferablesIn {us : List OpId} {u : OpId} (h : u ∈ p.inferablesIn us) : u ∈ us :=
  (List.mem_filter.1 h).1

theorem mem_schedule {fs : List Function} {e : String × OpId} (h : e ∈ p.schedule fs) :
    ∃ f ∈ fs, f.stencil = true ∧ e.2 ∈ f.body := by
  induction fs with
  | nil => cases h
  | cons f fs ih =>
      rw [schedule] at h
      rcases List.mem_append.1 h with h | h
      · split at h
        · next hs =>
            obtain ⟨u, hu, rfl⟩ := List.mem_map.1 h
            exact ⟨f, List.mem_cons_self, hs, List.mem_reverse.1 (mem_inferablesIn hu)⟩
        · cases h
      · obtain ⟨g, hg, hs, hmem⟩ := ih h
        exact ⟨g, List.mem_cons_of_mem _ hg, hs, hmem⟩

/-- Operations stand in one place only, so what is committed before a failed visit is
neither the operation that failed nor one that comes after it in the schedule. -/
theorem untouched_of_stopped {before after : List Function} {f : Function}
    {earlier later : List OpId} {x y : OpId}
    (hc : p.Coherent)
    (hf : p.Fresh)
    (h : p.Commits listed q)
    (hfs : p.functions.toList = before ++ f :: after)
    (hbody : f.body = earlier ++ x :: later)
    (hlisted : listed.map Inferred.entry =
      p.schedule before ++ (p.inferablesIn later.reverse).map fun u => (f.name, u))
    (hy : y = x ∨ y ∈ earlier ∨ ∃ g ∈ after, y ∈ g.body) :
    p.Untouched q y := by
  refine h.untouched hc ?_
  rintro i hi rfl
  have hentry : i.entry ∈ p.schedule before ++
      (p.inferablesIn later.reverse).map fun u => (f.name, u) :=
    hlisted ▸ List.mem_map_of_mem hi
  have hord := hf.ordered
  rw [entries, hfs, List.flatMap_append, List.flatMap_cons, hbody, List.pairwise_append,
    List.pairwise_append, List.pairwise_append, List.pairwise_cons] at hord
  obtain ⟨_, ⟨⟨_, ⟨hx, _⟩, hearlier⟩, _, hafter⟩, hbefore⟩ := hord
  rcases List.mem_append.1 hentry with hmem | hmem
  · obtain ⟨g, hg, _, hu⟩ := mem_schedule hmem
    have hlt := hbefore i.op (List.mem_flatMap.2 ⟨g, hg, hu⟩)
    rcases hy with hy | hy | ⟨g', hg', hy⟩
    · exact Nat.lt_irrefl _ (hlt i.op (by simp [hy]))
    · exact Nat.lt_irrefl _ (hlt i.op (by simp [hy]))
    · refine Nat.lt_irrefl _ (hlt i.op (List.mem_append_right _ ?_))
      exact List.mem_flatMap.2 ⟨g', hg', hy⟩
  · obtain ⟨u, hu, heq⟩ := List.mem_map.1 hmem
    have hlater : i.op ∈ later := by
      rw [← show u = i.op from congrArg Prod.snd heq]
      exact List.mem_reverse.1 (mem_inferablesIn hu)
    rcases hy with hy | hy | ⟨g', hg', hy⟩
    · exact Nat.lt_irrefl _ (hy ▸ hx i.op hlater)
    · exact Nat.lt_irrefl _ (hearlier i.op hy i.op (List.mem_cons_of_mem _ hlater))
    · refine Nat.lt_irrefl _ (hafter i.op ?_ i.op (List.mem_flatMap.2 ⟨g', hg', hy⟩))
      exact List.mem_append_right _ (List.mem_cons_of_mem _ hlater)

end Untouched

/-- The outcome of a run over all functions says what inference leaves behind. -/
theorem leavesSuffix_of_functionsRun {p : Program} {t : ExtentTable} {r : Inference}
    (hc : p.Coherent)
    (hf : p.Fresh)
    (h : p.FunctionsRun t [] p.functions.toList r) :
    p.LeavesSuffix t r.program r.inferred (r.fault.toList.map DomainFault.diagnostic) := by
  have hcommits : p.Commits r.inferred r.program := h.commits
  constructor
  case diagnostics =>
    rw [List.length_map]
    cases r.fault <;> simp
  case changed_iff =>
    intro x
    constructor
    · intro hne
      by_contra hnone
      exact hne (hcommits.bounds x fun i hi hix => hnone ⟨i, hi, hix⟩)
    · rintro ⟨i, hi, rfl⟩
      rw [(hcommits.committed i hi).bounds, (hcommits.committed i hi).unbounded]
      exact Option.some_ne_none _
  case once => exact hcommits.once
  case committed => exact hcommits.committed
  case complete =>
    intro hnil
    refine h.complete ?_
    cases hfault : r.fault with
    | none => rfl
    | some fault =>
        rw [hfault] at hnil
        cases hnil
  case stopped =>
    intro d hd
    cases hfault : r.fault with
    | none =>
        rw [hfault] at hd
        cases hd
    | some fault =>
        rw [hfault] at hd
        cases hd
        obtain ⟨before, f, after, earlier, x, later, hfs, hs, hbody, hfails, hentries⟩ :=
          h.stopped fault hfault
        have hrest := fun y => untouched_of_stopped (y := y) hc hf hcommits hfs hbody hentries
        exact ⟨before, f, after, earlier, x, later, fault, hfs, hs, hbody, hfails, rfl, hentries,
          hrest x (Or.inl rfl), fun y hy => hrest y (Or.inr (Or.inl hy)),
          fun g hg y hy => hrest y (Or.inr (Or.inr ⟨g, hg, hy⟩))⟩

/-- However inference ends, the summary lists exactly what has been committed: all loads
and applies of stencil programs, or those in front of the one that failed. -/
theorem inference_commits_suffix {p : Program} {t : ExtentTable} {c : Compilation}
    {ds : List Diagnostic}
    (h : p.Built)
    (hinfer : Compilation.perform { program := p, extents := some t } .shapeInference = (c, ds)) :
    ∃ s, c.shapes = some s ∧ p.LeavesSuffix t c.program s.inferred ds := by
  have hrun := run_inferFunctions (t := t) h.coherent h.fresh p.functions.toList (Commits.start p)
  simp only [Compilation.perform, Option.getD_some, Prod.mk.injEq] at hinfer
  rcases hinfer with ⟨rfl, rfl⟩
  exact ⟨_, rfl, leavesSuffix_of_functionsRun h.coherent h.fresh hrun⟩

/-- Two functions that load and store; the second one has a load in front whose result
nothing reads. -/
def halted : Program :=
  let box : Bounds := { lower := [.ofInt64 0], upper := [.ofInt64 8] }
  let p := (({} : Program).beginFunction "done" true [.field .f64 1]).1
  let p := ((p.load ⟨0⟩).1.store ⟨1⟩ ⟨0⟩ box).1
  let p := (p.beginFunction "halted" true [.field .f64 1]).1
  (((p.load ⟨2⟩).1.load ⟨2⟩).1.store ⟨4⟩ ⟨2⟩ box).1

theorem built_halted : halted.Built := by
  refine .store _ (.load (.load (.beginFunction _ _ _ (.store _ (.load (.beginFunction _ _ _ .empty)
    ?_ ?_) ?_ ?_ ?_)) ?_ ?_) ?_ ?_) ?_ ?_ ?_
  all_goals decide

/-- What inference makes of them. -/
def haltedOutcome : Compilation × List Diagnostic :=
  Compilation.perform { program := halted, extents := some .empty } .shapeInference

theorem inference_commits_suffix_halted :
    haltedOutcome.2.length = 1 ∧ ∃ s, haltedOutcome.1.shapes = some s ∧
      s.inferred.map Inferred.entry = [("done", ⟨0⟩), ("halted", ⟨3⟩)] ∧
      halted.LeavesSuffix .empty haltedOutcome.1.program s.inferred haltedOutcome.2 := by
  obtain ⟨s, hs, hsuffix⟩ := inference_commits_suffix built_halted
    (show Compilation.perform { program := halted, extents := some .empty } .shapeInference =
      (haltedOutcome.1, haltedOutcome.2) from rfl)
  refine ⟨by decide, s, hs, ?_, hsuffix⟩
  have hlisted : haltedOutcome.1.shapes.map (·.inferred.map Inferred.entry) =
      some [("done", ⟨0⟩), ("halted", ⟨3⟩)] := by decide
  rw [hs] at hlisted
  exact Option.some.inj hlisted

end Program
end StencilShapes
