import StencilShapes.Proofs.Compilation.WriteOnce
import StencilShapes.Proofs.Description.Construction
import StencilShapes.Proofs.Domain.Chain
import StencilShapes.Proofs.Domain.Suffix
import StencilShapes.Proofs.Domain.Verdict

/-!
# Inferring twice

A run without fault gives bounds to whatever it visits.  A second run visits the same
operations, and the first visit of these ends it: bounds are written once, so the visit
fails, and what fails writes nothing.

How that visit fails depends on what it finds before it comes to commit.  In the program of
a description values flow forward within functions, and the operation that is visited first
is the last load or apply of its function.  So what reads its results is neither, no run
changes it, and the second run finds the box of the first one before the commit is refused.

**Results.**
* `Program.inferFunctions_of_failsAt`, `Program.inferFunctions_of_idle`: a run that fails at
  its first visit, and one without visits.
* `Program.exists_failsAt`: no operation with bounds can be visited.
* `Program.failsAt_again`: why the second visit of the first operation fails.
* `Program.second_run_stops`, `Program.refusal_of_inferShapes`: how a second run ends.
* `Program.second_run_refused`: the second run.
-/

namespace StencilShapes
namespace Program

/-- The last load or apply of the first stencil program that has one. -/
def firstVisitIn? (p : Program) (fs : List Function) : Option (Function × OpId) :=
  fs.findSome? fun f =>
    if f.stencil then (p.inferablesIn f.body).getLast?.map fun x => (f, x) else none

/-- The operation that inference visits first, with its function. -/
def firstVisit? (p : Program) : Option (Function × OpId) :=
  p.firstVisitIn? p.functions.toList

section Runs

variable {p : Program} {t : ExtentTable} {name : String} {us : List OpId} {fs : List Function}
  {f : Function} {x : OpId} {fault : DomainFault}

theorem inferOps_of_idle (h : p.inferablesIn us = []) :
    p.inferOps t name us = { program := p, inferred := [], fault := none } := by
  induction us with
  | nil => rfl
  | cons u us ih =>
      rw [inferablesIn, List.filter_cons] at h
      split at h
      · cases h
      · next hu =>
          rw [inferOps]
          cases ho : p.op? u with
          | none => exact ih h
          | some o =>
              rw [ho] at hu
              exact (if_neg hu).trans (ih h)

/-- Nothing is done before the first visit, and nothing after one that fails. -/
theorem inferOps_of_failsAt
    (hx : (p.inferablesIn us).head? = some x)
    (h : p.FailsAt t name x fault) :
    p.inferOps t name us = { program := p, inferred := [], fault := some fault } := by
  induction us with
  | nil => cases hx
  | cons u us ih =>
      rw [inferablesIn, List.filter_cons] at hx
      rw [inferOps]
      split at hx
      · obtain rfl : u = x := Option.some.inj hx
        obtain ⟨o, ho, hk, hstep⟩ := h
        simp only [ho, if_pos hk, hstep]
      · next hu =>
          cases ho : p.op? u with
          | none => exact ih hx
          | some o =>
              rw [ho] at hu
              exact (if_neg hu).trans (ih hx)

theorem inferablesIn_reverse : p.inferablesIn us.reverse = (p.inferablesIn us).reverse :=
  List.filter_reverse

theorem inferFunction_of_idle (h : p.inferablesIn f.body = []) :
    p.inferFunction t f = { program := p, inferred := [], fault := none } :=
  inferOps_of_idle (by rw [inferablesIn_reverse, h, List.reverse_nil])

/-- Without loads and applies in stencil programs there is nothing to do. -/
theorem inferFunctions_of_idle (h : p.firstVisitIn? fs = none) :
    (p.inferFunctions t fs).1 = { program := p, inferred := [], fault := none } := by
  induction fs with
  | nil => rfl
  | cons f fs ih =>
      obtain ⟨hf, hfs⟩ := List.forall_mem_cons.1 (List.findSome?_eq_none_iff.1 h)
      have hrest := ih (List.findSome?_eq_none_iff.2 hfs)
      rw [inferFunctions]
      split
      · next hs =>
          rw [if_pos hs, Option.map_eq_none_iff, List.getLast?_eq_none_iff] at hf
          simp [inferFunction_of_idle hf, hrest]
      · exact hrest

/-- A run whose first visit fails has done nothing. -/
theorem inferFunctions_of_failsAt
    (hx : p.firstVisitIn? fs = some (f, x))
    (h : p.FailsAt t f.name x fault) :
    (p.inferFunctions t fs).1 = { program := p, inferred := [], fault := some fault } := by
  induction fs with
  | nil => cases hx
  | cons g fs ih =>
      rw [firstVisitIn?, List.findSome?_cons] at hx
      rw [inferFunctions]
      split
      · next hs =>
          rw [if_pos hs] at hx
          cases hlast : (p.inferablesIn g.body).getLast? with
          | none =>
              rw [hlast] at hx
              simp [inferFunction_of_idle (List.getLast?_eq_none_iff.1 hlast), ih hx]
          | some y =>
              rw [hlast] at hx
              obtain ⟨rfl, rfl⟩ : g = f ∧ y = x := by simpa using hx
              have hstop : p.inferFunction t g =
                  { program := p, inferred := [], fault := some fault } :=
                inferOps_of_failsAt (by rw [inferablesIn_reverse, List.head?_reverse, hlast]) h
              simp [hstop]
      · next hs =>
          rw [if_neg hs] at hx
          exact ih hx

theorem inferShapes_of_idle (h : p.firstVisit? = none) :
    ∃ skipped, p.inferShapes t = (p, { inferred := [], skipped }, none) :=
  ⟨(p.inferFunctions t p.functions.toList).2, by simp [inferShapes, inferFunctions_of_idle h]⟩

theorem inferShapes_of_failsAt
    (hx : p.firstVisit? = some (f, x))
    (h : p.FailsAt t f.name x fault) :
    ∃ skipped, p.inferShapes t = (p, { inferred := [], skipped }, some fault) :=
  ⟨(p.inferFunctions t p.functions.toList).2, by
    simp [inferShapes, inferFunctions_of_failsAt hx h]⟩

end Runs

/-- The operation that is visited first is the last load or apply of a stencil program. -/
theorem firstVisit?_eq_some {p : Program} {f : Function} {x : OpId}
    (h : p.firstVisit? = some (f, x)) :
    f ∈ p.functions.toList ∧ f.stencil = true ∧
      (p.inferablesIn f.body).getLast? = some x := by
  obtain ⟨g, hg, heq⟩ := List.exists_of_findSome?_eq_some h
  split at heq
  · next hs =>
      obtain ⟨y, hy, hpair⟩ := Option.map_eq_some_iff.1 heq
      obtain ⟨rfl, rfl⟩ := Prod.mk.inj hpair
      exact ⟨hg, hs, hy⟩
  · cases heq

theorem mem_inferablesIn_iff {p : Program} {us : List OpId} {x : OpId} :
    x ∈ p.inferablesIn us ↔ x ∈ us ∧ ∃ o, p.op? x = some o ∧ o.kind.isInferable = true := by
  rw [inferablesIn, List.mem_filter]
  cases p.op? x <;> simp

/-- The schedule has all loads and applies of stencil programs. -/
theorem mem_schedule_of_mem {p : Program} {fs : List Function} {f : Function} {x : OpId}
    (hf : f ∈ fs)
    (hs : f.stencil = true)
    (hx : x ∈ p.inferablesIn f.body) :
    (f.name, x) ∈ p.schedule fs := by
  induction fs with
  | nil => cases hf
  | cons g fs ih =>
      rw [schedule, List.mem_append]
      rcases List.mem_cons.1 hf with rfl | hf
      · rw [if_pos hs, inferablesIn_reverse]
        exact Or.inl (List.mem_map_of_mem (List.mem_reverse.2 hx))
      · exact Or.inr (ih hf)

section Frames

variable {p q : Program}

/-- Both programs have the same loads and applies. -/
theorem SameFrame.inferablesIn (h : p.SameFrame q) : q.inferablesIn = p.inferablesIn := by
  funext us
  refine List.filter_congr fun u _ => ?_
  cases ho : p.op? u with
  | none =>
      have hnone := h.op u
      rw [ho, Option.map_none, Option.map_eq_none_iff] at hnone
      rw [hnone]
  | some o =>
      obtain ⟨o', ho', _, hkind, _⟩ := h.exists_op ho
      rw [ho']
      exact OpKind.isInferable_eq_of_frame hkind

theorem SameFrame.firstVisit? (h : p.SameFrame q) : q.firstVisit? = p.firstVisit? := by
  rw [Program.firstVisit?, Program.firstVisit?, firstVisitIn?, firstVisitIn?, h.functions,
    h.inferablesIn]

end Frames

section Visits

variable {p q : Program} {t : ExtentTable} {f : Function} {x : OpId} {o : Operation}

/-- No operation with bounds can be visited: if nothing else, the commit is refused. -/
theorem exists_failsAt {b : Bounds} (name : String)
    (ho : q.op? x = some o)
    (hid : o.id = x)
    (hk : o.kind.isInferable = true)
    (hb : q.boundsOf x = some b) :
    ∃ fault, q.FailsAt t name x fault := by
  cases hstep : q.inferOp t name o with
  | error fault => exact ⟨fault, o, ho, hk, hstep⟩
  | ok r =>
      obtain ⟨b', shape, p', _, _, hcommit, _⟩ := inferOp_eq_ok.1 hstep
      have hfree := boundsOf_eq_none_of_commit hcommit
      rw [hid, hb] at hfree
      cases hfree

/-- What a use demands depends on its consumer alone. -/
theorem meetDemand_congr {ou ou' : Operation} {use : Use} (name : String) (producer : Place)
    (b : Bounds)
    (hou : p.op? use.user = some ou)
    (hou' : q.op? use.user = some ou')
    (hid : ou'.id = ou.id)
    (hkind : ou'.kind = ou.kind)
    (hoperands : ou'.operands = ou.operands) :
    q.meetDemand t name producer b use = p.meetDemand t name producer b use := by
  have hplace : Place.ofOp name ou' = Place.ofOp name ou :=
    placeOf_eq_of_frame hid (congrArg OpKind.frame hkind)
  simp only [meetDemand, hou, hou', hkind, hoperands, hplace]

theorem meetDemands_congr {uses : List Use} (name : String) (producer : Place)
    (h : ∀ use ∈ uses, ∀ b,
      q.meetDemand t name producer b use = p.meetDemand t name producer b use) :
    ∀ b, q.meetDemands t name producer b uses = p.meetDemands t name producer b uses := by
  induction uses with
  | nil => exact fun _ => rfl
  | cons use uses ih =>
      obtain ⟨huse, huses⟩ := List.forall_mem_cons.1 h
      intro b
      rw [meetDemands, meetDemands, huse b]
      split
      · exact ih huses _
      · rfl

/-- What reads the results of the last load or apply of a function is no load and no apply. -/
theorem reader_of_last {use : Use}
    (hs : p.Scoped)
    (hf : f ∈ p.functions.toList)
    (hlast : (p.inferablesIn f.body).getLast? = some x)
    (ho : p.op? x = some o)
    (huse : use ∈ o.results.flatMap p.usesOf) :
    ∃ ou, p.op? use.user = some ou ∧ ou.kind.isInferable = false := by
  obtain ⟨v, hv, huse⟩ := List.mem_flatMap.1 huse
  have hx := mem_inferablesIn (List.mem_of_getLast? hlast)
  obtain ⟨hmem, hlt⟩ := hs.flow f hf x hx o ho v hv use huse
  obtain ⟨ou, hou, _⟩ := hs.body f hf _ hmem
  refine ⟨ou, hou, Bool.eq_false_iff.2 fun hk => ?_⟩
  -- The bodies are in order, so a load or an apply behind `x` would be the last one.
  obtain ⟨init, hinit⟩ := List.getLast?_eq_some_iff.1 hlast
  have hpair : (p.inferablesIn f.body).Pairwise (·.index < ·.index) :=
    (hs.pairwise_body hf).sublist List.filter_sublist
  have hu : use.user ∈ p.inferablesIn f.body := mem_inferablesIn_iff.2 ⟨hmem, ou, hou, hk⟩
  rw [hinit] at hpair hu
  rcases List.mem_append.1 hu with hu | hu
  · exact Nat.lt_asymm hlt ((List.pairwise_append.1 hpair).2.2 _ hu x List.mem_cons_self)
  · rw [List.mem_singleton.1 hu] at hlt
    exact Nat.lt_irrefl _ hlt

/-- The operation that is visited first finds the same box again, and is refused only when it
comes to commit. -/
theorem failsAt_again {b : Bounds} {r : Program × Inferred}
    (hc : p.Coherent)
    (hs : p.Scoped)
    (hframe : p.SameFrame q)
    (hf : f ∈ p.functions.toList)
    (hlast : (p.inferablesIn f.body).getLast? = some x)
    (ho : p.op? x = some o)
    (hk : o.kind.isInferable = true)
    (hfirst : p.inferOp t f.name o = .ok r)
    (hb : q.boundsOf x = some b) :
    q.FailsAt t f.name x (.commit (.ofOp f.name o) .alreadyFinalized) := by
  obtain ⟨o', ho', hid, hkind, _, hresults⟩ := hframe.exists_op ho
  have hinferable : o'.kind.isInferable = true := by
    rw [OpKind.isInferable_eq_of_frame hkind, hk]
  have hsame : q.meetDemands t f.name (.ofOp f.name o) .nil (o.results.flatMap p.usesOf) =
      p.meetDemands t f.name (.ofOp f.name o) .nil (o.results.flatMap p.usesOf) := by
    refine meetDemands_congr f.name _ (fun use huse b => ?_) _
    obtain ⟨ou, hou, hku⟩ := reader_of_last hs hf hlast ho huse
    obtain ⟨ou', hou', hid', hkind', hoperands, _⟩ := hframe.exists_op hou
    exact meetDemand_congr f.name _ b hou hou' hid' (OpKind.eq_of_frame hkind'.symm hku).symm
      hoperands
  obtain ⟨box, shape, _, hmeet, hshape, _⟩ := inferOp_eq_ok.1 hfirst
  have hrefused : q.commit o'.id box = .error .alreadyFinalized := by
    rw [hid, hc.op_id ho]
    rw [boundsOf, ho', Option.bind_some] at hb
    exact commit_eq_error.2 (Or.inl ⟨rfl, o', b, ho', hinferable, hb⟩)
  refine ⟨o', ho', hinferable, inferOp_eq_error.2 (Or.inr ⟨box, ?_, Or.inr ?_⟩)⟩
  · rw [hresults, hframe.uses, placeOf_eq_of_frame hid hkind, hsame, hmeet]
  · rw [placeOf_eq_of_frame hid hkind]
    exact ⟨shape, _, hshape, hrefused, rfl⟩

end Visits

/-- What a second run reports: nothing where there is nothing to visit, and else one error, at
the operation that is visited first. -/
structure Refusal (p : Program) (ds : List Diagnostic) : Prop where
  idle : p.firstVisit? = none → ds = []
  refused : ∀ f x, p.firstVisit? = some (f, x) → ∃ o, p.op? x = some o ∧
    ds = [.error .alreadyFinal (.ofOp f.name o) CommitFault.alreadyFinalized.message]

section Twice

variable {p q : Program} {t : ExtentTable} {s : ShapeSummary} {f : Function} {x : OpId}

/-- After a run without fault, whatever was visited has bounds. -/
theorem exists_bounds_of_inferShapes
    (h : p.Built)
    (hrun : p.inferShapes t = (q, s, none)) :
    p.SameFrame q ∧ ∀ f ∈ p.functions.toList, f.stencil = true → ∀ x ∈ p.inferablesIn f.body,
      ∃ b, q.boundsOf x = some b := by
  have hdone := run_inferFunctions (t := t) h.coherent h.fresh p.functions.toList (Commits.start p)
  simp only [inferShapes, Prod.mk.injEq] at hrun
  obtain ⟨rfl, _, hfault⟩ := hrun
  refine ⟨hdone.commits.frame, fun f hf hs x hx => ?_⟩
  have hlisted := mem_schedule_of_mem hf hs hx
  rw [← hdone.complete hfault] at hlisted
  obtain ⟨i, hi, hentry⟩ := List.mem_map.1 hlisted
  obtain rfl : i.op = x := congrArg Prod.snd hentry
  exact ⟨i.bounds, (hdone.commits.committed i hi).bounds⟩

/-- The first run has visited the operation that a second run would visit first. -/
theorem exists_inferOp_of_inferShapes {o : Operation}
    (hrun : p.inferShapes t = (q, s, none))
    (hvisit : p.firstVisit? = some (f, x))
    (ho : p.op? x = some o)
    (hk : o.kind.isInferable = true) :
    ∃ r, p.inferOp t f.name o = .ok r := by
  cases hstep : p.inferOp t f.name o with
  | ok r => exact ⟨r, rfl⟩
  | error fault =>
      obtain ⟨skipped, hstop⟩ := inferShapes_of_failsAt hvisit ⟨o, ho, hk, hstep⟩
      rw [hrun] at hstop
      cases hstop

/-- Whatever the extents of a second run, it fails at its first visit. -/
theorem second_run_stops
    (h : p.Built)
    (hrun : p.inferShapes t = (q, s, none))
    (t' : ExtentTable) :
    ∃ skipped fault?, q.inferShapes t' = (q, { inferred := [], skipped }, fault?) ∧
      (fault? = none ↔ p.firstVisit? = none) := by
  obtain ⟨hframe, hbounds⟩ := exists_bounds_of_inferShapes h hrun
  cases hvisit : p.firstVisit? with
  | none =>
      obtain ⟨skipped, hagain⟩ :=
        inferShapes_of_idle (t := t') (hframe.firstVisit?.trans hvisit)
      exact ⟨skipped, none, hagain, iff_of_true rfl rfl⟩
  | some visit =>
      obtain ⟨f, x⟩ := visit
      obtain ⟨hf, hs, hlast⟩ := firstVisit?_eq_some hvisit
      have hx := List.mem_of_getLast? hlast
      obtain ⟨_, o, ho, hk⟩ := mem_inferablesIn_iff.1 hx
      obtain ⟨b, hb⟩ := hbounds f hf hs x hx
      obtain ⟨o', ho', hid, hkind, _⟩ := hframe.exists_op ho
      have hk' := (OpKind.isInferable_eq_of_frame hkind).trans hk
      obtain ⟨fault, hfails⟩ :=
        exists_failsAt (t := t') f.name ho' (hid.trans (h.coherent.op_id ho)) hk' hb
      obtain ⟨skipped, hagain⟩ := inferShapes_of_failsAt (hframe.firstVisit?.trans hvisit) hfails
      exact ⟨skipped, some fault, hagain, iff_of_false (by simp) (by simp)⟩

/-- With the extents of the first run, the second one comes to commit. -/
theorem refusal_of_inferShapes
    (h : p.Built)
    (hscoped : p.Scoped)
    (hrun : p.inferShapes t = (q, s, none)) :
    p.Refusal ((q.inferShapes t).2.2.toList.map DomainFault.diagnostic) := by
  obtain ⟨hframe, hbounds⟩ := exists_bounds_of_inferShapes h hrun
  constructor
  case idle =>
    intro hvisit
    obtain ⟨skipped, hagain⟩ := inferShapes_of_idle (t := t) (hframe.firstVisit?.trans hvisit)
    rw [hagain]
    rfl
  case refused =>
    intro f x hvisit
    obtain ⟨hf, hs, hlast⟩ := firstVisit?_eq_some hvisit
    have hx := List.mem_of_getLast? hlast
    obtain ⟨_, o, ho, hk⟩ := mem_inferablesIn_iff.1 hx
    obtain ⟨b, hb⟩ := hbounds f hf hs x hx
    obtain ⟨r, hfirst⟩ := exists_inferOp_of_inferShapes hrun hvisit ho hk
    have hfails := failsAt_again h.coherent hscoped hframe hf hlast ho hk hfirst hb
    obtain ⟨skipped, hagain⟩ := inferShapes_of_failsAt (hframe.firstVisit?.trans hvisit) hfails
    rw [hagain]
    exact ⟨o, ho, rfl⟩

/-- A second run, whatever its extents: the program stays as it is, nothing is committed, and
there is a fault unless there is nothing to visit.  In the program of a description, with the
extents of the first run, the fault says that the bounds are there already. -/
theorem second_run_refused
    (h : p.Built)
    (hrun : p.inferShapes t = (q, s, none)) :
    (∀ t', ∃ skipped fault?, q.inferShapes t' = (q, { inferred := [], skipped }, fault?) ∧
        (fault? = none ↔ p.firstVisit? = none)) ∧
      ∀ d : Description, d.elaborate = .ok p →
        p.Refusal ((q.inferShapes t).2.2.toList.map DomainFault.diagnostic) :=
  ⟨second_run_stops h hrun,
    fun _ hd => refusal_of_inferShapes h (Description.scoped_of_elaborate hd) hrun⟩

/-- In the smoothing step the second run is refused at the apply. -/
theorem second_run_refused_smoothing :
    (∃ skipped fault?, smoothingShaped.inferShapes .empty =
        (smoothingShaped, { inferred := [], skipped }, fault?) ∧ fault? ≠ none) ∧
      ∃ o, smoothing.op? ⟨1⟩ = some o ∧
        (smoothingShaped.inferShapes smoothingExtents).2.2.toList.map DomainFault.diagnostic =
          [.error .alreadyFinal (.ofOp "smooth" o) "bounds are already finalized"] := by
  have hbuilt : smoothing.Built := (Description.sound_of_elaborate elaborate_smoothing).building
  have hvisit : smoothing.firstVisit? = some (smoothingFunction, ⟨1⟩) := by decide
  obtain ⟨hany, hsame⟩ := second_run_refused hbuilt inferShapes_smoothing
  refine ⟨?_, (hsame Description.smoothing elaborate_smoothing).refused _ _ hvisit⟩
  obtain ⟨skipped, fault?, hagain, hfault⟩ := hany .empty
  refine ⟨skipped, fault?, hagain, fun hnone => ?_⟩
  rw [hfault.1 hnone] at hvisit
  cases hvisit

end Twice
end Program
end StencilShapes
