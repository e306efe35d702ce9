import StencilShapes.Proofs.Domain.Visit
import StencilShapes.Proofs.Domain.Typing
import Mathlib.Data.List.Induction

/-!
# The run over a program

Inference visits the functions in order and the operations of each function from
the last to the first.  At any time some operations are done: they are settled, and
their results have a shape.  All others are as they were loaded.  An operation is
visited when everything that reads its results is done, because what reads a result
stands behind the operation that defines it.

**Results.**
* `Program.Progress.step`: what one visit keeps.
* `Program.progress_of_inferOps`, `Program.progress_of_inferFunctions`: what a run
  keeps, and where it stops.
* `Program.progress_of_inferShapes`: after a run without fault all stencil programs
  are done.
* `Program.progress_of_fault`: a fault leaves the functions before the faulty one and
  the operations behind the faulty one done.
-/

namespace StencilShapes
namespace Program

/-- The operations of which `done` holds are done, all others are as they were loaded. -/
structure Progress (p : Program) (t : ExtentTable) (done : OpId → Prop) (q : Program) : Prop where
  /-- Only bounds and types have been written. -/
  frame : p.SameFrame q
  /-- Declared types follow the types of values. -/
  typed : q.Typed
  settled : ∀ {x o}, p.op? x = some o → o.kind.isInferable = true → done x →
    p.Settled t q.boundsOf x
  /-- The results of what is done have the shape of its domain. -/
  shaped : ∀ {x o}, p.op? x = some o → o.kind.isInferable = true → done x →
    ∃ b shape, q.boundsOf x = some b ∧ b.shape? = some shape ∧ shape ≠ [] ∧
      (∀ c ∈ shape, 1 ≤ c.val) ∧ ∀ v ∈ o.results, ∃ e, q.typeOf v = .temp e (some shape)
  /-- What is not done has neither bounds nor shapes. -/
  untouched : ∀ {x o}, p.op? x = some o → o.kind.isInferable = true → ¬ done x →
    q.boundsOf x = none ∧ ∀ v ∈ o.results, ∃ e, q.typeOf v = .temp e none

namespace Progress

variable {p q : Program} {t : ExtentTable} {done done' : OpId → Prop}

theorem congr (h : p.Progress t done q) (hdone : ∀ x, done' x ↔ done x) :
    p.Progress t done' q := by
  obtain rfl : done' = done := funext fun x => propext (hdone x)
  exact h

/-- Nothing is done in a loaded program. -/
theorem start (hc : p.Coherent) (hs : p.Scoped) : p.Progress t (fun _ => False) p where
  frame := SameFrame.refl p
  typed := hc.typed
  settled _ _ h := h.elim
  shaped _ _ h := h.elim
  untouched {x o} ho hk _ := by
    refine ⟨?_, hs.results ho hk⟩
    rw [boundsOf, ho]
    exact hs.fresh ho hk

/-- A shaped operation that is done has bounds of its rank; a store has them from the start. -/
theorem bounds_of_done {u : OpId} {o : Operation}
    (h : p.Progress t done q)
    (hs : p.Scoped)
    (ho : p.op? u = some o)
    (hshaped : o.kind.isShaped = true)
    (hdone : done u) :
    ∃ b r, q.boundsOf u = some b ∧ p.OpRank o r ∧ b.Ranked r := by
  cases hk : o.kind.isInferable with
  | true =>
      obtain ⟨o', b, r, ho', hr, hb, hspans⟩ := (h.settled ho hk hdone).spans
      obtain rfl : o = o' := Option.some.inj (ho.symm.trans ho')
      exact ⟨b, r, hb, hr, hspans.ranked⟩
  | false =>
      obtain ⟨b, hb⟩ := OpKind.exists_store hshaped hk
      obtain ⟨o', ho', hkind, _⟩ := h.frame.exists_op_eq ho hk
      obtain ⟨r, hr⟩ := hs.ranked ho hshaped
      have hbounds : o.kind.bounds? = some b := by rw [hb]; rfl
      refine ⟨b, r, ?_, hr, hr.bounds b hbounds⟩
      rw [boundsOf, ho', Option.bind_some, hkind, hbounds]

/-- An operation may be visited when everything that reads its results is done. -/
theorem visit {f : Function} {x : OpId} {o : Operation} {r : Nat}
    (h : p.Progress t done q)
    (hc : p.Coherent) (hs : p.Scoped) (hm : p.Measured t)
    (hf : f ∈ p.functions.toList)
    (hx : x ∈ f.body)
    (ho : p.op? x = some o)
    (hk : o.kind.isInferable = true)
    (hr : p.OpRank o r)
    (hnot : ¬ done x)
    (hreaders : ∀ v u, p.Reads x v u → done u) :
    Visit p q t f x o r := by
  refine ⟨hc, hs, hm, h.frame, hf, hx, ho, hk, hr, (h.untouched ho hk hnot).1, ?_⟩
  intro v u ou hreads hou
  obtain ⟨_, ou', _, _, hou', hshaped, _⟩ := id hreads
  obtain rfl : ou = ou' := Option.some.inj (hou.symm.trans hou')
  exact h.bounds_of_done hs hou hshaped (hreaders v u hreads)

/-- A visit that goes on leaves one more operation done. -/
theorem step {q' : Program} {f : Function} {x : OpId} {o o' : Operation} {r : Nat}
    {i : Inferred}
    (h : p.Progress t done q)
    (hv : Visit p q t f x o r)
    (hnot : ¬ done x)
    (ho' : q.op? x = some o')
    (hok : q.inferOp t f.name o' = .ok (q', i)) :
    p.Progress t (fun y => done y ∨ y = x) q' := by
  have hsettled := hv.settled ho' hok
  obtain ⟨hframe, hbounds⟩ := inferOp_spec hok
  rcases inferOp_eq_ok.1 hok with ⟨b, shape, _, _, hshape, _, _, hi⟩
  obtain ⟨_, huntyped⟩ := h.untouched hv.op hv.inferable hnot
  obtain ⟨htyped, hshaped, hother⟩ := h.typed.inferOp hv.coherent hv.inScope h.frame hv.op
    hv.inferable (fun v hv => (huntyped v hv).imp fun e he => ⟨none, he⟩) ho' hok
  have hid : o'.id = x := h.frame.op_id hv.coherent.op_id ho'
  rw [hid] at hbounds
  have hext := hv.boundsOf_mono ho' hok
  -- The results of other operations are other values.
  have hkeep : ∀ {y oy}, p.op? y = some oy → oy.kind.isInferable = true → y ≠ x →
      ∀ v ∈ oy.results, q'.typeOf v = q.typeOf v := by
    intro y oy hoy hk hne v hv'
    obtain ⟨j, hj⟩ := hv.coherent.mem_results hoy hv'
    refine hother v (Or.inr ⟨y, j, oy, hj, hoy, OpKind.isShaped_of_isInferable hk⟩) fun hmem => ?_
    obtain ⟨j', hj'⟩ := hv.coherent.mem_results hv.op hmem
    rw [hj] at hj'
    cases hj'
    exact hne rfl
  constructor
  case frame => exact h.frame.trans hframe
  case typed => exact htyped
  case settled =>
    rintro y oy hoy hk (hy | rfl)
    · exact (h.settled hoy hk hy).mono hext
    · exact hsettled
  case shaped =>
    intro y oy hoy hk hy
    by_cases hyx : y = x
    · subst hyx
      obtain rfl : o = oy := Option.some.inj (hv.op.symm.trans hoy)
      subst hi
      obtain ⟨hsub, hne, hpos⟩ := shape_of_domainShape hshape
      exact ⟨b, shape, by rw [hbounds, if_pos rfl], hsub, hne, hpos, hshaped⟩
    · obtain ⟨c, shape', hc, hsub, hne, hpos, hres⟩ :=
        h.shaped hoy hk (hy.resolve_right hyx)
      refine ⟨c, shape', hext y c hc, hsub, hne, hpos, fun v hv' => ?_⟩
      rw [hkeep hoy hk hyx v hv']
      exact hres v hv'
  case untouched =>
    intro y oy hoy hk hy
    rw [not_or] at hy
    obtain ⟨hfree, hres⟩ := h.untouched hoy hk hy.1
    refine ⟨by rw [hbounds, if_neg hy.2, hfree], fun v hv' => ?_⟩
    rw [hkeep hoy hk hy.2 v hv']
    exact hres v hv'

/-- Operations that are not inferable count as done at any time. -/
theorem skip {x : OpId} {o : Operation}
    (h : p.Progress t done q)
    (ho : p.op? x = some o)
    (hk : o.kind.isInferable = false) :
    p.Progress t (fun y => done y ∨ y = x) q := by
  have hne : ∀ {y oy}, p.op? y = some oy → oy.kind.isInferable = true → y ≠ x := by
    rintro y oy hoy hky rfl
    obtain rfl : o = oy := Option.some.inj (ho.symm.trans hoy)
    rw [hk] at hky
    cases hky
  refine ⟨h.frame, h.typed, fun hoy hky hy => ?_, fun hoy hky hy => ?_, fun hoy hky hy => ?_⟩
  · exact h.settled hoy hky (hy.resolve_right (hne hoy hky))
  · exact h.shaped hoy hky (hy.resolve_right (hne hoy hky))
  · exact h.untouched hoy hky fun hy' => hy (Or.inl hy')

end Progress

/-- The operations of the stencil programs among some functions. -/
def InStencil (fs : List Function) (x : OpId) : Prop :=
  ∃ f ∈ fs, f.stencil = true ∧ x ∈ f.body

theorem inStencil_concat {fs : List Function} {f : Function} {x : OpId} :
    InStencil (fs ++ [f]) x ↔ InStencil fs x ∨ f.stencil = true ∧ x ∈ f.body := by
  constructor
  · rintro ⟨g, hg, hgs, hx⟩
    rcases List.mem_append.1 hg with hg | hg
    · exact Or.inl ⟨g, hg, hgs, hx⟩
    · obtain rfl := List.mem_singleton.1 hg
      exact Or.inr ⟨hgs, hx⟩
  · rintro (⟨g, hg, hgs, hx⟩ | ⟨hf, hx⟩)
    · exact ⟨g, List.mem_append_left _ hg, hgs, hx⟩
    · exact ⟨f, by simp, hf, hx⟩

/-- The run stops in `f`: the operations behind the faulty one are done, and the visit
of that one fails. -/
def StopsIn (p : Program) (t : ExtentTable) (done : OpId → Prop) (f : Function) (q : Program)
    (fault : DomainFault) : Prop :=
  ∃ before x after o r o', f.body = before ++ x :: after ∧
    p.Progress t (fun y => done y ∨ y ∈ after) q ∧ Visit p q t f x o r ∧
    q.op? x = some o' ∧ q.inferOp t f.name o' = .error fault

section Runs

variable {p : Program} {t : ExtentTable}

theorem Scoped.pairwise_body (hs : p.Scoped) {f : Function} (hf : f ∈ p.functions.toList) :
    f.body.Pairwise (·.index < ·.index) :=
  (List.pairwise_flatMap.1 hs.ordered).1 f hf

/-- An operation stands in one function only. -/
theorem Scoped.disjoint_bodies (hs : p.Scoped) {before after : List Function} {f g : Function}
    {x : OpId}
    (hfs : p.functions.toList = before ++ f :: after)
    (hg : g ∈ before)
    (hx : x ∈ f.body) :
    x ∉ g.body := by
  intro hx'
  have hord := (List.pairwise_flatMap.1 hs.ordered).2
  rw [hfs, List.pairwise_append] at hord
  exact Nat.lt_irrefl _ (hord.2.2 g hg f List.mem_cons_self x hx' x hx)

/-- The operations of a function are visited from the last to the first. -/
theorem progress_of_inferOps {f : Function} {done : OpId → Prop}
    (hc : p.Coherent) (hs : p.Scoped) (hm : p.Measured t)
    (hf : f ∈ p.functions.toList)
    (hnew : ∀ x ∈ f.body, ¬ done x)
    (init : List OpId) :
    ∀ (rest : List OpId) {q : Program}, f.body = init ++ rest →
      p.Progress t (fun y => done y ∨ y ∈ rest) q →
      ((q.inferOps t f.name init.reverse).fault = none →
        p.Progress t (fun y => done y ∨ y ∈ f.body) (q.inferOps t f.name init.reverse).program) ∧
      ∀ fault, (q.inferOps t f.name init.reverse).fault = some fault →
        p.StopsIn t done f (q.inferOps t f.name init.reverse).program fault := by
  induction init using List.reverseRecOn with
  | nil =>
      intro rest q hbody h
      refine ⟨fun _ => h.congr fun y => by rw [hbody, List.nil_append], fun fault hfault => ?_⟩
      cases hfault
  | append_singleton init x ih =>
      intro rest q hbody h
      have hsplit : f.body = init ++ x :: rest := by rw [hbody, List.append_assoc]; rfl
      have hx : x ∈ f.body := by rw [hsplit]; simp
      have hpair := hs.pairwise_body hf
      rw [hsplit, List.pairwise_append, List.pairwise_cons] at hpair
      obtain ⟨o, ho, _⟩ := hs.body f hf x hx
      obtain ⟨o', ho', _, hkind, _⟩ := h.frame.exists_op ho
      have hnot : ¬ (done x ∨ x ∈ rest) := by
        rintro (hdone | hmem)
        · exact hnew x hx hdone
        · exact Nat.lt_irrefl _ (hpair.2.1.1 x hmem)
      have hdone : ∀ y, (done y ∨ y ∈ x :: rest) ↔ (done y ∨ y ∈ rest) ∨ y = x := fun y => by
        rw [List.mem_cons, or_comm (a := y = x), or_assoc]
      rw [List.reverse_append, List.reverse_singleton, List.singleton_append]
      simp only [inferOps, ho', OpKind.isInferable_eq_of_frame hkind]
      cases hk : o.kind.isInferable with
      | false =>
          rw [if_neg Bool.false_ne_true]
          exact ih (x :: rest) hsplit ((h.skip ho hk).congr hdone)
      | true =>
          rw [if_pos rfl]
          obtain ⟨r, hr⟩ := hs.ranked ho (OpKind.isShaped_of_isInferable hk)
          have hvisit := h.visit hc hs hm hf hx ho hk hr hnot fun v u hreads => by
            -- What reads a result stands behind it, so it has been visited.
            obtain ⟨hu, hlt⟩ := mem_body_of_reads hc hs hf hx hreads
            rw [hsplit] at hu
            rcases List.mem_append.1 hu with hu | hu
            · have hlt' := hpair.2.2 u hu x List.mem_cons_self
              exact absurd hlt (Nat.lt_asymm hlt')
            · rcases List.mem_cons.1 hu with rfl | hu
              · exact absurd hlt (Nat.lt_irrefl _)
              · exact Or.inr hu
          cases hstep : q.inferOp t f.name o' with
          | error fault =>
              refine ⟨fun hnone => ?_, fun fault' hfault => ?_⟩
              · cases hnone
              · cases hfault
                exact ⟨init, x, rest, o, r, o', hsplit, h, hvisit, ho', hstep⟩
          | ok next =>
              rcases next with ⟨q', i⟩
              exact ih (x :: rest) hsplit ((h.step hvisit hnot ho' hstep).congr hdone)

/-- Functions are visited in order. -/
theorem progress_of_inferFunctions
    (hc : p.Coherent) (hs : p.Scoped) (hm : p.Measured t)
    (fs : List Function) :
    ∀ (visited : List Function) {q : Program}, p.functions.toList = visited ++ fs →
      p.Progress t (InStencil visited) q →
      ((q.inferFunctions t fs).1.fault = none →
        p.Progress t (InStencil p.functions.toList) (q.inferFunctions t fs).1.program) ∧
      ∀ fault, (q.inferFunctions t fs).1.fault = some fault →
        ∃ before f after, p.functions.toList = before ++ f :: after ∧ f.stencil = true ∧
          p.StopsIn t (InStencil before) f (q.inferFunctions t fs).1.program fault := by
  induction fs with
  | nil =>
      intro visited q hfs h
      rw [List.append_nil] at hfs
      refine ⟨fun _ => hfs ▸ h, fun fault hfault => ?_⟩
      cases hfault
  | cons f fs ih =>
      intro visited q hfs h
      have hf : f ∈ p.functions.toList := by rw [hfs]; simp
      have hnext : p.functions.toList = (visited ++ [f]) ++ fs := by rw [hfs]; simp
      simp only [inferFunctions]
      split
      · next hstencil =>
          have hnew : ∀ x ∈ f.body, ¬ InStencil visited x := by
            rintro x hx ⟨g, hg, _, hx'⟩
            exact hs.disjoint_bodies hfs hg hx hx'
          obtain ⟨hdone, hstop⟩ := progress_of_inferOps hc hs hm hf hnew f.body
            [] (q := q) (List.append_nil _).symm (h.congr fun y => by simp)
          split
          · next fault hfault =>
              refine ⟨fun hnone => ?_, fun fault' hfault' => ?_⟩
              · rw [hfault] at hnone
                cases hnone
              · exact ⟨visited, f, fs, hfs, hstencil, hstop fault' hfault'⟩
          · next hnone =>
              refine ih (visited ++ [f]) hnext ((hdone hnone).congr fun y => ?_)
              rw [inStencil_concat, and_iff_right hstencil]
      · next hstencil =>
          refine ih (visited ++ [f]) hnext (h.congr fun y => ?_)
          rw [inStencil_concat, or_iff_left fun hy => hstencil hy.1]

variable {q : Program} {s : ShapeSummary}

/-- After a run without fault all operations of stencil programs are done. -/
theorem progress_of_inferShapes
    (hc : p.Coherent) (hs : p.Scoped) (hm : p.Measured t)
    (h : p.inferShapes t = (q, s, none)) :
    p.Progress t (InStencil p.functions.toList) q := by
  have hrun := (progress_of_inferFunctions hc hs hm p.functions.toList [] rfl
    ((Progress.start hc hs).congr fun x => by simp [InStencil])).1
  simp only [inferShapes, Prod.mk.injEq] at h
  rcases h with ⟨rfl, _, hfault⟩
  exact hrun hfault

/-- A run with a fault has stopped in a stencil program; those before it are done. -/
theorem progress_of_fault {fault : DomainFault}
    (hc : p.Coherent) (hs : p.Scoped) (hm : p.Measured t)
    (h : p.inferShapes t = (q, s, some fault)) :
    ∃ before f after, p.functions.toList = before ++ f :: after ∧ f.stencil = true ∧
      p.StopsIn t (InStencil before) f q fault := by
  have hrun := (progress_of_inferFunctions hc hs hm p.functions.toList [] rfl
    ((Progress.start hc hs).congr fun x => by simp [InStencil])).2
  simp only [inferShapes, Prod.mk.injEq] at h
  rcases h with ⟨rfl, _, hfault⟩
  exact hrun fault hfault

end Runs
end Program
end StencilShapes
