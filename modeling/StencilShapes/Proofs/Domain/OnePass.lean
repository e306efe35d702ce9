import StencilShapes.Proofs.Compilation.Pipeline
import StencilShapes.Proofs.Domain.Effects
import StencilShapes.Proofs.Domain.Meeting
import StencilShapes.Proofs.Program.Order

/-!
# What a single pass can promise

A visit meets the demands of the consumers whose bounds are known at the time, and the pass
does not come back.  A store knows its bounds from the start.  Within a function whatever
reads a result stands behind it and is visited before it.  So these consumers never reach
beyond the domain of what they read.

A consumer in a later function is visited after its producer.  It has no bounds when that is
visited and demands nothing, and what it gets later is compared with nothing, not even by the
certificate.

**Results.**
* `Program.MeetsKnown.step`, `Program.meetsKnown_of_inferShapes`: each commit meets the
  demands of what is listed before it.
* `Program.pairwise_schedule`: within a function the schedule runs backwards.
* `Program.one_pass_serves`: the consumers whose bounds a single pass respects.
* `Program.one_pass_overtaken`: one whose bounds come too late.
-/

namespace StencilShapes

/-- The box holds all that an operation with bounds `b` reads of a value.  Bounds without a
dimension ask for nothing. -/
def Bounds.Serves (c : Bounds) (t : ExtentTable) (u : OpId) (v : ValueId) (b : Bounds) : Prop :=
  b = .nil ∨ b.Ranked c.rank ∧
    ∀ d < c.rank, c.lower.coord d ≤ b.lower.coord d + t.negativeAt u v d ∧
      b.upper.coord d + t.positiveAt u v d ≤ c.upper.coord d

/-- A box that covers the widened bounds holds what is read. -/
theorem Bounds.Covers.serves {t : ExtentTable} {u : OpId} {v : ValueId} {b c need : Bounds}
    {r : Nat}
    (hcovers : c.Covers need)
    (hwidened : Widened t u v b need)
    (hc : c.Ranked r) :
    c.Serves t u v b := by
  have hlower : b.lower.length = c.lower.length :=
    hwidened.lower_length.symm.trans hcovers.lower_length
  have hupper : b.upper.length = c.upper.length :=
    hwidened.upper_length.symm.trans hcovers.upper_length
  have hrank : c.upper.length = c.rank := hc.2.trans hc.1.symm
  refine Or.inr ⟨⟨hlower, hupper.trans hrank⟩, fun d hd => ?_⟩
  have hdl : d < c.lower.length := hd
  have hdu : d < c.upper.length := hrank ▸ hd
  rw [← hwidened.lower d (hlower ▸ hdl), ← hwidened.upper d (hupper ▸ hdu)]
  exact ⟨hcovers.lower d hdl, hcovers.upper d hdu⟩

namespace Program

/-- The bounds of an operation after some commits: it has had them from the start, or its
commit is listed. -/
def KnownAfter (p : Program) (listed : List Inferred) (u : OpId) (b : Bounds) : Prop :=
  p.boundsOf u = some b ∨ ∃ j ∈ listed, j.op = u ∧ j.bounds = b

/-- Each listed commit meets the demands of all consumers whose bounds were known before. -/
def MeetsKnown (p : Program) (t : ExtentTable) (listed : List Inferred) : Prop :=
  ∀ before i after, listed = before ++ i :: after → ∀ o, p.op? i.op = some o →
    ∀ v ∈ o.results, ∀ use ∈ p.usesOf v, ∀ b, p.KnownAfter before use.user b → b ≠ .nil →
      ∃ need, Bounds.Widened t use.user v b need ∧ i.bounds.Covers need

section Runs

variable {p q q' : Program} {t : ExtentTable} {name : String} {listed : List Inferred} {u : OpId}
  {b : Bounds} {o : Operation} {i : Inferred}

/-- What has been committed is listed. -/
theorem Commits.knownAfter_iff (h : p.Commits listed q) :
    p.KnownAfter listed u b ↔ q.boundsOf u = some b := by
  by_cases hu : ∃ j ∈ listed, j.op = u
  · obtain ⟨j, hj, rfl⟩ := hu
    have hcommitted := h.committed j hj
    constructor
    · rintro (hstart | ⟨k, hk, hop, rfl⟩)
      · rw [hcommitted.unbounded] at hstart
        cases hstart
      · rw [← hop]
        exact (h.committed k hk).bounds
    · intro hb
      rw [hcommitted.bounds] at hb
      exact Or.inr ⟨j, hj, rfl, Option.some.inj hb⟩
  · have hkeep := h.bounds u fun j hj hop => hu ⟨j, hj, hop⟩
    constructor
    · rintro (hstart | ⟨k, hk, hop, _⟩)
      · rw [hkeep, hstart]
      · exact absurd ⟨k, hk, hop⟩ hu
    · intro hb
      exact Or.inl (hkeep.symm.trans hb)

/-- Only loads and applies are inferred. -/
theorem isInferable_of_inferOp {o : Operation}
    (hid : q.op? o.id = some o)
    (h : q.inferOp t name o = .ok (q', i)) :
    o.kind.isInferable = true := by
  obtain ⟨_, _, _, _, _, hcommit, _⟩ := inferOp_eq_ok.1 h
  obtain ⟨o', k, ho', hk, _⟩ := commit_eq_ok.1 hcommit
  obtain rfl : o = o' := Option.some.inj (hid.symm.trans ho')
  rcases OpKind.commit_eq_ok.1 hk with ⟨hload, _⟩ | ⟨body, happly, _⟩
  · rw [hload]
    rfl
  · rw [happly]
    rfl

/-- One visit meets the demands of all consumers whose bounds are known. -/
theorem MeetsKnown.step
    (h : p.MeetsKnown t listed)
    (hcommits : p.Commits listed q)
    (hc : p.Coherent)
    (ho : q.op? u = some o)
    (hok : q.inferOp t name o = .ok (q', i)) :
    p.MeetsKnown t (listed ++ [i]) := by
  obtain ⟨box, shape, _, hmeet, _, _, _, rfl⟩ := inferOp_eq_ok.1 hok
  obtain ⟨_, hmeets⟩ := covers_of_meetDemands hmeet
  intro before j after hsplit
  rcases List.eq_nil_or_concat after with rfl | ⟨after, k, rfl⟩
  · -- The commit is the new one.
    obtain ⟨rfl, hj⟩ := List.append_inj' hsplit rfl
    obtain rfl := List.singleton_inj.1 hj
    intro x hx v hv use huse b hknown hne
    obtain ⟨o', ho', _, _, _, hresults⟩ := hcommits.frame.symm.exists_op ho
    have hu : o.id = u := hcommits.frame.op_id hc.op_id ho
    obtain rfl : x = o' := Option.some.inj (hx.symm.trans (hu ▸ ho'))
    obtain ⟨ou, hou, hread⟩ := hc.mem_uses.1 huse
    obtain ⟨ou', hou', _, _, hoperands, _⟩ := hcommits.frame.exists_op hou
    have hmem : use ∈ o.results.flatMap q.usesOf := by
      rw [hcommits.frame.uses, ← hresults]
      exact List.mem_flatMap.2 ⟨v, hv, huse⟩
    have hvalue : q.valueAt? use = some v := by
      rw [valueAt?, hou', Option.bind_some, hoperands, hread]
    exact hmeets use hmem b v (hcommits.knownAfter_iff.1 hknown) hvalue hne
  · have hinit : listed = before ++ j :: after := by
      rw [List.concat_eq_append, ← List.cons_append, ← List.append_assoc] at hsplit
      exact (List.append_inj' hsplit rfl).1
    exact h before j after hinit

/-- What a run lists meets the demands of what is listed before it. -/
theorem meetsKnown_of_inferShapes (t : ExtentTable) (hc : p.Coherent) (hf : p.Fresh) :
    p.MeetsKnown t (p.inferShapes t).2.1.inferred := by
  have hstart : p.Commits [] p ∧ p.MeetsKnown t [] :=
    ⟨Commits.start p, fun before i after hsplit => by simp at hsplit⟩
  refine (inferShapes_lists (t := t) (P := fun listed q => p.Commits listed q ∧
    p.MeetsKnown t listed) hstart fun {listed q q' name u o i} h ho hok => ?_).2
  obtain ⟨o', ho', _, hkind, _⟩ := h.1.frame.symm.exists_op ho
  have hu : o.id = u := h.1.frame.op_id hc.op_id ho
  have hk : o'.kind.isInferable = true := by
    rw [OpKind.isInferable_eq_of_frame hkind]
    exact isInferable_of_inferOp (hu.symm ▸ ho) hok
  exact ⟨(h.1.step hc hf ho' hk ho hok).1, h.2.step h.1 hc ho hok⟩

end Runs

section Order

variable {p : Program}

/-- Within a function the schedule runs from the last operation to the first. -/
theorem pairwise_schedule {fs : List Function}
    (hord : (fs.flatMap Function.body).Pairwise (·.index < ·.index)) :
    (p.schedule fs).Pairwise fun a b =>
      ∀ f ∈ fs, a.2 ∈ f.body → b.2 ∈ f.body → b.2.index < a.2.index := by
  induction fs with
  | nil => exact List.Pairwise.nil
  | cons f fs ih =>
      rw [List.flatMap_cons, List.pairwise_append] at hord
      obtain ⟨hbody, hrest, hcross⟩ := hord
      -- No operation stands in two functions.
      have hapart : ∀ {u : OpId} {g : Function}, u ∈ f.body → g ∈ fs → u ∉ g.body :=
        fun hu hg hu' => Nat.lt_irrefl _ (hcross _ hu _ (List.mem_flatMap.2 ⟨_, hg, hu'⟩))
      rw [schedule, List.pairwise_append]
      refine ⟨?_, (ih hrest).imp_of_mem fun {a b} ha hb hab g hg hag hbg => ?_,
        fun a ha b hb g hg hag hbg => ?_⟩
      · split
        · rw [List.pairwise_map]
          exact ((List.pairwise_reverse.2 hbody).filter _).imp fun hlt _ _ _ _ => hlt
        · exact List.Pairwise.nil
      · rcases List.mem_cons.1 hg with rfl | hg
        · obtain ⟨g', hg', _, hmem⟩ := mem_schedule ha
          exact absurd hmem (hapart hag hg')
        · exact hab g hg hag hbg
      · split at ha
        · obtain ⟨x, hx, rfl⟩ := List.mem_map.1 ha
          have hxf : x ∈ f.body := List.mem_reverse.1 (mem_inferablesIn hx)
          rcases List.mem_cons.1 hg with rfl | hg
          · obtain ⟨g', hg', _, hmem⟩ := mem_schedule hb
            exact absurd hmem (hapart hbg hg')
          · exact absurd hag (hapart hxf hg)
        · cases ha

end Order

/-- At the visit of an operation the bounds of what reads its results are known, if this is a
store or stands in the same function.  It stands behind there, and the schedule has it in
front. -/
theorem Commits.knownAfter_of_place {p q : Program} {listed before after : List Inferred}
    {i : Inferred} {f : Function} {u : OpId} {o ou : Operation} {v : ValueId} {b : Bounds}
    (hcommits : p.Commits listed q)
    (h : p.Built)
    (hcomplete : listed.map Inferred.entry = p.schedule p.functions.toList)
    (hsplit : listed = before ++ i :: after)
    (ho : p.op? i.op = some o)
    (hv : v ∈ o.results)
    (hf : f ∈ p.functions.toList)
    (hu : u ∈ f.body)
    (hou : p.op? u = some ou)
    (hread : v ∈ ou.operands)
    (hb : q.boundsOf u = some b)
    (hplace : i.op ∈ f.body ∨ ou.kind.isInferable = false) :
    p.KnownAfter before u b := by
  rcases hcommits.knownAfter_iff.2 hb with hstart | ⟨j, hj, rfl, rfl⟩
  · exact Or.inl hstart
  · have hin : i.op ∈ f.body := hplace.resolve_right fun hnot => by
      obtain ⟨oj, hoj, hk, _⟩ := (hcommits.committed j hj).results
      obtain rfl := Option.some.inj (hou.symm.trans hoj)
      rw [hk] at hnot
      cases hnot
    obtain ⟨n, hn⟩ := h.coherent.mem_results ho hv
    have hlt : i.op.index < j.op.index := Building.forward h j.op ou v i.op n hou hread hn
    have hord := pairwise_schedule (p := p) h.fresh.ordered
    rw [← hcomplete, hsplit, List.map_append, List.map_cons, List.pairwise_append,
      List.pairwise_cons] at hord
    rw [hsplit] at hj
    rcases List.mem_append.1 hj with hj | hj
    · exact Or.inr ⟨j, hj, rfl, rfl⟩
    · rcases List.mem_cons.1 hj with rfl | hj
      · exact absurd hlt (Nat.lt_irrefl _)
      · have hgt := hord.2.1.1 _ (List.mem_map_of_mem hj) f hf hin hu
        exact absurd hlt (Nat.lt_asymm hgt)

/-- After a run without fault the bounds of a load or an apply hold what is read of its
results by stores, wherever these stand, and by whatever stands in the same function. -/
theorem one_pass_serves {p q : Program} {t : ExtentTable} {s : ShapeSummary} {i : Inferred}
    {f : Function} {u : OpId} {o ou : Operation} {v : ValueId} {b : Bounds}
    (h : p.Built)
    (hinfer : p.inferShapes t = (q, s, none))
    (hi : i ∈ s.inferred)
    (ho : p.op? i.op = some o)
    (hv : v ∈ o.results)
    (hf : f ∈ p.functions.toList)
    (hu : u ∈ f.body)
    (hou : p.op? u = some ou)
    (hread : v ∈ ou.operands)
    (hb : q.boundsOf u = some b)
    (hplace : i.op ∈ f.body ∨ ou.kind.isInferable = false) :
    q.boundsOf i.op = some i.bounds ∧ i.bounds.Serves t u v b := by
  have hc := h.coherent
  have hrun := run_inferFunctions (t := t) hc h.fresh p.functions.toList (Commits.start p)
  have hmeets := meetsKnown_of_inferShapes t hc h.fresh
  have hcommits : p.Commits (p.inferShapes t).2.1.inferred (p.inferShapes t).1 := hrun.commits
  have hcomplete : (p.inferShapes t).2.2 = none →
      (p.inferShapes t).2.1.inferred.map Inferred.entry = p.schedule p.functions.toList :=
    hrun.complete
  rw [hinfer] at hmeets hcommits hcomplete
  have hcommitted := hcommits.committed i hi
  refine ⟨hcommitted.bounds, ?_⟩
  obtain ⟨before, after, hsplit⟩ := List.append_of_mem hi
  have hknown : p.KnownAfter before u b :=
    hcommits.knownAfter_of_place h (hcomplete rfl) hsplit ho hv hf hu hou hread hb hplace
  by_cases hne : b = .nil
  · exact Or.inl hne
  · obtain ⟨k, hk⟩ := List.getElem?_of_mem hread
    have huse : (⟨u, k⟩ : Use) ∈ p.usesOf v := hc.mem_uses.2 ⟨ou, hou, hk⟩
    obtain ⟨need, hwidened, hcovers⟩ := hmeets before i after hsplit o ho v hv _ huse b hknown hne
    obtain ⟨hlower, hupper, _⟩ := hcommitted.shape
    exact hcovers.serves hwidened ⟨hlower, hupper⟩

/-- The cells from zero up to a bound. -/
def cellsTo (n : Int64) : Bounds :=
  { lower := [.ofInt64 0], upper := [.ofInt64 n] }

/-- A function that loads a field and stores four cells of it, and the open apply of a second
function, which reads what the first one has loaded. -/
def overtakingBody : Program :=
  let p := (({} : Program).beginFunction "near" true [.field .f64 1]).1
  let p := ((p.load ⟨0⟩).1.store ⟨1⟩ ⟨0⟩ (cellsTo 4)).1
  let p := (p.beginFunction "far" true [.field .f64 1]).1
  let p := ((p.openApply [⟨1⟩]).1.access ⟨2⟩ ⟨3⟩ [.ofInt64 0]).1
  p.ret ⟨2⟩ [⟨4⟩] none

/-- The apply is closed and a hundred cells of its result are stored. -/
def overtaking : Program :=
  (((overtakingBody.closeApply ⟨2⟩).toOption.elim {} Prod.fst).store ⟨5⟩ ⟨2⟩ (cellsTo 100)).1

theorem built_overtaking : overtaking.Built := by
  have hbody : Building overtakingBody (some ⟨2⟩) := by
    refine .ret _ (.access _ (.openApply (.beginFunction _ _ _ (.store _ (.load
      (.beginFunction _ _ _ .empty) ?_ ?_) ?_ ?_ ?_)) ?_ ?_) ?_) ?_
    all_goals decide
  have hclose : overtakingBody.closeApply ⟨2⟩ =
      .ok ((overtakingBody.closeApply ⟨2⟩).toOption.elim {} Prod.fst, [⟨5⟩]) := by rfl
  refine .store _ (.closeApply hbody hclose) ?_ ?_ ?_
  all_goals decide

/-- The extents of both functions. -/
def overtakingExtents : ExtentTable :=
  overtaking.extents.toOption.getD .empty

/-- What inference makes of them. -/
def overtakingShaped : Program :=
  (overtaking.inferShapes overtakingExtents).1

theorem inferShapes_overtaking :
    overtaking.inferShapes overtakingExtents =
      (overtakingShaped, (overtaking.inferShapes overtakingExtents).2.1, none) := by
  have hfault : (overtaking.inferShapes overtakingExtents).2.2 = none := by decide
  rw [overtakingShaped]
  generalize overtaking.inferShapes overtakingExtents = r at hfault
  rw [← hfault]

theorem one_pass_serves_overtaking :
    ∃ i ∈ (overtaking.inferShapes overtakingExtents).2.1.inferred, i.op = ⟨0⟩ ∧
      overtakingShaped.boundsOf ⟨0⟩ = some i.bounds ∧
      i.bounds.Serves overtakingExtents ⟨1⟩ ⟨1⟩ (cellsTo 4) := by
  have hlisted : ∃ i ∈ (overtaking.inferShapes overtakingExtents).2.1.inferred, i.op = ⟨0⟩ := by
    decide
  obtain ⟨i, hi, hop⟩ := hlisted
  have hnear : overtaking.functions.toList[0]? =
      some { name := "near", stencil := true, args := [⟨0⟩], body := [⟨0⟩, ⟨1⟩] } := by decide
  have hload : overtaking.op? ⟨0⟩ = some
      { id := ⟨0⟩, kind := .load none, operands := [⟨0⟩], operandTypes := [.field .f64 1],
        results := [⟨1⟩], parent := none } := by decide
  have hstore : overtaking.op? ⟨1⟩ = some
      { id := ⟨1⟩, kind := .store (cellsTo 4), operands := [⟨1⟩, ⟨0⟩],
        operandTypes := [.temp .f64 none, .field .f64 1], results := [], parent := none } := by
    decide
  obtain ⟨hbounds, hserves⟩ := one_pass_serves built_overtaking inferShapes_overtaking hi
    (hop ▸ hload) List.mem_cons_self (List.mem_of_getElem? hnear)
    (List.mem_cons_of_mem _ List.mem_cons_self) hstore List.mem_cons_self
    (show overtakingShaped.boundsOf ⟨1⟩ = some (cellsTo 4) by decide)
    (Or.inl (hop ▸ List.mem_cons_self))
  exact ⟨i, hi, hop, hop ▸ hbounds, hserves⟩

/-- The load keeps the four cells that its own function stores, though an apply of the next
function reads a hundred, and no pass reports anything. -/
theorem one_pass_overtaken :
    overtaking.Built ∧ overtaking.extents = .ok overtakingExtents ∧
      (Compilation.run { program := overtaking } .verification).failing = none ∧
      (Compilation.run { program := overtaking } .verification).compilation.diagnostics = [] ∧
      overtakingShaped.boundsOf ⟨0⟩ = some (cellsTo 4) ∧
      overtakingShaped.boundsOf ⟨2⟩ = some (cellsTo 100) ∧
      ¬ (cellsTo 4).Serves overtakingExtents ⟨2⟩ ⟨1⟩ (cellsTo 100) := by
  have hrun : (Compilation.run { program := overtaking } .verification).failing = none ∧
      (Compilation.run { program := overtaking } .verification).compilation.diagnostics = [] := by
    rw [Compilation.run, Pass.required_verification]
    decide
  refine ⟨built_overtaking, rfl, hrun.1, hrun.2, by decide, by decide, ?_⟩
  rintro (hnil | ⟨_, hends⟩)
  · cases hnil
  · have hupper := (hends 0 (by decide)).2
    revert hupper
    decide

end Program
end StencilShapes
