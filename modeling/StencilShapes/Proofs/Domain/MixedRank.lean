import StencilShapes.Proofs.Compilation.Pipeline
import StencilShapes.Proofs.Domain.Meeting
import StencilShapes.Proofs.Domain.Suffix

/-!
# Uses of different rank

All uses of the results of one operation have to agree in rank.  The fold over the uses
compares the rank of each box with that of the box it has so far, so once a demand with
a dimension is met, a use of any other rank is refused.  The box that the fold starts
from is at the same time the box of rank zero: uses of rank zero that come before all
others leave no trace and are compared with nothing.

Nothing is asked of the program but that calls have built it, and nothing of the extents.

**Results.**
* `Program.meetDemands_mixed`: the fold refuses a use whose rank differs from that of an
  earlier one that has a dimension.
* `Program.meetDemands_absorb`: uses of rank zero in front count for nothing.
* `Program.mixed_ranks_not_committed`: what this means for a run.
-/

namespace StencilShapes

namespace Program

section Folding

variable {p : Program} {t : ExtentTable} {name : String} {producer : Place}
  {use : Use} {uses : List Use} {b box box' : Bounds}

/-- A use that has a dimension leaves a box of its rank. -/
theorem rank_of_meetDemand
    (hb : p.Demanding use b)
    (hne : b ≠ .nil)
    (h : p.meetDemand t name producer box use = .ok box') :
    box' ≠ .nil ∧ box'.rank = b.rank := by
  obtain ⟨_, need, _, hwidened, hhull⟩ := hull?_of_meetDemand hb h
  rcases Bounds.hull?_eq_some hhull with ⟨_, rfl⟩ | ⟨hbox, hcovers, hneed⟩
  · exact ⟨fun hnil => hne (hwidened.eq_nil.1 hnil), hwidened.lower_length⟩
  · exact ⟨fun hnil => hbox (hcovers.eq_nil.1 hnil), hneed.rank_eq.symm.trans hwidened.lower_length⟩

/-- From a box that has a dimension on, the rank does not change, and each use that
demands a box has it. -/
theorem keeps_rank_of_meetDemand
    (hne : box ≠ .nil)
    (h : p.meetDemand t name producer box use = .ok box') :
    box' ≠ .nil ∧ box'.rank = box.rank ∧ ∀ b, p.Demanding use b → b.rank = box.rank := by
  by_cases hb : ∃ b, p.Demanding use b
  · obtain ⟨b, hb⟩ := hb
    obtain ⟨_, need, _, hwidened, hhull⟩ := hull?_of_meetDemand hb h
    rcases Bounds.hull?_eq_some hhull with ⟨rfl, _⟩ | ⟨_, hcovers, hneed⟩
    · exact absurd rfl hne
    · refine ⟨fun hnil => hne (hcovers.eq_nil.1 hnil), hcovers.rank_eq.symm, fun b' hb' => ?_⟩
      obtain rfl : b = b' := Option.some.inj (hb.1.symm.trans hb'.1)
      exact (hwidened.lower_length.symm.trans hneed.rank_eq).trans hcovers.rank_eq.symm
  · have hnone : ∀ b, ¬ p.Demanding use b := fun b hb' => hb ⟨b, hb'⟩
    rw [meetDemand_of_not_demanding hnone] at h
    cases h
    exact ⟨hne, rfl, fun b hb' => absurd hb' (hnone b)⟩

theorem rank_of_meetDemands :
    ∀ {box : Bounds}, box ≠ .nil → p.meetDemands t name producer box uses = .ok box' →
      ∀ use ∈ uses, ∀ b, p.Demanding use b → b.rank = box.rank := by
  induction uses with
  | nil =>
      intro box _ _ use hmem
      cases hmem
  | cons u rest ih =>
      intro box hne h use hmem b hb
      rw [meetDemands] at h
      split at h
      · next box₁ hstep =>
          obtain ⟨hne₁, hrank₁, hu⟩ := keeps_rank_of_meetDemand hne hstep
          rcases List.mem_cons.1 hmem with rfl | hmem
          · exact hu b hb
          · exact (ih hne₁ h use hmem b hb).trans hrank₁
      · cases h

theorem meetDemands_append (us vs : List Use) :
    ∀ box, p.meetDemands t name producer box (us ++ vs) =
      (p.meetDemands t name producer box us).bind fun box =>
        p.meetDemands t name producer box vs := by
  induction us with
  | nil => exact fun _ => rfl
  | cons u us ih =>
      intro box
      rw [List.cons_append, meetDemands, meetDemands]
      cases p.meetDemand t name producer box u with
      | error fault => rfl
      | ok box₁ => exact ih box₁

/-- The demands are not met if a use differs in rank from an earlier one that has a
dimension. -/
theorem meetDemands_mixed {before rest : List Use} {a c : Use} {ba bc : Bounds}
    (ha : p.Demanding a ba)
    (hc : p.Demanding c bc)
    (hmem : c ∈ rest)
    (hdim : ba ≠ .nil)
    (hne : ba.rank ≠ bc.rank) :
    ∃ fault, p.meetDemands t name producer box (before ++ a :: rest) = .error fault := by
  cases h : p.meetDemands t name producer box (before ++ a :: rest) with
  | error fault => exact ⟨fault, rfl⟩
  | ok result =>
      rw [meetDemands_append] at h
      cases hbefore : p.meetDemands t name producer box before with
      | error fault =>
          rw [hbefore] at h
          cases h
      | ok box₁ =>
          rw [hbefore, Except.bind, meetDemands] at h
          split at h
          · next box₂ hstep =>
              obtain ⟨hne₂, hrank₂⟩ := rank_of_meetDemand ha hdim hstep
              exact absurd ((rank_of_meetDemands hne₂ h c hmem bc hc).trans hrank₂).symm hne
          · cases h

/-- Uses of rank zero that come first, and uses that demand nothing, leave no trace. -/
theorem meetDemands_absorb {zeros : List Use}
    (hzeros : ∀ use ∈ zeros, ∀ b, p.Demanding use b →
      b = .nil ∧ ∀ v, p.valueAt? use = some v → t.find? use.user v = none) :
    p.meetDemands t name producer .nil (zeros ++ uses) =
      p.meetDemands t name producer .nil uses := by
  induction zeros with
  | nil => rfl
  | cons u zeros ih =>
      have hstep : p.meetDemand t name producer .nil u = .ok .nil := by
        by_cases hb : ∃ b, p.Demanding u b
        · obtain ⟨b, hb⟩ := hb
          obtain ⟨rfl, hextent⟩ := hzeros u List.mem_cons_self b hb
          obtain ⟨hbounds, hvalue⟩ := hb
          obtain ⟨o, ho, hk⟩ := Option.bind_eq_some_iff.1 hbounds
          obtain ⟨v, hv⟩ := Option.isSome_iff_exists.1 hvalue
          have hv' : o.operands[u.operand]? = some v := by simpa [valueAt?, ho] using hv
          unfold meetDemand
          simp only [ho, hk, hv', demandedBounds, hextent v hv, Bounds.nil_hull?]
        · exact meetDemand_of_not_demanding fun b hb' => hb ⟨b, hb'⟩
      rw [List.cons_append, meetDemands, hstep]
      exact ih fun use hmem => hzeros use (List.mem_cons_of_mem _ hmem)

end Folding

section Visiting

variable {p : Program} {t : ExtentTable}

/-- A run over some operations that does not stop goes on where it has come to. -/
theorem inferOps_append {name : String} {us : List OpId} (vs : List OpId) :
    ∀ {p : Program}, (p.inferOps t name us).fault = none →
      (p.inferOps t name (us ++ vs)).program =
          ((p.inferOps t name us).program.inferOps t name vs).program ∧
        (p.inferOps t name (us ++ vs)).fault =
          ((p.inferOps t name us).program.inferOps t name vs).fault := by
  induction us with
  | nil => exact fun _ => ⟨rfl, rfl⟩
  | cons u us ih =>
      intro p h
      rw [List.cons_append, inferOps, inferOps]
      rw [inferOps] at h
      cases ho : p.op? u with
      | none =>
          rw [ho] at h
          exact ih h
      | some o =>
          rw [ho] at h
          dsimp only at h ⊢
          split at h
          · next hk =>
              rw [if_pos hk, if_pos hk]
              split at h
              · cases h
              · exact ih h
          · next hk =>
              rw [if_neg hk, if_neg hk]
              exact ih h

/-- A run over some functions that does not stop goes on where it has come to. -/
theorem inferFunctions_append {fs : List Function} (gs : List Function) :
    ∀ {p : Program}, (p.inferFunctions t fs).1.fault = none →
      (p.inferFunctions t (fs ++ gs)).1.program =
          ((p.inferFunctions t fs).1.program.inferFunctions t gs).1.program ∧
        (p.inferFunctions t (fs ++ gs)).1.fault =
          ((p.inferFunctions t fs).1.program.inferFunctions t gs).1.fault := by
  induction fs with
  | nil => exact fun _ => ⟨rfl, rfl⟩
  | cons f fs ih =>
      intro p h
      rw [List.cons_append]
      simp only [inferFunctions] at h ⊢
      split at h
      · next hs =>
          simp only [if_pos hs]
          split at h
          · next fault hfault =>
              rw [hfault] at h
              cases h
          · exact ih h
      · next hs =>
          simp only [if_neg hs]
          exact ih h

/-- The state of a run when the visit of an operation is due. -/
structure ComesTo (p : Program) (t : ExtentTable) (f : Function) (x : OpId) (q : Program) :
    Prop where
  stencil : f.stencil = true
  /-- Nothing has failed so far. -/
  visit : ∃ before after earlier later, p.functions.toList = before ++ f :: after ∧
    f.body = earlier ++ x :: later ∧ (p.inferFunctions t before).1.fault = none ∧
    ((p.inferFunctions t before).1.program.inferOps t f.name later.reverse).fault = none ∧
    ((p.inferFunctions t before).1.program.inferOps t f.name later.reverse).program = q

/-- A visit that fails is the last one. -/
theorem ComesTo.inferShapes_of_failsAt {f : Function} {x : OpId} {q : Program}
    {fault : DomainFault}
    (h : p.ComesTo t f x q)
    (hfails : q.FailsAt t f.name x fault) :
    (p.inferShapes t).1 = q ∧ (p.inferShapes t).2.2 = some fault := by
  obtain ⟨before, after, earlier, later, hfs, hbody, hbefore, hlater, hq⟩ := h.visit
  obtain ⟨o, ho, hk, herror⟩ := hfails
  have hstop : q.inferOps t f.name (x :: earlier.reverse) =
      { program := q, inferred := [], fault := some fault } := by
    simp [inferOps, ho, hk, herror]
  have hops := inferOps_append (x :: earlier.reverse) hlater
  have hreverse : f.body.reverse = later.reverse ++ x :: earlier.reverse := by
    rw [hbody]
    simp
  rw [← hreverse, hq, hstop] at hops
  have hfunctions := inferFunctions_append (f :: after) hbefore
  rw [← hfs] at hfunctions
  simp only [inferFunctions, if_pos h.stencil, inferFunction, hops.2, hops.1] at hfunctions
  exact hfunctions

/-- When a visit is due, exactly what stands behind it in the schedule is committed. -/
theorem ComesTo.commits {f : Function} {x : OpId} {q : Program}
    (h : p.ComesTo t f x q)
    (hc : p.Coherent)
    (hf : p.Fresh) :
    (∃ listed, p.Commits listed q) ∧ q.boundsOf x = p.boundsOf x := by
  obtain ⟨before, after, earlier, later, hfs, hbody, hbefore, hlater, hq⟩ := h.visit
  have hfunctions := run_inferFunctions (t := t) hc hf before (Commits.start p)
  have hops := run_inferOps (t := t) hc hf f.name later.reverse hfunctions.commits
  have hcommits := hops.commits
  rw [hq, List.nil_append] at hcommits
  have hlisted := congrArg₂ (· ++ ·) (hfunctions.complete hbefore) (hops.complete hlater)
  rw [← List.map_append] at hlisted
  exact ⟨⟨_, hcommits⟩,
    (untouched_of_stopped hc hf hcommits hfs hbody hlisted (Or.inl rfl)).1⟩

end Visiting

/-- The results of a load or an apply have two uses, the first one before the second one,
by operations whose boxes are known and differ in rank. -/
structure MixedUses (p q : Program) (x : OpId) (b₁ b₂ : Bounds) : Prop where
  uses : ∃ o before first rest second, p.op? x = some o ∧ o.kind.isInferable = true ∧
    o.results.flatMap p.usesOf = before ++ first :: rest ∧ second ∈ rest ∧
    q.boundsOf first.user = some b₁ ∧ q.boundsOf second.user = some b₂
  ranks : b₁.rank ≠ b₂.rank

/-- An operation is not committed if its results have uses of different rank and the first
of them has a dimension: it keeps no bounds, and the run ends with an error. -/
theorem mixed_ranks_not_committed {p q : Program} {t : ExtentTable} {c : Compilation}
    {ds : List Diagnostic} {f : Function} {x : OpId} {b₁ b₂ : Bounds}
    (h : p.Built)
    (hinfer : Compilation.perform { program := p, extents := some t } .shapeInference = (c, ds))
    (hvisit : p.ComesTo t f x q)
    (hmixed : p.MixedUses q x b₁ b₂)
    (hdim : b₁ ≠ .nil) :
    c.program = q ∧ q.boundsOf x = none ∧ ∃ d, ds = [d] ∧ d.isError = true := by
  obtain ⟨o, before, first, rest, second, ho, hk, huses, hsecond, hb₁, hb₂⟩ := hmixed.uses
  obtain ⟨⟨listed, hcommits⟩, hbounds⟩ := hvisit.commits h.coherent h.fresh
  obtain ⟨o', ho', _, hkind, _, hresults⟩ := hcommits.frame.exists_op ho
  have hk' : o'.kind.isInferable = true := (OpKind.isInferable_eq_of_frame hkind).trans hk
  have huses' : o'.results.flatMap q.usesOf = before ++ first :: rest := by
    rw [hresults, hcommits.frame.uses]
    exact huses
  have hdemanding : ∀ {use b}, use ∈ before ++ first :: rest → q.boundsOf use.user = some b →
      q.Demanding use b := fun {use b} hmem hb => by
    rw [← huses] at hmem
    obtain ⟨v, _, hv⟩ := List.mem_flatMap.1 hmem
    obtain ⟨ou, hou, hoperand⟩ := h.coherent.mem_uses.1 hv
    obtain ⟨ou', hou', _, _, hoperands, _⟩ := hcommits.frame.exists_op hou
    exact ⟨hb, by rw [valueAt?, hou', Option.bind_some, hoperands, hoperand]; rfl⟩
  have hmeet : ∃ fault, q.meetDemands t f.name (.ofOp f.name o') .nil
      (before ++ first :: rest) = .error fault :=
    meetDemands_mixed (hdemanding (by simp) hb₁) (hdemanding (by simp [hsecond]) hb₂) hsecond
      hdim hmixed.ranks
  obtain ⟨fault, hfault⟩ := hmeet
  rw [← huses'] at hfault
  obtain ⟨hprogram, hend⟩ := hvisit.inferShapes_of_failsAt
    ⟨o', ho', hk', inferOp_eq_error.2 (Or.inl hfault)⟩
  have hnone : p.boundsOf x = none := by
    rw [boundsOf, ho]
    exact h.fresh.unbounded ho hk
  simp only [Compilation.perform, Option.getD_some, Prod.mk.injEq] at hinfer
  obtain ⟨rfl, rfl⟩ := hinfer
  exact ⟨hprogram, hbounds.trans hnone, fault.diagnostic, by rw [hend]; rfl,
    fault.diagnostic_spec.1⟩

/-- A function that loads its first field; there are two more of the given ranks. -/
def loadedOnce (r₁ r₂ : Nat) : Program :=
  ((({} : Program).beginFunction "mixed" true
    [.field .f64 1, .field .f64 r₁, .field .f64 r₂]).1.load ⟨0⟩).1

/-- One load whose result is stored twice. -/
def storedTwice (first second : Bounds) : Program :=
  (((loadedOnce first.rank second.rank).store ⟨3⟩ ⟨1⟩ first).1.store ⟨3⟩ ⟨2⟩ second).1

/-- The function that stores twice. -/
def storesTwice : Function :=
  { name := "mixed", stencil := true, args := [⟨0⟩, ⟨1⟩, ⟨2⟩], body := [⟨0⟩, ⟨1⟩, ⟨2⟩] }

theorem built_storedTwice (first second : Bounds) : (storedTwice first second).Built := by
  have hload : (loadedOnce first.rank second.rank).Built :=
    .load (.beginFunction _ _ _ .empty) (by rintro ⟨⟩) rfl
  have hstore : ((loadedOnce first.rank second.rank).store ⟨3⟩ ⟨1⟩ first).1.Built :=
    .store first hload (by rintro ⟨⟩) rfl rfl
  exact .store second hstore (by rintro ⟨⟩) rfl rfl

theorem comesTo_storedTwice (t : ExtentTable) (first second : Bounds) :
    (storedTwice first second).ComesTo t storesTwice ⟨0⟩ (storedTwice first second) := by
  have hfunctions : (storedTwice first second).functions.toList = [storesTwice] := rfl
  exact ⟨rfl, [], [], [], [⟨1⟩, ⟨2⟩], hfunctions, rfl, rfl, rfl, rfl⟩

theorem mixedUses_storedTwice {first second : Bounds} (hne : first.rank ≠ second.rank) :
    (storedTwice first second).MixedUses (storedTwice first second) ⟨0⟩ first second := by
  have ho : (storedTwice first second).op? ⟨0⟩ = some
      { id := ⟨0⟩, kind := .load none, operands := [⟨0⟩], operandTypes := [.field .f64 1],
        results := [⟨3⟩], parent := none } := rfl
  have huses : (storedTwice first second).usesOf ⟨3⟩ = [⟨⟨1⟩, 0⟩, ⟨⟨2⟩, 0⟩] := rfl
  exact ⟨⟨_, [], ⟨⟨1⟩, 0⟩, [⟨⟨2⟩, 0⟩], ⟨⟨2⟩, 0⟩, ho, rfl, by simp [huses],
    List.mem_singleton_self _, rfl, rfl⟩, hne⟩

/-- Four cells in one dimension. -/
def fourCells : Bounds :=
  { lower := [.ofInt64 0], upper := [.ofInt64 4] }

/-- What inference makes of a load that is stored twice. -/
def storedTwiceOutcome (first second : Bounds) : Compilation × List Diagnostic :=
  Compilation.perform { program := storedTwice first second, extents := some .empty }
    .shapeInference

theorem mixed_ranks_not_committed_storedTwice :
    fourCells ≠ .nil ∧ (storedTwiceOutcome fourCells .nil).1.program = storedTwice fourCells .nil ∧
      (storedTwice fourCells .nil).boundsOf ⟨0⟩ = none ∧
      ∃ d, (storedTwiceOutcome fourCells .nil).2 = [d] ∧ d.isError = true := by
  have hdim : fourCells ≠ .nil := by decide
  exact ⟨hdim, mixed_ranks_not_committed (built_storedTwice fourCells .nil) Prod.mk.eta.symm
    (comesTo_storedTwice .empty fourCells .nil) (mixedUses_storedTwice (by decide)) hdim⟩

/-- The other way round the use of rank zero is absorbed: the operation is committed with
the bounds of the other use, and nothing is reported. -/
theorem mixed_ranks_absorbed :
    (storedTwice .nil fourCells).Built ∧
      (storedTwice .nil fourCells).ComesTo .empty storesTwice ⟨0⟩ (storedTwice .nil fourCells) ∧
      (storedTwice .nil fourCells).MixedUses (storedTwice .nil fourCells) ⟨0⟩ .nil fourCells ∧
      (storedTwiceOutcome .nil fourCells).2 = [] ∧
      (storedTwiceOutcome .nil fourCells).1.program.boundsOf ⟨0⟩ = some fourCells :=
  ⟨built_storedTwice .nil fourCells, comesTo_storedTwice .empty .nil fourCells,
    mixedUses_storedTwice (by decide), by decide, by decide⟩

end Program
end StencilShapes
