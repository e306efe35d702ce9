import StencilShapes.Proofs.Domain.Rejection
import StencilShapes.Proofs.Extent.Counterparts

/-!
# Inference does not depend on order

Two programs that mirror each other are inferred side by side.  What an operation is asked
for is said by what reads its results, whichever way the readers are ordered: an operation is
admissible in one program when it is in the other, and its domain spans the same demands.  So
the domains are the same, from the last operations on up, and a run over one program has a
fault only if the run over the other has one.

**Results.**
* `Bounds.Spans.unique`: demands are spanned by one box.
* `Program.Admissible.of_echoes`: an operation is admissible when it is asked for the same.
* `Program.Parallel.bounds_eq`: counterparts that have a domain have the same one.
* `Program.Corresponds.fault_iff`: both runs have a fault or neither has.
-/

namespace StencilShapes

/-- Demands are spanned by one box. -/
theorem Bounds.Spans.unique {b b' : Bounds} {r : Nat} {L U : Nat → Set Int}
    (h : b.Spans r L U) (h' : b'.Spans r L U) :
    b = b' := by
  have hlower : b.lower = b'.lower := by
    refine Point.ext_coord (h.ranked.1.trans h'.ranked.1.symm) fun d hd => ?_
    rw [h.ranked.1] at hd
    exact (h.isLeast d hd).unique (h'.isLeast d hd)
  have hupper : b.upper = b'.upper := by
    refine Point.ext_coord (h.ranked.2.trans h'.ranked.2.symm) fun d hd => ?_
    rw [h.ranked.2] at hd
    exact (h.isGreatest d hd).unique (h'.isGreatest d hd)
  cases b
  cases b'
  cases hlower
  cases hupper
  rfl

namespace Program

section Echoes

variable {p p' : Program} {t t' : ExtentTable} {bounds bounds' : OpId → Option Bounds}
  {x x' : OpId}

/-- What is asked of `x` is asked of `x'` as well, by a reader that has the same bounds and
reads at the same extent. -/
def Echoes (p p' : Program) (t t' : ExtentTable) (bounds bounds' : OpId → Option Bounds)
    (x x' : OpId) : Prop :=
  ∀ v u b, p.Reads x v u → bounds u = some b →
    ∃ v' u', p'.Reads x' v' u' ∧ bounds' u' = some b ∧ t.find? u v = t'.find? u' v'

theorem negativeAt_eq {u u' : OpId} {v v' : ValueId} (h : t.find? u v = t'.find? u' v')
    (d : Nat) :
    t.negativeAt u v d = t'.negativeAt u' v' d := by
  rw [ExtentTable.negativeAt, ExtentTable.negativeAt, h]

theorem positiveAt_eq {u u' : OpId} {v v' : ValueId} (h : t.find? u v = t'.find? u' v')
    (d : Nat) :
    t.positiveAt u v d = t'.positiveAt u' v' d := by
  rw [ExtentTable.positiveAt, ExtentTable.positiveAt, h]

/-- Each end that is demanded of one operation is demanded of the other. -/
theorem Echoes.needs_subset (h : p.Echoes p' t t' bounds bounds' x x') (d : Nat) :
    p.lowerNeeds t bounds x d ⊆ p'.lowerNeeds t' bounds' x' d ∧
      p.upperNeeds t bounds x d ⊆ p'.upperNeeds t' bounds' x' d := by
  constructor
  · rintro n ⟨v, u, b, hread, hb, hd, rfl⟩
    obtain ⟨v', u', hread', hb', hextent⟩ := h v u b hread hb
    exact ⟨v', u', b, hread', hb', hd, by rw [negativeAt_eq hextent]⟩
  · rintro n ⟨v, u, b, hread, hb, hd, rfl⟩
    obtain ⟨v', u', hread', hb', hextent⟩ := h v u b hread hb
    exact ⟨v', u', b, hread', hb', hd, by rw [positiveAt_eq hextent]⟩

/-- The same ends are demanded of operations that are asked for the same. -/
theorem needs_eq
    (h : p.Echoes p' t t' bounds bounds' x x')
    (h' : p'.Echoes p t' t bounds' bounds x' x) :
    p.lowerNeeds t bounds x = p'.lowerNeeds t' bounds' x' ∧
      p.upperNeeds t bounds x = p'.upperNeeds t' bounds' x' :=
  ⟨funext fun d => ((h.needs_subset d).1).antisymm (h'.needs_subset d).1,
    funext fun d => ((h.needs_subset d).2).antisymm (h'.needs_subset d).2⟩

/-- An operation is admissible when it is asked for the same as an admissible one. -/
theorem Admissible.of_echoes
    (hadmissible : p.Admissible t bounds x)
    (h : p.Echoes p' t t' bounds bounds' x x')
    (h' : p'.Echoes p t' t bounds' bounds x' x)
    (hused : ∃ v u r, p'.Reads x' v u ∧ p'.HasRank v r ∧ 0 < r) :
    p'.Admissible t' bounds' x' := by
  obtain ⟨hlower, hupper⟩ := needs_eq h h'
  refine ⟨hused, fun v' u' b hread' hb' d hd => ?_, ?_, ?_⟩
  · obtain ⟨v, u, hread, hb, hextent⟩ := h' v' u' b hread' hb'
    rw [negativeAt_eq hextent, positiveAt_eq hextent]
    exact hadmissible.widens v u b hread hb d hd
  · rw [← hlower, ← hupper]
    exact hadmissible.sized
  · rw [← hlower, ← hupper]
    exact hadmissible.nonempty

end Echoes

/-- Inference has come to `q`, where some operations of `p` are done. -/
structure Stage (p : Program) (t : ExtentTable) (q : Program) : Prop where
  coherent : p.Coherent
  inScope : p.Scoped
  progress : ∃ done, p.Progress t done q

namespace Stage

variable {p q : Program} {t : ExtentTable} {x u : OpId} {o ou : Operation} {v : ValueId}
  {b : Bounds} {r : Nat}

/-- What is not inferable has the bounds that it had from the start. -/
theorem boundsOf_eq (h : p.Stage t q) (ho : p.op? u = some o) (hk : o.kind.isInferable = false) :
    q.boundsOf u = o.kind.bounds? := by
  obtain ⟨done, hprogress⟩ := h.progress
  obtain ⟨o', ho', hkind, _⟩ := hprogress.frame.exists_op_eq ho hk
  rw [boundsOf, ho', Option.bind_some, hkind]

/-- A load or an apply that has bounds is settled. -/
theorem settled (h : p.Stage t q) (ho : p.op? x = some o) (hk : o.kind.isInferable = true)
    (hb : q.boundsOf x = some b) :
    p.Settled t q.boundsOf x := by
  obtain ⟨done, hprogress⟩ := h.progress
  refine hprogress.settled ho hk ?_
  by_contra hnot
  rw [(hprogress.untouched ho hk hnot).1] at hb
  cases hb

/-- Bounds have the rank of what a shaped operation reads. -/
theorem ranked (h : p.Stage t q) (hread : p.Reads x v u) (hb : q.boundsOf u = some b) :
    ∃ r, p.HasRank v r ∧ b.Ranked r := by
  obtain ⟨_, ou, _, _, hou, hshaped, hmem⟩ := hread
  cases hk : ou.kind.isInferable with
  | false =>
      obtain ⟨r, hr⟩ := h.inScope.ranked hou hshaped
      exact ⟨r, hr.operands v hmem, hr.bounds b ((h.boundsOf_eq hou hk).symm.trans hb)⟩
  | true =>
      obtain ⟨o', b', r, ho', hr, hb', hspans⟩ := (h.settled hou hk hb).spans
      obtain rfl := Option.some.inj (hou.symm.trans ho')
      obtain rfl := Option.some.inj (hb.symm.trans hb')
      exact ⟨r, hr.operands v hmem, hspans.ranked⟩

/-- An operation has the rank of the bounds of what reads it. -/
theorem rank_eq (h : p.Stage t q) (ho : p.op? x = some o) (hr : p.OpRank o r)
    (hread : p.Reads x v u) (hb : q.boundsOf u = some b) :
    r = b.rank := by
  obtain ⟨_, ou, _, _, hou, hshaped, hmem⟩ := id hread
  obtain ⟨s, hs⟩ := h.inScope.ranked hou hshaped
  obtain ⟨rfl, _⟩ := rank_of_reads h.coherent ho hou hr hs hread
  obtain ⟨s, hv, hranked⟩ := h.ranked hread hb
  rw [hranked.rank_eq]
  exact (hs.operands v hmem).unique hv

end Stage

/-- Inference has come to some operations of two programs that mirror each other, with the
same extents. -/
structure Parallel (p p' : Program) (R : OpId → OpId → Prop) (V : ValueId → ValueId → Prop)
    (t t' : ExtentTable) (q q' : Program) : Prop where
  corresponds : p.Corresponds p' R V
  extents : ∀ {u u' v v'}, R u u' → V v v' → t.find? u v = t'.find? u' v'
  stage : p.Stage t q
  stage' : p'.Stage t' q'

section Readers

variable {p p' : Program} {R : OpId → OpId → Prop} {V : ValueId → ValueId → Prop}
  {x x' u : OpId} {v : ValueId}

/-- Where results and operands correspond, the counterpart of a reader reads the counterpart
of the result. -/
theorem Reads.counterpart {x' u' : OpId} {ox ox' ou ou' : Operation}
    (hread : p.Reads x v u)
    (hox : p.op? x = some ox) (hox' : p'.op? x' = some ox')
    (hou : p.op? u = some ou) (hou' : p'.op? u' = some ou')
    (hresults : List.Forall₂ V ox.results ox'.results)
    (hoperands : List.Forall₂ V ou.operands ou'.operands)
    (hshaped : ou.kind.isShaped = ou'.kind.isShaped)
    (hvalue : ∀ {v w w'}, V v w → V v w' → w = w') :
    ∃ v', V v v' ∧ p'.Reads x' v' u' := by
  obtain ⟨ox₁, ou₁, hox₁, hres, hou₁, hk, hmem⟩ := hread
  obtain rfl := Option.some.inj (hox.symm.trans hox₁)
  obtain rfl := Option.some.inj (hou.symm.trans hou₁)
  obtain ⟨j, hj⟩ := List.getElem?_of_mem hres
  obtain ⟨v', hv', hv⟩ := exists_getElem?_of_forall₂ hresults hj
  obtain ⟨k, hk'⟩ := List.getElem?_of_mem hmem
  obtain ⟨w', hw', hw⟩ := exists_getElem?_of_forall₂ hoperands hk'
  obtain rfl := hvalue hv hw
  exact ⟨v', hv, ox', ou', hox', List.mem_of_getElem? hv', hou', hshaped.symm.trans hk,
    List.mem_of_getElem? hw'⟩

/-- What reads a result has a counterpart that reads the counterpart of the result. -/
theorem Mirrors.reads (h : p.Mirrors p' R V) (hx : R x x') (hread : p.Reads x v u) :
    ∃ u' v', R u u' ∧ V v v' ∧ p'.Reads x' v' u' := by
  obtain ⟨u', hu⟩ := h.readers hx hread
  obtain ⟨ox, ox', hox, hox', htwins⟩ := h.twins hx
  obtain ⟨ou, ou', hou, hou', htwins'⟩ := h.twins hu
  obtain ⟨v', hv, hread'⟩ := hread.counterpart hox hox' hou hou' htwins.results htwins'.operands
    htwins'.isShaped_eq h.value
  exact ⟨u', v', hu, hv, hread'⟩

end Readers

namespace Parallel

variable {p p' q q' : Program} {R : OpId → OpId → Prop} {V : ValueId → ValueId → Prop}
  {t t' : ExtentTable} {x x' : OpId} {b b' : Bounds}

/-- Operations are asked for the same if readers that correspond have the same bounds. -/
theorem echoes
    (h : p.Parallel p' R V t t' q q')
    (hx : R x x')
    (hknown : ∀ v u, p.Reads x v u → ∃ b, q.boundsOf u = some b)
    (hknown' : ∀ v u, p'.Reads x' v u → ∃ b, q'.boundsOf u = some b)
    (hsame : ∀ {v u u' b b'}, p.Reads x v u → R u u' → q.boundsOf u = some b →
      q'.boundsOf u' = some b' → b = b') :
    p.Echoes p' t t' q.boundsOf q'.boundsOf x x' ∧
      p'.Echoes p t' t q'.boundsOf q.boundsOf x' x := by
  constructor
  · intro v u b hread hb
    obtain ⟨u', v', hu, hv, hread'⟩ := h.corresponds.forth.reads hx hread
    obtain ⟨b', hb'⟩ := hknown' v' u' hread'
    obtain rfl := hsame hread hu hb hb'
    exact ⟨v', u', hread', hb', h.extents hu hv⟩
  · intro v' u' b' hread' hb'
    obtain ⟨u, v, hu, hv, hread⟩ := h.corresponds.back.reads hx hread'
    obtain ⟨b, hb⟩ := hknown v u hread
    obtain rfl := hsame hread hu hb hb'
    exact ⟨v, u, hread, hb, (h.extents hu hv).symm⟩

/-- A result is used in a dimension if its counterpart is. -/
theorem used
    (h : p.Parallel p' R V t t' q q')
    (hechoes : p.Echoes p' t t' q.boundsOf q'.boundsOf x x')
    (hknown : ∀ v u, p.Reads x v u → ∃ b, q.boundsOf u = some b)
    (hused : ∃ v u r, p.Reads x v u ∧ p.HasRank v r ∧ 0 < r) :
    ∃ v u r, p'.Reads x' v u ∧ p'.HasRank v r ∧ 0 < r := by
  obtain ⟨v, u, r, hread, hr, hpos⟩ := hused
  obtain ⟨b, hb⟩ := hknown v u hread
  obtain ⟨v', u', hread', hb', _⟩ := hechoes v u b hread hb
  obtain ⟨s, hs, hranked⟩ := h.stage.ranked hread hb
  obtain ⟨s', hs', hranked'⟩ := h.stage'.ranked hread' hb'
  obtain rfl := hr.unique hs
  have hrank := hranked.rank_eq.symm.trans hranked'.rank_eq
  exact ⟨v', u', s', hread', hs', hrank ▸ hpos⟩

/-- Settled operations that are asked for the same have the same bounds. -/
theorem eq_of_settled
    (h : p.Parallel p' R V t t' q q')
    (hechoes : p.Echoes p' t t' q.boundsOf q'.boundsOf x x')
    (hechoes' : p'.Echoes p t' t q'.boundsOf q.boundsOf x' x)
    (hsettled : p.Settled t q.boundsOf x)
    (hsettled' : p'.Settled t' q'.boundsOf x')
    (hb : q.boundsOf x = some b) (hb' : q'.boundsOf x' = some b') :
    b = b' := by
  obtain ⟨o, b₁, r, ho, hr, hb₁, hspans⟩ := hsettled.spans
  obtain rfl := Option.some.inj (hb.symm.trans hb₁)
  obtain ⟨o', b₁, r', ho', hr', hb₁, hspans'⟩ := hsettled'.spans
  obtain rfl := Option.some.inj (hb'.symm.trans hb₁)
  -- Both have the rank of a reader, and the readers have the same bounds.
  obtain ⟨v, u, _, hread, _⟩ := hsettled.admissible.used
  obtain ⟨c, hc⟩ := hsettled.readers v u hread
  obtain ⟨v', u', hread', hc', _⟩ := hechoes v u c hread hc
  obtain rfl : r = r' :=
    (h.stage.rank_eq ho hr hread hc).trans (h.stage'.rank_eq ho' hr' hread' hc').symm
  obtain ⟨hlower, hupper⟩ := needs_eq hechoes hechoes'
  rw [← hlower, ← hupper] at hspans'
  exact hspans.unique hspans'

/-- Counterparts that have bounds have the same ones. -/
theorem bounds_eq
    (h : p.Parallel p' R V t t' q q')
    (hx : R x x')
    (hin : InStencil p.functions.toList x)
    (hb : q.boundsOf x = some b) (hb' : q'.boundsOf x' = some b') :
    b = b' := by
  -- What reads a result stands behind it, so fewer operations are left there.
  induction hn : p.ops.size - x.index using Nat.strong_induction_on
    generalizing x x' b b' with
  | _ n ih =>
      obtain ⟨o, o', ho, ho', htwins⟩ := h.corresponds.forth.twins hx
      have hinferable := htwins.isInferable_eq
      cases hk : o.kind.isInferable with
      | false =>
          rw [h.stage.boundsOf_eq ho hk, htwins.bounds?_eq] at hb
          rw [h.stage'.boundsOf_eq ho' (hinferable ▸ hk), hb] at hb'
          exact Option.some.inj hb'
      | true =>
          have hsettled := h.stage.settled ho hk hb
          have hsettled' := h.stage'.settled ho' (hinferable ▸ hk) hb'
          obtain ⟨hechoes, hechoes'⟩ := h.echoes hx hsettled.readers hsettled'.readers
            fun {v u u' c c'} hread hu hc hc' => by
              obtain ⟨f, hf, hstencil, hmem⟩ := hin
              obtain ⟨hmem', hlt⟩ :=
                mem_body_of_reads h.stage.coherent h.stage.inScope hf hmem hread
              obtain ⟨_, ou, _, _, hou, _⟩ := hread
              have hsize := op?_lt hou
              exact ih _ (by omega) hu ⟨f, hf, hstencil, hmem'⟩ hc hc' rfl
          exact h.eq_of_settled hechoes hechoes' hsettled hsettled' hb hb'

/-- When both runs are through, counterparts have the same bounds or none. -/
theorem boundsOf_eq
    (h : p.Parallel p' R V t t' q q')
    (hdone : p.Progress t (InStencil p.functions.toList) q)
    (hdone' : p'.Progress t' (InStencil p'.functions.toList) q')
    (hx : R x x') :
    q.boundsOf x = q'.boundsOf x' := by
  obtain ⟨o, o', ho, ho', htwins⟩ := h.corresponds.forth.twins hx
  have hinferable := htwins.isInferable_eq
  cases hk : o.kind.isInferable with
  | false =>
      rw [h.stage.boundsOf_eq ho hk, h.stage'.boundsOf_eq ho' (hinferable ▸ hk), htwins.bounds?_eq]
  | true =>
      by_cases hin : InStencil p.functions.toList x
      · have hin' := h.corresponds.forth.stencil hx hin
        obtain ⟨b, _, hb, _⟩ := hdone.shaped ho hk hin
        obtain ⟨b', _, hb', _⟩ := hdone'.shaped ho' (hinferable ▸ hk) hin'
        rw [hb, hb', h.bounds_eq hx hin hb hb']
      · have hin' : ¬ InStencil p'.functions.toList x' := fun hin' =>
          hin (h.corresponds.back.stencil hx hin')
        rw [(hdone.untouched ho hk hin).1, (hdone'.untouched ho' (hinferable ▸ hk) hin').1]

end Parallel

section Runs

variable {p p' q q' : Program} {R : OpId → OpId → Prop} {V : ValueId → ValueId → Prop}
  {t t' : ExtentTable} {s s' : ShapeSummary}

/-- A run over one program has no fault if the run over the other has none: what is not
admissible there would not be admissible here. -/
theorem Corresponds.inferShapes_ne_fault
    (h : p.Corresponds p' R V)
    (hc : p.Coherent) (hs : p.Scoped) (hm : p.Measured t)
    (hc' : p'.Coherent) (hs' : p'.Scoped) (hm' : p'.Measured t')
    (hextents : ∀ {u u' v v'}, R u u' → V v v' → t.find? u v = t'.find? u' v')
    (hrun : p.inferShapes t = (q, s, none)) (fault : DomainFault) :
    p'.inferShapes t' ≠ (q', s', some fault) := by
  intro hfault
  have hprogress := progress_of_inferShapes hc hs hm hrun
  obtain ⟨before, f', after, hfs, hstencil, earlier, x', later, o', r, o'', hbody, hprogress',
    hvisit, ho', herror⟩ := progress_of_fault hc' hs' hm' hfault
  have hin' : InStencil p'.functions.toList x' := by
    refine ⟨f', by rw [hfs]; simp, hstencil, by rw [hbody]; simp⟩
  obtain ⟨x, hx⟩ := h.back.total hin'
  have hin := h.back.stencil hx hin'
  obtain ⟨o, o₁, ho, ho₁, htwins⟩ := h.forth.twins hx
  obtain rfl := Option.some.inj (hvisit.op.symm.trans ho₁)
  have hk : o.kind.isInferable = true := htwins.isInferable_eq.trans hvisit.inferable
  have hsettled := hprogress.settled ho hk hin
  have hparallel : p.Parallel p' R V t t' q q' :=
    ⟨h, hextents, ⟨hc, hs, _, hprogress⟩, ⟨hc', hs', _, hprogress'⟩⟩
  have hreaders' : ∀ v u, p'.Reads x' v u → ∃ b, q'.boundsOf u = some b := fun v u hread =>
    (hvisit.ranked_of_reads hread).imp fun _ hb => hb.1
  obtain ⟨hechoes, hechoes'⟩ := hparallel.echoes hx hsettled.readers hreaders'
    fun {v u u' b b'} hread hu hb hb' => by
      obtain ⟨f, hf, hstencil, hmem⟩ := hin
      have hmem' := (mem_body_of_reads hc hs hf hmem hread).1
      exact hparallel.bounds_eq hu ⟨f, hf, hstencil, hmem'⟩ hb hb'
  exact (hvisit.verdict ho' herror).not_admissible (hsettled.admissible.of_echoes hechoes hechoes'
    (hparallel.used hechoes hsettled.readers hsettled.admissible.used))

end Runs
end Program
end StencilShapes
