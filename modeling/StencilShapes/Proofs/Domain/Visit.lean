import StencilShapes.Proofs.Domain.Demand
import StencilShapes.Proofs.Domain.Frame
import StencilShapes.Proofs.Extent.Cover

/-!
# The visit of one operation

When inference comes to a load or an apply, everything that reads its results has
bounds of the same rank.  What the visit does then depends on four things only: its
results are used in one dimension at least, no demanded end leaves the range, no
size leaves the range, and no size is less than one.

**Results.**
* `Program.Visit.settled`: a visit that goes on leaves the least box that meets all
  demands.
* `Program.Settled.mono`: what is settled stays settled.
-/

namespace StencilShapes
namespace Program

/-- A shaped operation `u` reads the result `v` of `x`. -/
def Reads (p : Program) (x : OpId) (v : ValueId) (u : OpId) : Prop :=
  ∃ ox ou, p.op? x = some ox ∧ v ∈ ox.results ∧ p.op? u = some ou ∧
    ou.kind.isShaped = true ∧ v ∈ ou.operands

/-- The lower ends that the readers of `x` demand in a dimension, for the given bounds. -/
def lowerNeeds (p : Program) (t : ExtentTable) (bounds : OpId → Option Bounds) (x : OpId)
    (d : Nat) : Set Int :=
  {n | ∃ v u b, p.Reads x v u ∧ bounds u = some b ∧ d < b.rank ∧
    n = b.lower.coord d + t.negativeAt u v d}

/-- The upper ends that the readers of `x` demand in a dimension, for the given bounds. -/
def upperNeeds (p : Program) (t : ExtentTable) (bounds : OpId → Option Bounds) (x : OpId)
    (d : Nat) : Set Int :=
  {n | ∃ v u b, p.Reads x v u ∧ bounds u = some b ∧ d < b.rank ∧
    n = b.upper.coord d + t.positiveAt u v d}

/-- No end of the box that one reader demands leaves the range. -/
def Widens (t : ExtentTable) (u : OpId) (v : ValueId) (b : Bounds) : Prop :=
  ∀ d < b.rank, Coord.InRange (b.lower.coord d + t.negativeAt u v d) ∧
    Coord.InRange (b.upper.coord d + t.positiveAt u v d)

/-- A load or an apply has a domain, given the bounds of what reads its results. -/
structure Admissible (p : Program) (t : ExtentTable) (bounds : OpId → Option Bounds) (x : OpId) :
    Prop where
  /-- Some result is read, in one dimension at least. -/
  used : ∃ v u r, p.Reads x v u ∧ p.HasRank v r ∧ 0 < r
  /-- What the readers demand stays in range. -/
  widens : ∀ v u b, p.Reads x v u → bounds u = some b → Widens t u v b
  sized : ∀ d lo hi, IsLeast (p.lowerNeeds t bounds x d) lo →
    IsGreatest (p.upperNeeds t bounds x d) hi → Coord.InRange (hi - lo)
  nonempty : ∀ d lo hi, IsLeast (p.lowerNeeds t bounds x d) lo →
    IsGreatest (p.upperNeeds t bounds x d) hi → 1 ≤ hi - lo

/-- A load or an apply that has the least box that meets all demands. -/
structure Settled (p : Program) (t : ExtentTable) (bounds : OpId → Option Bounds) (x : OpId) :
    Prop where
  admissible : p.Admissible t bounds x
  readers : ∀ v u, p.Reads x v u → ∃ b, bounds u = some b
  /-- Its bounds have its rank and span the demands. -/
  spans : ∃ o b r, p.op? x = some o ∧ p.OpRank o r ∧ bounds x = some b ∧
    b.Spans r (p.lowerNeeds t bounds x) (p.upperNeeds t bounds x)

section Needs

variable {p : Program} {t : ExtentTable} {bounds bounds' : OpId → Option Bounds} {x : OpId}

/-- Demands do not change when further operations get bounds. -/
theorem needs_congr
    (hreaders : ∀ v u, p.Reads x v u → ∃ b, bounds u = some b)
    (hext : ∀ u b, bounds u = some b → bounds' u = some b) :
    p.lowerNeeds t bounds' x = p.lowerNeeds t bounds x ∧
      p.upperNeeds t bounds' x = p.upperNeeds t bounds x := by
  have hsame : ∀ {v u b}, p.Reads x v u → (bounds' u = some b ↔ bounds u = some b) := by
    intro v u b hr
    obtain ⟨c, hc⟩ := hreaders v u hr
    rw [hc, hext u c hc]
  have hneeds : ∀ Asks : ValueId → OpId → Bounds → Prop,
      (∃ v u b, p.Reads x v u ∧ bounds' u = some b ∧ Asks v u b) ↔
        ∃ v u b, p.Reads x v u ∧ bounds u = some b ∧ Asks v u b := fun Asks =>
    exists_congr fun v => exists_congr fun u => exists_congr fun b =>
      and_congr_right fun hr => and_congr_left' (hsame hr)
  exact ⟨funext fun d => Set.ext fun n => hneeds _, funext fun d => Set.ext fun n => hneeds _⟩

theorem Admissible.mono
    (h : p.Admissible t bounds x)
    (hreaders : ∀ v u, p.Reads x v u → ∃ b, bounds u = some b)
    (hext : ∀ u b, bounds u = some b → bounds' u = some b) :
    p.Admissible t bounds' x := by
  obtain ⟨hlower, hupper⟩ := needs_congr (t := t) hreaders hext
  refine ⟨h.used, fun v u b hr hb => ?_, fun d => ?_, fun d => ?_⟩
  · obtain ⟨c, hc⟩ := hreaders v u hr
    obtain rfl : b = c := Option.some.inj (hb.symm.trans (hext u c hc))
    exact h.widens v u b hr hc
  · rw [hlower, hupper]
    exact h.sized d
  · rw [hlower, hupper]
    exact h.nonempty d

/-- What is settled stays so when further operations get bounds. -/
theorem Settled.mono
    (h : p.Settled t bounds x)
    (hext : ∀ u b, bounds u = some b → bounds' u = some b) :
    p.Settled t bounds' x := by
  obtain ⟨hlower, hupper⟩ := needs_congr (t := t) h.readers hext
  refine ⟨h.admissible.mono h.readers hext, fun v u hr => ?_, ?_⟩
  · exact (h.readers v u hr).imp fun b => hext u b
  · rcases h.spans with ⟨o, b, r, ho, hr, hb, hspans⟩
    refine ⟨o, b, r, ho, hr, hext x b hb, ?_⟩
    rw [hlower, hupper]
    exact hspans

end Needs

section Uses

variable {p : Program} {f : Function} {x u : OpId} {v : ValueId} {o ou : Operation}

/-- What is entered as a use of a result reads it. -/
theorem reads_of_mem_uses {use : Use}
    (hc : p.Coherent) (hs : p.Scoped)
    (hf : f ∈ p.functions.toList)
    (hx : x ∈ f.body)
    (ho : p.op? x = some o)
    (huse : use ∈ o.results.flatMap p.usesOf) :
    ∃ v ou, p.Reads x v use.user ∧ p.op? use.user = some ou ∧
      ou.operands[use.operand]? = some v := by
  rcases List.mem_flatMap.1 huse with ⟨v, hv, huse⟩
  rcases hc.mem_uses.1 huse with ⟨ou, hou, hi⟩
  obtain ⟨hmem, _⟩ := hs.flow f hf x hx o ho v hv use huse
  obtain ⟨ou', hou', hk⟩ := hs.body f hf _ hmem
  obtain rfl : ou = ou' := Option.some.inj (hou.symm.trans hou')
  exact ⟨v, ou, ⟨o, ou, ho, hv, hou, hk, List.mem_of_getElem? hi⟩, hou, hi⟩

/-- What reads a result is entered as a use of it. -/
theorem exists_use_of_reads
    (hc : p.Coherent)
    (ho : p.op? x = some o)
    (hr : p.Reads x v u) :
    ∃ use ∈ o.results.flatMap p.usesOf, use.user = u ∧
      ∃ ou, p.op? u = some ou ∧ ou.operands[use.operand]? = some v := by
  rcases hr with ⟨ox, ou, hox, hv, hou, _, hmem⟩
  obtain rfl : o = ox := Option.some.inj (ho.symm.trans hox)
  obtain ⟨i, hi⟩ := List.getElem?_of_mem hmem
  refine ⟨{ user := u, operand := i }, List.mem_flatMap.2 ⟨v, hv, ?_⟩, rfl, ou, hou, hi⟩
  exact hc.mem_uses.2 ⟨ou, hou, hi⟩

/-- What reads a result stands behind the operation that defines it. -/
theorem mem_body_of_reads
    (hc : p.Coherent) (hs : p.Scoped)
    (hf : f ∈ p.functions.toList)
    (hx : x ∈ f.body)
    (hr : p.Reads x v u) :
    u ∈ f.body ∧ x.index < u.index := by
  rcases hr with ⟨ox, ou, hox, hv, hou, _, hmem⟩
  obtain ⟨i, hi⟩ := List.getElem?_of_mem hmem
  exact hs.flow f hf x hx ox hox v hv { user := u, operand := i } (hc.mem_uses.2 ⟨ou, hou, hi⟩)

/-- An operation and what reads its results have one rank, which is that of the result. -/
theorem rank_of_reads {r s : Nat}
    (hc : p.Coherent)
    (ho : p.op? x = some o)
    (hou : p.op? u = some ou)
    (hr : p.OpRank o r)
    (hs : p.OpRank ou s)
    (h : p.Reads x v u) :
    r = s ∧ p.HasRank v r := by
  rcases h with ⟨ox, ou', hox, hv, hou', _, hmem⟩
  obtain rfl : o = ox := Option.some.inj (ho.symm.trans hox)
  obtain rfl : ou = ou' := Option.some.inj (hou.symm.trans hou')
  obtain ⟨j, hj⟩ := hc.mem_results ho hv
  have hrank : p.HasRank v s := hs.operands v hmem
  obtain ⟨w, hw, hws⟩ := hrank.head hj ho
  have hwr : p.HasRank w r := hr.operands w (List.mem_of_head? hw)
  obtain rfl := hwr.unique hws
  exact ⟨rfl, hrank⟩

end Uses

/-- Inference comes to the operation `x` of the program `p`, which has become `q` so far. -/
structure Visit (p q : Program) (t : ExtentTable) (f : Function) (x : OpId) (o : Operation)
    (r : Nat) : Prop where
  coherent : p.Coherent
  inScope : p.Scoped
  measured : p.Measured t
  frame : p.SameFrame q
  mem_functions : f ∈ p.functions.toList
  mem_body : x ∈ f.body
  op : p.op? x = some o
  inferable : o.kind.isInferable = true
  rank : p.OpRank o r
  /-- Nothing is known of the operation yet. -/
  free : q.boundsOf x = none
  /-- Whatever reads its results has bounds of its own rank. -/
  readers : ∀ v u ou, p.Reads x v u → p.op? u = some ou →
    ∃ b s, q.boundsOf u = some b ∧ p.OpRank ou s ∧ b.Ranked s

namespace Visit

variable {p q : Program} {t : ExtentTable} {f : Function} {x : OpId} {o : Operation} {r : Nat}

/-- The bounds of a reader have the rank of the operation. -/
theorem ranked_of_reads (h : Visit p q t f x o r) {v : ValueId} {u : OpId}
    (hr : p.Reads x v u) :
    ∃ b, q.boundsOf u = some b ∧ b.Ranked r ∧ p.HasRank v r := by
  obtain ⟨_, ou, _, _, hou, _⟩ := id hr
  obtain ⟨b, s, hb, hs, hranked⟩ := h.readers v u ou hr hou
  obtain ⟨rfl, hv⟩ := rank_of_reads h.coherent h.op hou h.rank hs hr
  exact ⟨b, hb, hranked, hv⟩

/-- A use of a result is one by a reader, whose bounds and extent have the rank. -/
theorem bounded (h : Visit p q t f x o r) {use : Use}
    (huse : use ∈ o.results.flatMap q.usesOf) :
    ∃ ou b v, q.Bounded t r use ou b v ∧ p.Reads x v use.user ∧
      ∃ ou', p.op? use.user = some ou' ∧ ou.id = ou'.id ∧ ou.kind.frame = ou'.kind.frame := by
  rw [h.frame.uses] at huse
  obtain ⟨v, ou, hr, hou, hi⟩ :=
    reads_of_mem_uses h.coherent h.inScope h.mem_functions h.mem_body h.op huse
  obtain ⟨ou', hou', hid, hkind, hops, _⟩ := h.frame.exists_op hou
  obtain ⟨b, hb, hranked, _⟩ := h.ranked_of_reads hr
  have hb' : ou'.kind.bounds? = some b := by simpa [boundsOf, hou'] using hb
  obtain ⟨_, s, _, hs, _⟩ := h.readers v use.user ou hr hou
  obtain ⟨rfl, _⟩ := rank_of_reads h.coherent h.op hou h.rank hs hr
  refine ⟨ou', b, v, ⟨hou', hb', by rw [hops, hi], hranked, fun e he => ?_⟩, hr, ou, hou, hid,
    hkind⟩
  exact h.measured.rank he hou hs

/-- A reader with bounds is found among the uses of the results. -/
theorem exists_bounded_of_reads (h : Visit p q t f x o r) {v : ValueId} {u : OpId} {b : Bounds}
    (hr : p.Reads x v u)
    (hb : q.boundsOf u = some b) :
    ∃ use ∈ o.results.flatMap q.usesOf, use.user = u ∧ ∃ ou, q.Bounded t r use ou b v := by
  obtain ⟨use, huse, rfl, ou, hou, hi⟩ := exists_use_of_reads h.coherent h.op hr
  rw [← h.frame.uses] at huse
  obtain ⟨ou', b', v', hb', _⟩ := h.bounded huse
  obtain ⟨_, _, hops, _⟩ := h.frame.op_eq hou hb'.op
  obtain rfl : v = v' := Option.some.inj (hi.symm.trans (hops ▸ hb'.value))
  obtain rfl : b = b' := by
    rw [boundsOf, hb'.op] at hb
    exact Option.some.inj (hb.symm.trans hb'.bounds)
  exact ⟨use, huse, rfl, ou', hb'⟩

/-- Readers demand what is folded from the uses. -/
theorem ends_eq (h : Visit p q t f x o r) {d : Nat} (hd : d < r) :
    q.lowerEnds t (o.results.flatMap q.usesOf) d = p.lowerNeeds t q.boundsOf x d ∧
      q.upperEnds t (o.results.flatMap q.usesOf) d = p.upperNeeds t q.boundsOf x d := by
  have hfrom : ∀ {use}, use ∈ o.results.flatMap q.usesOf → ∃ v u b, p.Reads x v u ∧
      q.boundsOf u = some b ∧ d < b.rank ∧
        q.lowerNeed t d use = b.lower.coord d + t.negativeAt u v d ∧
        q.upperNeed t d use = b.upper.coord d + t.positiveAt u v d := by
    intro use huse
    obtain ⟨ou, b, v, hb, hr, _⟩ := h.bounded huse
    refine ⟨v, use.user, b, hr, ?_, ?_, hb.lowerNeed_eq d, hb.upperNeed_eq d⟩
    · rw [boundsOf, hb.op]
      exact hb.bounds
    · rw [hb.ranked.rank_eq]
      exact hd
  have hto : ∀ {v u b}, p.Reads x v u → q.boundsOf u = some b →
      ∃ use ∈ o.results.flatMap q.usesOf,
        q.lowerNeed t d use = b.lower.coord d + t.negativeAt u v d ∧
        q.upperNeed t d use = b.upper.coord d + t.positiveAt u v d := by
    intro v u b hr hb
    obtain ⟨use, huse, rfl, ou, hb'⟩ := h.exists_bounded_of_reads hr hb
    exact ⟨use, huse, hb'.lowerNeed_eq d, hb'.upperNeed_eq d⟩
  constructor
  · ext n
    constructor
    · rintro ⟨use, huse, rfl⟩
      obtain ⟨v, u, b, hr, hb, hlt, hn, _⟩ := hfrom huse
      exact ⟨v, u, b, hr, hb, hlt, hn⟩
    · rintro ⟨v, u, b, hr, hb, _, rfl⟩
      obtain ⟨use, huse, hn, _⟩ := hto hr hb
      exact ⟨use, huse, hn.symm⟩
  · ext n
    constructor
    · rintro ⟨use, huse, rfl⟩
      obtain ⟨v, u, b, hr, hb, hlt, _, hn⟩ := hfrom huse
      exact ⟨v, u, b, hr, hb, hlt, hn⟩
    · rintro ⟨v, u, b, hr, hb, _, rfl⟩
      obtain ⟨use, huse, _, hn⟩ := hto hr hb
      exact ⟨use, huse, hn.symm⟩

/-- Demands are those of one rank. -/
theorem lt_of_isLeast (h : Visit p q t f x o r) {d : Nat} {lo : Int}
    (hlo : IsLeast (p.lowerNeeds t q.boundsOf x d) lo) :
    d < r := by
  rcases hlo.1 with ⟨v, u, b, hr, hb, hlt, _⟩
  obtain ⟨b', hb', hranked, _⟩ := h.ranked_of_reads hr
  obtain rfl : b = b' := Option.some.inj (hb.symm.trans hb')
  rw [← hranked.rank_eq]
  exact hlt

/-- A reader demands a box in range when each use by it does. -/
theorem widens_iff (h : Visit p q t f x o r) :
    (∀ use ∈ o.results.flatMap q.usesOf, q.Fits t r use) ↔
      ∀ v u b, p.Reads x v u → q.boundsOf u = some b → Widens t u v b := by
  constructor
  · intro hfits v u b hr hb
    obtain ⟨use, huse, rfl, ou, hb'⟩ := h.exists_bounded_of_reads hr hb
    intro d hd
    rw [← hb'.lowerNeed_eq, ← hb'.upperNeed_eq]
    exact hfits use huse d (hb'.ranked.rank_eq ▸ hd)
  · intro hwidens use huse d hd
    obtain ⟨ou, b, v, hb, hr, _⟩ := h.bounded huse
    rw [hb.lowerNeed_eq, hb.upperNeed_eq]
    refine hwidens v use.user b hr ?_ d ?_
    · rw [boundsOf, hb.op]
      exact hb.bounds
    · rw [hb.ranked.rank_eq]
      exact hd

/-- The box that is folded from the uses spans what the readers demand. -/
theorem spans_needs (h : Visit p q t f x o r) {b : Bounds}
    (hb : b.Spans r (q.lowerEnds t (o.results.flatMap q.usesOf))
      (q.upperEnds t (o.results.flatMap q.usesOf))) :
    b.Spans r (p.lowerNeeds t q.boundsOf x) (p.upperNeeds t q.boundsOf x) := by
  refine ⟨hb.ranked, fun d hd => ?_, fun d hd => ?_⟩
  · rw [← (h.ends_eq hd).1]
    exact hb.isLeast d hd
  · rw [← (h.ends_eq hd).2]
    exact hb.isGreatest d hd

/-- A visit that goes on keeps the bounds that are known. -/
theorem boundsOf_mono (h : Visit p q t f x o r) {q' : Program} {o' : Operation} {i : Inferred}
    (ho' : q.op? x = some o')
    (hok : q.inferOp t f.name o' = .ok (q', i)) :
    ∀ u c, q.boundsOf u = some c → q'.boundsOf u = some c := by
  intro u c hc
  have hid : o'.id = x := h.frame.op_id h.coherent.op_id ho'
  rw [(inferOp_spec hok).2, if_neg, hc]
  rintro rfl
  rw [hid, h.free] at hc
  cases hc

/-- A visit that goes on leaves the least box that meets all demands. -/
theorem settled (h : Visit p q t f x o r) {q' : Program} {o' : Operation} {i : Inferred}
    (ho' : q.op? x = some o')
    (hok : q.inferOp t f.name o' = .ok (q', i)) :
    p.Settled t q'.boundsOf x := by
  obtain ⟨hid, _, _, hresults⟩ := h.frame.op_eq h.op ho'
  obtain ⟨_, hbounds⟩ := inferOp_spec hok
  rcases inferOp_eq_ok.1 hok with ⟨b, shape, _, hmeet, hshape, _, _, rfl⟩
  rw [hid, h.coherent.op_id h.op] at hbounds
  rw [hresults] at hmeet
  obtain ⟨hfits, ⟨_, rfl⟩ | ⟨hne, hspans⟩⟩ := meetDemands_eq_ok
    (fun use huse => (h.bounded huse).imp fun _ => Exists.imp fun _ => Exists.imp fun _ => And.left)
    hmeet
  · -- Without uses there is no dimension.
    obtain ⟨_, hr, _⟩ := (domainShape_eq_ok (r := 0) ⟨rfl, rfl⟩).1 hshape
    exact absurd hr (Nat.lt_irrefl 0)
  · have hneeds := h.spans_needs hspans
    obtain ⟨hsub, hr, hsizes⟩ := (domainShape_eq_ok hspans.ranked).1 hshape
    rcases Point.sub_eq_ok.1 hsub with ⟨_, _, hcoord⟩
    -- The least and the greatest demands are the ends of the box.
    have hends : ∀ {d lo hi}, IsLeast (p.lowerNeeds t q.boundsOf x d) lo →
        IsGreatest (p.upperNeeds t q.boundsOf x d) hi →
          d < r ∧ hi - lo = b.upper.coord d - b.lower.coord d := by
      intro d lo hi hlo hhi
      have hd := h.lt_of_isLeast hlo
      rw [(hneeds.isLeast d hd).unique hlo, (hneeds.isGreatest d hd).unique hhi]
      exact ⟨hd, rfl⟩
    have hext := h.boundsOf_mono ho' hok
    have hreaders : ∀ v u, p.Reads x v u → ∃ c, q.boundsOf u = some c := fun v u hr =>
      (h.ranked_of_reads hr).imp fun c => And.left
    have hadmissible : p.Admissible t q.boundsOf x := by
      refine ⟨?_, h.widens_iff.1 hfits, fun d lo hi hlo hhi => ?_, fun d lo hi hlo hhi => ?_⟩
      · obtain ⟨use, huse⟩ := List.exists_mem_of_ne_nil _ hne
        obtain ⟨_, _, v, _, hreads, _⟩ := h.bounded huse
        obtain ⟨_, _, _, hv⟩ := h.ranked_of_reads hreads
        exact ⟨v, use.user, r, hreads, hv, hr⟩
      · obtain ⟨hd, heq⟩ := hends hlo hhi
        rw [heq, ← hcoord d (hspans.ranked.2 ▸ hd)]
        exact Point.inRange_coord shape d
      · obtain ⟨hd, heq⟩ := hends hlo hhi
        rw [heq]
        exact hsizes d hd
    refine ⟨hadmissible.mono hreaders hext,
      fun v u hr => (hreaders v u hr).imp fun c => hext u c, ?_⟩
    refine ⟨o, b, r, h.op, h.rank, by rw [hbounds, if_pos rfl], ?_⟩
    obtain ⟨hlower, hupper⟩ := needs_congr (t := t) hreaders hext
    rw [hlower, hupper]
    exact hneeds

end Visit
end Program
end StencilShapes
