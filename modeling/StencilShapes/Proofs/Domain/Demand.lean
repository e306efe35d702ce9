import StencilShapes.Domain.Inference
import StencilShapes.Proofs.Point
import StencilShapes.Proofs.Program.View
import Mathlib.Data.Int.Order.Basic
import Mathlib.Order.Bounds.Basic

/-!
# What the uses of a result demand

A use by an operation with bounds asks for a box: the bounds of the reader, moved
by the extent at which it reads.  When all uses have one rank, folding them gives
the least box that meets all demands, and it fails only where a demanded end
leaves the range.

**Results.**
* `Program.meetDemands_eq_ok`: the ends of the folded box are the least and the
  greatest demanded coordinates.
* `Program.meetDemands_eq_error`: folding fails at the first use whose box leaves
  the range.
* `Program.domainShape_eq_ok`, `Program.domainShape_eq_error`: the sizes of a box,
  and why it has none.
-/

namespace StencilShapes

namespace ExtentTable

/-- The negative end of the extent at which an operation reads a value; zero if there is none. -/
def negativeAt (t : ExtentTable) (u : OpId) (v : ValueId) (d : Nat) : Int :=
  (t.find? u v).elim 0 fun e => e.negative.coord d

/-- The positive end of the extent at which an operation reads a value; zero if there is none. -/
def positiveAt (t : ExtentTable) (u : OpId) (v : ValueId) (d : Nat) : Int :=
  (t.find? u v).elim 0 fun e => e.positive.coord d

end ExtentTable

namespace Bounds

/-- Both ends have a rank. -/
def Ranked (b : Bounds) (r : Nat) : Prop :=
  b.lower.length = r ∧ b.upper.length = r

theorem Ranked.rank_eq {b : Bounds} {r : Nat} (h : b.Ranked r) : b.rank = r :=
  h.1

/-- The ends are the least and the greatest elements of the given sets, dimension by dimension. -/
structure Spans (b : Bounds) (r : Nat) (L U : Nat → Set Int) : Prop where
  ranked : b.Ranked r
  isLeast : ∀ d < r, IsLeast (L d) (b.lower.coord d)
  isGreatest : ∀ d < r, IsGreatest (U d) (b.upper.coord d)

theorem eq_nil_of_ranked {b : Bounds} (h : b.Ranked 0) : b = nil := by
  rcases b with ⟨lower, upper⟩
  rcases h with ⟨hl, hu⟩
  rw [List.length_eq_zero_iff] at hl hu
  obtain rfl : lower = [] := hl
  obtain rfl : upper = [] := hu
  rfl

theorem nil_hull? (need : Bounds) : nil.hull? need = some need :=
  rfl

/-- Two boxes of one rank have a hull of this rank. -/
theorem exists_hull? {b need : Bounds} {r : Nat} (hb : b.Ranked r) (hneed : need.Ranked r) :
    ∃ b', b.hull? need = some b' ∧ b'.Ranked r ∧
      ∀ d < r, b'.lower.coord d = min (b.lower.coord d) (need.lower.coord d) ∧
        b'.upper.coord d = max (b.upper.coord d) (need.upper.coord d) := by
  rcases Nat.eq_zero_or_pos r with rfl | hr
  · obtain rfl := eq_nil_of_ranked hb
    exact ⟨need, nil_hull? need, hneed, fun d hd => absurd hd (Nat.not_lt_zero d)⟩
  · have hne : ¬ (b.lower.isEmpty && b.upper.isEmpty) = true := by
      rw [Bool.and_eq_true, List.isEmpty_iff]
      rintro ⟨hnil, _⟩
      have hlen := hb.1
      rw [hnil] at hlen
      exact absurd hlen (Nat.ne_of_lt hr)
    have hl : b.lower.length = need.lower.length := hb.1.trans hneed.1.symm
    have hu : b.upper.length = need.upper.length := hb.2.trans hneed.2.symm
    obtain ⟨lower, hlower⟩ := Point.exists_min hl
    obtain ⟨upper, hupper⟩ := Point.exists_max hu
    rcases Point.min_eq_ok.1 hlower with ⟨_, hllen, hlcoord⟩
    rcases Point.max_eq_ok.1 hupper with ⟨_, hulen, hucoord⟩
    refine ⟨{ lower, upper }, ?_, ⟨hllen.trans hb.1, hulen.trans hb.2⟩, fun d hd =>
      ⟨hlcoord d (hb.1 ▸ hd), hucoord d (hb.2 ▸ hd)⟩⟩
    rw [hull?, if_neg hne, if_pos ⟨hl, hb.2.trans hneed.1.symm⟩, hlower, hupper]

end Bounds

namespace Program

variable (p : Program) (t : ExtentTable)

/-- The value at the position of a use. -/
def valueAt? (use : Use) : Option ValueId :=
  (p.op? use.user).bind (·.operands[use.operand]?)

/-- The lower end that a use demands. -/
def lowerNeed (d : Nat) (use : Use) : Int :=
  (p.boundsOf use.user).elim 0 (fun b => b.lower.coord d) +
    (p.valueAt? use).elim 0 fun v => t.negativeAt use.user v d

/-- The upper end that a use demands. -/
def upperNeed (d : Nat) (use : Use) : Int :=
  (p.boundsOf use.user).elim 0 (fun b => b.upper.coord d) +
    (p.valueAt? use).elim 0 fun v => t.positiveAt use.user v d

/-- A use by an operation with bounds, all of one rank. -/
structure Bounded (r : Nat) (use : Use) (o : Operation) (b : Bounds) (v : ValueId) : Prop where
  op : p.op? use.user = some o
  bounds : o.kind.bounds? = some b
  value : o.operands[use.operand]? = some v
  ranked : b.Ranked r
  extent : ∀ e, t.find? use.user v = some e → e.negative.length = r ∧ e.positive.length = r

/-- The box that a use demands does not leave the range. -/
def Fits (r : Nat) (use : Use) : Prop :=
  ∀ d < r, Coord.InRange (p.lowerNeed t d use) ∧ Coord.InRange (p.upperNeed t d use)

variable {p t}

namespace Bounded

variable {r : Nat} {use : Use} {o : Operation} {b : Bounds} {v : ValueId}

theorem lowerNeed_eq (h : p.Bounded t r use o b v) (d : Nat) :
    p.lowerNeed t d use = b.lower.coord d + t.negativeAt use.user v d := by
  simp [lowerNeed, boundsOf, valueAt?, h.op, h.bounds, h.value]

theorem upperNeed_eq (h : p.Bounded t r use o b v) (d : Nat) :
    p.upperNeed t d use = b.upper.coord d + t.positiveAt use.user v d := by
  simp [upperNeed, boundsOf, valueAt?, h.op, h.bounds, h.value]

end Bounded

theorem widenEnd_eq_ok {dm : Demand} {base extent q : Point} :
    widenEnd dm base extent = .ok q ↔ Point.add base extent = .ok q := by
  unfold widenEnd
  split
  · next h => simp [h]
  · next h => simp [h]
  · next h => simp [h]

theorem widenEnd_eq_error {dm : Demand} {base extent : Point} {fault : DomainFault}
    (hl : base.length = extent.length) :
    widenEnd dm base extent = .error fault ↔
      fault = .widening dm base extent ∧
        ∃ d < base.length, ¬ Coord.InRange (base.coord d + extent.coord d) := by
  have herror := @Point.add_eq_error base extent .overflow hl
  rw [eq_self, true_and] at herror
  unfold widenEnd
  split
  · next q h =>
      rw [h] at herror
      rw [← herror]
      simp
  · next l r h => cases ((Point.add_eq_error hl).1 h).1
  · next h => simp [herror.1 h, eq_comm]

section Meeting

variable {function : String} {producer : Place} {r : Nat} {use : Use} {o : Operation}
  {bounds box box' : Bounds} {v : ValueId}

/-- The demand of a use, as it is mentioned in a fault. -/
def demandOf (function : String) (producer : Place) (use : Use) (o : Operation) (v : ValueId) :
    Demand :=
  { consumer := .ofOp function o, producer, operand := use.operand, value := v }

/-- The box that a use demands, or the end at which it leaves the range. -/
theorem demandedBounds_spec (h : p.Bounded t r use o bounds v) (dm : Demand)
    (hdm : dm.value = v) :
    (p.Fits t r use ∧ ∃ need, demandedBounds t use.user dm bounds = .ok need ∧ need.Ranked r ∧
      ∀ d < r, need.lower.coord d = p.lowerNeed t d use ∧
        need.upper.coord d = p.upperNeed t d use) ∨
    (¬ p.Fits t r use ∧ ∃ base extent,
      demandedBounds t use.user dm bounds = .error (.widening dm base extent)) := by
  have hlower := h.lowerNeed_eq
  have hupper := h.upperNeed_eq
  unfold demandedBounds
  rw [hdm]
  cases he : t.find? use.user v with
  | none =>
      have hzero : ∀ d, t.negativeAt use.user v d = 0 ∧ t.positiveAt use.user v d = 0 := fun d => by
        simp [ExtentTable.negativeAt, ExtentTable.positiveAt, he]
      have hneed : ∀ d, bounds.lower.coord d = p.lowerNeed t d use ∧
          bounds.upper.coord d = p.upperNeed t d use := fun d => by
        rw [hlower, hupper, (hzero d).1, (hzero d).2, Int.add_zero, Int.add_zero]
        exact ⟨rfl, rfl⟩
      refine Or.inl ⟨fun d _ => ?_, bounds, rfl, h.ranked, fun d _ => hneed d⟩
      rw [← (hneed d).1, ← (hneed d).2]
      exact ⟨Point.inRange_coord _ d, Point.inRange_coord _ d⟩
  | some e =>
      obtain ⟨hneg, hpos⟩ := h.extent e he
      have hends : ∀ d, p.lowerNeed t d use = bounds.lower.coord d + e.negative.coord d ∧
          p.upperNeed t d use = bounds.upper.coord d + e.positive.coord d := fun d => by
        rw [hlower, hupper]
        simp [ExtentTable.negativeAt, ExtentTable.positiveAt, he]
      have hl : bounds.lower.length = e.negative.length := h.ranked.1.trans hneg.symm
      have hu : bounds.upper.length = e.positive.length := h.ranked.2.trans hpos.symm
      dsimp only
      split
      · next fault hfault =>
          obtain ⟨rfl, d, hd, hout⟩ := (widenEnd_eq_error hl).1 hfault
          refine Or.inr ⟨fun hfits => hout ?_, _, _, rfl⟩
          rw [← (hends d).1]
          exact (hfits d (h.ranked.1 ▸ hd)).1
      · next lower hlo =>
          obtain ⟨_, hllen, hlcoord⟩ := Point.add_eq_ok.1 (widenEnd_eq_ok.1 hlo)
          split
          · next fault hfault =>
              obtain ⟨rfl, d, hd, hout⟩ := (widenEnd_eq_error hu).1 hfault
              refine Or.inr ⟨fun hfits => hout ?_, _, _, rfl⟩
              rw [← (hends d).2]
              exact (hfits d (h.ranked.2 ▸ hd)).2
          · next upper hup =>
              obtain ⟨_, hulen, hucoord⟩ := Point.add_eq_ok.1 (widenEnd_eq_ok.1 hup)
              have hcoord : ∀ d < r, lower.coord d = p.lowerNeed t d use ∧
                  upper.coord d = p.upperNeed t d use := fun d hd => by
                rw [(hends d).1, (hends d).2]
                exact ⟨hlcoord d (h.ranked.1 ▸ hd), hucoord d (h.ranked.2 ▸ hd)⟩
              refine Or.inl ⟨fun d hd => ?_, _, rfl, ⟨hllen.trans h.ranked.1,
                hulen.trans h.ranked.2⟩, hcoord⟩
              rw [← (hcoord d hd).1, ← (hcoord d hd).2]
              exact ⟨Point.inRange_coord _ d, Point.inRange_coord _ d⟩

variable (function producer) in
/-- One use extends a box by what it demands, unless that leaves the range. -/
theorem meetDemand_spec (h : p.Bounded t r use o bounds v)
    (hbox : box = .nil ∨ box.Ranked r) :
    (p.Fits t r use ∧ ∃ box', p.meetDemand t function producer box use = .ok box' ∧
      box'.Ranked r ∧
      ∀ d < r,
        box'.lower.coord d =
          (if box = .nil then p.lowerNeed t d use
          else min (box.lower.coord d) (p.lowerNeed t d use)) ∧
        box'.upper.coord d =
          if box = .nil then p.upperNeed t d use
          else max (box.upper.coord d) (p.upperNeed t d use)) ∨
    (¬ p.Fits t r use ∧ ∃ base extent,
      p.meetDemand t function producer box use =
        .error (.widening (demandOf function producer use o v) base extent)) := by
  unfold meetDemand
  simp only [h.op, h.bounds, h.value]
  obtain ⟨hfits, need, hneed, hranked, hcoord⟩ | ⟨hout, base, extent, herror⟩ :=
    demandedBounds_spec h (demandOf function producer use o v) rfl
  · refine Or.inl ⟨hfits, ?_⟩
    simp only [demandOf] at hneed
    simp only [hneed]
    by_cases hnil : box = .nil
    · subst hnil
      exact ⟨need, rfl, hranked, fun d hd => by simpa using hcoord d hd⟩
    · obtain ⟨box', hhull, hranked', hcoord'⟩ :=
        Bounds.exists_hull? (hbox.resolve_left hnil) hranked
      refine ⟨box', by simp only [hhull], hranked', fun d hd => ?_⟩
      rw [if_neg hnil, if_neg hnil, ← (hcoord d hd).1, ← (hcoord d hd).2]
      exact hcoord' d hd
  · refine Or.inr ⟨hout, base, extent, ?_⟩
    simp only [demandOf] at herror
    simp only [herror, demandOf]

variable (p t) in
/-- The lower ends that some uses demand. -/
def lowerEnds (uses : List Use) (d : Nat) : Set Int :=
  {n | ∃ use ∈ uses, n = p.lowerNeed t d use}

variable (p t) in
/-- The upper ends that some uses demand. -/
def upperEnds (uses : List Use) (d : Nat) : Set Int :=
  {n | ∃ use ∈ uses, n = p.upperNeed t d use}

theorem lowerEnds_cons (use : Use) (rest : List Use) (d : Nat) :
    p.lowerEnds t (use :: rest) d = insert (p.lowerNeed t d use) (p.lowerEnds t rest d) := by
  ext n
  simp [lowerEnds]

theorem upperEnds_cons (use : Use) (rest : List Use) (d : Nat) :
    p.upperEnds t (use :: rest) d = insert (p.upperNeed t d use) (p.upperEnds t rest d) := by
  ext n
  simp [upperEnds]

/-- Further uses extend a box that spans what was demanded before. -/
theorem spans_of_meetDemands {uses : List Use} :
    ∀ {box box' : Bounds} {L U : Nat → Set Int}, box.Spans r L U →
      (∀ use ∈ uses, ∃ o b v, p.Bounded t r use o b v) →
      p.meetDemands t function producer box uses = .ok box' →
      (∀ use ∈ uses, p.Fits t r use) ∧
        box'.Spans r (fun d => L d ∪ p.lowerEnds t uses d) fun d => U d ∪ p.upperEnds t uses d := by
  induction uses with
  | nil =>
      intro box box' L U hbox _ h
      cases h
      refine ⟨List.forall_mem_nil _, ?_⟩
      simpa [lowerEnds, upperEnds] using hbox
  | cons use rest ih =>
      intro box box' L U hbox huses h
      obtain ⟨o, b, v, hb⟩ := huses use List.mem_cons_self
      simp only [meetDemands] at h
      obtain ⟨hfits, box₁, hok, hranked, hcoord⟩ | ⟨_, base, extent, herror⟩ :=
        meetDemand_spec function producer hb (Or.inr hbox.ranked)
      · rw [hok] at h
        have hspans : box₁.Spans r (fun d => insert (p.lowerNeed t d use) (L d)) fun d =>
            insert (p.upperNeed t d use) (U d) := by
          refine ⟨hranked, fun d hd => ?_, fun d hd => ?_⟩
          all_goals
            have hne : box ≠ .nil := by
              rintro rfl
              exact absurd hbox.ranked.1 (Nat.ne_of_lt (Nat.zero_lt_of_lt hd))
          · rw [(hcoord d hd).1, if_neg hne, min_comm]
            exact (hbox.isLeast d hd).insert _
          · rw [(hcoord d hd).2, if_neg hne, max_comm]
            exact (hbox.isGreatest d hd).insert _
        obtain ⟨hall, hspans'⟩ := ih hspans (fun x hx => huses x (List.mem_cons_of_mem _ hx)) h
        refine ⟨List.forall_mem_cons.2 ⟨hfits, hall⟩, ?_⟩
        simpa only [lowerEnds_cons, upperEnds_cons, Set.union_insert, Set.insert_union]
          using hspans'
      · rw [herror] at h
        cases h

/-- Without uses there is no box; else the box is the least one that meets all demands. -/
theorem meetDemands_eq_ok {uses : List Use} {box : Bounds}
    (huses : ∀ use ∈ uses, ∃ o b v, p.Bounded t r use o b v)
    (h : p.meetDemands t function producer .nil uses = .ok box) :
    (∀ use ∈ uses, p.Fits t r use) ∧
      ((uses = [] ∧ box = .nil) ∨
        (uses ≠ [] ∧ box.Spans r (p.lowerEnds t uses) (p.upperEnds t uses))) := by
  cases uses with
  | nil =>
      cases h
      exact ⟨List.forall_mem_nil _, Or.inl ⟨rfl, rfl⟩⟩
  | cons use rest =>
      obtain ⟨o, b, v, hb⟩ := huses use List.mem_cons_self
      simp only [meetDemands] at h
      obtain ⟨hfits, box₁, hok, hranked, hcoord⟩ | ⟨_, base, extent, herror⟩ :=
        meetDemand_spec function producer hb (Or.inl rfl)
      · rw [hok] at h
        have hspans : box₁.Spans r (fun d => {p.lowerNeed t d use}) fun d =>
            {p.upperNeed t d use} := by
          refine ⟨hranked, fun d hd => ?_, fun d hd => ?_⟩
          · rw [(hcoord d hd).1, if_pos rfl]
            exact isLeast_singleton
          · rw [(hcoord d hd).2, if_pos rfl]
            exact isGreatest_singleton
        obtain ⟨hall, hspans'⟩ := spans_of_meetDemands hspans
          (fun x hx => huses x (List.mem_cons_of_mem _ hx)) h
        refine ⟨List.forall_mem_cons.2 ⟨hfits, hall⟩, Or.inr ⟨List.cons_ne_nil _ _, ?_⟩⟩
        have hlower : p.lowerEnds t (use :: rest) = fun d =>
            {p.lowerNeed t d use} ∪ p.lowerEnds t rest d :=
          funext fun d => lowerEnds_cons use rest d
        have hupper : p.upperEnds t (use :: rest) = fun d =>
            {p.upperNeed t d use} ∪ p.upperEnds t rest d :=
          funext fun d => upperEnds_cons use rest d
        rw [hlower, hupper]
        exact hspans'
      · rw [herror] at h
        cases h

/-- Demands cannot be met only where one of them leaves the range; the first such use is blamed. -/
theorem meetDemands_eq_error {uses : List Use} {fault : DomainFault} :
    ∀ {box : Bounds}, (box = .nil ∨ box.Ranked r) →
      (∀ use ∈ uses, ∃ o b v, p.Bounded t r use o b v) →
      p.meetDemands t function producer box uses = .error fault →
      ∃ before use after o b v base extent, uses = before ++ use :: after ∧
        (∀ x ∈ before, p.Fits t r x) ∧ p.Bounded t r use o b v ∧ ¬ p.Fits t r use ∧
        fault = .widening (demandOf function producer use o v) base extent := by
  induction uses with
  | nil =>
      intro box _ _ h
      cases h
  | cons use rest ih =>
      intro box hbox huses h
      obtain ⟨o, b, v, hb⟩ := huses use List.mem_cons_self
      simp only [meetDemands] at h
      obtain ⟨hfits, box₁, hok, hranked, _⟩ | ⟨hout, base, extent, herror⟩ :=
        meetDemand_spec function producer hb hbox
      · rw [hok] at h
        obtain ⟨before, use', after, o', b', v', base, extent, rfl, hbefore, hrest⟩ :=
          ih (Or.inr hranked) (fun x hx => huses x (List.mem_cons_of_mem _ hx)) h
        exact ⟨use :: before, use', after, o', b', v', base, extent, rfl,
          List.forall_mem_cons.2 ⟨hfits, hbefore⟩, hrest⟩
      · rw [herror] at h
        cases h
        exact ⟨[], use, rest, o, b, v, base, extent, rfl, List.forall_mem_nil _, hb, hout, rfl⟩

end Meeting

section Shapes

variable {producer : Place} {b : Bounds} {r : Nat} {shape : Point}

/-- The sizes of a box, as far as they decide whether it is a domain. -/
theorem sizes_of_sub (hb : b.Ranked r) (h : Point.sub b.upper b.lower = .ok shape) :
    (shape.isEmpty = true ↔ r = 0) ∧
      ((shape.any fun c => decide (c.val < 1)) = true ↔
        ∃ d < r, b.upper.coord d - b.lower.coord d < 1) := by
  rcases Point.sub_eq_ok.1 h with ⟨_, hlen, hcoord⟩
  have hlen' : shape.length = r := hlen.trans hb.2
  constructor
  · rw [List.isEmpty_iff, ← List.length_eq_zero_iff, hlen']
  · have hall := @Point.forall_mem_iff_coord shape fun n => ¬ n < 1
    rw [hlen'] at hall
    rw [← not_iff_not, Bool.not_eq_true, List.any_eq_false]
    simp only [decide_eq_true_eq, not_exists, not_and]
    refine hall.trans (forall_congr' fun d => forall_congr' fun hd => ?_)
    rw [hcoord d (hb.2 ▸ hd)]

/-- A box of one dimension at least is a domain when it has points. -/
theorem domainShape_eq_ok (hb : b.Ranked r) :
    domainShape producer b = .ok shape ↔
      Point.sub b.upper b.lower = .ok shape ∧ 0 < r ∧
        ∀ d < r, 1 ≤ b.upper.coord d - b.lower.coord d := by
  unfold domainShape
  split
  · next fault h => simp [h]
  · next s h =>
      obtain ⟨hempty, hany⟩ := sizes_of_sub hb h
      rw [h]
      split
      · next hnil =>
          obtain rfl := hempty.1 hnil
          simp
      · next hne =>
          have hr : 0 < r := Nat.pos_of_ne_zero fun hr => hne (hempty.2 hr)
          split
          · next hbad =>
              rcases hany.1 hbad with ⟨d, hd, hlt⟩
              constructor
              · intro h'
                cases h'
              · rintro ⟨_, _, hall⟩
                exact absurd (hall d hd) (by omega)
          · next hgood =>
              have hall : ∀ d < r, 1 ≤ b.upper.coord d - b.lower.coord d := fun d hd => by
                by_contra hlt
                exact hgood (hany.2 ⟨d, hd, by omega⟩)
              rw [Except.ok.injEq, Except.ok.injEq]
              exact ⟨fun h' => ⟨h', hr, hall⟩, fun h' => h'.1⟩

/-- A box is no domain when a size leaves the range, when it has no dimension, or when
it has no points. -/
theorem domainShape_eq_error {fault : DomainFault} (hb : b.Ranked r)
    (h : domainShape producer b = .error fault) :
    (fault = .noShape producer b .overflow ∧
      ∃ d < r, ¬ Coord.InRange (b.upper.coord d - b.lower.coord d)) ∨
    (∀ d < r, Coord.InRange (b.upper.coord d - b.lower.coord d)) ∧
      (r = 0 ∧ fault = .unconsumed producer ∨
        0 < r ∧ (∃ d < r, b.upper.coord d - b.lower.coord d < 1) ∧
          ∃ shape, fault = .emptyDomain producer b shape) := by
  unfold domainShape at h
  split at h
  · next pointFault hsub =>
      obtain ⟨rfl, d, hd, hout⟩ := (Point.sub_eq_error (hb.2.trans hb.1.symm)).1 hsub
      cases h
      exact Or.inl ⟨rfl, d, hb.2 ▸ hd, hout⟩
  · next s hsub =>
      obtain ⟨hempty, hany⟩ := sizes_of_sub hb hsub
      rcases Point.sub_eq_ok.1 hsub with ⟨_, hlen, hcoord⟩
      refine Or.inr ⟨fun d hd => hcoord d (hb.2 ▸ hd) ▸ Point.inRange_coord s d, ?_⟩
      split at h
      · next hnil =>
          cases h
          exact Or.inl ⟨hempty.1 hnil, rfl⟩
      · next hne =>
          split at h
          · next hbad =>
              cases h
              exact Or.inr ⟨Nat.pos_of_ne_zero fun hr => hne (hempty.2 hr), hany.1 hbad, s, rfl⟩
          · cases h

/-- The shape of a domain is its size, has a dimension, and is nowhere less than one. -/
theorem shape_of_domainShape (h : domainShape producer b = .ok shape) :
    b.shape? = some shape ∧ shape ≠ [] ∧ ∀ c ∈ shape, 1 ≤ c.val := by
  unfold domainShape at h
  unfold Bounds.shape?
  split at h
  · cases h
  · next s hsub =>
      split at h
      · cases h
      · next hne =>
          split at h
          · cases h
          · next hpos =>
              cases h
              rw [List.isEmpty_iff] at hne
              rw [Bool.not_eq_true, List.any_eq_false] at hpos
              refine ⟨by rw [hsub], hne, fun c hc => ?_⟩
              have := hpos c hc
              simp only [decide_eq_true_eq] at this
              omega

end Shapes
end Program
end StencilShapes
