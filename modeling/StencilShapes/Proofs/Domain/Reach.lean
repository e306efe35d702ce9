import Mathlib.Data.List.GetD
import StencilShapes.Proofs.Compilation.Pipeline
import StencilShapes.Proofs.Domain.Chain

/-!
# Reads stay inside domains

An instance of a body computes one cell, or a block of cells when the body is
unrolled.  As long as the block lies in the domain of the apply, every access in the
body reads a point of the domain of the operation that computes it; a store reads
nothing outside that domain either.

**Results.**
* `Program.Progress.within_of_reads`: the domain of an operation holds what each
  reader demands.
* `Program.Progress.readsInDomain`: no read leaves a domain once all is done.
* `Description.reads_in_domain`: no read leaves a domain after a successful run.
-/

namespace StencilShapes

/-- The grid point at an offset from another one. -/
def moved (x : List Int) (offset : Point) : List Int :=
  List.zipWith (fun n c => n + c.val) x offset

namespace Bounds

/-- A grid point lies in a box. -/
def Contains (b : Bounds) (x : List Int) : Prop :=
  List.Forall₂ (fun c n => c.val ≤ n) b.lower x ∧ List.Forall₂ (fun n c => n < c.val) x b.upper

/-- A block of cells that starts at a grid point lies in a box. -/
def ContainsBlock (b : Bounds) (block : Point) (x : List Int) : Prop :=
  List.Forall₂ (fun c n => c.val ≤ n) b.lower x ∧
    List.Forall₂ (fun n c => n ≤ c.val) (moved x block) b.upper

end Bounds

namespace Program

/-- The block of cells that one instance of the body computes: the unroll of its return,
or a single cell. -/
def blockOf (p : Program) (o : Operation) (b : Bounds) : Point :=
  (p.unroll? o).elim (List.replicate b.rank Coord.one) Prod.snd

/-- An access in the body of an apply reads its operand `v` at an offset. -/
def AccessesAt (p : Program) (o : Operation) (v : ValueId) (offset : Point) : Prop :=
  ∃ (body : Block) (x : OpId) (ox : Operation) (arg : ValueId) (i : Nat),
    o.kind.body? = some body ∧ x ∈ body.ops ∧ p.op? x = some ox ∧
    ox.kind = .access offset ∧ ox.operands.head? = some arg ∧
    body.args[i]? = some arg ∧ o.operands[i]? = some v

/-- No read of a stencil program leaves the domain of what it reads. -/
structure ReadsInDomain (p : Program) : Prop where
  /-- An apply has bounds, and the accesses of its instances stay in the domains of what
  they read. -/
  access : ∀ f ∈ p.functions.toList, f.stencil = true → ∀ u ∈ f.body, ∀ o body bounds,
    p.op? u = some o → o.kind = .apply bounds body → ∃ b, bounds = some b ∧
      ∀ x, b.ContainsBlock (p.blockOf o b) x → ∀ v offset, p.AccessesAt o v offset →
        ∀ y oy, p.op? y = some oy → v ∈ oy.results →
          ∃ c, oy.kind.bounds? = some c ∧ c.Contains (moved x offset)
  /-- A store stays in the domain of what it writes. -/
  store : ∀ f ∈ p.functions.toList, f.stencil = true → ∀ u ∈ f.body, ∀ o b,
    p.op? u = some o → o.kind = .store b → ∀ v ∈ o.operands,
      ∀ y oy, p.op? y = some oy → v ∈ oy.results →
        ∃ c, oy.kind.bounds? = some c ∧ ∀ x, b.Contains x → c.Contains x

end Program

section Coordinates

variable {p : Point} {x : List Int} {R : Int → Int → Prop}

theorem forall₂_left_iff :
    List.Forall₂ (fun c n => R c.val n) p x ↔
      p.length = x.length ∧ ∀ d < p.length, R (p.coord d) (x.getD d 0) := by
  rw [List.forall₂_iff_get]
  refine and_congr_right fun hl => ?_
  constructor
  · intro h d hd
    have hr := h d hd (hl ▸ hd)
    rwa [Point.coord_eq (List.getElem?_eq_getElem hd), List.getD_eq_getElem _ _ (hl ▸ hd)]
  · intro h d hd hd'
    have hr := h d hd
    rwa [Point.coord_eq (List.getElem?_eq_getElem hd), List.getD_eq_getElem _ _ hd'] at hr

theorem forall₂_right_iff :
    List.Forall₂ (fun n c => R n c.val) x p ↔
      p.length = x.length ∧ ∀ d < p.length, R (x.getD d 0) (p.coord d) := by
  rw [← forall₂_left_iff (R := fun a b => R b a)]
  exact ⟨List.Forall₂.flip, List.Forall₂.flip⟩

theorem length_moved (h : x.length = p.length) : (moved x p).length = x.length := by
  rw [moved, List.length_zipWith, h, Nat.min_self]

theorem getD_moved {d : Nat} (hx : d < x.length) (hp : d < p.length) :
    (moved x p).getD d 0 = x.getD d 0 + p.coord d := by
  have hd : d < (moved x p).length := by
    rw [moved, List.length_zipWith]
    omega
  rw [List.getD_eq_getElem _ _ hd, List.getD_eq_getElem _ _ hx,
    Point.coord_eq (List.getElem?_eq_getElem hp)]
  simp [moved]

theorem Bounds.contains_iff {b : Bounds} {r : Nat} (hb : b.Ranked r) :
    b.Contains x ↔ x.length = r ∧
      ∀ d < r, b.lower.coord d ≤ x.getD d 0 ∧ x.getD d 0 < b.upper.coord d := by
  rw [Contains, forall₂_left_iff (R := fun a b => a ≤ b),
    forall₂_right_iff (R := fun a b => a < b), hb.1, hb.2]
  constructor
  · rintro ⟨⟨hl, hlow⟩, _, hup⟩
    exact ⟨hl.symm, fun d hd => ⟨hlow d hd, hup d hd⟩⟩
  · rintro ⟨hl, h⟩
    exact ⟨⟨hl.symm, fun d hd => (h d hd).1⟩, hl.symm, fun d hd => (h d hd).2⟩

end Coordinates

namespace Program

section Frames

variable {p q : Program}

theorem SameFrame.terminator?_eq {o o' : Operation}
    (h : p.SameFrame q)
    (hkind : o'.kind.frame = o.kind.frame) :
    (q.terminator? o').map Operation.frame = (p.terminator? o).map Operation.frame := by
  unfold terminator?
  rw [OpKind.body?_eq_of_frame hkind]
  cases o.kind.body?.bind (·.ops.getLast?) with
  | none => rfl
  | some x => exact h.op x

theorem unroll?_eq_some {o : Operation} {r : OpId × Point} :
    p.unroll? o = some r ↔
      ∃ z, p.terminator? o = some z ∧ z.id = r.1 ∧ z.kind = .ret (some r.2) := by
  constructor
  · intro h
    unfold unroll? at h
    split at h
    · next hz =>
        cases h
        exact ⟨_, hz, rfl, rfl⟩
    · cases h
  · rintro ⟨⟨id, kind, operands, tys, results, parent⟩, hz, hid, hkind⟩
    simp only at hid hkind
    simp only [unroll?, hz, hkind, hid]

theorem unroll?_of_terminator {o o' : Operation} {r : OpId × Point}
    (h : (q.terminator? o').map Operation.frame = (p.terminator? o).map Operation.frame)
    (hr : p.unroll? o = some r) :
    q.unroll? o' = some r := by
  rcases unroll?_eq_some.1 hr with ⟨z, hz, hid, hkind⟩
  rw [hz, Option.map_some, Option.map_eq_some_iff] at h
  rcases h with ⟨z', hz', hframe⟩
  have hkind' : z'.kind = z.kind :=
    (OpKind.eq_of_frame (congrArg Operation.kind hframe).symm (by rw [hkind]; rfl)).symm
  exact unroll?_eq_some.2
    ⟨z', hz', (congrArg Operation.id hframe).trans hid, hkind'.trans hkind⟩

/-- The unroll belongs to the frame of a program. -/
theorem SameFrame.unroll?_eq {o o' : Operation}
    (h : p.SameFrame q)
    (hkind : o'.kind.frame = o.kind.frame) :
    q.unroll? o' = p.unroll? o := by
  have hlast := h.terminator?_eq hkind
  ext r
  constructor
  · exact unroll?_of_terminator hlast.symm
  · exact unroll?_of_terminator hlast

/-- So do the accesses of a body. -/
theorem SameFrame.accessesAt {o o' : Operation} {v : ValueId} {offset : Point}
    (h : p.SameFrame q)
    (hkind : o'.kind.frame = o.kind.frame)
    (hops : o'.operands = o.operands)
    (haccess : q.AccessesAt o v offset) :
    p.AccessesAt o' v offset := by
  obtain ⟨body, z, oz, arg, i, hbody, hz, hoz, hkz, harg, hi, hvi⟩ := haccess
  obtain ⟨oz', hoz', hkz', hopsz⟩ := h.symm.exists_op_eq hoz (by rw [hkz]; rfl)
  refine ⟨body, z, oz', arg, i, ?_, hz, hoz', hkz'.trans hkz, hopsz ▸ harg, hi, hops ▸ hvi⟩
  rw [OpKind.body?_eq_of_frame hkind, hbody]

end Frames

/-- A block is as wide as the stride of the body. -/
theorem coord_blockOf {p : Program} {o : Operation} {b : Bounds} {d : Nat} (hd : d < b.rank) :
    (p.blockOf o b).coord d = p.strideOf o d := by
  unfold blockOf strideOf
  cases p.unroll? o with
  | none =>
      have hone : (List.replicate b.rank Coord.one)[d]? = some Coord.one := by
        rw [List.getElem?_replicate, if_pos hd]
      exact Point.coord_eq hone
  | some u => rfl

/-- A store has no body, so it reads at its own cells only. -/
theorem Measured.find?_of_store {p : Program} {t : ExtentTable} {u : OpId} {o : Operation}
    {b : Bounds}
    (hm : p.Measured t)
    (ho : p.op? u = some o)
    (hk : o.kind = .store b)
    (v : ValueId) :
    t.find? u v = none := by
  cases he : t.find? u v with
  | none => rfl
  | some e =>
      obtain ⟨o', extents, ho', hextents, hfind⟩ := hm.only he
      obtain rfl : o = o' := Option.some.inj (ho.symm.trans ho')
      obtain ⟨a, ha, _⟩ := (applyExtents_eq_ok hextents).2 _ _ hfind
      rcases mem_accesses.1 ha with ⟨body, hbody, _⟩
      rw [hk] at hbody
      cases hbody

namespace Progress

variable {p q : Program} {t : ExtentTable} {f : Function} {x u : OpId} {v : ValueId}
  {o ou : Operation} {done : OpId → Prop}

/-- What defines an operand of an operation of a function stands in this function. -/
theorem mem_body_of_operand
    (hc : p.Coherent) (hs : p.Scoped)
    (hf : f ∈ p.functions.toList)
    (hu : u ∈ f.body)
    (hou : p.op? u = some ou)
    (hv : v ∈ ou.operands)
    (ho : p.op? x = some o)
    (hres : v ∈ o.results) :
    x ∈ f.body ∧ p.Reads x v u := by
  obtain ⟨j, hj⟩ := hc.mem_results ho hres
  obtain ⟨ou', hou', hshaped⟩ := hs.body f hf u hu
  obtain rfl : ou = ou' := Option.some.inj (hou.symm.trans hou')
  refine ⟨?_, o, ou, ho, hres, hou, hshaped, hv⟩
  rcases hs.visible f hf u hu ou hou v hv with ⟨_, hj'⟩ | ⟨y, hy, _, hj'⟩
  · rw [hj] at hj'
    cases hj'
  · rw [hj] at hj'
    cases hj'
    exact hy

/-- The domain of an operation holds what each reader demands. -/
theorem within_of_reads
    (h : p.Progress t done q)
    (hc : p.Coherent) (hs : p.Scoped)
    (hf : f ∈ p.functions.toList)
    (hdone : ∀ u ∈ f.body, done u)
    (hu : u ∈ f.body)
    (hou : p.op? u = some ou)
    (hv : v ∈ ou.operands)
    (ho : p.op? x = some o)
    (hres : v ∈ o.results) :
    ∃ c b r, q.boundsOf x = some c ∧ q.boundsOf u = some b ∧ p.OpRank ou r ∧ c.Ranked r ∧
      b.Ranked r ∧ ∀ d < r, c.lower.coord d ≤ b.lower.coord d + t.negativeAt u v d ∧
        b.upper.coord d + t.positiveAt u v d ≤ c.upper.coord d := by
  obtain ⟨hx, hreads⟩ := mem_body_of_operand hc hs hf hu hou hv ho hres
  have hk := hreads.isInferable hs hf hx ho
  obtain ⟨o', c, r, ho', hr, hcx, hspans⟩ := (h.settled ho hk (hdone x hx)).spans
  obtain rfl : o = o' := Option.some.inj (ho.symm.trans ho')
  obtain ⟨ou', b, hou', hbu, hur, hbr, _⟩ := h.reader_bounds hc hs
    (fun u hr => hdone u (mem_body_of_reads hc hs hf hx hr).1) ho hr hreads
  obtain rfl : ou = ou' := Option.some.inj (hou.symm.trans hou')
  refine ⟨c, b, r, hcx, hbu, hur, hspans.ranked, hbr, fun d hd => ?_⟩
  have hd' : d < b.rank := hbr.rank_eq.symm ▸ hd
  exact ⟨(hspans.isLeast d hd).2 ⟨v, u, b, hreads, hbu, hd', rfl⟩,
    (hspans.isGreatest d hd).2 ⟨v, u, b, hreads, hbu, hd', rfl⟩⟩

/-- An access of an instance of a body that fits into the domain of its apply reads a
point of the domain of what it reads. -/
theorem contains_of_access {b : Bounds} {y : List Int} {offset : Point}
    (h : p.Progress t done q)
    (hc : p.Coherent) (hs : p.Scoped) (hm : p.Measured t)
    (hf : f ∈ p.functions.toList)
    (hstencil : f.stencil = true)
    (hdone : ∀ u ∈ f.body, done u)
    (hu : u ∈ f.body)
    (hou : p.op? u = some ou)
    (hbu : q.boundsOf u = some b)
    (hblock : b.ContainsBlock (p.blockOf ou b) y)
    (haccess : p.AccessesAt ou v offset)
    (ho : p.op? x = some o)
    (hres : v ∈ o.results) :
    ∃ c, q.boundsOf x = some c ∧ c.Contains (moved y offset) := by
  rcases haccess with ⟨body, z, oz, arg, i, hbody, hz, hoz, hkz, harg, hi, hvi⟩
  obtain ⟨c, b', r, hcx, hbu', hur, hcr, hbr, hwithin⟩ :=
    h.within_of_reads hc hs hf hdone hu hou (List.mem_of_getElem? hvi) ho hres
  obtain rfl : b = b' := Option.some.inj (hbu.symm.trans hbu')
  obtain ⟨e, he, hcovers⟩ := hm.covers hc hf hstencil hu hou hbody hz hoz hkz harg hi hvi
  obtain ⟨hneg, _⟩ := hm.rank he hou hur
  have hoffset : offset.length = r := hcovers.negative_length.symm.trans hneg
  rcases hblock with ⟨hlow, hup⟩
  obtain ⟨hylen, hlow⟩ := (forall₂_left_iff (R := fun a b => a ≤ b)).1 hlow
  obtain ⟨hmlen, hup⟩ := (forall₂_right_iff (R := fun a b => a ≤ b)).1 hup
  rw [hbr.1] at hylen hlow
  rw [hbr.2] at hmlen hup
  have hblen : r ≤ (p.blockOf ou b).length := by
    rw [moved, List.length_zipWith] at hmlen
    omega
  refine ⟨c, hcx, (Bounds.contains_iff hcr).2 ⟨?_, fun d hd => ?_⟩⟩
  · rw [length_moved (hylen.symm.trans hoffset.symm), ← hylen]
  · have hy : d < y.length := hylen ▸ hd
    have hlow' := hlow d hd
    have hup' := hup d hd
    rw [getD_moved hy (Nat.lt_of_lt_of_le hd hblen), coord_blockOf (hbr.rank_eq.symm ▸ hd)] at hup'
    rw [getD_moved hy (hoffset.symm ▸ hd)]
    obtain ⟨hclow, hcup⟩ := hwithin d hd
    have hnegative := hcovers.negative_le d (hoffset.symm ▸ hd)
    have hpositive := hcovers.lt_positive d (hoffset.symm ▸ hd)
    simp only [ExtentTable.negativeAt, ExtentTable.positiveAt, he, Option.elim_some] at hclow hcup
    constructor
    · omega
    · omega

/-- A store reads nothing outside the domain of what it writes. -/
theorem contains_of_store {b : Bounds}
    (h : p.Progress t done q)
    (hc : p.Coherent) (hs : p.Scoped) (hm : p.Measured t)
    (hf : f ∈ p.functions.toList)
    (hdone : ∀ u ∈ f.body, done u)
    (hu : u ∈ f.body)
    (hou : p.op? u = some ou)
    (hk : ou.kind = .store b)
    (hv : v ∈ ou.operands)
    (ho : p.op? x = some o)
    (hres : v ∈ o.results) :
    ∃ c, q.boundsOf x = some c ∧ ∀ y, b.Contains y → c.Contains y := by
  obtain ⟨c, b', r, hcx, hbu, _, hcr, hbr, hwithin⟩ :=
    h.within_of_reads hc hs hf hdone hu hou hv ho hres
  obtain rfl : b = b' := by
    obtain ⟨ou', hou', hkind, _⟩ := h.frame.exists_op_eq hou (by rw [hk]; rfl)
    rw [boundsOf, hou', Option.bind_some, hkind, hk] at hbu
    exact Option.some.inj hbu
  have hnone : t.find? u v = none := hm.find?_of_store hou hk v
  refine ⟨c, hcx, fun y hy => ?_⟩
  obtain ⟨hlen, hy⟩ := (Bounds.contains_iff hbr).1 hy
  refine (Bounds.contains_iff hcr).2 ⟨hlen, fun d hd => ?_⟩
  obtain ⟨hclow, hcup⟩ := hwithin d hd
  obtain ⟨hlow, hup⟩ := hy d hd
  simp only [ExtentTable.negativeAt, ExtentTable.positiveAt, hnone, Option.elim_none] at hclow hcup
  constructor
  · omega
  · omega

/-- Once all stencil programs are done no read leaves a domain. -/
theorem readsInDomain
    (h : p.Progress t (InStencil p.functions.toList) q)
    (hc : p.Coherent) (hs : p.Scoped) (hm : p.Measured t) :
    q.ReadsInDomain := by
  have hbounds : ∀ {u o c}, q.op? u = some o → q.boundsOf u = some c → o.kind.bounds? = some c := by
    intro u o c ho hb
    rwa [boundsOf, ho] at hb
  constructor
  · intro f hf hstencil u hu o body bounds ho hk
    rw [h.frame.functions] at hf
    have hdone : ∀ u ∈ f.body, InStencil p.functions.toList u := fun u hu =>
      ⟨f, hf, hstencil, hu⟩
    obtain ⟨o', ho', _, hkind, hops, _⟩ := h.frame.symm.exists_op ho
    have hinf : o'.kind.isInferable = true := by
      rw [OpKind.isInferable_eq_of_frame hkind, hk]
      rfl
    obtain ⟨_, b, _, _, _, hb, _⟩ := (h.settled ho' hinf (hdone u hu)).spans
    have hb' := hbounds ho hb
    rw [hk] at hb'
    refine ⟨b, hb', fun x hblock v offset haccess y oy hoy hres => ?_⟩
    have hblock' : b.ContainsBlock (p.blockOf o' b) x := by
      rwa [blockOf, ← h.frame.unroll?_eq hkind.symm]
    obtain ⟨oy', hoy', _, _, _, hres'⟩ := h.frame.symm.exists_op hoy
    obtain ⟨c, hcy, hcontains⟩ := h.contains_of_access hc hs hm hf hstencil hdone hu ho' hb
      hblock' (h.frame.accessesAt hkind hops haccess) hoy' (hres' ▸ hres)
    exact ⟨c, hbounds hoy hcy, hcontains⟩
  · intro f hf hstencil u hu o b ho hk v hv y oy hoy hres
    rw [h.frame.functions] at hf
    obtain ⟨o', ho', hkind, hops⟩ := h.frame.symm.exists_op_eq ho (by rw [hk]; rfl)
    obtain ⟨oy', hoy', _, _, _, hres'⟩ := h.frame.symm.exists_op hoy
    obtain ⟨c, hcy, hcontains⟩ := h.contains_of_store hc hs hm hf
      (fun u hu => ⟨f, hf, hstencil, hu⟩) hu ho' (hkind.trans hk) (hops ▸ hv) hoy' (hres' ▸ hres)
    exact ⟨c, hbounds hoy hcy, hcontains⟩

end Progress
end Program

/-- After a successful run no read of a stencil program leaves the domain of what it reads. -/
theorem Description.reads_in_domain {d : Description} {p : Program}
    (hload : d.elaborate = .ok p)
    (hrun : (Compilation.run { program := p } .verification).failing = none) :
    (Compilation.run { program := p } .verification).compilation.program.ReadsInDomain := by
  obtain ⟨t, s, hextents, hinfer⟩ := Compilation.of_run_verification hrun
  have hc := Description.coherent_of_elaborate hload
  have hs := Description.scoped_of_elaborate hload
  have hm := Program.measured_of_extents hc hextents
  exact (Program.progress_of_inferShapes hc hs hm hinfer).readsInDomain hc hs hm

theorem Description.reads_in_domain_smoothing :
    (Compilation.run { program := Program.smoothing } .verification).failing = none ∧
      (Compilation.run
        { program := Program.smoothing } .verification).compilation.program.ReadsInDomain := by
  have hrun : (Compilation.run { program := Program.smoothing } .verification).failing = none := by
    rw [Compilation.run, Pass.required_verification]
    decide
  exact ⟨hrun, Description.reads_in_domain Program.elaborate_smoothing hrun⟩

end StencilShapes
