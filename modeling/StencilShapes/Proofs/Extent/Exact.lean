import StencilShapes.Proofs.Extent.Box
import StencilShapes.Proofs.Program.Built
import StencilShapes.Proofs.Domain.Reach

/-!
# The extents of a built program

In a program that calls have built, a body may read what is none of its arguments, an
operand may be passed twice, and offsets and unrolls may have any rank.  Extent analysis
finds the least box around the offsets at which each operand is read, by whichever of
its arguments, and takes off the unroll once.  It fails exactly when some apply of a
stencil program has no such box, and then it blames the first one.

**Results.**
* `Program.measures_of_applyExtents`, `Program.blames_of_applyExtents`: the extents of
  one apply, and what is blamed when there are none.
* `Program.foldFunctions_eq_foldEntries`: inner operations are passed over.
* `Program.foldEntries_spec`: the run over the operations of stencil programs.
* `Program.extents_are_least_boxes`: the extents of a program.
-/

namespace StencilShapes
namespace Program

section Specification

variable (p : Program) (o : Operation)

/-- The operation `x` of the body reads the operand `v` at an offset. -/
def ReadsAt (x : OpId) (v : ValueId) (offset : Point) : Prop :=
  ∃ (body : Block) (ox : Operation) (arg : ValueId) (i : Nat),
    o.kind.body? = some body ∧ x ∈ body.ops ∧ p.op? x = some ox ∧
    ox.kind = .access offset ∧ ox.operands.head? = some arg ∧
    body.args[i]? = some arg ∧ o.operands[i]? = some v

/-- The offsets at which the body reads an operand. -/
def offsetsAt (v : ValueId) : Set Point :=
  {offset | p.AccessesAt o v offset}

/-- The least box around the offsets at which the body reads an operand, without the
cells that a block covers by itself. -/
structure IsExtent (v : ValueId) (e : Extent) : Prop where
  rank : ∀ offset ∈ p.offsetsAt o v, offset.length = e.negative.length
  positive_length : e.positive.length = e.negative.length
  unroll_length : ∀ ret block, p.unroll? o = some (ret, block) → block.length = e.negative.length
  negative : ∀ d < e.negative.length,
    IsLeast ((Point.coord · d) '' p.offsetsAt o v) (e.negative.coord d)
  positive : ∀ d < e.negative.length, ∃ m,
    IsGreatest ((Point.coord · d) '' p.offsetsAt o v) m ∧
      e.positive.coord d = m - (p.strideOf o d - 1)

/-- An offset at which the body reads an operand differs in rank from its unroll. -/
def UnrollRank : Prop :=
  ∃ v ret block, p.unroll? o = some (ret, block) ∧
    ∃ offset ∈ p.offsetsAt o v, offset.length ≠ block.length

/-- Taking the unroll off a greatest offset leaves the range. -/
def UnrollOverflows : Prop :=
  ∃ v ret block d m, p.unroll? o = some (ret, block) ∧ d < block.length ∧
    IsGreatest ((Point.coord · d) '' p.offsetsAt o v) m ∧
    (¬ Coord.InRange (m - block.coord d) ∨ ¬ Coord.InRange (m - block.coord d + 1))

/-- Two offsets at which the body reads one operand differ in rank. -/
def MixedRank : Prop :=
  ∃ v, ∃ a ∈ p.offsetsAt o v, ∃ b ∈ p.offsetsAt o v, a.length ≠ b.length

/-- The body has no extents. -/
def Unmeasurable : Prop :=
  p.MixedRank o ∨ p.UnrollRank o ∨ p.UnrollOverflows o

/-- The first operation of the body whose offset differs in rank from that of the first
access to the same operand: up to it, the accesses to each operand have one rank. -/
def FirstClash (x : OpId) : Prop :=
  ∃ body before after v offset, o.kind.body? = some body ∧ body.ops = before ++ x :: after ∧
    p.ReadsAt o x v offset ∧
    (∃ y ∈ before, ∃ a, p.ReadsAt o y v a ∧ a.length ≠ offset.length) ∧
    ∀ w, ∀ y ∈ before, ∀ z ∈ before, ∀ a b, p.ReadsAt o y w a → p.ReadsAt o z w b →
      a.length = b.length

/-- The error for an apply without extents, in a function of the given name. -/
inductive Blames (function : String) (d : Diagnostic) : Prop
  | access {x : OpId} :
      p.FirstClash o x →
      d.code = some .rankMismatch →
      d.place = { function, op := some (x, "stencil.access") } →
      Blames function d
  | unrollRank {ret : OpId} {block : Point} :
      (∀ x, ¬ p.FirstClash o x) →
      p.UnrollRank o →
      p.unroll? o = some (ret, block) →
      d.code = some .rankMismatch →
      d.place = { function, op := some (ret, "stencil.return") } →
      Blames function d
  | unrollOverflows {ret : OpId} {block : Point} :
      (∀ x, ¬ p.FirstClash o x) →
      p.UnrollOverflows o →
      p.unroll? o = some (ret, block) →
      d.code = some .overflow →
      d.place = { function, op := some (ret, "stencil.return") } →
      Blames function d

end Specification

section Accesses

variable {p : Program} {u x : OpId} {o : Operation} {body : Block} {v : ValueId} {offset : Point}

theorem accessesAt_iff : p.AccessesAt o v offset ↔ ∃ x, p.ReadsAt o x v offset := by
  constructor
  · rintro ⟨body, x, ox, arg, i, h⟩
    exact ⟨x, body, ox, arg, i, h⟩
  · rintro ⟨x, body, ox, arg, i, h⟩
    exact ⟨body, x, ox, arg, i, h⟩

theorem readsAt_iff
    (hc : p.Coherent)
    (ho : p.op? u = some o)
    (hbody : o.kind.body? = some body) :
    p.ReadsAt o x v offset ↔
      x ∈ body.ops ∧ ∃ ox a, p.op? x = some ox ∧ access? body o.operands ox = some a ∧
        a.value = v ∧ a.offset = offset := by
  constructor
  · rintro ⟨body', ox, arg, i, hbody', hx, hox, hk, harg, hi, hv⟩
    obtain rfl : body = body' := Option.some.inj (hbody.symm.trans hbody')
    refine ⟨hx, ox, { op := ox.id, value := v, offset }, hox, ?_, rfl, rfl⟩
    exact access?_eq_some.2 ⟨arg, hk, harg, (lookup_args_eq_some hc ho hbody).2 ⟨i, hi, hv⟩, rfl⟩
  · rintro ⟨hx, ox, a, hox, ha, rfl, rfl⟩
    rcases access?_eq_some.1 ha with ⟨arg, hk, harg, hlookup, _⟩
    obtain ⟨i, hi, hv⟩ := (lookup_args_eq_some hc ho hbody).1 hlookup
    exact ⟨body, ox, arg, i, hbody, hx, hox, hk, harg, hi, hv⟩

/-- The accesses of an apply are the reads of its body. -/
theorem offsetsIn_accesses (hc : p.Coherent) (ho : p.op? u = some o) (v : ValueId) :
    offsetsIn (p.accesses o) v = p.offsetsAt o v := by
  ext offset
  constructor
  · rintro ⟨a, ha, hv, hoffset⟩
    rcases mem_accesses.1 ha with ⟨body, hbody, x, hx, ox, hox, haccess⟩
    exact accessesAt_iff.2 ⟨x, (readsAt_iff hc ho hbody).2 ⟨hx, ox, a, hox, haccess, hv, hoffset⟩⟩
  · intro h
    obtain ⟨x, hread⟩ := accessesAt_iff.1 h
    obtain ⟨body, _, _, _, hbody, _⟩ := id hread
    obtain ⟨hx, ox, a, hox, haccess, hv, hoffset⟩ := (readsAt_iff hc ho hbody).1 hread
    exact ⟨a, mem_accesses.2 ⟨body, hbody, x, hx, ox, hox, haccess⟩, hv, hoffset⟩

/-- A place among the accesses of an apply is one among the operations of its body. -/
theorem accesses_eq_append_cons {before after : List Access} {a : Access}
    (h : p.accesses o = before ++ a :: after) :
    ∃ body us x ws ox, o.kind.body? = some body ∧ body.ops = us ++ x :: ws ∧
      p.op? x = some ox ∧ access? body o.operands ox = some a ∧
      before = (p.opsAt us).filterMap (access? body o.operands) := by
  unfold accesses at h
  cases hbody : o.kind.body? with
  | none =>
      rw [hbody] at h
      cases before <;> cases h
  | some body =>
      rw [hbody] at h
      simp only [opsAt, List.filterMap_filterMap] at h
      obtain ⟨us, rest, hops, hbefore, hrest⟩ := List.filterMap_eq_append_iff.1 h
      obtain ⟨us', x, ws, rfl, hskip, hx, _⟩ := List.filterMap_eq_cons_iff.1 hrest
      obtain ⟨ox, hox, ha⟩ := Option.bind_eq_some_iff.1 hx
      refine ⟨body, us ++ us', x, ws, ox, rfl, by rw [hops, List.append_assoc], hox, ha, ?_⟩
      rw [opsAt, List.filterMap_filterMap, List.filterMap_append, hbefore,
        List.filterMap_eq_nil_iff.2 hskip, List.append_nil]

end Accesses

section Measuring

variable {p : Program} {u : OpId} {o : Operation}

/-- Where accesses to one operand have one rank, none of them clashes. -/
theorem not_firstClash {x : OpId} (h : ¬ p.MixedRank o) : ¬ p.FirstClash o x := by
  rintro ⟨body, before, after, v, offset, _, _, hread, ⟨y, _, a, hread', hne⟩, _⟩
  exact h ⟨v, a, accessesAt_iff.2 ⟨y, hread'⟩, offset, accessesAt_iff.2 ⟨x, hread⟩, hne⟩

/-- An extent before the unroll is taken off. -/
theorem spans_of_records {t : Table Extent} {v : ValueId} {e : Extent}
    (hc : p.Coherent)
    (ho : p.op? u = some o)
    (h : Records t (p.accesses o))
    (he : t.find? v.index = some e) :
    e.Spans (p.offsetsAt o v) := by
  rw [← offsetsIn_accesses hc ho]
  exact h.spans he

theorem exists_of_records {t : Table Extent} {v : ValueId}
    (hc : p.Coherent)
    (ho : p.op? u = some o)
    (h : Records t (p.accesses o))
    (hv : (p.offsetsAt o v).Nonempty) :
    ∃ e, t.find? v.index = some e := by
  rw [← offsetsIn_accesses hc ho] at hv
  exact h.covers hv

theorem not_mixedRank_of_records {t : Table Extent}
    (hc : p.Coherent)
    (ho : p.op? u = some o)
    (h : Records t (p.accesses o)) :
    ¬ p.MixedRank o := by
  rintro ⟨v, a, ha, b, hb, hne⟩
  rw [← offsetsIn_accesses hc ho] at ha hb
  exact hne (h.rank_eq ha hb)

/-- What is left of an extent when the unroll is taken off. -/
theorem isExtent_of_unroll {v : ValueId} {e e' : Extent} {ret : OpId} {block : Point}
    (he : e.Spans (p.offsetsAt o v))
    (hunroll : p.unroll? o = some (ret, block))
    (h : e.unroll block = .ok e') :
    p.IsExtent o v e' := by
  rcases Extent.unroll_eq_ok.1 h with ⟨hneg, hpos⟩
  obtain ⟨hblock, hlen, hcoord⟩ := Point.coord_of_shrink hpos
  constructor
  case rank => exact hneg ▸ he.rank
  case positive_length => exact hneg ▸ hlen.trans he.positive_length
  case unroll_length =>
    intro ret' block' hunroll'
    rw [hunroll] at hunroll'
    cases hunroll'
    rw [hneg, ← hblock, he.positive_length]
  case negative => exact hneg ▸ he.isLeast
  case positive =>
    intro d hd
    rw [hneg] at hd
    refine ⟨e.positive.coord d, he.isGreatest d hd, ?_⟩
    rw [hcoord d (he.positive_length.symm ▸ hd)]
    simp only [strideOf, hunroll, Option.elim_some]
    omega

/-- The entries of a table are the extents of an apply. -/
structure Measures (p : Program) (o : Operation) (t : Table Extent) : Prop where
  isSome_iff : ∀ v : ValueId, (t.find? v.index).isSome ↔ (p.offsetsAt o v).Nonempty
  isExtent : ∀ {v : ValueId} {e}, t.find? v.index = some e → p.IsExtent o v e
  /-- Nothing keeps the apply from being measured. -/
  measurable : ¬ p.Unmeasurable o

/-- Without an unroll the least boxes are the extents. -/
theorem measures_of_records {t : Table Extent}
    (hc : p.Coherent)
    (ho : p.op? u = some o)
    (hrec : Records t (p.accesses o))
    (hunroll : p.unroll? o = none) :
    p.Measures o t := by
  constructor
  case isSome_iff =>
    refine fun v => ⟨fun hv => ?_, fun hv => ?_⟩
    · obtain ⟨e, he⟩ := Option.isSome_iff_exists.1 hv
      exact (spans_of_records hc ho hrec he).nonempty
    · exact Option.isSome_iff_exists.2 (exists_of_records hc ho hrec hv)
  case isExtent =>
    intro v e he
    have hspans := spans_of_records hc ho hrec he
    refine ⟨hspans.rank, hspans.positive_length, ?_, hspans.isLeast, fun d hd => ?_⟩
    · intro ret block hsome
      rw [hunroll] at hsome
      cases hsome
    · refine ⟨_, hspans.isGreatest d hd, ?_⟩
      simp [strideOf, hunroll]
  case measurable =>
    rintro (hmixed | ⟨_, _, _, hsome, _⟩ | ⟨_, _, _, _, _, hsome, _⟩)
    · exact not_mixedRank_of_records hc ho hrec hmixed
    · rw [hunroll] at hsome
      cases hsome
    · rw [hunroll] at hsome
      cases hsome

/-- With an unroll the extents are what is left of the least boxes. -/
theorem measures_of_change {t t' : Table Extent} {ret : OpId} {block : Point}
    (hc : p.Coherent)
    (ho : p.op? u = some o)
    (hrec : Records t (p.accesses o))
    (hunroll : p.unroll? o = some (ret, block))
    (h : t.change (·.unroll block) = .ok t') :
    p.Measures o t' := by
  -- Each value that is read has a least box from which the unroll can be taken off.
  have hentry : ∀ {v : ValueId}, (p.offsetsAt o v).Nonempty →
      ∃ e e' : Extent, e.Spans (p.offsetsAt o v) ∧ e.unroll block = .ok e' ∧
        e.positive.length = block.length ∧ t'.find? v.index = some e' := by
    intro v hv
    obtain ⟨e, he⟩ := exists_of_records hc ho hrec hv
    rcases Table.find?_change h v.index with ⟨hnone, _⟩ | ⟨e₁, e', he₁, hok, he'⟩
    · rw [he] at hnone
      cases hnone
    · obtain rfl : e = e₁ := Option.some.inj (he.symm.trans he₁)
      exact ⟨e, e', spans_of_records hc ho hrec he, hok,
        (Point.coord_of_shrink (Extent.unroll_eq_ok.1 hok).2).1, he'⟩
  have hspans : ∀ {v : ValueId} {e'}, t'.find? v.index = some e' →
      ∃ e : Extent, e.Spans (p.offsetsAt o v) ∧ e.unroll block = .ok e' := by
    intro v e' he'
    rcases Table.find?_change h v.index with ⟨_, hnone⟩ | ⟨e, e₁, he, hok, he₁⟩
    · rw [he'] at hnone
      cases hnone
    · obtain rfl : e' = e₁ := Option.some.inj (he'.symm.trans he₁)
      exact ⟨e, spans_of_records hc ho hrec he, hok⟩
  constructor
  case isSome_iff =>
    refine fun v => ⟨fun hv => ?_, fun hv => ?_⟩
    · obtain ⟨e', he'⟩ := Option.isSome_iff_exists.1 hv
      obtain ⟨e, he, _⟩ := hspans he'
      exact he.nonempty
    · obtain ⟨_, e', _, _, _, he'⟩ := hentry hv
      exact Option.isSome_iff_exists.2 ⟨e', he'⟩
  case isExtent =>
    intro v e' he'
    obtain ⟨e, he, hok⟩ := hspans he'
    exact isExtent_of_unroll he hunroll hok
  case measurable =>
    rintro (hmixed | ⟨v, _, _, hsome, offset, hoffset, hne⟩ | ⟨v, _, _, d, m, hsome, hd, hm, hout⟩)
    · exact not_mixedRank_of_records hc ho hrec hmixed
    · rw [hunroll] at hsome
      cases hsome
      obtain ⟨e, _, he, _, hblock, _⟩ := hentry ⟨offset, hoffset⟩
      exact hne ((he.rank offset hoffset).trans (he.positive_length.symm.trans hblock))
    · rw [hunroll] at hsome
      cases hsome
      obtain ⟨offset, hoffset, _⟩ := hm.1
      obtain ⟨e, _, he, hok, hblock, _⟩ := hentry ⟨offset, hoffset⟩
      rw [← hblock] at hd
      rw [hm.unique (he.isGreatest d (he.positive_length ▸ hd))] at hout
      rw [Extent.unroll_eq_error.2 (Or.inr ⟨hblock, rfl, d, hd, hout⟩)] at hok
      cases hok

/-- Where the analysis of an apply succeeds, it finds the extents. -/
theorem measures_of_applyExtents {t : Table Extent}
    (hc : p.Coherent)
    (ho : p.op? u = some o)
    (h : p.applyExtents o = .ok t) :
    p.Measures o t := by
  unfold applyExtents at h
  split at h
  · cases h
  next t₀ ht₀ =>
  have hrec := records_of_foldAccesses ht₀
  split at h
  · next hnone =>
      cases h
      exact measures_of_records hc ho hrec hnone
  · next ret block hsome =>
      split at h
      · next t₁ ht₁ =>
          cases h
          exact measures_of_change hc ho hrec hsome ht₁
      · cases h

/-- Folding stops at the first clash of ranks. -/
theorem firstClash_of_foldAccesses {fault : ExtentFault}
    (hc : p.Coherent)
    (ho : p.op? u = some o)
    (h : foldAccesses .empty (p.accesses o) = .error fault) :
    p.MixedRank o ∧ ∃ x l r, p.FirstClash o x ∧ fault = .access x (.rankMismatch l r) := by
  obtain ⟨before, a, after, l, r, hsplit, hsame, ⟨b, ⟨c, hcb, hcv, rfl⟩, hne⟩, rfl⟩ :=
    foldAccesses_eq_error h
  obtain ⟨body, us, x, ws, ox, hbody, hops, hox, ha, hbefore⟩ := accesses_eq_append_cons hsplit
  have hus : ∀ {y}, y ∈ us → y ∈ body.ops := fun hy => hops ▸ List.mem_append_left _ hy
  have hread : p.ReadsAt o x a.value a.offset :=
    (readsAt_iff hc ho hbody).2 ⟨by rw [hops]; simp, ox, a, hox, ha, rfl, rfl⟩
  obtain ⟨y, hy, hready⟩ : ∃ y ∈ us, p.ReadsAt o y a.value c.offset := by
    rw [hbefore] at hcb
    obtain ⟨oy, hoy, hcy⟩ := List.mem_filterMap.1 hcb
    obtain ⟨y, hy, hoy⟩ := mem_opsAt.1 hoy
    exact ⟨y, hy, (readsAt_iff hc ho hbody).2 ⟨hus hy, oy, c, hoy, hcy, hcv, rfl⟩⟩
  have hin : ∀ {w z b}, z ∈ us → p.ReadsAt o z w b → b ∈ offsetsIn before w := by
    intro w z b hz hreadz
    obtain ⟨_, oz, e, hoz, hez, hew, heb⟩ := (readsAt_iff hc ho hbody).1 hreadz
    refine ⟨e, ?_, hew, heb⟩
    rw [hbefore]
    exact List.mem_filterMap.2 ⟨oz, mem_opsAt.2 ⟨z, hz, hoz⟩, hez⟩
  refine ⟨?_, x, l, r, ?_, ?_⟩
  · exact ⟨a.value, _, accessesAt_iff.2 ⟨y, hready⟩, _, accessesAt_iff.2 ⟨x, hread⟩, hne⟩
  · refine ⟨body, us, ws, a.value, a.offset, hbody, hops, hread, ⟨y, hy, _, hready, hne⟩, ?_⟩
    exact fun w y hy z hz b d hb hd => hsame w b (hin hy hb) d (hin hz hd)
  · obtain ⟨_, _, _, _, hop⟩ := access?_eq_some.1 ha
    rw [hop, hc.op_id hox]

/-- Where the analysis of an apply fails, the apply has no extents, and the fault blames
the first clash of ranks or else the return. -/
theorem blames_of_applyExtents {fault : ExtentFault}
    (hc : p.Coherent)
    (ho : p.op? u = some o)
    (h : p.applyExtents o = .error fault) :
    p.Unmeasurable o ∧ ∀ function, p.Blames o function (fault.diagnostic function) := by
  unfold applyExtents at h
  split at h
  · next hfold =>
      cases h
      obtain ⟨hmixed, x, l, r, hclash, rfl⟩ := firstClash_of_foldAccesses hc ho hfold
      exact ⟨Or.inl hmixed, fun function => .access hclash rfl rfl⟩
  next t ht =>
  have hrec := records_of_foldAccesses ht
  have hclash : ∀ x, ¬ p.FirstClash o x := fun x =>
    not_firstClash (not_mixedRank_of_records hc ho hrec)
  split at h
  · cases h
  · next ret block hunroll =>
      split at h
      · cases h
      · next hchange =>
          cases h
          obtain ⟨k, e, he, hfault⟩ := Table.change_eq_error hchange
          have hspans := spans_of_records (v := ⟨k⟩) hc ho hrec he
          rcases Extent.unroll_eq_error.1 hfault with ⟨hne, rfl⟩ | ⟨hl, rfl, d, hd, hout⟩
          · obtain ⟨offset, hoffset⟩ := hspans.nonempty
            have hrank : p.UnrollRank o := by
              refine ⟨⟨k⟩, ret, block, hunroll, offset, hoffset, ?_⟩
              rwa [hspans.rank offset hoffset, ← hspans.positive_length]
            exact ⟨Or.inr (Or.inl hrank), fun function => .unrollRank hclash hrank hunroll rfl rfl⟩
          · have hover : p.UnrollOverflows o :=
              ⟨⟨k⟩, ret, block, d, _, hunroll, hl ▸ hd,
                hspans.isGreatest d (hspans.positive_length ▸ hd), hout⟩
            exact ⟨Or.inr (Or.inr hover),
              fun function => .unrollOverflows hclash hover hunroll rfl rfl⟩

end Measuring

section Entries

/-- The operations of the stencil programs among some functions, with their functions. -/
def entriesOf : List Function → List (Function × OpId)
  | [] => []
  | f :: fs =>
      if f.stencil then f.body.map (fun u => (f, u)) ++ entriesOf fs else entriesOf fs

theorem mem_entriesOf {fs : List Function} {f : Function} {u : OpId} :
    (f, u) ∈ entriesOf fs ↔ f ∈ fs ∧ f.stencil = true ∧ u ∈ f.body := by
  induction fs with
  | nil => simp [entriesOf]
  | cons g fs ih =>
      have hhead : (f, u) ∈ g.body.map (fun u => (g, u)) ↔ f = g ∧ u ∈ f.body := by
        simp only [List.mem_map, Prod.mk.injEq]
        constructor
        · rintro ⟨w, hw, rfl, rfl⟩
          exact ⟨rfl, hw⟩
        · rintro ⟨rfl, hu⟩
          exact ⟨u, hu, rfl, rfl⟩
      simp only [entriesOf]
      split
      · next hs =>
          rw [List.mem_append, hhead, ih, List.mem_cons]
          constructor
          · rintro (⟨rfl, hu⟩ | ⟨hf, h⟩)
            · exact ⟨Or.inl rfl, hs, hu⟩
            · exact ⟨Or.inr hf, h⟩
          · rintro ⟨rfl | hf, h⟩
            · exact Or.inl ⟨rfl, h.2⟩
            · exact Or.inr ⟨hf, h⟩
      · next hs =>
          rw [ih, List.mem_cons]
          constructor
          · exact fun ⟨hf, h⟩ => ⟨Or.inr hf, h⟩
          · rintro ⟨rfl | hf, h⟩
            · exact absurd h.1 hs
            · exact ⟨hf, h⟩

/-- The operations of stencil programs in order, with their functions. -/
def stencilEntries (p : Program) : List (Function × OpId) :=
  entriesOf p.functions.toList

/-- Enters the extents of the applies among some operations of functions. -/
def foldEntries (p : Program) (t : ExtentTable) :
    List (Function × OpId) → Except Diagnostic ExtentTable
  | [] => .ok t
  | (f, u) :: rest =>
      match p.op? u with
      | none => p.foldEntries t rest
      | some o =>
          match o.kind with
          | .apply _ _ =>
              match p.applyExtents o with
              | .ok extents => p.foldEntries (t.insert o.id extents) rest
              | .error fault => .error (fault.diagnostic f.name)
          | _ => p.foldEntries t rest

variable {p : Program}

theorem walk_cons (u : OpId) (us : List OpId) :
    p.walk (u :: us) =
      (p.op? u).elim [] (fun o => o :: p.opsAt (o.kind.body?.elim [] Block.ops)) ++ p.walk us := by
  unfold walk opsAt
  rw [List.filterMap_cons]
  cases p.op? u with
  | none => rfl
  | some o => rfl

/-- Inner operations have no extents. -/
theorem foldApplies_inner_append {os rest : List Operation} {t : ExtentTable}
    (h : ∀ o ∈ os, o.kind.isShaped = false) :
    p.foldApplies t (os ++ rest) = p.foldApplies t rest := by
  induction os with
  | nil => rfl
  | cons o os ih =>
      have hk := h o List.mem_cons_self
      rw [← ih fun x hx => h x (List.mem_cons_of_mem _ hx), List.cons_append, foldApplies]
      split
      · next heq =>
          rw [heq] at hk
          cases hk
      · rfl

/-- The operations of bodies are passed over. -/
theorem foldEntries_map_append (hf : p.Fresh) (f : Function) (rest : List (Function × OpId))
    (us : List OpId) :
    ∀ t : ExtentTable, p.foldEntries t (us.map (fun u => (f, u)) ++ rest) =
      match p.foldApplies t (p.walk us) with
      | .ok t' => p.foldEntries t' rest
      | .error fault => .error (fault.diagnostic f.name) := by
  induction us with
  | nil => exact fun _ => rfl
  | cons u us ih =>
      intro t
      rw [List.map_cons, List.cons_append, foldEntries, walk_cons]
      cases ho : p.op? u with
      | none => exact ih t
      | some o =>
          have hinner : ∀ ox ∈ p.opsAt (o.kind.body?.elim [] Block.ops),
              ox.kind.isShaped = false := by
            intro ox hox
            rcases mem_opsAt.1 hox with ⟨x, hx, hox⟩
            cases hbody : o.kind.body? with
            | none =>
                rw [hbody] at hx
                cases hx
            | some body =>
                rw [hbody] at hx
                obtain ⟨oy, hoy, hk⟩ := hf.inner ho hbody x hx
                obtain rfl : ox = oy := Option.some.inj (hox.symm.trans hoy)
                exact hk
          simp only [Option.elim_some, List.cons_append, foldApplies,
            foldApplies_inner_append hinner]
          generalize o.kind = k
          cases k with
          | apply b body =>
              cases p.applyExtents o with
              | ok extents => exact ih _
              | error fault => rfl
          | _ => exact ih t

/-- The analysis visits the operations of stencil programs in order. -/
theorem foldFunctions_eq_foldEntries (hf : p.Fresh) (fs : List Function) :
    ∀ t : ExtentTable, p.foldFunctions t fs = p.foldEntries t (entriesOf fs) := by
  induction fs with
  | nil => exact fun _ => rfl
  | cons f fs ih =>
      intro t
      rw [foldFunctions, entriesOf]
      split
      · rw [foldEntries_map_append hf]
        cases p.foldApplies t (p.walk f.body) with
        | ok t' => exact ih t'
        | error _ => rfl
      · exact ih t

/-- The table has the extents of the applies among some operations, and no others. -/
structure Tabulates (p : Program) (t : ExtentTable) (es : List (Function × OpId)) : Prop where
  known : ∀ {f u o}, (f, u) ∈ es → p.op? u = some o → o.kind.body?.isSome →
    ∃ extents, p.applyExtents o = .ok extents ∧ ∀ v, t.find? u v = extents.find? v.index
  only : ∀ {u v e}, t.find? u v = some e →
    ∃ f o, (f, u) ∈ es ∧ p.op? u = some o ∧ o.kind.body?.isSome

namespace Tabulates

variable {t : ExtentTable} {es : List (Function × OpId)} {f : Function} {u : OpId}

theorem empty : p.Tabulates .empty [] where
  known h := by cases h
  only h := by cases h

/-- An operation without a body leaves no trace. -/
theorem skip (h : p.Tabulates t es) (hu : ∀ o, p.op? u = some o → o.kind.body? = none) :
    p.Tabulates t (es ++ [(f, u)]) where
  known {g w o} hmem ho hbody := by
    rcases List.mem_append.1 hmem with hmem | hmem
    · exact h.known hmem ho hbody
    · obtain ⟨rfl, rfl⟩ := Prod.mk.inj (List.mem_singleton.1 hmem)
      rw [hu o ho] at hbody
      cases hbody
  only he := by
    obtain ⟨g, o, hmem, ho, hbody⟩ := h.only he
    exact ⟨g, o, List.mem_append_left _ hmem, ho, hbody⟩

theorem insert {o : Operation} {extents : Table Extent}
    (h : p.Tabulates t es)
    (hc : p.Coherent)
    (ho : p.op? u = some o)
    (hbody : o.kind.body?.isSome)
    (hextents : p.applyExtents o = .ok extents) :
    p.Tabulates (t.insert o.id extents) (es ++ [(f, u)]) := by
  -- An apply that accesses nothing leaves no trace, and had left none before.
  have hself : ∀ v, (t.insert o.id extents).find? u v = extents.find? v.index := by
    intro v
    rw [ExtentTable.find?_insert, hc.op_id ho]
    split
    · rfl
    · next hempty =>
        have hnil : extents.entries = [] := by simpa using hempty
        have hnone : extents.find? v.index = none := by rw [Table.find?, hnil]; rfl
        rw [hnone]
        cases he : t.find? u v with
        | none => rfl
        | some e =>
            obtain ⟨g, o', hmem, ho', hbody'⟩ := h.only he
            obtain rfl : o = o' := Option.some.inj (ho.symm.trans ho')
            obtain ⟨extents', hextents', hfind⟩ := h.known hmem ho hbody
            rw [hextents] at hextents'
            cases hextents'
            rw [← he, hfind, hnone]
  have hother : ∀ {w v}, w ≠ u → (t.insert o.id extents).find? w v = t.find? w v := by
    intro w v hw
    rw [ExtentTable.find?_insert, if_neg fun hand => hw (hand.1.trans (hc.op_id ho))]
  constructor
  · intro g w o' hmem ho' hbody'
    by_cases hw : w = u
    · subst hw
      obtain rfl : o = o' := Option.some.inj (ho.symm.trans ho')
      exact ⟨extents, hextents, hself⟩
    · rcases List.mem_append.1 hmem with hmem | hmem
      · obtain ⟨extents', hextents', hfind⟩ := h.known hmem ho' hbody'
        exact ⟨extents', hextents', fun v => (hother hw).trans (hfind v)⟩
      · exact absurd (Prod.mk.inj (List.mem_singleton.1 hmem)).2 hw
  · intro w v e he
    by_cases hw : w = u
    · subst hw
      exact ⟨f, o, by simp, ho, hbody⟩
    · rw [hother hw] at he
      obtain ⟨g, o', hmem, ho', hbody'⟩ := h.only he
      exact ⟨g, o', List.mem_append_left _ hmem, ho', hbody'⟩

end Tabulates

/-- The analysis goes on to the end, or it stops at the first apply that it cannot
measure. -/
theorem foldEntries_spec (hc : p.Coherent) (es : List (Function × OpId)) :
    ∀ {t : ExtentTable} {visited : List (Function × OpId)}, p.Tabulates t visited →
      (∃ t', p.foldEntries t es = .ok t' ∧ p.Tabulates t' (visited ++ es)) ∨
      ∃ before f u after o fault t', es = before ++ (f, u) :: after ∧ p.op? u = some o ∧
        p.applyExtents o = .error fault ∧ p.Tabulates t' (visited ++ before) ∧
        p.foldEntries t es = .error (fault.diagnostic f.name) := by
  induction es with
  | nil => exact fun {t visited} h => Or.inl ⟨t, rfl, by rwa [List.append_nil]⟩
  | cons e es ih =>
      rcases e with ⟨f, u⟩
      intro t visited h
      -- What happens behind an operation that can be passed.
      have hnext : ∀ {t₁ : ExtentTable}, p.Tabulates t₁ (visited ++ [(f, u)]) →
          p.foldEntries t ((f, u) :: es) = p.foldEntries t₁ es →
          (∃ t', p.foldEntries t ((f, u) :: es) = .ok t' ∧
            p.Tabulates t' (visited ++ (f, u) :: es)) ∨
          ∃ before g w after o fault t', (f, u) :: es = before ++ (g, w) :: after ∧
            p.op? w = some o ∧ p.applyExtents o = .error fault ∧
            p.Tabulates t' (visited ++ before) ∧
            p.foldEntries t ((f, u) :: es) = .error (fault.diagnostic g.name) := by
        intro t₁ h₁ heq
        rw [heq]
        rcases ih h₁ with ⟨t', ht', htab⟩ |
          ⟨before, g, w, after, o, fault, t', hsplit, ho, hfault, htab, herr⟩
        · refine Or.inl ⟨t', ht', ?_⟩
          rwa [List.append_assoc] at htab
        · refine Or.inr ⟨(f, u) :: before, g, w, after, o, fault, t', by rw [hsplit]; rfl, ho,
            hfault, ?_, herr⟩
          rwa [List.append_assoc] at htab
      cases ho : p.op? u with
      | none =>
          refine hnext (h.skip fun o ho' => ?_) (by simp only [foldEntries, ho])
          rw [ho] at ho'
          cases ho'
      | some o =>
          cases hbody : o.kind.body? with
          | none =>
              refine hnext (h.skip fun o' ho' => ?_) ?_
              · obtain rfl : o = o' := Option.some.inj (ho.symm.trans ho')
                exact hbody
              · simp only [foldEntries, ho]
                split
                · next heq =>
                    rw [heq] at hbody
                    cases hbody
                · rfl
          | some body =>
              obtain ⟨b, hk⟩ : ∃ b, o.kind = .apply b body := by
                generalize o.kind = k at hbody
                cases k <;> first | exact ⟨_, congrArg _ (Option.some.inj hbody)⟩ | cases hbody
              cases hextents : p.applyExtents o with
              | ok extents =>
                  exact hnext (h.insert hc ho (by rw [hbody]; rfl) hextents)
                    (by simp only [foldEntries, ho, hk, hextents])
              | error fault =>
                  refine Or.inr ⟨[], f, u, es, o, fault, t, rfl, ho, hextents, ?_, ?_⟩
                  · rwa [List.append_nil]
                  · simp only [foldEntries, ho, hk, hextents]

end Entries

/-- Extent analysis finds the least boxes of all applies of stencil programs, or it
blames the first apply that has none. -/
structure ExtentsExact (p : Program) : Prop where
  /-- There is an extent exactly where an apply of a stencil program reads an operand. -/
  isSome_iff : ∀ t, p.extents = .ok t → ∀ u v, (t.find? u v).isSome ↔
    ∃ f ∈ p.functions.toList, f.stencil = true ∧ u ∈ f.body ∧
      ∃ o, p.op? u = some o ∧ (p.offsetsAt o v).Nonempty
  isExtent : ∀ t, p.extents = .ok t → ∀ u v e, t.find? u v = some e →
    ∃ o, p.op? u = some o ∧ p.IsExtent o v e
  fails_iff : (∃ d, p.extents = .error d) ↔
    ∃ f u o, (f, u) ∈ p.stencilEntries ∧ p.op? u = some o ∧ p.Unmeasurable o
  /-- The error is about the first apply in program order that cannot be measured. -/
  blames : ∀ d, p.extents = .error d → d.isError = true ∧
    ∃ before f u after o, p.stencilEntries = before ++ (f, u) :: after ∧ p.op? u = some o ∧
      p.Unmeasurable o ∧ p.Blames o f.name d ∧
      ∀ g w ow, (g, w) ∈ before → p.op? w = some ow → ¬ p.Unmeasurable ow

/-- What cannot be measured is an apply. -/
theorem Unmeasurable.body {p : Program} {o : Operation} (h : p.Unmeasurable o) :
    o.kind.body?.isSome := by
  have hread : ∀ {v offset}, offset ∈ p.offsetsAt o v → o.kind.body?.isSome := by
    rintro v offset ⟨body, _, _, _, _, hbody, _⟩
    rw [hbody]
    rfl
  rcases h with ⟨v, a, ha, _⟩ | ⟨v, _, _, _, a, ha, _⟩ | ⟨v, _, _, _, _, _, _, hm, _⟩
  · exact hread ha
  · exact hread ha
  · obtain ⟨a, ha, _⟩ := hm.1
    exact hread ha

/-- A table of all extents is exact, since no apply in it is without extents. -/
theorem exact_of_tabulates {p : Program} {t : ExtentTable}
    (hc : p.Coherent)
    (ht : p.extents = .ok t)
    (htab : p.Tabulates t p.stencilEntries) :
    p.ExtentsExact := by
  have hmeasures : ∀ {f u o}, (f, u) ∈ p.stencilEntries → p.op? u = some o →
      o.kind.body?.isSome → ∃ extents, p.Measures o extents ∧
        ∀ v, t.find? u v = extents.find? v.index := by
    intro f u o hmem ho hbody
    obtain ⟨extents, hextents, hfind⟩ := htab.known hmem ho hbody
    exact ⟨extents, measures_of_applyExtents hc ho hextents, hfind⟩
  constructor
  case isSome_iff =>
    intro t' ht' u v
    rw [ht] at ht'
    cases ht'
    constructor
    · intro hsome
      obtain ⟨e, he⟩ := Option.isSome_iff_exists.1 hsome
      obtain ⟨f, o, hmem, ho, hbody⟩ := htab.only he
      obtain ⟨hf, hs, hu⟩ := mem_entriesOf.1 hmem
      obtain ⟨extents, hmeas, hfind⟩ := hmeasures hmem ho hbody
      rw [hfind] at hsome
      exact ⟨f, hf, hs, hu, o, ho, (hmeas.isSome_iff v).1 hsome⟩
    · rintro ⟨f, hf, hs, hu, o, ho, hne⟩
      obtain ⟨offset, body, _, _, _, _, hbody, _⟩ := id hne
      obtain ⟨extents, hmeas, hfind⟩ :=
        hmeasures (mem_entriesOf.2 ⟨hf, hs, hu⟩) ho (by rw [hbody]; rfl)
      rw [hfind]
      exact (hmeas.isSome_iff v).2 hne
  case isExtent =>
    intro t' ht' u v e he
    rw [ht] at ht'
    cases ht'
    obtain ⟨f, o, hmem, ho, hbody⟩ := htab.only he
    obtain ⟨extents, hmeas, hfind⟩ := hmeasures hmem ho hbody
    rw [hfind] at he
    exact ⟨o, ho, hmeas.isExtent he⟩
  case fails_iff =>
    constructor
    · rintro ⟨d, hd⟩
      rw [ht] at hd
      cases hd
    · rintro ⟨f, u, o, hmem, ho, hun⟩
      obtain ⟨extents, hmeas, _⟩ := hmeasures hmem ho hun.body
      exact absurd hun hmeas.measurable
  case blames =>
    intro d hd
    rw [ht] at hd
    cases hd

/-- An error is exact when it blames an apply without extents and all before have some. -/
theorem exact_of_error {p : Program} {t : ExtentTable} {before after : List (Function × OpId)}
    {f : Function} {u : OpId} {o : Operation} {fault : ExtentFault}
    (hc : p.Coherent)
    (herror : p.extents = .error (fault.diagnostic f.name))
    (hsplit : p.stencilEntries = before ++ (f, u) :: after)
    (ho : p.op? u = some o)
    (hfault : p.applyExtents o = .error fault)
    (htab : p.Tabulates t before) :
    p.ExtentsExact := by
  obtain ⟨hun, hblames⟩ := blames_of_applyExtents hc ho hfault
  constructor
  case isSome_iff =>
    intro t' ht'
    rw [herror] at ht'
    cases ht'
  case isExtent =>
    intro t' ht'
    rw [herror] at ht'
    cases ht'
  case fails_iff => exact ⟨fun _ => ⟨f, u, o, by rw [hsplit]; simp, ho, hun⟩, fun _ => ⟨_, herror⟩⟩
  case blames =>
    intro d hd
    rw [herror] at hd
    cases hd
    refine ⟨(fault.diagnostic_spec f.name).1, before, f, u, after, o, hsplit, ho, hun,
      hblames f.name, fun g w ow hmem how hunw => ?_⟩
    obtain ⟨extents, hextents, _⟩ := htab.known hmem how hunw.body
    exact (measures_of_applyExtents hc how hextents).measurable hunw

/-- The extents of a built program are the least boxes around the offsets of all
accesses. -/
theorem extents_are_least_boxes {p : Program} (h : p.Built) : p.ExtentsExact := by
  have hc := h.coherent
  have hfold : p.extents = p.foldEntries .empty p.stencilEntries :=
    foldFunctions_eq_foldEntries h.fresh p.functions.toList .empty
  rcases foldEntries_spec hc p.stencilEntries Tabulates.empty with ⟨t, ht, htab⟩ |
    ⟨before, f, u, after, o, fault, t, hsplit, ho, hfault, htab, herror⟩
  · exact exact_of_tabulates hc (hfold.trans ht) htab
  · exact exact_of_error hc (hfold.trans herror) hsplit ho hfault htab

/-- An apply that is given one temp twice and reads it through both arguments; it reads
the temp itself as well, which is none of its arguments. -/
def pairedBody : Program :=
  let p := (({} : Program).beginFunction "pair" true [.field .f64 1, .field .f64 1]).1
  let p := ((p.load ⟨0⟩).1.openApply [⟨2⟩, ⟨2⟩]).1
  let p := (p.access ⟨1⟩ ⟨3⟩ [.ofInt64 (-1)]).1
  let p := (p.access ⟨1⟩ ⟨4⟩ [.ofInt64 3]).1
  let p := (p.access ⟨1⟩ ⟨2⟩ [.ofInt64 9]).1
  p.ret ⟨1⟩ [⟨5⟩, ⟨6⟩] (some [.ofInt64 2])

/-- The program with that apply. -/
def paired : Program :=
  (pairedBody.closeApply ⟨1⟩).toOption.elim {} Prod.fst

theorem building_pairedBody : Building pairedBody (some ⟨1⟩) := by
  refine .ret _ (.access _ (.access _ (.access _ (.openApply (.load (.beginFunction _ _ _ .empty)
    ?_ ?_) ?_ ?_) ?_) ?_) ?_) ?_
  all_goals decide

theorem built_paired : paired.Built :=
  have hclose : pairedBody.closeApply ⟨1⟩ = .ok (paired, [⟨8⟩]) := by rfl
  .closeApply building_pairedBody hclose

theorem extents_are_least_boxes_paired :
    ∃ o, paired.op? ⟨1⟩ = some o ∧
      paired.IsExtent o ⟨2⟩ { negative := [{ val := -1 }], positive := [{ val := 2 }] } := by
  have hextents : paired.extents = .ok (paired.extents.toOption.getD .empty) := by rfl
  exact (extents_are_least_boxes built_paired).isExtent _ hextents ⟨1⟩ ⟨2⟩ _ (by rfl)

end Program
end StencilShapes
