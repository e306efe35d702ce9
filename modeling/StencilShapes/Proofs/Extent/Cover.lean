import StencilShapes.Proofs.Extent.Box
import StencilShapes.Proofs.Program.Scope

/-!
# Extents cover accesses

Before the unroll is taken off, the extent of an operand is the least box around the
offsets of its accesses, so it holds each of them.  The unroll is taken off the
positive end, so what is left covers an access up to the cells that the block covers
by itself.

The table of a program has one layer per apply.  Two visits of one apply find the
same layer, so the order of the visits leaves no trace.

**Results.**
* `Program.measured_of_extents`: what the table of a program consists of.
* `Program.Measured.covers`: the extent of an operand covers each access to it.
* `Program.Measured.rank`: an extent has the rank of the apply.
-/

namespace StencilShapes

/-- An offset of the same rank lies between the ends of an extent. -/
structure Extent.Holds (e : Extent) (offset : Point) : Prop where
  negative_length : e.negative.length = offset.length
  positive_length : e.positive.length = offset.length
  /-- The negative end is not above the offset. -/
  negative_le : ∀ d < offset.length, e.negative.coord d ≤ offset.coord d
  /-- The positive end is not below the offset. -/
  le_positive : ∀ d < offset.length, offset.coord d ≤ e.positive.coord d

/-- The least box around some offsets holds each of them. -/
theorem Extent.Spans.holds {e : Extent} {offsets : Set Point} {o : Point}
    (h : e.Spans offsets)
    (ho : o ∈ offsets) :
    e.Holds o := by
  have hlen : o.length = e.negative.length := h.rank o ho
  refine ⟨hlen.symm, h.positive_length.trans hlen.symm, fun d hd => ?_, fun d hd => ?_⟩
  · exact (h.isLeast d (hlen ▸ hd)).2 (Set.mem_image_of_mem _ ho)
  · exact (h.isGreatest d (hlen ▸ hd)).2 (Set.mem_image_of_mem _ ho)

theorem ExtentTable.find?_insert {t : ExtentTable} {u u' : OpId} {extents : Table Extent}
    {v : ValueId} :
    (t.insert u extents).find? u' v =
      if u' = u ∧ extents.entries ≠ [] then extents.find? v.index else t.find? u' v := by
  rcases u with ⟨k⟩
  rcases u' with ⟨k'⟩
  unfold insert find?
  by_cases hnil : extents.entries = []
  · simp [hnil]
  · simp only [List.isEmpty_iff, hnil, if_false, Table.find?_insert, OpId.mk.injEq, not_false_iff,
      ne_eq, and_true]
    split
    · rfl
    · rfl

namespace Program

namespace Records

variable {t : Table Extent} {as : List Access}

/-- Each access is held by the entry of its value. -/
theorem holds {a : Access} (h : Records t as) (ha : a ∈ as) :
    ∃ e, t.find? a.value.index = some e ∧ e.Holds a.offset := by
  have ho : a.offset ∈ offsetsIn as a.value := ⟨a, ha, rfl, rfl⟩
  obtain ⟨e, he⟩ := h.covers ⟨a.offset, ho⟩
  exact ⟨e, he, (h.spans he).holds ho⟩

/-- An entry is there for an access that it holds. -/
theorem exists_access {v : ValueId} {e : Extent} (h : Records t as)
    (he : t.find? v.index = some e) :
    ∃ a ∈ as, a.value = v ∧ e.Holds a.offset := by
  obtain ⟨o, ho⟩ := (h.spans he).nonempty
  obtain ⟨a, ha, hv, rfl⟩ := id ho
  exact ⟨a, ha, hv, (h.spans he).holds ho⟩

end Records

/-- How far one instance of a body reaches from the cell at which it starts. -/
def strideOf (p : Program) (o : Operation) (d : Nat) : Int :=
  (p.unroll? o).elim 1 fun u => u.2.coord d

/-- An extent covers an offset, up to what a block covers by itself. -/
structure Covers (p : Program) (o : Operation) (e : Extent) (offset : Point) : Prop where
  negative_length : e.negative.length = offset.length
  positive_length : e.positive.length = offset.length
  /-- The negative end is not above the offset. -/
  negative_le : ∀ d < offset.length, e.negative.coord d ≤ offset.coord d
  /-- The positive end with a whole block is not below the cell behind the offset. -/
  lt_positive : ∀ d < offset.length, offset.coord d + 1 ≤ e.positive.coord d + p.strideOf o d

/-- The accesses of an apply are covered, and nothing else is entered. -/
theorem applyExtents_eq_ok {p : Program} {o : Operation} {t : Table Extent}
    (h : p.applyExtents o = .ok t) :
    (∀ a ∈ p.accesses o, ∃ e, t.find? a.value.index = some e ∧ p.Covers o e a.offset) ∧
      ∀ k e, t.find? k = some e →
        ∃ a ∈ p.accesses o, a.value.index = k ∧ p.Covers o e a.offset := by
  unfold applyExtents at h
  split at h
  · cases h
  next t₀ ht₀ =>
  have hrecords : Records t₀ (p.accesses o) := records_of_foldAccesses ht₀
  have hin : ∀ a ∈ p.accesses o, ∃ e, t₀.find? a.value.index = some e ∧ e.Holds a.offset :=
    fun a ha => hrecords.holds ha
  have hout : ∀ k e, t₀.find? k = some e →
      ∃ a ∈ p.accesses o, a.value.index = k ∧ e.Holds a.offset := fun k e he => by
    obtain ⟨a, ha, hv, hold⟩ := hrecords.exists_access (v := ⟨k⟩) he
    exact ⟨a, ha, congrArg ValueId.index hv, hold⟩
  split at h
  · next hnone =>
      cases h
      have hcover : ∀ {e offset}, Extent.Holds e offset → p.Covers o e offset := fun he =>
        ⟨he.negative_length, he.positive_length, he.negative_le, fun d hd => by
          have := he.le_positive d hd
          simp only [strideOf, hnone, Option.elim_none]
          omega⟩
      exact ⟨fun a ha => (hin a ha).imp fun e he => ⟨he.1, hcover he.2⟩, fun k e he =>
        (hout k e he).imp fun a ha => ⟨ha.1, ha.2.1, hcover ha.2.2⟩⟩
  · next ret block hsome =>
      split at h
      · next t₁ ht₁ =>
          cases h
          have hcover : ∀ {e e' offset}, Extent.Holds e offset → e.unroll block = .ok e' →
              p.Covers o e' offset := by
            intro e e' offset he he'
            rcases Extent.unroll_eq_ok.1 he' with ⟨hneg, hpos⟩
            obtain ⟨_, hlen, hcoord⟩ := Point.coord_of_shrink hpos
            refine ⟨hneg ▸ he.negative_length, hlen.trans he.positive_length,
              hneg ▸ he.negative_le, fun d hd => ?_⟩
            have hle := he.le_positive d hd
            rw [hcoord d (he.positive_length ▸ hd)]
            simp only [strideOf, hsome, Option.elim_some]
            omega
          constructor
          · intro a ha
            obtain ⟨e, he, hold⟩ := hin a ha
            rcases Table.find?_change ht₁ a.value.index with
              ⟨hnone, _⟩ | ⟨e₀, e', he₀, hunroll, he'⟩
            · rw [he] at hnone
              cases hnone
            · obtain rfl : e = e₀ := Option.some.inj (he.symm.trans he₀)
              exact ⟨e', he', hcover hold hunroll⟩
          · intro k e' he'
            rcases Table.find?_change ht₁ k with ⟨_, hnone⟩ | ⟨e, e₁, he, hunroll, he₁⟩
            · rw [he'] at hnone
              cases hnone
            · obtain rfl : e' = e₁ := Option.some.inj (he'.symm.trans he₁)
              obtain ⟨a, ha, hk, hold⟩ := hout k e he
              exact ⟨a, ha, hk, hcover hold hunroll⟩
      · cases h

theorem access?_eq_some {body : Block} {operands : List ValueId} {o : Operation} {a : Access} :
    access? body operands o = some a ↔
      ∃ arg, o.kind = .access a.offset ∧ o.operands.head? = some arg ∧
        (body.args.zip operands).lookup arg = some a.value ∧ a.op = o.id := by
  rcases a with ⟨op, value, offset⟩
  unfold access?
  split
  · next offset' arg hk harg =>
      simp only [hk, harg, Option.map_eq_some_iff, Access.mk.injEq, OpKind.access.injEq,
        Option.some.injEq]
      constructor
      · rintro ⟨v, hv, hop, rfl, rfl⟩
        exact ⟨arg, rfl, rfl, hv, hop.symm⟩
      · rintro ⟨_, rfl, rfl, hv, hop⟩
        exact ⟨value, hv, hop.symm, rfl, rfl⟩
  · next hnone =>
      constructor
      · intro h
        cases h
      · rintro ⟨arg, hk, harg, _⟩
        exact absurd harg (hnone _ _ hk)

/-- An argument stands for one operand only. -/
theorem lookup_args_eq_some {p : Program} {u : OpId} {o : Operation} {body : Block}
    {arg v : ValueId}
    (hc : p.Coherent)
    (ho : p.op? u = some o)
    (hbody : o.kind.body? = some body) :
    (body.args.zip o.operands).lookup arg = some v ↔
      ∃ i : Nat, body.args[i]? = some arg ∧ o.operands[i]? = some v := by
  have hindex : ∀ {w}, (body.args.zip o.operands).lookup arg = some w →
      ∃ i : Nat, body.args[i]? = some arg ∧ o.operands[i]? = some w := by
    intro w hw
    rcases List.lookup_eq_some_iff.1 hw with ⟨l₁, l₂, hl, _⟩
    have hmem : (arg, w) ∈ body.args.zip o.operands := by simp [hl]
    obtain ⟨i, hi⟩ := List.getElem?_of_mem hmem
    exact ⟨i, List.getElem?_zip_eq_some.1 hi⟩
  refine ⟨hindex, ?_⟩
  rintro ⟨i, hi, hv⟩
  obtain ⟨w, hw⟩ : ∃ w, (body.args.zip o.operands).lookup arg = some w := by
    refine Option.isSome_iff_exists.1 (List.lookup_isSome_iff.2 ?_)
    exact ⟨(arg, v), List.mem_of_getElem? (List.getElem?_zip_eq_some.2 ⟨hi, hv⟩), by simp⟩
  obtain ⟨j, hj, hw'⟩ := hindex hw
  have horigin := hc.arg.2 ⟨o, body, ho, hbody, hi⟩
  rw [hc.arg.2 ⟨o, body, ho, hbody, hj⟩] at horigin
  cases horigin
  rw [hw]
  exact hw'.symm.trans hv

theorem mem_opsAt {p : Program} {os : List OpId} {o : Operation} :
    o ∈ p.opsAt os ↔ ∃ u ∈ os, p.op? u = some o :=
  List.mem_filterMap

theorem mem_accesses {p : Program} {o : Operation} {a : Access} :
    a ∈ p.accesses o ↔
      ∃ body, o.kind.body? = some body ∧ ∃ x ∈ body.ops, ∃ ox, p.op? x = some ox ∧
        access? body o.operands ox = some a := by
  unfold accesses
  cases o.kind.body? with
  | none => simp
  | some body =>
      simp only [List.mem_filterMap, mem_opsAt, Option.some.injEq, exists_eq_left']
      constructor
      · rintro ⟨ox, ⟨x, hx, hox⟩, h⟩
        exact ⟨x, hx, ox, hox, h⟩
      · rintro ⟨x, hx, ox, hox, h⟩
        exact ⟨ox, ⟨x, hx, hox⟩, h⟩

/-- What the table of a program consists of. -/
structure Measured (p : Program) (t : ExtentTable) : Prop where
  /-- Each apply of a stencil program has its extents in the table. -/
  known : ∀ f ∈ p.functions.toList, f.stencil = true → ∀ u ∈ f.body, ∀ o, p.op? u = some o →
    o.kind.body?.isSome → ∃ extents, p.applyExtents o = .ok extents ∧
      ∀ v e, extents.find? v.index = some e → t.find? u v = some e
  /-- Each extent of the table is one of an apply. -/
  only : ∀ {u v e}, t.find? u v = some e → ∃ o extents, p.op? u = some o ∧
    p.applyExtents o = .ok extents ∧ extents.find? v.index = some e

section Visits

variable {p : Program}

/-- The extents of an operation, if it has any, are in the table. -/
def Known (p : Program) (t : ExtentTable) (o : Operation) : Prop :=
  ∃ extents, p.applyExtents o = .ok extents ∧
    ∀ v e, extents.find? v.index = some e → t.find? o.id v = some e

/-- The table has nothing but extents of applies. -/
def OnlyExtents (p : Program) (t : ExtentTable) : Prop :=
  ∀ u v e, t.find? u v = some e → ∃ o extents, p.op? u = some o ∧
    p.applyExtents o = .ok extents ∧ extents.find? v.index = some e

theorem OnlyExtents.insert {t : ExtentTable} {o : Operation} {extents : Table Extent}
    (h : p.OnlyExtents t)
    (ho : p.op? o.id = some o)
    (hextents : p.applyExtents o = .ok extents) :
    p.OnlyExtents (t.insert o.id extents) := by
  intro u v e he
  rw [ExtentTable.find?_insert] at he
  split at he
  · next hu => exact ⟨o, extents, hu.1 ▸ ho, hextents, he⟩
  · exact h u v e he

/-- An entry stays when another operation, or the same one again, is visited. -/
theorem Known.insert {t : ExtentTable} {o o' : Operation} {extents : Table Extent}
    (h : p.Known t o')
    (ho' : p.op? o'.id = some o')
    (ho : p.op? o.id = some o)
    (hextents : p.applyExtents o = .ok extents) :
    p.Known (t.insert o.id extents) o' := by
  rcases h with ⟨extents', hextents', hin⟩
  refine ⟨extents', hextents', fun v e he => ?_⟩
  rw [ExtentTable.find?_insert]
  split
  · next hid =>
      rw [hid.1] at ho'
      obtain rfl : o = o' := Option.some.inj (ho.symm.trans ho')
      obtain rfl : extents = extents' := Except.ok.inj (hextents.symm.trans hextents')
      exact he
  · exact hin v e he

theorem known_insert_self {t : ExtentTable} {o : Operation} {extents : Table Extent}
    (hextents : p.applyExtents o = .ok extents) :
    p.Known (t.insert o.id extents) o := by
  refine ⟨extents, hextents, fun v e he => ?_⟩
  have hne : extents.entries ≠ [] := by
    intro hnil
    rw [Table.find?, hnil] at he
    cases he
  rw [ExtentTable.find?_insert, if_pos ⟨rfl, hne⟩, he]

/-- A visit of some operations enters the extents of all applies among them. -/
theorem foldApplies_eq_ok {os : List Operation} :
    ∀ {t t' : ExtentTable}, p.foldApplies t os = .ok t' → (∀ o ∈ os, p.op? o.id = some o) →
      (p.OnlyExtents t → p.OnlyExtents t') ∧
        (∀ o, p.op? o.id = some o → p.Known t o → p.Known t' o) ∧
        ∀ o ∈ os, o.kind.body?.isSome → p.Known t' o := by
  induction os with
  | nil =>
      intro t t' h _
      cases h
      exact ⟨fun h => h, fun _ _ h => h, fun o ho => by cases ho⟩
  | cons o os ih =>
      intro t t' h hos
      have ho := hos o List.mem_cons_self
      have hrest : ∀ o ∈ os, p.op? o.id = some o := fun x hx => hos x (List.mem_cons_of_mem _ hx)
      simp only [foldApplies] at h
      split at h
      · split at h
        · next extents hextents =>
            obtain ⟨honly, hkeep, hin⟩ := ih h hrest
            refine ⟨fun h => honly (h.insert ho hextents),
              fun x hx hk => hkeep x hx (hk.insert hx ho hextents), fun x hx hb => ?_⟩
            rcases List.mem_cons.1 hx with rfl | hx
            · exact hkeep x ho (known_insert_self hextents)
            · exact hin x hx hb
        · cases h
      · next hk =>
          obtain ⟨honly, hkeep, hin⟩ := ih h hrest
          refine ⟨honly, hkeep, fun x hx hb => ?_⟩
          rcases List.mem_cons.1 hx with rfl | hx
          · generalize x.kind = k at hk hb
            cases k <;> first | exact absurd rfl (hk _ _) | cases hb
          · exact hin x hx hb

theorem op?_id_of_mem_walk (hc : p.Coherent) {roots : List OpId} {o : Operation}
    (h : o ∈ p.walk roots) :
    p.op? o.id = some o := by
  have hid : ∀ {os}, o ∈ p.opsAt os → p.op? o.id = some o := by
    intro os h
    rcases mem_opsAt.1 h with ⟨u, _, hu⟩
    rw [hc.op_id hu, hu]
  rcases List.mem_flatMap.1 h with ⟨o', ho', ho⟩
  rcases List.mem_cons.1 ho with rfl | ho
  · exact hid ho'
  · exact hid ho

theorem foldFunctions_eq_ok (hc : p.Coherent) {fs : List Function} :
    ∀ {t t' : ExtentTable}, p.foldFunctions t fs = .ok t' →
      (p.OnlyExtents t → p.OnlyExtents t') ∧
        (∀ o, p.op? o.id = some o → p.Known t o → p.Known t' o) ∧
        ∀ f ∈ fs, f.stencil = true → ∀ u ∈ f.body, ∀ o, p.op? u = some o →
          o.kind.body?.isSome → p.Known t' o := by
  induction fs with
  | nil =>
      intro t t' h
      cases h
      exact ⟨fun h => h, fun _ _ h => h, fun f hf => by cases hf⟩
  | cons f fs ih =>
      intro t t' h
      simp only [foldFunctions] at h
      split at h
      · split at h
        · next t₁ ht₁ =>
            obtain ⟨honly₁, hkeep₁, hin₁⟩ :=
              foldApplies_eq_ok ht₁ fun o ho => op?_id_of_mem_walk hc ho
            obtain ⟨honly, hkeep, hin⟩ := ih h
            refine ⟨fun h => honly (honly₁ h), fun o ho hk => hkeep o ho (hkeep₁ o ho hk),
              fun g hg hs u hu o ho hb => ?_⟩
            rcases List.mem_cons.1 hg with rfl | hg
            · have hwalk : o ∈ p.walk g.body :=
                List.mem_flatMap.2 ⟨o, mem_opsAt.2 ⟨u, hu, ho⟩, List.mem_cons_self⟩
              exact hkeep o (op?_id_of_mem_walk hc hwalk) (hin₁ o hwalk hb)
            · exact hin g hg hs u hu o ho hb
        · cases h
      · next hs =>
          obtain ⟨honly, hkeep, hin⟩ := ih h
          refine ⟨honly, hkeep, fun g hg hs' => ?_⟩
          rcases List.mem_cons.1 hg with rfl | hg
          · exact absurd hs' hs
          · exact hin g hg hs'

/-- The table of a program has the extents of its applies and nothing else. -/
theorem measured_of_extents {t : ExtentTable}
    (hc : p.Coherent)
    (h : p.extents = .ok t) :
    p.Measured t := by
  obtain ⟨honly, _, hin⟩ := foldFunctions_eq_ok hc h
  constructor
  · intro f hf hs u hu o ho hb
    have hid := hc.op_id ho
    obtain ⟨extents, hextents, hfind⟩ := hin f hf hs u hu o ho hb
    exact ⟨extents, hextents, fun v e he => hid ▸ hfind v e he⟩
  · intro u v e he
    refine honly (fun u v e he => ?_) u v e he
    cases he

end Visits

namespace Measured

variable {p : Program} {t : ExtentTable}

/-- An extent has the rank of the apply. -/
theorem rank {u : OpId} {v : ValueId} {e : Extent} {o : Operation} {r : Nat}
    (h : p.Measured t)
    (he : t.find? u v = some e)
    (ho : p.op? u = some o)
    (hr : p.OpRank o r) :
    e.negative.length = r ∧ e.positive.length = r := by
  obtain ⟨o', extents, ho', hextents, hfind⟩ := h.only he
  obtain rfl : o = o' := Option.some.inj (ho.symm.trans ho')
  obtain ⟨a, ha, _, hcover⟩ := (applyExtents_eq_ok hextents).2 _ _ hfind
  rcases mem_accesses.1 ha with ⟨body, hbody, x, hx, ox, hox, haccess⟩
  rcases access?_eq_some.1 haccess with ⟨_, hk, _⟩
  obtain ⟨ox', hox', hpoint⟩ := hr.points body hbody x hx
  obtain rfl : ox = ox' := Option.some.inj (hox.symm.trans hox')
  have hlen : a.offset.length = r := hpoint _ (by rw [hk]; rfl)
  exact ⟨hcover.negative_length.trans hlen, hcover.positive_length.trans hlen⟩

/-- The extent of an operand covers each access to the argument that stands for it. -/
theorem covers {f : Function} {u x : OpId} {o ox : Operation} {body : Block} {offset : Point}
    {arg v : ValueId} {i : Nat}
    (h : p.Measured t)
    (hc : p.Coherent)
    (hf : f ∈ p.functions.toList)
    (hs : f.stencil = true)
    (hu : u ∈ f.body)
    (ho : p.op? u = some o)
    (hbody : o.kind.body? = some body)
    (hx : x ∈ body.ops)
    (hox : p.op? x = some ox)
    (hk : ox.kind = .access offset)
    (harg : ox.operands.head? = some arg)
    (hi : body.args[i]? = some arg)
    (hv : o.operands[i]? = some v) :
    ∃ e, t.find? u v = some e ∧ p.Covers o e offset := by
  obtain ⟨extents, hextents, hfind⟩ := h.known f hf hs u hu o ho (by rw [hbody]; rfl)
  have haccess : access? body o.operands ox = some { op := ox.id, value := v, offset } :=
    access?_eq_some.2 ⟨arg, hk, harg, (lookup_args_eq_some hc ho hbody).2 ⟨i, hi, hv⟩, rfl⟩
  have hmem : ({ op := ox.id, value := v, offset } : Access) ∈ p.accesses o :=
    mem_accesses.2 ⟨body, hbody, x, hx, ox, hox, haccess⟩
  obtain ⟨e, he, hcover⟩ := (applyExtents_eq_ok hextents).1 _ hmem
  exact ⟨e, hfind v e he, hcover⟩

end Measured
end Program
end StencilShapes
