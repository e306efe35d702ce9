import StencilShapes.Proofs.Description.Names
import StencilShapes.Proofs.Description.WellFormed
import StencilShapes.Proofs.Point
import StencilShapes.Proofs.Program.Scope

/-!
# Bodies that can be built

The body of an apply is built operation by operation and then closed.  While it has no
return, it knows its parameters and what it has defined, and arguments can be told from
other values by their age.  Whether the rest can be built and closed is then decided by
the description alone.

**Results.**
* `Program.yields_iff`: groups of returned values, and the product of the unroll.
* `Program.exists_closeApply_iff`: an apply is closed when its return yields the results.
* `BodyState.Tracks.of_addOp`, `BodyState.Tracks.exists_addOp`: one operation of a body.
* `BodyState.Tracks.exists_close_iff`: a body is built and closed when it is well-formed.
-/

namespace StencilShapes

open Program

namespace Program

variable {p : Program} {apply : OpId}

section Returned

variable {unroll : Option Point}

theorem groupSize_eq_unrollVolume (h : 1 ≤ unrollVolume unroll)
    (h' : unrollVolume unroll ≤ 9223372036854775807) :
    groupSize unroll = unrollVolume unroll := by
  cases unroll with
  | none => rfl
  | some u =>
      obtain ⟨a, ha⟩ := Point.exists_volume? h h'
      rw [groupSize, ha]
      exact Point.val_of_volume? ha

theorem unrollVolume_of_groupSize (h : 1 ≤ groupSize unroll) :
    groupSize unroll = unrollVolume unroll ∧ unrollVolume unroll ≤ 9223372036854775807 := by
  cases unroll with
  | none => exact ⟨rfl, by decide⟩
  | some u =>
      cases ha : u.volume? with
      | none =>
          rw [groupSize, ha] at h
          exact absurd h (by decide)
      | some a =>
          have hval : a.val = unrollVolume (some u) := Point.val_of_volume? ha
          refine ⟨?_, hval ▸ a.inRange.2⟩
          rw [groupSize, ha]
          exact hval

/-- Each full group of values gives one result. -/
theorem length_groupTypes {tys : List Ty} {size : Nat} (hsize : 0 < size) :
    (groupTypes tys size).length = tys.length / size := by
  rw [groupTypes, List.filterMap_length_eq_length.2, List.length_range]
  intro j hj
  have hlt : j * size < tys.length :=
    Nat.lt_of_lt_of_le (Nat.mul_lt_mul_of_pos_right (List.mem_range.1 hj) hsize)
      (Nat.div_mul_le_self _ _)
  rw [Option.isSome_map, List.getElem?_eq_getElem hlt]
  rfl

/-- Groups of returned values make up the results. -/
theorem yields_iff {values results : Nat} :
    Yields values unroll results ↔
      1 ≤ groupSize unroll ∧ (values : Int) % groupSize unroll = 0 ∧
        values / (groupSize unroll).toNat = results := by
  constructor
  · rintro ⟨hpos, hle, hcount⟩
    rw [groupSize_eq_unrollVolume hpos hle]
    obtain ⟨k, hk⟩ := Int.eq_ofNat_of_zero_le (show 0 ≤ unrollVolume unroll by omega)
    rw [hk] at hpos hcount ⊢
    have hvalues : values = k * results := by exact_mod_cast hcount
    refine ⟨hpos, ?_, ?_⟩
    · rw [hcount, Int.mul_emod_right]
    · rw [hvalues, Int.toNat_natCast, Nat.mul_div_cancel_left _ (by omega)]
  · rintro ⟨hpos, hmod, rfl⟩
    obtain ⟨heq, hle⟩ := unrollVolume_of_groupSize hpos
    obtain ⟨k, hk⟩ := Int.eq_ofNat_of_zero_le (show 0 ≤ groupSize unroll by omega)
    refine ⟨heq ▸ hpos, hle, ?_⟩
    rw [← heq]
    rw [hk] at hmod ⊢
    have hdvd : k ∣ values := by exact_mod_cast Int.dvd_of_emod_eq_zero hmod
    rw [Int.toNat_natCast]
    exact_mod_cast (Nat.mul_div_cancel' hdvd).symm

end Returned

/-- The last operation in the body of an apply. -/
def lastIn (p : Program) (apply : OpId) : Option Operation :=
  (p.op? apply).bind p.terminator?

/-- An apply is closed when its last operation is a return that yields the results. -/
theorem exists_closeApply_iff {n : Nat} :
    (∃ q values, p.closeApply apply = .ok (q, values) ∧ values.length = n) ↔
      ∃ t unroll, p.lastIn apply = some t ∧ t.kind = .ret unroll ∧
        Yields t.operandTypes.length unroll n := by
  have hlength : ∀ {tys : List Ty} {unroll}, 1 ≤ groupSize unroll →
      (p.newResults apply (groupTypes tys (groupSize unroll).toNat)).2.length =
        tys.length / (groupSize unroll).toNat := fun hpos => by
    rw [length_newResults, length_groupTypes (by omega)]
  constructor
  · rintro ⟨q, values, hclose, rfl⟩
    obtain ⟨o, t, unroll, ho, ht, hk, hpos, hmod, _, rfl⟩ := closeApply_eq_ok.1 hclose
    exact ⟨t, unroll, Option.bind_eq_some_iff.2 ⟨o, ho, ht⟩, hk,
      yields_iff.2 ⟨hpos, hmod, (hlength hpos).symm⟩⟩
  · rintro ⟨t, unroll, hlast, hk, hyields⟩
    obtain ⟨o, ho, ht⟩ := Option.bind_eq_some_iff.1 hlast
    obtain ⟨hpos, hmod, hcount⟩ := yields_iff.1 hyields
    exact ⟨_, _, closeApply_eq_ok.2 ⟨o, t, unroll, ho, ht, hk, hpos, hmod, rfl, rfl⟩,
      (hlength hpos).trans hcount⟩

section Inner

variable (kind : OpKind) (operands : List ValueId) (tys : List Ty)

theorem size_addInner :
    (p.addInner apply kind operands tys).1.values.size = p.values.size + tys.length :=
  (size_newResults _ tys _).trans
    (congrArg (· + tys.length) (size_values_newOp p kind operands (some apply)))

/-- The body of an open apply ends with the inner operation that joins it. -/
theorem lastIn_addInner {o : Operation} {body : Block}
    (ho : p.op? apply = some o)
    (hbody : o.kind.body? = some body) :
    ∃ t, (p.addInner apply kind operands tys).1.lastIn apply = some t ∧ t.kind = kind ∧
      t.operandTypes = operands.map p.typeOf := by
  obtain ⟨results, ht⟩ := exists_op?_addInner kind operands tys ho
  have hlast : (p.addInner apply kind operands tys).1.lastIn apply =
      (p.addInner apply kind operands tys).1.op? ⟨p.ops.size⟩ := by
    rw [lastIn, op?_addInner_apply kind operands tys ho, Option.bind_some, terminator?,
      OpKind.body?_appendInner, hbody]
    simp only [Option.map_some, Option.bind_some, List.getLast?_concat]
  exact ⟨_, hlast.trans ht, rfl, rfl⟩

end Inner
end Program

/-- A body under construction, which knows the parameters and what it has defined. -/
structure BodyState.Tracks (apply : OpId) (args : List ValueId) (params : List String)
    (rank : Option Nat) (known : List String) (s : BodyState) : Prop where
  scope : s.scope.Knows known
  params_known : ∀ x ∈ params, x ∈ known
  /-- The names of the arguments are the parameters. -/
  named : ∀ b ∈ s.scope.bindings, b.2 ∈ args ↔ b.1 ∈ params
  older : ∀ v ∈ args, v.index < s.program.values.size
  /-- The rank is unknown only where there is nothing to read. -/
  ranked : rank = none → args = []
  rank : s.rank = rank
  opened : ∃ o body, s.program.op? apply = some o ∧ o.kind.body? = some body
  unreturned : ∀ t, s.program.lastIn apply = some t → ∀ unroll, t.kind ≠ .ret unroll

namespace BodyState.Tracks

variable {apply : OpId} {args : List ValueId} {params known : List String} {rank : Option Nat}
  {last : Bool} {s s' : BodyState} {op : BodyOpDesc}

/-- An operation that defines a name and does not return. -/
theorem addInner {result : String} {scope : Scope ValueId}
    (kind : OpKind) (operands : List ValueId) (ty : Ty)
    (h : s.Tracks apply args params rank known)
    (hkind : ∀ unroll, kind ≠ .ret unroll)
    (hscope : s.scope.define result ⟨s.program.values.size⟩ = .ok scope) :
    Tracks apply args params rank (known ++ [result])
      { program := (s.program.addInner apply kind operands [ty]).1, scope, rank } := by
  obtain ⟨o, body, ho, hbody⟩ := h.opened
  obtain ⟨t, hlast, hk, _⟩ := lastIn_addInner kind operands [ty] ho hbody
  have hnew : result ∉ known := h.scope.exists_define_iff.1 ⟨scope, hscope⟩
  constructor
  case scope => exact h.scope.define hscope
  case params_known => exact fun x hx => List.mem_append_left _ (h.params_known x hx)
  case named =>
    intro b hb
    rcases Scope.mem_of_define hscope hb with rfl | hb
    · refine iff_of_false (fun hargs => ?_) fun hparam => hnew (h.params_known _ hparam)
      exact Nat.lt_irrefl _ (h.older _ hargs)
    · exact h.named b hb
  case older =>
    intro v hv
    rw [size_addInner]
    exact Nat.lt_of_lt_of_le (h.older v hv) (Nat.le_add_right _ _)
  case ranked => exact h.ranked
  case rank => rfl
  case opened =>
    exact ⟨_, _, op?_addInner_apply kind operands [ty] ho,
      (OpKind.body?_appendInner _ _).trans (congrArg (Option.map _) hbody)⟩
  case unreturned =>
    intro t' ht' unroll
    obtain rfl : t = t' := Option.some.inj (hlast.symm.trans ht')
    rw [hk]
    exact hkind unroll

/-- What it takes to add an operation that does not return, and what comes of it. -/
theorem of_addOp
    (h : s.Tracks apply args params rank known)
    (hop : op.isReturn = false)
    (hs : s.addOp apply args last op = .ok s') :
    (∀ name ∈ op.reads, name ∈ known) ∧ op.Fits params rank ∧
      s'.Tracks apply args params rank (known ++ op.results) := by
  cases op with
  | access result param offset =>
      rcases BodyState.addOp_access.1 hs with
        ⟨arg, rank', scope, harg, hargs, hrank', hscope, rfl⟩
      rw [access_eq] at hscope ⊢
      have hmem : arg ∈ args := List.contains_iff_mem.1 hargs
      obtain ⟨rfl, hsame⟩ := unifyRank_eq_ok.1 hrank'
      have hrank : rank = some offset.length := by
        cases hr : rank with
        | none =>
            rw [h.ranked hr] at hmem
            cases hmem
        | some r => rw [hsame r (h.rank.trans hr)]
      refine ⟨List.forall_mem_singleton.2 (h.scope.exists_get_iff.1 ⟨arg, harg⟩), ⟨?_, ?_⟩, ?_⟩
      · rintro _ ⟨⟩
        exact (h.named _ (Scope.mem_of_get harg)).1 hmem
      · rintro r hr _ ⟨⟩
        exact (hsame r (h.rank.trans hr)).symm
      · have hinner := h.addInner (.access offset) [arg]
          (.scalar (s.program.typeOf arg).element) (by rintro _ ⟨⟩) hscope
        rwa [hrank] at hinner ⊢
  | arith result operator lhs rhs =>
      rcases BodyState.addOp_arith.1 hs with ⟨l, r, scope, hl, hr, hscope, rfl⟩
      rw [arith_eq] at hscope ⊢
      refine ⟨?_, ⟨by rintro _ ⟨⟩, by rintro _ _ _ ⟨⟩⟩, ?_⟩
      · exact List.forall_mem_cons.2 ⟨h.scope.exists_get_iff.1 ⟨l, hl⟩,
          List.forall_mem_singleton.2 (h.scope.exists_get_iff.1 ⟨r, hr⟩)⟩
      · rw [h.rank]
        exact h.addInner (.arith operator) [l, r] (s.program.typeOf l) (by rintro _ ⟨⟩) hscope
  | ret operands unroll => cases hop

/-- An operation that reads known names, fits and defines a new name can be added. -/
theorem exists_addOp
    (h : s.Tracks apply args params rank known)
    (hop : op.isReturn = false)
    (hreads : ∀ name ∈ op.reads, name ∈ known)
    (hfits : op.Fits params rank)
    (hnew : (known ++ op.results).Nodup) :
    ∃ s', s.addOp apply args last op = .ok s' := by
  have hdefine : ∀ {result : String} (v : ValueId), op.results = [result] →
      ∃ scope, s.scope.define result v = .ok scope := fun v hresult => by
    refine h.scope.exists_define_iff.2 fun hmem => ?_
    exact (List.nodup_append'.1 hnew).2.2 hmem (by rw [hresult]; exact List.mem_cons_self)
  cases op with
  | access result param offset =>
      obtain ⟨arg, harg⟩ := h.scope.exists_get_iff.2 (hreads param List.mem_cons_self)
      obtain ⟨scope, hscope⟩ := hdefine (s.program.access apply arg offset).2 rfl
      have hargs : arg ∈ args := (h.named _ (Scope.mem_of_get harg)).2 (hfits.param param rfl)
      refine ⟨_, BodyState.addOp_access.2 ⟨arg, offset.length, scope, harg,
        List.contains_iff_mem.2 hargs, unifyRank_eq_ok.2 ⟨rfl, fun r hr => ?_⟩, hscope, rfl⟩⟩
      exact (hfits.point r (h.rank.symm.trans hr) offset rfl).symm
  | arith result operator lhs rhs =>
      obtain ⟨l, hl⟩ := h.scope.exists_get_iff.2 (hreads lhs List.mem_cons_self)
      obtain ⟨r, hr⟩ :=
        h.scope.exists_get_iff.2 (hreads rhs (List.mem_cons_of_mem _ List.mem_cons_self))
      obtain ⟨scope, hscope⟩ := hdefine (s.program.arith apply operator l r).2 rfl
      exact ⟨_, BodyState.addOp_arith.2 ⟨l, r, scope, hl, hr, hscope, rfl⟩⟩
  | ret operands unroll => cases hop

/-- A return can be added at the end of a body when it reads known names and fits. -/
theorem exists_ret_iff {operands : List String} {unroll : Option Point} {n : Nat}
    (h : s.Tracks apply args params rank known) :
    (∃ b q values, s.addOp apply args last (.ret operands unroll) = .ok b ∧
      b.program.closeApply apply = .ok (q, values) ∧ values.length = n) ↔
      last = true ∧ (∀ name ∈ operands, name ∈ known) ∧
        BodyOpDesc.Fits params rank (.ret operands unroll) ∧ Yields operands.length unroll n := by
  obtain ⟨o, body, ho, hbody⟩ := h.opened
  have hclose : ∀ values : List ValueId, (∃ q results,
      (s.program.ret apply values unroll).closeApply apply = .ok (q, results) ∧
        results.length = n) ↔ Yields values.length unroll n := fun values => by
    obtain ⟨t, hlast, hk, htys⟩ := lastIn_addInner (.ret unroll) values [] ho hbody
    have hlength : t.operandTypes.length = values.length := by rw [htys, List.length_map]
    rw [ret_eq, exists_closeApply_iff, hlast]
    constructor
    · rintro ⟨t', unroll', ht', hk', hyields⟩
      obtain rfl := Option.some.inj ht'
      rw [hk] at hk'
      cases hk'
      rwa [hlength] at hyields
    · exact fun hyields => ⟨t, unroll, rfl, hk, hlength.symm ▸ hyields⟩
  constructor
  · rintro ⟨b, q, results, hs, hb, hcount⟩
    rcases BodyState.addOp_ret.1 hs with ⟨hlast, values, rank', hvalues, hunroll, rfl⟩
    refine ⟨hlast, h.scope.exists_getAll_iff.1 ⟨values, hvalues⟩, ⟨by rintro _ ⟨⟩, ?_⟩, ?_⟩
    · rintro r hr u rfl
      rcases hunroll with ⟨r', hr', _⟩
      exact ((unifyRank_eq_ok.1 hr').2 r (h.rank.trans hr)).symm
    · rw [← Scope.length_of_getAll hvalues]
      exact (hclose values).1 ⟨q, results, hb, hcount⟩
  · rintro ⟨rfl, hreads, hfits, hyields⟩
    obtain ⟨values, hvalues⟩ := h.scope.exists_getAll_iff.2 hreads
    rw [← Scope.length_of_getAll hvalues] at hyields
    obtain ⟨q, results, hb, hcount⟩ := (hclose values).2 hyields
    have hret : ∃ rank', s.addOp apply args true (.ret operands unroll) =
        .ok { s with program := s.program.ret apply values unroll, rank := rank' } := by
      cases unroll with
      | none => exact ⟨_, BodyState.addOp_ret.2 ⟨rfl, values, _, hvalues, rfl, rfl⟩⟩
      | some u =>
          have hunify : unifyRank s.rank u.length (.unroll u) = .ok u.length := by
            refine unifyRank_eq_ok.2 ⟨rfl, fun r hr => ?_⟩
            exact (hfits.point r (h.rank.symm.trans hr) u rfl).symm
          exact ⟨_, BodyState.addOp_ret.2
            ⟨rfl, values, some u.length, hvalues, ⟨u.length, hunify, rfl⟩, rfl⟩⟩
    obtain ⟨rank', hret⟩ := hret
    exact ⟨_, q, results, hret, hb, hcount⟩

/-- The rest of a body is built and closed when it is well-formed. -/
theorem exists_close_iff {n : Nat} {ops : List BodyOpDesc} :
    ∀ {known : List String} {s : BodyState}, s.Tracks apply args params rank known →
      ((∃ b q values, s.addOps apply args ops = .ok b ∧
        b.program.closeApply apply = .ok (q, values) ∧ values.length = n) ↔
        BodyWellFormed params rank n known ops) := by
  induction ops with
  | nil =>
      intro known s h
      refine iff_of_false ?_ fun hbody => Returns.not_nil hbody.returns
      rintro ⟨b, q, values, hs, hclose⟩
      obtain rfl := BodyState.addOps_nil.1 hs
      obtain ⟨t, unroll, hlast, hk, _⟩ := exists_closeApply_iff.1 ⟨q, values, hclose⟩
      exact h.unreturned t hlast unroll hk
  | cons op ops ih =>
      intro known s h
      cases hop : op.isReturn with
      | false =>
          rw [BodyWellFormed.cons_iff hop]
          constructor
          · rintro ⟨b, q, values, hs, hclose⟩
            obtain ⟨t, ht, hs⟩ := BodyState.addOps_cons.1 hs
            obtain ⟨hreads, hfits, htracks⟩ := h.of_addOp hop ht
            exact ⟨hreads, hfits, (ih htracks).1 ⟨b, q, values, hs, hclose⟩⟩
          · rintro ⟨hreads, hfits, hbody⟩
            have hnew : (known ++ op.results).Nodup := hbody.inOrder.distinct.of_append_left
            obtain ⟨t, ht⟩ := h.exists_addOp hop hreads hfits hnew
            obtain ⟨b, q, values, hs, hclose⟩ := (ih (h.of_addOp hop ht).2.2).2 hbody
            exact ⟨b, q, values, BodyState.addOps_cons.2 ⟨t, ht, hs⟩, hclose⟩
      | true =>
          cases op with
          | ret operands unroll =>
              rw [BodyWellFormed.ret_iff h.scope.distinct]
              -- A return that is not the last operation is refused.
              cases ops with
              | nil =>
                  have hone : ∀ b, s.addOps apply args [.ret operands unroll] = .ok b ↔
                      s.addOp apply args true (.ret operands unroll) = .ok b := fun b => by
                    rw [BodyState.addOps_cons]
                    simp only [BodyState.addOps_nil, exists_eq_right', List.isEmpty_nil]
                  simp only [hone, h.exists_ret_iff, true_and]
              | cons op' ops =>
                  refine iff_of_false ?_ (by rintro ⟨⟨⟩, _⟩)
                  rintro ⟨b, q, values, hs, _⟩
                  obtain ⟨t, ht, _⟩ := BodyState.addOps_cons.1 hs
                  obtain ⟨hlast, _⟩ := BodyState.addOp_ret.1 ht
                  cases hlast
          | access result param offset => cases hop
          | arith result operator lhs rhs => cases hop

end BodyState.Tracks

/-- A rank that is known stays the same until the body is built. -/
theorem BodyState.rank_of_addOps {apply : OpId} {args : List ValueId} {r : Nat}
    {ops : List BodyOpDesc} :
    ∀ {s b : BodyState}, s.addOps apply args ops = .ok b → s.rank = some r → b.rank = some r := by
  induction ops with
  | nil =>
      intro s b hs hr
      rwa [BodyState.addOps_nil.1 hs]
  | cons op ops ih =>
      intro s b hs hr
      obtain ⟨t, ht, hs⟩ := BodyState.addOps_cons.1 hs
      refine ih hs ?_
      cases op with
      | access result param offset =>
          rcases BodyState.addOp_access.1 ht with ⟨_, _, _, _, _, hrank, _, rfl⟩
          obtain ⟨rfl, hsame⟩ := unifyRank_eq_ok.1 hrank
          rw [hsame r hr]
      | arith result operator lhs rhs =>
          rcases BodyState.addOp_arith.1 ht with ⟨_, _, _, _, _, _, rfl⟩
          exact hr
      | ret operands unroll =>
          rcases BodyState.addOp_ret.1 ht with ⟨_, _, _, _, hunroll, rfl⟩
          cases unroll with
          | none => exact hunroll.trans hr
          | some u =>
              obtain ⟨r', hrank, rfl⟩ := hunroll
              obtain ⟨rfl, hsame⟩ := unifyRank_eq_ok.1 hrank
              rw [hsame r hr]

end StencilShapes
