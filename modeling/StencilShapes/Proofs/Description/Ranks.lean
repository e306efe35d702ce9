import StencilShapes.Proofs.Compilation.Pipeline
import StencilShapes.Proofs.Domain.Chain
import StencilShapes.Proofs.Domain.Rejection
import StencilShapes.Proofs.Extent.Exact

/-!
# Rank errors are unreachable

Elaboration checks ranks piece by piece: among the parts of a store, among the operands
of an apply, and of each offset and unroll against what is known so far.  Together the
pieces give every value that flows between operations one rank on which all of them
agree.  For this nothing may be known of a value too late, so whatever defines a value
has to read one.

Ranks that agree are all that extent analysis and inference ask for when they combine
points.  What is left to go wrong is arithmetic, a missing use or an empty dimension.

**Results.**
* `Description.sourced_of_elaborate`: whatever defines a value reads one.
* `Program.ranksAgree`: the ranks on which all operations agree.
* `Program.overflow_of_applyExtents`: where ranks agree, extents fail for the range only.
* `Description.rank_errors_unreachable`: no run on an elaborated program reports ranks.
-/

namespace StencilShapes

open Program

namespace Program

/-- Whatever defines a value reads one. -/
structure Sourced (p : Program) : Prop where
  operands : ∀ {u o}, p.op? u = some o → o.results ≠ [] → o.operands ≠ []

namespace Sourced

variable {p q : Program}

theorem empty : ({} : Program).Sourced where
  operands ho := by cases ho

theorem of_op?_eq (h : p.Sourced) (hop : ∀ u, q.op? u = p.op? u) : q.Sourced where
  operands ho := h.operands (hop _ ▸ ho)

/-- A new operation defines nothing yet. -/
theorem extend {o : Operation}
    (h : p.Sourced)
    (hop : ∀ u, q.op? u = if u.index = p.ops.size then some o else p.op? u)
    (hresults : o.results = []) :
    q.Sourced := by
  constructor
  intro u o' ho' hne
  rw [hop] at ho'
  split at ho'
  · cases ho'
    exact absurd hresults hne
  · exact h.operands ho' hne

/-- An operation that reads something may get results. -/
theorem newResults {u : OpId} {o : Operation} (tys : List Ty)
    (h : p.Sourced)
    (ho : p.op? u = some o)
    (hsource : tys ≠ [] → o.operands ≠ []) :
    (p.newResults u tys).1.Sourced := by
  cases tys with
  | nil => exact h
  | cons ty tys =>
      refine ⟨fun {x ox} hox hne => ?_⟩
      by_cases hx : x = u
      · subst hx
        obtain ⟨results, hnew⟩ := exists_op?_newResults (ty :: tys) ho
        obtain rfl := Option.some.inj (hnew.symm.trans hox)
        exact hsource (List.cons_ne_nil _ _)
      · rw [op?_newResults_of_ne (ty :: tys) hx] at hox
        exact h.operands hox hne

theorem appendToBody (h : p.Sourced) (a x : OpId) : (p.appendToBody a x).Sourced := by
  constructor
  intro u o ho hne
  rcases op?_appendToBody_cases ho with ⟨o', ho', rfl | ⟨_, rfl⟩⟩
  · exact h.operands ho' hne
  · exact h.operands (o := o') ho' hne

theorem addInner {a : OpId} (kind : OpKind) (operands : List ValueId) (tys : List Ty)
    (h : p.Sourced)
    (hsource : tys ≠ [] → operands ≠ []) :
    (p.addInner a kind operands tys).1.Sourced := by
  have hnew : (p.newOp kind operands (some a)).1.Sourced :=
    h.extend (p.op?_newOp kind operands (some a)) rfl
  exact (hnew.newResults tys (p.op?_newOp_self kind operands (some a)) hsource).appendToBody a _

end Sourced
end Program

/-- What computes a value in a body reads one. -/
theorem BodyState.sourced_of_addOp {apply : OpId} {args : List ValueId} {last : Bool}
    {s s' : BodyState} {op : BodyOpDesc}
    (h : s.program.Sourced)
    (hs : s.addOp apply args last op = .ok s') :
    s'.program.Sourced := by
  cases op with
  | access result param offset =>
      rcases BodyState.addOp_access.1 hs with ⟨arg, rank, scope, _, _, _, _, rfl⟩
      rw [access_eq]
      exact h.addInner (.access offset) [arg] [.scalar (s.program.typeOf arg).element]
        fun _ => List.cons_ne_nil _ _
  | arith result operator lhs rhs =>
      rcases BodyState.addOp_arith.1 hs with ⟨l, r, scope, _, _, _, rfl⟩
      rw [arith_eq]
      exact h.addInner (.arith operator) [l, r] [s.program.typeOf l]
        fun _ => List.cons_ne_nil _ _
  | ret operands unroll =>
      rcases BodyState.addOp_ret.1 hs with ⟨_, values, rank, _, _, rfl⟩
      rw [ret_eq]
      exact h.addInner (.ret unroll) values [] fun hne => absurd rfl hne

theorem BodyState.sourced_of_addOps {apply : OpId} {args : List ValueId}
    {ops : List BodyOpDesc} :
    ∀ {s s' : BodyState}, s.program.Sourced → s.addOps apply args ops = .ok s' →
      s'.program.Sourced := by
  induction ops with
  | nil =>
      intro s s' h hs
      rwa [BodyState.addOps_nil.1 hs]
  | cons op ops ih =>
      intro s s' h hs
      rcases BodyState.addOps_cons.1 hs with ⟨t, ht, hs⟩
      exact ih (BodyState.sourced_of_addOp h ht) hs

namespace FunctionState.Sound

variable {s s' : FunctionState}

/-- An apply that returns something reads something, since its body knows nothing else. -/
theorem sourced_of_addApply {results operands params : List String} {body : List BodyOpDesc}
    (h : s.Sound)
    (hsource : s.program.Sourced)
    (hs : s.addApply results operands params body = .ok s') :
    s'.program.Sourced := by
  rcases FunctionState.addApply_eq_ok.1 hs with
    ⟨_, ns, rank, hns, hrank, scope, b, p, values, scope', hscope, hb, hclose, _, _, rfl⟩
  have hbody := h.body_of_addOps hns hrank hscope hb
  have hopen : (s.program.openApply (ns.map Named.value)).1.Sourced :=
    hsource.extend (s.program.op?_openApply (ns.map Named.value)) rfl
  have hdone : b.program.Sourced := BodyState.sourced_of_addOps hopen hb
  rcases closeApply_eq_ok.1 hclose with ⟨o, t, unroll, ho, hterm, _, _, _, rfl, _⟩
  refine (hdone.newResults _ ho fun hne => ?_).of_op?_eq fun _ => rfl
  obtain ⟨ty, hty⟩ := List.exists_mem_of_ne_nil _ hne
  obtain ⟨v, vs, _, hoperands, _⟩ := head_of_terminator hbody ho hterm (mem_groupTypes hty).1
  rw [hoperands]
  exact List.cons_ne_nil _ _

theorem sourced_of_addOp {op : OpDesc}
    (h : s.Sound)
    (hsource : s.program.Sourced)
    (hs : s.addOp op = .ok s') :
    s'.program.Sourced := by
  cases op with
  | load result field =>
      rcases FunctionState.addLoad_eq_ok.1 hs with ⟨n, scope, _, _, rfl⟩
      have hnew : (s.program.newOp (.load none) [n.value] none).1.Sourced :=
        hsource.extend (s.program.op?_newOp (.load none) [n.value] none) rfl
      rw [load_eq]
      exact (hnew.newResults [.temp (s.program.typeOf n.value).element none]
        (s.program.op?_newOp_self (.load none) [n.value] none) fun _ =>
          List.cons_ne_nil _ _).of_op?_eq fun _ => rfl
  | apply results operands params body => exact h.sourced_of_addApply hsource hs
  | store value field lower upper =>
      rcases FunctionState.addStore_eq_ok.1 hs with ⟨_, v, w, _, _, _, _, _, _, rfl⟩
      exact hsource.extend (s.program.op?_newOp (.store { lower, upper }) [v.value, w.value] none)
        rfl

theorem sourced_of_addOps {ops : List OpDesc} :
    ∀ {s s' : FunctionState}, s.Sound → s.program.Sourced → s.addOps ops = .ok s' →
      s'.program.Sourced := by
  induction ops with
  | nil =>
      intro s s' _ hsource hs
      rwa [FunctionState.addOps_nil.1 hs]
  | cons op ops ih =>
      intro s s' h hsource hs
      rcases FunctionState.addOps_cons.1 hs with ⟨t, ht, hs⟩
      exact ih (h.addOp ht) (h.sourced_of_addOp hsource ht) hs

end FunctionState.Sound

theorem sourced_of_elaborateFunctions {fs : List FunctionDesc} :
    ∀ {p q : Program}, p.Coherent → p.Scoped → p.Sourced → elaborateFunctions p fs = (q, []) →
      q.Sourced := by
  induction fs with
  | nil =>
      intro p q _ _ h hq
      rwa [elaborateFunctions_eq_nil.1 hq]
  | cons f fs ih =>
      intro p q hc hp h hq
      rcases elaborateFunctions_eq_nil.1 hq with ⟨p', hf, hq⟩
      obtain ⟨hc', hp'⟩ := FunctionDesc.sound_of_elaborate hc hp hf
      refine ih hc' hp' ?_ hq
      rcases FunctionDesc.elaborate_eq_ok.1 hf with ⟨scope, s, hscope, hs, rfl⟩
      refine (FunctionState.Sound.beginFunction hc hp hscope).sourced_of_addOps ?_ hs
      exact h.of_op?_eq fun u => op?_newArgs none f.argTypes u p 0

/-- In an elaborated program, whatever defines a value reads one. -/
theorem Description.sourced_of_elaborate {d : Description} {p : Program}
    (h : d.elaborate = .ok p) :
    p.Sourced :=
  sourced_of_elaborateFunctions Coherent.empty Scoped.empty Sourced.empty (elaborate_eq_ok.1 h)

namespace Program

/-- All parts of an outer operation have one rank. -/
structure PartsRanked (p : Program) (rank : ValueId → Nat) (o : Operation) (r : Nat) : Prop where
  operands : ∀ v ∈ o.operands, rank v = r
  results : ∀ v ∈ o.results, rank v = r
  /-- Both ends of the bounds have the rank. -/
  bounds : ∀ b, o.kind.bounds? = some b → b.lower.length = r ∧ b.upper.length = r
  /-- Offsets and unroll in the body have the rank. -/
  points : ∀ body, o.kind.body? = some body → ∀ x ∈ body.ops,
    ∃ ox, p.op? x = some ox ∧ ∀ pt, ox.kind.point? = some pt → pt.length = r

/-- One rank for each value, on which all loads, applies and stores agree. -/
structure RanksAgree (p : Program) (rank : ValueId → Nat) : Prop where
  /-- An argument of a function has the rank of its field. -/
  declared : ∀ {v j element r}, p.originOf v = some (.arg none j) →
    p.typeOf v = .field element r → rank v = r
  parts : ∀ {u o}, p.op? u = some o → o.kind.isShaped = true → ∃ r, p.PartsRanked rank o r

variable {p : Program} {u : OpId} {o : Operation} {r : Nat}

/-- A result has the rank of its operation. -/
theorem Sourced.hasRank_result {v : ValueId}
    (h : p.Sourced)
    (hc : p.Coherent)
    (hs : p.Scoped)
    (ho : p.op? u = some o)
    (hshaped : o.kind.isShaped = true)
    (hr : p.OpRank o r)
    (hv : v ∈ o.results) :
    p.HasRank v r := by
  obtain ⟨x, xs, hx⟩ := List.ne_nil_iff_exists_cons.1 (h.operands ho (List.ne_nil_of_mem hv))
  obtain ⟨j, hj⟩ := hc.mem_results ho hv
  exact .result hj ho (hs.isInferable_of_mem_results ho hshaped hv) (by rw [hx]; rfl)
    (hr.operands x (by rw [hx]; exact List.mem_cons_self))

/-- The ranks of values, where each has one at most. -/
theorem ranksAgree (hc : p.Coherent) (hs : p.Scoped) (h : p.Sourced) :
    ∃ rank, p.RanksAgree rank := by
  have hchoice : ∀ v, ∃ n, ∀ r, p.HasRank v r → n = r := fun v => by
    by_cases hv : ∃ r, p.HasRank v r
    · obtain ⟨n, hn⟩ := hv
      exact ⟨n, fun r hr => hn.unique hr⟩
    · exact ⟨0, fun r hr => absurd ⟨r, hr⟩ hv⟩
  choose rank hrank using hchoice
  refine ⟨rank, fun horigin hty => hrank _ _ (.arg horigin hty), fun ho hshaped => ?_⟩
  obtain ⟨r, hr⟩ := hs.ranked ho hshaped
  exact ⟨r, fun v hv => hrank v r (hr.operands v hv),
    fun v hv => hrank v r (h.hasRank_result hc hs ho hshaped hr hv), hr.bounds, hr.points⟩

namespace OpRank

/-- Offsets at which the body reads have the rank of the apply. -/
theorem length_of_offsetsAt {v : ValueId} {offset : Point}
    (h : p.OpRank o r)
    (hoffset : offset ∈ p.offsetsAt o v) :
    offset.length = r := by
  obtain ⟨body, x, ox, _, _, hbody, hx, hox, hk, _⟩ := hoffset
  obtain ⟨ox', hox', hpoint⟩ := h.points body hbody x hx
  obtain rfl : ox = ox' := Option.some.inj (hox.symm.trans hox')
  exact hpoint offset (by rw [hk]; rfl)

/-- The unroll has the rank of the apply. -/
theorem length_of_unroll {ret : OpId} {block : Point}
    (h : p.OpRank o r)
    (hunroll : p.unroll? o = some (ret, block)) :
    block.length = r := by
  obtain ⟨z, hz, _, hk⟩ := unroll?_eq_some.1 hunroll
  obtain ⟨x, hx, hxz⟩ := Option.bind_eq_some_iff.1 hz
  obtain ⟨body, hbody, hlast⟩ := Option.bind_eq_some_iff.1 hx
  obtain ⟨z', hz', hpoint⟩ := h.points body hbody x (List.mem_of_getLast? hlast)
  obtain rfl : z = z' := Option.some.inj (hxz.symm.trans hz')
  exact hpoint block (by rw [hk]; rfl)

theorem not_mixedRank (h : p.OpRank o r) : ¬ p.MixedRank o := by
  rintro ⟨v, a, ha, b, hb, hne⟩
  exact hne ((h.length_of_offsetsAt ha).trans (h.length_of_offsetsAt hb).symm)

theorem not_unrollRank (h : p.OpRank o r) : ¬ p.UnrollRank o := by
  rintro ⟨v, ret, block, hunroll, offset, hoffset, hne⟩
  exact hne ((h.length_of_offsetsAt hoffset).trans (h.length_of_unroll hunroll).symm)

end OpRank

/-- Where ranks agree, the extents of an apply can only leave the range. -/
theorem overflow_of_applyExtents {fault : ExtentFault}
    (hc : p.Coherent)
    (ho : p.op? u = some o)
    (hr : p.OpRank o r)
    (h : p.applyExtents o = .error fault)
    (function : String) :
    (fault.diagnostic function).code = some .overflow := by
  obtain ⟨_, hblames⟩ := blames_of_applyExtents hc ho h
  cases hblames function with
  | access hclash => exact absurd hclash (not_firstClash hr.not_mixedRank)
  | unrollRank _ hrank => exact absurd hrank hr.not_unrollRank
  | unrollOverflows _ _ _ hcode => exact hcode

theorem overflow_of_extents {d : Diagnostic}
    (hc : p.Coherent)
    (hs : p.Scoped)
    (h : p.extents = .error d) :
    d.code = some .overflow := by
  obtain ⟨f, _, o, ho, hbody, fault, herror, rfl⟩ := foldFunctions_eq_error h
  have hop := op?_id_of_mem_walk hc ho
  obtain ⟨body, hbody⟩ := Option.isSome_iff_exists.1 hbody
  obtain ⟨r, hr⟩ := hs.ranked hop (OpKind.isShaped_of_body? hbody)
  exact overflow_of_applyExtents hc hop hr herror f.name

/-- An operation without a domain is never rejected for a rank or for a second commit. -/
theorem Verdict.code_ne {t : ExtentTable} {bounds : OpId → Option Bounds} {function : String}
    {d : Diagnostic}
    (h : p.Verdict t bounds function u o d) :
    d.code ≠ some .rankMismatch ∧ d.code ≠ some .alreadyFinal := by
  cases h with
  | overflow _ _ _ _ hcode => rw [hcode]; decide
  | oversized _ _ hcode => rw [hcode]; decide
  | unused _ _ _ hcode => rw [hcode]; decide
  | vacant _ _ _ _ hcode => rw [hcode]; decide

end Program

/-- In an elaborated program all parts of operations agree on the ranks of values, so that
no run reports a rank or a second commit, and extents fail for the range only. -/
theorem Description.rank_errors_unreachable {d : Description} {p : Program}
    (hload : d.elaborate = .ok p) :
    (∃ rank, p.RanksAgree rank) ∧
      (∀ (terminal : Pass) (diagnostic : Diagnostic),
        diagnostic ∈ (Compilation.run { program := p } terminal).compilation.diagnostics →
          diagnostic.code ≠ some .rankMismatch ∧ diagnostic.code ≠ some .alreadyFinal) ∧
      ∀ diagnostic, p.extents = .error diagnostic → diagnostic.code = some .overflow := by
  have hc := Description.coherent_of_elaborate hload
  have hs := Description.scoped_of_elaborate hload
  refine ⟨ranksAgree hc hs (Description.sourced_of_elaborate hload), ?_,
    fun diagnostic => overflow_of_extents hc hs⟩
  intro terminal diagnostic hmem
  cases Compilation.reports_of_run hmem with
  | extents hextents =>
      rw [overflow_of_extents hc hs hextents]
      decide
  | domain hextents hinfer hd =>
      obtain ⟨f, x, o, _, hverdict⟩ :=
        firstViolation_of_fault hc hs (measured_of_extents hc hextents) hinfer
      rw [hd]
      exact hverdict.code_ne
  | certificate _ _ hcertificate =>
      rw [certificateDiagnostics] at hcertificate
      split at hcertificate
      · cases hcertificate
      · rw [List.mem_singleton.1 hcertificate]
        exact ⟨by rintro ⟨⟩, by rintro ⟨⟩⟩

theorem Description.rank_errors_unreachable_smoothing :
    Description.smoothing.elaborate = .ok Program.smoothing ∧
      ∃ rank, Program.smoothing.RanksAgree rank :=
  ⟨Program.elaborate_smoothing,
    (Description.rank_errors_unreachable Program.elaborate_smoothing).1⟩

end StencilShapes
