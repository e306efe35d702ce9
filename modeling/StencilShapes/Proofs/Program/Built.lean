import StencilShapes.Proofs.Program.Scope

/-!
# Programs that calls have built

A program is built by calls that begin a function, add an operation to the function
begun last, and open, fill and close an apply.  The values that a call is given need
only exist: they may belong to another function, and a body may read what is none of
its arguments.  An apply that cannot be closed, or is left open, joins no function.

**Results.**
* `Program.Built.coherent`: the accounts of a built program agree.
* `Program.Built.fresh`: its functions consist of outer operations in the order in
  which they were made, bodies of inner ones, and nothing is inferred yet.
-/

namespace StencilShapes
namespace Program

/-- The programs that calls can build, with the apply that is open at the time. -/
inductive Building : Program → Option OpId → Prop
  | empty :
      Building {} none
  | beginFunction {p : Program} (name : String) (stencil : Bool) (tys : List Ty) :
      Building p none →
      Building (p.beginFunction name stencil tys).1 none
  | setStencil {p : Program} (stencil : Bool) :
      Building p none →
      p.functions ≠ #[] →
      Building (p.setStencil (p.functions.size - 1) stencil) none
  | load {p : Program} {field : ValueId} :
      Building p none →
      p.functions ≠ #[] →
      (p.originOf field).isSome →
      Building (p.load field).1 none
  | store {p : Program} {value field : ValueId} (bounds : Bounds) :
      Building p none →
      p.functions ≠ #[] →
      (p.originOf value).isSome →
      (p.originOf field).isSome →
      Building (p.store value field bounds).1 none
  | openApply {p : Program} {operands : List ValueId} :
      Building p none →
      p.functions ≠ #[] →
      (∀ v ∈ operands, (p.originOf v).isSome) →
      Building (p.openApply operands).1 (some (p.openApply operands).2.1)
  | access {p : Program} {a : OpId} {arg : ValueId} (offset : Point) :
      Building p (some a) →
      (p.originOf arg).isSome →
      Building (p.access a arg offset).1 (some a)
  | arith {p : Program} {a : OpId} (operator : Operator) {lhs rhs : ValueId} :
      Building p (some a) →
      (p.originOf lhs).isSome →
      (p.originOf rhs).isSome →
      Building (p.arith a operator lhs rhs).1 (some a)
  | ret {p : Program} {a : OpId} {values : List ValueId} (unroll : Option Point) :
      Building p (some a) →
      (∀ v ∈ values, (p.originOf v).isSome) →
      Building (p.ret a values unroll) (some a)
  | closeApply {p q : Program} {a : OpId} {values : List ValueId} :
      Building p (some a) →
      p.closeApply a = .ok (q, values) →
      Building q none
  /-- An apply that is not closed stays outside its function. -/
  | abandon {p : Program} {a : OpId} :
      Building p (some a) →
      Building p none

/-- The programs that calls can build. -/
def Built (p : Program) : Prop :=
  Building p none

/-- The operations of all functions, in order. -/
def entries (p : Program) : List OpId :=
  p.functions.toList.flatMap Function.body

theorem entries_append (p : Program) (op : OpId) :
    (p.append op).entries = p.entries ∨ (p.append op).entries = p.entries ++ [op] := by
  rcases List.eq_nil_or_concat p.functions.toList with hnil | ⟨fs, f, hfs⟩
  · obtain hempty : p.functions = #[] := Array.toList_eq_nil_iff.1 hnil
    exact Or.inl (by simp [entries, append, hempty])
  · rw [List.concat_eq_append] at hfs
    exact Or.inr (by simp [entries, toList_functions_append op hfs, hfs])

theorem entries_beginFunction (p : Program) (name : String) (stencil : Bool) (tys : List Ty) :
    (p.beginFunction name stencil tys).1.entries = p.entries := by
  simp [entries, beginFunction, functions_newArgs]

theorem entries_setStencil (p : Program) (function : Nat) (stencil : Bool) :
    (p.setStencil function stencil).entries = p.entries := by
  rw [entries, entries, setStencil, Array.toList_modify, List.flatMap_def, List.flatMap_def]
  exact congrArg List.flatten (map_modify_eq _ _ fun _ => rfl)

/-- Outer operations stand in functions and inner ones in bodies, each behind all that
were made before it, and nothing is inferred yet. -/
structure Fresh (p : Program) : Prop where
  ordered : p.entries.Pairwise (·.index < ·.index)
  entry : ∀ u ∈ p.entries, ∃ o, p.op? u = some o ∧ o.kind.isShaped = true
  inner : ∀ {u o body}, p.op? u = some o → o.kind.body? = some body →
    ∀ x ∈ body.ops, ∃ ox, p.op? x = some ox ∧ ox.kind.isShaped = false
  unbounded : ∀ {u o}, p.op? u = some o → o.kind.isInferable = true → o.kind.bounds? = none
  /-- The results of loads and applies are temps without a shape. -/
  untyped : ∀ {u o}, p.op? u = some o → o.kind.isInferable = true →
    ∀ v ∈ o.results, ∃ e, p.typeOf v = .temp e none

/-- An open apply: it was made after all operations that have joined a function. -/
structure OpenAt (p : Program) (a : OpId) : Prop where
  op : ∃ o, p.op? a = some o ∧ o.kind.body?.isSome
  last : ∀ u ∈ p.entries, u.index < a.index

namespace Fresh

variable {p q : Program}

theorem empty : ({} : Program).Fresh := by
  constructor <;> simp [op?, entries]

/-- A change that does not touch operations keeps a program fresh. -/
theorem of_grows
    (h : p.Fresh)
    (hc : p.Coherent)
    (hg : p.Grows q)
    (hentries : q.entries = p.entries)
    (hop : ∀ u, q.op? u = p.op? u) :
    q.Fresh where
  ordered := hentries ▸ h.ordered
  entry u hu := hop u ▸ h.entry u (hentries ▸ hu)
  inner ho hbody x hx := hop x ▸ h.inner (hop _ ▸ ho) hbody x hx
  unbounded ho hk := h.unbounded (hop _ ▸ ho) hk
  untyped {u o} ho hk v hv := by
    rw [hop] at ho
    obtain ⟨j, hj⟩ := hc.mem_results ho hv
    rw [hg.ty (by rw [hj]; rfl)]
    exact h.untyped ho hk v hv

/-- A new operation, which defines nothing and has an empty body, if it has one. -/
theorem extend {o : Operation}
    (h : p.Fresh)
    (hc : p.Coherent)
    (hg : p.Grows q)
    (hentries : q.entries = p.entries)
    (hop : ∀ u, q.op? u = if u.index = p.ops.size then some o else p.op? u)
    (hfree : o.kind.isInferable = true → o.kind.bounds? = none)
    (hbody : ∀ body, o.kind.body? = some body → body.ops = [])
    (hresults : o.results = []) :
    q.Fresh := by
  have hcases : ∀ {u o'}, q.op? u = some o' → o' = o ∨ p.op? u = some o' := by
    intro u o' ho'
    rw [hop] at ho'
    split at ho'
    · exact Or.inl (Option.some.inj ho').symm
    · exact Or.inr ho'
  constructor
  case ordered => exact hentries ▸ h.ordered
  case entry => exact fun u hu => hg.isShaped (h.entry u (hentries ▸ hu))
  case inner =>
    intro u o' body ho' hbody' x hx
    rcases hcases ho' with rfl | ho'
    · rw [hbody body hbody'] at hx
      cases hx
    · exact hg.isShaped (h.inner ho' hbody' x hx)
  case unbounded =>
    intro u o' ho' hk
    rcases hcases ho' with rfl | ho'
    · exact hfree hk
    · exact h.unbounded ho' hk
  case untyped =>
    intro u o' ho' hk v hv
    rcases hcases ho' with rfl | ho'
    · rw [hresults] at hv
      cases hv
    · obtain ⟨j, hj⟩ := hc.mem_results ho' hv
      rw [hg.ty (by rw [hj]; rfl)]
      exact h.untyped ho' hk v hv

theorem newOp {kind : OpKind} {operands : List ValueId}
    (h : p.Fresh)
    (hc : p.Coherent)
    (parent : Option OpId)
    (hfree : kind.isInferable = true → kind.bounds? = none)
    (hbody : kind.body? = none) :
    (p.newOp kind operands parent).1.Fresh :=
  h.extend hc (Grows.newOp p kind operands parent) rfl (p.op?_newOp kind operands parent) hfree
    (fun body hb => by rw [hbody] at hb; cases hb) rfl

theorem openApply {operands : List ValueId} (h : p.Fresh) (hc : p.Coherent) :
    (p.openApply operands).1.Fresh := by
  refine h.extend hc (Grows.openApply p operands) ?_ (p.op?_openApply operands) (fun _ => rfl) ?_
    rfl
  · rw [entries, functions_openApply]
    rfl
  · rintro body ⟨⟩
    rfl

/-- A load or an apply gets temps as results. -/
theorem newResult {u : OpId} {o : Operation} {ty : Ty}
    (h : p.Fresh)
    (hc : p.Coherent)
    (ho : p.op? u = some o)
    (hty : o.kind.isInferable = true → ∃ e, ty = .temp e none) :
    (p.newResult u ty).1.Fresh := by
  have hg : p.Grows (p.newResult u ty).1 := Grows.newResult p u ty
  constructor
  case ordered => exact h.ordered
  case entry => exact fun x hx => hg.isShaped (h.entry x hx)
  case inner =>
    intro x ox body hox hbody y hy
    rcases op?_newResult_cases hox with ⟨ox', hox', rfl | ⟨_, rfl⟩⟩
    · exact hg.isShaped (h.inner hox' hbody y hy)
    · exact hg.isShaped (h.inner hox' hbody y hy)
  case unbounded =>
    intro x ox hox hk
    rcases op?_newResult_cases hox with ⟨ox', hox', rfl | ⟨_, rfl⟩⟩
    · exact h.unbounded hox' hk
    · exact h.unbounded (o := ox') hox' hk
  case untyped =>
    intro x ox hox hk v hv
    have hold : ∀ {ox'}, p.op? x = some ox' → ox'.kind.isInferable = true → v ∈ ox'.results →
        ∃ e, (p.newResult u ty).1.typeOf v = .temp e none := by
      intro ox' hox' hk hv
      obtain ⟨j, hj⟩ := hc.mem_results hox' hv
      rw [hg.ty (by rw [hj]; rfl)]
      exact h.untyped hox' hk v hv
    rcases op?_newResult_cases hox with ⟨ox', hox', rfl | ⟨rfl, rfl⟩⟩
    · exact hold hox' hk hv
    · rcases List.mem_append.1 hv with hv | hv
      · exact hold hox' hk hv
      · obtain rfl := List.mem_singleton.1 hv
        obtain rfl : o = ox' := Option.some.inj (ho.symm.trans hox')
        obtain ⟨e, rfl⟩ := hty hk
        exact ⟨e, by rw [typeOf_newResult, if_pos rfl]⟩

theorem newResults {u : OpId} (tys : List Ty) :
    ∀ {p : Program} {o : Operation}, p.Fresh → p.Coherent → p.op? u = some o →
      (o.kind.isInferable = true → ∀ ty ∈ tys, ∃ e, ty = .temp e none) →
      (p.newResults u tys).1.Fresh := by
  induction tys with
  | nil => exact fun h _ _ _ => h
  | cons ty tys ih =>
      intro p o h hc ho htys
      exact ih (h.newResult hc ho fun hk => htys hk ty List.mem_cons_self) (hc.newResult ty ho)
        (op?_newResult_self ty ho) fun hk t ht => htys hk t (List.mem_cons_of_mem _ ht)

/-- An inner operation joins a body. -/
theorem appendToBody {a x : OpId}
    (h : p.Fresh)
    (hx : ∃ ox, p.op? x = some ox ∧ ox.kind.isShaped = false) :
    (p.appendToBody a x).Fresh := by
  have hg : p.Grows (p.appendToBody a x) := Grows.appendToBody p a x
  constructor
  case ordered => exact h.ordered
  case entry => exact fun u hu => hg.isShaped (h.entry u hu)
  case inner =>
    intro u o body ho hbody y hy
    rcases op?_appendToBody_cases ho with ⟨o', ho', rfl | ⟨_, rfl⟩⟩
    · exact hg.isShaped (h.inner ho' hbody y hy)
    · rw [OpKind.body?_appendInner] at hbody
      rcases Option.map_eq_some_iff.1 hbody with ⟨body', hbody', rfl⟩
      rcases List.mem_append.1 hy with hy | hy
      · exact hg.isShaped (h.inner ho' hbody' y hy)
      · obtain rfl := List.mem_singleton.1 hy
        exact hg.isShaped hx
  case unbounded =>
    intro u o ho hk
    rcases op?_appendToBody_cases ho with ⟨o', ho', rfl | ⟨_, rfl⟩⟩
    · exact h.unbounded ho' hk
    · rw [OpKind.bounds?_appendInner]
      rw [OpKind.isInferable_appendInner] at hk
      exact h.unbounded ho' hk
  case untyped =>
    intro u o ho hk v hv
    rcases op?_appendToBody_cases ho with ⟨o', ho', rfl | ⟨_, rfl⟩⟩
    · exact h.untyped ho' hk v hv
    · rw [OpKind.isInferable_appendInner] at hk
      exact h.untyped ho' hk v hv

/-- The operation made last joins the function begun last. -/
theorem append {a : OpId}
    (h : p.Fresh)
    (ha : ∃ o, p.op? a = some o ∧ o.kind.isShaped = true)
    (hlast : ∀ u ∈ p.entries, u.index < a.index) :
    (p.append a).Fresh := by
  refine ⟨?_, ?_, h.inner, h.unbounded, h.untyped⟩
  · rcases p.entries_append a with hentries | hentries
    · rw [hentries]
      exact h.ordered
    · rw [hentries, List.pairwise_append]
      refine ⟨h.ordered, List.pairwise_singleton _ _, fun u hu w hw => ?_⟩
      obtain rfl := List.mem_singleton.1 hw
      exact hlast u hu
  · intro u hu
    rcases p.entries_append a with hentries | hentries
    · exact h.entry u (hentries ▸ hu)
    · rw [hentries] at hu
      rcases List.mem_append.1 hu with hu | hu
      · exact h.entry u hu
      · obtain rfl := List.mem_singleton.1 hu
        exact ha

theorem lt_size (h : p.Fresh) {u : OpId} (hu : u ∈ p.entries) : u.index < p.ops.size := by
  obtain ⟨o, ho, _⟩ := h.entry u hu
  exact op?_lt ho

end Fresh

/-- What holds of a program while it is built. -/
structure UnderConstruction (p : Program) (a? : Option OpId) : Prop where
  coherent : p.Coherent
  fresh : p.Fresh
  opened : ∀ a, a? = some a → p.OpenAt a

namespace UnderConstruction

variable {p q : Program}

/-- A load or a store joins its function at once. -/
theorem newOp_append {kind : OpKind} {operands : List ValueId} (tys : List Ty)
    (h : p.UnderConstruction none)
    (hshaped : kind.isShaped = true)
    (hfree : kind.isInferable = true → kind.bounds? = none)
    (hbody : kind.body? = none)
    (hoperands : ∀ v ∈ operands, (p.originOf v).isSome)
    (htys : kind.isInferable = true → ∀ ty ∈ tys, ∃ e, ty = .temp e none) :
    UnderConstruction
      (((p.newOp kind operands none).1.newResults ⟨p.ops.size⟩ tys).1.append ⟨p.ops.size⟩) none := by
  have ho := p.op?_newOp_self kind operands none
  have hc := h.coherent.newOp none hbody hoperands
  have hnew : (p.newOp kind operands none).1.Fresh := h.fresh.newOp h.coherent none hfree hbody
  have hf := hnew.newResults tys hc ho htys
  obtain ⟨results, ho'⟩ := exists_op?_newResults tys ho
  refine ⟨(hc.newResults tys ho).append _, hf.append ⟨_, ho', hshaped⟩ fun u hu => ?_, ?_⟩
  · rw [entries, functions_newResults] at hu
    exact h.fresh.lt_size hu
  · rintro a ⟨⟩

theorem openApply {operands : List ValueId}
    (h : p.UnderConstruction none)
    (hoperands : ∀ v ∈ operands, (p.originOf v).isSome) :
    UnderConstruction (p.openApply operands).1 (some (p.openApply operands).2.1) := by
  refine ⟨h.coherent.openApply hoperands, h.fresh.openApply h.coherent, ?_⟩
  rw [openApply_op]
  rintro a ⟨⟩
  refine ⟨⟨_, (p.op?_openApply operands _).trans (if_pos rfl), rfl⟩, fun u hu => ?_⟩
  rw [entries, functions_openApply] at hu
  exact h.fresh.lt_size hu

/-- An inner operation joins the body of the open apply. -/
theorem addInner {a : OpId} {kind : OpKind} {operands : List ValueId} (tys : List Ty)
    (h : p.UnderConstruction (some a))
    (hkind : kind.isShaped = false)
    (hoperands : ∀ v ∈ operands, (p.originOf v).isSome) :
    UnderConstruction (p.addInner a kind operands tys).1 (some a) := by
  have hbody : kind.body? = none := OpKind.body?_eq_none hkind
  have hinf : kind.isInferable ≠ true := fun hk => by
    rw [OpKind.isShaped_of_isInferable hk] at hkind
    cases hkind
  have hnew := p.op?_newOp_self kind operands (some a)
  have hc : (p.newOp kind operands (some a)).1.Coherent :=
    h.coherent.newOp (some a) hbody hoperands
  have hf := (h.fresh.newOp h.coherent (some a) (fun hk => absurd hk hinf) hbody).newResults
    tys hc hnew fun hk => absurd hk hinf
  obtain ⟨results, hx⟩ := exists_op?_newResults tys hnew
  refine ⟨h.coherent.addInner tys hbody hoperands, hf.appendToBody ⟨_, hx, hkind⟩, ?_⟩
  rintro _ ⟨⟩
  obtain ⟨⟨o, ho, hbody'⟩, hlast⟩ := h.opened a rfl
  refine ⟨⟨_, op?_addInner_apply kind operands tys ho, ?_⟩, fun u hu => hlast u ?_⟩
  · rw [OpKind.body?_appendInner, Option.isSome_map]
    exact hbody'
  · rw [entries, functions_addInner] at hu
    exact hu

theorem closeApply {a : OpId} {values : List ValueId}
    (h : p.UnderConstruction (some a))
    (hclose : p.closeApply a = .ok (q, values)) :
    q.UnderConstruction none := by
  rcases closeApply_eq_ok.1 hclose with ⟨o, t, unroll, ho, _, _, _, _, rfl, _⟩
  obtain ⟨⟨o', ho', hbody⟩, hlast⟩ := h.opened a rfl
  obtain rfl : o = o' := Option.some.inj (ho.symm.trans ho')
  obtain ⟨body, hbody⟩ := Option.isSome_iff_exists.1 hbody
  have hshaped : o.kind.isShaped = true := OpKind.isShaped_of_body? hbody
  let tys := groupTypes t.operandTypes (groupSize unroll).toNat
  have hf := h.fresh.newResults tys h.coherent ho fun _ ty hty => (mem_groupTypes hty).2
  obtain ⟨results, hnew⟩ := exists_op?_newResults tys ho
  refine ⟨(h.coherent.newResults tys ho).append a,
    hf.append ⟨_, hnew, hshaped⟩ fun u hu => hlast u ?_, ?_⟩
  · rw [entries, functions_newResults] at hu
    exact hu
  · rintro b ⟨⟩

end UnderConstruction

/-- Each call keeps what holds of a program while it is built. -/
theorem Building.underConstruction {p : Program} {a? : Option OpId} (h : Building p a?) :
    p.UnderConstruction a? := by
  induction h with
  | empty => exact ⟨Coherent.empty, Fresh.empty, by rintro a ⟨⟩⟩
  | beginFunction name stencil tys _ ih =>
      refine ⟨ih.coherent.beginFunction name stencil tys, ?_, by rintro a ⟨⟩⟩
      exact ih.fresh.of_grows ih.coherent (Grows.beginFunction _ name stencil tys)
        (entries_beginFunction _ name stencil tys) fun u => op?_newArgs none tys u _ 0
  | setStencil stencil _ _ ih =>
      have hc := ih.coherent
      refine ⟨⟨hc.op_id, hc.operand, hc.mem_uses, hc.declared, hc.result, hc.arg, hc.arg_types⟩,
        ?_, by rintro a ⟨⟩⟩
      exact ih.fresh.of_grows hc ⟨fun _ => rfl, fun _ => rfl, fun ho => ⟨_, ho, rfl, rfl⟩⟩
        (entries_setStencil _ _ stencil) fun _ => rfl
  | @load p field _ _ hfield ih =>
      rw [load_eq]
      refine ih.newOp_append [.temp (p.typeOf field).element none] rfl (fun _ => rfl) rfl ?_ ?_
      · exact List.forall_mem_singleton.2 hfield
      · exact fun _ => List.forall_mem_singleton.2 ⟨_, rfl⟩
  | store bounds _ _ hvalue hfield ih =>
      rw [store_eq]
      refine ih.newOp_append [] rfl (by rintro ⟨⟩) rfl ?_ (by rintro ⟨⟩)
      exact List.forall_mem_cons.2 ⟨hvalue, List.forall_mem_singleton.2 hfield⟩
  | openApply _ _ hoperands ih => exact ih.openApply hoperands
  | @access p a arg offset _ harg ih =>
      rw [access_eq]
      exact ih.addInner [.scalar (p.typeOf arg).element] rfl (List.forall_mem_singleton.2 harg)
  | @arith p a operator lhs rhs _ hlhs hrhs ih =>
      rw [arith_eq]
      exact ih.addInner [p.typeOf lhs] rfl
        (List.forall_mem_cons.2 ⟨hlhs, List.forall_mem_singleton.2 hrhs⟩)
  | ret unroll _ hvalues ih =>
      rw [ret_eq]
      exact ih.addInner [] rfl hvalues
  | closeApply _ hclose ih => exact ih.closeApply hclose
  | abandon _ ih => exact ⟨ih.coherent, ih.fresh, by rintro a ⟨⟩⟩

namespace Built

variable {p : Program}

theorem coherent (h : p.Built) : p.Coherent :=
  (Building.underConstruction h).coherent

theorem fresh (h : p.Built) : p.Fresh :=
  (Building.underConstruction h).fresh

end Built
end Program
end StencilShapes
