import StencilShapes.Proofs.Program.Placement

/-!
# Values come before what reads them

A call can read only what is there, so whatever defines an operand was made before the
operation that reads it.  That holds in functions and bodies alike, and across them.

**Results.**
* `Program.Forward.extend`: a new operation that reads what is there.
* `Program.Building.forward`: operands flow forward in all programs that calls build.
-/

namespace StencilShapes
namespace Program

/-- What defines an operand was made before the operation that reads it. -/
def Forward (p : Program) : Prop :=
  ∀ u o v x j, p.op? u = some o → v ∈ o.operands → p.originOf v = some (.result x j) →
    x.index < u.index

/-- The operands of an operation. -/
def operandsOf (p : Program) (u : OpId) : Option (List ValueId) :=
  (p.op? u).map Operation.operands

/-- One program has the operations of another one, with the same operands, and perhaps a new
one that reads what the other one has. -/
structure Adds (p q : Program) : Prop where
  grows : p.Grows q
  operands : ∀ u, q.operandsOf u = p.operandsOf u ∨ u.index = p.ops.size ∧
    ∀ vs, q.operandsOf u = some vs → ∀ v ∈ vs, (p.originOf v).isSome

section Adding

variable {p : Program}

theorem operandsOf_newResults (u x : OpId) (tys : List Ty) (p : Program) :
    (p.newResults x tys).1.operandsOf u = p.operandsOf u :=
  map_op?_newResults (fun _ _ => rfl) tys p

theorem operandsOf_appendToBody (p : Program) (a x u : OpId) :
    (p.appendToBody a x).operandsOf u = p.operandsOf u := by
  rw [operandsOf, op?_appendToBody]
  split
  · rw [Option.map_map]
    rfl
  · rfl

theorem operandsOf_newOp (kind : OpKind) (operands : List ValueId) (parent : Option OpId)
    (u : OpId) :
    (p.newOp kind operands parent).1.operandsOf u =
      if u.index = p.ops.size then some operands else p.operandsOf u := by
  rw [operandsOf, op?_newOp]
  split
  · rfl
  · rfl

/-- A step that adds one operation reads what its operands are. -/
theorem Adds.of_operandsOf {q : Program} {operands : List ValueId}
    (hg : p.Grows q)
    (hoperands : ∀ v ∈ operands, (p.originOf v).isSome)
    (h : ∀ u, q.operandsOf u = if u.index = p.ops.size then some operands else p.operandsOf u) :
    p.Adds q := by
  refine ⟨hg, fun u => ?_⟩
  rw [h u]
  split
  · next hu =>
      refine Or.inr ⟨hu, fun vs hvs => ?_⟩
      obtain rfl := Option.some.inj hvs
      exact hoperands
  · exact Or.inl rfl

variable {operands : List ValueId} (hoperands : ∀ v ∈ operands, (p.originOf v).isSome)

include hoperands

theorem Adds.newOp_append (kind : OpKind) (tys : List Ty) :
    p.Adds
      (((p.newOp kind operands none).1.newResults ⟨p.ops.size⟩ tys).1.append ⟨p.ops.size⟩) :=
  .of_operandsOf (Grows.newOp_append p kind operands tys) hoperands fun u =>
    (operandsOf_newResults u _ tys _).trans (operandsOf_newOp kind operands none u)

theorem Adds.addInner (a : OpId) (kind : OpKind) (tys : List Ty) :
    p.Adds (p.addInner a kind operands tys).1 :=
  .of_operandsOf (Grows.addInner kind operands tys p a) hoperands fun u =>
    ((operandsOf_appendToBody _ a _ u).trans (operandsOf_newResults u _ tys _)).trans
      (operandsOf_newOp kind operands (some a) u)

theorem Adds.openApply : p.Adds (p.openApply operands).1 := by
  refine .of_operandsOf (Grows.openApply p operands) hoperands fun u => ?_
  rw [operandsOf, op?_openApply]
  split
  · rfl
  · rfl

end Adding

variable {p q : Program}

/-- A new operation reads what was there before it. -/
theorem Forward.extend (h : p.Forward) (hc : p.Coherent) (hq : p.Adds q) : q.Forward := by
  intro u o v x j ho hv horigin
  have hu : q.operandsOf u = some o.operands := by
    rw [operandsOf, ho]
    rfl
  rcases hq.operands u with hsame | ⟨hsize, hdefined⟩
  · rw [hu] at hsame
    obtain ⟨o', ho', hoperands⟩ := Option.map_eq_some_iff.1 hsame.symm
    rw [← hoperands] at hv
    rw [hq.grows.origin (hc.operand ho' v hv)] at horigin
    exact h u o' v x j ho' hv horigin
  · rw [hq.grows.origin (hdefined _ hu v hv)] at horigin
    obtain ⟨ox, hox, _⟩ := hc.result.1 horigin
    rw [hsize]
    exact op?_lt hox

/-- Operands flow forward while a program is built. -/
theorem Building.forward {a? : Option OpId} (h : Building p a?) : p.Forward := by
  induction h with
  | empty => exact fun u o v x j ho => by cases ho
  | @beginFunction p name stencil tys h ih =>
      refine ih.extend h.underConstruction.coherent
        ⟨Grows.beginFunction p name stencil tys, fun u => .inl ?_⟩
      exact congrArg (Option.map Operation.operands) (op?_newArgs none tys u p 0)
  | setStencil stencil _ _ ih => exact ih
  | @load p field h _ hfield ih =>
      rw [load_eq]
      exact ih.extend h.underConstruction.coherent
        (.newOp_append (List.forall_mem_singleton.2 hfield) _
          [.temp (p.typeOf field).element none])
  | store bounds h _ hvalue hfield ih =>
      rw [store_eq]
      exact ih.extend h.underConstruction.coherent
        (.newOp_append (List.forall_mem_cons.2 ⟨hvalue, List.forall_mem_singleton.2 hfield⟩) _ [])
  | openApply h _ hoperands ih =>
      exact ih.extend h.underConstruction.coherent (.openApply hoperands)
  | @access p a arg offset h harg ih =>
      rw [access_eq]
      exact ih.extend h.underConstruction.coherent
        (.addInner (List.forall_mem_singleton.2 harg) a _ [.scalar (p.typeOf arg).element])
  | @arith p a operator lhs rhs h hlhs hrhs ih =>
      rw [arith_eq]
      exact ih.extend h.underConstruction.coherent
        (.addInner (List.forall_mem_cons.2 ⟨hlhs, List.forall_mem_singleton.2 hrhs⟩) a _
          [p.typeOf lhs])
  | @ret p a values unroll h hvalues ih =>
      rw [ret_eq]
      exact ih.extend h.underConstruction.coherent (.addInner hvalues a _ [])
  | @closeApply p q a values h hclose ih =>
      obtain ⟨_, t, unroll, _, _, _, _, _, rfl, _⟩ := closeApply_eq_ok.1 hclose
      refine ih.extend h.underConstruction.coherent
        ⟨(Grows.newResults a _ p).trans (Grows.append _ a), fun u => .inl ?_⟩
      exact operandsOf_newResults u a _ p
  | abandon _ ih => exact ih

end Program
end StencilShapes
