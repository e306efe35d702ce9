import StencilShapes.Proofs.Program.Built

/-!
# Where fields come from

A function is begun with arguments of any types.  All other calls make temps and scalars, or
pass on types that are there already: to the arguments of a body, and to the results of
arithmetic.  So whatever has been built, a value that is a field has the type of some
argument of a function.

**Results.**
* `Program.FieldsPassed.of_types`: a call that passes on types.
* `Program.Building.fieldsPassed`: all calls.
-/

namespace StencilShapes
namespace Program

variable {p q : Program}

/-- Some function has an argument of this type. -/
def Passed (p : Program) (ty : Ty) : Prop :=
  ∃ vs ∈ p.functions.toList.map Function.args, ∃ v ∈ vs, p.typeOf v = ty

/-- Every field is passed to a function. -/
def FieldsPassed (p : Program) : Prop :=
  ∀ v e r, p.typeOf v = .field e r → p.Passed (.field e r)

/-- What has the type of a field has been defined. -/
theorem isSome_of_typeOf_field {v : ValueId} {e : Element} {r : Nat}
    (h : p.typeOf v = .field e r) :
    (p.originOf v).isSome := by
  rw [typeOf] at h
  rw [originOf, Option.isSome_map]
  cases hv : p.value? v with
  | none =>
      rw [hv] at h
      cases h
  | some w => rfl

/-- What is passed stays so while a program grows. -/
theorem Passed.of_grows {e : Element} {r : Nat}
    (h : p.Passed (.field e r))
    (hg : p.Grows q)
    (hargs : p.functions.toList.map Function.args ⊆ q.functions.toList.map Function.args) :
    q.Passed (.field e r) := by
  obtain ⟨vs, hvs, v, hv, hty⟩ := h
  refine ⟨vs, hargs hvs, v, hv, ?_⟩
  rw [hg.ty (isSome_of_typeOf_field hty), hty]

namespace FieldsPassed

/-- A call passes on types, and what else it makes are no fields. -/
theorem of_types
    (h : p.FieldsPassed)
    (hg : p.Grows q)
    (hargs : q.functions.toList.map Function.args = p.functions.toList.map Function.args)
    (htypes : ∀ v, (∃ w, q.typeOf v = p.typeOf w) ∨ ∀ e r, q.typeOf v ≠ .field e r) :
    q.FieldsPassed := by
  intro v e r hv
  rcases htypes v with ⟨w, hw⟩ | hno
  · exact (h w e r (hw.symm.trans hv)).of_grows hg (by rw [hargs]; exact List.Subset.refl _)
  · exact absurd hv (hno e r)

/-- New results have the types that they are given. -/
theorem typeOf_newResults (op : OpId) (tys : List Ty) (v : ValueId) :
    ∀ p : Program, (p.newResults op tys).1.typeOf v = p.typeOf v ∨
      (p.newResults op tys).1.typeOf v ∈ tys := by
  induction tys with
  | nil => exact fun _ => .inl rfl
  | cons ty tys ih =>
      intro p
      rcases ih (p.newResult op ty).1 with hold | hnew
      · rw [typeOf_newResult] at hold
        split at hold
        · exact .inr (List.mem_cons.2 (.inl hold))
        · exact .inl hold
      · exact .inr (List.mem_cons_of_mem ty hnew)

theorem newOp (kind : OpKind) (operands : List ValueId) (parent : Option OpId)
    (h : p.FieldsPassed) :
    (p.newOp kind operands parent).1.FieldsPassed :=
  h.of_types (Grows.newOp p kind operands parent) rfl fun v => .inl ⟨v, by rw [typeOf_newOp]⟩

theorem append (op : OpId) (h : p.FieldsPassed) : (p.append op).FieldsPassed :=
  h.of_types (Grows.append p op) (map_args_append p op) fun v => .inl ⟨v, rfl⟩

theorem newResults (op : OpId) {tys : List Ty}
    (h : p.FieldsPassed)
    (htys : ∀ ty ∈ tys, (∃ w, ty = p.typeOf w) ∨ ∀ e r, ty ≠ .field e r) :
    (p.newResults op tys).1.FieldsPassed := by
  refine h.of_types (Grows.newResults op tys p) (by rw [functions_newResults]) fun v => ?_
  rcases typeOf_newResults op tys v p with hold | hnew
  · exact .inl ⟨v, hold⟩
  · exact htys _ hnew

/-- Temps are no fields. -/
theorem newTemps (op : OpId) {tys : List Ty}
    (h : p.FieldsPassed)
    (htys : ∀ ty ∈ tys, ∃ e, ty = .temp e none) :
    (p.newResults op tys).1.FieldsPassed := by
  refine h.newResults op fun ty hty => .inr fun e r hfield => ?_
  obtain ⟨e', rfl⟩ := htys ty hty
  cases hfield

theorem addInner {a : OpId} (kind : OpKind) (operands : List ValueId) {tys : List Ty}
    (h : p.FieldsPassed)
    (htys : ∀ ty ∈ tys, (∃ w, ty = p.typeOf w) ∨ ∀ e r, ty ≠ .field e r) :
    (p.addInner a kind operands tys).1.FieldsPassed := by
  have hnew := (h.newOp kind operands (some a)).newResults ⟨p.ops.size⟩ (by rwa [typeOf_newOp])
  exact hnew.of_types (Grows.appendToBody _ _ _) rfl fun v => .inl ⟨v, rfl⟩

theorem openApply {operands : List ValueId} (h : p.FieldsPassed) :
    (p.openApply operands).1.FieldsPassed := by
  refine h.of_types (Grows.openApply p operands) (by rw [functions_openApply]) fun v => ?_
  rw [typeOf_openApply]
  split
  · exact .inl ⟨v, rfl⟩
  · cases hget : (operands.map p.typeOf)[v.index - p.values.size]? with
    | none => exact .inr (by rintro e r ⟨⟩)
    | some ty =>
        obtain ⟨w, _, rfl⟩ := List.mem_map.1 (List.mem_of_getElem? hget)
        exact .inl ⟨w, rfl⟩

/-- The arguments of a new function are passed to it. -/
theorem beginFunction (name : String) (stencil : Bool) (tys : List Ty) (h : p.FieldsPassed) :
    (p.beginFunction name stencil tys).1.FieldsPassed := by
  intro v e r hv
  have hfunctions : (p.beginFunction name stencil tys).1.functions.toList.map Function.args =
      p.functions.toList.map Function.args ++ [(p.newArgs none 0 tys).2] := by
    simp [Program.beginFunction, functions_newArgs]
  have hty : (p.newArgs none 0 tys).1.typeOf v = .field e r := hv
  rw [typeOf_newArgs] at hty
  split at hty
  · refine (h v e r hty).of_grows (Grows.beginFunction p name stencil tys) ?_
    rw [hfunctions]
    exact List.subset_append_left _ _
  · next hindex =>
      have hi : v.index - p.values.size < tys.length := by
        by_contra hout
        rw [List.getElem?_eq_none (Nat.le_of_not_lt hout)] at hty
        cases hty
      refine ⟨_, hfunctions ▸ List.mem_append_right _ List.mem_cons_self, v, ?_, hv⟩
      rw [newArgs_snd, List.mem_map]
      refine ⟨_, List.mem_range.2 hi, congrArg ValueId.mk ?_⟩
      omega

end FieldsPassed

/-- Whatever is built, and also while an apply is open. -/
theorem Building.fieldsPassed {a? : Option OpId} (h : Building p a?) : p.FieldsPassed := by
  induction h with
  | empty => rintro v e r ⟨⟩
  | beginFunction name stencil tys _ ih => exact ih.beginFunction name stencil tys
  | @setStencil p stencil _ _ ih =>
      exact ih.of_types ⟨fun _ => rfl, fun _ => rfl, fun ho => ⟨_, ho, rfl, rfl⟩⟩
        (p.map_args_setStencil _ stencil) fun v => .inl ⟨v, rfl⟩
  | load _ _ _ ih =>
      rw [load_eq]
      exact ((ih.newOp _ _ none).newTemps _ (List.forall_mem_singleton.2 ⟨_, rfl⟩)).append _
  | store bounds _ _ _ _ ih =>
      rw [store_eq]
      exact (ih.newOp _ _ none).append _
  | openApply _ _ _ ih => exact ih.openApply
  | access offset _ _ ih =>
      rw [access_eq]
      exact ih.addInner _ _ (List.forall_mem_singleton.2 (.inr (by rintro e r ⟨⟩)))
  | @arith p a operator lhs rhs _ _ _ ih =>
      rw [arith_eq]
      exact ih.addInner _ _ (List.forall_mem_singleton.2 (.inl ⟨lhs, rfl⟩))
  | ret unroll _ _ ih =>
      rw [ret_eq]
      exact ih.addInner _ _ (List.forall_mem_nil _)
  | closeApply _ hclose ih =>
      obtain ⟨o, t, unroll, _, _, _, _, _, rfl, _⟩ := closeApply_eq_ok.1 hclose
      exact (ih.newTemps _ fun _ hty => (mem_groupTypes hty).2).append _
  | abandon _ ih => exact ih

end Program
end StencilShapes
