import StencilShapes.Proofs.Domain.Frame
import StencilShapes.Proofs.Program.Scope

/-!
# Declared types follow the types of values

When a result gets a shape, every shaped operation that reads it is told so, and an
apply tells the argument of its body.  The use lists name all these places, so the
declared types and the types of arguments agree with the types of values after each
step as they did before.

**Results.**
* `Program.Typed.retype`: one result with a new type.
* `Program.Typed.retypeResults`: all results of an operation.
* `Program.Typed.inferOp`: a step of inference.
-/

namespace StencilShapes
namespace Program

/-- Shaped operations declare the types of what they read, for the arguments of their
bodies as well. -/
structure Typed (p : Program) : Prop where
  /-- Declared types are the types of the operands. -/
  declared : ∀ {u o}, p.op? u = some o → o.kind.isShaped = true →
    o.operandTypes = o.operands.map p.typeOf
  arg_types : ∀ {u o body}, p.op? u = some o → o.kind.body? = some body →
    body.args.map p.typeOf = o.operandTypes

theorem Coherent.typed {p : Program} (h : p.Coherent) : p.Typed :=
  ⟨fun ho _ => h.declared ho, fun ho hb => h.arg_types ho hb⟩

/-- A value that stands for no operand in a body. -/
def Flows (p : Program) (v : ValueId) : Prop :=
  (p.originOf v).isSome ∧ ∀ a j, p.originOf v ≠ some (.arg (some a) j)

theorem IsOuter.flows {p : Program} {v : ValueId} (h : p.IsOuter v) : p.Flows v :=
  ⟨h.defined, fun a j harg => IsInner.not_isOuter (Or.inl ⟨a, j, harg⟩) h⟩

/-- Results stand for no operand. -/
theorem Coherent.flows {p : Program} {u : OpId} {o : Operation} {v : ValueId}
    (h : p.Coherent) (ho : p.op? u = some o) (hv : v ∈ o.results) :
    p.Flows v := by
  obtain ⟨j, hj⟩ := h.mem_results ho hv
  refine ⟨by rw [hj]; rfl, fun a i harg => ?_⟩
  rw [hj] at harg
  cases harg

/-- The operation at a position is shaped. -/
def ShapedAt (p : Program) (u : OpId) : Prop :=
  ∃ o, p.op? u = some o ∧ o.kind.isShaped = true

namespace SameFrame

variable {p q : Program}

theorem bodyArg?_eq (h : p.SameFrame q) (u : OpId) (i : Nat) :
    q.bodyArg? u i = p.bodyArg? u i := by
  have hbody : (q.op? u).bind (·.kind.body?) = (p.op? u).bind (·.kind.body?) := by
    have hop := h.op u
    cases hp : p.op? u with
    | none =>
        rw [hp, Option.map_none, Option.map_eq_none_iff] at hop
        rw [hop]
    | some o =>
        obtain ⟨o', ho', _, hkind, _⟩ := h.exists_op hp
        rw [ho', Option.bind_some, Option.bind_some, OpKind.body?_eq_of_frame hkind]
  rw [bodyArg?, bodyArg?, hbody]

theorem shapedAt_iff (h : p.SameFrame q) (u : OpId) : q.ShapedAt u ↔ p.ShapedAt u := by
  constructor
  · rintro ⟨o, ho, hk⟩
    obtain ⟨o', ho', _, hkind, _⟩ := h.symm.exists_op ho
    exact ⟨o', ho', (OpKind.isShaped_eq_of_frame hkind).trans hk⟩
  · rintro ⟨o, ho, hk⟩
    obtain ⟨o', ho', _, hkind, _⟩ := h.exists_op ho
    exact ⟨o', ho', (OpKind.isShaped_eq_of_frame hkind).trans hk⟩

end SameFrame

section Retyping

variable {p : Program}

theorem shaped_eq_true_iff {u : OpId} :
    ((p.op? u).elim false fun o => o.kind.isShaped) = true ↔ p.ShapedAt u := by
  unfold ShapedAt
  cases p.op? u <;> simp

theorem bodyArg?_eq_some {u : OpId} {i : Nat} {w : ValueId} :
    p.bodyArg? u i = some w ↔
      ∃ o body, p.op? u = some o ∧ o.kind.body? = some body ∧ body.args[i]? = some w := by
  simp only [bodyArg?, Option.bind_eq_some_iff]
  constructor
  · rintro ⟨body, ⟨o, ho, hb⟩, hi⟩
    exact ⟨o, body, ho, hb, hi⟩
  · rintro ⟨o, body, ho, hb, hi⟩
    exact ⟨body, ⟨o, ho, hb⟩, hi⟩

theorem typeOf_setOperandType (user : OpId) (operand : Nat) (ty : Ty) {w : ValueId}
    (hw : (p.originOf w).isSome) :
    (p.setOperandType user operand ty).typeOf w =
      if p.bodyArg? user operand = some w then ty else p.typeOf w := by
  rw [setOperandType_eq]
  cases p.bodyArg? user operand with
  | none => simp [typeOf, value?, modifyOp]
  | some arg =>
      refine (typeOf_setType _ arg ty w ?_).trans ?_
      · exact hw
      · simp only [Option.some.injEq, eq_comm]
        rfl

/-- The declared types at the given uses change, and no others. -/
theorem operandTypes_retypeUses (ty : Ty) (uses : List Use) :
    ∀ {p : Program} {u : OpId} {o : Operation}, p.op? u = some o →
      ∃ o', (p.retypeUses ty uses).op? u = some o' ∧ o'.kind = o.kind ∧
        o'.operands = o.operands ∧
        ∀ j : Nat, o'.operandTypes[j]? =
          if o.kind.isShaped = true ∧ { user := u, operand := j } ∈ uses then
            o.operandTypes[j]?.map fun _ => ty
          else o.operandTypes[j]? := by
  induction uses with
  | nil =>
      intro p u o ho
      exact ⟨o, ho, rfl, rfl, fun j => by simp⟩
  | cons use rest ih =>
      intro p u o ho
      simp only [retypeUses]
      by_cases hs : p.ShapedAt use.user
      · rw [if_pos (shaped_eq_true_iff.2 hs)]
        by_cases hu : u = use.user
        · subst hu
          rcases hs with ⟨o₁, ho₁, hk⟩
          obtain rfl : o = o₁ := Option.some.inj (ho.symm.trans ho₁)
          have hset : (p.setOperandType use.user use.operand ty).op? use.user =
              some { o with operandTypes := o.operandTypes.set use.operand ty } := by
            rw [op?_setOperandType, if_pos rfl, ho]
            rfl
          obtain ⟨o', ho', hk', hops', htys'⟩ := ih hset
          refine ⟨o', ho', hk', hops', fun j => ?_⟩
          rw [htys']
          rcases use with ⟨user, i⟩
          by_cases hj : j = i
          · subst hj
            simp only [List.mem_cons_self, hk, true_and, if_true]
            rw [List.getElem?_set_self']
            split
            · cases o.operandTypes[j]? <;> rfl
            · rfl
          · simp [hj, List.getElem?_set_ne (Ne.symm hj)]
        · have hkeep : (p.setOperandType use.user use.operand ty).op? u = some o := by
            rw [op?_setOperandType, if_neg hu, ho]
          obtain ⟨o', ho', hk', hops', htys'⟩ := ih hkeep
          refine ⟨o', ho', hk', hops', fun j => ?_⟩
          have hne : ({ user := u, operand := j } : Use) ≠ use := fun he => hu (he ▸ rfl)
          rw [htys']
          simp [hne]
      · rw [if_neg (mt shaped_eq_true_iff.1 hs)]
        obtain ⟨o', ho', hk', hops', htys'⟩ := ih ho
        refine ⟨o', ho', hk', hops', fun j => ?_⟩
        have hne : o.kind.isShaped = true → ({ user := u, operand := j } : Use) ≠ use :=
          fun hk he => hs (he ▸ ⟨o, ho, hk⟩)
        rw [htys']
        by_cases hk : o.kind.isShaped = true
        · simp [hk, hne hk]
        · simp [hk]

/-- The arguments that stand for the given uses change their types, and no other values. -/
theorem typeOf_retypeUses (ty : Ty) (uses : List Use) {w : ValueId} :
    ∀ {p : Program}, (p.originOf w).isSome →
      ((∃ use ∈ uses, p.ShapedAt use.user ∧ p.bodyArg? use.user use.operand = some w) →
        (p.retypeUses ty uses).typeOf w = ty) ∧
      ((∀ use ∈ uses, p.bodyArg? use.user use.operand ≠ some w) →
        (p.retypeUses ty uses).typeOf w = p.typeOf w) ∧
      (p.typeOf w = ty → (p.retypeUses ty uses).typeOf w = ty) := by
  induction uses with
  | nil =>
      intro p hw
      refine ⟨?_, fun _ => rfl, fun h => h⟩
      rintro ⟨use, huse, _⟩
      cases huse
  | cons use rest ih =>
      intro p hw
      simp only [retypeUses]
      by_cases hs : p.ShapedAt use.user
      · rw [if_pos (shaped_eq_true_iff.2 hs)]
        have hframe := sameFrame_setOperandType p use.user use.operand ty
        have hty := typeOf_setOperandType use.user use.operand ty hw
        obtain ⟨hin, hout, hkeep⟩ := ih (p := p.setOperandType use.user use.operand ty)
          (by rw [hframe.origin]; exact hw)
        simp only [hframe.bodyArg?_eq, hframe.shapedAt_iff] at hin hout
        refine ⟨?_, fun h => ?_, fun h => hkeep ?_⟩
        · rintro ⟨use', huse', hs', harg⟩
          rcases List.mem_cons.1 huse' with rfl | huse'
          · exact hkeep (hty.trans (if_pos harg))
          · exact hin ⟨use', huse', hs', harg⟩
        · rw [hout fun use' huse' => h use' (List.mem_cons_of_mem _ huse'), hty,
            if_neg (h use List.mem_cons_self)]
        · rw [hty, h, ite_self]
      · rw [if_neg (mt shaped_eq_true_iff.1 hs)]
        obtain ⟨hin, hout, hkeep⟩ := ih (p := p) hw
        refine ⟨?_, fun h => hout fun use' huse' => h use' (List.mem_cons_of_mem _ huse'), hkeep⟩
        rintro ⟨use', huse', hs', harg⟩
        rcases List.mem_cons.1 huse' with rfl | huse'
        · exact absurd hs' hs
        · exact hin ⟨use', huse', hs', harg⟩

end Retyping

namespace Typed

variable {p q : Program} {v : ValueId}

theorem bodyArg_isInner (hc : p.Coherent) (hframe : p.SameFrame q) {u : OpId} {i : Nat}
    {w : ValueId}
    (h : q.bodyArg? u i = some w) :
    p.originOf w = some (.arg (some u) i) := by
  rw [hframe.bodyArg?_eq] at h
  exact hc.arg.2 (bodyArg?_eq_some.1 h)

theorem mem_usesOf_iff (hc : p.Coherent) (hframe : p.SameFrame q) {u : OpId} {o : Operation}
    {j : Nat}
    (ho : q.op? u = some o) :
    { user := u, operand := j } ∈ q.usesOf v ↔ o.operands[j]? = some v := by
  obtain ⟨o', ho', _, _, hops, _⟩ := hframe.symm.exists_op ho
  rw [hframe.uses, hc.mem_uses, ← hops]
  simp [ho']

/-- The declared types of the operands that read the value change, and no others. -/
theorem op_retype (hc : p.Coherent) (hframe : p.SameFrame q) (ty : Ty) {u : OpId}
    {o' : Operation}
    (ho' : ((q.setType v ty).retypeUses ty (q.usesOf v)).op? u = some o') :
    ∃ o, q.op? u = some o ∧ o'.kind = o.kind ∧ o'.operands = o.operands ∧
      ∀ j : Nat, o'.operandTypes[j]? =
        if o.kind.isShaped = true ∧ o.operands[j]? = some v then
          o.operandTypes[j]?.map fun _ => ty
        else o.operandTypes[j]? := by
  let q₁ := q.setType v ty
  obtain ⟨o, ho, _⟩ := ((sameFrame_setType q v ty).trans
    (sameFrame_retypeUses ty (q.usesOf v) q₁)).symm.exists_op ho'
  obtain ⟨o₁, ho₁, hk, hops, htys⟩ := operandTypes_retypeUses ty (q.usesOf v) (p := q₁) ho
  obtain rfl : o' = o₁ := Option.some.inj (ho'.symm.trans ho₁)
  refine ⟨o, ho, hk, hops, fun j => ?_⟩
  rw [htys]
  simp only [mem_usesOf_iff hc hframe ho]

/-- A value that stands for no operand changes its type only if it is the one that is
given a new type. -/
theorem typeOf_retype (hc : p.Coherent) (hframe : p.SameFrame q) (ty : Ty) {w : ValueId}
    (hw : p.Flows w) :
    ((q.setType v ty).retypeUses ty (q.usesOf v)).typeOf w =
      if w = v then ty else q.typeOf w := by
  let q₁ := q.setType v ty
  have hframe₁ : p.SameFrame q₁ := hframe.trans (sameFrame_setType q v ty)
  have hnotArg : ∀ u i, q₁.bodyArg? u i ≠ some w := fun u i harg =>
    hw.2 u i (bodyArg_isInner hc hframe₁ harg)
  have hkeep := (typeOf_retypeUses ty (q.usesOf v) (p := q₁)
    (by rw [hframe₁.origin]; exact hw.1)).2.1 fun use _ => hnotArg use.user use.operand
  exact hkeep.trans (typeOf_setType q v ty w (by rw [hframe.origin]; exact hw.1))

/-- All results of an operation get a shape, and no other value that flows changes its type. -/
theorem typeOf_retypeResults (hc : p.Coherent) (shape : Point) {vs : List ValueId} :
    ∀ {q : Program}, p.SameFrame q →
      (∀ v ∈ vs, p.Flows v ∧ ∃ e s, q.typeOf v = .temp e s) →
      (∀ v ∈ vs, ∃ e, (q.retypeResults shape vs).typeOf v = .temp e (some shape)) ∧
        ∀ w, p.Flows w → w ∉ vs → (q.retypeResults shape vs).typeOf w = q.typeOf w := by
  induction vs with
  | nil => exact fun _ _ => ⟨List.forall_mem_nil _, fun _ _ _ => rfl⟩
  | cons v rest ih =>
      intro q hframe hvs
      obtain ⟨hv, e, s, hty⟩ := hvs v List.mem_cons_self
      let ty := Ty.temp e (some shape)
      let q₁ := (q.setType v ty).retypeUses ty (q.usesOf v)
      have hstep : q.retypeResults shape (v :: rest) = q₁.retypeResults shape rest := by
        rw [Program.retypeResults, hty]
      have hty₁ : ∀ w, p.Flows w → q₁.typeOf w = if w = v then ty else q.typeOf w := fun w =>
        typeOf_retype hc hframe ty
      have hframe₁ : p.SameFrame q₁ := (hframe.trans (sameFrame_setType q v ty)).trans
        (sameFrame_retypeUses ty (q.usesOf v) _)
      obtain ⟨hin, hout⟩ := ih hframe₁ fun w hw => by
        obtain ⟨hwflows, e', s', hty'⟩ := hvs w (List.mem_cons_of_mem _ hw)
        refine ⟨hwflows, ?_⟩
        rw [hty₁ w hwflows]
        split
        · exact ⟨e, some shape, rfl⟩
        · exact ⟨e', s', hty'⟩
      rw [hstep]
      refine ⟨fun w hw => ?_, fun w hw hmem => ?_⟩
      · by_cases hrest : w ∈ rest
        · exact hin w hrest
        · obtain rfl := (List.mem_cons.1 hw).resolve_right hrest
          refine ⟨e, ?_⟩
          rw [hout w hv hrest, hty₁ w hv, if_pos rfl]
      · rw [List.mem_cons, not_or] at hmem
        rw [hout w hw hmem.2, hty₁ w hw, if_neg hmem.1]

/-- The argument of a body follows the operand for which it stands. -/
theorem typeOf_retype_arg (hc : p.Coherent) (hframe : p.SameFrame q) (hv : p.IsOuter v) (ty : Ty)
    {u : OpId} {o : Operation} {body : Block} {j : Nat} {w : ValueId}
    (ho : q.op? u = some o)
    (hk : o.kind.isShaped = true)
    (hbody : o.kind.body? = some body)
    (hw : body.args[j]? = some w) :
    ((q.setType v ty).retypeUses ty (q.usesOf v)).typeOf w =
      if o.operands[j]? = some v then ty else q.typeOf w := by
  let q₁ := q.setType v ty
  have hframe₁ : p.SameFrame q₁ := hframe.trans (sameFrame_setType q v ty)
  have harg : q₁.bodyArg? u j = some w := bodyArg?_eq_some.2 ⟨o, body, ho, hbody, hw⟩
  have horigin := bodyArg_isInner hc hframe₁ harg
  have hdefined : (p.originOf w).isSome := by rw [horigin]; rfl
  have hwv : w ≠ v := fun he => IsInner.not_isOuter (Or.inl ⟨u, j, horigin⟩) (he.symm ▸ hv)
  obtain ⟨hin, hout, _⟩ := typeOf_retypeUses ty (q.usesOf v) (p := q₁) (w := w)
    (by rw [hframe₁.origin]; exact hdefined)
  split
  · next hread => exact hin ⟨_, (mem_usesOf_iff hc hframe ho).2 hread, ⟨o, ho, hk⟩, harg⟩
  · next hread =>
      have hno : ∀ use ∈ q.usesOf v, q₁.bodyArg? use.user use.operand ≠ some w := by
        intro use huse harg'
        -- An argument stands for one operand only.
        have horigin' := bodyArg_isInner hc hframe₁ harg'
        rw [horigin] at horigin'
        cases horigin'
        exact hread ((mem_usesOf_iff hc hframe ho).1 huse)
      have hset := typeOf_setType q v ty w (by rw [hframe.origin]; exact hdefined)
      rw [if_neg hwv] at hset
      exact (hout hno).trans hset

/-- One result gets a new type, and everything that reads it follows. -/
theorem retype (h : q.Typed)
    (hc : p.Coherent) (hs : p.Scoped)
    (hframe : p.SameFrame q)
    (hv : p.IsOuter v)
    (ty : Ty) :
    ((q.setType v ty).retypeUses ty (q.usesOf v)).Typed := by
  constructor
  case declared =>
    intro u o' ho' hk
    obtain ⟨o, ho, hkind, hops, htys⟩ := op_retype hc hframe ty ho'
    rw [hkind] at hk
    obtain ⟨op, hop, _, hkp, hopsp, _⟩ := hframe.symm.exists_op ho
    refine List.ext_getElem? fun j => ?_
    rw [htys, h.declared ho hk, hops, List.getElem?_map, List.getElem?_map]
    cases hw : o.operands[j]? with
    | none => simp
    | some w =>
        have hwouter : p.IsOuter w :=
          hs.outer hop ((OpKind.isShaped_eq_of_frame hkp).trans hk) w
            (hopsp ▸ List.mem_of_getElem? hw)
        simp only [hk, true_and, Option.some.injEq, Option.map_some]
        rw [typeOf_retype hc hframe ty hwouter.flows]
        split
        · rfl
        · rfl
  case arg_types =>
    intro u o' body ho' hbody
    obtain ⟨o, ho, hkind, _, htys⟩ := op_retype hc hframe ty ho'
    rw [hkind] at hbody
    have hk : o.kind.isShaped = true := OpKind.isShaped_of_body? hbody
    refine List.ext_getElem? fun j => ?_
    rw [htys, ← h.arg_types ho hbody, List.getElem?_map, List.getElem?_map]
    cases hw : body.args[j]? with
    | none => simp
    | some w =>
        simp only [hk, true_and, Option.map_some]
        rw [typeOf_retype_arg hc hframe hv ty ho hk hbody hw]
        split
        · rfl
        · rfl

/-- Giving the results of an operation a shape keeps declared types right. -/
theorem retypeResults (hc : p.Coherent) (hs : p.Scoped) (shape : Point) {vs : List ValueId} :
    ∀ {q : Program}, q.Typed → p.SameFrame q → (∀ v ∈ vs, p.IsOuter v) →
      (q.retypeResults shape vs).Typed := by
  induction vs with
  | nil => exact fun h _ _ => h
  | cons v rest ih =>
      intro q h hframe hvs
      have hrest : ∀ w ∈ rest, p.IsOuter w := fun w hw => hvs w (List.mem_cons_of_mem _ hw)
      rw [Program.retypeResults]
      split
      · exact ih (h.retype hc hs hframe (hvs v List.mem_cons_self) _)
          ((hframe.trans (sameFrame_setType q v _)).trans (sameFrame_retypeUses _ _ _)) hrest
      · exact ih h hframe hrest

theorem commit (h : p.Typed) {u : OpId} {b : Bounds} (hq : p.commit u b = .ok q) :
    q.Typed ∧ q.typeOf = p.typeOf := by
  have hty := typeOf_commit hq
  refine ⟨⟨fun {x ox} hox hkx => ?_, fun {x ox body} hox hbody => ?_⟩, hty⟩
  · obtain ⟨ox', hox', hkind, hops, htys⟩ := exists_op_of_commit hq hox
    rw [htys, hops, hty]
    exact h.declared hox' ((OpKind.isShaped_eq_of_frame hkind).symm.trans hkx)
  · obtain ⟨ox', hox', hkind, _, htys⟩ := exists_op_of_commit hq hox
    rw [htys, hty]
    exact h.arg_types hox' ((OpKind.body?_eq_of_frame hkind).symm.trans hbody)

/-- A step of inference gives the results of its operation their shape. -/
theorem inferOp {t : ExtentTable} {function : String} {x : OpId} {o o' : Operation}
    {i : Inferred}
    (h : p.Typed)
    {l : Program} (hc : l.Coherent) (hs : l.Scoped)
    (hframe : l.SameFrame p)
    (ho : l.op? x = some o)
    (hk : o.kind.isInferable = true)
    (hvs : ∀ v ∈ o.results, ∃ e s, p.typeOf v = .temp e s)
    (ho' : p.op? x = some o')
    (hok : p.inferOp t function o' = .ok (q, i)) :
    q.Typed ∧ (∀ v ∈ o.results, ∃ e, q.typeOf v = .temp e (some i.shape)) ∧
      ∀ w, l.IsOuter w → w ∉ o.results → q.typeOf w = p.typeOf w := by
  obtain ⟨_, _, _, hresults⟩ := hframe.op_eq ho ho'
  rcases inferOp_eq_ok.1 hok with ⟨b, shape, p', _, _, hcommit, rfl, rfl⟩
  obtain ⟨htyped, hty⟩ := h.commit hcommit
  have houter : ∀ v ∈ o.results, l.IsOuter v := fun v hv => by
    obtain ⟨j, hj⟩ := hc.mem_results ho hv
    exact Or.inr ⟨x, j, o, hj, ho, OpKind.isShaped_of_isInferable hk⟩
  have hframe' := hframe.trans (sameFrame_commit hcommit)
  rw [← hty] at hvs ⊢
  rw [hresults]
  obtain ⟨hin, hout⟩ := typeOf_retypeResults hc shape hframe' fun v hv =>
    ⟨(houter v hv).flows, hvs v hv⟩
  exact ⟨htyped.retypeResults hc hs shape hframe' houter, hin, fun w hw => hout w hw.flows⟩

end Typed
end Program
end StencilShapes
