import StencilShapes.Proofs.Program.View
import StencilShapes.Proofs.SideBySide
import Mathlib.Data.List.Nodup

/-!
# Coherent programs

The arenas of a program say the same thing several times: an operation lists its
operands and each value its uses, an operation lists its results and each value
its origin, and declared types repeat the types of values.  A program is coherent
when these accounts agree.

Each call that grows a program keeps it coherent, so an open apply and the
operations of its body are covered as well.

**Results.**
* `Program.Coherent.newOp`, `Program.Coherent.newResult`,
  `Program.Coherent.appendToBody`, `Program.Coherent.openApply`,
  `Program.Coherent.newArgs`: the steps that keep a program coherent.
-/

namespace StencilShapes
namespace Program

/-- The arenas, the use lists and the declared types agree. -/
structure Coherent (p : Program) : Prop where
  op_id : ∀ {u o}, p.op? u = some o → o.id = u
  operand : ∀ {u o}, p.op? u = some o → ∀ v ∈ o.operands, (p.originOf v).isSome
  /-- The uses of a value are the operands that refer to it. -/
  mem_uses : ∀ {v use},
    use ∈ p.usesOf v ↔ ∃ o, p.op? use.user = some o ∧ o.operands[use.operand]? = some v
  /-- Declared types are the types of the operands. -/
  declared : ∀ {u o}, p.op? u = some o → o.operandTypes = o.operands.map p.typeOf
  /-- The results of an operation are the values that come from it. -/
  result : ∀ {u j v},
    p.originOf v = some (.result u j) ↔ ∃ o, p.op? u = some o ∧ o.results[j]? = some v
  /-- The arguments of a body are the values that stand for operands. -/
  arg : ∀ {a j v},
    p.originOf v = some (.arg (some a) j) ↔
      ∃ o body, p.op? a = some o ∧ o.kind.body? = some body ∧ body.args[j]? = some v
  /-- An argument of a body has the type that is declared for its operand. -/
  arg_types : ∀ {u o body},
    p.op? u = some o → o.kind.body? = some body → body.args.map p.typeOf = o.operandTypes

theorem op?_lt {p : Program} {u : OpId} {o : Operation} (h : p.op? u = some o) :
    u.index < p.ops.size :=
  (Array.getElem?_eq_some_iff.1 h).1

/-- A new operation leaves the others as they are. -/
theorem op?_newOp_old {p : Program} {u : OpId} {o : Operation} (kind : OpKind)
    (operands : List ValueId) (parent : Option OpId) (ho : p.op? u = some o) :
    (p.newOp kind operands parent).1.op? u = some o := by
  rw [op?_newOp, if_neg (Nat.ne_of_lt (op?_lt ho)), ho]

/-- What an element of a list with one more element can be. -/
theorem getElem?_concat_eq_some {α : Type} {xs : List α} {x y : α} {j : Nat} :
    (xs ++ [x])[j]? = some y ↔ xs[j]? = some y ∨ (j = xs.length ∧ x = y) := by
  rcases Nat.lt_trichotomy j xs.length with h | h | h
  · simp [List.getElem?_append_left h, Nat.ne_of_lt h]
  · subst h
    simp
  · have hout : xs[j]? = none := List.getElem?_eq_none (Nat.le_of_lt h)
    have hout' : (xs ++ [x])[j]? = none := List.getElem?_eq_none (by simp; omega)
    simp [hout, hout', Nat.ne_of_gt h]

namespace Coherent

variable {p : Program}

theorem mem_results (h : p.Coherent) {u : OpId} {o : Operation} {v : ValueId}
    (ho : p.op? u = some o) (hv : v ∈ o.results) :
    ∃ j, p.originOf v = some (.result u j) := by
  obtain ⟨j, hj⟩ := List.getElem?_of_mem hv
  exact ⟨j, h.result.2 ⟨o, ho, hj⟩⟩

/-- A value is the result of one operation only. -/
theorem not_mem_results (h : p.Coherent) {u w : OpId} {o ow : Operation} {v : ValueId}
    (ho : p.op? u = some o) (how : p.op? w = some ow) (hv : v ∈ o.results) (hne : u ≠ w) :
    v ∉ ow.results := by
  intro hvw
  obtain ⟨j, hj⟩ := h.mem_results ho hv
  obtain ⟨k, hk⟩ := h.mem_results how hvw
  rw [hj] at hk
  cases hk
  exact hne rfl

/-- A value is the result of one operation. -/
theorem op_unique (h : p.Coherent) {u w : OpId} {o ow : Operation} {v : ValueId}
    (ho : p.op? u = some o) (how : p.op? w = some ow)
    (hv : v ∈ o.results) (hvw : v ∈ ow.results) :
    u = w := by
  by_contra hne
  exact h.not_mem_results ho how hv hne hvw

theorem nodup_results (h : p.Coherent) {u : OpId} {o : Operation} (ho : p.op? u = some o) :
    o.results.Nodup := by
  refine List.nodup_iff_getElem?_ne_getElem?.2 fun j k hjk hk heq => ?_
  obtain ⟨v, hv⟩ : ∃ v, o.results[k]? = some v := ⟨_, List.getElem?_eq_getElem hk⟩
  have hj := h.result.2 ⟨o, ho, heq.trans hv⟩
  rw [h.result.2 ⟨o, ho, hv⟩, Option.some.injEq, Origin.result.injEq] at hj
  exact absurd hj.2 (Nat.ne_of_gt hjk)

/-- The arguments of a body are values of the program. -/
theorem args (h : p.Coherent) {u : OpId} {o : Operation} {body : Block}
    (ho : p.op? u = some o) (hbody : o.kind.body? = some body) :
    ∀ v ∈ body.args, (p.originOf v).isSome := by
  intro v hv
  obtain ⟨j, hj⟩ := List.getElem?_of_mem hv
  rw [h.arg.2 ⟨o, body, ho, hbody, hj⟩]
  rfl

/-- The program without operations and values is coherent. -/
theorem empty : ({} : Program).Coherent := by
  constructor <;> simp [op?, originOf, value?, usesOf]

theorem append (h : p.Coherent) (op : OpId) : (p.append op).Coherent :=
  ⟨h.op_id, h.operand, h.mem_uses, h.declared, h.result, h.arg, h.arg_types⟩

section Extended

/-! A new operation at the end of the arena, which defines nothing yet. -/

variable {o : Operation}

theorem op_id_extended (h : p.Coherent) {u : OpId} {o' : Operation}
    (hid : o.id = ⟨p.ops.size⟩)
    (ho' : (if u.index = p.ops.size then some o else p.op? u) = some o') :
    o'.id = u := by
  split at ho'
  · next hu =>
      cases ho'
      exact hid.trans (congrArg OpId.mk hu.symm)
  · exact h.op_id ho'

theorem mem_uses_extended (h : p.Coherent) {operands : List ValueId} {v : ValueId} {use : Use}
    (hoperands : o.operands = operands) :
    use ∈ p.usesOf v ++ slots ⟨p.ops.size⟩ v 0 operands ↔
      ∃ o', (if use.user.index = p.ops.size then some o else p.op? use.user) = some o' ∧
        o'.operands[use.operand]? = some v := by
  rw [← hoperands, List.mem_append, h.mem_uses, mem_slots]
  rcases use with ⟨⟨i⟩, k⟩
  by_cases hi : i = p.ops.size
  · subst hi
    have hnone : p.op? ⟨p.ops.size⟩ = none := by simp [op?]
    simp [hnone]
  · simp [hi]

theorem result_extended (h : p.Coherent) {u : OpId} {j : Nat} {v : ValueId}
    (hresults : o.results = []) :
    p.originOf v = some (.result u j) ↔
      ∃ o', (if u.index = p.ops.size then some o else p.op? u) = some o' ∧
        o'.results[j]? = some v := by
  rw [h.result]
  split
  · next hu =>
      have hnone : p.op? u = none := by simp [op?, hu]
      simp [hnone, hresults]
  · rfl

end Extended

/-- Values that keep their types keep them in a list. -/
theorem map_typeOf_congr {q : Program} {vs : List ValueId}
    (hty : ∀ {v}, v.index < p.values.size → q.typeOf v = p.typeOf v)
    (hvs : ∀ v ∈ vs, (p.originOf v).isSome) :
    vs.map q.typeOf = vs.map p.typeOf :=
  List.map_congr_left fun v hv => hty (p.originOf_isSome.1 (hvs v hv))

theorem newOp (h : p.Coherent) {kind : OpKind} {operands : List ValueId}
    (parent : Option OpId)
    (hkind : kind.body? = none)
    (hoperands : ∀ v ∈ operands, (p.originOf v).isSome) :
    (p.newOp kind operands parent).1.Coherent where
  op_id {u o} ho := by
    rw [op?_newOp] at ho
    exact h.op_id_extended rfl ho
  operand {u o} ho v hv := by
    rw [originOf_newOp]
    rw [op?_newOp] at ho
    split at ho
    · cases ho
      exact hoperands v hv
    · exact h.operand ho v hv
  mem_uses {v use} := by
    rw [usesOf_newOp p kind parent hoperands, op?_newOp]
    exact h.mem_uses_extended rfl
  declared {u o} ho := by
    rw [typeOf_newOp]
    rw [op?_newOp] at ho
    split at ho
    · cases ho
      rfl
    · exact h.declared ho
  result {u j v} := by
    rw [originOf_newOp, op?_newOp]
    exact h.result_extended rfl
  arg {a j v} := by
    rw [originOf_newOp, h.arg, op?_newOp]
    split
    · next hu =>
        have hnone : p.op? a = none := by simp [op?, hu]
        simp [hnone, hkind]
    · rfl
  arg_types {u o body} ho hbody := by
    rw [typeOf_newOp]
    rw [op?_newOp] at ho
    split at ho
    · cases ho
      rw [hkind] at hbody
      cases hbody
    · exact h.arg_types ho hbody

theorem newResult (h : p.Coherent) {op : OpId} {o : Operation} (ty : Ty)
    (ho : p.op? op = some o) :
    (p.newResult op ty).1.Coherent := by
  have hold : ∀ {v}, (p.originOf v).isSome → v.index ≠ p.values.size := fun hv =>
    Nat.ne_of_lt (p.originOf_isSome.1 hv)
  have hty : ∀ {v}, v.index < p.values.size → (p.newResult op ty).1.typeOf v = p.typeOf v :=
    fun hv => by rw [typeOf_newResult, if_neg (Nat.ne_of_lt hv)]
  constructor
  case op_id =>
    intro u o' ho'
    rcases op?_newResult_cases ho' with ⟨o'', h'', rfl | ⟨_, rfl⟩⟩ <;>
      exact (h.op_id h'' :)
  case operand =>
    intro u o' ho' v hv
    have hv' : (p.originOf v).isSome := by
      rcases op?_newResult_cases ho' with ⟨o'', h'', rfl | ⟨_, rfl⟩⟩ <;>
        exact (h.operand h'' v hv :)
    rwa [originOf_newResult, if_neg (hold hv')]
  case mem_uses =>
    intro v use
    rw [usesOf_newResult, h.mem_uses, op?_newResult]
    split
    · simp
    · rfl
  case declared =>
    intro u o' ho'
    rcases op?_newResult_cases ho' with ⟨o'', h'', rfl | ⟨_, rfl⟩⟩ <;>
      rw [map_typeOf_congr hty (h.operand h''), h.declared h'']
  case result =>
    intro u j v
    rw [originOf_newResult, op?_newResult]
    by_cases hv : v.index = p.values.size
    · have hnot : ∀ {u : OpId} {o' : Operation} {j : Nat},
          p.op? u = some o' → o'.results[j]? ≠ some v := by
        intro u o' j ho' hj
        exact hold (v := v) (by rw [h.result.2 ⟨o', ho', hj⟩]; rfl) hv
      have hnew : (⟨p.values.size⟩ : ValueId) = v := by cases v; simp_all
      by_cases hu : u = op
      · subst hu
        simp [hv, ho, getElem?_concat_eq_some, hnot ho, hnew]
        exact eq_comm
      · simp only [hv, hu, if_true, if_false, Option.some.injEq, Origin.result.injEq]
        constructor
        · rintro ⟨rfl, _⟩
          exact absurd rfl hu
        · rintro ⟨o', ho', hj⟩
          exact absurd hj (hnot ho')
    · have hnew : (⟨p.values.size⟩ : ValueId) ≠ v := fun he => hv (he ▸ rfl)
      rw [if_neg hv, h.result]
      split
      · simp [getElem?_concat_eq_some, hnew]
      · rfl
  case arg =>
    intro a j v
    rw [originOf_newResult, op?_newResult]
    by_cases hv : v.index = p.values.size
    · have hnot : ¬ ∃ o body, p.op? a = some o ∧ o.kind.body? = some body ∧
          body.args[j]? = some v := by
        rintro ⟨o', body, ho', hbody, hj⟩
        exact hold (v := v) (by rw [h.arg.2 ⟨o', body, ho', hbody, hj⟩]; rfl) hv
      simp only [hv, if_true, Option.some.injEq, reduceCtorEq, false_iff]
      split
      · simpa using hnot
      · exact hnot
    · rw [if_neg hv, h.arg]
      split
      · simp
      · rfl
  case arg_types =>
    intro u o' body ho' hbody
    have hmap : body.args.map p.typeOf = o'.operandTypes := by
      rcases op?_newResult_cases ho' with ⟨o'', h'', rfl | ⟨_, rfl⟩⟩ <;>
        exact (h.arg_types h'' hbody :)
    have hargs : ∀ v ∈ body.args, (p.originOf v).isSome := by
      rcases op?_newResult_cases ho' with ⟨o'', h'', rfl | ⟨_, rfl⟩⟩ <;>
        exact (h.args h'' hbody :)
    rw [map_typeOf_congr hty hargs, hmap]

theorem newResults {op : OpId} (tys : List Ty) :
    ∀ {p : Program} {o : Operation}, p.Coherent → p.op? op = some o →
      (p.newResults op tys).1.Coherent := by
  induction tys with
  | nil => exact fun h _ => h
  | cons ty tys ih => exact fun h ho => ih (h.newResult ty ho) (op?_newResult_self ty ho)

theorem appendToBody (h : p.Coherent) (apply op : OpId) :
    (p.appendToBody apply op).Coherent := by
  constructor
  case op_id =>
    intro u o' ho'
    rcases op?_appendToBody_cases ho' with ⟨o'', h'', rfl | ⟨_, rfl⟩⟩ <;>
      exact (h.op_id h'' :)
  case operand =>
    intro u o' ho' v hv
    rcases op?_appendToBody_cases ho' with ⟨o'', h'', rfl | ⟨_, rfl⟩⟩ <;>
      exact (h.operand h'' v hv :)
  case mem_uses =>
    intro v use
    rw [usesOf_appendToBody, h.mem_uses, op?_appendToBody]
    split
    · simp
    · rfl
  case declared =>
    intro u o' ho'
    rcases op?_appendToBody_cases ho' with ⟨o'', h'', rfl | ⟨_, rfl⟩⟩ <;>
      exact (h.declared h'' :)
  case result =>
    intro u j v
    rw [originOf_appendToBody, h.result, op?_appendToBody]
    split
    · simp
    · rfl
  case arg =>
    intro a j v
    rw [originOf_appendToBody, h.arg, op?_appendToBody]
    split
    · simp [OpKind.body?_appendInner]
    · rfl
  case arg_types =>
    intro u o' body ho' hbody
    rcases op?_appendToBody_cases ho' with ⟨o'', h'', rfl | ⟨_, rfl⟩⟩
    · exact h.arg_types h'' hbody
    · rw [OpKind.body?_appendInner] at hbody
      rcases Option.map_eq_some_iff.1 hbody with ⟨body', hbody', rfl⟩
      have hmap := h.arg_types h'' hbody'
      exact hmap

/-- The arguments of a function stand for nothing in an operation. -/
theorem newArgs (h : p.Coherent) (tys : List Ty) (index : Nat) :
    (p.newArgs none index tys).1.Coherent := by
  have hold : ∀ {v}, (p.originOf v).isSome →
      (p.newArgs none index tys).1.originOf v = p.originOf v := fun hv => by
    rw [originOf_newArgs, if_pos (p.originOf_isSome.1 hv)]
  have hnew : ∀ {v origin}, (p.newArgs none index tys).1.originOf v = some origin →
      p.originOf v = some origin ∨ ∃ j, origin = .arg none j := by
    intro v origin hv
    rw [originOf_newArgs] at hv
    split at hv
    · exact Or.inl hv
    · split at hv
      · cases hv
        exact Or.inr ⟨_, rfl⟩
      · cases hv
  have hty : ∀ {v}, v.index < p.values.size → (p.newArgs none index tys).1.typeOf v = p.typeOf v :=
    fun hv => by rw [typeOf_newArgs, if_pos hv]
  constructor
  case op_id =>
    intro u o ho
    rw [op?_newArgs] at ho
    exact h.op_id ho
  case operand =>
    intro u o ho v hv
    rw [op?_newArgs] at ho
    rw [hold (h.operand ho v hv)]
    exact h.operand ho v hv
  case mem_uses =>
    intro v use
    rw [usesOf_newArgs, op?_newArgs]
    exact h.mem_uses
  case declared =>
    intro u o ho
    rw [op?_newArgs] at ho
    rw [map_typeOf_congr hty (h.operand ho)]
    exact h.declared ho
  case result =>
    intro u j v
    rw [op?_newArgs, ← h.result]
    constructor
    · intro hv
      rcases hnew hv with hv | ⟨_, hv⟩
      · exact hv
      · cases hv
    · intro hv
      rwa [hold (by rw [hv]; rfl)]
  case arg =>
    intro a j v
    rw [op?_newArgs, ← h.arg]
    constructor
    · intro hv
      rcases hnew hv with hv | ⟨_, hv⟩
      · exact hv
      · cases hv
    · intro hv
      rwa [hold (by rw [hv]; rfl)]
  case arg_types =>
    intro u o body ho hbody
    rw [op?_newArgs] at ho
    rw [← h.arg_types ho hbody]
    exact map_typeOf_congr hty (h.args ho hbody)

theorem beginFunction (h : p.Coherent) (name : String) (stencil : Bool) (tys : List Ty) :
    (p.beginFunction name stencil tys).1.Coherent :=
  have h' := h.newArgs tys 0
  ⟨h'.op_id, h'.operand, h'.mem_uses, h'.declared, h'.result, h'.arg, h'.arg_types⟩

theorem openApply (h : p.Coherent) {operands : List ValueId}
    (hoperands : ∀ v ∈ operands, (p.originOf v).isSome) :
    (p.openApply operands).1.Coherent := by
  have hold : ∀ {v}, (p.originOf v).isSome →
      (p.openApply operands).1.originOf v = p.originOf v := fun hv => by
    rw [originOf_openApply, if_pos (p.originOf_isSome.1 hv)]
  have hty : ∀ {v}, v.index < p.values.size → (p.openApply operands).1.typeOf v = p.typeOf v :=
    fun hv => by rw [typeOf_openApply, if_pos hv]
  constructor
  case op_id =>
    intro u o ho
    rw [op?_openApply] at ho
    exact h.op_id_extended rfl ho
  case operand =>
    intro u o ho v hv
    have hv' : (p.originOf v).isSome := by
      rw [op?_openApply] at ho
      split at ho
      · cases ho
        exact hoperands v hv
      · exact h.operand ho v hv
    rwa [hold hv']
  case mem_uses =>
    intro v use
    rw [usesOf_openApply p operands hoperands, op?_openApply]
    exact h.mem_uses_extended rfl
  case declared =>
    intro u o ho
    rw [op?_openApply] at ho
    split at ho
    · cases ho
      exact (map_typeOf_congr hty hoperands).symm
    · rw [map_typeOf_congr hty (h.operand ho)]
      exact h.declared ho
  case result =>
    intro u j v
    have hsame : (p.openApply operands).1.originOf v = some (.result u j) ↔
        p.originOf v = some (.result u j) := by
      constructor
      · intro hv
        rw [originOf_openApply] at hv
        split at hv
        · exact hv
        · split at hv <;> cases hv
      · intro hv
        rwa [hold (by rw [hv]; rfl)]
    rw [hsame, op?_openApply]
    exact h.result_extended rfl
  case arg =>
    intro a j v
    rw [op?_openApply, originOf_openApply]
    by_cases ha : a.index = p.ops.size
    · have hnone : p.op? a = none := by simp [op?, ha]
      have hnot : p.originOf v ≠ some (.arg (some a) j) := by
        intro hv
        rcases h.arg.1 hv with ⟨o, _, ho, _⟩
        rw [hnone] at ho
        cases ho
      have hself : (⟨p.ops.size⟩ : OpId) = a := by cases a; simp_all
      simp only [ha, if_true, Option.some.injEq, exists_and_left, exists_eq_left', OpKind.body?,
        getElem?_openApply_args, hself]
      by_cases hv : v.index < p.values.size
      · simp only [hv, if_true, hnot, false_iff]
        omega
      · simp only [hv, if_false]
        split
        · simp only [Option.some.injEq, Origin.arg.injEq, true_and]
          omega
        · simp only [reduceCtorEq, false_iff]
          omega
    · have hself : (⟨p.ops.size⟩ : OpId) ≠ a := fun he => ha (he ▸ rfl)
      simp only [ha, if_false]
      rw [← h.arg]
      by_cases hv : v.index < p.values.size
      · simp [hv]
      · have hnone : p.originOf v = none := p.originOf_eq_none (Nat.not_lt.1 hv)
        simp only [hv, if_false, hnone]
        split
        · simp [hself]
        · rfl
  case arg_types =>
    intro u o body ho hbody
    rw [op?_openApply] at ho
    split at ho
    · cases ho
      cases hbody
      refine List.ext_getElem? fun j => ?_
      rw [openApply_args, List.map_map, List.getElem?_map, List.getElem?_map]
      by_cases hj : j < operands.length
      · have htop : ¬ p.values.size + j < p.values.size := by omega
        simp [hj, typeOf_openApply, htop]
      · simp [hj]
    · rw [← h.arg_types ho hbody]
      exact map_typeOf_congr hty (h.args ho hbody)

end Coherent
end Program
end StencilShapes
