import StencilShapes.Proofs.Program.Shift
import StencilShapes.Proofs.Program.Calls

/-!
# One program between others

Passes work on all functions at once, in one arena.  A program that mentions nothing but
what it holds is seen between others as it is alone, up to its place, and what is changed
in it there is changed in it alone.

**Results.**
* `Program.between`: one program between others.
* `Program.op?_between`, `Program.typeOf_between`, `Program.usesOf_between`: what is seen.
* `Program.modifyOp_between`, `Program.setType_between`: what is changed.
-/

namespace StencilShapes
namespace Program

/-- A program that mentions only what it holds, whatever bounds and types are given to it. -/
def Closed (q : Program) : Prop :=
  ∀ q', q.SameFrame q' → q'.InRange

theorem Closed.of_sameFrame {q q' : Program} (h : q.Closed) (hframe : q.SameFrame q') :
    q'.Closed :=
  fun q'' hframe' => h q'' (hframe.trans hframe')

theorem Closed.inRange {q : Program} (h : q.Closed) : q.InRange :=
  h q (SameFrame.refl q)

theorem isSome_op? {p : Program} {u : OpId} : (p.op? u).isSome ↔ u.index < p.ops.size := by
  simp [op?]

theorem isSome_value? {p : Program} {v : ValueId} :
    (p.value? v).isSome ↔ v.index < p.values.size := by
  simp [value?]

theorem SameFrame.op?_isSome {p q : Program} (h : p.SameFrame q) (u : OpId) :
    (q.op? u).isSome = (p.op? u).isSome := by
  have hu := congrArg Option.isSome (h.op u)
  rwa [Option.isSome_map, Option.isSome_map] at hu

theorem SameFrame.value?_isSome {p q : Program} (h : p.SameFrame q) (v : ValueId) :
    (q.value? v).isSome = (p.value? v).isSome := by
  have hv := congrArg Option.isSome (congrFun h.origin v)
  rwa [originOf, originOf, Option.isSome_map, Option.isSome_map] at hv

/-- Bounds and types take no room. -/
theorem SameFrame.supply {p q : Program} (h : p.SameFrame q) : q.supply = p.supply := by
  have heq : ∀ {m n : Nat}, (∀ i, i < m ↔ i < n) → m = n := fun {m n} h => by
    have hm := h m
    have hn := h n
    omega
  have hops : q.ops.size = p.ops.size := heq fun i =>
    isSome_op?.symm.trans ((Bool.eq_iff_iff.1 (h.op?_isSome ⟨i⟩)).trans isSome_op?)
  have hvalues : q.values.size = p.values.size := heq fun i =>
    isSome_value?.symm.trans ((Bool.eq_iff_iff.1 (h.value?_isSome ⟨i⟩)).trans isSome_value?)
  rw [q.supply_eq, p.supply_eq, hops, hvalues]

theorem SameFrame.after {p q : Program} (h : p.SameFrame q) (s : IdSupply) :
    s.after q = s.after p := by
  rw [IdSupply.after, IdSupply.after, ← q.nextOp_eq, ← q.nextValue_eq, h.supply, p.nextOp_eq,
    p.nextValue_eq]

/-- The program `q` behind `p`, and `r` behind both. -/
def between (p r q : Program) : Program :=
  (p.join q).extend r

section Extended

variable {p : Program} (r : Program)

theorem op?_extend {u : OpId} (hu : (p.op? u).isSome) : (p.extend r).op? u = p.op? u :=
  Array.getElem?_append_left (isSome_op?.1 hu)

theorem value?_extend {v : ValueId} (hv : (p.value? v).isSome) :
    (p.extend r).value? v = p.value? v :=
  Array.getElem?_append_left (isSome_value?.1 hv)

theorem modify_append_left {α : Type} {a b : Array α} {i : Nat} (f : α → α) (hi : i < a.size) :
    (a ++ b).modify i f = a.modify i f ++ b := by
  refine Array.ext_getElem? fun j => ?_
  simp only [Array.getElem?_modify, Array.getElem?_append, Array.size_modify]
  grind

end Extended

section Views

variable (p r : Program) {q : Program}

theorem op?_between {u : OpId} (hu : (q.op? u).isSome) :
    (between p r q).op? (u.shift p.supply) = (q.op? u).map (Operation.shift p.supply) := by
  rw [between, op?_extend, op?_join]
  rw [op?_join, Option.isSome_map]
  exact hu

theorem value?_between {v : ValueId} (hv : (q.value? v).isSome) :
    (between p r q).value? (v.shift p.supply) = (q.value? v).map (Value.shift p.supply) := by
  rw [between, value?_extend, value?_join]
  rw [value?_join, Option.isSome_map]
  exact hv

theorem typeOf_between {v : ValueId} (hv : (q.value? v).isSome) :
    (between p r q).typeOf (v.shift p.supply) = q.typeOf v := by
  rw [typeOf, typeOf, value?_between p r hv]
  cases q.value? v <;> rfl

theorem usesOf_between {v : ValueId} (hv : (q.value? v).isSome) :
    (between p r q).usesOf (v.shift p.supply) = (q.usesOf v).map (Use.shift p.supply) := by
  rw [usesOf, usesOf, value?_between p r hv]
  cases q.value? v <;> rfl

theorem opsAt_between {us : List OpId} (hus : ∀ u ∈ us, (q.op? u).isSome) :
    (between p r q).opsAt (us.map (OpId.shift p.supply)) =
      (q.opsAt us).map (Operation.shift p.supply) := by
  rw [opsAt, opsAt, List.filterMap_map, List.map_filterMap]
  exact List.filterMap_congr fun u hu => op?_between p r (hus u hu)

/-- What is in the body of an operation is there. -/
theorem InRange.isSome_op?_body (h : q.InRange) {u : OpId} {o : Operation}
    (ho : q.op? u = some o) :
    ∀ x ∈ o.kind.body?.elim [] Block.ops, (q.op? x).isSome := by
  have hbody : q.opsIn (.body u) = o.kind.body?.elim [] Block.ops := by
    rw [opsIn, bodyOps_eq ho]
  exact hbody ▸ h.block (.body u)

/-- What is in a function is there. -/
theorem InRange.isSome_op?_function (h : q.InRange) {f : Function}
    (hf : f ∈ q.functions.toList) :
    ∀ u ∈ f.body, (q.op? u).isSome := by
  intro u hu
  obtain ⟨k, hk⟩ := List.getElem?_of_mem hf
  exact h.block (.entry k) u (mem_opsIn_entry.2 ⟨f, hk, hu⟩)

theorem walk_between (hq : q.InRange) {us : List OpId} (hus : ∀ u ∈ us, (q.op? u).isSome) :
    (between p r q).walk (us.map (OpId.shift p.supply)) =
      (q.walk us).map (Operation.shift p.supply) := by
  rw [walk, walk, opsAt_between p r hus, List.flatMap_map, List.map_flatMap]
  refine List.flatMap_congr fun o ho => ?_
  obtain ⟨u, _, ho⟩ := List.mem_filterMap.1 ho
  have hbody := opsAt_between p r (hq.isSome_op?_body ho)
  rw [List.map_cons, ← hbody, Operation.shift, OpKind.body?_shift]
  cases o.kind.body? <;> rfl

theorem terminator?_between (hq : q.InRange) {u : OpId} {o : Operation} (ho : q.op? u = some o) :
    (between p r q).terminator? (o.shift p.supply) =
      (q.terminator? o).map (Operation.shift p.supply) := by
  have hbody := hq.isSome_op?_body ho
  simp only [terminator?, Operation.shift, OpKind.body?_shift]
  cases h : o.kind.body? with
  | none => rfl
  | some body =>
      rw [h] at hbody
      simp only [Option.map_some, Option.bind_some, Block.shift, List.getLast?_map]
      cases hlast : body.ops.getLast? with
      | none => rfl
      | some x => exact op?_between p r (hbody x (List.mem_of_getLast? hlast))

end Views

section Changes

variable (p r : Program) {q : Program}

theorem modifyOp_between {f g : Operation → Operation}
    (hc : ∀ o : Operation, g (o.shift p.supply) = (f o).shift p.supply)
    {u : OpId} (hu : (q.op? u).isSome) :
    (between p r q).modifyOp (u.shift p.supply) g = between p r (q.modifyOp u f) := by
  have hlt : (u.shift p.supply).index < (p.join q).ops.size := by
    rw [← isSome_op?, op?_join, Option.isSome_map]
    exact hu
  refine Eq.trans ?_ (congrArg (extend · r) (modifyOp_join p q hc u))
  exact ext rfl (modify_append_left g hlt) rfl

theorem setType_between {v : ValueId} (hv : (q.value? v).isSome) (ty : Ty) :
    (between p r q).setType (v.shift p.supply) ty = between p r (q.setType v ty) := by
  have hlt : (v.shift p.supply).index < (p.join q).values.size := by
    rw [← isSome_value?, value?_join, Option.isSome_map]
    exact hv
  have hjoin : (p.join q).setType (v.shift p.supply) ty = p.join (q.setType v ty) := by
    refine ext rfl rfl ?_
    simp only [setType, modifyValue, join, extend, shift, ValueId.shift, p.nextValue_eq]
    exact (modify_append_right _ _ _ _).trans
      (congrArg _ (modify_map_comm (g := fun w : Value => { w with ty }) (fun _ => rfl) _ _))
  refine Eq.trans ?_ (congrArg (extend · r) hjoin)
  refine ext rfl rfl ?_
  simp only [setType, modifyValue, between, extend]
  exact modify_append_left _ hlt

end Changes
end Program
end StencilShapes
