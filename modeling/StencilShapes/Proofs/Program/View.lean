import StencilShapes.Program.Build

/-!
# Views of a growing program

A program is read through five views: the operation at a position, the origin,
the type and the uses of a value, and the functions.  This module says what each
call that grows a program does to these views, so that later proofs need not
look into the arenas.

**Results.**
* `Program.op?_newOp`, `Program.usesOf_newOp`: a new operation is seen at the end
  of its arena and in the use lists of its operands, and nowhere else.
* `Program.originOf_newArgs`: new arguments are numbered densely.
-/

namespace StencilShapes
namespace Program

/-- Where a value comes from, if there is such a value. -/
def originOf (p : Program) (v : ValueId) : Option Origin :=
  (p.value? v).map Value.origin

/-- The box of an operation, once it is known. -/
def boundsOf (p : Program) (u : OpId) : Option Bounds :=
  (p.op? u).bind (·.kind.bounds?)

/-- The operands of `user`, numbered from `index` on, that are the value `v`. -/
def slots (user : OpId) (v : ValueId) (index : Nat) : List ValueId → List Use
  | [] => []
  | w :: ws =>
      if w = v then { user, operand := index } :: slots user v (index + 1) ws
      else slots user v (index + 1) ws

theorem mem_slots
    {user : OpId} {v : ValueId} {use : Use} {ws : List ValueId} {index : Nat} :
    use ∈ slots user v index ws ↔
      use.user = user ∧ ∃ i, use.operand = index + i ∧ ws[i]? = some v := by
  induction ws generalizing index with
  | nil => simp [slots]
  | cons w ws ih =>
      have hshift :
          (∃ i, use.operand = index + i ∧ (w :: ws)[i]? = some v) ↔
            (use.operand = index ∧ w = v) ∨
              ∃ i, use.operand = index + 1 + i ∧ ws[i]? = some v := by
        constructor
        · rintro ⟨i, hi, hw⟩
          cases i with
          | zero => exact Or.inl ⟨by simpa using hi, by simpa using hw⟩
          | succ i => exact Or.inr ⟨i, by omega, by simpa using hw⟩
        · rintro (⟨hi, hw⟩ | ⟨i, hi, hw⟩)
          · exact ⟨0, by simpa using hi, by simpa using hw⟩
          · exact ⟨i + 1, by omega, by simpa using hw⟩
      rw [hshift]
      by_cases h : w = v
      · rcases use with ⟨user', operand'⟩
        simp only [slots, h, if_true, List.mem_cons, ih, Use.mk.injEq, and_true, and_or_left]
      · simp only [slots, h, if_false, ih, and_false, false_or]

theorem slots_eq_nil
    {user : OpId} {v : ValueId} {index : Nat} {ws : List ValueId}
    (h : v ∉ ws) :
    slots user v index ws = [] := by
  refine List.eq_nil_iff_forall_not_mem.2 fun use huse => ?_
  rcases mem_slots.1 huse with ⟨_, i, _, hi⟩
  exact h (List.mem_of_getElem? hi)

section Supply

variable (p : Program)

/-- A program is known by its functions and its arenas; the supply goes with these. -/
theorem ext {p q : Program} (hfunctions : p.functions = q.functions) (hops : p.ops = q.ops)
    (hvalues : p.values = q.values) : p = q := by
  rcases p with ⟨functions, ops, values, ⟨nextOp, nextValue⟩, hop, hvalue⟩
  rcases q with ⟨functions', ops', values', ⟨nextOp', nextValue'⟩, hop', hvalue'⟩
  obtain rfl : functions = functions' := hfunctions
  obtain rfl : ops = ops' := hops
  obtain rfl : values = values' := hvalues
  obtain rfl : nextOp = nextOp' := hop.trans hop'.symm
  obtain rfl : nextValue = nextValue' := hvalue.trans hvalue'.symm
  rfl

/-- The supply is in step with the arenas. -/
theorem supply_eq : p.supply = { nextOp := p.ops.size, nextValue := p.values.size } := by
  rw [← p.nextOp_eq, ← p.nextValue_eq]

/-- The next operation is given the position at which it will stand. -/
@[simp] theorem takeOp_supply : p.supply.takeOp.1 = ⟨p.ops.size⟩ :=
  congrArg OpId.mk p.nextOp_eq

/-- The next value is given the position at which it will stand. -/
@[simp] theorem takeValue_supply : p.supply.takeValue.1 = ⟨p.values.size⟩ :=
  congrArg ValueId.mk p.nextValue_eq

end Supply

section Values

variable (p : Program)

@[simp] theorem newValue_snd (ty : Ty) (origin : Origin) :
    (p.newValue ty origin).2 = ⟨p.values.size⟩ :=
  p.takeValue_supply

theorem originOf_isSome {v : ValueId} :
    (p.originOf v).isSome ↔ v.index < p.values.size := by
  simp [originOf, value?]

theorem originOf_eq_none {v : ValueId} (h : p.values.size ≤ v.index) :
    p.originOf v = none := by
  simp [originOf, value?, h]

@[simp] theorem op?_newValue (ty : Ty) (origin : Origin) (u : OpId) :
    (p.newValue ty origin).1.op? u = p.op? u :=
  rfl

theorem originOf_newValue (ty : Ty) (origin : Origin) (v : ValueId) :
    (p.newValue ty origin).1.originOf v =
      if v.index = p.values.size then some origin else p.originOf v := by
  simp only [newValue, originOf, value?, Array.getElem?_push]
  split <;> simp

theorem typeOf_newValue (ty : Ty) (origin : Origin) (v : ValueId) :
    (p.newValue ty origin).1.typeOf v =
      if v.index = p.values.size then ty else p.typeOf v := by
  simp only [newValue, typeOf, value?, Array.getElem?_push]
  split <;> simp

@[simp] theorem usesOf_newValue (ty : Ty) (origin : Origin) (v : ValueId) :
    (p.newValue ty origin).1.usesOf v = p.usesOf v := by
  simp only [newValue, usesOf, value?, Array.getElem?_push]
  split
  · next h => simp [h]
  · rfl

theorem size_newValue (ty : Ty) (origin : Origin) :
    (p.newValue ty origin).1.values.size = p.values.size + 1 := by
  simp [newValue]

end Values

section Operations

variable (p : Program)

theorem getElem?_addUses (user : OpId) (vs : List ValueId) :
    ∀ (values : Array Value) (index i : Nat),
      (addUses values user index vs)[i]? =
        values[i]?.map fun w => { w with uses := w.uses ++ slots user ⟨i⟩ index vs } := by
  induction vs with
  | nil => simp [addUses, slots]
  | cons v vs ih =>
      intro values index i
      rcases v with ⟨k⟩
      rw [addUses, ih, Array.getElem?_modify]
      by_cases h : k = i
      · simp only [h, slots, if_true, Option.map_map]
        congr 1
        funext w
        simp
      · simp [slots, h]

theorem op?_newOp
    (kind : OpKind) (operands : List ValueId) (parent : Option OpId) (u : OpId) :
    (p.newOp kind operands parent).1.op? u =
      if u.index = p.ops.size then
        some
          { id := ⟨p.ops.size⟩, kind, operands, operandTypes := operands.map p.typeOf,
            results := [], parent }
      else p.op? u := by
  simp [newOp, op?, Array.getElem?_push]

theorem op?_newOp_self (kind : OpKind) (operands : List ValueId) (parent : Option OpId) :
    (p.newOp kind operands parent).1.op? ⟨p.ops.size⟩ =
      some
        { id := ⟨p.ops.size⟩, kind, operands, operandTypes := operands.map p.typeOf,
          results := [], parent } :=
  (p.op?_newOp kind operands parent _).trans (if_pos rfl)

@[simp] theorem newOp_snd
    (kind : OpKind) (operands : List ValueId) (parent : Option OpId) :
    (p.newOp kind operands parent).2 = ⟨p.ops.size⟩ :=
  p.takeOp_supply

theorem value?_newOp
    (kind : OpKind) (operands : List ValueId) (parent : Option OpId) (v : ValueId) :
    (p.newOp kind operands parent).1.value? v =
      (p.value? v).map fun w => { w with uses := w.uses ++ slots ⟨p.ops.size⟩ v 0 operands } := by
  rw [← p.takeOp_supply]
  exact getElem?_addUses p.supply.takeOp.1 operands p.values 0 v.index

@[simp] theorem originOf_newOp
    (kind : OpKind) (operands : List ValueId) (parent : Option OpId) (v : ValueId) :
    (p.newOp kind operands parent).1.originOf v = p.originOf v := by
  simp [originOf, value?_newOp, Function.comp_def]

@[simp] theorem typeOf_newOp
    (kind : OpKind) (operands : List ValueId) (parent : Option OpId) :
    (p.newOp kind operands parent).1.typeOf = p.typeOf := by
  funext v
  simp only [typeOf, value?_newOp]
  cases p.value? v <;> rfl

/-- The use lists grow by the operands of a new operation. -/
theorem usesOf_newOp
    (kind : OpKind) {operands : List ValueId} (parent : Option OpId)
    (h : ∀ v ∈ operands, (p.originOf v).isSome) (v : ValueId) :
    (p.newOp kind operands parent).1.usesOf v =
      p.usesOf v ++ slots ⟨p.ops.size⟩ v 0 operands := by
  simp only [usesOf, value?_newOp]
  cases hv : p.value? v with
  | none =>
      have hout : v ∉ operands := by
        intro hmem
        simpa [originOf, hv] using h v hmem
      simp [slots_eq_nil hout]
  | some w => rfl

@[simp] theorem size_values_newOp
    (kind : OpKind) (operands : List ValueId) (parent : Option OpId) :
    (p.newOp kind operands parent).1.values.size = p.values.size :=
  size_addUses _ _ _ _

end Operations

end Program

/-- The kind of an apply with one more operation in its body. -/
def OpKind.appendInner (op : OpId) : OpKind → OpKind
  | .apply bounds body => .apply bounds { body with ops := body.ops ++ [op] }
  | k => k

namespace OpKind

@[simp] theorem isShaped_appendInner (op : OpId) (k : OpKind) :
    (k.appendInner op).isShaped = k.isShaped := by
  cases k <;> rfl

@[simp] theorem isInferable_appendInner (op : OpId) (k : OpKind) :
    (k.appendInner op).isInferable = k.isInferable := by
  cases k <;> rfl

@[simp] theorem bounds?_appendInner (op : OpId) (k : OpKind) :
    (k.appendInner op).bounds? = k.bounds? := by
  cases k <;> rfl

theorem body?_appendInner (op : OpId) (k : OpKind) :
    (k.appendInner op).body? =
      k.body?.map fun body => { body with ops := body.ops ++ [op] } := by
  cases k <;> rfl

end OpKind

namespace Program

section Blocks

variable (p : Program)

@[simp] theorem op?_append (op u : OpId) : (p.append op).op? u = p.op? u :=
  rfl

@[simp] theorem originOf_append (op : OpId) (v : ValueId) :
    (p.append op).originOf v = p.originOf v :=
  rfl

@[simp] theorem typeOf_append (op : OpId) (v : ValueId) :
    (p.append op).typeOf v = p.typeOf v :=
  rfl

@[simp] theorem usesOf_append (op : OpId) (v : ValueId) :
    (p.append op).usesOf v = p.usesOf v :=
  rfl

/-- An operation joins the function begun last. -/
theorem toList_functions_append
    {p : Program} {fs : List Function} {f : Function} (op : OpId)
    (h : p.functions.toList = fs ++ [f]) :
    (p.append op).functions.toList = fs ++ [{ f with body := f.body ++ [op] }] := by
  have hsize : p.functions.size - 1 = fs.length + 0 := by
    rw [← Array.length_toList, h]
    simp
  simp only [append, Array.toList_modify, h, hsize]
  exact List.modifyTailIdx_add _ 0 fs [f]

/-- A change of one item is not seen by what sees no change of any. -/
theorem map_modify_eq {α β : Type} {view : α → β} {f : α → α}
    (l : List α) (i : Nat) (h : ∀ a, view (f a) = view a) :
    (l.modify i f).map view = l.map view := by
  refine List.ext_getElem? fun j => ?_
  rw [List.getElem?_map, List.getElem?_modify, List.getElem?_map]
  cases l[j]? with
  | none => rfl
  | some a =>
      refine congrArg some ?_
      split
      · exact h a
      · rfl

theorem map_args_append (op : OpId) :
    (p.append op).functions.toList.map Function.args = p.functions.toList.map Function.args := by
  rw [append, Array.toList_modify]
  exact map_modify_eq _ _ fun _ => rfl

theorem map_args_setStencil (function : Nat) (stencil : Bool) :
    (p.setStencil function stencil).functions.toList.map Function.args =
      p.functions.toList.map Function.args := by
  rw [setStencil, Array.toList_modify]
  exact map_modify_eq _ _ fun _ => rfl

theorem op?_modifyOp (op u : OpId) (f : Operation → Operation) :
    (p.modifyOp op f).op? u =
      if u = op then (p.op? u).map f else p.op? u := by
  rcases op with ⟨i⟩
  rcases u with ⟨j⟩
  simp [modifyOp, op?, Array.getElem?_modify, eq_comm]

theorem value?_modifyValue (v w : ValueId) (f : Value → Value) :
    (p.modifyValue v f).value? w =
      if w = v then (p.value? w).map f else p.value? w := by
  rcases v with ⟨i⟩
  rcases w with ⟨j⟩
  simp [modifyValue, value?, Array.getElem?_modify, eq_comm]

/-- Where one operation is changed, each operation is the old one or the changed one. -/
theorem exists_of_ite_map {u a : OpId} {o : Operation} {f : Operation → Operation}
    {before : Option Operation}
    (h : (if u = a then before.map f else before) = some o) :
    ∃ o', before = some o' ∧ (o = o' ∨ u = a ∧ o = f o') := by
  split at h
  · next hu =>
      obtain ⟨o', ho', rfl⟩ := Option.map_eq_some_iff.1 h
      exact ⟨o', ho', Or.inr ⟨hu, rfl⟩⟩
  · exact ⟨o, h, Or.inl rfl⟩

/-- Only the apply changes when an operation joins its body. -/
theorem op?_appendToBody (apply op u : OpId) :
    (p.appendToBody apply op).op? u =
      if u = apply then (p.op? u).map fun o => { o with kind := o.kind.appendInner op }
      else p.op? u := by
  rw [appendToBody, op?_modifyOp]
  congr 2
  funext ⟨_, kind, _, _, _, _⟩
  cases kind <;> rfl

/-- An operation after the step is one from before, up to the body of the apply. -/
theorem op?_appendToBody_cases
    {p : Program} {apply op u : OpId} {o : Operation}
    (h : (p.appendToBody apply op).op? u = some o) :
    ∃ o', p.op? u = some o' ∧
      (o = o' ∨ u = apply ∧ o = { o' with kind := o'.kind.appendInner op }) :=
  exists_of_ite_map ((p.op?_appendToBody apply op u).symm.trans h)

@[simp] theorem originOf_appendToBody (apply op : OpId) (v : ValueId) :
    (p.appendToBody apply op).originOf v = p.originOf v :=
  rfl

@[simp] theorem typeOf_appendToBody (apply op : OpId) (v : ValueId) :
    (p.appendToBody apply op).typeOf v = p.typeOf v :=
  rfl

@[simp] theorem usesOf_appendToBody (apply op : OpId) (v : ValueId) :
    (p.appendToBody apply op).usesOf v = p.usesOf v :=
  rfl

theorem op?_newResult (op u : OpId) (ty : Ty) :
    (p.newResult op ty).1.op? u =
      if u = op then
        (p.op? u).map fun o => { o with results := o.results ++ [⟨p.values.size⟩] }
      else p.op? u := by
  rw [← p.takeValue_supply]
  exact op?_modifyOp (p.newValue ty (.result op ((p.op? op).elim 0 (·.results.length)))).1 op u _

/-- An operation after the step is one from before, up to its results. -/
theorem op?_newResult_cases
    {p : Program} {op u : OpId} {ty : Ty} {o : Operation}
    (h : (p.newResult op ty).1.op? u = some o) :
    ∃ o', p.op? u = some o' ∧
      (o = o' ∨ u = op ∧ o = { o' with results := o'.results ++ [⟨p.values.size⟩] }) :=
  exists_of_ite_map ((p.op?_newResult op u ty).symm.trans h)

@[simp] theorem newResult_snd (op : OpId) (ty : Ty) :
    (p.newResult op ty).2 = ⟨p.values.size⟩ :=
  p.takeValue_supply

theorem originOf_newResult (op : OpId) (ty : Ty) (v : ValueId) :
    (p.newResult op ty).1.originOf v =
      if v.index = p.values.size then
        some (.result op ((p.op? op).elim 0 (·.results.length)))
      else p.originOf v :=
  p.originOf_newValue ty _ v

theorem typeOf_newResult (op : OpId) (ty : Ty) (v : ValueId) :
    (p.newResult op ty).1.typeOf v =
      if v.index = p.values.size then ty else p.typeOf v :=
  p.typeOf_newValue ty _ v

@[simp] theorem usesOf_newResult (op : OpId) (ty : Ty) (v : ValueId) :
    (p.newResult op ty).1.usesOf v = p.usesOf v :=
  p.usesOf_newValue ty _ v

end Blocks

section Results

variable {u x : OpId}

theorem op?_newResult_self {p : Program} {o : Operation} (ty : Ty) (ho : p.op? u = some o) :
    (p.newResult u ty).1.op? u = some { o with results := o.results ++ [⟨p.values.size⟩] } := by
  rw [op?_newResult, if_pos rfl, ho]
  rfl

theorem op?_newResult_of_ne {p : Program} (ty : Ty) (hx : x ≠ u) :
    (p.newResult u ty).1.op? x = p.op? x := by
  rw [op?_newResult, if_neg hx]

/-- The results of an operation grow by the new ones. -/
theorem op?_newResults_self (tys : List Ty) :
    ∀ {p : Program} {o : Operation}, p.op? u = some o →
      (p.newResults u tys).1.op? u =
        some { o with results := o.results ++ (p.newResults u tys).2 } := by
  induction tys with
  | nil =>
      intro p o ho
      simpa [newResults] using ho
  | cons ty tys ih =>
      intro p o ho
      have hrest := ih (op?_newResult_self ty ho)
      simpa [newResults] using hrest

/-- Several results change the results of their operation only. -/
theorem exists_op?_newResults (tys : List Ty) {p : Program} {o : Operation}
    (ho : p.op? u = some o) :
    ∃ results, (p.newResults u tys).1.op? u = some { o with results } :=
  ⟨_, op?_newResults_self tys ho⟩

theorem op?_newResults_of_ne (tys : List Ty) (hx : x ≠ u) :
    ∀ p : Program, (p.newResults u tys).1.op? x = p.op? x := by
  induction tys with
  | nil => exact fun _ => rfl
  | cons ty tys ih => exact fun p => (ih (p.newResult u ty).1).trans (op?_newResult_of_ne ty hx)

/-- New results change nothing else of any operation. -/
theorem map_op?_newResults {α : Type} {view : Operation → α}
    (hview : ∀ o results, view { o with results } = view o) (tys : List Ty) :
    ∀ p : Program, ((p.newResults u tys).1.op? x).map view = (p.op? x).map view := by
  induction tys with
  | nil => exact fun _ => rfl
  | cons ty tys ih =>
      intro p
      refine (ih (p.newResult u ty).1).trans ?_
      rw [op?_newResult]
      split
      · cases p.op? x with
        | none => rfl
        | some o => exact congrArg some (hview o _)
      · rfl

theorem functions_newResults (op : OpId) (tys : List Ty) :
    ∀ p : Program, (p.newResults op tys).1.functions = p.functions := by
  induction tys with
  | nil => exact fun _ => rfl
  | cons ty tys ih => exact fun p => ih (p.newResult op ty).1

theorem size_newResults (op : OpId) (tys : List Ty) :
    ∀ p : Program, (p.newResults op tys).1.values.size = p.values.size + tys.length := by
  induction tys with
  | nil => exact fun _ => rfl
  | cons ty tys ih =>
      intro p
      have hone : (p.newResult op ty).1.values.size = p.values.size + 1 := size_newValue _ _ _
      refine (ih (p.newResult op ty).1).trans ?_
      rw [hone, List.length_cons]
      omega

theorem newResults_one (p : Program) (op : OpId) (ty : Ty) :
    (p.newResults op [ty]).2 = [⟨p.values.size⟩] := by
  simp [newResults]

theorem length_newResults (op : OpId) (tys : List Ty) :
    ∀ p : Program, (p.newResults op tys).2.length = tys.length := by
  induction tys with
  | nil => exact fun _ => rfl
  | cons ty tys ih => exact fun p => congrArg (· + 1) (ih (p.newResult op ty).1)

end Results

section Arguments

/-- New arguments come behind all values and are numbered densely. -/
theorem newArgs_snd (owner : Option OpId) (tys : List Ty) :
    ∀ (p : Program) (index : Nat),
      (p.newArgs owner index tys).2 =
        (List.range tys.length).map fun i => ⟨p.values.size + i⟩ := by
  induction tys with
  | nil => simp [newArgs]
  | cons ty tys ih =>
      intro p index
      simp only [newArgs, ih, size_newValue, newValue_snd, List.length_cons,
        List.range_succ_eq_map, List.map_cons, List.map_map, Nat.add_zero]
      congr 1
      refine List.map_congr_left fun i _ => ?_
      simp only [Function.comp_apply, ValueId.mk.injEq]
      omega

theorem op?_newArgs (owner : Option OpId) (tys : List Ty) (u : OpId) :
    ∀ (p : Program) (index : Nat), (p.newArgs owner index tys).1.op? u = p.op? u := by
  induction tys with
  | nil => simp [newArgs]
  | cons ty tys ih =>
      intro p index
      simp [newArgs, ih]

theorem functions_newArgs (owner : Option OpId) (tys : List Ty) :
    ∀ (p : Program) (index : Nat), (p.newArgs owner index tys).1.functions = p.functions := by
  induction tys with
  | nil => simp [newArgs]
  | cons ty tys ih =>
      intro p index
      simp only [newArgs, ih]
      rfl

theorem usesOf_newArgs (owner : Option OpId) (tys : List Ty) (v : ValueId) :
    ∀ (p : Program) (index : Nat),
      (p.newArgs owner index tys).1.usesOf v = p.usesOf v := by
  induction tys with
  | nil => simp [newArgs]
  | cons ty tys ih =>
      intro p index
      simp [newArgs, ih]

theorem originOf_newArgs (owner : Option OpId) (tys : List Ty) (v : ValueId) :
    ∀ (p : Program) (index : Nat),
      (p.newArgs owner index tys).1.originOf v =
        if v.index < p.values.size then p.originOf v
        else if v.index < p.values.size + tys.length then
          some (.arg owner (index + (v.index - p.values.size)))
        else none := by
  induction tys with
  | nil =>
      intro p index
      by_cases h : v.index < p.values.size
      · simp [newArgs, h]
      · simp [newArgs, h, p.originOf_eq_none (Nat.not_lt.1 h)]
  | cons ty tys ih =>
      intro p index
      simp only [newArgs, ih, size_newValue, originOf_newValue, List.length_cons]
      rcases Nat.lt_trichotomy v.index p.values.size with h | h | h
      · simp [h, Nat.lt_succ_of_lt h, Nat.ne_of_lt h]
      · simp [h]
      · have hlow : ¬ v.index < p.values.size := by omega
        have hlow' : ¬ v.index < p.values.size + 1 := by omega
        have hnum :
            index + 1 + (v.index - (p.values.size + 1)) = index + (v.index - p.values.size) := by
          omega
        simp only [hlow, hlow', if_false, hnum, Nat.add_assoc, Nat.add_comm 1]

theorem typeOf_newArgs (owner : Option OpId) (tys : List Ty) (v : ValueId) :
    ∀ (p : Program) (index : Nat),
      (p.newArgs owner index tys).1.typeOf v =
        if v.index < p.values.size then p.typeOf v
        else (tys[v.index - p.values.size]?).getD default := by
  induction tys with
  | nil =>
      intro p index
      by_cases h : v.index < p.values.size
      · simp [newArgs, h]
      · simp [newArgs, h, typeOf, value?]
  | cons ty tys ih =>
      intro p index
      simp only [newArgs, ih, size_newValue, typeOf_newValue]
      rcases Nat.lt_trichotomy v.index p.values.size with h | h | h
      · simp [h, Nat.lt_succ_of_lt h, Nat.ne_of_lt h]
      · simp [h]
      · have hs : v.index - p.values.size = v.index - (p.values.size + 1) + 1 := by omega
        rw [if_neg (by omega), if_neg (by omega), hs, List.getElem?_cons_succ]

end Arguments

section Applies

variable (p : Program) (operands : List ValueId)

/-- The new operation comes at the end of the arena. -/
theorem openApply_eq :
    p.openApply operands =
      let q := (p.newOp (.apply none { args := [], ops := [] }) operands none).1
      let r := q.newArgs (some ⟨p.ops.size⟩) 0 (operands.map p.typeOf)
      (r.1.modifyOp ⟨p.ops.size⟩ fun o => { o with kind := .apply none { args := r.2, ops := [] } },
        ⟨p.ops.size⟩, r.2) := by
  simp only [openApply, newOp_snd]

@[simp] theorem openApply_op : (p.openApply operands).2.1 = ⟨p.ops.size⟩ :=
  p.takeOp_supply

theorem openApply_args :
    (p.openApply operands).2.2 =
      (List.range operands.length).map fun i => ⟨p.values.size + i⟩ := by
  simp [openApply, newArgs_snd]

theorem getElem?_openApply_args {j : Nat} {v : ValueId} :
    (p.openApply operands).2.2[j]? = some v ↔
      j < operands.length ∧ v.index = p.values.size + j := by
  rcases v with ⟨k⟩
  rw [openApply_args, List.getElem?_map]
  by_cases h : j < operands.length
  · simp [h, eq_comm]
  · simp [h]

theorem functions_openApply : (p.openApply operands).1.functions = p.functions := by
  simp only [openApply, modifyOp, functions_newArgs]
  rfl

/-- An open apply has a body without operations, and no results. -/
theorem op?_openApply (u : OpId) :
    (p.openApply operands).1.op? u =
      if u.index = p.ops.size then
        some
          { id := ⟨p.ops.size⟩
            kind := .apply none { args := (p.openApply operands).2.2, ops := [] }
            operands, operandTypes := operands.map p.typeOf, results := [], parent := none }
      else p.op? u := by
  rw [openApply_eq, op?_modifyOp]
  rcases u with ⟨i⟩
  simp only [op?_newArgs, OpId.mk.injEq, op?_newOp]
  split
  · rfl
  · rfl

theorem usesOf_openApply
    (h : ∀ v ∈ operands, (p.originOf v).isSome) (v : ValueId) :
    (p.openApply operands).1.usesOf v =
      p.usesOf v ++ slots ⟨p.ops.size⟩ v 0 operands := by
  rw [← p.usesOf_newOp (.apply none { args := [], ops := [] }) none h, openApply_eq]
  exact usesOf_newArgs _ _ v _ 0

theorem originOf_openApply (v : ValueId) :
    (p.openApply operands).1.originOf v =
      if v.index < p.values.size then p.originOf v
      else if v.index < p.values.size + operands.length then
        some (.arg (some ⟨p.ops.size⟩) (v.index - p.values.size))
      else none := by
  let q := (p.newOp (.apply none { args := [], ops := [] }) operands none).1
  rw [openApply_eq]
  refine (originOf_newArgs (some ⟨p.ops.size⟩) (operands.map p.typeOf) v q 0).trans ?_
  simp [q]

theorem typeOf_openApply (v : ValueId) :
    (p.openApply operands).1.typeOf v =
      if v.index < p.values.size then p.typeOf v
      else ((operands.map p.typeOf)[v.index - p.values.size]?).getD default := by
  let q := (p.newOp (.apply none { args := [], ops := [] }) operands none).1
  rw [openApply_eq]
  refine (typeOf_newArgs (some ⟨p.ops.size⟩) (operands.map p.typeOf) v q 0).trans ?_
  simp [q]

end Applies

end Program
end StencilShapes
