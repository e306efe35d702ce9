import StencilShapes.Proofs.Program.Shift

/-!
# A return with the unroll by one

A return without an unroll hands back one cell, and so does a return with the unroll that is
one in each dimension.  Where a program has the one instead of the other, building goes on as
it would have done: only the call that closes an apply looks into a return, and it asks for the
volume of the unroll.

**Results.**
* `Program.ret_unit`: the return is made in this way.
* `Program.load_withUnit`, `Program.closeApply_withUnit` and the like: calls afterwards.
-/

namespace StencilShapes

/-- The unroll by one. -/
def Point.ones (n : Nat) : Point :=
  List.replicate n Coord.one

theorem Point.volume?_ones (n : Nat) : (Point.ones n).volume? = some Coord.one := by
  rw [volume?, ones]
  induction n with
  | zero => rfl
  | succ n ih =>
      rw [List.replicate_succ, List.foldlM_cons]
      exact ih

/-- A return without an unroll gets the unroll by one. -/
def OpKind.withUnit (n : Nat) : OpKind → OpKind
  | .ret none => .ret (some (.ones n))
  | k => k

namespace OpKind

variable (n : Nat) (k : OpKind)

@[simp] theorem name_withUnit : (k.withUnit n).name = k.name := by
  rcases k with _ | _ | _ | _ | ⟨_ | _⟩ | _ <;> rfl

@[simp] theorem isShaped_withUnit : (k.withUnit n).isShaped = k.isShaped := by
  rcases k with _ | _ | _ | _ | ⟨_ | _⟩ | _ <;> rfl

@[simp] theorem isInferable_withUnit : (k.withUnit n).isInferable = k.isInferable := by
  rcases k with _ | _ | _ | _ | ⟨_ | _⟩ | _ <;> rfl

@[simp] theorem bounds?_withUnit : (k.withUnit n).bounds? = k.bounds? := by
  rcases k with _ | _ | _ | _ | ⟨_ | _⟩ | _ <;> rfl

@[simp] theorem body?_withUnit : (k.withUnit n).body? = k.body? := by
  rcases k with _ | _ | _ | _ | ⟨_ | _⟩ | _ <;> rfl

/-- Shaped operations are no returns. -/
theorem withUnit_of_isShaped {k : OpKind} (h : k.isShaped = true) : k.withUnit n = k := by
  rcases k with _ | _ | _ | _ | ⟨_ | _⟩ | _ <;> first | rfl | cases h

end OpKind

/-- The operation, with the unroll by one if it is a return without any. -/
def Operation.withUnit (n : Nat) (o : Operation) : Operation :=
  { o with kind := o.kind.withUnit n }

section Arenas

variable {α : Type}

/-- Changes of entries that do not depend on each other. -/
theorem modify_comm {f g : α → α} (h : ∀ x, f (g x) = g (f x)) (a : Array α) (i j : Nat) :
    (a.modify i f).modify j g = (a.modify j g).modify i f := by
  refine Array.ext_getElem? fun m => ?_
  simp only [Array.getElem?_modify]
  grind

theorem modify_push_of_lt {i : Nat} (a : Array α) (x : α) (f : α → α) (h : i < a.size) :
    (a.push x).modify i f = (a.modify i f).push x := by
  refine Array.ext_getElem? fun m => ?_
  simp only [Array.getElem?_modify, Array.getElem?_push, Array.size_modify]
  grind

theorem modify_push_self (a : Array α) (x : α) (f : α → α) :
    (a.push x).modify a.size f = a.push (f x) := by
  refine Array.ext_getElem? fun m => ?_
  simp only [Array.getElem?_modify, Array.getElem?_push]
  grind

end Arenas

namespace Program

/-- The program in which the return `x` has the unroll by one. -/
def withUnit (x : OpId) (n : Nat) (p : Program) : Program :=
  p.modifyOp x (Operation.withUnit n)

section Views

variable (x : OpId) (n : Nat) (p : Program)

theorem op?_withUnit (u : OpId) :
    (p.withUnit x n).op? u = if u = x then (p.op? u).map (Operation.withUnit n) else p.op? u :=
  p.op?_modifyOp x u (Operation.withUnit n)

/-- An operation stays, or it is the one that may change. -/
theorem op?_withUnit_cases (u : OpId) :
    (p.withUnit x n).op? u = p.op? u ∨
      (p.withUnit x n).op? u = (p.op? u).map (Operation.withUnit n) := by
  rw [op?_withUnit]
  split
  · exact .inr rfl
  · exact .inl rfl

theorem op?_withUnit_of_none {u : OpId} (h : p.op? u = none) : (p.withUnit x n).op? u = none := by
  rcases op?_withUnit_cases x n p u with hu | hu
  · rw [hu, h]
  · rw [hu, h, Option.map_none]

theorem op?_withUnit_of_some {u : OpId} {o : Operation} (h : p.op? u = some o) :
    (p.withUnit x n).op? u = some o ∨ (p.withUnit x n).op? u = some (o.withUnit n) := by
  rw [← Option.map_some, ← h]
  exact op?_withUnit_cases x n p u

theorem op?_withUnit_of_isShaped {u : OpId} {o : Operation} (ho : p.op? u = some o)
    (hk : o.kind.isShaped = true) :
    (p.withUnit x n).op? u = some o := by
  rcases op?_withUnit_cases x n p u with hu | hu
  · rw [hu, ho]
  · rw [hu, ho, Option.map_some, Operation.withUnit, OpKind.withUnit_of_isShaped n hk]

theorem terminator?_withUnit_cases (o : Operation) :
    (p.withUnit x n).terminator? o = p.terminator? o ∨
      (p.withUnit x n).terminator? o = (p.terminator? o).map (Operation.withUnit n) := by
  rw [terminator?, terminator?]
  cases o.kind.body?.bind (·.ops.getLast?) with
  | none => exact .inl rfl
  | some u => exact op?_withUnit_cases x n p u

end Views

section Calls

variable (x : OpId) (n : Nat) (p : Program)

/-- A change of one operation that leaves its unroll alone. -/
theorem modifyOp_withUnit {f : Operation → Operation}
    (h : ∀ o : Operation, f (o.withUnit n) = (f o).withUnit n) (u : OpId) :
    (p.withUnit x n).modifyOp u f = (p.modifyOp u f).withUnit x n :=
  ext rfl (modify_comm (fun o => (h o).symm) p.ops x.index u.index) rfl

theorem newArgs_withUnit (owner : Option OpId) (tys : List Ty) :
    ∀ (index : Nat) (p : Program),
      (p.withUnit x n).newArgs owner index tys =
        ((p.newArgs owner index tys).1.withUnit x n, (p.newArgs owner index tys).2) := by
  induction tys with
  | nil => exact fun _ _ => rfl
  | cons ty tys ih =>
      intro index p
      have hvalue : (p.withUnit x n).newValue ty (.arg owner index) =
          ((p.newValue ty (.arg owner index)).1.withUnit x n,
            (p.newValue ty (.arg owner index)).2) := rfl
      simp only [newArgs, hvalue, ih]

theorem newResult_withUnit (op : OpId) (ty : Ty) :
    (p.withUnit x n).newResult op ty =
      ((p.newResult op ty).1.withUnit x n, (p.newResult op ty).2) := by
  have hindex : ((p.withUnit x n).op? op).elim 0 (·.results.length) =
      (p.op? op).elim 0 (·.results.length) := by
    rcases op?_withUnit_cases x n p op with hop | hop
    · rw [hop]
    · rw [hop]
      cases p.op? op <;> rfl
  have hvalue : (p.withUnit x n).newValue ty (.result op ((p.op? op).elim 0 (·.results.length))) =
      ((p.newValue ty (.result op ((p.op? op).elim 0 (·.results.length)))).1.withUnit x n,
        (p.newValue ty (.result op ((p.op? op).elim 0 (·.results.length)))).2) := rfl
  simp only [newResult, hindex, hvalue]
  rw [modifyOp_withUnit]
  exact fun _ => rfl

theorem newResults_withUnit (op : OpId) (tys : List Ty) :
    ∀ p : Program,
      (p.withUnit x n).newResults op tys =
        ((p.newResults op tys).1.withUnit x n, (p.newResults op tys).2) := by
  induction tys with
  | nil => exact fun _ => rfl
  | cons ty tys ih =>
      intro p
      simp only [newResults, newResult_withUnit, ih]

theorem appendToBody_withUnit (apply op : OpId) :
    (p.withUnit x n).appendToBody apply op = (p.appendToBody apply op).withUnit x n := by
  refine modifyOp_withUnit x n p (fun o => ?_) apply
  rcases o with ⟨id, kind, operands, tys, results, parent⟩
  rcases kind with _ | _ | _ | _ | ⟨_ | _⟩ | _ <;> rfl

theorem beginFunction_withUnit (name : String) (stencil : Bool) (tys : List Ty) :
    (p.withUnit x n).beginFunction name stencil tys =
      ((p.beginFunction name stencil tys).1.withUnit x n,
        (p.beginFunction name stencil tys).2) := by
  simp only [beginFunction, newArgs_withUnit]
  rfl

theorem groupSize_ones : groupSize (some (.ones n)) = groupSize none := by
  simp only [groupSize, Point.volume?_ones]
  rfl

/-- A body gets a return with the unroll by one. -/
theorem ret_unit (apply : OpId) (values : List ValueId) :
    p.ret apply values (some (.ones n)) = (p.ret apply values none).withUnit ⟨p.ops.size⟩ n := by
  simp only [ret, newOp_snd, ← appendToBody_withUnit]
  refine congrArg (appendToBody · apply ⟨p.ops.size⟩) (ext rfl ?_ rfl)
  simp only [newOp, withUnit, modifyOp, modify_push_self]
  rfl

/-- The return of an open apply stays, or it is the one that may change. -/
theorem lastOf_withUnit_cases (apply : OpId) :
    ((p.withUnit x n).op? apply).bind (p.withUnit x n).terminator? =
        (p.op? apply).bind p.terminator? ∨
      ((p.withUnit x n).op? apply).bind (p.withUnit x n).terminator? =
        ((p.op? apply).bind p.terminator?).map (Operation.withUnit n) := by
  have hbind : ((p.withUnit x n).op? apply).bind (p.withUnit x n).terminator? =
      (p.op? apply).bind (p.withUnit x n).terminator? := by
    rcases op?_withUnit_cases x n p apply with hop | hop
    · rw [hop]
    · rw [hop]
      cases p.op? apply with
      | none => rfl
      | some o =>
          simp only [Option.map_some, Option.bind_some, terminator?, Operation.withUnit,
            OpKind.body?_withUnit]
  rw [hbind]
  cases p.op? apply with
  | none => exact .inl rfl
  | some o => exact terminator?_withUnit_cases x n p o

/-- An apply is closed as before: the volume of the unroll by one is that of none. -/
theorem closeApply_withUnit (apply : OpId) :
    (p.withUnit x n).closeApply apply =
      (fun r : Program × List ValueId => (r.1.withUnit x n, r.2)) <$> p.closeApply apply := by
  have happend : ∀ (q : Program) (u : OpId),
      (q.withUnit x n).append u = (q.append u).withUnit x n := fun _ _ => rfl
  rcases lastOf_withUnit_cases x n p apply with hlast | hlast
  · simp only [closeApply, hlast]
    split
    · simp only [newResults_withUnit, happend]
      split <;> rfl
    · rfl
  · simp only [closeApply, hlast]
    cases (p.op? apply).bind p.terminator? with
    | none => rfl
    | some last =>
        rcases last with ⟨id, kind, operands, tys, results, parent⟩
        rcases kind with _ | _ | _ | _ | ⟨_ | unroll⟩ | _
        case ret.none =>
          have heven : ¬ (groupSize none < 1 ∨ (tys.length : Int) % groupSize none ≠ 0) := by
            simp [groupSize]
          simp only [Option.map_some, Operation.withUnit, OpKind.withUnit, groupSize_ones,
            if_neg heven, newResults_withUnit, happend]
          rfl
        case ret.some =>
          simp only [Option.map_some, Operation.withUnit, OpKind.withUnit, newResults_withUnit,
            happend]
          split <;> rfl
        all_goals rfl

variable (hx : x.index < p.ops.size)

include hx

theorem newOp_withUnit (kind : OpKind) (operands : List ValueId) (parent : Option OpId) :
    (p.withUnit x n).newOp kind operands parent =
      ((p.newOp kind operands parent).1.withUnit x n, (p.newOp kind operands parent).2) := by
  refine Prod.ext (ext rfl ?_ rfl) rfl
  exact (modify_push_of_lt p.ops _ (Operation.withUnit n) hx).symm

theorem load_withUnit (field : ValueId) :
    (p.withUnit x n).load field = ((p.load field).1.withUnit x n, (p.load field).2) := by
  simp only [load, newOp_withUnit x n p hx, newResult_withUnit]
  rfl

theorem store_withUnit (value field : ValueId) (bounds : Bounds) :
    (p.withUnit x n).store value field bounds =
      ((p.store value field bounds).1.withUnit x n, (p.store value field bounds).2) := by
  simp only [store, newOp_withUnit x n p hx]
  rfl

theorem openApply_withUnit (operands : List ValueId) :
    (p.withUnit x n).openApply operands =
      ((p.openApply operands).1.withUnit x n, (p.openApply operands).2) := by
  have htypes : (p.withUnit x n).typeOf = p.typeOf := rfl
  simp only [openApply, htypes, newOp_withUnit x n p hx, newArgs_withUnit]
  rw [modifyOp_withUnit]
  exact fun _ => rfl

theorem access_withUnit (apply : OpId) (arg : ValueId) (offset : Point) :
    (p.withUnit x n).access apply arg offset =
      ((p.access apply arg offset).1.withUnit x n, (p.access apply arg offset).2) := by
  have htypes : (p.withUnit x n).typeOf = p.typeOf := rfl
  simp only [access, htypes, newOp_withUnit x n p hx, newResult_withUnit, appendToBody_withUnit]

theorem arith_withUnit (apply : OpId) (operator : Operator) (lhs rhs : ValueId) :
    (p.withUnit x n).arith apply operator lhs rhs =
      ((p.arith apply operator lhs rhs).1.withUnit x n, (p.arith apply operator lhs rhs).2) := by
  have htypes : (p.withUnit x n).typeOf = p.typeOf := rfl
  simp only [arith, htypes, newOp_withUnit x n p hx, newResult_withUnit, appendToBody_withUnit]

theorem ret_withUnit (apply : OpId) (values : List ValueId) (unroll : Option Point) :
    (p.withUnit x n).ret apply values unroll = (p.ret apply values unroll).withUnit x n := by
  simp only [ret, newOp_withUnit x n p hx, appendToBody_withUnit]

end Calls
end Program
end StencilShapes
