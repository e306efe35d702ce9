import StencilShapes.Proofs.Program.View

/-!
# One program behind another

Identifiers are positions.  When a program is put behind another one, whose identifiers
end at `s`, all that it mentions moves by `s`.  Building goes on behind the other program
as it would have done alone: no call sees what stands before.

**Results.**
* `Program.join`: one program behind another.
* `Program.op?_join`, `Program.typeOf_join`, `Program.usesOf_join`: what is seen of the
  second program.
* `Program.load_join`, `Program.closeApply_join` and the like: calls on the second program.
* `Program.layout`: any number of programs one behind the other.
-/

namespace StencilShapes

section Identifiers

variable (s : IdSupply)

def OpId.shift (u : OpId) : OpId :=
  ⟨s.nextOp + u.index⟩

def ValueId.shift (v : ValueId) : ValueId :=
  ⟨s.nextValue + v.index⟩

def Block.shift (b : Block) : Block :=
  { args := b.args.map (ValueId.shift s), ops := b.ops.map (OpId.shift s) }

/-- Only an apply mentions identifiers. -/
def OpKind.shift : OpKind → OpKind
  | .apply bounds body => .apply bounds (body.shift s)
  | k => k

def Operation.shift (o : Operation) : Operation :=
  { o with
    id := o.id.shift s
    kind := o.kind.shift s
    operands := o.operands.map (ValueId.shift s)
    results := o.results.map (ValueId.shift s)
    parent := o.parent.map (OpId.shift s) }

def Origin.shift : Origin → Origin
  | .result op index => .result (op.shift s) index
  | .arg owner index => .arg (owner.map (OpId.shift s)) index

def Use.shift (use : Use) : Use :=
  { use with user := use.user.shift s }

def Value.shift (w : Value) : Value :=
  { w with id := w.id.shift s, origin := w.origin.shift s, uses := w.uses.map (Use.shift s) }

def Function.shift (f : Function) : Function :=
  { f with args := f.args.map (ValueId.shift s), body := f.body.map (OpId.shift s) }

variable {s}

theorem OpId.shift_inj {u w : OpId} : u.shift s = w.shift s ↔ u = w := by
  rcases u with ⟨i⟩
  rcases w with ⟨j⟩
  simp [shift]

theorem ValueId.shift_inj {v w : ValueId} : v.shift s = w.shift s ↔ v = w := by
  rcases v with ⟨i⟩
  rcases w with ⟨j⟩
  simp [shift]

@[simp] theorem OpKind.name_shift (k : OpKind) : (k.shift s).name = k.name := by
  cases k <;> rfl

@[simp] theorem OpKind.isShaped_shift (k : OpKind) : (k.shift s).isShaped = k.isShaped := by
  cases k <;> rfl

@[simp] theorem OpKind.isInferable_shift (k : OpKind) :
    (k.shift s).isInferable = k.isInferable := by
  cases k <;> rfl

@[simp] theorem OpKind.bounds?_shift (k : OpKind) : (k.shift s).bounds? = k.bounds? := by
  cases k <;> rfl

@[simp] theorem OpKind.body?_shift (k : OpKind) :
    (k.shift s).body? = k.body?.map (Block.shift s) := by
  cases k <;> rfl

end Identifiers

/-- The identifiers that are free behind one more program. -/
def IdSupply.after (s : IdSupply) (q : Program) : IdSupply :=
  { nextOp := s.nextOp + q.ops.size, nextValue := s.nextValue + q.values.size }

namespace Program

/-- A program with all that it mentions behind others. -/
def shift (s : IdSupply) (p : Program) : Program :=
  { functions := p.functions.map (Function.shift s)
    ops := p.ops.map (Operation.shift s)
    values := p.values.map (Value.shift s)
    supply := p.supply
    nextOp_eq := by rw [Array.size_map, p.nextOp_eq]
    nextValue_eq := by rw [Array.size_map, p.nextValue_eq] }

/-- A program with more behind it, which is in its place already. -/
def extend (p r : Program) : Program :=
  { functions := p.functions ++ r.functions
    ops := p.ops ++ r.ops
    values := p.values ++ r.values
    supply := p.supply.after r
    nextOp_eq := by rw [IdSupply.after, p.nextOp_eq, Array.size_append]
    nextValue_eq := by rw [IdSupply.after, p.nextValue_eq, Array.size_append] }

/-- The program `q` behind `p`. -/
def join (p q : Program) : Program :=
  p.extend (q.shift p.supply)

theorem extend_assoc (p q r : Program) : (p.extend q).extend r = p.extend (q.extend r) := by
  simp [extend, IdSupply.after, Nat.add_assoc]

@[simp] theorem extend_empty (p : Program) : p.extend {} = p := by
  simp [extend, IdSupply.after]

@[simp] theorem empty_extend (r : Program) : ({} : Program).extend r = r := by
  simp [extend, IdSupply.after, ← r.nextOp_eq, ← r.nextValue_eq]

@[simp] theorem join_empty (p : Program) : p.join {} = p := by
  simp [join, extend, shift, IdSupply.after]

/-- The arenas of a program behind another one are as long as before. -/
theorem supply_join (p q : Program) : (p.join q).supply = p.supply.after q := by
  simp [join, extend, shift, IdSupply.after]

section Views

variable (p q : Program)

theorem op?_join (u : OpId) :
    (p.join q).op? (u.shift p.supply) = (q.op? u).map (Operation.shift p.supply) := by
  simp [op?, join, extend, shift, OpId.shift, p.nextOp_eq, Array.getElem?_append_right]

theorem value?_join (v : ValueId) :
    (p.join q).value? (v.shift p.supply) = (q.value? v).map (Value.shift p.supply) := by
  simp [value?, join, extend, shift, ValueId.shift, p.nextValue_eq,
    Array.getElem?_append_right]

theorem typeOf_join (v : ValueId) : (p.join q).typeOf (v.shift p.supply) = q.typeOf v := by
  rw [typeOf, typeOf, value?_join]
  cases q.value? v <;> rfl

theorem map_typeOf_join (vs : List ValueId) :
    (vs.map (ValueId.shift p.supply)).map (p.join q).typeOf = vs.map q.typeOf := by
  rw [List.map_map]
  exact List.map_congr_left fun v _ => typeOf_join p q v

theorem terminator?_join (o : Operation) :
    (p.join q).terminator? (o.shift p.supply) =
      (q.terminator? o).map (Operation.shift p.supply) := by
  simp only [terminator?, Operation.shift, OpKind.body?_shift]
  cases o.kind.body? with
  | none => rfl
  | some body =>
      simp only [Option.map_some, Option.bind_some, Block.shift, List.getLast?_map]
      cases body.ops.getLast? with
      | none => rfl
      | some u => exact op?_join p q u

end Views

section Arenas

variable {α β : Type}

theorem modify_append_right (a b : Array α) (i : Nat) (f : α → α) :
    (a ++ b).modify (a.size + i) f = a ++ b.modify i f := by
  refine Array.ext_getElem? fun j => ?_
  simp only [Array.getElem?_modify, Array.getElem?_append]
  grind

/-- A change of one entry, and of its image. -/
theorem modify_map_comm {f : α → β} {g : β → β} {h : α → α} (hc : ∀ x, g (f x) = f (h x))
    (b : Array α) (i : Nat) :
    (b.map f).modify i g = (b.modify i h).map f := by
  refine Array.ext_getElem? fun j => ?_
  simp only [Array.getElem?_modify, Array.getElem?_map]
  grind

end Arenas

section Calls

variable (p q : Program)

theorem newValue_join (ty : Ty) (origin : Origin) :
    (p.join q).newValue ty (origin.shift p.supply) =
      (p.join (q.newValue ty origin).1, (q.newValue ty origin).2.shift p.supply) := by
  have hid : (p.join q).supply.takeValue.1 = q.supply.takeValue.1.shift p.supply := by
    rw [supply_join]
    simp [IdSupply.takeValue, IdSupply.after, ValueId.shift, q.nextValue_eq]
  refine Prod.ext (ext rfl rfl ?_) hid
  simp only [newValue, hid]
  simp [join, extend, shift, Array.map_push, Array.push_append, Value.shift]

theorem newArgs_join (owner : Option OpId) (tys : List Ty) :
    ∀ (index : Nat) (q : Program),
      (p.join q).newArgs (owner.map (OpId.shift p.supply)) index tys =
        (p.join (q.newArgs owner index tys).1,
          (q.newArgs owner index tys).2.map (ValueId.shift p.supply)) := by
  induction tys with
  | nil => exact fun _ _ => rfl
  | cons ty tys ih =>
      intro index q
      have hvalue := newValue_join p q ty (.arg owner index)
      rw [Origin.shift] at hvalue
      simp only [newArgs, hvalue, ih, List.map_cons]

theorem addUses_join (a : Array Value) (user : OpId) (vs : List ValueId) :
    ∀ (index : Nat) (b : Array Value),
      a.size = p.supply.nextValue →
      addUses (a ++ b.map (Value.shift p.supply)) (user.shift p.supply) index
          (vs.map (ValueId.shift p.supply)) =
        a ++ (addUses b user index vs).map (Value.shift p.supply) := by
  induction vs with
  | nil => exact fun _ _ _ => rfl
  | cons v vs ih =>
      intro index b ha
      rw [List.map_cons, addUses, addUses, ValueId.shift, ← ha, modify_append_right,
        modify_map_comm (h := fun w => { w with uses := w.uses ++ [{ user, operand := index }] })]
      · exact ih (index + 1) _ ha
      · intro w
        simp [Value.shift, Use.shift]

theorem newOp_join (kind : OpKind) (operands : List ValueId) (parent : Option OpId) :
    (p.join q).newOp (kind.shift p.supply) (operands.map (ValueId.shift p.supply))
        (parent.map (OpId.shift p.supply)) =
      (p.join (q.newOp kind operands parent).1,
        (q.newOp kind operands parent).2.shift p.supply) := by
  have hid : (p.join q).supply.takeOp.1 = q.supply.takeOp.1.shift p.supply := by
    rw [supply_join]
    simp [IdSupply.takeOp, IdSupply.after, OpId.shift, q.nextOp_eq]
  have huses := addUses_join p p.values q.supply.takeOp.1 operands 0 q.values
    p.nextValue_eq.symm
  refine Prod.ext (ext rfl ?_ ?_) hid
  · simp only [newOp, map_typeOf_join, hid]
    simp [join, extend, shift, Array.map_push, Array.push_append, Operation.shift]
  · simp only [newOp, hid]
    exact huses

/-- A change of one operation of the second program. -/
theorem modifyOp_join {f g : Operation → Operation}
    (hc : ∀ o : Operation, g (o.shift p.supply) = (f o).shift p.supply)
    (u : OpId) :
    (p.join q).modifyOp (u.shift p.supply) g = p.join (q.modifyOp u f) := by
  refine ext rfl ?_ rfl
  simp only [modifyOp, join, extend, shift, OpId.shift, p.nextOp_eq]
  exact (modify_append_right _ _ _ _).trans (congrArg _ (modify_map_comm hc _ _))

theorem newResult_join (op : OpId) (ty : Ty) :
    (p.join q).newResult (op.shift p.supply) ty =
      (p.join (q.newResult op ty).1, (q.newResult op ty).2.shift p.supply) := by
  have hindex : ((p.join q).op? (op.shift p.supply)).elim 0 (·.results.length) =
      (q.op? op).elim 0 (·.results.length) := by
    rw [op?_join]
    cases q.op? op with
    | none => rfl
    | some o => exact List.length_map _
  have hvalue := newValue_join p q ty
    (.result op ((q.op? op).elim 0 (·.results.length)))
  rw [Origin.shift] at hvalue
  simp only [newResult, hindex, hvalue]
  rw [modifyOp_join]
  intro o
  simp [Operation.shift]

theorem newResults_join (op : OpId) (tys : List Ty) :
    ∀ q : Program,
      (p.join q).newResults (op.shift p.supply) tys =
        (p.join (q.newResults op tys).1,
          (q.newResults op tys).2.map (ValueId.shift p.supply)) := by
  induction tys with
  | nil => exact fun _ => rfl
  | cons ty tys ih =>
      intro q
      simp only [newResults, newResult_join, ih, List.map_cons]

theorem append_join (op : OpId) (h : 0 < q.functions.size) :
    (p.join q).append (op.shift p.supply) = p.join (q.append op) := by
  have hlast : (p.join q).functions.size - 1 = p.functions.size + (q.functions.size - 1) := by
    rw [join, extend, shift, Array.size_append, Array.size_map]
    omega
  refine ext ?_ rfl rfl
  simp only [append, hlast]
  simp only [join, extend, shift]
  refine (modify_append_right _ _ _ _).trans (congrArg _ (modify_map_comm (fun f => ?_) _ _))
  simp [Function.shift]

theorem appendToBody_join (apply op : OpId) :
    (p.join q).appendToBody (apply.shift p.supply) (op.shift p.supply) =
      p.join (q.appendToBody apply op) := by
  refine modifyOp_join p q (fun o => ?_) apply
  rcases o with ⟨id, kind, operands, tys, results, parent⟩
  cases kind <;> simp [Operation.shift, OpKind.shift, Block.shift]

theorem beginFunction_join (name : String) (stencil : Bool) (tys : List Ty) :
    (p.join q).beginFunction name stencil tys =
      (p.join (q.beginFunction name stencil tys).1,
        (q.beginFunction name stencil tys).2.map (ValueId.shift p.supply)) := by
  have hargs := newArgs_join p none tys 0 q
  rw [Option.map_none] at hargs
  simp only [beginFunction, hargs]
  refine Prod.ext (ext ?_ rfl rfl) rfl
  simp [join, extend, shift, Array.map_push, Array.push_append, Function.shift]

theorem load_join (field : ValueId) (h : 0 < q.functions.size) :
    (p.join q).load (field.shift p.supply) =
      (p.join (q.load field).1, (q.load field).2.shift p.supply) := by
  have hop := newOp_join p q (.load none) [field] none
  simp only [OpKind.shift, List.map_cons, List.map_nil, Option.map_none] at hop
  simp only [load, hop, typeOf_join, newResult_join]
  rw [append_join]
  exact h

theorem store_join (value field : ValueId) (bounds : Bounds) (h : 0 < q.functions.size) :
    (p.join q).store (value.shift p.supply) (field.shift p.supply) bounds =
      (p.join (q.store value field bounds).1, (q.store value field bounds).2.shift p.supply) := by
  have hop := newOp_join p q (.store bounds) [value, field] none
  simp only [OpKind.shift, List.map_cons, List.map_nil, Option.map_none] at hop
  simp only [store, hop]
  rw [append_join]
  exact h

theorem openApply_join (operands : List ValueId) :
    (p.join q).openApply (operands.map (ValueId.shift p.supply)) =
      (p.join (q.openApply operands).1, (q.openApply operands).2.1.shift p.supply,
        (q.openApply operands).2.2.map (ValueId.shift p.supply)) := by
  have hop := newOp_join p q (.apply none { args := [], ops := [] }) operands none
  simp only [OpKind.shift, Block.shift, List.map_nil, Option.map_none] at hop
  have hargs := newArgs_join p
    (some (q.newOp (.apply none { args := [], ops := [] }) operands none).2)
    (operands.map q.typeOf) 0
    (q.newOp (.apply none { args := [], ops := [] }) operands none).1
  rw [Option.map_some] at hargs
  simp only [openApply, hop, map_typeOf_join, hargs]
  rw [modifyOp_join]
  intro o
  rfl

theorem access_join (apply : OpId) (arg : ValueId) (offset : Point) :
    (p.join q).access (apply.shift p.supply) (arg.shift p.supply) offset =
      (p.join (q.access apply arg offset).1, (q.access apply arg offset).2.shift p.supply) := by
  have hop := newOp_join p q (.access offset) [arg] (some apply)
  simp only [OpKind.shift, List.map_cons, List.map_nil, Option.map_some] at hop
  simp only [access, hop, typeOf_join, newResult_join, appendToBody_join]

theorem arith_join (apply : OpId) (operator : Operator) (lhs rhs : ValueId) :
    (p.join q).arith (apply.shift p.supply) operator (lhs.shift p.supply) (rhs.shift p.supply) =
      (p.join (q.arith apply operator lhs rhs).1,
        (q.arith apply operator lhs rhs).2.shift p.supply) := by
  have hop := newOp_join p q (.arith operator) [lhs, rhs] (some apply)
  simp only [OpKind.shift, List.map_cons, List.map_nil, Option.map_some] at hop
  simp only [arith, hop, typeOf_join, newResult_join, appendToBody_join]

theorem ret_join (apply : OpId) (values : List ValueId) (unroll : Option Point) :
    (p.join q).ret (apply.shift p.supply) (values.map (ValueId.shift p.supply)) unroll =
      p.join (q.ret apply values unroll) := by
  have hop := newOp_join p q (.ret unroll) values (some apply)
  simp only [OpKind.shift, Option.map_some] at hop
  simp only [ret, hop, appendToBody_join]

theorem closeApply_join (apply : OpId) (h : 0 < q.functions.size) :
    (p.join q).closeApply (apply.shift p.supply) =
      (fun r : Program × List ValueId => (p.join r.1, r.2.map (ValueId.shift p.supply))) <$>
        q.closeApply apply := by
  have hlast : ((p.join q).op? (apply.shift p.supply)).bind (p.join q).terminator? =
      ((q.op? apply).bind q.terminator?).map (Operation.shift p.supply) := by
    rw [op?_join]
    cases q.op? apply with
    | none => rfl
    | some o => exact terminator?_join p q o
  simp only [closeApply, hlast]
  cases (q.op? apply).bind q.terminator? with
  | none => rfl
  | some last =>
      rcases last with ⟨id, kind, operands, tys, results, parent⟩
      cases kind with
      | ret unroll =>
          simp only [Option.map_some, Operation.shift, OpKind.shift, newResults_join]
          split
          · rfl
          · rw [append_join]
            · rfl
            · rw [functions_newResults]
              exact h
      | _ => rfl

end Calls
end Program


namespace Program

/-- Programs one behind the other. -/
def layout (s : IdSupply) : List Program → Program
  | [] => {}
  | q :: qs => (q.shift s).extend (layout (s.after q) qs)

/-- Programs are put behind another one, one at a time. -/
theorem extend_layout_cons (p q : Program) (qs : List Program) :
    p.extend (layout p.supply (q :: qs)) = (p.join q).extend (layout (p.join q).supply qs) := by
  rw [layout, ← extend_assoc, supply_join]
  rfl

theorem functions_layout_cons (s : IdSupply) (q : Program) (qs : List Program) :
    (layout s (q :: qs)).functions.toList =
      q.functions.toList.map (Function.shift s) ++
        (layout (s.after q) qs).functions.toList := by
  simp [layout, extend, shift]

/-- Lists that belong to programs one behind the other.  What is in them moves by the
programs before. -/
def layoutLists {α β : Type} (move : IdSupply → α → β) (s : IdSupply) :
    List (Program × List α) → List β
  | [] => []
  | (q, as) :: rest => as.map (move s) ++ layoutLists move (s.after q) rest

/-- Nothing moves to where other programs are. -/
theorem le_key_of_mem_layoutLists {α β : Type} {move : IdSupply → α → β} {key : β → Nat}
    (hmove : ∀ s a, s.nextOp ≤ key (move s a)) (parts : List (Program × List α)) :
    ∀ s, ∀ b ∈ layoutLists move s parts, s.nextOp ≤ key b := by
  induction parts with
  | nil => exact fun _ => List.forall_mem_nil _
  | cons part parts ih =>
      intro s b hb
      rcases List.mem_append.1 hb with hb | hb
      · obtain ⟨a, _, rfl⟩ := List.mem_map.1 hb
        exact hmove s a
      · exact Nat.le_trans (Nat.le_add_right _ _) (ih _ b hb)

end Program
end StencilShapes
