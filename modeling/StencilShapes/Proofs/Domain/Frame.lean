import StencilShapes.Domain.Inference
import StencilShapes.Proofs.Program.Growth

/-!
# What inference leaves alone

Inference writes bounds and types.  Everything else is the frame of a program: its
functions, the uses and origins of its values, and its operations up to the bounds
of loads and applies and the declared types.  Two programs with the same frame
differ only in what inference has found out.

**Results.**
* `Program.SameFrame.exists_op`: the operations of two programs with one frame.
* `Program.exists_commit`: a load or an apply without bounds can be committed.
* `Program.boundsOf_commit`, `Program.boundsOf_retypeResults`: the bounds that are
  known after a step.
* `Program.inferOp_eq_ok`, `Program.inferOp_eq_error`: the steps of inference.
-/

namespace StencilShapes

/-- The kind without the bounds that are inferred. -/
def OpKind.frame : OpKind → OpKind
  | .load _ => .load none
  | .apply _ body => .apply none body
  | k => k

/-- The operation without what inference writes. -/
def Operation.frame (o : Operation) : Operation :=
  { o with kind := o.kind.frame, operandTypes := [] }

namespace OpKind

variable {k k' : OpKind}

theorem isShaped_eq_of_frame (h : k.frame = k'.frame) : k.isShaped = k'.isShaped := by
  cases k <;> cases k' <;> first | rfl | cases h

theorem isInferable_eq_of_frame (h : k.frame = k'.frame) : k.isInferable = k'.isInferable := by
  cases k <;> cases k' <;> first | rfl | cases h

theorem name_eq_of_frame (h : k.frame = k'.frame) : k.name = k'.name := by
  cases k <;> cases k' <;> first | rfl | (cases h; rfl) | cases h

theorem body?_eq_of_frame (h : k.frame = k'.frame) : k.body? = k'.body? := by
  cases k <;> cases k' <;> first | rfl | (cases h; rfl) | cases h

/-- What is not inferable belongs to the frame as a whole. -/
theorem eq_of_frame (h : k.frame = k'.frame) (hk : k.isInferable = false) : k = k' := by
  have hk' : k'.isInferable = false := isInferable_eq_of_frame h ▸ hk
  have hself : ∀ {k : OpKind}, k.isInferable = false → k.frame = k := fun {k} hk => by
    cases k <;> first | rfl | cases hk
  rw [← hself hk, h, hself hk']

/-- Committing writes nothing but bounds. -/
theorem commit_spec {b : Bounds} (h : k.commit b = .ok k') :
    k'.frame = k.frame ∧ k'.bounds? = some b := by
  rcases commit_eq_ok.1 h with ⟨rfl, rfl⟩ | ⟨body, rfl, rfl⟩
  · exact ⟨rfl, rfl⟩
  · exact ⟨rfl, rfl⟩

theorem exists_commit (b : Bounds) (hk : k.isInferable = true) (hb : k.bounds? = none) :
    ∃ k', k.commit b = .ok k' := by
  cases k with
  | load b' =>
      obtain rfl : b' = none := hb
      exact ⟨_, rfl⟩
  | apply b' body =>
      obtain rfl : b' = none := hb
      exact ⟨_, rfl⟩
  | _ => cases hk

end OpKind

namespace Program

/-- The programs differ only in what inference writes. -/
structure SameFrame (p q : Program) : Prop where
  functions : q.functions = p.functions
  origin : q.originOf = p.originOf
  uses : q.usesOf = p.usesOf
  op : ∀ u, (q.op? u).map Operation.frame = (p.op? u).map Operation.frame

namespace SameFrame

variable {p q r : Program}

theorem refl (p : Program) : p.SameFrame p :=
  ⟨rfl, rfl, rfl, fun _ => rfl⟩

theorem symm (h : p.SameFrame q) : q.SameFrame p :=
  ⟨h.functions.symm, h.origin.symm, h.uses.symm, fun u => (h.op u).symm⟩

theorem trans (h : p.SameFrame q) (h' : q.SameFrame r) : p.SameFrame r :=
  ⟨h'.functions.trans h.functions, h'.origin.trans h.origin, h'.uses.trans h.uses,
    fun u => (h'.op u).trans (h.op u)⟩

/-- An operation of one program is found in the other one, up to bounds and declared types. -/
theorem exists_op {u : OpId} {o : Operation}
    (h : p.SameFrame q)
    (ho : p.op? u = some o) :
    ∃ o', q.op? u = some o' ∧ o'.id = o.id ∧ o'.kind.frame = o.kind.frame ∧
      o'.operands = o.operands ∧ o'.results = o.results := by
  have hop := h.op u
  rw [ho] at hop
  rcases Option.map_eq_some_iff.1 hop with ⟨o', ho', hframe⟩
  have hkind := congrArg Operation.kind hframe
  have hid := congrArg Operation.id hframe
  have hoperands := congrArg Operation.operands hframe
  have hresults := congrArg Operation.results hframe
  exact ⟨o', ho', hid, hkind, hoperands, hresults⟩

/-- What the operations of a position have in common. -/
theorem op_eq {u : OpId} {o o' : Operation}
    (h : p.SameFrame q)
    (ho : p.op? u = some o)
    (ho' : q.op? u = some o') :
    o'.id = o.id ∧ o'.kind.frame = o.kind.frame ∧ o'.operands = o.operands ∧
      o'.results = o.results := by
  obtain ⟨o'', ho'', heq⟩ := h.exists_op ho
  obtain rfl : o' = o'' := Option.some.inj (ho'.symm.trans ho'')
  exact heq

/-- If operations know their positions in one program, they know them in the other. -/
theorem op_id {u : OpId} {o : Operation}
    (h : p.SameFrame q)
    (hid : ∀ {x ox}, p.op? x = some ox → ox.id = x)
    (ho : q.op? u = some o) :
    o.id = u := by
  obtain ⟨o', ho', hid', _⟩ := h.symm.exists_op ho
  exact hid'.symm.trans (hid ho')

/-- An operation that is not inferable has the same kind in both programs. -/
theorem exists_op_eq {u : OpId} {o : Operation}
    (h : p.SameFrame q)
    (ho : p.op? u = some o)
    (hk : o.kind.isInferable = false) :
    ∃ o', q.op? u = some o' ∧ o'.kind = o.kind ∧ o'.operands = o.operands := by
  obtain ⟨o', ho', _, hkind, hoperands, _⟩ := h.exists_op ho
  exact ⟨o', ho', (OpKind.eq_of_frame hkind.symm hk).symm, hoperands⟩

end SameFrame

section Retyping

variable (p : Program)

theorem sameFrame_setType (v : ValueId) (ty : Ty) : p.SameFrame (p.setType v ty) := by
  have hvalue : ∀ w, (p.setType v ty).value? w =
      if w = v then (p.value? w).map fun x => { x with ty } else p.value? w :=
    fun w => p.value?_modifyValue v w _
  refine ⟨rfl, funext fun w => ?_, funext fun w => ?_, fun _ => rfl⟩
  · simp only [originOf, hvalue]
    split
    · cases p.value? w <;> rfl
    · rfl
  · simp only [usesOf, hvalue]
    split
    · cases p.value? w <;> rfl
    · rfl

theorem typeOf_setType (v : ValueId) (ty : Ty) (w : ValueId) (hw : (p.originOf w).isSome) :
    (p.setType v ty).typeOf w = if w = v then ty else p.typeOf w := by
  obtain ⟨x, hx⟩ := Option.isSome_iff_exists.1 ((Option.isSome_map).symm.trans hw)
  simp only [typeOf, setType, value?_modifyValue, hx]
  split
  · rfl
  · rfl

theorem setOperandType_eq (user : OpId) (operand : Nat) (ty : Ty) :
    p.setOperandType user operand ty =
      (p.bodyArg? user operand).elim
        (p.modifyOp user fun o => { o with operandTypes := o.operandTypes.set operand ty })
        fun arg =>
          (p.modifyOp user fun o =>
            { o with operandTypes := o.operandTypes.set operand ty }).setType arg ty :=
  rfl

theorem op?_setOperandType (user : OpId) (operand : Nat) (ty : Ty) (u : OpId) :
    (p.setOperandType user operand ty).op? u =
      if u = user then
        (p.op? u).map fun o => { o with operandTypes := o.operandTypes.set operand ty }
      else p.op? u := by
  rw [setOperandType_eq]
  cases p.bodyArg? user operand with
  | none => exact p.op?_modifyOp user u _
  | some arg => exact p.op?_modifyOp user u _

theorem sameFrame_setOperandType (user : OpId) (operand : Nat) (ty : Ty) :
    p.SameFrame (p.setOperandType user operand ty) := by
  have hop : ∀ u, ((p.setOperandType user operand ty).op? u).map Operation.frame =
      (p.op? u).map Operation.frame := fun u => by
    rw [op?_setOperandType]
    split
    · cases p.op? u <;> rfl
    · rfl
  rw [setOperandType_eq] at hop ⊢
  cases h : p.bodyArg? user operand with
  | none =>
      rw [h] at hop
      exact ⟨rfl, rfl, rfl, hop⟩
  | some arg =>
      rw [h] at hop
      have hframe := sameFrame_setType
        (p.modifyOp user fun o => { o with operandTypes := o.operandTypes.set operand ty }) arg ty
      exact ⟨rfl, hframe.origin, hframe.uses, hop⟩

@[simp] theorem boundsOf_setType (v : ValueId) (ty : Ty) (u : OpId) :
    (p.setType v ty).boundsOf u = p.boundsOf u :=
  rfl

@[simp] theorem boundsOf_setOperandType (user : OpId) (operand : Nat) (ty : Ty) (u : OpId) :
    (p.setOperandType user operand ty).boundsOf u = p.boundsOf u := by
  rw [boundsOf, boundsOf, op?_setOperandType]
  split
  · cases p.op? u <;> rfl
  · rfl

end Retyping

theorem sameFrame_retypeUses (ty : Ty) (uses : List Use) :
    ∀ p : Program, p.SameFrame (p.retypeUses ty uses) := by
  induction uses with
  | nil => exact SameFrame.refl
  | cons use rest ih =>
      intro p
      simp only [retypeUses]
      split
      · exact (sameFrame_setOperandType p _ _ ty).trans (ih _)
      · exact ih p

theorem boundsOf_retypeUses (ty : Ty) (uses : List Use) (u : OpId) :
    ∀ p : Program, (p.retypeUses ty uses).boundsOf u = p.boundsOf u := by
  induction uses with
  | nil => exact fun _ => rfl
  | cons use rest ih =>
      intro p
      simp only [retypeUses]
      rw [ih]
      split
      · exact boundsOf_setOperandType p _ _ ty u
      · rfl

theorem sameFrame_retypeResults (shape : Point) (results : List ValueId) :
    ∀ p : Program, p.SameFrame (p.retypeResults shape results) := by
  induction results with
  | nil => exact SameFrame.refl
  | cons v rest ih =>
      intro p
      simp only [retypeResults]
      split
      · exact ((sameFrame_setType p v _).trans (sameFrame_retypeUses _ _ _)).trans (ih _)
      · exact ih p

/-- Types do not touch bounds. -/
theorem boundsOf_retypeResults (shape : Point) (results : List ValueId) (u : OpId) :
    ∀ p : Program, (p.retypeResults shape results).boundsOf u = p.boundsOf u := by
  induction results with
  | nil => exact fun _ => rfl
  | cons v rest ih =>
      intro p
      simp only [retypeResults]
      split
      · rw [ih, boundsOf_retypeUses, boundsOf_setType]
      · exact ih p

section Committing

variable {p q : Program} {u : OpId} {b : Bounds}

theorem commit_eq_ok :
    p.commit u b = .ok q ↔
      ∃ o k, p.op? u = some o ∧ o.kind.commit b = .ok k ∧
        q = p.modifyOp u fun o => { o with kind := k } := by
  unfold commit
  split
  · next h => simp [h]
  · next o ho =>
      split
      · next fault h => simp [ho, h]
      · next k h => simp [ho, h, eq_comm]

theorem sameFrame_commit (h : p.commit u b = .ok q) : p.SameFrame q := by
  rcases commit_eq_ok.1 h with ⟨o, k, ho, hk, rfl⟩
  refine ⟨rfl, rfl, rfl, fun x => ?_⟩
  rw [op?_modifyOp]
  split
  · next hx =>
      subst hx
      rw [ho]
      simp [Operation.frame, (OpKind.commit_spec hk).1]
  · rfl

/-- A commit leaves operands and declared types alone. -/
theorem exists_op_of_commit {x : OpId} {o' : Operation}
    (h : p.commit u b = .ok q)
    (ho' : q.op? x = some o') :
    ∃ o, p.op? x = some o ∧ o'.kind.frame = o.kind.frame ∧ o'.operands = o.operands ∧
      o'.operandTypes = o.operandTypes := by
  obtain ⟨o₁, k, ho₁, hk, rfl⟩ := commit_eq_ok.1 h
  rw [op?_modifyOp] at ho'
  obtain ⟨o, ho, rfl | ⟨rfl, rfl⟩⟩ := exists_of_ite_map ho'
  · exact ⟨o', ho, rfl, rfl, rfl⟩
  · obtain rfl : o₁ = o := Option.some.inj (ho₁.symm.trans ho)
    exact ⟨o₁, ho, (OpKind.commit_spec hk).1, rfl, rfl⟩

/-- A commit gives bounds to one operation. -/
theorem boundsOf_commit (h : p.commit u b = .ok q) (x : OpId) :
    q.boundsOf x = if x = u then some b else p.boundsOf x := by
  rcases commit_eq_ok.1 h with ⟨o, k, ho, hk, rfl⟩
  rw [boundsOf, op?_modifyOp]
  split
  · next hx =>
      subst hx
      rw [ho]
      simp [(OpKind.commit_spec hk).2]
  · rfl

theorem typeOf_commit (h : p.commit u b = .ok q) : q.typeOf = p.typeOf := by
  rcases commit_eq_ok.1 h with ⟨o, k, _, _, rfl⟩
  rfl

/-- Bounds are written once. -/
theorem boundsOf_eq_none_of_commit (h : p.commit u b = .ok q) : p.boundsOf u = none := by
  rcases commit_eq_ok.1 h with ⟨o, k, ho, hk, _⟩
  rw [boundsOf, ho]
  rcases OpKind.commit_eq_ok.1 hk with ⟨hload, _⟩ | ⟨body, happly, _⟩
  · rw [Option.bind_some, hload]
    rfl
  · rw [Option.bind_some, happly]
    rfl

/-- A load or an apply without bounds can be committed. -/
theorem exists_commit {o : Operation} (b : Bounds)
    (ho : p.op? u = some o)
    (hk : o.kind.isInferable = true)
    (hb : p.boundsOf u = none) :
    ∃ q, p.commit u b = .ok q := by
  have hb' : o.kind.bounds? = none := by simpa [boundsOf, ho] using hb
  obtain ⟨k, hk⟩ := OpKind.exists_commit b hk hb'
  exact ⟨_, commit_eq_ok.2 ⟨o, k, ho, hk, rfl⟩⟩

end Committing

section Inferring

variable {p q : Program} {t : ExtentTable} {function : String} {o : Operation} {i : Inferred}

theorem inferOp_eq_ok :
    p.inferOp t function o = .ok (q, i) ↔
      ∃ b shape p',
        p.meetDemands t function (.ofOp function o) .nil (o.results.flatMap p.usesOf) = .ok b ∧
        domainShape (.ofOp function o) b = .ok shape ∧
        p.commit o.id b = .ok p' ∧
        q = p'.retypeResults shape o.results ∧
        i = { function, op := o.id, bounds := b, shape } := by
  unfold inferOp
  dsimp only
  split
  · next h => simp [h]
  · next b hb =>
      split
      · next h => simp [hb, h]
      · next shape hshape =>
          split
          · next h => simp [hb, hshape, h]
          · next p' hp' => simp [hb, hshape, hp', eq_comm]

/-- A step fails when demands cannot be met, when the box they give is no domain, or
when that cannot be committed. -/
theorem inferOp_eq_error {fault : DomainFault} :
    p.inferOp t function o = .error fault ↔
      p.meetDemands t function (.ofOp function o) .nil (o.results.flatMap p.usesOf) =
          .error fault ∨
        ∃ b, p.meetDemands t function (.ofOp function o) .nil (o.results.flatMap p.usesOf) =
            .ok b ∧
          (domainShape (.ofOp function o) b = .error fault ∨
            ∃ shape commitFault, domainShape (.ofOp function o) b = .ok shape ∧
              p.commit o.id b = .error commitFault ∧
              fault = .commit (.ofOp function o) commitFault) := by
  unfold inferOp
  dsimp only
  split
  · next h => simp [h]
  · next b hb =>
      split
      · next h => simp [hb, h]
      · next shape hshape =>
          split
          · next h => simp [hb, hshape, h, eq_comm]
          · next p' hp' => simp [hb, hshape, hp']

/-- A step writes the bounds of its operation and no others. -/
theorem inferOp_spec (h : p.inferOp t function o = .ok (q, i)) :
    p.SameFrame q ∧ ∀ x, q.boundsOf x = if x = o.id then some i.bounds else p.boundsOf x := by
  rcases inferOp_eq_ok.1 h with ⟨b, shape, p', _, _, hcommit, rfl, rfl⟩
  refine ⟨(sameFrame_commit hcommit).trans (sameFrame_retypeResults _ _ _), fun x => ?_⟩
  rw [boundsOf_retypeResults, boundsOf_commit hcommit]

end Inferring

end Program
end StencilShapes
