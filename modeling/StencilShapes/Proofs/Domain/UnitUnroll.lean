import StencilShapes.Domain.Certificate
import StencilShapes.Proofs.Domain.Frame
import StencilShapes.Proofs.Program.UnitUnroll

/-!
# Inference does not look at unrolls

Inference asks operations for their bounds, their operands and their names, and it writes
bounds and types.  An unroll is seen by extent analysis only: for given extents, a program in
which one return has the unroll by one gets the same bounds and the same types, with the same
fault, and its certificate is the same.

**Results.**
* `Program.inferOp_withUnit`, `Program.inferOps_withUnit`: operations of a function.
* `Program.inferShapes_withUnit`: inference in a program.
* `Program.certify_withUnit`: the certificate of a program.
-/

namespace StencilShapes

theorem OpKind.commit_withUnit (n : Nat) (b : Bounds) (k : OpKind) :
    (k.withUnit n).commit b = k.commit b := by
  rcases k with _ | _ | _ | _ | ⟨_ | _⟩ | _ <;> rfl

theorem Place.ofOp_withUnit (n : Nat) (function : String) (o : Operation) :
    Place.ofOp function (o.withUnit n) = Place.ofOp function o := by
  simp only [Place.ofOp, Operation.withUnit, OpKind.name_withUnit]

namespace Program

section Demands

variable (x : OpId) (n : Nat) (p : Program) (t : ExtentTable) (function : String)
  (producer : Place)

theorem meetDemand_withUnit (b : Bounds) (use : Use) :
    (p.withUnit x n).meetDemand t function producer b use =
      p.meetDemand t function producer b use := by
  rw [meetDemand, meetDemand]
  cases ho : p.op? use.user with
  | none => rw [op?_withUnit_of_none x n p ho]
  | some consumer =>
      rcases op?_withUnit_of_some x n p ho with hu | hu
      · rw [hu]
      · simp only [hu, Place.ofOp_withUnit]
        simp only [Operation.withUnit, OpKind.bounds?_withUnit]

theorem meetDemands_withUnit (uses : List Use) :
    ∀ b : Bounds, (p.withUnit x n).meetDemands t function producer b uses =
      p.meetDemands t function producer b uses := by
  induction uses with
  | nil => exact fun _ => rfl
  | cons use uses ih =>
      intro b
      simp only [meetDemands, meetDemand_withUnit, ih]

end Demands

section Writing

variable (x : OpId) (n : Nat) (p : Program)

theorem commit_withUnit (u : OpId) (b : Bounds) :
    (p.withUnit x n).commit u b = withUnit x n <$> p.commit u b := by
  cases ho : p.op? u with
  | none =>
      rw [commit, commit, op?_withUnit_of_none x n p ho, ho]
      rfl
  | some o =>
      have hsame : ∀ o', (p.withUnit x n).op? u = some o' → o'.kind.commit b = o.kind.commit b →
          (p.withUnit x n).commit u b = withUnit x n <$> p.commit u b := by
        intro o' ho' hkind
        simp only [commit, ho, ho', hkind]
        cases hcommit : o.kind.commit b with
        | error fault => rfl
        | ok kind =>
            -- What has been committed to is no return.
            refine congrArg Except.ok (modifyOp_withUnit x n p (fun _ => ?_) u)
            rcases OpKind.commit_eq_ok.1 hcommit with ⟨_, rfl⟩ | ⟨body, _, rfl⟩ <;> rfl
      rcases op?_withUnit_of_some x n p ho with hu | hu
      · exact hsame o hu rfl
      · exact hsame _ hu (OpKind.commit_withUnit n b o.kind)

theorem bodyArg?_withUnit (user : OpId) (operand : Nat) :
    (p.withUnit x n).bodyArg? user operand = p.bodyArg? user operand := by
  rw [bodyArg?, bodyArg?]
  cases ho : p.op? user with
  | none => rw [op?_withUnit_of_none x n p ho]
  | some o =>
      rcases op?_withUnit_of_some x n p ho with hu | hu
      · rw [hu]
      · simp only [hu, Option.bind_some, Operation.withUnit, OpKind.body?_withUnit]

theorem setOperandType_withUnit (user : OpId) (operand : Nat) (ty : Ty) :
    (p.withUnit x n).setOperandType user operand ty =
      (p.setOperandType user operand ty).withUnit x n := by
  have hdeclared := modifyOp_withUnit x n p
    (f := fun o => { o with operandTypes := o.operandTypes.set operand ty }) (fun _ => rfl) user
  rw [setOperandType_eq, setOperandType_eq, bodyArg?_withUnit, hdeclared]
  cases p.bodyArg? user operand <;> rfl

theorem retypeUses_withUnit (ty : Ty) (uses : List Use) :
    ∀ p : Program, (p.withUnit x n).retypeUses ty uses = (p.retypeUses ty uses).withUnit x n := by
  induction uses with
  | nil => exact fun _ => rfl
  | cons use uses ih =>
      intro p
      have hshaped : ((p.withUnit x n).op? use.user).elim false (·.kind.isShaped) =
          (p.op? use.user).elim false (·.kind.isShaped) := by
        cases ho : p.op? use.user with
        | none => rw [op?_withUnit_of_none x n p ho]
        | some o =>
            rcases op?_withUnit_of_some x n p ho with hu | hu
            · rw [hu]
            · rw [hu]
              exact OpKind.isShaped_withUnit n o.kind
      simp only [retypeUses, hshaped]
      split
      · rw [setOperandType_withUnit, ih]
      · exact ih p

theorem retypeResults_withUnit (shape : Point) (vs : List ValueId) :
    ∀ p : Program,
      (p.withUnit x n).retypeResults shape vs = (p.retypeResults shape vs).withUnit x n := by
  induction vs with
  | nil => exact fun _ => rfl
  | cons v vs ih =>
      intro p
      have htype : (p.withUnit x n).typeOf v = p.typeOf v := rfl
      rw [retypeResults, retypeResults, htype]
      cases p.typeOf v with
      | temp element old =>
          have hset : (p.withUnit x n).setType v (.temp element (some shape)) =
              (p.setType v (.temp element (some shape))).withUnit x n := rfl
          have huses : (p.withUnit x n).usesOf v = p.usesOf v := rfl
          simp only [hset, huses, retypeUses_withUnit, ih]
      | _ => exact ih p

end Writing

end Program

/-- How far inference has come, in the program in which the return `x` has the unroll by one. -/
def Inference.withUnit (x : OpId) (n : Nat) (r : Inference) : Inference :=
  { r with program := r.program.withUnit x n }

namespace Program

section Inferring

variable (x : OpId) (n : Nat) (t : ExtentTable)

theorem inferOp_withUnit (p : Program) (function : String) (o : Operation) :
    (p.withUnit x n).inferOp t function o =
      (fun r => (r.1.withUnit x n, r.2)) <$> p.inferOp t function o := by
  have huses : (p.withUnit x n).usesOf = p.usesOf := rfl
  simp only [inferOp, huses, meetDemands_withUnit, commit_withUnit]
  cases p.meetDemands t function (.ofOp function o) .nil (o.results.flatMap p.usesOf) with
  | error fault => rfl
  | ok bounds =>
      dsimp only
      cases domainShape (.ofOp function o) bounds with
      | error fault => rfl
      | ok shape =>
          dsimp only
          cases p.commit o.id bounds with
          | error fault => rfl
          | ok q =>
              exact congrArg (fun q => Except.ok (q, _)) (retypeResults_withUnit x n shape _ q)

/-- It makes no difference which unroll the operation has. -/
theorem inferOp_operation (p : Program) (function : String) (o : Operation) :
    p.inferOp t function (o.withUnit n) = p.inferOp t function o := by
  simp only [inferOp, Place.ofOp_withUnit]
  rfl

theorem inferOps_withUnit (function : String) (us : List OpId) :
    ∀ p : Program,
      (p.withUnit x n).inferOps t function us = (p.inferOps t function us).withUnit x n := by
  induction us with
  | nil => exact fun _ => rfl
  | cons u us ih =>
      intro p
      cases ho : p.op? u with
      | none => simp only [inferOps, op?_withUnit_of_none x n p ho, ho, ih]
      | some o =>
          have hsame : ∀ o', (p.withUnit x n).op? u = some o' →
              o'.kind.isInferable = o.kind.isInferable →
              p.inferOp t function o' = p.inferOp t function o →
              (p.withUnit x n).inferOps t function (u :: us) =
                (p.inferOps t function (u :: us)).withUnit x n := by
            intro o' ho' hkind hop
            simp only [inferOps, ho, ho', hkind, inferOp_withUnit, hop, ih]
            split
            · cases p.inferOp t function o with
              | error fault => rfl
              | ok r => exact congrArg (Inference.cons r.2) (ih r.1)
            · rfl
          rcases op?_withUnit_of_some x n p ho with hu | hu
          · exact hsame o hu rfl rfl
          · exact hsame _ hu (OpKind.isInferable_withUnit n o.kind)
              (inferOp_operation n t p function o)

theorem inferFunctions_withUnit (fs : List Function) :
    ∀ p : Program, (p.withUnit x n).inferFunctions t fs =
      ((p.inferFunctions t fs).1.withUnit x n, (p.inferFunctions t fs).2) := by
  induction fs with
  | nil => exact fun _ => rfl
  | cons f fs ih =>
      intro p
      have hone : (p.withUnit x n).inferFunction t f = (p.inferFunction t f).withUnit x n :=
        inferOps_withUnit x n t f.name f.body.reverse p
      simp only [inferFunctions, hone, ih]
      split
      · have hfault : ((p.inferFunction t f).withUnit x n).fault =
            (p.inferFunction t f).fault := rfl
        have hprogram : ((p.inferFunction t f).withUnit x n).program =
            (p.inferFunction t f).program.withUnit x n := rfl
        rw [hfault]
        cases (p.inferFunction t f).fault with
        | some fault => rfl
        | none =>
            simp only [hprogram, ih]
            rfl
      · rfl

/-- For given extents inference does the same. -/
theorem inferShapes_withUnit (p : Program) :
    (p.withUnit x n).inferShapes t =
      ((p.inferShapes t).1.withUnit x n, (p.inferShapes t).2) := by
  have hfunctions : (p.withUnit x n).functions = p.functions := rfl
  simp only [inferShapes, hfunctions, inferFunctions_withUnit]
  rfl

end Inferring

section Certificates

variable (x : OpId) (n : Nat) (p : Program) {g : Operation → Bool}

theorem all_opsAt_withUnit (hg : ∀ o, g (o.withUnit n) = g o) (us : List OpId) :
    ((p.withUnit x n).opsAt us).all g = (p.opsAt us).all g := by
  rw [opsAt, opsAt, List.all_filterMap, List.all_filterMap]
  refine congrArg us.all (funext fun u => ?_)
  cases ho : p.op? u with
  | none => rw [op?_withUnit_of_none x n p ho]
  | some o =>
      rcases op?_withUnit_of_some x n p ho with hu | hu
      · rw [hu]
      · rw [hu]
        exact hg o

theorem all_stencilOps_withUnit (hg : ∀ o, g (o.withUnit n) = g o) :
    (p.withUnit x n).stencilOps.all g = p.stencilOps.all g := by
  have hfunctions : (p.withUnit x n).functions = p.functions := rfl
  simp only [stencilOps, hfunctions, List.all_flatMap, all_opsAt_withUnit x n p hg]

/-- What a certificate asks of operations has nothing to do with unrolls. -/
theorem certify_withUnit : (p.withUnit x n).certify = p.certify := by
  have hstatic : (p.withUnit x n).hasStaticResults = p.hasStaticResults := rfl
  have hmatches : (p.withUnit x n).matchesBounds = p.matchesBounds := rfl
  have hdeclares : (p.withUnit x n).declaresOperands = p.declaresOperands := rfl
  simp only [certify, List.all_filter, hstatic, hmatches, hdeclares]
  congr 1 <;> refine all_stencilOps_withUnit x n p fun o => ?_
  · simp only [Operation.withUnit, OpKind.isInferable_withUnit, OpKind.bounds?_withUnit]
  · simp only [Operation.withUnit, OpKind.isInferable_withUnit]
    rfl
  · simp only [Operation.withUnit, OpKind.isInferable_withUnit, matchesBounds,
      OpKind.bounds?_withUnit]
  · simp only [Operation.withUnit, OpKind.isShaped_withUnit, declaresOperands,
      OpKind.body?_withUnit]

end Certificates
end Program
end StencilShapes
