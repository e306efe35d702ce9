import StencilShapes.Proofs.Description.WellFormed
import StencilShapes.Proofs.Program.Scope
import Mathlib.Algebra.GroupWithZero.Nat

/-!
# What a program has to be for a description

A description is read operation by operation, with an environment that says what the names
stand for.  At first these are the arguments; each operation adds its results.  A program
realizes the description if it has the same operations in the same order, with the same
contents, whose operands are what the names stand for and whose results have the types
that follow.

Nothing here mentions how a program is built.

**Results.**
* `Program.RealizesFunction`: a function of a program, and its description.
* `Program.RealizesFunction.mono`: what a larger program that leaves the operations alone
  still realizes.
* `Program.Realizes.operand_cases`: an operand is known from the start or is a result of an
  earlier operation.
-/

namespace StencilShapes

/-- What names stand for. -/
abbrev Environment := List (String × ValueId)

/-- The value that a name stands for. -/
def Environment.meaning (env : Environment) (name : String) : Option ValueId :=
  List.lookup name env

namespace BodyOpDesc

/-- The kind of an operation of a body. -/
def kind : BodyOpDesc → OpKind
  | .access _ _ offset => .access offset
  | .arith _ operator _ _ => .arith operator
  | .ret _ unroll => .ret unroll

/-- The types of the results, for operands of the given types: an access has the element of
what it reads, arithmetic the type of the left side. -/
def resultTypes : BodyOpDesc → List Ty → List Ty
  | .access _ _ _, ty :: _ => [.scalar ty.element]
  | .arith _ _ _ _, ty :: _ => [ty]
  | _, _ => []

end BodyOpDesc

/-- The number of operations, with those of the body. -/
def OpDesc.opCount : OpDesc → Nat
  | .apply _ _ _ body => body.length + 1
  | _ => 1

/-- The number of operations of a function, with those of the bodies. -/
def FunctionDesc.opCount (f : FunctionDesc) : Nat :=
  (f.ops.map OpDesc.opCount).sum

/-- The number of operations of all functions. -/
def Description.opCount (d : Description) : Nat :=
  (d.functions.map FunctionDesc.opCount).sum

namespace Program

/-- Operations stand for described ones, one for one and in order; `one` says what an
operation has to be when names have a meaning.  Its results add to the meaning of names. -/
inductive Realizes {α : Type} (p : Program) (results : α → List String)
    (one : Environment → α → Operation → Prop) : Environment → List α → List OpId → Prop
  | nil {env : Environment} :
      Realizes p results one env [] []
  | cons {env : Environment} {op : α} {ops : List α} {u : OpId} {us : List OpId}
      {o : Operation} :
      p.op? u = some o →
      one env op o →
      Realizes p results one (env ++ (results op).zip o.results) ops us →
      Realizes p results one env (op :: ops) (u :: us)

/-- An operation in the body of the apply `a`. -/
structure RealizesInner (p : Program) (a : OpId) (env : Environment) (op : BodyOpDesc)
    (o : Operation) : Prop where
  kind : o.kind = op.kind
  operands : o.operands.map some = op.reads.map env.meaning
  parent : o.parent = some a
  results : o.results.map p.typeOf = op.resultTypes (o.operands.map p.typeOf)

/-- The operations in the body of the apply `a`. -/
abbrev RealizesBody (p : Program) (a : OpId) :
    Environment → List BodyOpDesc → List OpId → Prop :=
  p.Realizes BodyOpDesc.results (p.RealizesInner a)

/-- Result `j` is a temp of the element that the return at the end of the body has as
operand `j` times the volume of the unroll. -/
def ReturnedBy (p : Program) (block : Block) (results : List ValueId) : Prop :=
  ∃ z oz unroll, block.ops.getLast? = some z ∧ p.op? z = some oz ∧ oz.kind = .ret unroll ∧
    ∀ (j : Nat) v, results[j]? = some v →
      ∃ w, oz.operands[j * (unrollVolume unroll).toNat]? = some w ∧
        p.typeOf v = .temp (p.typeOf w).element none

/-- The contents of an operation of a function. -/
def RealizesContents (p : Program) (o : Operation) : OpDesc → Prop
  | .load _ _ =>
      o.kind = .load none ∧
        o.results.map p.typeOf = o.operands.map fun v => .temp (p.typeOf v).element none
  | .apply _ _ params body =>
      ∃ block, o.kind = .apply none block ∧ block.args.length = params.length ∧
        p.RealizesBody o.id (params.zip block.args) body block.ops ∧
        p.ReturnedBy block o.results
  | .store _ _ lower upper => o.kind = .store { lower, upper }

/-- An operation of a function. -/
structure RealizesOp (p : Program) (env : Environment) (op : OpDesc) (o : Operation) :
    Prop where
  contents : p.RealizesContents o op
  operands : o.operands.map some = op.reads.map env.meaning
  parent : o.parent = none
  results : o.results.length = op.results.length

/-- The operations of a function. -/
abbrev RealizesOps (p : Program) : Environment → List OpDesc → List OpId → Prop :=
  p.Realizes OpDesc.results p.RealizesOp

/-- A function with its arguments and operations. -/
structure RealizesFunction (p : Program) (f : FunctionDesc) (g : Function) : Prop where
  name : g.name = f.name
  stencil : g.stencil = f.stencil
  args : g.args.map p.typeOf = f.args.map fun a => .field a.element a.rank.toNat
  ops : p.RealizesOps ((f.args.map FieldDesc.name).zip g.args) f.ops g.body

/-- A larger program that leaves operations alone, except the one that is open. -/
structure Extends (p q : Program) (open? : Option OpId) : Prop where
  grows : p.Grows q
  op : ∀ {u o}, p.op? u = some o → open? ≠ some u → q.op? u = some o

namespace Extends

variable {p q r : Program} {open? : Option OpId}

theorem refl (p : Program) (open? : Option OpId) : p.Extends p open? :=
  ⟨Grows.refl p, fun ho _ => ho⟩

theorem trans (hpq : p.Extends q open?) (hqr : q.Extends r open?) : p.Extends r open? :=
  ⟨hpq.grows.trans hqr.grows, fun ho hu => hqr.op (hpq.op ho hu) hu⟩

/-- An operation that is open only while the program grows does not count. -/
theorem close {u : OpId} (h : p.Extends q (some u)) (hu : p.op? u = none) :
    p.Extends q none := by
  refine ⟨h.grows, fun {x o} ho _ => h.op ho fun he => ?_⟩
  rw [Option.some.inj he, ho] at hu
  cases hu

end Extends

section Stability

variable {p q : Program} {open? : Option OpId}

theorem Realizes.mono {α : Type} {results : α → List String}
    {one one' : Environment → α → Operation → Prop} {env : Environment} {ops : List α}
    {us : List OpId}
    (h : p.Realizes results one env ops us)
    (hkeep : ∀ u ∈ us, ∀ o, p.op? u = some o → q.op? u = some o)
    (hone : ∀ {env op u o}, p.op? u = some o → one env op o → one' env op o) :
    q.Realizes results one' env ops us := by
  induction h with
  | nil => exact .nil
  | cons ho hop _ ih =>
      obtain ⟨hu, hus⟩ := List.forall_mem_cons.1 hkeep
      exact .cons (hu _ ho) (hone ho hop) (ih hus)

/-- Operations and descriptions correspond position by position. -/
theorem Realizes.forall₂ {α : Type} {results : α → List String}
    {one : Environment → α → Operation → Prop} {env : Environment} {ops : List α}
    {us : List OpId}
    (h : p.Realizes results one env ops us) :
    List.Forall₂ (fun op u => ∃ env o, p.op? u = some o ∧ one env op o) ops us := by
  induction h with
  | nil => exact .nil
  | cons ho hop _ ih => exact .cons ⟨_, _, ho, hop⟩ ih

/-- Each operation has a description, which it realizes in an environment that begins with
the one from the start. -/
theorem Realizes.exists_op {α : Type} {results : α → List String}
    {one : Environment → α → Operation → Prop} {env : Environment} {ops : List α}
    {us : List OpId}
    (h : p.Realizes results one env ops us) :
    ∀ u ∈ us, ∃ op ∈ ops, ∃ more o, p.op? u = some o ∧ one (env ++ more) op o := by
  induction h with
  | nil => exact List.forall_mem_nil _
  | @cons env _ _ _ _ _ ho hop _ ih =>
      refine List.forall_mem_cons.2 ⟨⟨_, List.mem_cons_self, [], _, ho, ?_⟩, fun u hu => ?_⟩
      · rwa [List.append_nil]
      · obtain ⟨op, hop, more, o, ho, hone⟩ := ih u hu
        exact ⟨op, List.mem_cons_of_mem _ hop, _, o, ho, List.append_assoc env _ more ▸ hone⟩

/-- The types of values that are there do not change. -/
theorem Extends.map_typeOf {vs : List ValueId}
    (he : p.Extends q open?)
    (hvs : ∀ v ∈ vs, (p.originOf v).isSome) :
    vs.map q.typeOf = vs.map p.typeOf :=
  List.map_congr_left fun v hv => he.grows.ty (hvs v hv)

theorem Coherent.results_defined (hc : p.Coherent) {u : OpId} {o : Operation}
    (ho : p.op? u = some o) :
    ∀ v ∈ o.results, (p.originOf v).isSome := by
  intro v hv
  obtain ⟨j, hj⟩ := hc.mem_results ho hv
  rw [hj]
  rfl

theorem RealizesInner.mono {a x : OpId} {env : Environment} {op : BodyOpDesc} {o : Operation}
    (h : p.RealizesInner a env op o)
    (hc : p.Coherent)
    (he : p.Extends q open?)
    (ho : p.op? x = some o) :
    q.RealizesInner a env op o := by
  refine ⟨h.kind, h.operands, h.parent, ?_⟩
  rw [he.map_typeOf (hc.results_defined ho), he.map_typeOf (hc.operand ho), h.results]

theorem RealizesBody.mono {a : OpId} {env : Environment} {ops : List BodyOpDesc}
    {xs : List OpId}
    (h : p.RealizesBody a env ops xs)
    (hc : p.Coherent)
    (he : p.Extends q open?)
    (hopen : ∀ x ∈ xs, open? ≠ some x) :
    q.RealizesBody a env ops xs :=
  Realizes.mono h (fun x hx _ ho => he.op ho (hopen x hx)) fun ho hop => hop.mono hc he ho

theorem ReturnedBy.mono {block : Block} {results : List ValueId}
    (h : p.ReturnedBy block results)
    (hc : p.Coherent)
    (he : p.Extends q none)
    (hresults : ∀ v ∈ results, (p.originOf v).isSome) :
    q.ReturnedBy block results := by
  obtain ⟨z, oz, unroll, hz, hoz, hk, htypes⟩ := h
  refine ⟨z, oz, unroll, hz, he.op hoz (by rintro ⟨⟩), hk, fun j v hv => ?_⟩
  obtain ⟨w, hw, hty⟩ := htypes j v hv
  refine ⟨w, hw, ?_⟩
  rw [he.grows.ty (hresults v (List.mem_of_getElem? hv)),
    he.grows.ty (hc.operand hoz w (List.mem_of_getElem? hw)), hty]

theorem RealizesOp.mono {u : OpId} {env : Environment} {op : OpDesc} {o : Operation}
    (h : p.RealizesOp env op o)
    (hc : p.Coherent)
    (he : p.Extends q none)
    (ho : p.op? u = some o) :
    q.RealizesOp env op o := by
  refine ⟨?_, h.operands, h.parent, h.results⟩
  have hcontents := h.contents
  cases op with
  | load result field =>
      obtain ⟨hk, htypes⟩ := hcontents
      refine ⟨hk, ?_⟩
      rw [he.map_typeOf (hc.results_defined ho), htypes]
      exact List.map_congr_left fun v hv => by rw [he.grows.ty (hc.operand ho v hv)]
  | apply results operands params body =>
      obtain ⟨block, hk, hargs, hbody, hreturned⟩ := hcontents
      exact ⟨block, hk, hargs, hbody.mono hc he fun _ _ => by rintro ⟨⟩,
        hreturned.mono hc he (hc.results_defined ho)⟩
  | store value field lower upper => exact hcontents

theorem RealizesOps.mono {env : Environment} {ops : List OpDesc} {us : List OpId}
    (h : p.RealizesOps env ops us)
    (hc : p.Coherent)
    (he : p.Extends q none) :
    q.RealizesOps env ops us :=
  Realizes.mono h (fun _ _ _ ho => he.op ho (by rintro ⟨⟩)) fun ho hop => hop.mono hc he ho

theorem RealizesFunction.mono {f : FunctionDesc} {g : Function}
    (h : p.RealizesFunction f g)
    (hc : p.Coherent)
    (he : p.Extends q none)
    (hargs : ∀ v ∈ g.args, (p.originOf v).isSome) :
    q.RealizesFunction f g :=
  ⟨h.name, h.stencil, (he.map_typeOf hargs).trans h.args, h.ops.mono hc he⟩

end Stability

section Operands

variable {p : Program}

/-- What a name stands for is in the environment. -/
theorem mem_values_of_meaning {env : Environment} {names : List String} {vs : List ValueId}
    (h : vs.map some = names.map env.meaning) :
    ∀ v ∈ vs, v ∈ env.map Prod.snd := by
  intro v hv
  have hsome : some v ∈ names.map env.meaning := h ▸ List.mem_map_of_mem hv
  obtain ⟨name, _, hname⟩ := List.mem_map.1 hsome
  obtain ⟨before, after, henv, _⟩ := List.lookup_eq_some_iff.1 hname
  rw [henv]
  simp

/-- An operand is known from the start or is a result of an earlier operation. -/
theorem Realizes.operand_cases {α : Type} {results : α → List String}
    {one : Environment → α → Operation → Prop} {env : Environment} {ops : List α}
    {us : List OpId}
    (h : p.Realizes results one env ops us)
    (hone : ∀ {env op o}, one env op o → ∀ v ∈ o.operands, v ∈ env.map Prod.snd) :
    ∀ {k : Nat} {u : OpId} {o : Operation}, us[k]? = some u → p.op? u = some o →
      ∀ v ∈ o.operands, v ∈ env.map Prod.snd ∨
        ∃ j < k, ∃ w ow, us[j]? = some w ∧ p.op? w = some ow ∧ v ∈ ow.results := by
  induction h with
  | nil =>
      intro k u o hu
      cases hu
  | @cons env op ops w us ow how hop _ ih =>
      intro k u o hu ho v hv
      cases k with
      | zero =>
          obtain rfl : w = u := Option.some.inj hu
          obtain rfl : ow = o := Option.some.inj (how.symm.trans ho)
          exact Or.inl (hone hop v hv)
      | succ k =>
          rcases ih hu ho v hv with hknown | ⟨j, hj, z, oz, hz, hoz, hmem⟩
          · rw [List.map_append, List.mem_append] at hknown
            rcases hknown with hknown | hresult
            · exact Or.inl hknown
            · obtain ⟨b, hb, rfl⟩ := List.mem_map.1 hresult
              exact Or.inr ⟨0, Nat.succ_pos k, w, ow, rfl, how, (List.of_mem_zip hb).2⟩
          · exact Or.inr ⟨j + 1, Nat.succ_lt_succ hj, z, oz, hz, hoz, hmem⟩

theorem RealizesInner.operand_mem {a : OpId} {env : Environment} {op : BodyOpDesc}
    {o : Operation} (h : p.RealizesInner a env op o) :
    ∀ v ∈ o.operands, v ∈ env.map Prod.snd :=
  mem_values_of_meaning h.operands

theorem RealizesOp.operand_mem {env : Environment} {op : OpDesc} {o : Operation}
    (h : p.RealizesOp env op o) :
    ∀ v ∈ o.operands, v ∈ env.map Prod.snd :=
  mem_values_of_meaning h.operands

end Operands
end Program
end StencilShapes
