import StencilShapes.Proofs.Point
import StencilShapes.Proofs.Program.Placement
import StencilShapes.Proofs.Domain.Frame
import StencilShapes.Compilation.Basic

/-!
# Runs of calls

A builder makes the calls that grow a program one after another.  It refuses a call that
the interface does not admit: a value that a call reads must exist, an apply is filled and
closed only while it is open, and nothing else happens meanwhile.  It is not asked that
values stay in their function, or in their body.

After any run the two arenas, the use lists and the blocks say the same thing, so whatever
position a pass looks up is there.

**Results.**
* `Builder.Sound.call`: what each call keeps.
* `Program.Exact`, `Program.InRange`: what the accounts of a program say, and which
  positions they name.
* `Program.Rewritten.sameFrame`, `Compilation.rewritten_run`: what passes write.
* `Builder.exact_of_run`: the accounts are exact after every run of calls.
-/

namespace StencilShapes

/-- A call that grows a program. -/
inductive Call where
  | beginFunction (name : String) (stencil : Bool) (tys : List Ty)
  | setStencil (stencil : Bool)
  | load (field : ValueId)
  | store (value field : ValueId) (bounds : Bounds)
  | openApply (operands : List ValueId)
  | access (arg : ValueId) (offset : Point)
  | arith (operator : Operator) (lhs rhs : ValueId)
  | ret (values : List ValueId) (unroll : Option Point)
  /-- Closes the open apply, or gives it up if that cannot be done. -/
  | finish
  /-- Gives up the open apply. -/
  | drop

namespace Call

/-- The values that a call is given. -/
def reads : Call → List ValueId
  | .load field => [field]
  | .store value field _ => [value, field]
  | .openApply operands => operands
  | .access arg _ => [arg]
  | .arith _ lhs rhs => [lhs, rhs]
  | .ret values _ => values
  | _ => []

/-- The call fills the open apply, or ends it. -/
def isInner : Call → Bool
  | .access _ _ | .arith _ _ _ | .ret _ _ | .finish | .drop => true
  | _ => false

/-- The call needs no function. -/
def isBegin : Call → Bool
  | .beginFunction _ _ _ => true
  | _ => false

end Call

/-- A program while it is built. -/
structure Builder where
  program : Program := {}
  /-- The apply that is open. -/
  opened : Option OpId := none
  /-- The applies that were given up, the last one first. -/
  dropped : List OpId := []

namespace Builder

/-- The applies that have not been closed. -/
def outside (b : Builder) : List OpId :=
  b.opened.toList ++ b.dropped

/-- What the interface asks for: the values exist, there is a function to grow, and an apply
is open exactly for the calls that fill or end it. -/
def admits (b : Builder) (c : Call) : Bool :=
  c.reads.all (·.index < b.program.values.size) && (c.isInner == b.opened.isSome) &&
    (c.isBegin || !b.program.functions.isEmpty)

/-- Gives up an apply. -/
def giveUp (b : Builder) (a : OpId) : Builder :=
  { b with opened := none, dropped := a :: b.dropped }

/-- What becomes of a builder with a call. -/
def perform (b : Builder) (c : Call) : Builder :=
  match c, b.opened with
  | .beginFunction name stencil tys, _ =>
      { b with program := (b.program.beginFunction name stencil tys).1 }
  | .setStencil stencil, _ =>
      { b with program := b.program.setStencil (b.program.functions.size - 1) stencil }
  | .load field, _ => { b with program := (b.program.load field).1 }
  | .store value field bounds, _ => { b with program := (b.program.store value field bounds).1 }
  | .openApply operands, _ =>
      { b with
        program := (b.program.openApply operands).1
        opened := some (b.program.openApply operands).2.1 }
  | .access arg offset, some a => { b with program := (b.program.access a arg offset).1 }
  | .arith operator lhs rhs, some a =>
      { b with program := (b.program.arith a operator lhs rhs).1 }
  | .ret values unroll, some a => { b with program := b.program.ret a values unroll }
  | .finish, some a =>
      match b.program.closeApply a with
      | .ok (p, _) => { b with program := p, opened := none }
      | .error _ => b.giveUp a
  | .drop, some a => b.giveUp a
  | _, none => b

/-- Makes a call, if the interface admits it. -/
def call (b : Builder) (c : Call) : Option Builder :=
  if b.admits c then some (b.perform c) else none

/-- Makes calls one after another. -/
def run (b : Builder) : List Call → Option Builder
  | [] => some b
  | c :: cs => (b.call c).bind fun b => b.run cs

end Builder

namespace Program

/-- The accounts of a program, with the applies that have not been closed. -/
structure Exact (p : Program) (outside : List OpId) : Prop where
  op_id : ∀ u o, p.op? u = some o → o.id = u
  value_id : ∀ v w, p.value? v = some w → w.id = v
  /-- The next operation and the next value are given the positions at which they will stand. -/
  next_op : p.supply.takeOp.1 = ⟨p.ops.size⟩
  next_value : p.supply.takeValue.1 = ⟨p.values.size⟩
  /-- The uses of a value are the operands that refer to it. -/
  uses : ∀ v u i, (⟨u, i⟩ : Use) ∈ p.usesOf v ↔ ∃ o, p.op? u = some o ∧ o.operands[i]? = some v
  uses_ordered : ∀ v, (p.usesOf v).Pairwise Use.Before
  results : ∀ v u j,
    p.originOf v = some (.result u j) ↔ ∃ o, p.op? u = some o ∧ o.results[j]? = some v
  args : ∀ v a i,
    p.originOf v = some (.arg (some a) i) ↔
      ∃ o body, p.op? a = some o ∧ o.kind.body? = some body ∧ body.args[i]? = some v
  args_length : ∀ a o body, p.op? a = some o → o.kind.body? = some body →
    body.args.length = o.operands.length
  declared_length : ∀ u o, p.op? u = some o → o.operandTypes.length = o.operands.length
  declared : ∀ u o (i : Nat) (v : ValueId), p.op? u = some o → o.operands[i]? = some v →
    ∃ w, p.value? v = some w ∧ o.operandTypes[i]? = some w.ty
  /-- Every operation stands in one block, once: in that of its parent, or in a function. -/
  placed : ∀ u o, p.op? u = some o → u ∉ outside →
    ∃ r, r.parent? = o.parent ∧ ∀ s, (p.opsIn s).count u = if s = r then 1 else 0
  /-- Only applies that have not been closed stand nowhere. -/
  unplaced : ∀ u ∈ outside,
    (∃ o, p.op? u = some o ∧ o.kind.body?.isSome) ∧ ∀ r, u ∉ p.opsIn r

/-- Whatever a program mentions is there. -/
structure InRange (p : Program) : Prop where
  op_id : ∀ u o, p.op? u = some o → o.id = u
  block : ∀ r, ∀ u ∈ p.opsIn r, (p.op? u).isSome
  parent : ∀ u o a, p.op? u = some o → o.parent = some a → (p.op? a).isSome
  params : ∀ f ∈ p.functions.toList, ∀ v ∈ f.args, (p.value? v).isSome
  operand : ∀ u o, p.op? u = some o → ∀ v ∈ o.operands, (p.value? v).isSome
  result : ∀ u o, p.op? u = some o → ∀ v ∈ o.results, (p.value? v).isSome
  arg : ∀ a o body, p.op? a = some o → o.kind.body? = some body →
    body.args.length = o.operands.length ∧ ∀ v ∈ body.args, (p.value? v).isSome
  /-- A use names an operation and one of its operands. -/
  use : ∀ v, ∀ use ∈ p.usesOf v, ∃ o, p.op? use.user = some o ∧ use.operand < o.operands.length

/-- The programs that commits and new types make of a program. -/
inductive Rewritten (p : Program) : Program → Prop
  | refl :
      Rewritten p p
  | commit {q r : Program} {u : OpId} {b : Bounds} :
      Rewritten p q →
      q.commit u b = .ok r →
      Rewritten p r
  | setType {q : Program} (v : ValueId) (ty : Ty) :
      Rewritten p q →
      Rewritten p (q.setType v ty)
  | setOperandType {q : Program} (user : OpId) (operand : Nat) (ty : Ty) :
      Rewritten p q →
      Rewritten p (q.setOperandType user operand ty)

/-- Commits and new types leave the frame alone. -/
theorem Rewritten.sameFrame {p q : Program} (h : p.Rewritten q) : p.SameFrame q := by
  induction h with
  | refl => exact SameFrame.refl p
  | commit _ hcommit ih => exact ih.trans (sameFrame_commit hcommit)
  | setType v ty _ ih => exact ih.trans (sameFrame_setType _ v ty)
  | setOperandType user operand ty _ ih =>
      exact ih.trans (sameFrame_setOperandType _ user operand ty)

theorem Rewritten.trans {p q r : Program} (hpq : p.Rewritten q) (hqr : q.Rewritten r) :
    p.Rewritten r := by
  induction hqr with
  | refl => exact hpq
  | commit _ hcommit ih => exact .commit ih hcommit
  | setType v ty _ ih => exact .setType v ty ih
  | setOperandType user operand ty _ ih => exact .setOperandType user operand ty ih

theorem exists_value? {p : Program} {v : ValueId} (h : (p.originOf v).isSome) :
    ∃ w, p.value? v = some w :=
  Option.isSome_iff_exists.1 (Option.isSome_map.symm.trans h)

namespace SameFrame

variable {p q : Program}

theorem parent {u : OpId} {o : Operation} (h : p.SameFrame q) (ho : p.op? u = some o) :
    ∃ o', q.op? u = some o' ∧ o'.parent = o.parent := by
  have hop := h.op u
  rw [ho] at hop
  rcases Option.map_eq_some_iff.1 hop with ⟨o', ho', hframe⟩
  have hparent := congrArg Operation.parent hframe
  exact ⟨o', ho', hparent⟩

/-- Blocks belong to the frame. -/
theorem opsIn (h : p.SameFrame q) (r : Region) : q.opsIn r = p.opsIn r := by
  cases r with
  | entry k => rw [Program.opsIn, Program.opsIn, h.functions]
  | body a =>
      have hbodies : ∀ {o o' : Operation}, o'.kind.frame = o.kind.frame →
          o'.kind.body?.elim [] Block.ops = o.kind.body?.elim [] Block.ops := fun hkind => by
        rw [OpKind.body?_eq_of_frame hkind]
      show q.bodyOps a = p.bodyOps a
      cases ho : p.op? a with
      | some o =>
          obtain ⟨o', ho', _, hkind, _⟩ := h.exists_op ho
          rw [bodyOps_eq ho, bodyOps_eq ho', hbodies hkind]
      | none =>
          have hnone : q.op? a = none := by
            have hop := h.op a
            rw [ho] at hop
            simpa using hop
          rw [bodyOps_eq_nil ho, bodyOps_eq_nil hnone]

end SameFrame

section Passes

theorem rewritten_retypeUses (ty : Ty) (uses : List Use) :
    ∀ p : Program, p.Rewritten (p.retypeUses ty uses) := by
  induction uses with
  | nil => exact fun _ => .refl
  | cons use rest ih =>
      intro p
      simp only [retypeUses]
      split
      · exact (Rewritten.setOperandType use.user use.operand ty .refl).trans (ih _)
      · exact ih p

theorem rewritten_retypeResults (shape : Point) (results : List ValueId) :
    ∀ p : Program, p.Rewritten (p.retypeResults shape results) := by
  induction results with
  | nil => exact fun _ => .refl
  | cons v rest ih =>
      intro p
      simp only [retypeResults]
      split
      · exact ((Rewritten.setType v _ .refl).trans (rewritten_retypeUses _ _ _)).trans (ih _)
      · exact ih p

theorem rewritten_inferOps (t : ExtentTable) (name : String) (us : List OpId) :
    ∀ p : Program, p.Rewritten (p.inferOps t name us).program := by
  induction us with
  | nil => exact fun _ => .refl
  | cons u us ih =>
      intro p
      simp only [inferOps]
      split
      · exact ih p
      · split
        · split
          · exact .refl
          · next hok =>
              obtain ⟨b, shape, q, _, _, hcommit, rfl, _⟩ := inferOp_eq_ok.1 hok
              exact ((Rewritten.commit .refl hcommit).trans
                (rewritten_retypeResults shape _ q)).trans (ih _)
        · exact ih p

theorem rewritten_inferFunctions (t : ExtentTable) (fs : List Function) :
    ∀ p : Program, p.Rewritten (p.inferFunctions t fs).1.program := by
  induction fs with
  | nil => exact fun _ => .refl
  | cons f fs ih =>
      intro p
      have hf : p.Rewritten (p.inferFunction t f).program := rewritten_inferOps t f.name _ p
      simp only [inferFunctions]
      split
      · split
        · exact hf
        · exact hf.trans (ih _)
      · exact ih p

end Passes
end Program

/-- Passes write nothing but bounds and types. -/
theorem Compilation.rewritten_runPasses (passes : List Pass) :
    ∀ c : Compilation, c.program.Rewritten (c.runPasses passes).compilation.program := by
  induction passes with
  | nil => exact fun _ => .refl
  | cons pass passes ih =>
      intro c
      have hpass : c.program.Rewritten (c.perform pass).1.program := by
        cases pass with
        | extentAnalysis =>
            simp only [perform]
            split <;> exact .refl
        | shapeInference => exact Program.rewritten_inferFunctions _ _ _
        | verification => exact .refl
      simp only [runPasses]
      split
      · exact hpass
      · exact hpass.trans (ih ((c.perform pass).1.record _))

namespace Builder

/-- What holds of a builder after every call. -/
structure Sound (b : Builder) : Prop where
  building : Program.Building b.program b.opened
  filed : b.program.Filed b.outside
  distinct : b.outside.Nodup
  applies : ∀ u ∈ b.outside, ∃ o, b.program.op? u = some o ∧ o.kind.body?.isSome

theorem admits_iff {b : Builder} {c : Call} :
    b.admits c = true ↔
      (∀ v ∈ c.reads, (b.program.originOf v).isSome) ∧ c.isInner = b.opened.isSome ∧
        (c.isBegin = false → b.program.functions ≠ #[]) := by
  simp only [admits, Bool.and_eq_true, List.all_eq_true, decide_eq_true_eq, beq_iff_eq,
    Bool.or_eq_true, Bool.not_eq_true', Array.isEmpty_eq_false_iff, Program.originOf_isSome,
    and_assoc]
  cases c.isBegin <;> simp

namespace Sound

variable {b : Builder}

theorem empty : Sound {} :=
  ⟨.empty, Program.Filed.empty, List.nodup_nil, by rintro u ⟨⟩⟩

theorem coherent (h : b.Sound) : b.program.Coherent :=
  h.building.underConstruction.coherent

theorem fresh (h : b.Sound) : b.program.Fresh :=
  h.building.underConstruction.fresh

/-- A call between applies, which keeps the program growing. -/
theorem outer {p q : Program} {dropped : List OpId}
    (h : Sound { program := p, dropped })
    (hbuilding : Program.Building q none)
    (hfiled : q.Filed dropped)
    (hg : p.Grows q) :
    Sound { program := q, dropped } :=
  ⟨hbuilding, hfiled, h.distinct, fun u hu => hg.hasBody (h.applies u hu)⟩

/-- A call that fills the open apply. -/
theorem inner {p q : Program} {a : OpId} {dropped : List OpId} {kind : OpKind}
    {operands : List ValueId} {tys : List Ty}
    (h : Sound { program := p, opened := some a, dropped })
    (hq : q = (p.addInner a kind operands tys).1)
    (hbuilding : Program.Building q (some a))
    (hkind : kind.body? = none)
    (hoperands : ∀ v ∈ operands, (p.originOf v).isSome) :
    Sound { program := q, opened := some a, dropped } := by
  subst hq
  obtain ⟨o, ho, hbody⟩ := h.applies a List.mem_cons_self
  exact ⟨hbuilding, h.filed.addInner tys h.coherent ho hbody hkind hoperands, h.distinct,
    fun u hu => (Program.Grows.addInner kind operands tys p a).hasBody (h.applies u hu)⟩

/-- An apply that is given up stays outside. -/
theorem giveUp {p : Program} {a : OpId} {dropped : List OpId}
    (h : Sound { program := p, opened := some a, dropped }) :
    Sound { program := p, dropped := a :: dropped } :=
  ⟨.abandon h.building, h.filed, h.distinct, h.applies⟩

/-- An apply that is closed joins the function begun last. -/
theorem close {p q : Program} {a : OpId} {dropped : List OpId} {values : List ValueId}
    (h : Sound { program := p, opened := some a, dropped })
    (hfunctions : p.functions ≠ #[])
    (hclose : p.closeApply a = .ok (q, values)) :
    Sound { program := q, dropped } := by
  have hdistinct := List.nodup_cons.1 h.distinct
  obtain ⟨o, t, unroll, _, _, _, _, _, rfl, _⟩ := Program.closeApply_eq_ok.1 hclose
  let tys := Program.groupTypes t.operandTypes (Program.groupSize unroll).toNat
  have hg : p.Grows ((p.newResults a tys).1.append a) :=
    (Program.Grows.newResults a tys p).trans (Program.Grows.append _ a)
  refine ⟨.closeApply h.building hclose, ?_, hdistinct.2, fun u hu =>
    hg.hasBody (h.applies u (List.mem_cons_of_mem a hu))⟩
  refine (h.filed.newResults a tys).append ?_ hdistinct.1
  rwa [Program.functions_newResults]

/-- Each call keeps the accounts. -/
theorem call {b b' : Builder} {c : Call}
    (h : b.Sound)
    (hcall : b.call c = some b') :
    b'.Sound := by
  rw [Builder.call, Option.ite_none_right_eq_some] at hcall
  rcases hcall with ⟨hadmits, hperform⟩
  obtain rfl : b.perform c = b' := Option.some.inj hperform
  obtain ⟨hreads, hopen, hbegun⟩ := admits_iff.1 hadmits
  rcases b with ⟨p, opened, dropped⟩
  cases c with
  | beginFunction name stencil tys =>
      obtain rfl : opened = none := by simpa [Call.isInner] using hopen
      exact h.outer (.beginFunction name stencil tys h.building)
        (h.filed.beginFunction name stencil tys) (Program.Grows.beginFunction p name stencil tys)
  | setStencil stencil =>
      obtain rfl : opened = none := by simpa [Call.isInner] using hopen
      exact h.outer (.setStencil stencil h.building (hbegun rfl)) (h.filed.setStencil _ stencil)
        ⟨fun _ => rfl, fun _ => rfl, fun ho => ⟨_, ho, rfl, rfl⟩⟩
  | load field =>
      obtain rfl : opened = none := by simpa [Call.isInner] using hopen
      have hbuilding := Program.Building.load h.building (hbegun rfl)
        (hreads field List.mem_cons_self)
      simp only [perform, Program.load_eq] at hbuilding ⊢
      exact h.outer hbuilding
        (h.filed.newOp_append [.temp (p.typeOf field).element none] h.coherent h.fresh rfl hreads
          (hbegun rfl))
        (Program.Grows.newOp_append p _ _ [.temp (p.typeOf field).element none])
  | store value field bounds =>
      obtain rfl : opened = none := by simpa [Call.isInner] using hopen
      have hbuilding := Program.Building.store bounds h.building (hbegun rfl)
        (hreads value List.mem_cons_self)
        (hreads field (List.mem_cons_of_mem _ List.mem_cons_self))
      simp only [perform, Program.store_eq] at hbuilding ⊢
      exact h.outer hbuilding
        (h.filed.newOp_append [] h.coherent h.fresh rfl hreads (hbegun rfl))
        (Program.Grows.newOp_append p _ _ [])
  | openApply operands =>
      obtain rfl : opened = none := by simpa [Call.isInner] using hopen
      have hg := Program.Grows.openApply p operands
      have hnew := p.op?_openApply operands ⟨p.ops.size⟩
      have hbuilding := Program.Building.openApply h.building (hbegun rfl) hreads
      simp only [perform, Program.openApply_op] at hbuilding ⊢
      refine ⟨hbuilding,
        h.filed.openApply h.coherent h.fresh hreads, List.nodup_cons.2 ⟨?_, h.distinct⟩, ?_⟩
      · intro hmem
        obtain ⟨o, ho, _⟩ := h.applies _ hmem
        exact Nat.lt_irrefl _ (Program.op?_lt ho)
      · intro u hu
        rcases List.mem_cons.1 hu with rfl | hu
        · exact ⟨_, hnew.trans (if_pos rfl), rfl⟩
        · exact hg.hasBody (h.applies u hu)
  | access arg offset =>
      obtain ⟨a, rfl⟩ : ∃ a, opened = some a := Option.isSome_iff_exists.1 hopen.symm
      have hq : (p.access a arg offset).1 =
          (p.addInner a (.access offset) [arg] [.scalar (p.typeOf arg).element]).1 := by
        rw [Program.access_eq]
      exact h.inner hq (.access offset h.building (hreads arg List.mem_cons_self)) rfl hreads
  | arith operator lhs rhs =>
      obtain ⟨a, rfl⟩ : ∃ a, opened = some a := Option.isSome_iff_exists.1 hopen.symm
      have hq : (p.arith a operator lhs rhs).1 =
          (p.addInner a (.arith operator) [lhs, rhs] [p.typeOf lhs]).1 := by
        rw [Program.arith_eq]
      exact h.inner hq
        (.arith operator h.building (hreads lhs List.mem_cons_self)
          (hreads rhs (List.mem_cons_of_mem _ List.mem_cons_self))) rfl hreads
  | ret values unroll =>
      obtain ⟨a, rfl⟩ : ∃ a, opened = some a := Option.isSome_iff_exists.1 hopen.symm
      exact h.inner (p.ret_eq a values unroll) (.ret unroll h.building hreads) rfl hreads
  | finish =>
      obtain ⟨a, rfl⟩ : ∃ a, opened = some a := Option.isSome_iff_exists.1 hopen.symm
      simp only [perform]
      split
      · next hclose => exact h.close (hbegun rfl) hclose
      · exact h.giveUp
  | drop =>
      obtain ⟨a, rfl⟩ : ∃ a, opened = some a := Option.isSome_iff_exists.1 hopen.symm
      exact h.giveUp

/-- Every run keeps the accounts. -/
theorem run {cs : List Call} :
    ∀ {b b' : Builder}, b.Sound → b.run cs = some b' → b'.Sound := by
  induction cs with
  | nil =>
      intro b b' h hrun
      cases hrun
      exact h
  | cons c cs ih =>
      intro b b' h hrun
      rcases Option.bind_eq_some_iff.1 hrun with ⟨b₁, hcall, hrest⟩
      exact ih (h.call hcall) hrest

/-- The accounts, as they can be read off a program. -/
theorem exact (h : b.Sound) : b.program.Exact b.outside := by
  have hc := h.coherent
  constructor
  case op_id => exact fun u o ho => hc.op_id ho
  case value_id => exact h.filed.numbered
  case next_op => exact b.program.takeOp_supply
  case next_value => exact b.program.takeValue_supply
  case uses => exact fun v u i => hc.mem_uses
  case uses_ordered => exact h.filed.uses
  case results => exact fun v u j => hc.result
  case args => exact fun v a i => hc.arg
  case args_length =>
    intro a o body ho hbody
    have hmap := (hc.arg_types ho hbody).trans (hc.declared ho)
    simpa using congrArg List.length hmap
  case declared_length =>
    intro u o ho
    rw [hc.declared ho, List.length_map]
  case declared =>
    intro u o i v ho hv
    obtain ⟨w, hw⟩ := Program.exists_value? (hc.operand ho v (List.mem_of_getElem? hv))
    refine ⟨w, hw, ?_⟩
    rw [hc.declared ho, List.getElem?_map, hv, Option.map_some, Program.typeOf, hw]
    rfl
  case placed => exact fun u o ho hu => h.filed.count_opsIn h.fresh ho hu
  case unplaced => exact fun u hu => ⟨h.applies u hu, fun r => h.filed.not_mem_opsIn hu r⟩

/-- Whatever the program mentions is there, and no pass changes that. -/
theorem inRange (h : b.Sound) {q : Program} (hframe : b.program.SameFrame q) : q.InRange := by
  have hc := h.coherent
  have hvalue : ∀ {v}, (b.program.originOf v).isSome → (q.value? v).isSome := fun {v} hv => by
    rw [← hframe.origin] at hv
    obtain ⟨w, hw⟩ := Program.exists_value? hv
    rw [hw]
    rfl
  constructor
  case op_id => exact fun u o ho => hframe.op_id hc.op_id ho
  case block =>
    intro r u hu
    rw [hframe.opsIn] at hu
    obtain ⟨o, ho⟩ : ∃ o, b.program.op? u = some o := by
      cases r with
      | entry k =>
          obtain ⟨o, ho, _⟩ := h.fresh.entry u (Program.mem_entries_iff.2 ⟨k, hu⟩)
          exact ⟨o, ho⟩
      | body a =>
          obtain ⟨o, ho, _⟩ := h.filed.inner.1 hu
          exact ⟨o, ho⟩
    obtain ⟨o', ho', _⟩ := hframe.exists_op ho
    rw [ho']
    rfl
  case parent =>
    intro u o a ho hparent
    obtain ⟨o', ho', hparent'⟩ := hframe.symm.parent ho
    obtain ⟨oa, _, hoa, _⟩ := Program.mem_bodyOps.1
      (h.filed.inner.2 ⟨o', ho', hparent'.trans hparent⟩)
    obtain ⟨oa', hoa', _⟩ := hframe.exists_op hoa
    rw [hoa']
    rfl
  case params =>
    intro f hf v hv
    rw [hframe.functions] at hf
    obtain ⟨i, hi⟩ := List.getElem?_of_mem hv
    exact hvalue (by rw [h.filed.params f hf hi]; rfl)
  case operand =>
    intro u o ho v hv
    obtain ⟨o', ho', _, _, hoperands, _⟩ := hframe.symm.exists_op ho
    exact hvalue (hc.operand ho' v (hoperands ▸ hv))
  case result =>
    intro u o ho v hv
    obtain ⟨o', ho', _, _, _, hresults⟩ := hframe.symm.exists_op ho
    obtain ⟨j, hj⟩ := hc.mem_results ho' (hresults ▸ hv)
    exact hvalue (by rw [hj]; rfl)
  case arg =>
    intro a o body ho hbody
    obtain ⟨o', ho', _, hkind, hoperands, _⟩ := hframe.symm.exists_op ho
    have hbody' : o'.kind.body? = some body := (OpKind.body?_eq_of_frame hkind).trans hbody
    refine ⟨?_, fun v hv => hvalue (hc.args ho' hbody' v hv)⟩
    rw [← hoperands]
    exact h.exact.args_length a o' body ho' hbody'
  case use =>
    intro v use huse
    rw [hframe.uses] at huse
    obtain ⟨o, ho, hi⟩ := hc.mem_uses.1 huse
    obtain ⟨o', ho', _, _, hoperands, _⟩ := hframe.exists_op ho
    refine ⟨o', ho', ?_⟩
    rw [hoperands]
    exact (List.getElem?_eq_some_iff.1 hi).1

end Sound

/-- After every run of calls the accounts of the program are exact; and what the program
mentions is there, whatever passes do to it. -/
theorem exact_of_run {cs : List Call} {b : Builder} (h : run {} cs = some b) :
    b.program.Exact b.outside ∧
      (∀ q, b.program.Rewritten q → q.InRange) ∧
      ∀ terminal, b.program.Rewritten
        (Compilation.run { program := b.program } terminal).compilation.program := by
  have hsound : b.Sound := Sound.empty.run h
  refine ⟨hsound.exact, fun q hq => hsound.inRange hq.sameFrame, fun terminal => ?_⟩
  exact Compilation.rewritten_runPasses terminal.required { program := b.program }

/-- Calls for two functions.  The second one reads a value of the first; it gives up an apply
without a return, closes another one, and leaves a third one open. -/
def patchwork : List Call :=
  [.beginFunction "first" true [.field .f64 1], .load ⟨0⟩,
    .beginFunction "second" true [.field .f64 1],
    .openApply [⟨1⟩, ⟨1⟩], .access ⟨3⟩ [.one], .finish,
    .openApply [⟨1⟩], .access ⟨6⟩ [.one], .ret [⟨7⟩] none, .finish,
    .store ⟨8⟩ ⟨2⟩ { lower := [.ofInt64 0], upper := [.ofInt64 8] }, .openApply [⟨8⟩, ⟨0⟩]]

theorem exact_of_run_patchwork :
    ∃ b, run {} patchwork = some b ∧ b.opened = some ⟨7⟩ ∧ b.dropped = [⟨1⟩] ∧
      b.program.entries = [⟨0⟩, ⟨3⟩, ⟨6⟩] ∧ b.program.Exact b.outside ∧
      (∀ q, b.program.Rewritten q → q.InRange) ∧
      ∀ terminal, b.program.Rewritten
        (Compilation.run { program := b.program } terminal).compilation.program :=
  ⟨_, rfl, rfl, rfl, by decide, exact_of_run (show run {} patchwork = some _ from rfl)⟩

end Builder
end StencilShapes
