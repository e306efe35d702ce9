import StencilShapes.Proofs.Program.Calls

/-!
# Bounds are written once

A program can be grown, written to and compiled in any order and any number of times, and
each of these may fail.  A commit writes its program in place, or refuses and leaves it
alone; everything else that writes bounds goes through a commit.  So bounds that are known
stay, whatever comes later, and an operation that owns none never gets any.

**Results.**
* `Program.finalize_eq_refused`: when a commit is refused.
* `Program.keeps_edit`, `Builder.keeps_act`: what one action keeps.
* `Builder.keeps_acts`: what any course of actions keeps.
* `Builder.bounds_written_once`: bounds over whole courses.
-/

namespace StencilShapes

/-- Something that writes to a program that is there. -/
inductive Edit where
  | finalize (op : OpId) (bounds : Bounds)
  | setType (v : ValueId) (ty : Ty)
  | setOperandType (user : OpId) (operand : Nat) (ty : Ty)
  | setStencil (function : Nat) (stencil : Bool)
  | inferFunction (function : Nat) (extents : ExtentTable)
  | inferShapes (extents : ExtentTable)
  /-- Runs what a pass requires, with the artifacts and errors of an earlier compilation. -/
  | compile (earlier : Compilation) (terminal : Pass)

namespace Program

/-- Commits bounds in place: the program afterwards, and the fault if that is refused. -/
def finalize (p : Program) (op : OpId) (bounds : Bounds) : Program × Option CommitFault :=
  match p.commit op bounds with
  | .ok q => (q, none)
  | .error fault => (p, some fault)

/-- The positions that an edit names are there. -/
def names (p : Program) : Edit → Bool
  | .finalize op _ => op.index < p.ops.size
  | .setType v _ => v.index < p.values.size
  | .setOperandType user _ _ => user.index < p.ops.size
  | .setStencil function _ => function < p.functions.size
  | .inferFunction function _ => function < p.functions.size
  | .inferShapes _ => true
  | .compile _ _ => true

/-- What becomes of a program with an edit, whether that succeeds or not. -/
def edit (p : Program) : Edit → Program
  | .finalize op bounds => (p.finalize op bounds).1
  | .setType v ty => p.setType v ty
  | .setOperandType user operand ty => p.setOperandType user operand ty
  | .setStencil function stencil => p.setStencil function stencil
  | .inferFunction function extents =>
      p.functions[function]?.elim p fun f => (p.inferFunction extents f).program
  | .inferShapes extents => (p.inferShapes extents).1
  | .compile earlier terminal =>
      (Compilation.run { earlier with program := p } terminal).compilation.program

end Program

/-- A call that grows the program, or an edit. -/
inductive Action where
  | call (c : Call)
  | edit (e : Edit)

namespace Builder

/-- Does one thing, if the interface admits it. -/
def act (b : Builder) : Action → Option Builder
  | .call c => b.call c
  | .edit e => if b.program.names e then some { b with program := b.program.edit e } else none

/-- Does one thing after another. -/
def acts (b : Builder) : List Action → Option Builder
  | [] => some b
  | a :: as => (b.act a).bind fun b => b.acts as

theorem acts_append (as bs : List Action) :
    ∀ b : Builder, b.acts (as ++ bs) = (b.acts as).bind fun b => b.acts bs := by
  induction as with
  | nil => exact fun _ => rfl
  | cons a as ih =>
      intro b
      rw [List.cons_append, acts, acts, Option.bind_assoc]
      exact Option.bind_congr fun b' _ => ih b'

end Builder

namespace OpKind

theorem commit_eq_error {bounds : Bounds} {k : OpKind} {fault : CommitFault} :
    k.commit bounds = .error fault ↔
      (fault = .alreadyFinalized ∧ ∃ b, k.isInferable = true ∧ k.bounds? = some b) ∨
        (fault = .notShapeInferable ∧ k.isInferable = false) := by
  cases k with
  | load b => cases b <;> simp [commit, isInferable, bounds?, eq_comm]
  | apply b body => cases b <;> simp [commit, isInferable, bounds?, eq_comm]
  | _ => simp [commit, isInferable, eq_comm]

theorem bounds?_eq_none {k : OpKind} (h : k.isShaped = false) : k.bounds? = none := by
  cases k <;> first | rfl | cases h

end OpKind

namespace Program

variable {p q r : Program}

/-- Operations stay, and so do the bounds that are known; no operation begins or ceases to
work on a box. -/
structure Keeps (p q : Program) : Prop where
  shaped : ∀ {u o}, p.op? u = some o → ∃ o', q.op? u = some o' ∧
    o'.kind.isShaped = o.kind.isShaped
  bounds : ∀ {u b}, p.boundsOf u = some b → q.boundsOf u = some b

namespace Keeps

theorem refl (p : Program) : p.Keeps p :=
  ⟨fun ho => ⟨_, ho, rfl⟩, fun hb => hb⟩

theorem trans (hpq : p.Keeps q) (hqr : q.Keeps r) : p.Keeps r where
  shaped ho := by
    obtain ⟨o', ho', hk⟩ := hpq.shaped ho
    obtain ⟨o'', ho'', hk'⟩ := hqr.shaped ho'
    exact ⟨o'', ho'', hk'.trans hk⟩
  bounds hb := hqr.bounds (hpq.bounds hb)

/-- A program that grows keeps its bounds: new operations come behind the old ones. -/
theorem of_grows (hg : p.Grows q) : p.Keeps q where
  shaped ho := hg.isShaped ⟨_, ho, rfl⟩
  bounds {u b} hb := by
    obtain ⟨o, ho, hb⟩ := Option.bind_eq_some_iff.1 hb
    obtain ⟨o', ho', _, hhead⟩ := hg.op ho
    rw [boundsOf, ho', Option.bind_some, ← OpKind.bounds?_head, hhead, OpKind.bounds?_head, hb]

/-- A commit finds no bounds where it writes. -/
theorem of_commit {u : OpId} {b : Bounds} (h : p.commit u b = .ok q) : p.Keeps q where
  shaped ho := by
    obtain ⟨o', ho', _, hkind, _⟩ := (sameFrame_commit h).exists_op ho
    exact ⟨o', ho', OpKind.isShaped_eq_of_frame hkind⟩
  bounds {x c} hc := by
    have hne : x ≠ u := by
      rintro rfl
      rw [boundsOf_eq_none_of_commit h] at hc
      cases hc
    rw [boundsOf_commit h, if_neg hne, hc]

/-- What writes no bounds keeps them. -/
theorem of_sameFrame (h : p.SameFrame q) (hb : ∀ u, q.boundsOf u = p.boundsOf u) : p.Keeps q where
  shaped ho := by
    obtain ⟨o', ho', _, hkind, _⟩ := h.exists_op ho
    exact ⟨o', ho', OpKind.isShaped_eq_of_frame hkind⟩
  bounds {u b} h := (hb u).trans h

end Keeps

/-- Commits and new types keep bounds, and so do all passes. -/
theorem Rewritten.keeps (h : p.Rewritten q) : p.Keeps q := by
  induction h with
  | refl => exact Keeps.refl p
  | commit _ hcommit ih => exact ih.trans (Keeps.of_commit hcommit)
  | setType v ty _ ih =>
      exact ih.trans (Keeps.of_sameFrame (sameFrame_setType _ v ty) (boundsOf_setType _ v ty))
  | setOperandType user operand ty _ ih =>
      exact ih.trans (Keeps.of_sameFrame (sameFrame_setOperandType _ user operand ty)
        (boundsOf_setOperandType _ user operand ty))

/-- A commit is refused where there are bounds already, and where there is no load and no
apply. -/
theorem commit_eq_error {u : OpId} {b : Bounds} {fault : CommitFault} :
    p.commit u b = .error fault ↔
      (fault = .alreadyFinalized ∧ ∃ o c, p.op? u = some o ∧ o.kind.isInferable = true ∧
          o.kind.bounds? = some c) ∨
        (fault = .notShapeInferable ∧ ∀ o, p.op? u = some o → o.kind.isInferable = false) := by
  unfold commit
  cases ho : p.op? u with
  | none => simpa using eq_comm
  | some o =>
      have hkind := @OpKind.commit_eq_error b o.kind fault
      dsimp only
      split
      · next fault' herror =>
          rw [herror] at hkind
          simpa using hkind
      · next k hok =>
          rw [hok] at hkind
          simpa using hkind

/-- A commit that is refused has written nothing. -/
theorem finalize_eq_refused {u : OpId} {b : Bounds} {fault : CommitFault} :
    p.finalize u b = (q, some fault) ↔ q = p ∧ p.commit u b = .error fault := by
  unfold finalize
  cases p.commit u b with
  | ok r => simp
  | error fault' =>
      simp only [Prod.mk.injEq, Option.some.injEq, Except.error.injEq]
      exact and_congr_left' eq_comm

/-- Each edit keeps what is known. -/
theorem keeps_edit (p : Program) (e : Edit) : p.Keeps (p.edit e) := by
  cases e with
  | finalize op bounds =>
      rw [edit, finalize]
      split
      · next hcommit => exact Keeps.of_commit hcommit
      · exact Keeps.refl p
  | setType v ty => exact (Rewritten.setType v ty .refl).keeps
  | setOperandType user operand ty => exact (Rewritten.setOperandType user operand ty .refl).keeps
  | setStencil function stencil => exact ⟨fun ho => ⟨_, ho, rfl⟩, fun hb => hb⟩
  | inferFunction function extents =>
      rw [edit]
      cases p.functions[function]? with
      | none => exact Keeps.refl p
      | some f => exact (rewritten_inferOps extents f.name f.body.reverse p).keeps
  | inferShapes extents => exact (rewritten_inferFunctions extents p.functions.toList p).keeps
  | compile earlier terminal =>
      exact (Compilation.rewritten_runPasses terminal.required { earlier with program := p }).keeps

end Program

open Program

namespace Builder

variable {b c : Builder}

/-- Each call grows the program, or leaves it alone. -/
theorem grows_perform (b : Builder) (c : Call) : b.program.Grows (b.perform c).program := by
  rcases b with ⟨p, opened, dropped⟩
  cases c with
  | beginFunction name stencil tys => exact Grows.beginFunction p name stencil tys
  | setStencil stencil => exact ⟨fun _ => rfl, fun _ => rfl, fun ho => ⟨_, ho, rfl, rfl⟩⟩
  | load field =>
      simp only [perform, load_eq]
      exact Grows.newOp_append p _ _ [.temp (p.typeOf field).element none]
  | store value field bounds =>
      simp only [perform, store_eq]
      exact Grows.newOp_append p _ _ []
  | openApply operands => exact Grows.openApply p operands
  | access arg offset =>
      cases opened with
      | none => exact Grows.refl p
      | some a =>
          simp only [perform, access_eq]
          exact Grows.addInner _ _ [.scalar (p.typeOf arg).element] p a
  | arith operator lhs rhs =>
      cases opened with
      | none => exact Grows.refl p
      | some a =>
          simp only [perform, arith_eq]
          exact Grows.addInner _ _ [p.typeOf lhs] p a
  | ret values unroll =>
      cases opened with
      | none => exact Grows.refl p
      | some a =>
          simp only [perform, ret_eq]
          exact Grows.addInner _ _ [] p a
  | finish =>
      cases opened with
      | none => exact Grows.refl p
      | some a =>
          simp only [perform]
          split
          · next hclose =>
              obtain ⟨_, _, _, _, _, _, _, _, rfl, _⟩ := closeApply_eq_ok.1 hclose
              exact (Grows.newResults a _ p).trans (Grows.append _ a)
          · exact Grows.refl p
  | drop =>
      cases opened with
      | none => exact Grows.refl p
      | some a => exact Grows.refl p

/-- Each action keeps what is known. -/
theorem keeps_act {a : Action} (h : b.act a = some c) : b.program.Keeps c.program := by
  cases a with
  | call call =>
      rw [act, Builder.call, Option.ite_none_right_eq_some] at h
      obtain rfl : b.perform call = c := Option.some.inj h.2
      exact Keeps.of_grows (b.grows_perform call)
  | edit e =>
      rw [act, Option.ite_none_right_eq_some] at h
      obtain rfl := Option.some.inj h.2
      exact b.program.keeps_edit e

/-- Each course of actions keeps what is known. -/
theorem keeps_acts {as : List Action} :
    ∀ {b : Builder}, b.acts as = some c → b.program.Keeps c.program := by
  induction as with
  | nil =>
      intro b h
      cases h
      exact Keeps.refl _
  | cons a as ih =>
      intro b h
      obtain ⟨b', hact, hrest⟩ := Option.bind_eq_some_iff.1 h
      exact (keeps_act hact).trans (ih hrest)

/-- However a program is built, written to and compiled: bounds that are known stay, what
is neither a load nor an apply nor a store never has any, and a commit is refused, without
a trace, for whatever is no load or apply without bounds. -/
theorem bounds_written_once {as bs : List Action}
    (hbefore : acts {} as = some b)
    (hafter : acts {} (as ++ bs) = some c) :
    (∀ u box, b.program.boundsOf u = some box → c.program.boundsOf u = some box) ∧
      (∀ u o, b.program.op? u = some o → o.kind.isShaped = false →
        b.program.boundsOf u = none ∧ c.program.boundsOf u = none) ∧
      ∀ u box q fault, c.program.finalize u box = (q, some fault) →
        q = c.program ∧ ((fault = .alreadyFinalized ∧ (c.program.boundsOf u).isSome) ∨
          (fault = .notShapeInferable ∧
            ∀ o, c.program.op? u = some o → o.kind.isInferable = false)) := by
  rw [acts_append, hbefore, Option.bind_some] at hafter
  have hkeeps := keeps_acts hafter
  refine ⟨fun u box => hkeeps.bounds, fun u o ho hk => ?_, fun u box q fault hrefused => ?_⟩
  · obtain ⟨o', ho', hk'⟩ := hkeeps.shaped ho
    rw [boundsOf, boundsOf, ho, ho', Option.bind_some, Option.bind_some]
    exact ⟨OpKind.bounds?_eq_none hk, OpKind.bounds?_eq_none (hk'.trans hk)⟩
  · obtain ⟨hq, hfault⟩ := finalize_eq_refused.1 hrefused
    refine ⟨hq, (commit_eq_error.1 hfault).imp_left ?_⟩
    rintro ⟨hfault, o, box', ho, _, hbox⟩
    rw [boundsOf, ho, Option.bind_some, hbox]
    exact ⟨hfault, rfl⟩

/-- Eight cells. -/
def eightCells : Bounds :=
  { lower := [.ofInt64 0], upper := [.ofInt64 8] }

/-- A load that is stored over eight cells and then settled by hand. -/
def settling : List Action :=
  [.call (.beginFunction "copy" true [.field .f64 1]), .call (.load ⟨0⟩),
    .call (.store ⟨1⟩ ⟨0⟩ eightCells), .edit (.finalize ⟨0⟩ eightCells)]

/-- Inference fails at the load, a second commit is refused, and the load gets a type that no
load has; then an apply is filled and given up. -/
def unsettling : List Action :=
  [.edit (.inferShapes .empty), .edit (.finalize ⟨0⟩ .nil), .edit (.setType ⟨1⟩ (.scalar .f32)),
    .edit (.setStencil 0 false), .call (.openApply [⟨1⟩]), .call (.access ⟨2⟩ [.one]),
    .edit (.inferFunction 0 .empty), .call .finish]

theorem bounds_written_once_settled :
    ∃ b c, acts {} settling = some b ∧ acts {} (settling ++ unsettling) = some c ∧
      b.program.boundsOf ⟨0⟩ = some eightCells ∧ c.program.boundsOf ⟨0⟩ = some eightCells ∧
      (∃ o, c.program.op? ⟨3⟩ = some o ∧ o.kind.isShaped = false) ∧
      (c.program.finalize ⟨0⟩ .nil).2 = some .alreadyFinalized ∧
      (c.program.finalize ⟨0⟩ .nil).1 = c.program := by
  have hbefore : acts {} settling = some _ := rfl
  have hafter : acts {} (settling ++ unsettling) = some _ := rfl
  obtain ⟨hbounds, _, hrefused⟩ := bounds_written_once hbefore hafter
  exact ⟨_, _, hbefore, hafter, by decide, hbounds ⟨0⟩ eightCells (by decide), ⟨_, rfl, rfl⟩, rfl,
    (hrefused ⟨0⟩ .nil _ .alreadyFinalized rfl).1⟩

end Builder
end StencilShapes
