import StencilShapes.Proofs.Compilation.Pipeline
import StencilShapes.Proofs.Description.Blocks
import StencilShapes.Proofs.Domain.Run
import StencilShapes.Proofs.Domain.Effects

/-!
# What operations declare after a successful run

When a result gets its shape, shaped operations that read it follow, and an apply passes
the type on to the argument of its body.  There it ends: what the operations of a body
declare is as it was when the body was built.  So an operation of a body that reads an
argument for a temp declares a temp without a shape, whatever shape the argument has, and
everything else that is declared is the type of the value.

**Results.**
* `Program.Reshaped.inferOp`: what a step does to types, and what it declares in bodies.
* `Program.inferShapes_keeps`: what each step keeps a run keeps.
* `Description.declares_values`: what operations of stencil programs declare.
-/

namespace StencilShapes

/-- The type without its shape. -/
def Ty.unshaped : Ty → Ty
  | .temp e _ => .temp e none
  | ty => ty

namespace Program

/-- Operations of stencil programs declare the types of the values that they read, except
that operations of a body declare no shapes for arguments of the body. -/
structure DeclaresValues (p : Program) : Prop where
  outer : ∀ f ∈ p.functions.toList, f.stencil = true → ∀ u ∈ f.body, ∀ o, p.op? u = some o →
    o.operandTypes = o.operands.map p.typeOf
  inner : ∀ f ∈ p.functions.toList, f.stencil = true → ∀ u ∈ f.body, ∀ o body,
    p.op? u = some o → o.kind.body? = some body → ∀ x ∈ body.ops, ∀ ox, p.op? x = some ox →
      ox.operandTypes =
        ox.operands.map fun v => if v ∈ body.args then (p.typeOf v).unshaped else p.typeOf v
  /-- An argument of a body has the type of the operand for which it stands. -/
  args : ∀ f ∈ p.functions.toList, f.stencil = true → ∀ u ∈ f.body, ∀ o body,
    p.op? u = some o → o.kind.body? = some body →
      body.args.map p.typeOf = o.operands.map p.typeOf

section Runs

variable {t : ExtentTable} {P : Program → Prop}

/-- What each step keeps a run keeps. -/
theorem inferShapes_keeps {p : Program}
    (h : P p)
    (hstep : ∀ {q q' : Program} {name o i}, P q → q.inferOp t name o = .ok (q', i) → P q') :
    P (p.inferShapes t).1 :=
  inferShapes_lists (P := fun _ q => P q) h fun hq _ hok => hstep hq hok

end Runs

/-- Nothing but shapes has been written into types, and nothing at all into what inner
operations declare. -/
structure Reshaped (p q : Program) : Prop where
  frame : p.SameFrame q
  types : ∀ v, p.Flows v → (q.typeOf v).unshaped = (p.typeOf v).unshaped
  declared : ∀ {u o o'}, p.op? u = some o → o.kind.isShaped = false → q.op? u = some o' →
    o'.operandTypes = o.operandTypes

namespace Reshaped

variable {p q q' : Program}

theorem refl (p : Program) : p.Reshaped p where
  frame := SameFrame.refl p
  types _ _ := rfl
  declared ho _ ho' := by rw [Option.some.inj (ho.symm.trans ho')]

theorem commit {u : OpId} {b : Bounds}
    (h : p.Reshaped q)
    (hcommit : q.commit u b = .ok q') :
    p.Reshaped q' := by
  refine ⟨h.frame.trans (sameFrame_commit hcommit), fun v hv => ?_, fun {x o o'} ho hk ho' => ?_⟩
  · rw [typeOf_commit hcommit]
    exact h.types v hv
  · obtain ⟨o₁, ho₁, _, _, htys⟩ := exists_op_of_commit hcommit ho'
    rw [htys]
    exact h.declared ho hk ho₁

/-- A temp gets a shape, and shaped operations that read it follow. -/
theorem retype {v : ValueId} {e : Element} {s : Option Point}
    (h : p.Reshaped q)
    (hc : p.Coherent)
    (hv : q.typeOf v = .temp e s)
    (shape : Point) :
    p.Reshaped ((q.setType v (.temp e (some shape))).retypeUses (.temp e (some shape))
      (q.usesOf v)) := by
  refine ⟨(h.frame.trans (sameFrame_setType q v _)).trans (sameFrame_retypeUses _ _ _),
    fun w hw => ?_, fun {x o o'} ho hk ho' => ?_⟩
  · rw [Typed.typeOf_retype hc h.frame _ hw, ← h.types w hw]
    split
    · next heq =>
        rw [heq, hv]
        rfl
    · rfl
  · obtain ⟨o₁, ho₁, _, _, htys⟩ := Typed.op_retype hc h.frame _ ho'
    obtain ⟨_, hkind, _⟩ := h.frame.op_eq ho ho₁
    have hinner : ¬ o₁.kind.isShaped = true := by
      rw [OpKind.isShaped_eq_of_frame hkind, hk]
      exact Bool.false_ne_true
    rw [← h.declared ho hk ho₁]
    exact List.ext_getElem? fun j => by rw [htys, if_neg fun hread => hinner hread.1]

theorem retypeResults {shape : Point} {vs : List ValueId} (hc : p.Coherent) :
    ∀ {q : Program}, p.Reshaped q → p.Reshaped (q.retypeResults shape vs) := by
  induction vs with
  | nil => exact fun h => h
  | cons v vs ih =>
      intro q h
      rw [Program.retypeResults]
      split
      · next hty => exact ih (h.retype hc hty shape)
      · exact ih h

theorem inferOp {t : ExtentTable} {name : String} {o : Operation} {i : Inferred}
    (h : p.Reshaped q)
    (hc : p.Coherent)
    (hok : q.inferOp t name o = .ok (q', i)) :
    p.Reshaped q' := by
  obtain ⟨_, shape, _, _, _, hcommit, rfl, _⟩ := inferOp_eq_ok.1 hok
  exact (h.commit hcommit).retypeResults hc

end Reshaped

section Loaded

variable {p q : Program} {t : ExtentTable} {v : ValueId}

/-- In a loaded program values that have a rank are fields or temps without a shape. -/
theorem HasRank.unshaped_typeOf {r : Nat}
    (h : p.HasRank v r)
    (hc : p.Coherent) (hs : p.Scoped) :
    (p.typeOf v).unshaped = p.typeOf v := by
  cases h with
  | arg _ hty =>
      rw [hty]
      rfl
  | result horigin ho hk _ _ =>
      obtain ⟨o', ho', hres⟩ := hc.result.1 horigin
      obtain rfl := Option.some.inj (ho.symm.trans ho')
      obtain ⟨e, he⟩ := hs.results ho hk v (List.mem_of_getElem? hres)
      rw [he]
      rfl

/-- Inference leaves the types of the results of inner operations alone. -/
theorem Commits.typeOf_inner {listed : List Inferred} {x : OpId} {o : Operation}
    (h : p.Commits listed q)
    (hc : p.Coherent)
    (ho : p.op? x = some o)
    (hk : o.kind.isShaped = false)
    (hv : v ∈ o.results) :
    q.typeOf v = p.typeOf v := by
  refine h.types v (hc.flows ho hv) fun i hi oi hoi => hc.not_mem_results ho hoi hv ?_
  rintro rfl
  obtain ⟨o', ho', hinf, _⟩ := (h.committed i hi).results
  obtain rfl : o = o' := Option.some.inj (ho.symm.trans ho')
  rw [OpKind.isShaped_of_isInferable hinf] at hk
  cases hk

end Loaded

/-- An argument of a body has lost its shape, compared with the type that it had when the
program was loaded. -/
theorem typeOf_arg_of_progress {p q : Program} {t : ExtentTable} {done : OpId → Prop}
    {u : OpId} {o : Operation} {body : Block} {v : ValueId}
    (hprogress : p.Progress t done q)
    (hreshaped : p.Reshaped q)
    (hc : p.Coherent) (hs : p.Scoped)
    (ho : p.op? u = some o)
    (hbody : o.kind.body? = some body)
    (hv : v ∈ body.args) :
    p.typeOf v = (q.typeOf v).unshaped := by
  have hk := OpKind.isShaped_of_body? hbody
  obtain ⟨o', ho', _, hkind, hops, _⟩ := hprogress.frame.exists_op ho
  have hbody' : o'.kind.body? = some body := (OpKind.body?_eq_of_frame hkind).trans hbody
  have htypes := (hc.arg_types ho hbody).trans (hc.declared ho)
  have htypes' := (hprogress.typed.arg_types ho' hbody').trans
    (hprogress.typed.declared ho' ((OpKind.isShaped_eq_of_frame hkind).trans hk))
  rw [hops] at htypes'
  -- Before and after, the argument has the type of the operand for which it stands.
  obtain ⟨j, hj⟩ := List.getElem?_of_mem hv
  have hold := congrArg (·[j]?) htypes
  have hnew := congrArg (·[j]?) htypes'
  simp only [List.getElem?_map, hj, Option.map_some] at hold hnew
  obtain ⟨w, hw, hold⟩ := Option.map_eq_some_iff.1 hold.symm
  rw [hw, Option.map_some, Option.some.injEq] at hnew
  have hmem := List.mem_of_getElem? hw
  obtain ⟨r, hr⟩ := hs.ranked ho hk
  rw [hnew, hreshaped.types w (hs.outer ho hk w hmem).flows,
    (hr.operands w hmem).unshaped_typeOf hc hs, hold]

end Program

open Program

/-- What an operation of a body reads is an argument of the body, or else a result of an
operation of the body. -/
theorem Description.inner_operand_of_elaborate {d : Description} {p : Program} {u x : OpId}
    {o ox : Operation} {body : Block} {v : ValueId}
    (hload : d.elaborate = .ok p)
    (ho : p.op? u = some o) (hbody : o.kind.body? = some body)
    (hx : x ∈ body.ops) (hox : p.op? x = some ox)
    (hv : v ∈ ox.operands) :
    v ∈ body.args ∨
      v ∉ body.args ∧ ∃ w ow, p.op? w = some ow ∧ ow.kind.isShaped = false ∧ v ∈ ow.results := by
  have hsound := Description.sound_of_elaborate hload
  have hblock : p.opsIn (.body u) = body.ops := by
    rw [opsIn, bodyOps_eq ho, hbody]
    rfl
  obtain ⟨k, hxk⟩ := List.getElem?_of_mem hx
  rcases operand_of_elaborate hload (.body u) (hblock ▸ hxk) hox hv with
    harg | ⟨j, _, w, ow, hw, how, hres⟩
  · obtain ⟨o', body', ho', hbody', hmem⟩ := mem_argsIn_body.1 harg
    obtain rfl : o = o' := Option.some.inj (ho.symm.trans ho')
    obtain rfl : body = body' := Option.some.inj (hbody.symm.trans hbody')
    exact .inl hmem
  · obtain ⟨ow', how', hk⟩ := hsound.fresh.inner ho hbody w (hblock ▸ List.mem_of_getElem? hw)
    obtain rfl : ow = ow' := Option.some.inj (how.symm.trans how')
    refine .inr ⟨fun hmem => ?_, w, ow, how, hk, hres⟩
    -- What an operation defines stands for no operand.
    obtain ⟨i, hi⟩ := List.getElem?_of_mem hmem
    exact (hsound.coherent.flows how hres).2 u i
      (hsound.coherent.arg.2 ⟨o, body, ho, hbody, hi⟩)

/-- After a successful run all operations of stencil programs declare the types of the
values that they read, except that operations of a body declare no shapes for arguments. -/
theorem Description.declares_values {d : Description} {p : Program}
    (hload : d.elaborate = .ok p)
    (hrun : (Compilation.run { program := p } .verification).failing = none) :
    (Compilation.run { program := p } .verification).compilation.program.DeclaresValues := by
  obtain ⟨t, s, hextents, hinfer⟩ := Compilation.of_run_verification hrun
  generalize (Compilation.run { program := p } .verification).compilation.program = q at hinfer ⊢
  have hsound := Description.sound_of_elaborate hload
  have hc : p.Coherent := hsound.coherent
  have hs := Description.scoped_of_elaborate hload
  have hprogress := progress_of_inferShapes hc hs (measured_of_extents hc hextents) hinfer
  have hq : (p.inferShapes t).1 = q := by rw [hinfer]
  have hreshaped : p.Reshaped q :=
    hq ▸ inferShapes_keeps (t := t) (Reshaped.refl p) fun h hok => h.inferOp hc hok
  have hcommits : p.Commits _ (p.inferShapes t).1 :=
    (run_inferFunctions (t := t) hc hsound.fresh p.functions.toList (Commits.start p)).commits
  rw [hq] at hcommits
  -- The operations of functions are shaped.
  have hshaped : ∀ f ∈ q.functions.toList, ∀ u ∈ f.body, ∀ o, q.op? u = some o →
      o.kind.isShaped = true := by
    intro f hf u hu o ho
    rw [hprogress.frame.functions] at hf
    obtain ⟨o', ho', _, hkind, _⟩ := hprogress.frame.symm.exists_op ho
    obtain ⟨o'', ho'', hk⟩ := hs.body f hf u hu
    obtain rfl : o' = o'' := Option.some.inj (ho'.symm.trans ho'')
    exact (OpKind.isShaped_eq_of_frame hkind).symm.trans hk
  constructor
  case outer =>
    exact fun f hf _ u hu o ho => hprogress.typed.declared ho (hshaped f hf u hu o ho)
  case args =>
    exact fun f hf _ u hu o body ho hbody => (hprogress.typed.arg_types ho hbody).trans
      (hprogress.typed.declared ho (hshaped f hf u hu o ho))
  case inner =>
    intro f hf _ u hu o body ho hbody x hx ox hox
    obtain ⟨o', ho', _, hkind, _⟩ := hprogress.frame.symm.exists_op ho
    have hbody' : o'.kind.body? = some body := (OpKind.body?_eq_of_frame hkind).trans hbody
    obtain ⟨ox', hox', _, _, hops, _⟩ := hprogress.frame.symm.exists_op hox
    obtain ⟨ox'', hox'', hinner⟩ := hsound.fresh.inner ho' hbody' x hx
    obtain rfl : ox' = ox'' := Option.some.inj (hox'.symm.trans hox'')
    rw [hreshaped.declared hox' hinner hox, hc.declared hox', hops]
    refine List.map_congr_left fun v hv => ?_
    rcases inner_operand_of_elaborate hload ho' hbody' hx hox' (hops ▸ hv) with
      harg | ⟨hnot, w, ow, how, hkw, hres⟩
    · rw [if_pos harg]
      exact typeOf_arg_of_progress hprogress hreshaped hc hs ho' hbody' harg
    · rw [if_neg hnot]
      exact (hcommits.typeOf_inner hc how hkw hres).symm

theorem Description.declares_values_smoothing :
    (Compilation.run { program := Program.smoothing } .verification).failing = none ∧
      (Compilation.run
        { program := Program.smoothing } .verification).compilation.program.DeclaresValues := by
  have hrun : (Compilation.run { program := Program.smoothing } .verification).failing = none := by
    rw [Compilation.run, Pass.required_verification]
    decide
  exact ⟨hrun, Description.declares_values Program.elaborate_smoothing hrun⟩

/-- A body that returns its argument. -/
def Description.passing : Description :=
  { functions :=
      [{ name := "pass"
         stencil := true
         args :=
           [{ name := "in", element := .f64, rank := 1 },
             { name := "out", element := .f64, rank := 1 }]
         ops :=
           [.load "t" "in", .apply ["u"] ["t"] ["a"] [.ret ["a"] none],
             .store "u" "out" [.ofInt64 0] [.ofInt64 4]] }] }

/-- The program of a body that returns its argument. -/
def Program.passing : Program :=
  (elaborateFunctions {} Description.passing.functions).1

/-- What a run makes of it. -/
def Program.passingShaped : Program :=
  (Compilation.runPasses { program := Program.passing }
    [.extentAnalysis, .shapeInference, .verification]).compilation.program

theorem Program.operandTypes_passingShaped :
    passingShaped.op? ⟨2⟩ = some
        { id := ⟨2⟩, kind := .ret none, operands := [⟨3⟩], operandTypes := [.temp .f64 none]
          results := [], parent := some ⟨1⟩ } ∧
      passingShaped.typeOf ⟨3⟩ = .temp .f64 (some [.ofInt64 4]) := by
  decide

/-- The return of an argument does not declare the shape that the argument has. -/
theorem Description.return_declares_no_shape :
    Description.passing.elaborate = .ok Program.passing ∧
      (Compilation.run { program := Program.passing } .verification).failing = none ∧
      (Compilation.run { program := Program.passing } .verification).compilation.program =
        Program.passingShaped ∧
      ∃ f ∈ Program.passingShaped.functions.toList, f.stencil = true ∧ ∃ u ∈ f.body, ∃ o body,
        Program.passingShaped.op? u = some o ∧ o.kind.body? = some body ∧ ∃ x ∈ body.ops, ∃ ox,
          Program.passingShaped.op? x = some ox ∧
            ox.operandTypes ≠ ox.operands.map Program.passingShaped.typeOf := by
  have hfunctions : Program.passingShaped.functions.toList =
      [{ name := "pass", stencil := true, args := [⟨0⟩, ⟨1⟩], body := [⟨0⟩, ⟨1⟩, ⟨3⟩] }] := by
    decide
  have happly : Program.passingShaped.op? ⟨1⟩ = some
      { id := ⟨1⟩
        kind := .apply (some { lower := [.ofInt64 0], upper := [.ofInt64 4] })
          { args := [⟨3⟩], ops := [⟨2⟩] }
        operands := [⟨2⟩], operandTypes := [.temp .f64 (some [.ofInt64 4])], results := [⟨4⟩]
        parent := none } := by
    decide
  obtain ⟨hreturn, hty⟩ := Program.operandTypes_passingShaped
  rw [Compilation.run, Pass.required_verification]
  refine ⟨by rfl, by decide, rfl, _, by rw [hfunctions]; exact List.mem_singleton_self _, rfl,
    ⟨1⟩, by decide, _, _, happly, rfl, ⟨2⟩, List.mem_singleton_self _, _, hreturn, ?_⟩
  rw [List.map_singleton, hty]
  decide

end StencilShapes
