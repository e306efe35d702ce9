import StencilShapes.Proofs.Description.Accepted
import StencilShapes.Proofs.Description.Modular

/-!
# Functions that are built in place

All functions of a description are built in one program.  A fault ends a function
wherever it stands, and what the function has built by then stays in the program:
operations, values and uses that no later function asked for.  Elaboration as it is
defined goes back to the program before the function.  Here functions are elaborated in
place, with a program that cannot go back, and the two are compared.

The outcome of a step in place is that of the step of elaboration, so a function has the
same fault both ways.  Which fault that is does not depend on the program, be it sound or
full of leftovers, and so each function is judged as if it were alone.

**Results.**
* `InPlace.outcome_addOps`: the operations of a function, built in place.
* `FunctionDesc.outcome_elaborateInPlace`: a function in place and in elaboration.
* `FunctionDesc.snd_buildIn`: the fault of a function does not depend on the program.
* `Description.load_eq`: a description in place and in elaboration.
* `Description.load_reports_each`: the diagnostics are those of the functions alone.
-/

namespace StencilShapes

/-- Elaboration in one program, in which all that has been built stays, also after a
fault. -/
abbrev InPlace := ExceptT ElaborationFault (StateM Program)

namespace InPlace

variable {α β : Type}

/-- A call that lets the program grow. -/
def call (f : Program → Program × α) : InPlace α :=
  modifyGet fun p => (f p).swap

/-- Closes an apply.  A program whose apply cannot be closed is as it was. -/
def close (apply : OpId) : InPlace (List ValueId) := do
  match (← get).closeApply apply with
  | .error fault => throw (.close fault)
  | .ok (p, values) => do
      set p
      return values

/-- The names in the body of an apply, with the rank as far as it is known. -/
structure BodyNames where
  scope : Scope ValueId
  rank : Option Nat

/-- Builds one operation of the body of `apply`. -/
def addBodyOp (apply : OpId) (args : List ValueId) (last : Bool) (s : BodyNames) :
    BodyOpDesc → InPlace BodyNames
  | .access result param offset => do
      let arg ← s.scope.get param
      if ¬ args.contains arg then throw (.notParam param)
      let rank ← unifyRank s.rank offset.length (.access result param offset)
      let v ← call (·.access apply arg offset)
      let scope ← s.scope.define result v
      return { scope, rank := some rank }
  | .arith result operator lhs rhs => do
      let l ← s.scope.get lhs
      let r ← s.scope.get rhs
      let v ← call (·.arith apply operator l r)
      let scope ← s.scope.define result v
      return { s with scope }
  | .ret operands unroll => do
      if ¬ last then throw .earlyReturn
      let values ← s.scope.getAll operands
      let rank ←
        match unroll with
        | none => pure s.rank
        | some u => some <$> unifyRank s.rank u.length (.unroll u)
      modify (·.ret apply values unroll)
      return { s with rank }

/-- Builds the operations of a body. -/
def addBodyOps (apply : OpId) (args : List ValueId) (s : BodyNames) :
    List BodyOpDesc → InPlace BodyNames
  | [] => pure s
  | op :: rest => do
      let s ← addBodyOp apply args rest.isEmpty s op
      addBodyOps apply args s rest

def addLoad (s : Scope Named) (result field : String) : InPlace (Scope Named) := do
  let n ← s.get field
  let v ← call (·.load n.value)
  s.define result { value := v, rank := n.rank }

def addStore (s : Scope Named) (value field : String) (lower upper : Point) :
    InPlace (Scope Named) := do
  if lower.length ≠ upper.length then
    throw (.storeEnds value lower.length upper.length)
  let v ← s.get value
  let f ← s.get field
  let rank ← v.unify (some lower.length) (.stored value lower value)
  let _ ← f.unify rank (.stored value lower field)
  let _ ← call (·.store v.value f.value { lower, upper })
  return s

/-- Builds an apply with its body. -/
def addApply (s : Scope Named) (results operands params : List String)
    (body : List BodyOpDesc) : InPlace (Scope Named) := do
  if params.length ≠ operands.length then
    throw (.paramCount operands.length params.length)
  let ns ← s.getAll operands
  let rank ← operandRank none (operands.zip ns)
  let (apply, args) ← call (·.openApply (ns.map Named.value))
  let scope ← Scope.defineAll {} (params.zip args)
  let b ← addBodyOps apply args { scope, rank } body
  let values ← close apply
  if values.length ≠ results.length then
    throw (.resultCount values.length results.length)
  s.defineAll (results.zip (values.map fun v => { value := v, rank := b.rank }))

def addOp (s : Scope Named) : OpDesc → InPlace (Scope Named)
  | .load result field => addLoad s result field
  | .apply results operands params body => addApply s results operands params body
  | .store value field lower upper => addStore s value field lower upper

def addOps (s : Scope Named) : List OpDesc → InPlace (Scope Named)
  | [] => pure s
  | op :: rest => do
      let s ← addOp s op
      addOps s rest

end InPlace

/-- Adds a function to the program. -/
def FunctionDesc.elaborateInPlace (f : FunctionDesc) : InPlace Unit := do
  let args ← InPlace.call (·.beginFunction f.name f.stencil f.argTypes)
  let scope ← Scope.defineAll {} (f.argNames args)
  let _ ← InPlace.addOps scope f.ops
  return ()

/-- The program after a function has been built in it, as far as the function could be built,
and the diagnostic if it could not. -/
def FunctionDesc.buildIn (f : FunctionDesc) (p : Program) : Program × List Diagnostic :=
  match f.elaborateInPlace.run.run p with
  | (.ok (), q) => (q, [])
  | (.error fault, q) => (q, [fault.diagnostic f.name])

/-- Builds functions one after the other in one program and collects the diagnostics. -/
def buildFunctionsIn (p : Program) : List FunctionDesc → Program × List Diagnostic
  | [] => (p, [])
  | f :: rest =>
      let (p, ds) := f.buildIn p
      let (p, es) := buildFunctionsIn p rest
      (p, ds ++ es)

/-- What loading gives. -/
structure Loaded where
  program : Option Program
  diagnostics : List Diagnostic

/-- Builds all functions in one program, which is given out if none of them is faulty. -/
def Description.load (d : Description) : Loaded :=
  let (p, ds) := buildFunctionsIn {} d.functions
  { program := if ds.isEmpty then some p else none, diagnostics := ds }

/-- What loading gives, where elaboration has the given result. -/
def Loaded.of : Except (List Diagnostic) Program → Loaded
  | .ok p => { program := some p, diagnostics := [] }
  | .error ds => { program := none, diagnostics := ds }

namespace InPlace

variable {α β : Type} {p : Program}

theorem run_bind (x : InPlace α) (k : α → InPlace β) :
    (x >>= k).run.run p =
      match x.run.run p with
      | (.ok a, q) => (k a).run.run q
      | (.error fault, q) => (.error fault, q) := by
  show (match x.run.run p with | (r, q) => (ExceptT.bindCont k r).run q) = _
  rcases x.run.run p with ⟨_ | _, _⟩ <;> rfl

/-- What a step gives on a program, without what is left behind by a faulty one. -/
def outcome (x : InPlace α) (p : Program) : Elaboration (α × Program) :=
  match x.run.run p with
  | (.ok a, q) => .ok (a, q)
  | (.error fault, _) => .error fault

theorem run_of_outcome_ok {x : InPlace α} {a : α} {q : Program} (h : x.outcome p = .ok (a, q)) :
    x.run.run p = (.ok a, q) := by
  rw [outcome] at h
  revert h
  rcases x.run.run p with ⟨_ | _, _⟩ <;> rintro ⟨⟩
  rfl

theorem exists_run_of_outcome_error {x : InPlace α} {fault : ElaborationFault}
    (h : x.outcome p = .error fault) :
    ∃ q, x.run.run p = (.error fault, q) := by
  rw [outcome] at h
  revert h
  rcases x.run.run p with ⟨_ | _, q⟩ <;> rintro ⟨⟩
  exact ⟨q, rfl⟩

theorem outcome_pure (a : α) : (pure a : InPlace α).outcome p = pure (a, p) := rfl

theorem outcome_bind (x : InPlace α) (k : α → InPlace β) :
    (x >>= k).outcome p = x.outcome p >>= fun r => (k r.1).outcome r.2 := by
  rw [outcome, outcome, run_bind]
  rcases x.run.run p with ⟨_ | _, _⟩ <;> rfl

/-- A step that builds nothing. -/
theorem outcome_lift (x : Elaboration α) :
    (liftM x : InPlace α).outcome p = (fun a => (a, p)) <$> x := by
  cases x <;> rfl

theorem outcome_call (f : Program → Program × α) : (call f).outcome p = pure (f p).swap := rfl

theorem outcome_modify (f : Program → Program) :
    (modify f : InPlace Unit).outcome p = pure ((), f p) := rfl

theorem outcome_close (apply : OpId) :
    (close apply).outcome p =
      match p.closeApply apply with
      | .error fault => throw (.close fault)
      | .ok (q, values) => pure (values, q) := by
  rw [close, outcome_bind]
  show (match p.closeApply apply with | .error fault => _ | .ok (q, values) => _ :
    InPlace (List ValueId)).outcome p = _
  rcases p.closeApply apply with _ | ⟨_, _⟩ <;> rfl

/-- The names of a body, and its program. -/
def BodyNames.of (b : BodyState) : BodyNames × Program :=
  ({ scope := b.scope, rank := b.rank }, b.program)

theorem outcome_addBodyOp (apply : OpId) (args : List ValueId) (last : Bool) (s : BodyNames)
    (op : BodyOpDesc) :
    (addBodyOp apply args last s op).outcome p =
      BodyNames.of <$> BodyState.addOp apply args last { s with program := p } op := by
  cases op with
  | access result param offset =>
      simp only [addBodyOp, BodyState.addOp, outcome_bind, outcome_lift, bind_map_left, map_bind]
      refine bind_congr fun arg => ?_
      split
      · rfl
      · simp only [outcome_bind, outcome_lift, outcome_call, bind_map_left, map_bind, pure_bind]
        rfl
  | arith result operator lhs rhs =>
      simp only [addBodyOp, BodyState.addOp, outcome_bind, outcome_lift, outcome_call,
        bind_map_left, map_bind, pure_bind]
      rfl
  | ret operands unroll =>
      cases last with
      | false => rfl
      | true =>
          cases unroll <;>
            simp only [addBodyOp, BodyState.addOp, outcome_bind, outcome_lift, outcome_pure,
              outcome_modify, bind_map_left, map_bind, pure_bind, not_true, if_false] <;>
            rfl

theorem outcome_addBodyOps (apply : OpId) (args : List ValueId) (ops : List BodyOpDesc) :
    ∀ {p : Program} (s : BodyNames),
      (addBodyOps apply args s ops).outcome p =
        BodyNames.of <$> BodyState.addOps apply args { s with program := p } ops := by
  induction ops with
  | nil => exact fun _ => rfl
  | cons op ops ih =>
      intro p s
      simp only [addBodyOps, BodyState.addOps, outcome_bind, outcome_addBodyOp, bind_map_left,
        map_bind, ih]
      rfl

/-- The names of a function, and its program. -/
def namesOf (s : FunctionState) : Scope Named × Program :=
  (s.scope, s.program)

theorem outcome_addLoad (s : Scope Named) (result field : String) :
    (addLoad s result field).outcome p =
      namesOf <$> FunctionState.addLoad { program := p, scope := s } result field := by
  simp only [addLoad, FunctionState.addLoad, outcome_bind, outcome_lift, outcome_call,
    bind_map_left, map_bind, pure_bind]
  refine bind_congr fun n => ?_
  exact map_eq_pure_bind _ _

theorem outcome_addStore (s : Scope Named) (value field : String) (lower upper : Point) :
    (addStore s value field lower upper).outcome p =
      namesOf <$> FunctionState.addStore { program := p, scope := s } value field lower upper := by
  unfold addStore FunctionState.addStore
  split
  · rfl
  · simp only [outcome_bind, outcome_lift, outcome_call, bind_map_left, map_bind, pure_bind]
    rfl

theorem outcome_addApply (s : Scope Named) (results operands params : List String)
    (body : List BodyOpDesc) :
    (addApply s results operands params body).outcome p =
      namesOf <$>
        FunctionState.addApply { program := p, scope := s } results operands params body := by
  unfold addApply FunctionState.addApply
  split
  · rfl
  · simp only [outcome_bind, outcome_lift, outcome_call, outcome_addBodyOps, outcome_close,
      bind_map_left, map_bind, pure_bind]
    refine bind_congr fun ns => bind_congr fun rank => bind_congr fun scope =>
      bind_congr fun b => ?_
    show (match b.program.closeApply (p.openApply (ns.map Named.value)).2.1 with
      | .error fault => throw (ElaborationFault.close fault)
      | .ok (q, values) => pure (values, q) : Elaboration (List ValueId × Program)) >>= _ = _
    cases b.program.closeApply (p.openApply (ns.map Named.value)).2.1 with
    | error fault => rfl
    | ok closed =>
        rcases closed with ⟨q, values⟩
        simp only [pure_bind]
        split
        · rfl
        · rw [outcome_lift, map_bind]
          exact map_eq_pure_bind _ _

theorem outcome_addOp (s : Scope Named) (op : OpDesc) :
    (addOp s op).outcome p = namesOf <$> FunctionState.addOp { program := p, scope := s } op := by
  cases op with
  | load result field => exact outcome_addLoad s result field
  | apply results operands params body => exact outcome_addApply s results operands params body
  | store value field lower upper => exact outcome_addStore s value field lower upper

theorem outcome_addOps (ops : List OpDesc) :
    ∀ {p : Program} (s : Scope Named),
      (addOps s ops).outcome p =
        namesOf <$> FunctionState.addOps { program := p, scope := s } ops := by
  induction ops with
  | nil => exact fun _ => rfl
  | cons op ops ih =>
      intro p s
      simp only [addOps, FunctionState.addOps, outcome_bind, outcome_addOp, bind_map_left,
        map_bind, ih]
      rfl

end InPlace

namespace FunctionDesc

variable (f : FunctionDesc) (p : Program)

/-- A function is built in place as elaboration builds it, or it has the same fault. -/
theorem outcome_elaborateInPlace :
    f.elaborateInPlace.outcome p = (fun q => ((), q)) <$> f.elaborate p := by
  simp only [elaborateInPlace, elaborate, InPlace.outcome_bind, InPlace.outcome_call,
    InPlace.outcome_lift, InPlace.outcome_addOps, bind_map_left, map_bind, pure_bind]
  rfl

variable {f p}

theorem buildIn_of_ok {q : Program} (h : f.elaborate p = .ok q) : f.buildIn p = (q, []) := by
  have hout : f.elaborateInPlace.outcome p = .ok ((), q) := by
    rw [outcome_elaborateInPlace, h]
    rfl
  rw [buildIn, InPlace.run_of_outcome_ok hout]

theorem buildIn_of_error {fault : ElaborationFault} (h : f.elaborate p = .error fault) :
    (f.buildIn p).2 = [fault.diagnostic f.name] := by
  have hout : f.elaborateInPlace.outcome p = .error fault := by
    rw [outcome_elaborateInPlace, h]
    rfl
  obtain ⟨q, hrun⟩ := InPlace.exists_run_of_outcome_error hout
  rw [buildIn, hrun]

/-- Whatever there is in the program, sound functions or leftovers, a function has the fault
that it has alone. -/
theorem snd_buildIn (f : FunctionDesc) (p : Program) : (f.buildIn p).2 = (f.buildIn {}).2 := by
  have hjoin := elaborate_eq_join f p
  cases halone : f.elaborate {} with
  | ok q =>
      rw [halone] at hjoin
      rw [buildIn_of_ok halone, buildIn_of_ok hjoin]
  | error fault =>
      rw [halone] at hjoin
      rw [buildIn_of_error halone, buildIn_of_error hjoin]

theorem length_snd_buildIn_le (f : FunctionDesc) (p : Program) : (f.buildIn p).2.length ≤ 1 := by
  rw [buildIn]
  rcases f.elaborateInPlace.run.run p with ⟨_ | _, _⟩
  · exact Nat.le_refl 1
  · exact Nat.zero_le 1

end FunctionDesc

theorem buildFunctionsIn_cons (p : Program) (f : FunctionDesc) (fs : List FunctionDesc) :
    buildFunctionsIn p (f :: fs) =
      ((buildFunctionsIn (f.buildIn p).1 fs).1,
        (f.buildIn p).2 ++ (buildFunctionsIn (f.buildIn p).1 fs).2) := rfl

/-- Each function adds its own diagnostics. -/
theorem snd_buildFunctionsIn (fs : List FunctionDesc) :
    ∀ p, (buildFunctionsIn p fs).2 = fs.flatMap fun f => (f.buildIn {}).2 := by
  induction fs with
  | nil => exact fun _ => rfl
  | cons f fs ih =>
      intro p
      rw [buildFunctionsIn_cons, List.flatMap_cons, ih, f.snd_buildIn p]

/-- The diagnostics of elaboration are those in place, from any two programs: after a fault
the one goes on without the function and the other with what is left of it. -/
theorem snd_elaborateFunctions (fs : List FunctionDesc) :
    ∀ p q, (elaborateFunctions p fs).2 = (buildFunctionsIn q fs).2 := by
  induction fs with
  | nil => exact fun _ _ => rfl
  | cons f fs ih =>
      intro p q
      rw [buildFunctionsIn_cons, f.snd_buildIn q, ← f.snd_buildIn p, elaborateFunctions]
      cases hf : f.elaborate p with
      | ok p' =>
          rw [FunctionDesc.buildIn_of_ok hf]
          exact ih p' _
      | error fault =>
          rw [FunctionDesc.buildIn_of_error hf]
          exact congrArg (fault.diagnostic f.name :: ·) (ih p _)

/-- Where no function is faulty, nothing is left behind. -/
theorem buildFunctionsIn_of_elaborateFunctions {fs : List FunctionDesc} {q : Program} :
    ∀ {p : Program}, elaborateFunctions p fs = (q, []) → buildFunctionsIn p fs = (q, []) := by
  induction fs with
  | nil => exact fun h => h
  | cons f fs ih =>
      intro p h
      obtain ⟨p', hf, hfs⟩ := elaborateFunctions_eq_nil.1 h
      rw [buildFunctionsIn_cons, FunctionDesc.buildIn_of_ok hf, ih hfs]
      rfl

namespace Description

variable (d : Description)

theorem load_diagnostics : d.load.diagnostics = (buildFunctionsIn {} d.functions).2 := rfl

theorem load_program :
    d.load.program =
      if d.load.diagnostics.isEmpty then some (buildFunctionsIn {} d.functions).1 else none := rfl

/-- Loading gives what elaboration gives, though faulty functions are left in the program. -/
theorem load_eq : d.load = Loaded.of d.elaborate := by
  cases h : d.elaborate with
  | ok p =>
      have hbuild := buildFunctionsIn_of_elaborateFunctions (elaborate_eq_ok.1 h)
      rw [load, hbuild]
      rfl
  | error ds =>
      obtain ⟨hne, hds⟩ := elaborate_eq_error.1 h
      rw [snd_elaborateFunctions _ _ {}, ← load_diagnostics] at hds
      have hprogram : d.load.program = none := by
        rw [load_program, hds, if_neg (by simpa using hne)]
      show Loaded.mk d.load.program d.load.diagnostics = _
      rw [hprogram, hds]
      rfl

theorem load_single (f : FunctionDesc) : (single f).load.diagnostics = (f.buildIn {}).2 :=
  List.append_nil _

/-- The diagnostics of a description are those of its functions, each loaded alone, in order.
None of them depends on what is left behind by the functions before, and there is a program
when there are none. -/
theorem load_reports_each :
    d.load = Loaded.of d.elaborate ∧
      d.load.diagnostics = d.functions.flatMap (fun f => (single f).load.diagnostics) ∧
      (∀ f : FunctionDesc, (single f).load.diagnostics.length ≤ 1 ∧
        ∀ p, (f.buildIn p).2 = (single f).load.diagnostics) ∧
      (d.load.program.isSome ↔ d.load.diagnostics = []) := by
  refine ⟨d.load_eq, ?_, fun f => ⟨?_, fun p => ?_⟩, ?_⟩
  · rw [load_diagnostics, snd_buildFunctionsIn]
    simp only [load_single]
  · rw [load_single]
    exact f.length_snd_buildIn_le {}
  · rw [load_single]
    exact f.snd_buildIn p
  · rw [load_program]
    simp

/-- A function whose apply has no return, a sound one, and one that defines a name twice. -/
def leaving : Description :=
  let copying (name : String) (rest : List OpDesc) : FunctionDesc :=
    { name, stencil := true, args := [{ name := "in", element := .f64, rank := 1 }]
      ops := .load "t" "in" :: rest }
  { functions :=
      [copying "open" [.apply ["r"] ["t"] ["a"] [.access "x" "a" [.ofInt64 0]]],
        copying "sound" [], copying "twice" [.load "t" "in"]] }

theorem load_reports_each_leaving :
    (buildFunctionsIn {} leaving.functions).1.ops.size = 6 ∧
      leaving.load.diagnostics =
        [.error .malformed { function := "open" } "apply body must end with stencil.return",
          .error .duplicateName { function := "twice" } "value `t` is defined more than once"] ∧
      ¬ leaving.load.program.isSome := by
  obtain ⟨_, heach, _, hprogram⟩ := load_reports_each leaving
  have halone : leaving.functions.flatMap (fun f => (single f).load.diagnostics) =
      [.error .malformed { function := "open" } "apply body must end with stencil.return",
        .error .duplicateName { function := "twice" } "value `t` is defined more than once"] := by
    decide
  refine ⟨by decide, heach.trans halone, ?_⟩
  rw [hprogram, heach, halone]
  exact List.cons_ne_nil _ _

end Description
end StencilShapes
