import StencilShapes.Proofs.Description.Steps
import StencilShapes.Proofs.Description.WellFormed
import StencilShapes.Proofs.Domain.Chain

/-!
# Names do not matter

A function may give new names to its values, and each body of an apply to its parameters
and results, independently of all others and without regard to the names outside.  As long
as different names stay different, the same descriptions are accepted and they give the same
program, identifiers included.

Elaboration of the two descriptions goes hand in hand: scopes differ in their names only,
and everything else is equal.

**Results.**
* `Elaboration.Agree.bind`: two elaborations that agree go on to agree.
* `Scope.Renames.get`, `Scope.Renames.define`: what renamed scopes have in common.
* `OpDesc.Renamed.addOp`: an operation and its renamed form do the same.
* `Description.elaborate_iff_of_renamed`: descriptions that differ in names give the same
  program.
-/

namespace StencilShapes

/-- Of the names that are mentioned, none is taken for one of those defined that it is not.
Injective renamings do so, whatever is mentioned. -/
def KeepsApart (ρ : String → String) (mentioned defined : List String) : Prop :=
  ∀ x ∈ mentioned, ∀ y ∈ defined, ρ x = ρ y → x = y

namespace BodyOpDesc

/-- An operation of a body with new names. -/
def rename (σ : String → String) : BodyOpDesc → BodyOpDesc
  | .access result param offset => .access (σ result) (σ param) offset
  | .arith result operator lhs rhs => .arith (σ result) operator (σ lhs) (σ rhs)
  | .ret operands unroll => .ret (operands.map σ) unroll

/-- The names that an operation reads or defines. -/
def names (op : BodyOpDesc) : List String :=
  op.reads ++ op.results

end BodyOpDesc

/-- The names that an operation reads or defines, without those of its body. -/
def OpDesc.names (op : OpDesc) : List String :=
  op.reads ++ op.results

/-- An operation with new names: those of the function are renamed by `ρ`, those of the body
of an apply by a renaming of its own. -/
inductive OpDesc.Renamed (ρ : String → String) : OpDesc → OpDesc → Prop
  | load {result field : String} :
      Renamed ρ (.load result field) (.load (ρ result) (ρ field))
  | apply {results operands params : List String} {body : List BodyOpDesc}
      {σ : String → String} :
      KeepsApart σ (params ++ body.flatMap BodyOpDesc.names)
        (params ++ body.flatMap BodyOpDesc.results) →
      Renamed ρ (.apply results operands params body)
        (.apply (results.map ρ) (operands.map ρ) (params.map σ) (body.map (.rename σ)))
  | store {value field : String} {lower upper : Point} :
      Renamed ρ (.store value field lower upper) (.store (ρ value) (ρ field) lower upper)

/-- A function with new names for its values. -/
inductive FunctionDesc.Renamed : FunctionDesc → FunctionDesc → Prop
  | intro {name : String} {stencil : Bool} {args : List FieldDesc} {ops ops' : List OpDesc}
      {ρ : String → String} :
      KeepsApart ρ (args.map FieldDesc.name ++ ops.flatMap OpDesc.names)
        (args.map FieldDesc.name ++ ops.flatMap OpDesc.results) →
      List.Forall₂ (OpDesc.Renamed ρ) ops ops' →
      Renamed { name, stencil, args, ops }
        { name, stencil, args := args.map fun a => { a with name := ρ a.name }, ops := ops' }

/-- A description with new names for values, function by function. -/
def Description.Renamed (d d' : Description) : Prop :=
  List.Forall₂ FunctionDesc.Renamed d.functions d'.functions

namespace Elaboration

variable {α β α' β' : Type}

/-- Two elaborations go on with related states, or both stop. -/
inductive Agree (R : α → α' → Prop) : Elaboration α → Elaboration α' → Prop
  | ok {a : α} {a' : α'} :
      R a a' →
      Agree R (.ok a) (.ok a')
  | error {fault fault' : ElaborationFault} :
      Agree R (.error fault) (.error fault')

namespace Agree

variable {R : α → α' → Prop} {S : β → β' → Prop}

theorem bind {x : Elaboration α} {x' : Elaboration α'} {f : α → Elaboration β}
    {f' : α' → Elaboration β'}
    (h : Agree R x x')
    (hf : ∀ a a', R a a' → Agree S (f a) (f' a')) :
    Agree S (x >>= f) (x' >>= f') := by
  cases h with
  | ok hR => exact hf _ _ hR
  | error => exact .error

theorem pure {a : α} {a' : α'} (h : R a a') : Agree R (Pure.pure a) (Pure.pure a') :=
  .ok h

/-- A check that has the same outcome leaves what follows it. -/
theorem check {c c' : Prop} [Decidable c] [Decidable c'] {e e' : ElaborationFault}
    {k : Unit → Elaboration α} {k' : Unit → Elaboration α'} {x : Elaboration α}
    {x' : Elaboration α'}
    (hc : c ↔ c')
    (h : Agree R x x') :
    Agree R (if c then throw e >>= k else x) (if c' then throw e' >>= k' else x') := by
  by_cases hc' : c'
  · rw [if_pos (hc.2 hc'), if_pos hc']
    exact .error
  · rw [if_neg fun h => hc' (hc.1 h), if_neg hc']
    exact h

/-- What does not depend on names agrees with itself. -/
theorem refl {x : Elaboration α} : Agree Eq x x := by
  cases x with
  | ok a => exact .ok rfl
  | error fault => exact .error

end Agree
end Elaboration

open Elaboration

namespace Scope

variable {α : Type}

/-- Scopes that differ in their names only. -/
structure Renames (ρ : String → String) (defined : List String) (s s' : Scope α) : Prop where
  bindings : s'.bindings = s.bindings.map fun b => (ρ b.1, b.2)
  mem : ∀ b ∈ s.bindings, b.1 ∈ defined

namespace Renames

variable {ρ : String → String} {mentioned defined : List String} {s s' : Scope α} {name : String}

theorem empty : Renames ρ defined ({} : Scope α) {} :=
  ⟨rfl, List.forall_mem_nil _⟩

/-- A name is looked up as its renamed form is. -/
theorem lookup (h : s.Renames ρ defined s')
    (hρ : KeepsApart ρ mentioned defined)
    (hname : name ∈ mentioned) :
    s'.bindings.lookup (ρ name) = s.bindings.lookup name := by
  obtain ⟨bindings⟩ := s
  obtain ⟨hbindings, hmem⟩ := h
  rw [hbindings]
  dsimp only at hmem ⊢
  clear hbindings
  induction bindings with
  | nil => rfl
  | cons b bs ih =>
      obtain ⟨hb, hbs⟩ := List.forall_mem_cons.1 hmem
      have heq : (ρ name == ρ b.1) = (name == b.1) := by
        rw [Bool.eq_iff_iff, beq_iff_eq, beq_iff_eq]
        exact ⟨hρ name hname b.1 hb, congrArg ρ⟩
      rw [List.map_cons, List.lookup_cons, List.lookup_cons, heq, ih hbs]

theorem get (h : s.Renames ρ defined s')
    (hρ : KeepsApart ρ mentioned defined)
    (hname : name ∈ mentioned) :
    Agree Eq (s.get name) (s'.get (ρ name)) := by
  unfold Scope.get
  rw [h.lookup hρ hname]
  cases s.bindings.lookup name with
  | none => exact .error
  | some a => exact .ok rfl

theorem getAll (h : s.Renames ρ defined s')
    (hρ : KeepsApart ρ mentioned defined) :
    ∀ {names : List String}, (∀ x ∈ names, x ∈ mentioned) →
      Agree Eq (s.getAll names) (s'.getAll (names.map ρ)) := by
  intro names
  induction names with
  | nil => exact fun _ => .ok rfl
  | cons x xs ih =>
      intro hxs
      obtain ⟨hx, hxs⟩ := List.forall_mem_cons.1 hxs
      rw [Scope.getAll, Scope.getAll, List.map_cons, List.mapM_cons, List.mapM_cons]
      refine (h.get hρ hx).bind ?_
      rintro a _ rfl
      refine (ih hxs).bind ?_
      rintro as _ rfl
      exact .pure rfl

theorem define (h : s.Renames ρ defined s')
    (hρ : KeepsApart ρ mentioned defined)
    (hname : name ∈ mentioned)
    (hdefined : name ∈ defined)
    (a : α) :
    Agree (Renames ρ defined) (s.define name a) (s'.define (ρ name) a) := by
  unfold Scope.define
  rw [h.lookup hρ hname]
  cases s.bindings.lookup name with
  | none =>
      refine .ok ⟨?_, List.forall_mem_cons.2 ⟨hdefined, h.mem⟩⟩
      rw [h.bindings, List.map_cons]
  | some b => exact .error

theorem defineAll (hρ : KeepsApart ρ mentioned defined) :
    ∀ {names : List String} {as : List α} {s s' : Scope α}, s.Renames ρ defined s' →
      (∀ x ∈ names, x ∈ mentioned ∧ x ∈ defined) →
      Agree (Renames ρ defined) (s.defineAll (names.zip as))
        (s'.defineAll ((names.map ρ).zip as)) := by
  intro names
  induction names with
  | nil => exact fun h _ => .ok h
  | cons x xs ih =>
      intro as s s' h hxs
      obtain ⟨⟨hx, hx'⟩, hxs⟩ := List.forall_mem_cons.1 hxs
      cases as with
      | nil => exact .ok h
      | cons a as => exact (h.define hρ hx hx' a).bind fun _ _ h => ih h hxs

end Renames
end Scope

/-- A rank is unified without regard to how the part is called. -/
theorem agree_unifyRank (rank : Option Nat) (found : Nat) (part part' : RankedPart) :
    Agree Eq (unifyRank rank found part) (unifyRank rank found part') := by
  cases rank with
  | none => exact .ok rfl
  | some expected =>
      unfold unifyRank
      dsimp only
      split
      · exact .ok rfl
      · exact .error

theorem agree_unify (n : Named) (rank : Option Nat) (part part' : RankedPart) :
    Agree Eq (n.unify rank part) (n.unify rank part') := by
  unfold Named.unify
  cases n.rank with
  | none => exact .ok rfl
  | some found =>
      refine (agree_unifyRank rank found part part').bind ?_
      rintro r _ rfl
      exact .pure rfl

theorem agree_operandRank (ρ : String → String) :
    ∀ {names : List String} {ns : List Named} {rank : Option Nat},
      Agree Eq (operandRank rank (names.zip ns)) (operandRank rank ((names.map ρ).zip ns)) := by
  intro names
  induction names with
  | nil => exact .ok rfl
  | cons x xs ih =>
      intro ns rank
      cases ns with
      | nil => exact .ok rfl
      | cons n ns =>
          refine (agree_unify n rank (.operand x) (.operand (ρ x))).bind ?_
          rintro r _ rfl
          exact ih

namespace BodyState

variable {σ : String → String} {mentioned defined : List String} {s s' : BodyState}

/-- Bodies under construction that differ in their names only. -/
structure Renames (σ : String → String) (defined : List String) (s s' : BodyState) : Prop where
  program : s'.program = s.program
  scope : s.scope.Renames σ defined s'.scope
  rank : s'.rank = s.rank

theorem Renames.addOp (h : s.Renames σ defined s')
    (hσ : KeepsApart σ mentioned defined)
    (apply : OpId) (args : List ValueId) (last : Bool) {op : BodyOpDesc}
    (hnames : ∀ x ∈ op.names, x ∈ mentioned)
    (hresults : ∀ x ∈ op.results, x ∈ defined) :
    Agree (Renames σ defined) (s.addOp apply args last op)
      (s'.addOp apply args last (op.rename σ)) := by
  obtain ⟨program, scope', rank⟩ := s'
  obtain ⟨rfl, hscope, rfl⟩ := h
  dsimp only at hscope
  cases op with
  | access result param offset =>
      simp only [BodyOpDesc.names, BodyOpDesc.reads, BodyOpDesc.results, List.mem_append,
        List.mem_singleton, forall_eq_or_imp, forall_eq] at hnames hresults
      refine (hscope.get hσ hnames.1).bind ?_
      rintro arg _ rfl
      refine .check Iff.rfl ((agree_unifyRank _ _ _ _).bind ?_)
      rintro rank _ rfl
      refine (hscope.define hσ hnames.2 hresults _).bind fun scope scope' hscope => ?_
      exact .pure ⟨rfl, hscope, rfl⟩
  | arith result operator lhs rhs =>
      simp only [BodyOpDesc.names, BodyOpDesc.reads, BodyOpDesc.results, List.cons_append,
        List.nil_append, List.mem_cons, List.not_mem_nil, or_false, forall_eq_or_imp,
        forall_eq] at hnames hresults
      refine (hscope.get hσ hnames.1).bind ?_
      rintro l _ rfl
      refine (hscope.get hσ hnames.2.1).bind ?_
      rintro r _ rfl
      refine (hscope.define hσ hnames.2.2 hresults _).bind fun scope scope' hscope => ?_
      exact .pure ⟨rfl, hscope, rfl⟩
  | ret operands unroll =>
      have hreads : ∀ x ∈ operands, x ∈ mentioned := fun x hx =>
        hnames x (List.mem_append_left _ hx)
      refine .check Iff.rfl ((hscope.getAll hσ hreads).bind ?_)
      rintro values _ rfl
      cases unroll with
      | none => exact .pure ⟨rfl, hscope, rfl⟩
      | some u =>
          refine Agree.bind .refl ?_
          rintro rank _ rfl
          exact .pure ⟨rfl, hscope, rfl⟩

theorem Renames.addOps (hσ : KeepsApart σ mentioned defined) (apply : OpId)
    (args : List ValueId) {ops : List BodyOpDesc} :
    ∀ {s s' : BodyState}, s.Renames σ defined s' →
      (∀ x ∈ ops.flatMap BodyOpDesc.names, x ∈ mentioned) →
      (∀ x ∈ ops.flatMap BodyOpDesc.results, x ∈ defined) →
      Agree (Renames σ defined) (s.addOps apply args ops)
        (s'.addOps apply args (ops.map (.rename σ))) := by
  induction ops with
  | nil => exact fun h _ _ => .ok h
  | cons op ops ih =>
      intro s s' h hnames hresults
      rw [List.flatMap_cons, List.forall_mem_append] at hnames hresults
      rw [List.map_cons, BodyState.addOps, BodyState.addOps, List.isEmpty_map]
      exact (h.addOp hσ apply args _ hnames.1 hresults.1).bind fun t t' ht =>
        ih ht hnames.2 hresults.2

end BodyState

namespace FunctionState

variable {ρ : String → String} {mentioned defined : List String} {s s' : FunctionState}

/-- Functions under construction that differ in their names only. -/
structure Renames (ρ : String → String) (defined : List String) (s s' : FunctionState) :
    Prop where
  program : s'.program = s.program
  scope : s.scope.Renames ρ defined s'.scope

end FunctionState

/-- An operation and its renamed form do the same. -/
theorem OpDesc.Renamed.addOp {ρ : String → String} {mentioned defined : List String}
    {s s' : FunctionState} {op op' : OpDesc}
    (h : op.Renamed ρ op')
    (hs : s.Renames ρ defined s')
    (hρ : KeepsApart ρ mentioned defined)
    (hnames : ∀ x ∈ op.names, x ∈ mentioned)
    (hresults : ∀ x ∈ op.results, x ∈ defined) :
    Agree (FunctionState.Renames ρ defined) (s.addOp op) (s'.addOp op') := by
  obtain ⟨program, scope'⟩ := s'
  obtain ⟨rfl, hscope⟩ := hs
  dsimp only at hscope
  cases h with
  | @load result field =>
      simp only [OpDesc.names, OpDesc.reads, OpDesc.results, List.cons_append, List.nil_append,
        List.mem_cons, List.not_mem_nil, or_false, forall_eq_or_imp, forall_eq] at hnames hresults
      refine (hscope.get hρ hnames.1).bind ?_
      rintro n _ rfl
      refine (hscope.define hρ hnames.2 hresults _).bind fun scope scope' hscope => ?_
      exact .pure ⟨rfl, hscope⟩
  | @apply results operands params body σ hσ =>
      rw [OpDesc.names, List.forall_mem_append] at hnames
      rw [FunctionState.addOp, FunctionState.addOp, FunctionState.addApply, FunctionState.addApply]
      refine .check (by rw [List.length_map, List.length_map]) ?_
      refine (hscope.getAll hρ hnames.1).bind ?_
      rintro ns _ rfl
      refine (agree_operandRank ρ).bind ?_
      rintro rank _ rfl
      refine (Scope.Renames.defineAll hσ .empty fun x hx =>
        ⟨List.mem_append_left _ hx, List.mem_append_left _ hx⟩).bind fun scope scope' hbody => ?_
      refine Agree.bind (BodyState.Renames.addOps hσ _ _ ?_ (fun x => List.mem_append_right _)
        fun x => List.mem_append_right _) fun b b' hb => ?_
      · exact ⟨rfl, hbody, rfl⟩
      obtain ⟨program, scope', rank⟩ := b'
      obtain ⟨rfl, _, rfl⟩ := hb
      dsimp only
      cases b.program.closeApply _ with
      | error fault => exact .error
      | ok closed =>
          refine .check (by rw [List.length_map]) ?_
          refine (Scope.Renames.defineAll hρ hscope fun x hx =>
            ⟨hnames.2 x hx, hresults x hx⟩).bind fun scope scope' hscope => ?_
          exact .pure ⟨rfl, hscope⟩
  | @store value field lower upper =>
      simp only [OpDesc.names, OpDesc.reads, OpDesc.results, List.append_nil, List.mem_cons,
        List.not_mem_nil, or_false, forall_eq_or_imp, forall_eq] at hnames
      refine .check Iff.rfl ((hscope.get hρ hnames.1).bind ?_)
      rintro v _ rfl
      refine (hscope.get hρ hnames.2).bind ?_
      rintro w _ rfl
      refine (agree_unify v _ _ _).bind ?_
      rintro rank _ rfl
      refine (agree_unify w _ _ _).bind ?_
      rintro rank' _ rfl
      exact .pure ⟨rfl, hscope⟩

/-- The operations of a function and their renamed forms do the same. -/
theorem FunctionState.Renames.addOps {ρ : String → String} {mentioned defined : List String}
    {ops ops' : List OpDesc}
    (hρ : KeepsApart ρ mentioned defined)
    (h : List.Forall₂ (OpDesc.Renamed ρ) ops ops') :
    ∀ {s s' : FunctionState}, s.Renames ρ defined s' →
      (∀ x ∈ ops.flatMap OpDesc.names, x ∈ mentioned) →
      (∀ x ∈ ops.flatMap OpDesc.results, x ∈ defined) →
      Agree (Renames ρ defined) (s.addOps ops) (s'.addOps ops') := by
  induction h with
  | nil => exact fun hs _ _ => .ok hs
  | cons hop _ ih =>
      intro s s' hs hnames hresults
      rw [List.flatMap_cons, List.forall_mem_append] at hnames hresults
      exact (hop.addOp hs hρ hnames.1 hresults.1).bind fun t t' ht =>
        ih ht hnames.2 hresults.2

/-- The arguments of a function, names first. -/
theorem FunctionDesc.argNames_eq_zip (f : FunctionDesc) (vs : List ValueId) :
    f.argNames vs = (f.args.map FieldDesc.name).zip
      ((f.args.zip vs).map fun (a, v) => { value := v, rank := some a.rank.toNat }) := by
  rw [argNames]
  generalize f.args = as
  induction as generalizing vs with
  | nil => rfl
  | cons a as ih =>
      cases vs with
      | nil => rfl
      | cons v vs => exact congrArg _ (ih vs)

/-- A function and its renamed form are added to a program alike. -/
theorem FunctionDesc.Renamed.elaborate {f f' : FunctionDesc} (h : f.Renamed f') (p : Program) :
    Agree Eq (f.elaborate p) (f'.elaborate p) := by
  cases h with
  | @intro name stencil args ops ops' ρ hρ hops =>
      let f : FunctionDesc := { name, stencil, args, ops }
      let f' : FunctionDesc :=
        { name, stencil, args := args.map fun a => { a with name := ρ a.name }, ops := ops' }
      have htypes : f'.argTypes = f.argTypes := by
        simp only [f, f', argTypes, List.map_map]
        rfl
      have hnames : ∀ vs, f'.argNames vs = ((args.map FieldDesc.name).map ρ).zip
          ((args.zip vs).map fun (a, v) => { value := v, rank := some a.rank.toNat }) := by
        intro vs
        simp only [f', argNames_eq_zip, List.map_map, List.zip_map_left]
        rfl
      rw [FunctionDesc.elaborate, FunctionDesc.elaborate, htypes]
      let defined := args.map FieldDesc.name ++ ops.flatMap OpDesc.results
      refine Agree.bind (R := Scope.Renames ρ defined) ?_ fun scope scope' hscope => ?_
      · rw [hnames, argNames_eq_zip]
        exact Scope.Renames.defineAll hρ .empty fun x hx =>
          ⟨List.mem_append_left _ hx, List.mem_append_left _ hx⟩
      refine Agree.bind (FunctionState.Renames.addOps hρ hops ?_
        (fun x => List.mem_append_right _) fun x => List.mem_append_right _) fun s s' hs => ?_
      · exact ⟨rfl, hscope⟩
      · exact .pure hs.program.symm

/-- Functions that differ in names give the same program, and the same ones are faulty. -/
theorem agree_elaborateFunctions {fs fs' : List FunctionDesc}
    (h : List.Forall₂ FunctionDesc.Renamed fs fs') :
    ∀ p, (elaborateFunctions p fs').1 = (elaborateFunctions p fs).1 ∧
      ((elaborateFunctions p fs').2 = [] ↔ (elaborateFunctions p fs).2 = []) := by
  induction h with
  | nil => exact fun p => ⟨rfl, Iff.rfl⟩
  | @cons f f' fs fs' hf _ ih =>
      intro p
      have hagree := hf.elaborate p
      unfold elaborateFunctions
      generalize f.elaborate p = x, f'.elaborate p = x' at hagree
      cases hagree with
      | ok heq =>
          cases heq
          exact ih _
      | error => exact ⟨(ih p).1, by simp⟩

namespace Description

/-- Descriptions that differ in the names of values only give the same program, or none. -/
theorem elaborate_iff_of_renamed {d d' : Description} (h : d.Renamed d') (p : Program) :
    d'.elaborate = .ok p ↔ d.elaborate = .ok p := by
  obtain ⟨hprogram, hfaults⟩ := agree_elaborateFunctions h {}
  rw [elaborate_eq_ok, elaborate_eq_ok, Prod.ext_iff, Prod.ext_iff, hprogram, hfaults]

/-- The smoothing step with names that its body shares with the function around it. -/
def smoothingShared : Description :=
  { functions :=
      [{ name := "smooth"
         stencil := true
         args :=
           [{ name := "a", element := .f64, rank := 1 },
             { name := "b", element := .f64, rank := 1 }]
         ops :=
           [.load "c" "a",
             .apply ["d"] ["c"] ["d"]
               [.access "a" "d" [.ofInt64 (-1)], .access "b" "d" [.one],
                 .arith "c" .add "a" "b", .ret ["c", "b"] (some [.ofInt64 2])],
             .store "d" "b" [.ofInt64 0] [.ofInt64 8],
             .store "c" "b" [.ofInt64 0] [.ofInt64 16]] }] }

/-- Replaces names as a table says. -/
def replace (table : List (String × String)) (name : String) : String :=
  (table.lookup name).getD name

theorem renamed_smoothingShared : smoothing.Renamed smoothingShared := by
  let ρ := replace [("in", "a"), ("out", "b"), ("t", "c"), ("u", "d")]
  let σ := replace [("a", "d"), ("l", "a"), ("r", "b"), ("s", "c")]
  refine .cons (.intro (ρ := ρ) (by unfold KeepsApart; decide) ?_) .nil
  refine .cons .load (.cons (.apply (σ := σ) (by unfold KeepsApart; decide)) ?_)
  exact .cons .store (.cons .store .nil)

theorem elaborate_iff_of_renamed_smoothing :
    smoothing.Renamed smoothingShared ∧ smoothingShared.elaborate = .ok Program.smoothing :=
  ⟨renamed_smoothingShared,
    (elaborate_iff_of_renamed renamed_smoothingShared Program.smoothing).2
      Program.elaborate_smoothing⟩

end Description
end StencilShapes
