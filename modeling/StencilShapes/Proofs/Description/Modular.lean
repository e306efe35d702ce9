import StencilShapes.Proofs.Description.Steps
import StencilShapes.Proofs.Program.Scope
import StencilShapes.Proofs.Program.Shift

/-!
# Functions are elaborated one behind the other

Elaboration looks up names of one function at a time, and the program before it only
decides which identifiers come next.  So a function is elaborated behind a program as it
is alone, faults included, and a description gives the programs of its functions one
behind the other.

**Results.**
* `FunctionDesc.elaborate_join`: a function behind a program.
* `Description.elaborate_eq_layout`: a description is elaborated function by function.
-/

namespace StencilShapes

open Program

namespace Scope

variable {α β : Type}

/-- The names with what becomes of that for which they stand. -/
def map (g : α → β) (s : Scope α) : Scope β :=
  { bindings := s.bindings.map fun b => (b.1, g b.2) }

variable (g : α → β) (s : Scope α)

theorem lookup_map (name : String) :
    (s.map g).bindings.lookup name = (s.bindings.lookup name).map g := by
  rw [map]
  induction s.bindings with
  | nil => rfl
  | cons b bs ih =>
      rw [List.map_cons, List.lookup_cons, List.lookup_cons]
      split
      · rfl
      · exact ih

theorem get_map (name : String) : (s.map g).get name = g <$> s.get name := by
  rw [get, get, lookup_map]
  cases s.bindings.lookup name <;> rfl

theorem getAll_map (names : List String) :
    (s.map g).getAll names = List.map g <$> s.getAll names := by
  induction names with
  | nil => rfl
  | cons name names ih =>
      rw [getAll, getAll] at ih
      rw [getAll, getAll, List.mapM_cons, List.mapM_cons, get_map, ih]
      cases s.get name with
      | error e => rfl
      | ok a => cases names.mapM s.get <;> rfl

theorem define_map (name : String) (a : α) :
    (s.map g).define name (g a) = map g <$> s.define name a := by
  rw [define, define, lookup_map]
  cases s.bindings.lookup name <;> rfl

theorem defineAll_map (xs : List (String × α)) :
    ∀ s : Scope α,
      (s.map g).defineAll (xs.map fun x => (x.1, g x.2)) = map g <$> s.defineAll xs := by
  induction xs with
  | nil => exact fun _ => rfl
  | cons x xs ih =>
      intro s
      rcases x with ⟨name, a⟩
      rw [List.map_cons, defineAll, defineAll, define_map]
      cases s.define name a with
      | error e => rfl
      | ok s' => exact ih s'

/-- Names for the values of a list, and for their images. -/
theorem zip_map_right {γ : Type} (names : List γ) (as : List α) :
    names.zip (as.map g) = (names.zip as).map fun x => (x.1, g x.2) := by
  rw [List.zip_map_right]
  rfl

end Scope

namespace BodyState

/-- The body, with the program behind another one. -/
def join (p : Program) (s : BodyState) : BodyState :=
  { program := p.join s.program, scope := s.scope.map (ValueId.shift p.supply), rank := s.rank }

variable (p : Program) (apply : OpId) (args : List ValueId)

theorem contains_shift (arg : ValueId) :
    (args.map (ValueId.shift p.supply)).contains (arg.shift p.supply) = args.contains arg := by
  rw [Bool.eq_iff_iff, List.contains_iff_mem, List.contains_iff_mem, List.mem_map]
  constructor
  · rintro ⟨w, hw, he⟩
    rwa [← ValueId.shift_inj.1 he]
  · exact fun h => ⟨arg, h, rfl⟩

theorem addOp_join (last : Bool) (s : BodyState) (op : BodyOpDesc) :
    (s.join p).addOp (apply.shift p.supply) (args.map (ValueId.shift p.supply)) last op =
      join p <$> s.addOp apply args last op := by
  cases op with
  | access result param offset =>
      simp only [addOp, join, Scope.get_map, bind_map_left, map_bind, contains_shift, access_join,
        Scope.define_map, apply_ite]
      rfl
  | arith result operator lhs rhs =>
      simp only [addOp, join, Scope.get_map, bind_map_left, map_bind, arith_join,
        Scope.define_map]
      rfl
  | ret operands unroll =>
      cases last with
      | false => rfl
      | true =>
          cases unroll <;>
            simp only [addOp, join, Scope.getAll_map, bind_map_left, map_bind, ret_join, not_true,
              if_false] <;>
            rfl

theorem addOps_join (ops : List BodyOpDesc) :
    ∀ s : BodyState,
      (s.join p).addOps (apply.shift p.supply) (args.map (ValueId.shift p.supply)) ops =
        join p <$> s.addOps apply args ops := by
  induction ops with
  | nil => exact fun _ => rfl
  | cons op ops ih =>
      intro s
      simp only [addOps, addOp_join, bind_map_left, map_bind, ih]

/-- The operations of a body leave the functions alone. -/
theorem functions_addOps {ops : List BodyOpDesc} {s' : BodyState} :
    ∀ {s : BodyState}, s.addOps apply args ops = .ok s' →
      s'.program.functions = s.program.functions := by
  induction ops with
  | nil =>
      intro s hs
      rw [addOps_nil.1 hs]
  | cons op ops ih =>
      intro s hs
      obtain ⟨t, hop, hs⟩ := addOps_cons.1 hs
      rw [ih hs]
      cases op with
      | access result param offset =>
          obtain ⟨_, _, _, _, _, _, _, rfl⟩ := addOp_access.1 hop
          rfl
      | arith result operator lhs rhs =>
          obtain ⟨_, _, _, _, _, _, rfl⟩ := addOp_arith.1 hop
          rfl
      | ret operands unroll =>
          obtain ⟨_, _, _, _, _, rfl⟩ := addOp_ret.1 hop
          rfl

end BodyState

/-- The value, behind another program. -/
def Named.shift (s : IdSupply) (n : Named) : Named :=
  { n with value := n.value.shift s }

theorem operandRank_shift (s : IdSupply) (xs : List (String × Named)) :
    ∀ rank, operandRank rank (xs.map fun x => (x.1, x.2.shift s)) = operandRank rank xs := by
  induction xs with
  | nil => exact fun _ => rfl
  | cons x xs ih =>
      intro rank
      rw [List.map_cons, operandRank, operandRank]
      simp only [ih]
      rfl

namespace FunctionState

/-- The function, with the program behind another one. -/
def join (p : Program) (s : FunctionState) : FunctionState :=
  { program := p.join s.program, scope := s.scope.map (Named.shift p.supply) }

variable (p : Program) (s : FunctionState)

theorem addLoad_join (result field : String) (h : 0 < s.program.functions.size) :
    (s.join p).addLoad result field = join p <$> s.addLoad result field := by
  have hload : ∀ n : Named, (p.join s.program).load (n.shift p.supply).value =
      (p.join (s.program.load n.value).1, (s.program.load n.value).2.shift p.supply) := fun n =>
    load_join p s.program n.value h
  have hdefine : ∀ n : Named,
      (s.scope.map (Named.shift p.supply)).define result
          { value := (s.program.load n.value).2.shift p.supply, rank := (n.shift p.supply).rank } =
        Scope.map (Named.shift p.supply) <$>
          s.scope.define result { value := (s.program.load n.value).2, rank := n.rank } := fun n =>
    Scope.define_map (Named.shift p.supply) _ _ { value := _, rank := n.rank }
  simp only [addLoad, join, Scope.get_map, bind_map_left, map_bind, hload, hdefine]
  rfl

theorem addStore_join (value field : String) (lower upper : Point)
    (h : 0 < s.program.functions.size) :
    (s.join p).addStore value field lower upper =
      join p <$> s.addStore value field lower upper := by
  have hstore : ∀ v f : Named,
      (p.join s.program).store (v.shift p.supply).value (f.shift p.supply).value { lower, upper } =
        (p.join (s.program.store v.value f.value { lower, upper }).1,
          (s.program.store v.value f.value { lower, upper }).2.shift p.supply) := fun v f =>
    store_join p s.program v.value f.value _ h
  unfold addStore
  split
  · rfl
  · simp only [join, Scope.get_map, bind_map_left, map_bind, hstore]
    rfl

theorem addApply_join (results operands params : List String) (body : List BodyOpDesc)
    (h : 0 < s.program.functions.size) :
    (s.join p).addApply results operands params body =
      join p <$> s.addApply results operands params body := by
  unfold addApply
  split
  · rfl
  · simp only [join, Scope.getAll_map, bind_map_left, map_bind]
    refine bind_congr fun ns => ?_
    rw [Scope.zip_map_right, operandRank_shift]
    refine bind_congr fun rank => ?_
    have hopen : (p.join s.program).openApply ((ns.map (Named.shift p.supply)).map Named.value) =
        (p.join (s.program.openApply (ns.map Named.value)).1,
          (s.program.openApply (ns.map Named.value)).2.1.shift p.supply,
          (s.program.openApply (ns.map Named.value)).2.2.map (ValueId.shift p.supply)) := by
      rw [← openApply_join, List.map_map, List.map_map]
      rfl
    simp only [hopen]
    have hfunctions := functions_openApply s.program (ns.map Named.value)
    generalize s.program.openApply (ns.map Named.value) = r at hfunctions ⊢
    rcases r with ⟨q, apply, args⟩
    have hscope := Scope.defineAll_map (ValueId.shift p.supply) (params.zip args) {}
    rw [← Scope.zip_map_right] at hscope
    have hbody := fun scope =>
      BodyState.addOps_join p apply args body { program := q, scope, rank }
    simp only [BodyState.join] at hbody
    simp only
    rw [show ({} : Scope ValueId) = Scope.map (ValueId.shift p.supply) {} from rfl, hscope,
      bind_map_left]
    refine bind_congr fun scope => ?_
    rw [hbody, bind_map_left]
    cases hb : BodyState.addOps apply args { program := q, scope, rank } body with
    | error fault => rfl
    | ok b =>
        have hbegun : 0 < b.program.functions.size := by
          rw [BodyState.functions_addOps apply args hb, hfunctions]
          exact h
        rw [show (Except.ok b : Elaboration BodyState) = pure b from rfl, pure_bind, pure_bind]
        rw [show (BodyState.join p b).program.closeApply _ = _ from
          closeApply_join p b.program apply hbegun]
        cases b.program.closeApply apply with
        | error fault => rfl
        | ok r =>
            rcases r with ⟨q, values⟩
            have hdefine := Scope.defineAll_map (Named.shift p.supply)
              (results.zip (values.map fun v => { value := v, rank := b.rank })) s.scope
            rw [← Scope.zip_map_right, List.map_map] at hdefine
            show (if (values.map (ValueId.shift p.supply)).length ≠ results.length then _
              else _) = _
            rw [List.length_map]
            simp only
            split
            · rfl
            · rw [List.map_map, map_bind]
              refine (congrArg (· >>= _) hdefine).trans ?_
              rw [bind_map_left]
              rfl

theorem addOp_join (op : OpDesc) (h : 0 < s.program.functions.size) :
    (s.join p).addOp op = join p <$> s.addOp op := by
  cases op with
  | load result field => exact addLoad_join p s result field h
  | apply results operands params body => exact addApply_join p s results operands params body h
  | store value field lower upper => exact addStore_join p s value field lower upper h

/-- An operation is added to the function that was begun last. -/
theorem size_functions_addOp {s s' : FunctionState} {op : OpDesc} (hs : s.addOp op = .ok s') :
    s'.program.functions.size = s.program.functions.size := by
  cases op with
  | load result field =>
      obtain ⟨_, _, _, _, rfl⟩ := addLoad_eq_ok.1 hs
      exact Array.size_modify
  | apply results operands params body =>
      obtain ⟨_, _, _, _, _, _, b, _, _, _, _, hb, hclose, _, _, rfl⟩ := addApply_eq_ok.1 hs
      obtain ⟨_, _, _, _, _, _, _, _, rfl, _⟩ := closeApply_eq_ok.1 hclose
      rw [Program.append, Array.size_modify, functions_newResults,
        BodyState.functions_addOps _ _ hb, functions_openApply]
  | store value field lower upper =>
      obtain ⟨_, _, _, _, _, _, _, _, _, rfl⟩ := addStore_eq_ok.1 hs
      exact Array.size_modify

theorem addOps_join (ops : List OpDesc) :
    ∀ s : FunctionState, 0 < s.program.functions.size →
      (s.join p).addOps ops = join p <$> s.addOps ops := by
  induction ops with
  | nil => exact fun _ _ => rfl
  | cons op ops ih =>
      intro s h
      rw [addOps, addOps, addOp_join p s op h, bind_map_left, map_bind]
      cases hop : s.addOp op with
      | error fault => rfl
      | ok t => exact ih t (size_functions_addOp hop ▸ h)

end FunctionState

namespace FunctionDesc

variable (f : FunctionDesc)

/-- A function is elaborated behind a program as it is without it. -/
theorem elaborate_join (p q : Program) : f.elaborate (p.join q) = p.join <$> f.elaborate q := by
  have hnames : ∀ args, f.argNames (args.map (ValueId.shift p.supply)) =
      (f.argNames args).map fun x => (x.1, x.2.shift p.supply) := fun args => by
    rw [argNames, argNames, Scope.zip_map_right, List.map_map, List.map_map]
    rfl
  have hscope := Scope.defineAll_map (Named.shift p.supply)
    (f.argNames (q.beginFunction f.name f.stencil f.argTypes).2) {}
  have hops := fun scope => FunctionState.addOps_join p f.ops
    { program := (q.beginFunction f.name f.stencil f.argTypes).1, scope }
    (by rw [beginFunction, Array.size_push]; exact Nat.succ_pos _)
  simp only [FunctionState.join] at hops
  simp only [elaborate, beginFunction_join, hnames]
  rw [show ({} : Scope Named) = Scope.map (Named.shift p.supply) {} from rfl, hscope]
  simp only [bind_map_left, map_bind, hops]
  rfl

theorem elaborate_eq_join (p : Program) : f.elaborate p = p.join <$> f.elaborate {} := by
  rw [← elaborate_join, join_empty]

end FunctionDesc

/-- Functions are elaborated one behind the other. -/
theorem elaborateFunctions_eq_layout {P : Program} {fs : List FunctionDesc} :
    ∀ {p : Program}, elaborateFunctions p fs = (P, []) ↔
      ∃ qs, List.Forall₂ (fun f q => FunctionDesc.elaborate {} f = .ok q) fs qs ∧
        P = p.extend (layout p.supply qs) := by
  induction fs with
  | nil =>
      intro p
      rw [elaborateFunctions_eq_nil]
      simp [layout]
  | cons f fs ih =>
      intro p
      rw [elaborateFunctions_eq_nil]
      simp only [FunctionDesc.elaborate_eq_join f p, Elaboration.map_eq_ok, ih]
      constructor
      · rintro ⟨_, ⟨q, hq, rfl⟩, qs, hqs, rfl⟩
        exact ⟨q :: qs, .cons hq hqs, (extend_layout_cons p q qs).symm⟩
      · rintro ⟨_, hqs, rfl⟩
        cases hqs with
        | cons hq hqs => exact ⟨_, ⟨_, hq, rfl⟩, _, hqs, extend_layout_cons p _ _⟩

namespace Description

/-- The description of one function only. -/
def single (f : FunctionDesc) : Description :=
  { functions := [f] }

theorem elaborate_single {f : FunctionDesc} {q : Program} :
    (single f).elaborate = .ok q ↔ f.elaborate {} = .ok q := by
  rw [elaborate_eq_ok, single, elaborateFunctions_eq_nil]
  simp [elaborateFunctions_eq_nil]

/-- A description is elaborated function by function. -/
theorem elaborate_eq_layout {d : Description} {p : Program} :
    d.elaborate = .ok p ↔
      ∃ qs, List.Forall₂ (fun f q => (single f).elaborate = .ok q) d.functions qs ∧
        p = layout {} qs := by
  rw [elaborate_eq_ok, elaborateFunctions_eq_layout]
  simp only [elaborate_single, empty_extend]

end Description
end StencilShapes
