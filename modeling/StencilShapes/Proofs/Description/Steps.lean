import StencilShapes.Description.Elaboration
import Mathlib.Logic.Basic

/-!
# What the steps of elaboration do

Each step of elaboration either stops with a fault or goes on.  This module says,
step by step, what it takes to go on and what the next state is.  Later proofs
take these statements apart and do not look into the steps themselves.

**Results.**
* `FunctionState.addLoad_eq_ok`, `FunctionState.addStore_eq_ok`,
  `FunctionState.addApply_eq_ok`: the operations of a function.
* `BodyState.addOp_access`, `BodyState.addOp_arith`, `BodyState.addOp_ret`: the
  operations of a body.
-/

namespace StencilShapes

namespace Elaboration

variable {α β : Type}

theorem bind_eq_ok {x : Elaboration α} {f : α → Elaboration β} {b : β} :
    (x >>= f) = .ok b ↔ ∃ a, x = .ok a ∧ f a = .ok b := by
  cases x with
  | error e =>
      constructor
      · intro h
        cases h
      · rintro ⟨a, h, _⟩
        cases h
  | ok a =>
      constructor
      · exact fun h => ⟨a, rfl, h⟩
      · rintro ⟨a', h, hf⟩
        cases h
        exact hf

theorem pure_eq_ok {a b : α} : (pure a : Elaboration α) = .ok b ↔ b = a := by
  constructor
  · intro h
    cases h
    rfl
  · rintro rfl
    rfl

theorem map_eq_ok {x : Elaboration α} {f : α → β} {b : β} :
    (f <$> x) = .ok b ↔ ∃ a, x = .ok a ∧ b = f a := by
  cases x with
  | error e =>
      constructor
      · intro h
        cases h
      · rintro ⟨a, h, _⟩
        cases h
  | ok a =>
      constructor
      · intro h
        cases h
        exact ⟨a, rfl, rfl⟩
      · rintro ⟨a', h, hf⟩
        cases h
        rw [hf]
        rfl

/-- A check that passes leaves what follows it. -/
theorem check_eq_ok {c : Prop} [Decidable c] {e : ElaborationFault} {k : Unit → Elaboration α}
    {x : Elaboration α} {a : α} :
    (if c then throw e >>= k else x) = .ok a ↔ ¬ c ∧ x = .ok a := by
  by_cases h : c
  · simp only [h, if_true, not_true, false_and, iff_false]
    intro h'
    cases h'
  · simp [h]

end Elaboration

open Elaboration

namespace Scope

variable {α : Type}

theorem get_eq_ok {s : Scope α} {name : String} {a : α} :
    s.get name = .ok a ↔ s.bindings.lookup name = some a := by
  unfold get
  split
  · next h => simp [h]
  · next h => simp [h]

/-- What a name stands for is among the bindings. -/
theorem mem_of_get {s : Scope α} {name : String} {a : α} (h : s.get name = .ok a) :
    (name, a) ∈ s.bindings := by
  rw [get_eq_ok] at h
  revert h
  induction s.bindings with
  | nil => simp
  | cons b bs ih =>
      rcases b with ⟨n, c⟩
      rw [List.lookup_cons]
      split
      · next hn =>
          intro h
          cases h
          rw [beq_iff_eq] at hn
          simp [hn]
      · exact fun h => List.mem_cons_of_mem _ (ih h)

theorem getAll_nil {s : Scope α} {as : List α} : s.getAll [] = .ok as ↔ as = [] := by
  simp only [getAll, List.mapM_nil, pure_eq_ok]

theorem getAll_cons {s : Scope α} {name : String} {names : List String} {as : List α} :
    s.getAll (name :: names) = .ok as ↔
      ∃ a as', s.get name = .ok a ∧ s.getAll names = .ok as' ∧ as = a :: as' := by
  simp only [getAll, List.mapM_cons, bind_eq_ok, pure_eq_ok, exists_and_left]

theorem length_of_getAll {s : Scope α} {names : List String} {as : List α}
    (h : s.getAll names = .ok as) :
    as.length = names.length := by
  induction names generalizing as with
  | nil => simp [getAll_nil.1 h]
  | cons name names ih =>
      rcases getAll_cons.1 h with ⟨a, as', _, hs, rfl⟩
      simp [ih hs]

theorem mem_of_getAll {s : Scope α} {names : List String} {as : List α}
    (h : s.getAll names = .ok as) {a : α} (ha : a ∈ as) :
    ∃ name, (name, a) ∈ s.bindings := by
  induction names generalizing as with
  | nil =>
      rw [getAll_nil.1 h] at ha
      cases ha
  | cons name names ih =>
      rcases getAll_cons.1 h with ⟨b, as', hb, hs, rfl⟩
      rcases List.mem_cons.1 ha with rfl | ha
      · exact ⟨name, mem_of_get hb⟩
      · exact ih hs ha

theorem define_eq_ok {s s' : Scope α} {name : String} {a : α} :
    s.define name a = .ok s' ↔
      s.bindings.lookup name = none ∧ s' = { bindings := (name, a) :: s.bindings } := by
  unfold define
  split
  · next h => simp [h]
  · next h => simp [h, eq_comm]

theorem mem_of_define {s s' : Scope α} {name : String} {a : α} (h : s.define name a = .ok s')
    {b : String × α} (hb : b ∈ s'.bindings) :
    b = (name, a) ∨ b ∈ s.bindings := by
  rcases define_eq_ok.1 h with ⟨_, rfl⟩
  exact List.mem_cons.1 hb

theorem mem_of_defineAll {s s' : Scope α} {xs : List (String × α)}
    (h : s.defineAll xs = .ok s') {b : String × α} (hb : b ∈ s'.bindings) :
    b ∈ xs ∨ b ∈ s.bindings := by
  induction xs generalizing s with
  | nil =>
      cases h
      exact Or.inr hb
  | cons x xs ih =>
      rcases x with ⟨name, a⟩
      simp only [defineAll, bind_eq_ok] at h
      rcases h with ⟨t, ht, h⟩
      rcases ih h with hb | hb
      · exact Or.inl (List.mem_cons_of_mem _ hb)
      · rcases mem_of_define ht hb with rfl | hb
        · exact Or.inl List.mem_cons_self
        · exact Or.inr hb

end Scope

theorem unifyRank_eq_ok {rank : Option Nat} {found r : Nat} {part : RankedPart} :
    unifyRank rank found part = .ok r ↔ r = found ∧ ∀ s, rank = some s → s = found := by
  cases rank with
  | none => simp [unifyRank, eq_comm]
  | some s =>
      by_cases h : s = found
      · simp [unifyRank, h, eq_comm]
      · simp [unifyRank, h]

/-- A part whose rank is known has the rank of the earlier parts. -/
theorem Named.unify_eq_ok {rank rank' : Option Nat} {n : Named} {part : RankedPart} {r : Nat}
    (hn : n.rank = some r) :
    n.unify rank part = .ok rank' ↔ rank' = some r ∧ ∀ s, rank = some s → s = r := by
  simp only [Named.unify, hn, bind_eq_ok, pure_eq_ok, unifyRank_eq_ok]
  constructor
  · rintro ⟨_, ⟨rfl, hs⟩, rfl⟩
    exact ⟨rfl, hs⟩
  · rintro ⟨rfl, hs⟩
    exact ⟨r, ⟨rfl, hs⟩, rfl⟩

/-- The operands of an apply whose ranks are known have one rank. -/
theorem operandRank_eq_ok {rank rank' : Option Nat} {xs : List (String × Named)}
    (h : operandRank rank xs = .ok rank')
    (hx : ∀ x ∈ xs, ∃ r, x.2.rank = some r) :
    (∀ r, rank = some r → rank' = some r) ∧
      (∀ x ∈ xs, x.2.rank = rank') ∧ (xs = [] → rank' = rank) := by
  induction xs generalizing rank with
  | nil =>
      cases h
      simp
  | cons x xs ih =>
      rcases x with ⟨name, n⟩
      obtain ⟨r, hr⟩ := hx _ List.mem_cons_self
      simp only [operandRank, bind_eq_ok] at h
      rcases h with ⟨mid, hmid, h⟩
      obtain ⟨rfl, hs⟩ := (Named.unify_eq_ok hr).1 hmid
      obtain ⟨hkeep, hall, _⟩ := ih h fun x hx' => hx x (List.mem_cons_of_mem _ hx')
      have hrank' := hkeep r rfl
      refine ⟨fun s hs' => ?_, fun x hx' => ?_, fun hnil => by cases hnil⟩
      · rw [hrank', hs s hs']
      · rcases List.mem_cons.1 hx' with rfl | hx'
        · rw [hrank']
          exact hr
        · exact hall x hx'

namespace BodyState

variable {apply : OpId} {args : List ValueId} {last : Bool} {s s' : BodyState}

theorem addOp_access {result param : String} {offset : Point} :
    s.addOp apply args last (.access result param offset) = .ok s' ↔
      ∃ arg rank scope, s.scope.get param = .ok arg ∧ args.contains arg = true ∧
        unifyRank s.rank offset.length (.access result param offset) = .ok rank ∧
        s.scope.define result (s.program.access apply arg offset).2 = .ok scope ∧
        s' =
          { program := (s.program.access apply arg offset).1, scope, rank := some rank } := by
  simp only [addOp, bind_eq_ok, check_eq_ok, pure_eq_ok, not_not, exists_and_left]

theorem addOp_arith {result lhs rhs : String} {operator : Operator} :
    s.addOp apply args last (.arith result operator lhs rhs) = .ok s' ↔
      ∃ l r scope, s.scope.get lhs = .ok l ∧ s.scope.get rhs = .ok r ∧
        s.scope.define result (s.program.arith apply operator l r).2 = .ok scope ∧
        s' = { s with program := (s.program.arith apply operator l r).1, scope } := by
  simp only [addOp, bind_eq_ok, pure_eq_ok, exists_and_left]

theorem addOp_ret {operands : List String} {unroll : Option Point} :
    s.addOp apply args last (.ret operands unroll) = .ok s' ↔
      last = true ∧ ∃ values rank, s.scope.getAll operands = .ok values ∧
        (match unroll with
          | none => rank = s.rank
          | some u => ∃ r, unifyRank s.rank u.length (.unroll u) = .ok r ∧ rank = some r) ∧
        s' = { s with program := s.program.ret apply values unroll, rank } := by
  cases unroll with
  | none =>
      simp only [addOp, bind_eq_ok, check_eq_ok, pure_eq_ok, not_not, exists_and_left,
        exists_eq_left]
  | some u =>
      simp only [addOp, bind_eq_ok, check_eq_ok, pure_eq_ok, map_eq_ok, not_not, exists_and_left]

theorem addOps_nil : s.addOps apply args [] = .ok s' ↔ s' = s := by
  constructor
  · intro h
    cases h
    rfl
  · rintro rfl
    rfl

theorem addOps_cons {op : BodyOpDesc} {rest : List BodyOpDesc} :
    s.addOps apply args (op :: rest) = .ok s' ↔
      ∃ t, s.addOp apply args rest.isEmpty op = .ok t ∧ t.addOps apply args rest = .ok s' := by
  simp only [addOps, bind_eq_ok]

end BodyState

namespace FunctionState

variable {s s' : FunctionState}

theorem addLoad_eq_ok {result field : String} :
    s.addLoad result field = .ok s' ↔
      ∃ n scope, s.scope.get field = .ok n ∧
        s.scope.define result { value := (s.program.load n.value).2, rank := n.rank } = .ok scope ∧
        s' = { program := (s.program.load n.value).1, scope } := by
  simp only [addLoad, bind_eq_ok, pure_eq_ok, exists_and_left]

theorem addStore_eq_ok {value field : String} {lower upper : Point} :
    s.addStore value field lower upper = .ok s' ↔
      lower.length = upper.length ∧
        ∃ v f rank rank', s.scope.get value = .ok v ∧ s.scope.get field = .ok f ∧
          v.unify (some lower.length) (.stored value lower value) = .ok rank ∧
          f.unify rank (.stored value lower field) = .ok rank' ∧
          s' = { s with program := (s.program.store v.value f.value { lower, upper }).1 } := by
  simp only [addStore, bind_eq_ok, check_eq_ok, pure_eq_ok, not_not, ne_eq, exists_and_left,
    exists_and_right]

theorem addApply_eq_ok {results operands params : List String} {body : List BodyOpDesc} :
    s.addApply results operands params body = .ok s' ↔
      params.length = operands.length ∧
        ∃ ns rank, s.scope.getAll operands = .ok ns ∧
          operandRank none (operands.zip ns) = .ok rank ∧
          let r := s.program.openApply (ns.map Named.value)
          ∃ scope b p values scope', Scope.defineAll {} (params.zip r.2.2) = .ok scope ∧
            BodyState.addOps r.2.1 r.2.2 { program := r.1, scope, rank } body = .ok b ∧
            b.program.closeApply r.2.1 = .ok (p, values) ∧
            values.length = results.length ∧
            s.scope.defineAll (results.zip (values.map fun v => { value := v, rank := b.rank })) =
              .ok scope' ∧
            s' = { program := p, scope := scope' } := by
  constructor
  · intro h
    simp only [addApply, bind_eq_ok, check_eq_ok, not_not, ne_eq] at h
    rcases h with ⟨hlen, ns, hns, rank, hrank, scope, hscope, b, hb, h⟩
    split at h
    · cases h
    · next p values hclose =>
        simp only [check_eq_ok, bind_eq_ok, pure_eq_ok, not_not] at h
        rcases h with ⟨hcount, scope', hscope', rfl⟩
        exact ⟨hlen, ns, rank, hns, hrank, scope, b, p, values, scope', hscope, hb, hclose,
          hcount, hscope', rfl⟩
  · rintro ⟨hlen, ns, rank, hns, hrank, scope, b, p, values, scope', hscope, hb, hclose,
      hcount, hscope', rfl⟩
    simp only [addApply, bind_eq_ok, check_eq_ok, not_not, ne_eq]
    refine ⟨hlen, ns, hns, rank, hrank, scope, hscope, b, hb, ?_⟩
    rw [hclose]
    simp only [check_eq_ok, bind_eq_ok, pure_eq_ok, not_not]
    exact ⟨hcount, scope', hscope', rfl⟩

theorem addOps_nil : s.addOps [] = .ok s' ↔ s' = s := by
  constructor
  · intro h
    cases h
    rfl
  · rintro rfl
    rfl

theorem addOps_cons {op : OpDesc} {rest : List OpDesc} :
    s.addOps (op :: rest) = .ok s' ↔ ∃ t, s.addOp op = .ok t ∧ t.addOps rest = .ok s' := by
  simp only [addOps, bind_eq_ok]

end FunctionState

theorem FunctionDesc.elaborate_eq_ok {f : FunctionDesc} {p q : Program} :
    f.elaborate p = .ok q ↔
      ∃ scope s,
        Scope.defineAll {} (f.argNames (p.beginFunction f.name f.stencil f.argTypes).2) =
          .ok scope ∧
        FunctionState.addOps
            { program := (p.beginFunction f.name f.stencil f.argTypes).1, scope } f.ops = .ok s ∧
        q = s.program := by
  simp only [FunctionDesc.elaborate, bind_eq_ok, pure_eq_ok, exists_and_left]

/-- A description gives a program when each of its functions can be added to the
program of those before it. -/
theorem elaborateFunctions_eq_nil {p q : Program} {fs : List FunctionDesc} :
    elaborateFunctions p fs = (q, []) ↔
      match fs with
      | [] => q = p
      | f :: rest => ∃ p', f.elaborate p = .ok p' ∧ elaborateFunctions p' rest = (q, []) := by
  cases fs with
  | nil => simp [elaborateFunctions, eq_comm]
  | cons f rest =>
      simp only [elaborateFunctions]
      cases f.elaborate p with
      | error e => simp
      | ok p' => simp

theorem Description.elaborate_eq_ok {d : Description} {p : Program} :
    d.elaborate = .ok p ↔ elaborateFunctions {} d.functions = (p, []) := by
  unfold Description.elaborate
  split
  · next q h => simp [h]
  · next q ds hne h =>
      simp only [h, reduceCtorEq, Prod.mk.injEq, false_iff, not_and]
      exact fun _ hds => hne hds

end StencilShapes
