import StencilShapes.Proofs.Compilation.Reordering
import StencilShapes.Proofs.Description.Offsets
import StencilShapes.Proofs.Domain.Growing

/-!
# Requirements are monotone

A description may ask for one thing more than another one does: a body accesses once more an
operand that it accesses already, a value is stored once more, or a store writes a larger box.
When both are accepted, and runs on both succeed, no domain gets smaller by this, however many
such changes are made.

**Results.**
* `Description.AsksMore`: one change.
* `Description.Grown.trans`, `Description.exists_grown`: any number of changes, as places at
  which the operations stand afterwards.
* `Description.Grown.outgrown`: each operation has a counterpart that asks for at least as much.
* `Description.bounds_monotone`: no domain gets smaller.
-/

namespace StencilShapes

open Program

namespace OpDesc

/-- An operation that asks for at least as much, of the same names. -/
inductive Widened : OpDesc → OpDesc → Prop
  | load (result field : String) :
      Widened (.load result field) (.load result field)
  | apply {results operands params : List String} {body body' : List BodyOpDesc} :
      (∀ name, (OpDesc.apply results operands params body).offsetsOf name ⊆
        (OpDesc.apply results operands params body').offsetsOf name) →
      (∀ name, ((OpDesc.apply results operands params body').offsetsOf name).Nonempty →
        ((OpDesc.apply results operands params body).offsetsOf name).Nonempty) →
      (OpDesc.apply results operands params body').unroll? =
        (OpDesc.apply results operands params body).unroll? →
      Widened (.apply results operands params body) (.apply results operands params body')
  | store {value field : String} {lower upper lower' upper' : Point} :
      Bounds.Covers { lower := lower', upper := upper' } { lower, upper } →
      Widened (.store value field lower upper) (.store value field lower' upper')

variable {op op' op'' : OpDesc}

theorem Widened.refl (op : OpDesc) : op.Widened op := by
  cases op with
  | load result field => exact .load result field
  | apply results operands params body => exact .apply (fun _ => subset_rfl) (fun _ => id) rfl
  | store value field lower upper => exact .store (.refl _)

theorem Widened.trans (h : op.Widened op') (h' : op'.Widened op'') : op.Widened op'' := by
  cases h with
  | load result field => exact h'
  | apply hoffsets hseeded hunroll =>
      cases h' with
      | apply hoffsets' hseeded' hunroll' =>
          exact .apply (fun name => (hoffsets name).trans (hoffsets' name))
            (fun name h => hseeded name (hseeded' name h)) (hunroll'.trans hunroll)
  | store hcovers =>
      cases h' with
      | store hcovers' => exact .store (hcovers'.trans hcovers)

theorem Widened.reads_eq (h : op.Widened op') : op'.reads = op.reads := by
  cases h <;> rfl

theorem Widened.results_eq (h : op.Widened op') : op'.results = op.results := by
  cases h <;> rfl

theorem Widened.isInferable_eq (h : op.Widened op') : op'.isInferable = op.isInferable := by
  cases h <;> rfl

theorem Widened.unroll?_eq (h : op.Widened op') : op'.unroll? = op.unroll? := by
  cases h with
  | load => rfl
  | apply _ _ hunroll => exact hunroll
  | store => rfl

theorem Widened.covers {b b' : Bounds}
    (h : op.Widened op')
    (hb : op.bounds? = some b) (hb' : op'.bounds? = some b') :
    b'.Covers b := by
  cases h with
  | load => cases hb
  | apply => cases hb
  | store hcovers =>
      cases hb
      cases hb'
      exact hcovers

theorem Widened.offsetsOf_subset (h : op.Widened op') (name : String) :
    op.offsetsOf name ⊆ op'.offsetsOf name := by
  cases h with
  | load => exact subset_rfl
  | apply hoffsets => exact hoffsets name
  | store => exact subset_rfl

theorem Widened.seeded (h : op.Widened op') (name : String)
    (hread : (op'.offsetsOf name).Nonempty) :
    (op.offsetsOf name).Nonempty := by
  cases h with
  | load => exact hread
  | apply _ hseeded => exact hseeded name hread
  | store => exact hread

end OpDesc

/-- The operations of a function ask for one thing more. -/
inductive OpDesc.AskMore : List OpDesc → List OpDesc → Prop
  /-- A body accesses, before its return, an operand that it accesses already. -/
  | access (init rest : List OpDesc) {results operands params : List String}
      (before after : List BodyOpDesc) (result : String) {param : String} (offset : Point) :
      after ≠ [] →
      (∀ name, (param, name) ∈ params.zip operands →
        ((OpDesc.apply results operands params (before ++ after)).offsetsOf name).Nonempty) →
      AskMore (init ++ .apply results operands params (before ++ after) :: rest)
        (init ++
          .apply results operands params (before ++ .access result param offset :: after) :: rest)
  /-- A value is stored. -/
  | store (init rest : List OpDesc) (value field : String) (lower upper : Point) :
      AskMore (init ++ rest) (init ++ .store value field lower upper :: rest)
  /-- A store writes a box that reaches at least as far. -/
  | widen (init rest : List OpDesc) {value field : String} {lower upper lower' upper' : Point} :
      Bounds.Covers { lower := lower', upper := upper' } { lower, upper } →
      AskMore (init ++ .store value field lower upper :: rest)
        (init ++ .store value field lower' upper' :: rest)

/-- One more access widens an apply. -/
theorem OpDesc.widened_access {results operands params : List String}
    {before after : List BodyOpDesc} (result : String) {param : String} (offset : Point)
    (hafter : after ≠ [])
    (hread : ∀ name, (param, name) ∈ params.zip operands →
      ((OpDesc.apply results operands params (before ++ after)).offsetsOf name).Nonempty) :
    (OpDesc.apply results operands params (before ++ after)).Widened
      (.apply results operands params (before ++ .access result param offset :: after)) := by
  have hmem : ∀ {op : BodyOpDesc}, op ∈ before ++ .access result param offset :: after ↔
      op = .access result param offset ∨ op ∈ before ++ after := by
    intro op
    simp only [List.mem_append, List.mem_cons]
    tauto
  refine .apply ?_ ?_ ?_
  · rintro name o ⟨r, q, hin, hq⟩
    exact ⟨r, q, hmem.2 (.inr hin), hq⟩
  · rintro name ⟨o, r, q, hin, hq⟩
    rcases hmem.1 hin with heq | hin
    · cases heq
      exact hread name hq
    · exact ⟨o, r, q, hin, hq⟩
  · rw [OpDesc.unroll?, OpDesc.unroll?, List.getLast?_append_of_ne_nil _ (List.cons_ne_nil _ _),
      List.getLast?_append_of_ne_nil _ hafter, List.getLast?_cons_of_ne_nil hafter]

/-- One operation may be replaced by one that asks for at least as much. -/
theorem OpDesc.Widened.replace {init rest : List OpDesc} {a b op : OpDesc} {k : Nat}
    (h : a.Widened b)
    (hop : (init ++ a :: rest)[k]? = some op) :
    ∃ op', (init ++ b :: rest)[k]? = some op' ∧ op.Widened op' := by
  by_cases hk : k = init.length
  · subst hk
    rw [List.getElem?_append_right (Nat.le_refl _), Nat.sub_self] at hop
    cases hop
    refine ⟨b, ?_, h⟩
    rw [List.getElem?_append_right (Nat.le_refl _), Nat.sub_self]
    rfl
  · refine ⟨op, ?_, .refl op⟩
    rw [← hop]
    grind

/-- Where the operations of a function stand when it asks for one thing more. -/
theorem OpDesc.AskMore.exists_place {ops ops' : List OpDesc} (h : OpDesc.AskMore ops ops') :
    ∃ place : Nat → Nat, ∀ (k : Nat) (op : OpDesc), ops[k]? = some op →
      ∃ op', ops'[place k]? = some op' ∧ op.Widened op' := by
  cases h with
  | access init rest before after result offset hafter hread =>
      exact ⟨id, fun k op => (OpDesc.widened_access result offset hafter hread).replace⟩
  | store init rest value field lower upper =>
      refine ⟨fun k => if k < init.length then k else k + 1, fun k op hop => ⟨op, ?_, .refl op⟩⟩
      rw [← hop]
      grind
  | widen init rest hcovers => exact ⟨id, fun k op => (OpDesc.Widened.store hcovers).replace⟩

namespace Description

/-- A description asks for one thing more.  That the result of an access has a new name, and
that what is stored is defined, follows when the description is accepted. -/
inductive AsksMore : Description → Description → Prop
  | function (before after : List FunctionDesc) (f : FunctionDesc) {ops : List OpDesc} :
      OpDesc.AskMore f.ops ops →
      AsksMore { functions := before ++ f :: after }
        { functions := before ++ { f with ops } :: after }

/-- Each operation of a description has one in the other that asks for at least as much of the
same names: operation `k` of function `i` stands at `place i k` there. -/
structure Grown (place : Nat → Nat → Nat) (d d' : Description) : Prop where
  stencil : ∀ i, d'.stencilOf i = d.stencilOf i
  ops : ∀ i k op, (d.opsOf i)[k]? = some op →
    ∃ op', (d'.opsOf i)[place i k]? = some op' ∧ op.Widened op'

namespace Grown

variable {place place' : Nat → Nat → Nat} {d d' d'' : Description}

theorem refl (d : Description) : d.Grown (fun _ k => k) d :=
  ⟨fun _ => rfl, fun _ _ op hop => ⟨op, hop, .refl op⟩⟩

theorem trans (h : d.Grown place d') (h' : d'.Grown place' d'') :
    d.Grown (fun i k => place' i (place i k)) d'' := by
  refine ⟨fun i => (h'.stencil i).trans (h.stencil i), fun i k op hop => ?_⟩
  obtain ⟨op', hop', hwidened⟩ := h.ops i k op hop
  obtain ⟨op'', hop'', hwidened'⟩ := h'.ops i _ op' hop'
  exact ⟨op'', hop'', hwidened.trans hwidened'⟩

end Grown

section Changes

variable {d d' : Description}

theorem AsksMore.exists_grown (h : d.AsksMore d') : ∃ place, d.Grown place d' := by
  obtain @⟨before, after, f, ops, hmore⟩ := h
  obtain ⟨place, hplace⟩ := hmore.exists_place
  have hother : ∀ {i : Nat} (x y : FunctionDesc), i ≠ before.length →
      (before ++ x :: after)[i]? = (before ++ y :: after)[i]? := by
    grind
  refine ⟨fun i k => if i = before.length then place k else k, fun i => ?_, fun i k op hop => ?_⟩
  · by_cases hi : i = before.length
    · subst hi
      simp [stencilOf]
    · rw [stencilOf, stencilOf, hother f _ hi]
  · by_cases hi : i = before.length
    · subst hi
      simp only [opsOf, List.getElem?_append_right (Nat.le_refl _), Nat.sub_self,
        List.getElem?_cons_zero, Option.elim_some, if_true] at hop ⊢
      exact hplace k op hop
    · rw [opsOf, hother f { f with ops } hi] at hop
      exact ⟨op, by rwa [if_neg hi], .refl op⟩

/-- Any number of changes. -/
theorem exists_grown (h : Relation.ReflTransGen AsksMore d d') : ∃ place, d.Grown place d' := by
  induction h with
  | refl => exact ⟨_, .refl d⟩
  | tail _ hstep ih =>
      obtain ⟨place, hgrown⟩ := ih
      obtain ⟨place', hgrown'⟩ := hstep.exists_grown
      exact ⟨_, hgrown.trans hgrown'⟩

end Changes

/-- Operations of two programs that stand at corresponding places. -/
def PlacedOp (place : Nat → Nat → Nat) (p p' : Program) (u u' : OpId) : Prop :=
  ∃ i k : Nat, (p.opsIn (.entry i))[k]? = some u ∧ (p'.opsIn (.entry i))[place i k]? = some u'

section Programs

variable {d d' : Description} {p p' : Program} {place : Nat → Nat → Nat} {i j k : Nat}
  {op op' : OpDesc} {u u' : OpId} {o o' : Operation} {v v' : ValueId} {name : String}

/-- Operations ask for at least as much if their descriptions do. -/
theorem widened_of_described
    (h : d.elaborate = .ok p) (h' : d'.elaborate = .ok p')
    (hwidened : op.Widened op')
    (hop : op ∈ d.opsOf i) (hop' : op' ∈ d'.opsOf i)
    (ho : p.op? u = some o) (ho' : p'.op? u' = some o')
    (hdescribed : p.Described d i op o) (hdescribed' : p'.Described d' i op' o') :
    p.Widened p' (SameValue d d' p p') o o' where
  isShaped := hdescribed.contents.isShaped.trans hdescribed'.contents.isShaped.symm
  isInferable := by
    rw [hdescribed.contents.isInferable, hdescribed'.contents.isInferable, hwidened.isInferable_eq]
  bounds b b' hb hb' := by
    rw [hdescribed.contents.bounds?] at hb
    rw [hdescribed'.contents.bounds?] at hb'
    exact hwidened.covers hb hb'
  operands := forall₂_of_common hdescribed.operands (hwidened.reads_eq ▸ hdescribed'.operands)
    fun hv hv' => ⟨i, _, hv, hv'⟩
  results := forall₂_of_common hdescribed.results (hwidened.results_eq ▸ hdescribed'.results)
    fun hv hv' => ⟨i, _, hv, hv'⟩
  offsets := by
    rintro v v' ⟨j, name, hv, hv'⟩ offset hoffset
    obtain rfl := hdescribed.function_eq h ⟨offset, hoffset⟩ hv
    rw [hdescribed.mem_offsetsAt h hop ho hv] at hoffset
    rw [hdescribed'.mem_offsetsAt h' hop' ho' hv']
    exact hwidened.offsetsOf_subset name hoffset
  seeded := by
    rintro v v' ⟨j, name, hv, hv'⟩ ⟨offset, hoffset⟩
    obtain rfl := hdescribed'.function_eq h' ⟨offset, hoffset⟩ hv'
    rw [hdescribed'.mem_offsetsAt h' hop' ho' hv'] at hoffset
    obtain ⟨first, hfirst⟩ := hwidened.seeded name ⟨offset, hoffset⟩
    exact ⟨first, (hdescribed.mem_offsetsAt h hop ho hv).2 hfirst⟩
  unroll := by rw [hdescribed.unroll_eq, hdescribed'.unroll_eq, hwidened.unroll?_eq]

namespace Grown

variable (hgrown : d.Grown place d') (h : d.elaborate = .ok p) (h' : d'.elaborate = .ok p')

include hgrown h h'

/-- An operation at a position has a counterpart that asks for at least as much. -/
theorem exists_counterpart (hu : (p.opsIn (.entry i))[k]? = some u) :
    ∃ u' o o', (p'.opsIn (.entry i))[place i k]? = some u' ∧ p.op? u = some o ∧
      p'.op? u' = some o' ∧ p.Widened p' (SameValue d d' p p') o o' := by
  obtain ⟨op, o, hop, ho, hdescribed⟩ := exists_described h hu
  obtain ⟨op', hop', hwidened⟩ := hgrown.ops i k op hop
  obtain ⟨u', o', hu', ho', hdescribed'⟩ := described h' hop'
  exact ⟨u', o, o', hu', ho, ho', widened_of_described h h' hwidened (List.mem_of_getElem? hop)
    (List.mem_of_getElem? hop') ho ho' hdescribed hdescribed'⟩

/-- Each operation has a counterpart that asks for at least as much. -/
theorem outgrown : p.Outgrown p' (PlacedOp place p p') (SameValue d d' p p') where
  widened := by
    rintro u u' ⟨i, k, hu, hu'⟩
    obtain ⟨u₁, o, o', hu₁, ho, ho', hwidened⟩ := hgrown.exists_counterpart h h' hu
    obtain rfl := Option.some.inj (hu'.symm.trans hu₁)
    exact ⟨o, o', ho, ho', hwidened⟩
  value := Rearranged.value_unique h h'
  readers := by
    rintro x x' v u ⟨i, k, hx, hx'⟩ ⟨ox, ou, hox, hres, hou, _, hmem⟩
    obtain ⟨m, _, hu⟩ := exists_later_of_operand h hx hox hres hou hmem
    obtain ⟨u', _, _, hu', _⟩ := hgrown.exists_counterpart h h' hu
    exact ⟨u', i, m, hu, hu'⟩
  stencil := by
    rintro x x' ⟨i, k, hx, hx'⟩ hin
    rw [inStencil_iff h' (List.mem_of_getElem? hx'), hgrown.stencil]
    exact (inStencil_iff h (List.mem_of_getElem? hx)).1 hin

end Grown

/-- No domain gets smaller when a description asks for more: when runs on both programs
succeed, an operation still stands for the same names, and its domain covers what it was. -/
theorem bounds_monotone
    (hmore : Relation.ReflTransGen AsksMore d d')
    (h : d.elaborate = .ok p) (h' : d'.elaborate = .ok p')
    (hrun : (Compilation.run { program := p } .verification).failing = none)
    (hrun' : (Compilation.run { program := p' } .verification).failing = none)
    (hstencil : d.stencilOf i = true)
    (hop : (d.opsOf i)[k]? = some op)
    (hk : op.isInferable = true) :
    ∃ k' op' b b', (d'.opsOf i)[k']? = some op' ∧
      op'.results = op.results ∧ op.results ≠ [] ∧
      ((Compilation.run { program := p } .verification).compilation.finding? i k).bind
        Finding.bounds = some b ∧
      ((Compilation.run { program := p' } .verification).compilation.finding? i k').bind
        Finding.bounds = some b' ∧
      b'.Covers b := by
  obtain ⟨place, hgrown⟩ := exists_grown hmore
  obtain ⟨t, ht, hextents, hfinished⟩ := finished h hrun
  obtain ⟨t', ht', hextents', hfinished'⟩ := finished h' hrun'
  have houtgrown := hgrown.outgrown h h'
  obtain ⟨op', hop', hwidened⟩ := hgrown.ops i k op hop
  obtain ⟨x, o, hx, ho, hdescribed⟩ := described h hop
  obtain ⟨x', o', hx', ho', hdescribed'⟩ := described h' hop'
  have hplaced : PlacedOp place p p' x x' := ⟨i, k, hx, hx'⟩
  have hin := (inStencil_iff h (List.mem_of_getElem? hx)).2 hstencil
  have hinferable := hdescribed.contents.isInferable.trans hk
  have hinferable' := hdescribed'.contents.isInferable.trans (hwidened.isInferable_eq.trans hk)
  obtain ⟨b, _, hb, _⟩ := hfinished.progress.shaped ho hinferable hin
  obtain ⟨b', _, hb', _⟩ :=
    hfinished'.progress.shaped ho' hinferable' (houtgrown.stencil hplaced hin)
  refine ⟨place i k, op', b, b', hop', hwidened.results_eq, ?_, ?_, ?_, ?_⟩
  · -- A domain is inferred only for what is read.
    intro hnil
    obtain ⟨v, u, _, ⟨o₁, _, ho₁, hv, _⟩, _⟩ :=
      (hfinished.progress.settled ho hinferable hin).admissible.used
    obtain rfl := Option.some.inj (ho.symm.trans ho₁)
    have hlength := hdescribed.results.length_eq
    rw [hnil] at hlength
    rw [List.eq_nil_of_length_eq_zero hlength.symm] at hv
    cases hv
  · rw [hfinished.finding?_eq hextents hx ho]
    exact hb
  · rw [hfinished'.finding?_eq hextents' hx' ho']
    exact hb'
  · exact houtgrown.covers
      (houtgrown.reads_le (hfinished.sound.coherent.extentsExact hfinished.sound.fresh)
        (hfinished'.sound.coherent.extentsExact hfinished'.sound.fresh) ht ht')
      hfinished.stage hfinished'.stage hplaced hin hb hb'

end Programs

/-- The smoothing step that reads one cell further, and stores more. -/
def smoothingMore : Description :=
  { functions :=
      [{ name := "smooth"
         stencil := true
         args :=
           [{ name := "in", element := .f64, rank := 1 },
             { name := "out", element := .f64, rank := 1 }]
         ops :=
           [.load "t" "in",
             .apply ["u"] ["t"] ["a"]
               [.access "l" "a" [.ofInt64 (-1)], .access "r" "a" [.one],
                 .arith "s" .add "l" "r", .access "q" "a" [.ofInt64 4],
                 .ret ["s", "r"] (some [.ofInt64 2])],
             .store "u" "out" [.ofInt64 0] [.ofInt64 8],
             .store "u" "in" [.ofInt64 3] [.ofInt64 5],
             .store "t" "out" [.ofInt64 (-6)] [.ofInt64 16]] }] }

theorem asksMore_smoothing : Relation.ReflTransGen AsksMore smoothing smoothingMore :=
  .tail (.tail (.single
    (.function [] [] _ (.access [_] _ [_, _, _] [_] "q" [.ofInt64 4] (List.cons_ne_nil _ _)
      fun name hname => ⟨[.one], "r", "a", by decide, hname⟩)))
    (.function [] [] _ (.store [_, _, _] [_] "u" "in" [.ofInt64 3] [.ofInt64 5])))
    (.function [] [] _ (.widen [_, _, _, _] [] ⟨rfl, rfl, by decide, by decide⟩))

theorem bounds_monotone_smoothing :
    ∃ p' k' op' b b', smoothingMore.elaborate = .ok p' ∧
      (smoothingMore.opsOf 0)[k']? = some op' ∧ op'.results = ["t"] ∧
      ((Compilation.run { program := Program.smoothing } .verification).compilation.finding? 0
        0).bind Finding.bounds = some b ∧
      ((Compilation.run { program := p' } .verification).compilation.finding? 0 k').bind
        Finding.bounds = some b' ∧
      b'.Covers b := by
  have h' : smoothingMore.elaborate = .ok (elaborateFunctions {} smoothingMore.functions).1 := by
    rfl
  have hrun : ∀ p ∈ [Program.smoothing, (elaborateFunctions {} smoothingMore.functions).1],
      (Compilation.run { program := p } .verification).failing = none := by
    simp only [Compilation.run, Pass.required_verification]
    decide
  obtain ⟨k', op', b, b', hop', hresults, _, hb, hb', hcovers⟩ :=
    bounds_monotone asksMore_smoothing Program.elaborate_smoothing h' (hrun _ (by simp))
      (hrun _ (by simp)) (i := 0) (k := 0) (by decide) rfl rfl
  exact ⟨_, k', op', b, b', h', hop', hresults, hb, hb', hcovers⟩

end Description
end StencilShapes
