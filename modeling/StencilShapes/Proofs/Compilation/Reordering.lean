import StencilShapes.Proofs.Compilation.Declared
import StencilShapes.Proofs.Compilation.Modular
import StencilShapes.Proofs.Description.Rearranging
import StencilShapes.Proofs.Description.Swapping
import StencilShapes.Proofs.Domain.Correspondence

/-!
# Independent operations may change places

The operations of a function may be written in any order in which every name is defined before
it is read.  The order decides which identifiers are given out, in which order uses are folded
and in which order operations are visited, and none of this is seen in what a run finds out:
the bounds of an operation, the types of its results, and the extents at which it reads.

**Results.**
* `Description.Rearranged.run`: a run finds out the same of descriptions that differ in the
  order of operations.
* `Description.run_of_swapped`: neighbours may change places if the second one reads nothing
  that the first one defines.
-/

namespace StencilShapes

/-- What a compilation knows of an operation of a function. -/
structure Finding where
  bounds : Option Bounds
  /-- The types of its results. -/
  types : List Ty
  /-- The types of what the operations of its body define. -/
  inner : List (List Ty)
  /-- The extent at which each operand is read. -/
  extents : List (Option Extent)
  deriving DecidableEq

open Program

/-- What a compilation knows of operation `k` of function `i`. -/
def Compilation.finding? (c : Compilation) (i k : Nat) : Option Finding :=
  ((c.program.opsIn (.entry i))[k]?.bind c.program.op?).map fun o =>
    { bounds := o.kind.bounds?
      types := o.results.map c.program.typeOf
      inner := c.program.innerTypes o
      extents := o.operands.map ((c.extents.getD .empty).find? o.id) }

theorem Ty.element_unshaped (ty : Ty) : ty.unshaped.element = ty.element := by
  cases ty <;> rfl

namespace Program

/-- A run has gone through a program. -/
structure Finished (p : Program) (t : ExtentTable) (q : Program) : Prop where
  sound : Builder.Sound { program := p }
  inScope : p.Scoped
  progress : p.Progress t (InStencil p.functions.toList) q
  reshaped : p.Reshaped q
  commits : ∃ listed, p.Commits listed q

namespace Finished

variable {p q : Program} {t : ExtentTable} {u : OpId} {o : Operation} {v : ValueId}

theorem stage (h : p.Finished t q) : p.Stage t q :=
  ⟨h.sound.coherent, h.inScope, _, h.progress⟩

/-- A result has the element that was described, and the shape of the bounds. -/
theorem typeOf_result (h : p.Finished t q) (ho : p.op? u = some o)
    (hk : o.kind.isInferable = true) (hv : v ∈ o.results) :
    q.typeOf v = .temp (p.typeOf v).element ((q.boundsOf u).bind Bounds.shape?) := by
  have hshape : ∃ e, q.typeOf v = .temp e ((q.boundsOf u).bind Bounds.shape?) := by
    by_cases hin : InStencil p.functions.toList u
    · obtain ⟨b, shape, hb, hshape, _, _, hresults⟩ := h.progress.shaped ho hk hin
      rw [hb, Option.bind_some, hshape]
      exact hresults v hv
    · obtain ⟨hb, hresults⟩ := h.progress.untouched ho hk hin
      rw [hb]
      exact hresults v hv
  obtain ⟨e, he⟩ := hshape
  have hunshaped := h.reshaped.types v (h.sound.coherent.flows ho hv)
  have helement : (q.typeOf v).element = (p.typeOf v).element := by
    rw [← Ty.element_unshaped, hunshaped, Ty.element_unshaped]
  rw [he] at helement ⊢
  rw [← helement]
  rfl

/-- The operations of a body define values of the types that were described. -/
theorem innerTypes_eq {o' : Operation}
    (h : p.Finished t q)
    (ho : p.op? u = some o)
    (hbody : o'.kind.body? = o.kind.body?) :
    q.innerTypes o' = p.innerTypes o := by
  obtain ⟨listed, hcommits⟩ := h.commits
  cases hblock : o.kind.body? with
  | none =>
      rw [innerTypes, innerTypes, hbody, hblock]
      rfl
  | some block =>
      refine innerTypes_eq_of_forall₂ (hbody.trans hblock) hblock
        (List.forall₂_same.2 fun x hx => ?_)
      obtain ⟨ox, hox, hk⟩ := h.sound.fresh.inner ho hblock x hx
      obtain ⟨ox', hox', _, _, _, hresults⟩ := h.progress.frame.exists_op hox
      refine ⟨ox', ox, hox', hox, ?_⟩
      rw [hresults]
      exact List.map_congr_left fun v hv => hcommits.typeOf_inner h.sound.coherent hox hk hv

/-- The results of operations that correspond have the same types after both runs. -/
theorem map_typeOf_eq {p' q' : Program} {t' : ExtentTable} {V : ValueId → ValueId → Prop}
    {u' : OpId} {o' : Operation}
    (h : p.Finished t q) (h' : p'.Finished t' q')
    (htwins : p.Twins p' V o o')
    (htypes : ∀ {v w}, V v w → p.typeOf v = p'.typeOf w)
    (hbounds : q.boundsOf u = q'.boundsOf u')
    (ho : p.op? u = some o) (ho' : p'.op? u' = some o')
    (hk : o.kind.isShaped = true) :
    o.results.map q.typeOf = o'.results.map q'.typeOf := by
  cases hinferable : o.kind.isInferable with
  | true =>
      have hinferable' := htwins.isInferable_eq.symm.trans hinferable
      rw [List.map_congr_left fun v hv => h.typeOf_result ho hinferable hv,
        List.map_congr_left fun v hv => h'.typeOf_result ho' hinferable' hv, hbounds]
      exact map_eq_of_forall₂ htwins.results fun hv => by rw [htypes hv]
  | false =>
      -- A store defines nothing.
      obtain ⟨b, hb⟩ := OpKind.exists_store hk hinferable
      have hnil := h.inScope.store ho hb
      have hnil' : o'.results = [] := by
        rw [← List.length_eq_zero_iff, ← htwins.results.length_eq, hnil]
        rfl
      rw [hnil, hnil']
      rfl

variable {c : Compilation} {i k : Nat}

theorem opsIn_entry_eq (h : p.Finished t q) (i : Nat) :
    q.opsIn (.entry i) = p.opsIn (.entry i) := by
  rw [opsIn, opsIn, h.progress.frame.functions]

/-- What a compilation knows of an operation that it was given. -/
theorem finding?_eq
    (h : p.Finished t c.program)
    (ht : c.extents = some t)
    (hu : (p.opsIn (.entry i))[k]? = some u)
    (ho : p.op? u = some o) :
    c.finding? i k = some {
      bounds := c.program.boundsOf u
      types := o.results.map c.program.typeOf
      inner := p.innerTypes o
      extents := o.operands.map (t.find? u) } := by
  obtain ⟨o', ho', hid, hkind, hoperands, hresults⟩ := h.progress.frame.exists_op ho
  rw [Compilation.finding?, h.opsIn_entry_eq, hu, Option.bind_some, ho', Option.map_some, ht,
    Option.getD_some, hid, h.sound.coherent.op_id ho, hoperands, hresults,
    h.innerTypes_eq ho (OpKind.body?_eq_of_frame hkind), boundsOf, ho']
  rfl

/-- Where there is no operation there is nothing to know. -/
theorem finding?_eq_none
    (h : p.Finished t c.program)
    (hk : (p.opsIn (.entry i))[k]? = none) :
    c.finding? i k = none := by
  rw [Compilation.finding?, h.opsIn_entry_eq, hk]
  rfl

end Finished

end Program

namespace Description

variable {d d' : Description} {p p' : Program}

/-- A run that succeeds has gone through the program. -/
theorem finished (h : d.elaborate = .ok p)
    (hrun : (Compilation.run { program := p } .verification).failing = none) :
    ∃ t, p.extents = .ok t ∧
      (Compilation.run { program := p } .verification).compilation.extents = some t ∧
      p.Finished t (Compilation.run { program := p } .verification).compilation.program := by
  obtain ⟨t, s, ht, hinfer⟩ := Compilation.of_run_verification hrun
  have hsound := sound_of_elaborate h
  have hc : p.Coherent := hsound.coherent
  have hs := scoped_of_elaborate h
  refine ⟨t, ht, Compilation.extents_of_run_verification ht hrun, hsound, hs,
    progress_of_inferShapes hc hs (measured_of_extents hc ht) hinfer, ?_, ?_⟩
  · have hreshaped := inferShapes_keeps (t := t) (Reshaped.refl p) fun h hok => h.inferOp hc hok
    rwa [hinfer] at hreshaped
  · have hcommits :=
      (run_inferFunctions (t := t) hc hsound.fresh p.functions.toList (Commits.start p)).commits
    have hq : (p.inferFunctions t p.functions.toList).1.program = (p.inferShapes t).1 := rfl
    rw [hq, hinfer] at hcommits
    exact ⟨_, hcommits⟩

namespace Rearranged

variable {place : Nat → Equiv.Perm Nat}

/-- A run that succeeds on one program succeeds on the other. -/
theorem failing_eq_none (hd : d.Rearranged place d') (h : d.elaborate = .ok p)
    (h' : d'.elaborate = .ok p')
    (hrun : (Compilation.run { program := p } .verification).failing = none) :
    (Compilation.run { program := p' } .verification).failing = none := by
  have hc : p.Coherent := (sound_of_elaborate h).coherent
  have hc' : p'.Coherent := (sound_of_elaborate h').coherent
  have hexact := hc.extentsExact (sound_of_elaborate h).fresh
  have hexact' := hc'.extentsExact (sound_of_elaborate h').fresh
  have hcorresponds := hd.corresponds h h'
  obtain ⟨t, s, ht, hinfer⟩ := Compilation.of_run_verification hrun
  have hfound : p'.extents.toOption.isSome :=
    (hcorresponds.extents_iff hexact hexact').1 (by rw [ht]; rfl)
  have ht' := extents_eq_table hfound
  refine (run_eq_none_iff h').2 ⟨hfound, ?_⟩
  cases hfault : p'.inference.1.fault with
  | none => rfl
  | some fault =>
      have hinfer' : p'.inferShapes p'.table =
          (p'.inference.1.program, p'.summary, some fault) := by
        rw [← hfault]
        rfl
      exact (hcorresponds.inferShapes_ne_fault hc (scoped_of_elaborate h)
        (measured_of_extents hc ht) hc' (scoped_of_elaborate h') (measured_of_extents hc' ht')
        (hcorresponds.find?_eq hexact hexact' ht ht') hinfer fault hinfer').elim

/-- After runs that succeed the same is known of operations that correspond. -/
theorem finding?_eq (hd : d.Rearranged place d') (h : d.elaborate = .ok p)
    (h' : d'.elaborate = .ok p')
    (hrun : (Compilation.run { program := p } .verification).failing = none)
    (hrun' : (Compilation.run { program := p' } .verification).failing = none) (i k : Nat) :
    (Compilation.run { program := p' } .verification).compilation.finding? i (place i k) =
      (Compilation.run { program := p } .verification).compilation.finding? i k := by
  obtain ⟨t, ht, hextents, hfinished⟩ := finished h hrun
  obtain ⟨t', ht', hextents', hfinished'⟩ := finished h' hrun'
  have hcorresponds := hd.corresponds h h'
  have hsame : ∀ {u u' v v'}, SameOp place p p' u u' → SameValue d d' p p' v v' →
      t.find? u v = t'.find? u' v' :=
    hcorresponds.find?_eq (hfinished.sound.coherent.extentsExact hfinished.sound.fresh)
      (hfinished'.sound.coherent.extentsExact hfinished'.sound.fresh) ht ht'
  have hparallel : p.Parallel p' _ _ t t' _ _ :=
    ⟨hcorresponds, hsame, hfinished.stage, hfinished'.stage⟩
  cases hu : (p.opsIn (.entry i))[k]? with
  | none =>
      have hu' : (p'.opsIn (.entry i))[place i k]? = none := by
        rwa [List.getElem?_eq_none_iff, length_opsIn h', ← List.getElem?_eq_none_iff, hd.ops,
          List.getElem?_eq_none_iff, ← length_opsIn h, ← List.getElem?_eq_none_iff]
      rw [hfinished.finding?_eq_none hu, hfinished'.finding?_eq_none hu']
  | some u =>
      obtain ⟨op, o, u', o', hu', _, ho, ho', _⟩ := hd.exists_counterpart h h' hu
      have hop : SameOp place p p' u u' := ⟨i, k, hu, hu'⟩
      obtain ⟨o₁, o₁', ho₁, ho₁', htwins⟩ := hcorresponds.forth.twins hop
      obtain rfl := Option.some.inj (ho.symm.trans ho₁)
      obtain rfl := Option.some.inj (ho'.symm.trans ho₁')
      have hbounds := hparallel.boundsOf_eq hfinished.progress hfinished'.progress hop
      have hshaped : o.kind.isShaped = true := by
        obtain ⟨g, hg, hug⟩ := mem_opsIn_entry.1 (List.mem_of_getElem? hu)
        obtain ⟨o₂, ho₂, hk⟩ := hfinished.inScope.body g (List.mem_of_getElem? hg) u hug
        rwa [Option.some.inj (ho.symm.trans ho₂)]
      rw [hfinished.finding?_eq hextents hu ho, hfinished'.finding?_eq hextents' hu' ho', hbounds,
        hfinished.map_typeOf_eq hfinished' htwins hcorresponds.forth.types hbounds ho ho' hshaped,
        htwins.inner, map_eq_of_forall₂ htwins.operands fun hv => hsame hop hv]

/-- A run succeeds on both programs or on neither, and then it finds out the same: what it
knows of an operation it knows of the operation that stands for the same description. -/
theorem run
    (hd : d.Rearranged place d') (h : d.elaborate = .ok p) (h' : d'.elaborate = .ok p') :
    ((Compilation.run { program := p } .verification).failing = none ↔
      (Compilation.run { program := p' } .verification).failing = none) ∧
    ((Compilation.run { program := p } .verification).failing = none → ∀ i k,
      (Compilation.run { program := p' } .verification).compilation.finding? i (place i k) =
        (Compilation.run { program := p } .verification).compilation.finding? i k) :=
  ⟨⟨hd.failing_eq_none h h', hd.symm.failing_eq_none h' h⟩,
    fun hrun => hd.finding?_eq h h' hrun (hd.failing_eq_none h h' hrun)⟩

end Rearranged

section Swapped

/-- Where the operations of function `j` stand when operations `n` and `n + 1` have changed
places. -/
def swapAt (j n i : Nat) : Equiv.Perm Nat :=
  if i = j then Equiv.swap n (n + 1) else Equiv.refl Nat

variable {before after : List FunctionDesc} {f : FunctionDesc} {init rest : List OpDesc}
  {a b : OpDesc}

theorem getElem?_swap {α : Type} {init rest : List α} {a b : α} (k : Nat) :
    (init ++ b :: a :: rest)[Equiv.swap init.length (init.length + 1) k]? =
      (init ++ a :: b :: rest)[k]? := by
  rw [Equiv.swap_apply_def]
  grind

/-- A description in which neighbours have changed places is a rearrangement. -/
theorem rearranged_swap (before after : List FunctionDesc) (f : FunctionDesc)
    (init rest : List OpDesc) (a b : OpDesc) :
    Rearranged (swapAt before.length init.length)
      { functions := before ++ { f with ops := init ++ a :: b :: rest } :: after }
      { functions := before ++ { f with ops := init ++ b :: a :: rest } :: after } := by
  have hcases : ∀ i (x y : FunctionDesc), i ≠ before.length →
      (before ++ x :: after)[i]? = (before ++ y :: after)[i]? := by
    grind
  constructor
  · intro i
    by_cases hi : i = before.length
    · subst hi
      simp [opsOf]
    · simp only [opsOf, hcases i _ { f with ops := init ++ a :: b :: rest } hi]
      cases (before ++ { f with ops := init ++ a :: b :: rest } :: after)[i]? <;> rfl
  · intro i k
    by_cases hi : i = before.length
    · subst hi
      simpa [opsOf, swapAt] using getElem?_swap k
    · simp only [opsOf, swapAt, if_neg hi, hcases i _ { f with ops := init ++ a :: b :: rest } hi]
      rfl

/-- Two operations of a function that stand next to each other may change places if the
second one reads nothing that the first one defines: the description is still accepted, a run
succeeds as it does without the change, and then it finds out the same. -/
theorem run_of_swapped
    (h : Description.elaborate
      { functions := before ++ { f with ops := init ++ a :: b :: rest } :: after } = .ok p)
    (hapart : ∀ name ∈ b.reads, name ∉ a.results) :
    ∃ p', Description.elaborate
        { functions := before ++ { f with ops := init ++ b :: a :: rest } :: after } = .ok p' ∧
      ((Compilation.run { program := p } .verification).failing = none ↔
        (Compilation.run { program := p' } .verification).failing = none) ∧
      ((Compilation.run { program := p } .verification).failing = none → ∀ i k,
        (Compilation.run { program := p' } .verification).compilation.finding? i
            (swapAt before.length init.length i k) =
          (Compilation.run { program := p } .verification).compilation.finding? i k) := by
  have hwell := wellFormed_of_elaborate h
  have hswapped : ∀ g ∈ before ++ { f with ops := init ++ b :: a :: rest } :: after,
      g.WellFormed := by
    intro g hg
    rcases List.mem_append.1 hg with hg | hg
    · exact hwell g (List.mem_append_left _ hg)
    · rcases List.mem_cons.1 hg with rfl | hg
      · exact (hwell _ (List.mem_append_right _ List.mem_cons_self)).swap hapart
      · exact hwell g (List.mem_append_right _ (List.mem_cons_of_mem _ hg))
  obtain ⟨p', h'⟩ := exists_elaborate hswapped
  exact ⟨p', h', (rearranged_swap before after f init rest a b).run h h'⟩

end Swapped

/-- Two fields that are blended once they are loaded. -/
def blend : FunctionDesc where
  name := "blend"
  stencil := true
  args :=
    [{ name := "in", element := .f64, rank := 1 }, { name := "out", element := .f32, rank := 1 }]
  ops :=
    [.apply ["u"] ["t", "s"] ["a", "b"]
      [.access "l" "a" [.ofInt64 (-1)], .access "r" "b" [.ofInt64 2], .ret ["l"] none],
      .store "u" "out" [.ofInt64 0] [.ofInt64 8]]

/-- The loads in some order, and what reads them. -/
def blending (loads : List OpDesc) : Description :=
  { functions := [{ blend with ops := loads ++ blend.ops }] }

end Description

/-- The program with the loads in one order. -/
def Program.blending : Program :=
  (elaborateFunctions {}
    (Description.blending [.load "t" "in", .load "s" "out"]).functions).1

theorem Description.run_of_swapped_blending :
    ∃ p', (Description.blending [.load "s" "out", .load "t" "in"]).elaborate = .ok p' ∧
      (Compilation.run { program := p' } .verification).failing = none ∧ ∀ k,
        (Compilation.run { program := p' } .verification).compilation.finding? 0
            (Equiv.swap 0 1 k) =
          (Compilation.run
            { program := Program.blending } .verification).compilation.finding? 0 k := by
  have h : Description.elaborate
      { functions := [] ++ { blend with
          ops := [] ++ .load "t" "in" :: .load "s" "out" :: blend.ops } :: [] } =
      .ok Program.blending := by rfl
  have hrun : (Compilation.run { program := Program.blending } .verification).failing = none := by
    rw [Compilation.run, Pass.required_verification]
    decide
  obtain ⟨p', h', hiff, hfindings⟩ := run_of_swapped h (by decide)
  exact ⟨p', h', hiff.1 hrun, hfindings hrun 0⟩

end StencilShapes
