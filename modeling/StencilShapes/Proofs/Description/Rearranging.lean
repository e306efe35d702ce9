import StencilShapes.Proofs.Description.Lockstep
import Mathlib.Logic.Equiv.Defs

/-!
# Functions with their operations in another order

Two descriptions may say the same with the operations of a function in another order.  If both
are accepted their programs mirror each other: operations correspond that stand for the same
described one, and values correspond that have the same name.  The types of values follow
operation by operation, from what an operation reads to what it defines.

**Results.**
* `Description.Rearranged.symm`: either description is a rearrangement of the other.
* `Description.Rearranged.type_eq`: a name stands for values of one type.
* `Description.Rearranged.corresponds`: the programs mirror each other.
-/

namespace StencilShapes

open Program

namespace Description

/-- A description with the operations in another order: operation `k` of function `i` stands
at `place i k` in the other description. -/
structure Rearranged (place : Nat → Equiv.Perm Nat) (d d' : Description) : Prop where
  function : ∀ i : Nat,
    d'.functions[i]? = d.functions[i]?.map fun f => { f with ops := d'.opsOf i }
  ops : ∀ i k : Nat, (d'.opsOf i)[place i k]? = (d.opsOf i)[k]?

/-- Operations of two programs that stand for one described operation. -/
def SameOp (place : Nat → Equiv.Perm Nat) (p p' : Program) (u u' : OpId) : Prop :=
  ∃ i k : Nat, (p.opsIn (.entry i))[k]? = some u ∧ (p'.opsIn (.entry i))[place i k]? = some u'

/-- Values of two programs that have the same name. -/
def SameValue (d d' : Description) (p p' : Program) (v v' : ValueId) : Prop :=
  ∃ i name, p.Names d i name v ∧ p'.Names d' i name v'

/-- A function is a stencil program. -/
def stencilOf (d : Description) (i : Nat) : Bool :=
  d.functions[i]?.elim false FunctionDesc.stencil

section Functions

variable {d : Description} {p : Program} {i k : Nat} {u : OpId}

/-- The arguments of a function have the types that are described. -/
theorem map_typeOf_argsIn (h : d.elaborate = .ok p) (i : Nat) :
    (p.argsIn (.entry i)).map p.typeOf =
      d.functions[i]?.elim [] fun f => f.args.map fun a => .field a.element a.rank.toNat := by
  cases hf : d.functions[i]? with
  | none =>
      rw [argsIn, getElem?_functions_eq_none h hf]
      rfl
  | some f =>
      obtain ⟨g, hg, hrealizes⟩ := exists_function h hf
      rw [argsIn, hg]
      exact hrealizes.args

theorem names_args (h : d.elaborate = .ok p) (i : Nat) :
    List.Forall₂ (p.Names d i) (d.argsOf i) (p.argsIn (.entry i)) := by
  refine List.forall₂_iff_zip.2 ⟨?_, fun hmem => .arg hmem⟩
  have hlength := congrArg List.length (map_typeOf_argsIn h i)
  rw [List.length_map] at hlength
  rw [hlength, argsOf]
  cases d.functions[i]? <;> simp

/-- Whether an operation belongs to a stencil program is said by the description. -/
theorem inStencil_iff (h : d.elaborate = .ok p) (hu : u ∈ p.opsIn (.entry i)) :
    InStencil p.functions.toList u ↔ d.stencilOf i = true := by
  have hstencil : ∀ {g}, p.functions.toList[i]? = some g → g.stencil = d.stencilOf i := by
    intro g hg
    cases hf : d.functions[i]? with
    | none =>
        rw [Array.getElem?_toList, getElem?_functions_eq_none h hf] at hg
        cases hg
    | some f =>
        obtain ⟨g', hg', hrealizes⟩ := exists_function h hf
        rw [Array.getElem?_toList, hg'] at hg
        cases hg
        rw [hrealizes.stencil, stencilOf, hf]
        rfl
  obtain ⟨g, hg, hug⟩ := mem_opsIn_entry.1 hu
  constructor
  · rintro ⟨f, hf, hstencil', huf⟩
    obtain ⟨j, hj⟩ := List.getElem?_of_mem hf
    obtain rfl := (sound_of_elaborate h).fresh.entry_unique hu (mem_opsIn_entry.2 ⟨f, hj, huf⟩)
    rw [← hstencil hj, hstencil']
  · exact fun hi => ⟨g, List.mem_of_getElem? hg, (hstencil hg).trans hi, hug⟩

/-- What reads a result of an operation stands behind it in the function. -/
theorem exists_later_of_operand (h : d.elaborate = .ok p) {j : Nat} {w : OpId} {o ow : Operation}
    {v : ValueId}
    (hw : (p.opsIn (.entry i))[j]? = some w) (how : p.op? w = some ow) (hres : v ∈ ow.results)
    (ho : p.op? u = some o) (hv : v ∈ o.operands) :
    ∃ k, j < k ∧ (p.opsIn (.entry i))[k]? = some u := by
  obtain ⟨n, hn⟩ := List.getElem?_of_mem hv
  have huse : { user := u, operand := n } ∈ p.usesOf v :=
    (sound_of_elaborate h).coherent.mem_uses.2 ⟨o, ho, hn⟩
  exact later_of_elaborate h hw how hres huse

/-- What an operation reads is defined before it, if an operation of the function defines it. -/
theorem lt_of_operand (h : d.elaborate = .ok p) {j : Nat} {w : OpId} {o ow : Operation}
    {v : ValueId}
    (hu : (p.opsIn (.entry i))[k]? = some u) (ho : p.op? u = some o) (hv : v ∈ o.operands)
    (hw : (p.opsIn (.entry i))[j]? = some w) (how : p.op? w = some ow) (hres : v ∈ ow.results) :
    j < k := by
  obtain ⟨k', hlt, hk'⟩ := exists_later_of_operand h hw how hres ho hv
  rwa [(List.getElem?_inj (List.getElem?_eq_some_iff.1 hk').1
    (nodup_opsIn (sound_of_elaborate h) (.entry i))).1 (hk'.trans hu.symm)] at hlt

/-- An operation of a function has a description. -/
theorem exists_described (h : d.elaborate = .ok p) (hu : (p.opsIn (.entry i))[k]? = some u) :
    ∃ op o, (d.opsOf i)[k]? = some op ∧ p.op? u = some o ∧ p.Described d i op o := by
  obtain ⟨hk, _⟩ := List.getElem?_eq_some_iff.1 hu
  rw [length_opsIn h i] at hk
  obtain ⟨u', o, hu', ho, hdescribed⟩ := described h (List.getElem?_eq_getElem hk)
  obtain rfl := Option.some.inj (hu.symm.trans hu')
  exact ⟨_, o, List.getElem?_eq_getElem hk, ho, hdescribed⟩

end Functions

namespace Rearranged

variable {place : Nat → Equiv.Perm Nat} {d d' : Description} {p p' : Program} {i k : Nat}
  {u u' : OpId} {v v' : ValueId} {name : String}

theorem symm (hd : d.Rearranged place d') : d'.Rearranged (fun i => (place i).symm) d where
  function i := by
    rw [hd.function i, opsOf]
    cases d.functions[i]? <;> rfl
  ops i k := by
    rw [← hd.ops i, Equiv.apply_symm_apply]

theorem argsOf_eq (hd : d.Rearranged place d') (i : Nat) : d'.argsOf i = d.argsOf i := by
  rw [argsOf, argsOf, hd.function i]
  cases d.functions[i]? <;> rfl

theorem stencilOf_eq (hd : d.Rearranged place d') (i : Nat) : d'.stencilOf i = d.stencilOf i := by
  rw [stencilOf, stencilOf, hd.function i]
  cases d.functions[i]? <;> rfl

variable (hd : d.Rearranged place d') (h : d.elaborate = .ok p) (h' : d'.elaborate = .ok p')

include hd h h'

/-- An operation at a position has a counterpart, which has the same description. -/
theorem exists_counterpart (hu : (p.opsIn (.entry i))[k]? = some u) :
    ∃ op o u' o', (p'.opsIn (.entry i))[place i k]? = some u' ∧ (d.opsOf i)[k]? = some op ∧
      p.op? u = some o ∧ p'.op? u' = some o' ∧ p.Described d i op o ∧ p'.Described d' i op o' := by
  obtain ⟨op, o, hop, ho, hdescribed⟩ := exists_described h hu
  obtain ⟨u', o', hu', ho', hdescribed'⟩ := described h' ((hd.ops i k).trans hop)
  exact ⟨op, o, u', o', hu', hop, ho, ho', hdescribed, hdescribed'⟩

omit hd h in
/-- A name that two lists of values share stands for values of one type, if the lists have the
same types. -/
theorem type_eq_of_mem_zip {names : List String} {vs vs' : List ValueId}
    (hvs' : List.Forall₂ (p'.Names d' i) names vs')
    (htypes : vs.map p.typeOf = vs'.map p'.typeOf)
    (hv : (name, v) ∈ names.zip vs)
    (hv' : p'.Names d' i name v') :
    p.typeOf v = p'.typeOf v' := by
  obtain ⟨m, hm⟩ := List.getElem?_of_mem hv
  obtain ⟨hname, hvm⟩ := List.getElem?_zip_eq_some.1 hm
  obtain ⟨w, hw, hnames⟩ := exists_getElem?_of_forall₂ hvs' hname
  obtain rfl := hnames.unique h' hv'
  have hty := congrArg (·[m]?) htypes
  simpa [hvm, hw] using hty

/-- The name of an argument stands for arguments of one type. -/
theorem type_eq_of_arg
    (hv : (name, v) ∈ (d.argsOf i).zip (p.argsIn (.entry i)))
    (hv' : p'.Names d' i name v') :
    p.typeOf v = p'.typeOf v' := by
  have hargs := names_args h' i
  rw [hd.argsOf_eq i] at hargs
  refine type_eq_of_mem_zip h' hargs ?_ hv hv'
  rw [map_typeOf_argsIn h, map_typeOf_argsIn h', hd.function i]
  cases d.functions[i]? <;> rfl

omit hd h h' in
/-- Operations of one description read values of the same types if names stand for such. -/
theorem operands_types {op : OpDesc} {o o' : Operation}
    (hdescribed : p.Described d i op o) (hdescribed' : p'.Described d' i op o')
    (htype : ∀ {name v v'}, p.Names d i name v → p'.Names d' i name v' → v ∈ o.operands →
      p.typeOf v = p'.typeOf v') :
    o.operands.map p.typeOf = o'.operands.map p'.typeOf := by
  have hnames : List.Forall₂ (fun v v' => ∃ name, p.Names d i name v ∧ p'.Names d' i name v')
      o.operands o'.operands :=
    forall₂_of_common hdescribed.operands hdescribed'.operands fun hv hv' => ⟨_, hv, hv'⟩
  obtain ⟨hlength, hpairs⟩ := List.forall₂_iff_zip.1 hnames
  have htypes : List.Forall₂ (fun v v' => p.typeOf v = p'.typeOf v') o.operands o'.operands := by
    refine List.forall₂_iff_zip.2 ⟨hlength, fun hmem => ?_⟩
    obtain ⟨_, hv, hv'⟩ := hpairs hmem
    exact htype hv hv' (List.of_mem_zip hmem).1
  exact map_eq_of_forall₂ htypes id

/-- The results of an operation have the types of the results of its counterpart. -/
theorem results_types {o o' : Operation}
    (hu : (p.opsIn (.entry i))[k]? = some u) (ho : p.op? u = some o)
    (hu' : (p'.opsIn (.entry i))[place i k]? = some u') (ho' : p'.op? u' = some o') :
    o.results.map p.typeOf = o'.results.map p'.typeOf := by
  -- What an operation reads is an argument, or an earlier operation defines it.
  induction k using Nat.strong_induction_on generalizing u u' o o' with
  | _ k ih =>
      obtain ⟨op, o₁, u₁, o₁', hu₁, hop, ho₁, ho₁', hdescribed, hdescribed'⟩ :=
        hd.exists_counterpart h h' hu
      obtain rfl := Option.some.inj (hu'.symm.trans hu₁)
      obtain rfl := Option.some.inj (ho.symm.trans ho₁)
      obtain rfl := Option.some.inj (ho'.symm.trans ho₁')
      have htype : ∀ {name v v'}, p.Names d i name v → p'.Names d' i name v' → v ∈ o.operands →
          p.typeOf v = p'.typeOf v' := by
        intro name v v' hv hv' hread
        cases hv with
        | arg hmem => exact hd.type_eq_of_arg h h' hmem hv'
        | @result j op₂ w ow hop₂ hw how hmem =>
            have hres := (List.of_mem_zip hmem).2
            have hlt : j < k := lt_of_operand h hu ho hread hw how hres
            obtain ⟨op₃, ow₁, w', ow', hw', hop₃, how₁, how', _, hdescribed₂⟩ :=
              hd.exists_counterpart h h' hw
            obtain rfl := Option.some.inj (how.symm.trans how₁)
            obtain rfl := Option.some.inj (hop₂.symm.trans hop₃)
            exact type_eq_of_mem_zip h' hdescribed₂.results (ih j hlt hw how hw' how') hmem hv'
      exact types_eq_of_contents (sound_of_elaborate h).coherent (sound_of_elaborate h').coherent
        ho ho' hdescribed.contents hdescribed'.contents
        (operands_types hdescribed hdescribed' htype) hdescribed.results.length_eq.symm
        hdescribed'.results.length_eq.symm

/-- A name stands for values of one type. -/
theorem type_eq (hv : SameValue d d' p p' v v') : p.typeOf v = p'.typeOf v' := by
  obtain ⟨i, name, hv, hv'⟩ := hv
  cases hv with
  | arg hmem => exact hd.type_eq_of_arg h h' hmem hv'
  | result hop hu ho hmem =>
      obtain ⟨op, o, u', o', hu', hop', ho₁, ho', _, hdescribed⟩ := hd.exists_counterpart h h' hu
      obtain rfl := Option.some.inj (ho.symm.trans ho₁)
      obtain rfl := Option.some.inj (hop.symm.trans hop')
      exact type_eq_of_mem_zip h' hdescribed.results (hd.results_types h h' hu ho hu' ho') hmem hv'

omit hd in
theorem value_unique {w w' : ValueId} (hv : SameValue d d' p p' v w)
    (hv' : SameValue d d' p p' v w') :
    w = w' := by
  obtain ⟨i, name, hv, hw⟩ := hv
  obtain ⟨j, name', hv', hw'⟩ := hv'
  obtain ⟨rfl, rfl⟩ := hv.inj h hv'
  exact hw.unique h' hw'

/-- Each program mirrors the other. -/
theorem mirrors : p.Mirrors p' (SameOp place p p') (SameValue d d' p p') where
  twins := by
    rintro u u' ⟨i, k, hu, hu'⟩
    obtain ⟨op, o, u₁, o', hu₁, _, ho, ho', hdescribed, hdescribed'⟩ :=
      hd.exists_counterpart h h' hu
    obtain rfl := Option.some.inj (hu'.symm.trans hu₁)
    refine ⟨o, o', ho, ho', twins_of_contents (sound_of_elaborate h).coherent
      (sound_of_elaborate h').coherent ho ho' hdescribed.contents hdescribed'.contents
      (forall₂_of_common hdescribed.operands hdescribed'.operands fun hv hv' => ⟨i, _, hv, hv'⟩)
      (forall₂_of_common hdescribed.results hdescribed'.results fun hv hv' => ⟨i, _, hv, hv'⟩)
      (hd.type_eq h h') (value_unique h h') ?_⟩
    rintro v v' w ⟨i, name, hv, hw⟩ ⟨j, name', hv', hw'⟩
    obtain ⟨rfl, rfl⟩ := hw.inj h' hw'
    exact hv.unique h hv'
  value := value_unique h h'
  types := hd.type_eq h h'
  readers := by
    rintro x x' v u ⟨i, k, hx, hx'⟩ ⟨ox, ou, hox, hres, hou, _, hmem⟩
    obtain ⟨m, _, hu⟩ := exists_later_of_operand h hx hox hres hou hmem
    obtain ⟨_, _, u', _, hu', _⟩ := hd.exists_counterpart h h' hu
    exact ⟨u', i, m, hu, hu'⟩
  stencil := by
    rintro x x' ⟨i, k, hx, hx'⟩ hin
    rw [inStencil_iff h' (List.mem_of_getElem? hx'), hd.stencilOf_eq]
    exact (inStencil_iff h (List.mem_of_getElem? hx)).1 hin
  total := by
    rintro x ⟨f, hf, _, hx⟩
    obtain ⟨i, hi⟩ := List.getElem?_of_mem hf
    obtain ⟨k, hk⟩ := List.getElem?_of_mem (mem_opsIn_entry.2 ⟨f, hi, hx⟩)
    obtain ⟨_, _, x', _, hx', _⟩ := hd.exists_counterpart h h' hk
    exact ⟨x', i, k, hk, hx'⟩

/-- The programs mirror each other. -/
theorem corresponds : p.Corresponds p' (SameOp place p p') (SameValue d d' p p') := by
  have hop : SameOp (fun i => (place i).symm) p' p = flip (SameOp place p p') := by
    funext u' u
    refine propext ⟨?_, ?_⟩
    · rintro ⟨i, k, hu', hu⟩
      exact ⟨i, _, hu, by rwa [Equiv.apply_symm_apply]⟩
    · rintro ⟨i, k, hu, hu'⟩
      exact ⟨i, _, hu', by rwa [Equiv.symm_apply_apply]⟩
  have hvalue : SameValue d' d p' p = flip (SameValue d d' p p') := by
    funext v' v
    exact propext ⟨fun ⟨i, name, hv', hv⟩ => ⟨i, name, hv, hv'⟩,
      fun ⟨i, name, hv, hv'⟩ => ⟨i, name, hv', hv⟩⟩
  exact ⟨hd.mirrors h h', hop ▸ hvalue ▸ hd.symm.mirrors h' h⟩

end Rearranged

end Description
end StencilShapes
