import StencilShapes.Proofs.Description.Blocks
import Mathlib.Data.List.Zip

/-!
# What the names of a function stand for

In the program of a description each name of a function stands for one value, and no value
has two names.  An operation has the values for operands and results for which the names
stand that the description reads and defines there.  None of this says in which order the
operations were read.

**Results.**
* `Program.Names.unique`, `Program.Names.inj`: names and values correspond one for one.
* `Description.described`: an operation and its description.
-/

namespace StencilShapes

/-- Where results do not repeat, no two positions have one in common. -/
theorem position_unique {α β : Type} {results : α → List β} {ops : List α} {j k : Nat} {a b : α}
    {x : β}
    (h : (ops.flatMap results).Nodup)
    (ha : ops[j]? = some a) (hb : ops[k]? = some b)
    (hx : x ∈ results a) (hx' : x ∈ results b) :
    j = k := by
  have hdisjoint := List.pairwise_iff_getElem.1 (List.nodup_flatMap.1 h).2
  obtain ⟨hj, rfl⟩ := List.getElem?_eq_some_iff.1 ha
  obtain ⟨hk, rfl⟩ := List.getElem?_eq_some_iff.1 hb
  rcases Nat.lt_trichotomy j k with hlt | heq | hlt
  · exact (hdisjoint j k hj hk hlt hx hx').elim
  · exact heq
  · exact (hdisjoint k j hk hj hlt hx' hx).elim

/-- Where names do not repeat, each stands for one value. -/
theorem eq_of_mem_zip {α β : Type} {xs : List α} {ys : List β} {x : α} {y y' : β}
    (h : xs.Nodup)
    (hy : (x, y) ∈ xs.zip ys) (hy' : (x, y') ∈ xs.zip ys) :
    y = y' := by
  obtain ⟨i, hi⟩ := List.getElem?_of_mem hy
  obtain ⟨j, hj⟩ := List.getElem?_of_mem hy'
  obtain ⟨hxi, hyi⟩ := List.getElem?_zip_eq_some.1 hi
  obtain ⟨hxj, hyj⟩ := List.getElem?_zip_eq_some.1 hj
  obtain rfl := (List.getElem?_inj (List.getElem?_eq_some_iff.1 hxi).1 h).1 (hxi.trans hxj.symm)
  exact Option.some.inj (hyi.symm.trans hyj)

/-- Where values do not repeat, each has one name. -/
theorem eq_of_mem_zip_right {α β : Type} {xs : List α} {ys : List β} {x x' : α} {y : β}
    (h : ys.Nodup)
    (hx : (x, y) ∈ xs.zip ys) (hx' : (x', y) ∈ xs.zip ys) :
    x = x' := by
  have hflip : ∀ {x}, (x, y) ∈ xs.zip ys → (y, x) ∈ ys.zip xs := fun hmem => by
    rw [← List.zip_swap]
    exact List.mem_map_of_mem hmem
  exact eq_of_mem_zip h (hflip hx) (hflip hx')

namespace Description

/-- The operations of a function. -/
def opsOf (d : Description) (i : Nat) : List OpDesc :=
  d.functions[i]?.elim [] FunctionDesc.ops

/-- The names of the arguments of a function. -/
def argsOf (d : Description) (i : Nat) : List String :=
  d.functions[i]?.elim [] fun f => f.args.map FieldDesc.name

end Description

namespace Program

/-- A name of function `i` of a description stands for a value of the program. -/
inductive Names (p : Program) (d : Description) (i : Nat) (name : String) (v : ValueId) : Prop
  | arg :
      (name, v) ∈ (d.argsOf i).zip (p.argsIn (.entry i)) →
      Names p d i name v
  | result {k : Nat} {op : OpDesc} {u : OpId} {o : Operation} :
      (d.opsOf i)[k]? = some op →
      (p.opsIn (.entry i))[k]? = some u →
      p.op? u = some o →
      (name, v) ∈ op.results.zip o.results →
      Names p d i name v

/-- An operation of function `i`, with its description. -/
structure Described (p : Program) (d : Description) (i : Nat) (op : OpDesc) (o : Operation) :
    Prop where
  contents : p.RealizesContents o op
  operands : List.Forall₂ (p.Names d i) op.reads o.operands
  results : List.Forall₂ (p.Names d i) op.results o.results

/-- Each operation is described by what stands at its position, in an environment of names
that are known from the start or that earlier operations define. -/
theorem Realizes.exists_getElem? {p : Program} {α : Type} {results : α → List String}
    {one : Environment → α → Operation → Prop} {env : Environment} {ops : List α}
    {us : List OpId}
    (h : p.Realizes results one env ops us) :
    ∀ {k : Nat} {op : α}, ops[k]? = some op → ∃ u o known, us[k]? = some u ∧ p.op? u = some o ∧
      one known op o ∧ ∀ b ∈ known, b ∈ env ∨ ∃ (j : Nat) (op' : α) (w : OpId) (ow : Operation),
        ops[j]? = some op' ∧ us[j]? = some w ∧ p.op? w = some ow ∧
          b ∈ (results op').zip ow.results := by
  induction h with
  | nil =>
      intro k op hop
      cases hop
  | @cons env first ops w us ow how hfirst _ ih =>
      intro k op hop
      cases k with
      | zero =>
          cases hop
          exact ⟨w, ow, env, rfl, how, hfirst, fun b hb => .inl hb⟩
      | succ k =>
          obtain ⟨u, o, known, hu, ho, hone, hknown⟩ := ih hop
          refine ⟨u, o, known, hu, ho, hone, fun b hb => ?_⟩
          rcases hknown b hb with henv | ⟨j, op', x, ox, hop', hx, hox, hmem⟩
          · rcases List.mem_append.1 henv with henv | hmem
            · exact .inl henv
            · exact .inr ⟨0, first, w, ow, rfl, rfl, how, hmem⟩
          · exact .inr ⟨j + 1, op', x, ox, hop', hx, hox, hmem⟩

theorem nodup_argsIn {p : Program} (h : Builder.Sound { program := p }) (i : Nat) :
    (p.argsIn (.entry i)).Nodup := by
  rw [argsIn, ← Array.getElem?_toList]
  cases hg : p.functions.toList[i]? with
  | none => exact List.nodup_nil
  | some g =>
      have hordered := (List.pairwise_flatMap.1 h.filed.params_ordered).1 g
        (List.mem_of_getElem? hg)
      exact hordered.imp fun hlt heq => Nat.ne_of_lt hlt (congrArg ValueId.index heq)

end Program

open Program

namespace Description

variable {d : Description} {p : Program} {i k : Nat} {name name' : String} {v w : ValueId}

/-- The function at a position, with its description. -/
theorem exists_function (h : d.elaborate = .ok p) {f : FunctionDesc}
    (hf : d.functions[i]? = some f) :
    ∃ g, p.functions[i]? = some g ∧ p.RealizesFunction f g := by
  obtain ⟨g, hg, hfg⟩ := exists_getElem?_of_forall₂ (realizes_functions h).1 hf
  rw [Array.getElem?_toList] at hg
  exact ⟨g, hg, hfg⟩

theorem getElem?_functions_eq_none (h : d.elaborate = .ok p) (hf : d.functions[i]? = none) :
    p.functions[i]? = none := by
  rwa [Array.getElem?_eq_none_iff, ← Array.length_toList, ← (realizes_functions h).1.length_eq,
    ← List.getElem?_eq_none_iff]

/-- The names of a function are distinct. -/
theorem nodup_names (h : d.elaborate = .ok p) (i : Nat) :
    (d.argsOf i ++ (d.opsOf i).flatMap OpDesc.results).Nodup := by
  rw [argsOf, opsOf]
  cases hf : d.functions[i]? with
  | none => exact List.nodup_nil
  | some f => exact (wellFormed_of_elaborate h f (List.mem_of_getElem? hf)).inOrder.distinct

/-- An operation has a description, and each description an operation. -/
theorem length_opsIn (h : d.elaborate = .ok p) (i : Nat) :
    (p.opsIn (.entry i)).length = (d.opsOf i).length := by
  rw [opsIn, opsOf]
  cases hf : d.functions[i]? with
  | none =>
      rw [getElem?_functions_eq_none h hf]
      rfl
  | some f =>
      obtain ⟨g, hg, hrealizes⟩ := exists_function h hf
      rw [hg]
      exact (Realizes.forall₂ hrealizes.ops).length_eq.symm

/-- An operation and its description: names stand for operands and results. -/
theorem described (h : d.elaborate = .ok p) {op : OpDesc} (hop : (d.opsOf i)[k]? = some op) :
    ∃ u o, (p.opsIn (.entry i))[k]? = some u ∧ p.op? u = some o ∧ p.Described d i op o := by
  cases hf : d.functions[i]? with
  | none =>
      rw [opsOf, hf] at hop
      cases hop
  | some f =>
      obtain ⟨g, hg, hrealizes⟩ := exists_function h hf
      have hops : d.opsOf i = f.ops := by rw [opsOf, hf]; rfl
      have hbody : p.opsIn (.entry i) = g.body := by rw [opsIn, hg]; rfl
      have hargs : d.argsOf i = f.args.map FieldDesc.name := by rw [argsOf, hf]; rfl
      have hvalues : p.argsIn (.entry i) = g.args := by rw [argsIn, hg]; rfl
      obtain ⟨u, o, known, hu, ho, hone, hknown⟩ := hrealizes.ops.exists_getElem? (hops ▸ hop)
      refine ⟨u, o, hbody ▸ hu, ho, hone.contents, ?_, ?_⟩
      · have hmeaning : List.Forall₂ (fun name v => known.meaning name = some v) op.reads
            o.operands := by
          rw [← List.forall₂_map_right_iff (R := fun name v => known.meaning name = v),
            ← List.forall₂_map_left_iff (R := fun v w => v = w), List.forall₂_eq_eq_eq]
          exact hone.operands.symm
        refine hmeaning.imp fun name v hname => ?_
        obtain ⟨before, after, hsplit, _⟩ := List.lookup_eq_some_iff.1 hname
        have hmem : (name, v) ∈ known := by rw [hsplit]; simp
        rcases hknown _ hmem with harg | ⟨j, op', w, ow, hop', hw, how, hres⟩
        · exact .arg (by rwa [hargs, hvalues])
        · exact .result (hops ▸ hop') (hbody ▸ hw) how hres
      · exact List.forall₂_iff_zip.2 ⟨hone.results.symm,
          fun hmem => .result hop (hbody ▸ hu) ho hmem⟩

end Description

namespace Program.Names

variable {d : Description} {p : Program} {i j : Nat} {name name' : String} {v w : ValueId}

/-- A value is defined in the function whose name stands for it. -/
theorem definedIn (h : p.Names d i name v) : p.DefinedIn (.entry i) v := by
  cases h with
  | arg hmem => exact .inl (List.of_mem_zip hmem).2
  | @result _ _ u o _ hu ho hmem =>
      exact .inr ⟨u, List.mem_of_getElem? hu, o, ho, (List.of_mem_zip hmem).2⟩

/-- A name stands for one value only. -/
theorem unique (h : d.elaborate = .ok p) (hv : p.Names d i name v) (hw : p.Names d i name w) :
    v = w := by
  obtain ⟨hargs, hops, hdisjoint⟩ := List.nodup_append'.1 (Description.nodup_names h i)
  cases hv with
  | arg hv =>
      cases hw with
      | arg hw => exact eq_of_mem_zip hargs hv hw
      | result hop _ _ hw =>
          exact (hdisjoint (List.of_mem_zip hv).1
            (List.mem_flatMap.2 ⟨_, List.mem_of_getElem? hop, (List.of_mem_zip hw).1⟩)).elim
  | result hop hu ho hv =>
      cases hw with
      | arg hw =>
          exact (hdisjoint (List.of_mem_zip hw).1
            (List.mem_flatMap.2 ⟨_, List.mem_of_getElem? hop, (List.of_mem_zip hv).1⟩)).elim
      | result hop' hu' ho' hw =>
          obtain rfl :=
            position_unique hops hop hop' (List.of_mem_zip hv).1 (List.of_mem_zip hw).1
          obtain rfl := Option.some.inj (hop.symm.trans hop')
          obtain rfl := Option.some.inj (hu.symm.trans hu')
          obtain rfl := Option.some.inj (ho.symm.trans ho')
          exact eq_of_mem_zip ((List.nodup_flatMap.1 hops).1 _ (List.mem_of_getElem? hop)) hv hw

/-- A value has one name only. -/
theorem inj (h : d.elaborate = .ok p) (hv : p.Names d i name v) (hw : p.Names d j name' v) :
    i = j ∧ name = name' := by
  have hsound := Description.sound_of_elaborate h
  have hij := hv.definedIn.unique hsound hw.definedIn
  cases hij
  refine ⟨rfl, ?_⟩
  have hmixed : v ∈ p.argsIn (.entry i) → ∀ {u o}, p.op? u = some o → v ∉ o.results := by
    intro harg u o ho hres
    obtain ⟨a, ha⟩ := origin_of_mem_argsIn hsound harg
    obtain ⟨b, hb⟩ := hsound.coherent.mem_results ho hres
    rw [ha] at hb
    cases hb
  cases hv with
  | arg hv =>
      cases hw with
      | arg hw => exact eq_of_mem_zip_right (nodup_argsIn hsound i) hv hw
      | result _ _ ho hw =>
          exact absurd (List.of_mem_zip hw).2 (hmixed (List.of_mem_zip hv).2 ho)
  | result hop hu ho hv =>
      cases hw with
      | arg hw => exact absurd (List.of_mem_zip hv).2 (hmixed (List.of_mem_zip hw).2 ho)
      | result hop' hu' ho' hw =>
          obtain rfl := hsound.coherent.op_unique ho ho' (List.of_mem_zip hv).2
            (List.of_mem_zip hw).2
          obtain rfl := (List.getElem?_inj (List.getElem?_eq_some_iff.1 hu).1
            (nodup_opsIn hsound (.entry i))).1 (hu.trans hu'.symm)
          obtain rfl := Option.some.inj (hop.symm.trans hop')
          obtain rfl := Option.some.inj (ho.symm.trans ho')
          exact eq_of_mem_zip_right (hsound.coherent.nodup_results ho) hv hw

end Program.Names
end StencilShapes
