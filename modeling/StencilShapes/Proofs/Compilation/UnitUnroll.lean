import StencilShapes.Proofs.Compilation.Pipeline
import StencilShapes.Proofs.Description.Offsets
import StencilShapes.Proofs.Description.UnitUnroll
import StencilShapes.Proofs.Domain.UnitUnroll
import StencilShapes.Proofs.Extent.UnitUnroll

/-!
# A unit unroll is neutral, except at the edge of the range

An apply that returns without an unroll may return with the unroll that is one in each
dimension instead.  A run then comes to the same, whatever its goal: the same extents, the same
bounds and types, and the same diagnostics.  There is one exception.  The unroll is taken off
an extent in checked steps, and the first of them leaves the range if the greatest offset at
which an operand is read is the least coordinate in some dimension.

**Results.**
* `Compilation.run_withUnit`: a run on a program with the same extents.
* `Description.extents_withUnit`: where the extents are the same.
* `Description.extents_at_edge`: where they cannot be found.
* `Description.unit_unroll_neutral`: both, for a description.
-/

namespace StencilShapes

open Program

/-- A compilation, with the unroll by one for the return `x` of its program. -/
def Compilation.withUnit (x : OpId) (n : Nat) (c : Compilation) : Compilation :=
  { c with program := c.program.withUnit x n }

/-- What a run has come to, with the unroll by one for the return `x` of its program. -/
def PassRun.withUnit (x : OpId) (n : Nat) (r : PassRun) : PassRun :=
  { r with compilation := r.compilation.withUnit x n }

namespace Compilation

section Runs

variable (x : OpId) (n : Nat)

theorem record_withUnit (c : Compilation) (ds : List Diagnostic) :
    (c.withUnit x n).record ds = (c.record ds).withUnit x n := by
  rfl

/-- A pass does the same, where extent analysis finds the same. -/
theorem perform_withUnit (c : Compilation) (pass : Pass)
    (h : pass = .extentAnalysis → (c.program.withUnit x n).extents = c.program.extents) :
    (c.withUnit x n).perform pass = ((c.perform pass).1.withUnit x n, (c.perform pass).2) := by
  cases pass with
  | extentAnalysis =>
      have hextents : (c.withUnit x n).program.extents = c.program.extents := h rfl
      simp only [perform, hextents]
      cases c.program.extents <;> rfl
  | shapeInference =>
      have hinfer := fun t => inferShapes_withUnit x n t c.program
      simp only [perform, withUnit, hinfer]
  | verification =>
      have hcertify := certify_withUnit x n c.program
      simp only [perform, withUnit, hcertify]
      rfl

/-- The passes behind extent analysis do the same. -/
theorem runPasses_withUnit {passes : List Pass} (h : .extentAnalysis ∉ passes) :
    ∀ c : Compilation,
      (c.withUnit x n).runPasses passes = (c.runPasses passes).withUnit x n := by
  induction passes with
  | nil => exact fun _ => rfl
  | cons pass passes ih =>
      intro c
      obtain ⟨hpass, hpasses⟩ := not_or.1 (mt List.mem_cons.2 h)
      rw [runPasses_cons, runPasses_cons,
        perform_withUnit x n c pass fun heq => absurd heq.symm hpass]
      simp only [record_withUnit, ih hpasses]
      split <;> rfl

/-- A run comes to the same if the program has the same extents. -/
theorem run_withUnit (p : Program) (terminal : Pass)
    (h : (p.withUnit x n).extents = p.extents) :
    Compilation.run { program := p.withUnit x n } terminal =
      (Compilation.run { program := p } terminal).withUnit x n := by
  obtain ⟨rest, hrequired, hrest⟩ :
      ∃ rest, terminal.required = .extentAnalysis :: rest ∧ .extentAnalysis ∉ rest := by
    cases terminal with
    | extentAnalysis => exact ⟨_, Pass.required_extentAnalysis, by decide⟩
    | shapeInference => exact ⟨_, Pass.required_shapeInference, by decide⟩
    | verification => exact ⟨_, Pass.required_verification, by decide⟩
  have hperform := perform_withUnit x n { program := p } .extentAnalysis fun _ => h
  rw [run, run, hrequired, runPasses_cons, runPasses_cons]
  rw [show ({ program := p.withUnit x n } : Compilation) =
    Compilation.withUnit x n { program := p } from rfl, hperform]
  simp only [record_withUnit, runPasses_withUnit x n hrest]
  split <;> rfl

end Runs

/-- Where the extents cannot be found, a run reports that and nothing else. -/
theorem run_of_extents_eq_error {p : Program} {fault : Diagnostic} (h : p.extents = .error fault)
    (terminal : Pass) :
    (Compilation.run { program := p } terminal).failing = some .extentAnalysis ∧
      (Compilation.run { program := p } terminal).compilation =
        { program := p, diagnostics := [fault], hasError := true } := by
  have hending := ending_of_run p terminal
  generalize (Compilation.run { program := p } terminal).failing = failing at hending ⊢
  generalize (Compilation.run { program := p } terminal).compilation = c at hending ⊢
  cases hending with
  | unmeasured ht =>
      rw [h] at ht
      cases ht
      exact ⟨rfl, rfl⟩
  | measured ht => rw [h] at ht; cases ht
  | halted _ ht _ => rw [h] at ht; cases ht
  | shaped ht _ => rw [h] at ht; cases ht
  | uncertified ht _ _ => rw [h] at ht; cases ht
  | certified ht _ _ => rw [h] at ht; cases ht

end Compilation

namespace OpDesc

/-- All offsets at which the body reads some operand have the least coordinate in some
dimension. -/
def ReadsAtEdge (op : OpDesc) : Prop :=
  ∃ name d, (op.offsetsOf name).Nonempty ∧
    ∀ offset ∈ op.offsetsOf name, offset.coord d = Coord.least

variable (n : Nat) (op : OpDesc)

theorem offsetsOf_withUnit (name : String) :
    (op.withUnit n).offsetsOf name = op.offsetsOf name := by
  cases op with
  | load => rfl
  | store => rfl
  | apply results operands params body =>
      have hmem : ∀ {result param : String} {offset : Point},
          .access result param offset ∈ body.map (BodyOpDesc.withUnit n) ↔
            .access result param offset ∈ body := by
        intro result param offset
        rw [List.mem_map]
        constructor
        · rintro ⟨op, hop, heq⟩
          rcases op with _ | _ | ⟨_, _ | _⟩
          · cases heq
            exact hop
          all_goals cases heq
        · exact fun hop => ⟨_, hop, rfl⟩
      ext offset
      simp only [withUnit, offsetsOf, Set.mem_ofPred_eq, hmem]

/-- The names at whose operands a body reads are read by the apply. -/
theorem mem_reads_of_mem_offsetsOf {op : OpDesc} {name : String} {offset : Point}
    (h : offset ∈ op.offsetsOf name) :
    name ∈ op.reads := by
  cases op with
  | load => cases h
  | store => cases h
  | apply results operands params body =>
      obtain ⟨_, _, _, hzip⟩ := h
      exact (List.of_mem_zip hzip).2

/-- A return without an unroll gets the unroll by one. -/
theorem unroll?_withUnit {results operands params names : List String} {body : List BodyOpDesc}
    (hlast : body.getLast? = some (.ret names none)) :
    ((OpDesc.apply results operands params body).withUnit n).unroll? = some (.ones n) := by
  rw [withUnit, unroll?, List.getLast?_map, hlast]
  rfl

end OpDesc

namespace Description

section Extents

variable {d : Description} {p : Program} {x : OpId} {i k n : Nat} {op : OpDesc}

theorem opsOf_withUnit (d : Description) (i k n j : Nat) :
    (d.withUnit i k n).opsOf j =
      if i = j then (d.opsOf j).modify k (OpDesc.withUnit n) else d.opsOf j := by
  rw [opsOf, opsOf, withUnit, List.getElem?_modify]
  cases d.functions[j]? with
  | none => simp
  | some f => split <;> rfl

theorem stencilOf_withUnit (d : Description) (i k n j : Nat) :
    (d.withUnit i k n).stencilOf j = d.stencilOf j := by
  rw [stencilOf, stencilOf, withUnit, List.getElem?_modify]
  cases d.functions[j]? with
  | none => rfl
  | some f => split <;> rfl

/-- Operation `k` of function `i` is the only one that changes. -/
theorem getElem?_opsOf_withUnit (d : Description) (i k n j m : Nat) :
    ((d.withUnit i k n).opsOf j)[m]? =
      ((d.opsOf j)[m]?).map fun op => if i = j ∧ k = m then op.withUnit n else op := by
  rw [opsOf_withUnit]
  split
  · next hj =>
      rw [List.getElem?_modify]
      simp [hj]
  · next hj =>
      simp [hj]

variable (h : d.elaborate = .ok p) (h' : (d.withUnit i k n).elaborate = .ok (p.withUnit x n))
  (hop : (d.opsOf i)[k]? = some op)

include h' in
/-- The body of the apply reads an operand where it did without the unroll. -/
theorem mem_offsetsAt_withUnit {u : OpId} {o : Operation} {name : String} {v : ValueId}
    {offset : Point}
    (hop' : ((d.withUnit i k n).opsOf i)[k]? = some (op.withUnit n))
    (ho' : (p.withUnit x n).op? u = some o)
    (hdescribed' : (p.withUnit x n).Described (d.withUnit i k n) i (op.withUnit n) o)
    (hname : (p.withUnit x n).Names (d.withUnit i k n) i name v) :
    offset ∈ (p.withUnit x n).offsetsAt o v ↔ offset ∈ op.offsetsOf name := by
  rw [hdescribed'.mem_offsetsAt h' (List.mem_of_getElem? hop') ho' hname,
    OpDesc.offsetsOf_withUnit]

include h h' hop

/-- Each operation of a stencil program has the same extents, unless it is the apply and reads
at the edge. -/
theorem extentsOf_withUnit {j m : Nat} {u : OpId} {o : Operation}
    (hinside : d.stencilOf i = true → ¬ op.ReadsAtEdge)
    (hm : (p.opsIn (.entry j))[m]? = some u)
    (ho : p.op? u = some o)
    (hin : InStencil p.functions.toList u) :
    (p.withUnit x n).op? u = some o ∧ (p.withUnit x n).applyExtents o = p.applyExtents o := by
  obtain ⟨op₁, _, hop₁, hsome, hdescribed⟩ := exists_described h hm
  obtain rfl := Option.some.inj (ho.symm.trans hsome)
  have hshaped := hdescribed.contents.isShaped
  have ho' := op?_withUnit_of_isShaped x n p ho hshaped
  obtain ⟨r, hr⟩ := (scoped_of_elaborate h').ranked ho' hshaped
  refine ⟨ho', applyExtents_withUnit (coherent_of_elaborate h') ho' hr fun hne v d' hread => ?_⟩
  have hop₁' := getElem?_opsOf_withUnit d i k n j m
  rw [hop₁, Option.map_some] at hop₁'
  obtain ⟨u', _, hu', hsome', hdescribed'⟩ := described h' hop₁'
  obtain rfl : u = u' := Option.some.inj (hm.symm.trans hu')
  obtain rfl := Option.some.inj (ho'.symm.trans hsome')
  by_cases hplace : i = j ∧ k = m
  · obtain ⟨rfl, rfl⟩ := hplace
    obtain rfl := Option.some.inj (hop.symm.trans hop₁)
    rw [if_pos ⟨rfl, rfl⟩] at hop₁' hdescribed'
    obtain ⟨first, hfirst⟩ := hread
    obtain ⟨_, _, _, _, l, _, _, _, _, _, _, hl⟩ := id hfirst
    obtain ⟨name, _, hname⟩ := exists_getElem?_of_forall₂ hdescribed'.operands.flip hl
    have hoffsets : ∀ offset, offset ∈ (p.withUnit x n).offsetsAt o v ↔
        offset ∈ op.offsetsOf name :=
      fun _ => mem_offsetsAt_withUnit h' hop₁' ho' hdescribed' hname
    by_contra hleast
    push Not at hleast
    exact hinside ((inStencil_iff h (List.mem_of_getElem? hm)).1 hin)
      ⟨name, d', ⟨first, (hoffsets first).1 hfirst⟩,
        fun offset hoffset => hleast offset ((hoffsets offset).2 hoffset)⟩
  · -- The unroll is that of the description, which is the same.
    rw [if_neg hplace] at hdescribed'
    rcases unroll?_withUnit_cases x n p o with heq | ⟨hnone, ret, hunroll⟩
    · exact absurd heq hne
    · have hsame := hdescribed'.unroll_eq.trans hdescribed.unroll_eq.symm
      rw [hnone, hunroll] at hsame
      cases hsame

/-- Extents are the same unless the apply belongs to a stencil program and reads at the edge. -/
theorem extents_withUnit (hinside : d.stencilOf i = true → ¬ op.ReadsAtEdge) :
    (p.withUnit x n).extents = p.extents := by
  have hfold : p.extents = p.foldEntries .empty p.stencilEntries :=
    foldFunctions_eq_foldEntries (sound_of_elaborate h).fresh p.functions.toList .empty
  have hfold' : (p.withUnit x n).extents =
      (p.withUnit x n).foldEntries .empty p.stencilEntries :=
    foldFunctions_eq_foldEntries (sound_of_elaborate h').fresh p.functions.toList .empty
  rw [hfold, hfold']
  refine foldEntries_congr (fun g u hmem => ?_) .empty
  obtain ⟨hg, hstencil, hu⟩ := mem_entriesOf.1 hmem
  obtain ⟨j, hj⟩ := List.getElem?_of_mem hg
  obtain ⟨m, hm⟩ := List.getElem?_of_mem (mem_opsIn_entry.2 ⟨g, hj, hu⟩)
  obtain ⟨_, o, _, ho, _⟩ := exists_described h hm
  obtain ⟨ho', hextents⟩ := extentsOf_withUnit h h' hop hinside hm ho ⟨g, hg, hstencil, hu⟩
  refine ⟨ho'.trans ho.symm, fun o₁ ho₁ => ?_⟩
  obtain rfl := Option.some.inj (ho.symm.trans ho₁)
  exact hextents

omit h in
/-- Extents cannot be found if the apply belongs to a stencil program and reads at the edge. -/
theorem extents_at_edge (hunroll : (op.withUnit n).unroll? = some (.ones n))
    (hstencil : d.stencilOf i = true) (hedge : op.ReadsAtEdge) :
    ∃ fault, (p.withUnit x n).extents = .error fault := by
  have hsound' := sound_of_elaborate h'
  have hop' := getElem?_opsOf_withUnit d i k n i k
  rw [hop, Option.map_some, if_pos ⟨rfl, rfl⟩] at hop'
  obtain ⟨u, o, hu, ho, hdescribed⟩ := described h' hop'
  obtain ⟨⟨ret, block⟩, hblock, rfl⟩ :=
    Option.map_eq_some_iff.1 (hdescribed.unroll_eq.trans hunroll)
  obtain ⟨r, hr⟩ := (scoped_of_elaborate h').ranked ho hdescribed.contents.isShaped
  obtain ⟨name, d', ⟨first, hfirst⟩, hleast⟩ := hedge
  obtain ⟨l, hl⟩ := List.getElem?_of_mem
    (OpDesc.mem_reads_of_mem_offsetsOf ((OpDesc.offsetsOf_withUnit n op name).symm ▸ hfirst))
  obtain ⟨v, _, hname⟩ := exists_getElem?_of_forall₂ hdescribed.operands hl
  have hoffsets : ∀ offset, offset ∈ (p.withUnit x n).offsetsAt o v ↔
      offset ∈ op.offsetsOf name :=
    fun _ => mem_offsetsAt_withUnit h' hop' ho hdescribed hname
  have hover := unrollOverflows_of_least hr hblock ⟨first, (hoffsets first).2 hfirst⟩
    fun offset hoffset => hleast offset ((hoffsets offset).1 hoffset)
  obtain ⟨g, hg, hgstencil, hmem⟩ := (inStencil_iff h' (List.mem_of_getElem? hu)).2
    ((stencilOf_withUnit d i k n i).trans hstencil)
  exact (hsound'.coherent.extentsExact hsound'.fresh).fails_iff.2
    ⟨g, u, o, mem_entriesOf.2 ⟨hg, hgstencil, hmem⟩, ho, .inr (.inr hover)⟩

end Extents

section Runs

variable {d : Description} {p : Program} {f : FunctionDesc} {i k n : Nat}
  {results operands params names : List String} {body : List BodyOpDesc}

/-- A description that is accepted is accepted as well with the unroll by one, of the rank of
the operands, for an apply whose return has none.  Unless the apply belongs to a stencil program
and reads some operand at the edge only, a run comes to the same, whatever its goal. -/
theorem unit_unroll_neutral
    (h : d.elaborate = .ok p)
    (hf : d.functions[i]? = some f)
    (hop : f.ops[k]? = some (.apply results operands params body))
    (hrank : ∀ name ∈ operands, f.RankOf name n)
    (hlast : body.getLast? = some (.ret names none)) :
    ∃ x, (d.withUnit i k n).elaborate = .ok (p.withUnit x n) ∧
      (¬ (f.stencil = true ∧ (OpDesc.apply results operands params body).ReadsAtEdge) →
        ∀ terminal, Compilation.run { program := p.withUnit x n } terminal =
          (Compilation.run { program := p } terminal).withUnit x n) ∧
      (f.stencil = true ∧ (OpDesc.apply results operands params body).ReadsAtEdge →
        ∃ fault : Diagnostic, fault.code = some .overflow ∧ ∀ terminal,
          (Compilation.run { program := p.withUnit x n } terminal).failing =
            some .extentAnalysis ∧
          (Compilation.run { program := p.withUnit x n } terminal).compilation.diagnostics =
            [fault]) := by
  obtain ⟨x, h'⟩ := elaborate_withUnit h hf hop hrank hlast
  have hplace : (d.opsOf i)[k]? = some (.apply results operands params body) := by
    rw [opsOf, hf]
    exact hop
  have hstencil : d.stencilOf i = f.stencil := by
    rw [stencilOf, hf]
    rfl
  refine ⟨x, h', fun hinside terminal => ?_, fun hexcept => ?_⟩
  · exact Compilation.run_withUnit x n p terminal
      (extents_withUnit h h' hplace fun hs hedge => hinside ⟨hstencil ▸ hs, hedge⟩)
  · obtain ⟨hs, hedge⟩ := hexcept
    obtain ⟨fault, herror⟩ :=
      extents_at_edge h' hplace (OpDesc.unroll?_withUnit n hlast) (hstencil ▸ hs) hedge
    refine ⟨fault, overflow_of_extents (sound_of_elaborate h').coherent
      (scoped_of_elaborate h') herror, fun terminal => ?_⟩
    obtain ⟨hfailing, hcompilation⟩ := Compilation.run_of_extents_eq_error herror terminal
    exact ⟨hfailing, by rw [hcompilation]⟩

end Runs

/-- A step that reads one cell, which lies away by the offset. -/
def reading (offset : Point) : Description :=
  { functions :=
      [{ name := "read"
         stencil := true
         args :=
           [{ name := "in", element := .f64, rank := 1 },
             { name := "out", element := .f64, rank := 1 }]
         ops :=
           [.load "t" "in",
             .apply ["u"] ["t"] ["a"] [.access "r" "a" offset, .ret ["r"] none],
             .store "u" "out" [.ofInt64 0] [.ofInt64 4]] }] }

theorem unit_unroll_neutral_reading :
    ∃ p x, (reading [.one]).elaborate = .ok p ∧
      ((reading [.one]).withUnit 0 1 1).elaborate = .ok (p.withUnit x 1) ∧
      Compilation.run { program := p.withUnit x 1 } .verification =
        (Compilation.run { program := p } .verification).withUnit x 1 ∧
      (Compilation.run { program := p } .verification).failing = none := by
  have hinside : ¬ (OpDesc.apply ["u"] ["t"] ["a"]
      [.access "r" "a" [.one], .ret ["r"] none]).ReadsAtEdge := by
    rintro ⟨name, d, ⟨offset, hoffset⟩, hleast⟩
    have hmin := hleast offset hoffset
    obtain ⟨result, param, hmem, _⟩ := hoffset
    obtain ⟨-, -, rfl⟩ : result = "r" ∧ param = "a" ∧ offset = [.one] := by simpa using hmem
    rcases d with _ | d
    · cases hmin
    · cases hmin
  have h : (reading [.one]).elaborate =
      .ok (elaborateFunctions {} (reading [.one]).functions).1 := by
    rfl
  obtain ⟨x, h', hneutral, _⟩ := unit_unroll_neutral (i := 0) (k := 1) (n := 1) h rfl rfl
    (fun name hname => by
      obtain rfl := List.mem_singleton.1 hname
      exact .load List.mem_cons_self (.arg List.mem_cons_self rfl rfl)) rfl
  refine ⟨_, x, h, h', hneutral (fun hedge => hinside hedge.2) _, ?_⟩
  simp only [Compilation.run, Pass.required_verification]
  decide

/-- At the edge a run succeeds without an unroll, and fails with the unroll by one. -/
theorem unit_unroll_fails_at_edge :
    ∃ p p', (reading [.ofInt64 (-9223372036854775808)]).elaborate = .ok p ∧
      ((reading [.ofInt64 (-9223372036854775808)]).withUnit 0 1 1).elaborate = .ok p' ∧
      (Compilation.run { program := p } .verification).failing = none ∧
      (Compilation.run { program := p' } .verification).failing = some .extentAnalysis := by
  refine ⟨_, _, rfl, rfl, ?_⟩
  simp only [Compilation.run, Pass.required_verification]
  decide

end Description
end StencilShapes
