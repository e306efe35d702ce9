import StencilShapes.Proofs.Description.Blocks
import StencilShapes.Compilation.Basic

/-!
# What kinds of values operations read

A load is meant to read a field, a store to write a temp into a field, an access to read an
argument of its body, and arithmetic and returns to read scalars.  Names are resolved without
looking at types, and only accesses are checked.  So a function may load a temp and may store
a field into a temp, and a body may compute with an argument that no access has read.

What kind of value is read follows from where the value comes from: in a function it is a
field or a temp and never a scalar, and in a body it is a scalar unless it has come from an
argument by left sides of arithmetic alone.

**Results.**
* `Program.scalar_iff_of_results`: the types of what a body defines.
* `Program.KindsByOrigin.respectsKinds_iff`: when operands have the kinds that are meant.
* `Description.accesses_of_elaborate`: accesses read arguments of their own body.
* `Description.kinds_of_elaborate`: the kinds of operands in a loaded program.
* `Description.kinds_ignored`: a description whose operands have other kinds.
-/

namespace StencilShapes
namespace Program

/-- Each access has one operand, which is an argument of the body in which the access
stands. -/
def AccessesReadArgs (p : Program) : Prop :=
  ∀ u o offset, p.op? u = some o → o.kind = .access offset →
    ∃ v a oa body, o.operands = [v] ∧ o.parent = some a ∧ p.op? a = some oa ∧
      oa.kind.body? = some body ∧ v ∈ body.args

/-- Operands have the kinds that are meant. -/
structure RespectsKinds (p : Program) : Prop where
  load : ∀ u o b, p.op? u = some o → o.kind = .load b →
    ∃ v e r, o.operands = [v] ∧ p.typeOf v = .field e r
  store : ∀ u o b, p.op? u = some o → o.kind = .store b →
    ∃ v w e s e' r, o.operands = [v, w] ∧ p.typeOf v = .temp e s ∧ p.typeOf w = .field e' r
  access : p.AccessesReadArgs
  /-- Arithmetic and returns read scalars. -/
  inner : ∀ u o, p.op? u = some o → o.kind.isShaped = false → (∀ q, o.kind ≠ .access q) →
    ∀ v ∈ o.operands, ∃ e, p.typeOf v = .scalar e

/-- An argument of a function, which is a field. -/
def IsField (p : Program) (v : ValueId) : Prop :=
  (∃ j, p.originOf v = some (.arg none j)) ∧ ∃ e r, p.typeOf v = .field e r

/-- A result of a load or an apply, which is a temp without a shape. -/
def IsTempResult (p : Program) (v : ValueId) : Prop :=
  (∃ u j o, p.originOf v = some (.result u j) ∧ p.op? u = some o ∧ o.kind.isInferable = true) ∧
    ∃ e, p.typeOf v = .temp e none

/-- A whole grid in a body: an argument, or the result of arithmetic with a grid on the left
side. -/
inductive IsGrid (p : Program) : ValueId → Prop
  | arg {v : ValueId} {a : OpId} {j : Nat} :
      p.originOf v = some (.arg (some a) j) →
      IsGrid p v
  | arith {v w : ValueId} {u : OpId} {j : Nat} {o : Operation} {operator : Operator} :
      p.originOf v = some (.result u j) →
      p.op? u = some o →
      o.kind = .arith operator →
      o.operands.head? = some w →
      IsGrid p w →
      IsGrid p v

/-- The kinds of operands, by where these come from. -/
structure KindsByOrigin (p : Program) : Prop where
  load : ∀ u o b, p.op? u = some o → o.kind = .load b →
    ∃ v, o.operands = [v] ∧ (p.IsField v ∨ p.IsTempResult v)
  store : ∀ u o b, p.op? u = some o → o.kind = .store b →
    ∃ v w, o.operands = [v, w] ∧ (p.IsField v ∨ p.IsTempResult v) ∧
      (p.IsField w ∨ p.IsTempResult w)
  access : p.AccessesReadArgs
  inner : ∀ u o, p.op? u = some o → o.kind.isShaped = false → ∀ v ∈ o.operands,
    ((∃ e, p.typeOf v = .scalar e) ↔ ¬ p.IsGrid v)

/-- Loads read arguments, stores write results into arguments, and no body computes with a
whole grid or returns one. -/
structure OriginsFit (p : Program) : Prop where
  load : ∀ u o b, p.op? u = some o → o.kind = .load b → ∀ v ∈ o.operands, p.IsField v
  store : ∀ u o b, p.op? u = some o → o.kind = .store b →
    ∃ v w, o.operands = [v, w] ∧ p.IsTempResult v ∧ p.IsField w
  inner : ∀ u o, p.op? u = some o → o.kind.isShaped = false → (∀ q, o.kind ≠ .access q) →
    ∀ v ∈ o.operands, ¬ p.IsGrid v

section Values

variable {p : Program} {v : ValueId}

/-- A value that has a rank is a field or a temp. -/
theorem HasRank.isField_or {r : Nat} (h : p.HasRank v r) (hc : p.Coherent) (hs : p.Scoped) :
    p.IsField v ∨ p.IsTempResult v := by
  cases h with
  | arg horigin hty => exact Or.inl ⟨⟨_, horigin⟩, _, _, hty⟩
  | result horigin ho hk _ _ =>
      obtain ⟨o', ho', hres⟩ := hc.result.1 horigin
      obtain rfl := Option.some.inj (ho.symm.trans ho')
      exact Or.inr ⟨⟨_, _, _, horigin, ho, hk⟩, hs.results ho hk v (List.mem_of_getElem? hres)⟩

theorem not_scalar_of_isField_or (h : p.IsField v ∨ p.IsTempResult v) (e : Element) :
    p.typeOf v ≠ .scalar e := by
  rcases h with ⟨_, _, _, hty⟩ | ⟨_, _, hty⟩
  · rw [hty]
    exact Ty.noConfusion
  · rw [hty]
    exact Ty.noConfusion

/-- An argument of a body stands for a field or a temp, so it is no scalar. -/
theorem scalar_iff_of_args {a : OpId} {o : Operation} {body : Block}
    (hc : p.Coherent) (hs : p.Scoped)
    (ho : p.op? a = some o)
    (hbody : o.kind.body? = some body)
    (hv : v ∈ body.args) :
    (∃ e, p.typeOf v = .scalar e) ↔ ¬ p.IsGrid v := by
  obtain ⟨j, hj⟩ := List.getElem?_of_mem hv
  have hgrid : p.IsGrid v := .arg (hc.arg.2 ⟨o, body, ho, hbody, hj⟩)
  refine iff_of_false ?_ (not_not_intro hgrid)
  rintro ⟨e, he⟩
  have htypes := congrArg (·[j]?) ((hc.arg_types ho hbody).trans (hc.declared ho))
  simp only [List.getElem?_map, hj, Option.map_some] at htypes
  obtain ⟨w, hw, hty⟩ := Option.map_eq_some_iff.1 htypes.symm
  obtain ⟨r, hr⟩ := hs.ranked ho (OpKind.isShaped_of_body? hbody)
  have hrank := hr.operands w (List.mem_of_getElem? hw)
  exact not_scalar_of_isField_or (hrank.isField_or hc hs) e (hty.trans he)

/-- A result is a scalar, unless it is that of arithmetic with a grid on the left side. -/
theorem scalar_iff_of_results {a x : OpId} {env : Environment} {op : BodyOpDesc}
    {o : Operation}
    (hc : p.Coherent)
    (h : p.RealizesInner a env op o)
    (ho : p.op? x = some o)
    (hv : v ∈ o.results)
    (hoperands : ∀ w ∈ o.operands, ((∃ e, p.typeOf w = .scalar e) ↔ ¬ p.IsGrid w)) :
    (∃ e, p.typeOf v = .scalar e) ↔ ¬ p.IsGrid v := by
  obtain ⟨j, hj⟩ := hc.mem_results ho hv
  have htypes := h.results
  have hmem : p.typeOf v ∈ o.results.map p.typeOf := List.mem_map_of_mem hv
  have hreads := congrArg List.length h.operands
  rw [List.length_map, List.length_map] at hreads
  cases op with
  | access result param offset =>
      obtain ⟨w, hw⟩ := List.length_eq_one_iff.1 hreads
      rw [htypes, hw] at hmem
      refine iff_of_true ⟨_, List.mem_singleton.1 hmem⟩ ?_
      rintro (horigin | ⟨horigin, ho', hk, _, _⟩)
      · rw [hj] at horigin
        cases horigin
      · rw [hj] at horigin
        cases horigin
        obtain rfl := Option.some.inj (ho.symm.trans ho')
        rw [h.kind] at hk
        cases hk
  | arith result operator lhs rhs =>
      obtain ⟨w, w', hw⟩ := List.length_eq_two.1 hreads
      rw [htypes, hw] at hmem
      have hty : p.typeOf v = p.typeOf w := List.mem_singleton.1 hmem
      rw [hty, hoperands w (by simp [hw]), not_iff_not]
      constructor
      · exact .arith hj ho h.kind (by rw [hw]; rfl)
      · rintro (horigin | ⟨horigin, ho', _, hhead, hgrid⟩)
        · rw [hj] at horigin
          cases horigin
        · rw [hj] at horigin
          cases horigin
          obtain rfl := Option.some.inj (ho.symm.trans ho')
          rw [hw] at hhead
          obtain rfl := Option.some.inj hhead
          exact hgrid
  | ret operands unroll =>
      rw [htypes] at hmem
      cases hmem

/-- A load has one operand, a store two. -/
theorem RealizesOp.length_operands {env : Environment} {op : OpDesc} {o : Operation}
    (h : p.RealizesOp env op o) :
    (∀ b, o.kind = .load b → o.operands.length = 1) ∧
      ∀ b, o.kind = .store b → o.operands.length = 2 := by
  have hlength := congrArg List.length h.operands
  rw [List.length_map, List.length_map] at hlength
  have hcontents := h.contents
  cases op with
  | load result field =>
      rw [hcontents.1]
      exact ⟨fun _ _ => hlength, nofun⟩
  | apply results operands params body =>
      obtain ⟨_, hkind, _⟩ := hcontents
      rw [hkind]
      exact ⟨nofun, nofun⟩
  | store value field lower upper =>
      rw [show o.kind = _ from hcontents]
      exact ⟨nofun, fun _ _ => hlength⟩

theorem IsField.of_type {e : Element} {r : Nat}
    (h : p.IsField v ∨ p.IsTempResult v)
    (hty : p.typeOf v = .field e r) :
    p.IsField v := by
  refine h.resolve_right ?_
  rintro ⟨_, _, hty'⟩
  rw [hty] at hty'
  cases hty'

theorem IsTempResult.of_type {e : Element} {s : Option Point}
    (h : p.IsField v ∨ p.IsTempResult v)
    (hty : p.typeOf v = .temp e s) :
    p.IsTempResult v := by
  refine h.resolve_left ?_
  rintro ⟨_, _, _, hty'⟩
  rw [hty] at hty'
  cases hty'

/-- Operands have the kinds that are meant just if they come from where these are found. -/
theorem KindsByOrigin.respectsKinds_iff (h : p.KindsByOrigin) :
    p.RespectsKinds ↔ p.OriginsFit := by
  constructor
  · intro hkinds
    refine ⟨fun u o b ho hk v hv => ?_, fun u o b ho hk => ?_, fun u o ho hk haccess v hv => ?_⟩
    · obtain ⟨w, e, r, hw, hty⟩ := hkinds.load u o b ho hk
      obtain ⟨w', hw', hor⟩ := h.load u o b ho hk
      obtain rfl : v = w := List.mem_singleton.1 (hw ▸ hv)
      obtain rfl : v = w' := List.mem_singleton.1 (hw' ▸ hv)
      exact .of_type hor hty
    · obtain ⟨v, w, e, s, e', r, hvw, htyv, htyw⟩ := hkinds.store u o b ho hk
      obtain ⟨v', w', hvw', horv, horw⟩ := h.store u o b ho hk
      rw [hvw] at hvw'
      cases hvw'
      exact ⟨v, w, hvw, .of_type horv htyv, .of_type horw htyw⟩
    · exact (h.inner u o ho hk v hv).1 (hkinds.inner u o ho hk haccess v hv)
  · intro hfit
    refine ⟨fun u o b ho hk => ?_, fun u o b ho hk => ?_, h.access,
      fun u o ho hk haccess v hv => ?_⟩
    · obtain ⟨v, hv, _⟩ := h.load u o b ho hk
      obtain ⟨_, e, r, hty⟩ := hfit.load u o b ho hk v (hv ▸ List.mem_singleton_self v)
      exact ⟨v, e, r, hv, hty⟩
    · obtain ⟨v, w, hvw, ⟨_, e, htyv⟩, _, e', r, htyw⟩ := hfit.store u o b ho hk
      exact ⟨v, w, e, none, e', r, hvw, htyv, htyw⟩
    · exact (h.inner u o ho hk v hv).2 (hfit.inner u o ho hk haccess v hv)

end Values

end Program

namespace Description

open Program

variable {d : Description} {p : Program}

/-- What an operation of a body has been described by. -/
theorem exists_bodyOpDesc {a x : OpId} {o ox : Operation} {block : Block}
    (h : d.elaborate = .ok p)
    (ho : p.op? a = some o)
    (hblock : o.kind.body? = some block)
    (hx : x ∈ block.ops)
    (hox : p.op? x = some ox) :
    ∃ params rank op more, block.args.length = params.length ∧
      BodyOpDesc.Fits params rank op ∧
      p.RealizesInner a (params.zip block.args ++ more) op ox := by
  obtain ⟨f, hf, results, operands, params, body, hop, hlength, hbody⟩ :=
    exists_applyDesc h ho hblock
  obtain ⟨rank, _, hwell⟩ := ((wellFormed_of_elaborate h f hf).ops _ hop).body
  obtain ⟨op, hmem, more, o', ho', hinner⟩ := hbody.exists_op x hx
  obtain rfl := Option.some.inj (hox.symm.trans ho')
  exact ⟨params, _, op, more, hlength, hwell.fits op hmem, hinner⟩

/-- A parameter stands for an argument of the body, whatever else is known. -/
theorem mem_zip_of_meaning_param {params : List String} {args : List ValueId} {more : Environment}
    {param : String} {v : ValueId}
    (hlength : args.length = params.length)
    (hparam : param ∈ params)
    (hv : Environment.meaning (params.zip args ++ more) param = some v) :
    (param, v) ∈ params.zip args := by
  have hnames : (params.zip args).map Prod.fst = params := List.map_fst_zip hlength.ge
  have hknown : (List.lookup param (params.zip args)).isSome = true := by
    rw [← hnames] at hparam
    obtain ⟨b, hb, rfl⟩ := List.mem_map.1 hparam
    exact List.lookup_isSome_iff.2 ⟨b, hb, beq_self_eq_true _⟩
  obtain ⟨w, hw⟩ := Option.isSome_iff_exists.1 hknown
  rw [Environment.meaning, List.lookup_append, hw, Option.some_or] at hv
  obtain rfl : w = v := Option.some.inj hv
  obtain ⟨_, _, hzip, _⟩ := List.lookup_eq_some_iff.1 hw
  exact hzip ▸ List.mem_append_right _ List.mem_cons_self

/-- Accesses read arguments of their own body. -/
theorem accesses_of_elaborate (h : d.elaborate = .ok p) : p.AccessesReadArgs := by
  intro u o offset ho hk
  obtain ⟨a, oa, block, hoa, hblock, hu⟩ := exists_block_of_inner h ho (by rw [hk]; rfl)
  obtain ⟨params, _, op, more, hlength, hfits, hinner⟩ := exists_bodyOpDesc h hoa hblock hu ho
  have hkind := hinner.kind.symm.trans hk
  have hoperands := hinner.operands
  cases op with
  | access result param offset' =>
      obtain ⟨v, hv⟩ := List.length_eq_one_iff.1 (show o.operands.length = 1 by
        simpa [BodyOpDesc.reads] using congrArg List.length hoperands)
      rw [hv] at hoperands
      have hmeaning := (List.cons.inj hoperands).1.symm
      exact ⟨v, a, oa, block, hv, hinner.parent, hoa, hblock,
        (List.of_mem_zip (mem_zip_of_meaning_param hlength (hfits.param param rfl) hmeaning)).2⟩
  | arith result operator lhs rhs => cases hkind
  | ret operands unroll => cases hkind

/-- In a body, a value is a scalar if it is no grid.  The induction is on the place of the
operation that reads or defines it: an operand is an argument or comes from further up. -/
theorem scalars_of_elaborate (h : d.elaborate = .ok p) (a : OpId) :
    ∀ (k : Nat) x o, (p.opsIn (.body a))[k]? = some x → p.op? x = some o →
      ∀ v, v ∈ o.operands ∨ v ∈ o.results →
        ((∃ e, p.typeOf v = .scalar e) ↔ ¬ p.IsGrid v) := by
  have hc := coherent_of_elaborate h
  intro k
  induction k using Nat.strong_induction_on with
  | _ k ih =>
      intro x o hx ho
      obtain ⟨oa, block, hoa, hblock, hmem⟩ := mem_bodyOps.1 (List.mem_of_getElem? hx)
      have hoperands : ∀ w ∈ o.operands, ((∃ e, p.typeOf w = .scalar e) ↔ ¬ p.IsGrid w) := by
        intro w hw
        rcases operand_of_elaborate h (.body a) hx ho hw with
          harg | ⟨j, hj, y, oy, hy, hoy, hres⟩
        · obtain ⟨ob, block', hob, hblock', harg⟩ := mem_argsIn_body.1 harg
          exact scalar_iff_of_args hc (scoped_of_elaborate h) hob hblock' harg
        · exact ih j hj y oy hy hoy w (Or.inr hres)
      rintro v (hv | hv)
      · exact hoperands v hv
      · obtain ⟨_, _, _, _, _, _, hinner⟩ := exists_bodyOpDesc h hoa hblock hmem ho
        exact scalar_iff_of_results hc hinner ho hv hoperands

/-- In a function, what is read is a field or a temp. -/
theorem isField_or_of_elaborate {u : OpId} {o : Operation} (h : d.elaborate = .ok p)
    (ho : p.op? u = some o)
    (hk : o.kind.isShaped = true) :
    ∀ v ∈ o.operands, p.IsField v ∨ p.IsTempResult v := by
  intro v hv
  obtain ⟨r, hr⟩ := (scoped_of_elaborate h).ranked ho hk
  exact (hr.operands v hv).isField_or (coherent_of_elaborate h) (scoped_of_elaborate h)

theorem kindsByOrigin_of_elaborate (h : d.elaborate = .ok p) : p.KindsByOrigin where
  load u o b ho hk := by
    have hshaped : o.kind.isShaped = true := by rw [hk]; rfl
    obtain ⟨_, _, _, _, _, hop⟩ := exists_opDesc h ho hshaped
    obtain ⟨v, hv⟩ := List.length_eq_one_iff.1 (hop.length_operands.1 b hk)
    exact ⟨v, hv, isField_or_of_elaborate h ho hshaped v (hv ▸ List.mem_singleton_self v)⟩
  store u o b ho hk := by
    have hshaped : o.kind.isShaped = true := by rw [hk]; rfl
    obtain ⟨_, _, _, _, _, hop⟩ := exists_opDesc h ho hshaped
    obtain ⟨v, w, hvw⟩ := List.length_eq_two.1 (hop.length_operands.2 b hk)
    have hall := isField_or_of_elaborate h ho hshaped
    exact ⟨v, w, hvw, hall v (by simp [hvw]), hall w (by simp [hvw])⟩
  access := accesses_of_elaborate h
  inner u o ho hk v hv := by
    obtain ⟨a, oa, block, hoa, hblock, hu⟩ := exists_block_of_inner h ho hk
    obtain ⟨k, hk⟩ := List.getElem?_of_mem (mem_bodyOps.2 ⟨oa, block, hoa, hblock, hu⟩)
    exact scalars_of_elaborate h a k u o hk ho v (Or.inl hv)

/-- The operands of a loaded program have kinds by their origin, so they have those that are
meant just if the origins fit. -/
theorem kinds_of_elaborate (h : d.elaborate = .ok p) :
    p.KindsByOrigin ∧ (p.RespectsKinds ↔ p.OriginsFit) :=
  have hkinds := kindsByOrigin_of_elaborate h
  ⟨hkinds, hkinds.respectsKinds_iff⟩

/-- The kinds of operands in the smoothing of a field. -/
theorem kinds_of_elaborate_smoothing :
    smoothing.elaborate = .ok Program.smoothing ∧ Program.smoothing.KindsByOrigin ∧
      (Program.smoothing.RespectsKinds ↔ Program.smoothing.OriginsFit) :=
  ⟨Program.elaborate_smoothing, kinds_of_elaborate Program.elaborate_smoothing⟩

/-- A load of a temp, a sum of whole grids, and a store of a field into a temp. -/
def misused : Description :=
  { functions :=
      [{ name := "misused"
         stencil := true
         args :=
           [{ name := "in", element := .f64, rank := 1 },
             { name := "out", element := .f64, rank := 1 }]
         ops :=
           [.load "t" "in",
             .load "u" "t",
             .apply ["r"] ["u"] ["a"] [.arith "s" .add "a" "a", .ret ["s"] none],
             .store "in" "t" [.ofInt64 0] [.ofInt64 9],
             .store "r" "out" [.ofInt64 0] [.ofInt64 4]] }] }

/-- The program of this description. -/
def misusedProgram : Program :=
  (elaborateFunctions {} misused.functions).1

/-- The description is loaded, and all passes succeed on what comes out. -/
theorem kinds_ignored :
    misused.elaborate = .ok misusedProgram ∧
      (Compilation.run { program := misusedProgram } .verification).failing = none ∧
      (∃ o, misusedProgram.op? ⟨1⟩ = some o ∧ o.kind = .load none ∧
        o.operands.map misusedProgram.typeOf = [.temp .f64 none]) ∧
      (∃ o, misusedProgram.op? ⟨3⟩ = some o ∧ o.kind = .arith .add ∧
        o.operands.map misusedProgram.typeOf = [.temp .f64 none, .temp .f64 none]) ∧
      (∃ o b, misusedProgram.op? ⟨5⟩ = some o ∧ o.kind = .store b ∧
        o.operands.map misusedProgram.typeOf = [.field .f64 1, .temp .f64 none]) ∧
      ¬ misusedProgram.RespectsKinds := by
  have hrun : (Compilation.run { program := misusedProgram } .verification).failing = none := by
    rw [Compilation.run, Pass.required_verification]
    decide
  refine ⟨by rfl, hrun, ⟨_, rfl, rfl, rfl⟩, ⟨_, rfl, rfl, rfl⟩, ⟨_, _, rfl, rfl, rfl⟩, ?_⟩
  intro hkinds
  obtain ⟨v, e, r, hv, hty⟩ := hkinds.load ⟨1⟩ _ none rfl rfl
  cases hv
  cases hty

end Description
end StencilShapes
