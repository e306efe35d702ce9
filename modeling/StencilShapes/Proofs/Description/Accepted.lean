import StencilShapes.Proofs.Description.Body

/-!
# Elaboration accepts what is well-formed

Elaboration builds a function in one pass, in which it looks up names, compares ranks and
counts what a body returns.  Each step goes on exactly when the operation is well-formed
and reads known names, and then the names and ranks that it knows are those of the
description.  What is built has no influence on this: a function is accepted behind any
program or behind none.

**Results.**
* `FunctionState.Tracks.of_addOp`, `FunctionState.Tracks.exists_addOp`: one operation of
  a function.
* `FunctionDesc.exists_elaborate_iff`: a function is built when it is well-formed.
* `rejections_of_elaborateFunctions`: the diagnostics are those of the other functions.
* `Description.accepts_iff_wellFormed`: descriptions are accepted when all functions are
  well-formed, and else there is one diagnostic for each that is not.
-/

namespace StencilShapes

open Program

/-- A function under construction, whose names have the ranks of the description. -/
structure FunctionState.Tracks (f : FunctionDesc) (known : List String) (s : FunctionState) :
    Prop where
  scope : s.scope.Knows known
  ranks : ∀ b ∈ s.scope.bindings, ∃ r, b.2.rank = some r ∧ f.RankOf b.1 r

namespace FunctionState.Tracks

variable {f : FunctionDesc} {known : List String} {s s' : FunctionState}

/-- The rank that is known of a name is its rank. -/
theorem exists_rank {name : String} {n : Named}
    (h : s.Tracks f known)
    (hn : s.scope.get name = .ok n) :
    ∃ r, n.rank = some r ∧ f.RankOf name r :=
  h.ranks (name, n) (Scope.mem_of_get hn)

/-- Operands whose ranks have been compared have a common rank. -/
theorem commonRank {operands : List String} {ns : List Named} {rank : Option Nat}
    (h : s.Tracks f known)
    (hns : s.scope.getAll operands = .ok ns)
    (hrank : operandRank none (operands.zip ns) = .ok rank) :
    f.CommonRank operands rank := by
  have hranks : ∀ x ∈ operands.zip ns, ∃ r, x.2.rank = some r ∧ f.RankOf x.1 r :=
    fun x hx => h.exists_rank (Scope.get_of_mem_zip hns hx)
  obtain ⟨_, hcommon, hnil⟩ :=
    operandRank_eq_ok hrank fun x hx => (hranks x hx).imp fun _ => And.left
  constructor
  · intro x hx
    obtain ⟨i, hi⟩ := List.getElem?_of_mem hx
    have hlt : i < ns.length := by
      rw [Scope.length_of_getAll hns]
      exact (List.getElem?_eq_some_iff.1 hi).1
    have hmem : (x, ns[i]) ∈ operands.zip ns :=
      List.mem_of_getElem? (List.getElem?_zip_eq_some.2 ⟨hi, List.getElem?_eq_getElem hlt⟩)
    obtain ⟨r, hr, hx⟩ := hranks _ hmem
    exact ⟨r, (hcommon _ hmem).symm.trans hr, hx⟩
  · rintro rfl
    exact hnil rfl

/-- An open apply has one argument for each operand. -/
theorem length_openApply_args {operands : List String} {ns : List Named}
    (hns : s.scope.getAll operands = .ok ns) :
    (s.program.openApply (ns.map Named.value)).2.2.length = operands.length := by
  rw [openApply_args, List.length_map, List.length_range, List.length_map,
    Scope.length_of_getAll hns]

/-- An apply that has just been opened knows its parameters. -/
theorem tracks_openApply {operands params : List String} {ns : List Named} {rank : Option Nat}
    {scope : Scope ValueId}
    (hparams : params.length = operands.length)
    (hns : s.scope.getAll operands = .ok ns)
    (hcommon : f.CommonRank operands rank)
    (hscope : Scope.defineAll {} (params.zip (s.program.openApply (ns.map Named.value)).2.2) =
      .ok scope) :
    BodyState.Tracks (s.program.openApply (ns.map Named.value)).2.1
      (s.program.openApply (ns.map Named.value)).2.2 params rank params
      { program := (s.program.openApply (ns.map Named.value)).1, scope, rank } := by
  have hlength := length_openApply_args (s := s) hns
  have hopen := (s.program.op?_openApply (ns.map Named.value) ⟨s.program.ops.size⟩).trans
    (if_pos rfl)
  constructor
  case scope =>
    have hknows := Scope.Knows.empty.defineAll hscope
    rwa [List.nil_append, List.map_fst_zip (by omega)] at hknows
  case params_known => exact fun x hx => hx
  case named =>
    intro b hb
    rcases Scope.mem_of_defineAll hscope hb with hb | hb
    · exact iff_of_true (List.of_mem_zip hb).2 (List.of_mem_zip hb).1
    · cases hb
  case older =>
    intro v hv
    obtain ⟨j, hj⟩ := List.getElem?_of_mem hv
    obtain ⟨hlt, hindex⟩ := (getElem?_openApply_args s.program _).1 hj
    rw [← originOf_isSome, originOf_openApply, if_neg (by omega), if_pos (by omega)]
    rfl
  case ranked =>
    rintro rfl
    have hnil : operands = [] := List.eq_nil_iff_forall_not_mem.2 fun x hx => by
      obtain ⟨r, hr, _⟩ := hcommon.of_mem x hx
      cases hr
    exact List.eq_nil_of_length_eq_zero (by rw [hlength, hnil]; rfl)
  case rank => rfl
  case opened =>
    rw [openApply_op]
    exact ⟨_, _, hopen, rfl⟩
  case unreturned =>
    intro t ht
    rw [lastIn, openApply_op, hopen] at ht
    cases ht

/-- The results of an apply have the given names. -/
theorem map_fst_results {results : List String} {values : List ValueId} (rank : Option Nat)
    (h : values.length = results.length) :
    (results.zip (values.map fun v => ({ value := v, rank } : Named))).map Prod.fst = results :=
  List.map_fst_zip (Nat.le_of_eq (by rw [List.length_map, h]))

/-- An apply that can be added is well-formed, and its results have the rank of its operands. -/
theorem of_addApply {results operands params : List String} {body : List BodyOpDesc}
    (h : s.Tracks f known)
    (hop : OpDesc.apply results operands params body ∈ f.ops)
    (hs : s.addApply results operands params body = .ok s') :
    (∀ name ∈ operands, name ∈ known) ∧ f.ApplyWellFormed results operands params body ∧
      s'.Tracks f (known ++ results) := by
  rcases FunctionState.addApply_eq_ok.1 hs with
    ⟨hparams, ns, rank, hns, hrank, scope, b, p, values, scope', hscope, hb, hclose, hcount,
      hscope', rfl⟩
  have hcommon := h.commonRank hns hrank
  have hbody := (tracks_openApply hparams hns hcommon hscope).exists_close_iff.1
    ⟨b, p, values, hb, hclose, hcount⟩
  refine ⟨h.scope.exists_getAll_iff.1 ⟨ns, hns⟩, ⟨hparams, rank, hcommon, hbody⟩, ?_, ?_⟩
  · have hknows := h.scope.defineAll hscope'
    rwa [map_fst_results b.rank hcount] at hknows
  · intro c hc
    rcases Scope.mem_of_defineAll hscope' hc with hc | hc
    · obtain ⟨hname, hvalue⟩ := List.of_mem_zip hc
      obtain ⟨v, _, hv⟩ := List.mem_map.1 hvalue
      -- An apply without operands has no results.
      have hne : operands ≠ [] := by
        rintro rfl
        obtain rfl := List.eq_nil_of_length_eq_zero hparams
        obtain rfl := List.eq_nil_of_length_eq_zero hbody.eq_zero_of_nil
        cases hname
      obtain ⟨x, hx⟩ := List.exists_mem_of_ne_nil _ hne
      obtain ⟨r, rfl, _⟩ := hcommon.of_mem x hx
      refine ⟨r, ?_, .apply hop hne (fun y hy => ?_) hname⟩
      · rw [← hv]
        exact BodyState.rank_of_addOps hb rfl
      · obtain ⟨r', hr', hy⟩ := hcommon.of_mem y hy
        cases hr'
        exact hy
    · exact h.ranks c hc

/-- A well-formed apply over known names can be added. -/
theorem exists_addApply {results operands params : List String} {body : List BodyOpDesc}
    (h : s.Tracks f known)
    (horder : InOrder OpDesc.reads OpDesc.results (f.args.map FieldDesc.name) f.ops)
    (hreads : ∀ name ∈ operands, name ∈ known)
    (hnew : (known ++ results).Nodup)
    (hwell : f.ApplyWellFormed results operands params body) :
    ∃ s', s.addApply results operands params body = .ok s' := by
  obtain ⟨ns, hns⟩ := h.scope.exists_getAll_iff.2 hreads
  obtain ⟨rank, hcommon, hbody⟩ := hwell.body
  -- The operands have the ranks of the description, so that they can be compared.
  have hranks : ∀ x ∈ operands.zip ns, ∃ r, rank = some r ∧ x.2.rank = some r := fun x hx => by
    obtain ⟨r, hr, hx'⟩ := hcommon.of_mem x.1 (List.of_mem_zip hx).1
    obtain ⟨r', hn, hx''⟩ := h.exists_rank (Scope.get_of_mem_zip hns hx)
    exact ⟨r, hr, by rw [hn, hx''.unique horder hx']⟩
  obtain ⟨rank', hrank'⟩ := exists_operandRank hranks none (by rintro _ ⟨⟩)
  obtain rfl : rank' = rank := (h.commonRank hns hrank').unique horder hcommon
  obtain ⟨scope, hscope⟩ : ∃ scope,
      Scope.defineAll {} (params.zip (s.program.openApply (ns.map Named.value)).2.2) =
        .ok scope := by
    refine Scope.Knows.empty.exists_defineAll ?_
    have hlength := length_openApply_args (s := s) hns
    rw [List.nil_append, List.map_fst_zip (Nat.le_of_eq (hwell.paramCount.trans hlength.symm))]
    exact hbody.inOrder.distinct.of_append_left
  obtain ⟨b, p, values, hb, hclose, hcount⟩ :=
    (tracks_openApply hwell.paramCount hns hcommon hscope).exists_close_iff.2 hbody
  obtain ⟨scope', hscope'⟩ : ∃ scope', s.scope.defineAll
      (results.zip (values.map fun v => ({ value := v, rank := b.rank } : Named))) =
        .ok scope' := by
    refine h.scope.exists_defineAll ?_
    rwa [map_fst_results b.rank hcount]
  exact ⟨_, FunctionState.addApply_eq_ok.2 ⟨hwell.paramCount, ns, rank', hns, hrank', scope, b, p,
    values, scope', hscope, hb, hclose, hcount, hscope', rfl⟩⟩

/-- What it takes to add an operation, and what comes of it. -/
theorem of_addOp {op : OpDesc}
    (h : s.Tracks f known)
    (hop : op ∈ f.ops)
    (hs : s.addOp op = .ok s') :
    (∀ name ∈ op.reads, name ∈ known) ∧ f.OpWellFormed op ∧ s'.Tracks f (known ++ op.results) := by
  cases op with
  | load result field =>
      rcases FunctionState.addLoad_eq_ok.1 hs with ⟨n, scope, hn, hscope, rfl⟩
      refine ⟨List.forall_mem_singleton.2 (h.scope.exists_get_iff.1 ⟨n, hn⟩), trivial,
        h.scope.define hscope, fun b hb => ?_⟩
      rcases Scope.mem_of_define hscope hb with rfl | hb
      · obtain ⟨r, hr, hfield⟩ := h.exists_rank hn
        exact ⟨r, hr, .load hop hfield⟩
      · exact h.ranks b hb
  | apply results operands params body => exact h.of_addApply hop hs
  | store value field lower upper =>
      rcases FunctionState.addStore_eq_ok.1 hs with
        ⟨hends, v, w, rank, rank', hv, hw, hvr, hwr, rfl⟩
      obtain ⟨r, hr, hvalue⟩ := h.exists_rank hv
      obtain ⟨r', hr', hfield⟩ := h.exists_rank hw
      obtain ⟨rfl, hlower⟩ := (Named.unify_eq_ok hr).1 hvr
      obtain ⟨_, hsame⟩ := (Named.unify_eq_ok hr').1 hwr
      obtain rfl := hlower _ rfl
      obtain rfl := hsame _ rfl
      refine ⟨?_, ⟨hends, hvalue, hfield⟩, ?_⟩
      · exact List.forall_mem_cons.2 ⟨h.scope.exists_get_iff.1 ⟨v, hv⟩,
          List.forall_mem_singleton.2 (h.scope.exists_get_iff.1 ⟨w, hw⟩)⟩
      · rw [OpDesc.results, List.append_nil]
        exact ⟨h.scope, h.ranks⟩

/-- A well-formed operation that reads known names and defines new ones can be added. -/
theorem exists_addOp {op : OpDesc}
    (h : s.Tracks f known)
    (horder : InOrder OpDesc.reads OpDesc.results (f.args.map FieldDesc.name) f.ops)
    (hreads : ∀ name ∈ op.reads, name ∈ known)
    (hnew : (known ++ op.results).Nodup)
    (hwell : f.OpWellFormed op) :
    ∃ s', s.addOp op = .ok s' := by
  cases op with
  | load result field =>
      obtain ⟨n, hn⟩ := h.scope.exists_get_iff.2 (hreads field List.mem_cons_self)
      obtain ⟨scope, hscope⟩ : ∃ scope, s.scope.define result
          { value := (s.program.load n.value).2, rank := n.rank } = .ok scope :=
        h.scope.exists_define_iff.2
          fun hmem => (List.nodup_append'.1 hnew).2.2 hmem List.mem_cons_self
      exact ⟨_, FunctionState.addLoad_eq_ok.2 ⟨n, scope, hn, hscope, rfl⟩⟩
  | apply results operands params body => exact h.exists_addApply horder hreads hnew hwell
  | store value field lower upper =>
      obtain ⟨v, hv⟩ := h.scope.exists_get_iff.2 (hreads value List.mem_cons_self)
      obtain ⟨w, hw⟩ :=
        h.scope.exists_get_iff.2 (hreads field (List.mem_cons_of_mem _ List.mem_cons_self))
      have hrank : ∀ {name n}, s.scope.get name = .ok n → f.RankOf name lower.length →
          n.rank = some lower.length := fun hn hname => by
        obtain ⟨r, hr, hname'⟩ := h.exists_rank hn
        rw [hr, hname'.unique horder hname]
      refine ⟨_, FunctionState.addStore_eq_ok.2 ⟨hwell.ends, v, w, some lower.length,
        some lower.length, hv, hw, ?_, ?_, rfl⟩⟩
      · refine (Named.unify_eq_ok (hrank hv hwell.value)).2 ⟨rfl, ?_⟩
        rintro _ ⟨⟩
        rfl
      · refine (Named.unify_eq_ok (hrank hw hwell.field)).2 ⟨rfl, ?_⟩
        rintro _ ⟨⟩
        rfl

/-- Operations that have been added are in order and well-formed. -/
theorem of_addOps {ops : List OpDesc} :
    ∀ {known : List String} {s s' : FunctionState}, s.Tracks f known → (∀ op ∈ ops, op ∈ f.ops) →
      s.addOps ops = .ok s' →
      InOrder OpDesc.reads OpDesc.results known ops ∧ ∀ op ∈ ops, f.OpWellFormed op := by
  induction ops with
  | nil =>
      intro known s s' h _ _
      exact ⟨InOrder.nil_iff.2 h.scope.distinct, List.forall_mem_nil _⟩
  | cons op ops ih =>
      intro known s s' h hops hs
      obtain ⟨hop, hops⟩ := List.forall_mem_cons.1 hops
      obtain ⟨t, ht, hs⟩ := FunctionState.addOps_cons.1 hs
      obtain ⟨hreads, hwell, htracks⟩ := h.of_addOp hop ht
      obtain ⟨horder, hrest⟩ := ih htracks hops hs
      exact ⟨InOrder.cons_iff.2 ⟨hreads, horder⟩, List.forall_mem_cons.2 ⟨hwell, hrest⟩⟩

/-- Operations that are in order and well-formed can be added. -/
theorem exists_addOps {ops : List OpDesc}
    (hargs : InOrder OpDesc.reads OpDesc.results (f.args.map FieldDesc.name) f.ops) :
    ∀ {known : List String} {s : FunctionState}, s.Tracks f known → (∀ op ∈ ops, op ∈ f.ops) →
      InOrder OpDesc.reads OpDesc.results known ops → (∀ op ∈ ops, f.OpWellFormed op) →
      ∃ s', s.addOps ops = .ok s' := by
  induction ops with
  | nil => exact fun {known s} _ _ _ _ => ⟨s, FunctionState.addOps_nil.2 rfl⟩
  | cons op ops ih =>
      intro known s h hops horder hwell
      obtain ⟨hop, hops⟩ := List.forall_mem_cons.1 hops
      obtain ⟨hreads, horder⟩ := InOrder.cons_iff.1 horder
      obtain ⟨hwell, hrest⟩ := List.forall_mem_cons.1 hwell
      obtain ⟨t, ht⟩ :=
        h.exists_addOp hargs hreads horder.distinct.of_append_left hwell
      obtain ⟨s', hs'⟩ := ih (h.of_addOp hop ht).2.2 hops horder hrest
      exact ⟨s', FunctionState.addOps_cons.2 ⟨t, ht, hs'⟩⟩

end FunctionState.Tracks

namespace FunctionDesc

variable {f : FunctionDesc}

/-- The names of the arguments, where there is a value for each. -/
theorem map_fst_argNames {args : List ValueId} (h : args.length = f.args.length) :
    (f.argNames args).map Prod.fst = f.args.map FieldDesc.name := by
  have hzip : (f.args.zip args).map Prod.fst = f.args := List.map_fst_zip h.ge
  rw [argNames, List.map_map, ← congrArg (List.map FieldDesc.name) hzip, List.map_map]
  rfl

/-- A function begins with the names and ranks of its arguments. -/
theorem tracks_args {p : Program} {args : List ValueId} {scope : Scope Named}
    (h : args.length = f.args.length)
    (hscope : Scope.defineAll {} (f.argNames args) = .ok scope) :
    FunctionState.Tracks f (f.args.map FieldDesc.name) { program := p, scope } := by
  constructor
  · have hknows := Scope.Knows.empty.defineAll hscope
    rwa [List.nil_append, map_fst_argNames h] at hknows
  · intro b hb
    rcases Scope.mem_of_defineAll hscope hb with hb | hb
    · obtain ⟨⟨a, v⟩, hav, rfl⟩ := List.mem_map.1 hb
      exact ⟨_, rfl, .arg (List.of_mem_zip hav).1 rfl rfl⟩
    · cases hb

/-- A function can be added to a program exactly when it is well-formed. -/
theorem exists_elaborate_iff (p : Program) : (∃ q, f.elaborate p = .ok q) ↔ f.WellFormed := by
  have hlength : (p.beginFunction f.name f.stencil f.argTypes).2.length = f.args.length := by
    have hargs : (p.beginFunction f.name f.stencil f.argTypes).2 =
      (List.range f.argTypes.length).map fun i => ⟨p.values.size + i⟩ := newArgs_snd none _ p 0
    rw [hargs, List.length_map, List.length_range, argTypes, List.length_map]
  constructor
  · rintro ⟨q, hq⟩
    obtain ⟨scope, s, hscope, hs, _⟩ := elaborate_eq_ok.1 hq
    obtain ⟨horder, hops⟩ := (tracks_args hlength hscope).of_addOps (fun _ hop => hop) hs
    exact ⟨horder, hops⟩
  · intro h
    obtain ⟨scope, hscope⟩ : ∃ scope, Scope.defineAll {}
        (f.argNames (p.beginFunction f.name f.stencil f.argTypes).2) = .ok scope := by
      refine Scope.Knows.empty.exists_defineAll ?_
      rw [List.nil_append, map_fst_argNames hlength]
      exact h.inOrder.distinct.of_append_left
    obtain ⟨s, hs⟩ := FunctionState.Tracks.exists_addOps h.inOrder (tracks_args hlength hscope)
      (fun _ hop => hop) h.inOrder h.ops
    exact ⟨s.program, elaborate_eq_ok.2 ⟨scope, s, hscope, hs, rfl⟩⟩

end FunctionDesc

/-- A diagnostic that rejects a function. -/
structure Diagnostic.Rejects (d : Diagnostic) (f : FunctionDesc) : Prop where
  isError : d.isError = true
  place : d.place = { function := f.name }
  code : d.code = some .undefinedName ∨ d.code = some .duplicateName ∨ d.code = some .malformed

theorem ElaborationFault.rejects (f : FunctionDesc) (fault : ElaborationFault) :
    (fault.diagnostic f.name).Rejects f := by
  refine ⟨rfl, rfl, ?_⟩
  cases fault with
  | undefinedName name => exact Or.inl rfl
  | duplicateName name => exact Or.inr (Or.inl rfl)
  | _ => exact Or.inr (Or.inr rfl)

/-- Some functions with one diagnostic for each that is not well-formed, in order. -/
inductive Rejections : List FunctionDesc → List Diagnostic → Prop
  | nil : Rejections [] []
  | accept {f : FunctionDesc} {fs : List FunctionDesc} {ds : List Diagnostic} :
      f.WellFormed →
      Rejections fs ds →
      Rejections (f :: fs) ds
  | reject {f : FunctionDesc} {fs : List FunctionDesc} {d : Diagnostic} {ds : List Diagnostic} :
      ¬ f.WellFormed →
      d.Rejects f →
      Rejections fs ds →
      Rejections (f :: fs) (d :: ds)

theorem Rejections.eq_nil_iff {fs : List FunctionDesc} {ds : List Diagnostic}
    (h : Rejections fs ds) :
    ds = [] ↔ ∀ f ∈ fs, f.WellFormed := by
  induction h with
  | nil => simp
  | accept hf _ ih => rw [List.forall_mem_cons, ih, and_iff_right hf]
  | reject hf _ _ _ =>
      refine iff_of_false (List.cons_ne_nil _ _) fun hall => ?_
      exact hf (hall _ List.mem_cons_self)

/-- What is built so far has no influence on which functions are rejected. -/
theorem rejections_of_elaborateFunctions (fs : List FunctionDesc) :
    ∀ p, Rejections fs (elaborateFunctions p fs).2 := by
  induction fs with
  | nil => exact fun _ => .nil
  | cons f fs ih =>
      intro p
      have hf := FunctionDesc.exists_elaborate_iff (f := f) p
      rw [elaborateFunctions]
      cases h : f.elaborate p with
      | ok q => exact .accept (hf.1 ⟨q, h⟩) (ih q)
      | error fault =>
          refine .reject (fun hwell => ?_) (fault.rejects f) (ih p)
          obtain ⟨q, hq⟩ := hf.2 hwell
          rw [h] at hq
          cases hq

namespace Description

variable {d : Description} {ds : List Diagnostic}

theorem elaborate_eq_error :
    d.elaborate = .error ds ↔ ds ≠ [] ∧ (elaborateFunctions {} d.functions).2 = ds := by
  unfold Description.elaborate
  split
  · next q h =>
      rw [h]
      exact iff_of_false (by rintro ⟨⟩) fun hds => hds.1 hds.2.symm
  · next q ds' hne h =>
      rw [h, Except.error.injEq, and_iff_right_iff_imp.2]
      rintro rfl rfl
      exact hne rfl

/-- A description is accepted exactly when all its functions are well-formed; else there is
no program, and one diagnostic for each function that is not. -/
theorem accepts_iff_wellFormed (d : Description) :
    ((∃ p, d.elaborate = .ok p) ↔ ∀ f ∈ d.functions, f.WellFormed) ∧
      ((∃ ds, d.elaborate = .error ds ∧ ds ≠ [] ∧ Rejections d.functions ds) ↔
        ∃ f ∈ d.functions, ¬ f.WellFormed) := by
  have hrejections := rejections_of_elaborateFunctions d.functions {}
  have hnil := hrejections.eq_nil_iff
  constructor
  · rw [← hnil]
    constructor
    · rintro ⟨p, hp⟩
      rw [elaborate_eq_ok.1 hp]
    · intro h
      exact ⟨_, elaborate_eq_ok.2 (Prod.ext rfl h)⟩
  · constructor
    · rintro ⟨ds, hds, hne, _⟩
      obtain ⟨_, rfl⟩ := elaborate_eq_error.1 hds
      by_contra hall
      refine hne (hnil.2 fun f hf => ?_)
      by_contra hill
      exact hall ⟨f, hf, hill⟩
    · rintro ⟨f, hf, hill⟩
      have hne : (elaborateFunctions {} d.functions).2 ≠ [] := fun h => hill (hnil.1 h f hf)
      exact ⟨_, elaborate_eq_error.2 ⟨hne, rfl⟩, hne, hrejections⟩

end Description
end StencilShapes
