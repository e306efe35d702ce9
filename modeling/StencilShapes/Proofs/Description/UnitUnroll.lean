import StencilShapes.Proofs.Description.Accepted
import StencilShapes.Proofs.Description.Faithful
import StencilShapes.Proofs.Program.UnitUnroll

/-!
# An apply that is described with the unroll by one

An apply whose return has no unroll may be described with the unroll that is one in each
dimension.  The rank has to be that of the operands; an apply without operands returns nothing,
and may have any.  Such a description is accepted as well, and its program is the same but for
that return.

**Results.**
* `BodyState.addOps_unit`, `FunctionState.Tracks.addOps_unit`: the return is made.
* `FunctionState.addOps_withUnit`, `elaborateFunctions_withUnit`: what is built afterwards.
* `Description.elaborate_withUnit`: the program of the description.
-/

namespace StencilShapes

open Program

/-- A return without an unroll gets the unroll by one. -/
def BodyOpDesc.withUnit (n : Nat) : BodyOpDesc → BodyOpDesc
  | .ret operands none => .ret operands (some (.ones n))
  | op => op

/-- The return of an apply gets the unroll by one, if it has none. -/
def OpDesc.withUnit (n : Nat) : OpDesc → OpDesc
  | .apply results operands params body =>
      .apply results operands params (body.map (BodyOpDesc.withUnit n))
  | op => op

/-- The description in which the apply that is operation `k` of function `i` returns with the
unroll by one. -/
def Description.withUnit (i k n : Nat) (d : Description) : Description :=
  { functions :=
      d.functions.modify i fun f => { f with ops := f.ops.modify k (OpDesc.withUnit n) } }

namespace BodyState

variable {x : OpId} {n : Nat} {apply : OpId} {args : List ValueId} {s s' : BodyState}

/-- The body, in the program in which the return `x` has the unroll by one. -/
def withUnit (x : OpId) (n : Nat) (s : BodyState) : BodyState :=
  { s with program := s.program.withUnit x n }

/-- One operation is added. -/
theorem size_addOp {last : Bool} {op : BodyOpDesc} (hs : s.addOp apply args last op = .ok s') :
    s'.program.ops.size = s.program.ops.size + 1 := by
  cases op with
  | access result param offset =>
      obtain ⟨arg, _, _, _, _, _, _, rfl⟩ := addOp_access.1 hs
      rw [access_eq]
      exact size_ops_addInner s.program apply (.access offset) [arg]
        [.scalar (s.program.typeOf arg).element]
  | arith result operator lhs rhs =>
      obtain ⟨l, r, _, _, _, _, rfl⟩ := addOp_arith.1 hs
      rw [arith_eq]
      exact size_ops_addInner s.program apply (.arith operator) [l, r] [s.program.typeOf l]
  | ret operands unroll =>
      obtain ⟨_, values, _, _, _, rfl⟩ := addOp_ret.1 hs
      rw [ret_eq]
      exact size_ops_addInner s.program apply (.ret unroll) values []

theorem size_addOps {ops : List BodyOpDesc} :
    ∀ {s : BodyState}, s.addOps apply args ops = .ok s' →
      s'.program.ops.size = s.program.ops.size + ops.length := by
  induction ops with
  | nil =>
      intro s hs
      rw [addOps_nil.1 hs]
      rfl
  | cons op ops ih =>
      intro s hs
      obtain ⟨t, ht, hs⟩ := addOps_cons.1 hs
      rw [ih hs, size_addOp ht, List.length_cons]
      omega

/-- Operations are added as before. -/
theorem addOp_withUnit (hx : x.index < s.program.ops.size) (last : Bool) (op : BodyOpDesc) :
    (s.withUnit x n).addOp apply args last op = withUnit x n <$> s.addOp apply args last op := by
  cases op with
  | access result param offset =>
      simp only [addOp, withUnit, map_bind, access_withUnit x n s.program hx, apply_ite]
      rfl
  | arith result operator lhs rhs =>
      simp only [addOp, withUnit, map_bind, arith_withUnit x n s.program hx]
      rfl
  | ret operands unroll =>
      cases last with
      | false => rfl
      | true =>
          cases unroll <;>
            simp only [addOp, withUnit, map_bind, ret_withUnit x n s.program hx, not_true,
              if_false] <;>
            rfl

theorem addOps_withUnit {ops : List BodyOpDesc} :
    ∀ {s : BodyState}, x.index < s.program.ops.size → s.addOps apply args ops = .ok s' →
      (s.withUnit x n).addOps apply args ops = .ok (s'.withUnit x n) := by
  induction ops with
  | nil =>
      intro s _ hs
      obtain rfl := addOps_nil.1 hs
      rfl
  | cons op ops ih =>
      intro s hx hs
      obtain ⟨t, ht, hs⟩ := addOps_cons.1 hs
      have hsize := size_addOp ht
      refine addOps_cons.2 ⟨t.withUnit x n, ?_, ih (by omega) hs⟩
      rw [addOp_withUnit hx, ht]
      rfl

/-- A body that ends with a return without an unroll may return with the unroll by one. -/
theorem addOps_unit {names : List String} {b : BodyState} {ops : List BodyOpDesc}
    (hrank : ∀ r, b.rank = some r → r = n) :
    ∀ {s : BodyState}, s.addOps apply args ops = .ok b →
      ops.getLast? = some (.ret names none) →
      ∃ x : OpId, x.index < b.program.ops.size ∧
        s.addOps apply args (ops.map (BodyOpDesc.withUnit n)) =
          .ok { b.withUnit x n with rank := some n } := by
  induction ops with
  | nil => rintro s _ ⟨⟩
  | cons op ops ih =>
      intro s hs hlast
      obtain ⟨t, ht, hrest⟩ := addOps_cons.1 hs
      cases ops with
      | nil =>
          obtain rfl : op = .ret names none := Option.some.inj hlast
          obtain rfl := addOps_nil.1 hrest
          have hsize := size_addOp ht
          obtain ⟨_, values, rank, hvalues, rfl, rfl⟩ := addOp_ret.1 ht
          have hones : (Point.ones n).length = n := List.length_replicate
          have hunify : unifyRank s.rank (Point.ones n).length (.unroll (.ones n)) = .ok n :=
            unifyRank_eq_ok.2 ⟨hones.symm, fun r hr => (hrank r hr).trans hones.symm⟩
          refine ⟨⟨s.program.ops.size⟩, ?_, addOps_cons.2 ⟨_, addOp_ret.2 ⟨rfl, values, some n,
            hvalues, ⟨n, hunify, rfl⟩, rfl⟩, addOps_nil.2 ?_⟩⟩
          · rw [hsize]
            exact Nat.lt_succ_self _
          · rw [ret_unit]
            rfl
      | cons op' ops =>
          have hop : op.withUnit n = op := by
            cases op with
            | ret operands unroll =>
                obtain ⟨hfalse, _⟩ := addOp_ret.1 ht
                cases hfalse
            | access => rfl
            | arith => rfl
          obtain ⟨x, hx, hunit⟩ := ih hrest (by rwa [List.getLast?_cons_cons] at hlast)
          refine ⟨x, hx, addOps_cons.2 ⟨t, ?_, hunit⟩⟩
          rw [hop]
          exact ht

end BodyState

/-- A body that knows nothing from the start returns nothing, and does nothing else. -/
theorem BodyWellFormed.eq_ret_of_nil {rank : Option Nat} {m : Nat} {ops : List BodyOpDesc}
    (h : BodyWellFormed [] rank m [] ops) :
    ∃ unroll, ops = [.ret [] unroll] := by
  obtain ⟨init, operands, unroll, rfl, hinit, _⟩ := h.returns
  have hreads := h.inOrder.reads_eq_nil fun op => op.reads_ne_nil
  have hnil : init = [] := List.eq_nil_iff_forall_not_mem.2 fun op hop => by
    have hnone := hreads op (List.mem_append_left _ hop)
    have hreturn := hinit op hop
    cases op with
    | access => cases hnone
    | arith => cases hnone
    | ret => cases hreturn
  obtain rfl : operands = [] := hreads (.ret operands unroll) (by simp)
  exact ⟨unroll, by rw [hnil]; rfl⟩

namespace FunctionState

variable {x : OpId} {n : Nat} {s s' : FunctionState}

/-- The function, in the program in which the return `x` has the unroll by one. -/
def withUnit (x : OpId) (n : Nat) (s : FunctionState) : FunctionState :=
  { s with program := s.program.withUnit x n }

theorem size_of_closeApply {p q : Program} {apply : OpId} {values : List ValueId}
    (h : p.closeApply apply = .ok (q, values)) :
    q.ops.size = p.ops.size := by
  obtain ⟨_, _, _, _, _, _, _, _, rfl, _⟩ := closeApply_eq_ok.1 h
  exact size_ops_newResults _ _ p

/-- Operations are added, and none is taken away. -/
theorem size_le_of_addOp {op : OpDesc} (hs : s.addOp op = .ok s') :
    s.program.ops.size ≤ s'.program.ops.size := by
  cases op with
  | load result field =>
      obtain ⟨n, _, _, _, rfl⟩ := addLoad_eq_ok.1 hs
      have hsize := size_ops_newOp_append s.program (.load none) [n.value]
        [.temp (s.program.typeOf n.value).element none]
      rw [load_eq]
      exact (Nat.le_succ _).trans hsize.ge
  | apply results operands params body =>
      obtain ⟨_, ns, _, _, _, _, b, _, _, _, _, hb, hclose, _, _, rfl⟩ := addApply_eq_ok.1 hs
      have hopen := size_ops_openApply s.program (ns.map Named.value)
      have hbody := BodyState.size_addOps hb
      have hdone := size_of_closeApply hclose
      dsimp only at hbody ⊢
      omega
  | store value field lower upper =>
      obtain ⟨_, v, w, _, _, _, _, _, _, rfl⟩ := addStore_eq_ok.1 hs
      have hsize := size_ops_newOp_append s.program (.store { lower, upper }) [v.value, w.value] []
      rw [store_eq]
      exact (Nat.le_succ _).trans hsize.ge

/-- An apply is added as before. -/
theorem addApply_withUnit {results operands params : List String} {body : List BodyOpDesc}
    (hx : x.index < s.program.ops.size)
    (hs : s.addApply results operands params body = .ok s') :
    (s.withUnit x n).addApply results operands params body = .ok (s'.withUnit x n) := by
  obtain ⟨hparams, ns, rank, hns, hrank, scope, b, p, values, scope', hscope, hb, hclose, hcount,
    hscope', rfl⟩ := addApply_eq_ok.1 hs
  have hopen : (s.withUnit x n).program.openApply (ns.map Named.value) =
      ((s.program.openApply (ns.map Named.value)).1.withUnit x n,
        (s.program.openApply (ns.map Named.value)).2) :=
    openApply_withUnit x n s.program hx (ns.map Named.value)
  have hsize := size_ops_openApply s.program (ns.map Named.value)
  refine addApply_eq_ok.2 ⟨hparams, ns, rank, hns, hrank, ?_⟩
  rw [hopen]
  refine ⟨scope, b.withUnit x n, p.withUnit x n, values, scope', hscope, ?_, ?_, hcount, hscope',
    rfl⟩
  · exact BodyState.addOps_withUnit (hx.trans_le (hsize.ge.trans' (Nat.le_succ _))) hb
  · exact (closeApply_withUnit x n b.program _).trans (congrArg _ hclose)

/-- Operations are added as before. -/
theorem addOp_withUnit {op : OpDesc}
    (hx : x.index < s.program.ops.size)
    (hs : s.addOp op = .ok s') :
    (s.withUnit x n).addOp op = .ok (s'.withUnit x n) := by
  cases op with
  | load result field =>
      obtain ⟨m, scope, hm, hscope, rfl⟩ := addLoad_eq_ok.1 hs
      have hload := load_withUnit x n s.program hx m.value
      refine addLoad_eq_ok.2 ⟨m, scope, hm, ?_, ?_⟩
      · rw [withUnit, hload]
        exact hscope
      · simp only [withUnit, hload]
  | apply results operands params body => exact addApply_withUnit hx hs
  | store value field lower upper =>
      obtain ⟨hends, v, w, rank, rank', hv, hw, hvr, hwr, rfl⟩ := addStore_eq_ok.1 hs
      refine addStore_eq_ok.2 ⟨hends, v, w, rank, rank', hv, hw, hvr, hwr, ?_⟩
      simp only [withUnit, store_withUnit x n s.program hx]

theorem addOps_withUnit {ops : List OpDesc} :
    ∀ {s : FunctionState}, x.index < s.program.ops.size → s.addOps ops = .ok s' →
      x.index < s'.program.ops.size ∧ (s.withUnit x n).addOps ops = .ok (s'.withUnit x n) := by
  induction ops with
  | nil =>
      intro s hx hs
      obtain rfl := addOps_nil.1 hs
      exact ⟨hx, rfl⟩
  | cons op ops ih =>
      intro s hx hs
      obtain ⟨t, ht, hs⟩ := addOps_cons.1 hs
      obtain ⟨hx', hrest⟩ := ih (hx.trans_le (size_le_of_addOp ht)) hs
      exact ⟨hx', addOps_cons.2 ⟨_, addOp_withUnit hx ht, hrest⟩⟩

namespace Tracks

variable {f : FunctionDesc} {known results operands params names : List String}
  {body : List BodyOpDesc}

/-- An apply whose return has no unroll may return with the unroll by one of its rank. -/
theorem addApply_unit
    (h : s.Tracks f known)
    (horder : InOrder OpDesc.reads OpDesc.results (f.args.map FieldDesc.name) f.ops)
    (hrank : ∀ name ∈ operands, f.RankOf name n)
    (hlast : body.getLast? = some (.ret names none))
    (hs : s.addApply results operands params body = .ok s') :
    ∃ x : OpId, x.index < s'.program.ops.size ∧
      s.addApply results operands params (body.map (BodyOpDesc.withUnit n)) =
        .ok (s'.withUnit x n) := by
  obtain ⟨hparams, ns, rank, hns, hoperands, scope, b, p, values, scope', hscope, hb, hclose,
    hcount, hscope', rfl⟩ := addApply_eq_ok.1 hs
  have hcommon := h.commonRank hns hoperands
  -- The rank is known to be `n`, or there are no operands, and then nothing is returned.
  have hknown : b.rank = some n ∨ b.rank = none ∧ results = [] := by
    cases operands with
    | nil =>
        obtain rfl := List.eq_nil_of_length_eq_zero hparams
        have hbody := (tracks_openApply hparams hns hcommon hscope).exists_close_iff.1
          ⟨b, p, values, hb, hclose, hcount⟩
        obtain ⟨unroll, rfl⟩ := hbody.eq_ret_of_nil
        cases hlast
        obtain ⟨t, ht, hrest⟩ := BodyState.addOps_cons.1 hb
        obtain rfl := BodyState.addOps_nil.1 hrest
        obtain ⟨_, _, _, _, rfl, rfl⟩ := BodyState.addOp_ret.1 ht
        exact .inr ⟨hcommon.of_nil rfl, List.eq_nil_of_length_eq_zero hbody.eq_zero_of_nil⟩
    | cons name operands =>
        obtain ⟨r, rfl, hr⟩ := hcommon.of_mem name List.mem_cons_self
        obtain rfl := hr.unique horder (hrank name List.mem_cons_self)
        exact .inl (BodyState.rank_of_addOps hb rfl)
  have hagrees : ∀ r, b.rank = some r → r = n := by
    intro r hr
    rcases hknown with hn | ⟨hnone, _⟩
    · exact Option.some.inj (hr.symm.trans hn)
    · rw [hnone] at hr
      cases hr
  obtain ⟨x, hx, hunit⟩ := BodyState.addOps_unit hagrees hb hlast
  refine ⟨x, (size_of_closeApply hclose).symm ▸ hx, addApply_eq_ok.2 ⟨hparams, ns, rank, hns,
    hoperands, scope, _, p.withUnit x n, values, scope', hscope, hunit, ?_, hcount, ?_, rfl⟩⟩
  · exact (closeApply_withUnit x n b.program _).trans (congrArg _ hclose)
  · rcases hknown with hn | ⟨_, rfl⟩
    · rw [← hscope', hn]
    · exact hscope'

/-- One apply of a function may return with the unroll by one. -/
theorem addOps_unit {ops : List OpDesc}
    (horder : InOrder OpDesc.reads OpDesc.results (f.args.map FieldDesc.name) f.ops)
    (hrank : ∀ name ∈ operands, f.RankOf name n)
    (hlast : body.getLast? = some (.ret names none)) :
    ∀ {known : List String} {s : FunctionState} {k : Nat}, s.Tracks f known →
      (∀ op ∈ ops, op ∈ f.ops) → ops[k]? = some (.apply results operands params body) →
      s.addOps ops = .ok s' →
      ∃ x : OpId, x.index < s'.program.ops.size ∧
        s.addOps (ops.modify k (OpDesc.withUnit n)) = .ok (s'.withUnit x n) := by
  induction ops with
  | nil => rintro known s k _ _ ⟨⟩
  | cons op ops ih =>
      intro known s k h hops hop hs
      obtain ⟨hmem, hmems⟩ := List.forall_mem_cons.1 hops
      obtain ⟨t, ht, hrest⟩ := addOps_cons.1 hs
      cases k with
      | zero =>
          obtain rfl : op = _ := Option.some.inj hop
          obtain ⟨x, hx, hunit⟩ := h.addApply_unit horder hrank hlast ht
          obtain ⟨hx', hunits⟩ := addOps_withUnit (n := n) hx hrest
          exact ⟨x, hx', addOps_cons.2 ⟨_, hunit, hunits⟩⟩
      | succ k =>
          obtain ⟨x, hx, hunits⟩ := ih (h.of_addOp hmem ht).2.2 hmems hop hrest
          exact ⟨x, hx, addOps_cons.2 ⟨t, ht, hunits⟩⟩

end Tracks
end FunctionState

namespace FunctionDesc

variable {x : OpId} {k n : Nat} {f : FunctionDesc} {p q : Program}
  {results operands params names : List String} {body : List BodyOpDesc}

/-- A function is added as before. -/
theorem elaborate_withUnit (hx : x.index < p.ops.size) (h : f.elaborate p = .ok q) :
    x.index < q.ops.size ∧ f.elaborate (p.withUnit x n) = .ok (q.withUnit x n) := by
  obtain ⟨scope, s, hscope, hs, rfl⟩ := elaborate_eq_ok.1 h
  have hbegin := beginFunction_withUnit x n p f.name f.stencil f.argTypes
  have hsize : (p.beginFunction f.name f.stencil f.argTypes).1.ops = p.ops :=
    ops_newArgs none f.argTypes p 0
  obtain ⟨hx', hops⟩ := FunctionState.addOps_withUnit (n := n) (x := x)
    (s := { program := (p.beginFunction f.name f.stencil f.argTypes).1, scope })
    (by dsimp only; rwa [hsize]) hs
  refine ⟨hx', elaborate_eq_ok.2 ⟨scope, s.withUnit x n, ?_, ?_, rfl⟩⟩
  · rw [hbegin]
    exact hscope
  · rw [hbegin]
    exact hops

/-- One apply of a function may return with the unroll by one. -/
theorem elaborate_unit
    (hop : f.ops[k]? = some (.apply results operands params body))
    (hrank : ∀ name ∈ operands, f.RankOf name n)
    (hlast : body.getLast? = some (.ret names none))
    (h : f.elaborate p = .ok q) :
    ∃ x : OpId, x.index < q.ops.size ∧
      FunctionDesc.elaborate p { f with ops := f.ops.modify k (OpDesc.withUnit n) } =
        .ok (q.withUnit x n) := by
  have hwell := (exists_elaborate_iff p).1 ⟨q, h⟩
  obtain ⟨scope, s, hscope, hs, rfl⟩ := elaborate_eq_ok.1 h
  have hlength : (p.beginFunction f.name f.stencil f.argTypes).2.length = f.args.length := by
    have hargs : (p.beginFunction f.name f.stencil f.argTypes).2 =
      (List.range f.argTypes.length).map fun i => ⟨p.values.size + i⟩ := newArgs_snd none _ p 0
    rw [hargs, List.length_map, List.length_range, argTypes, List.length_map]
  obtain ⟨x, hx, hunit⟩ := FunctionState.Tracks.addOps_unit hwell.inOrder hrank hlast
    (tracks_args hlength hscope) (fun _ => id) hop hs
  exact ⟨x, hx, elaborate_eq_ok.2 ⟨scope, s.withUnit x n, hscope, hunit, rfl⟩⟩

end FunctionDesc

theorem elaborateFunctions_withUnit {x : OpId} {n : Nat} {q : Program} {fs : List FunctionDesc} :
    ∀ {p : Program}, x.index < p.ops.size → elaborateFunctions p fs = (q, []) →
      elaborateFunctions (p.withUnit x n) fs = (q.withUnit x n, []) := by
  induction fs with
  | nil =>
      intro p _ h
      obtain rfl := elaborateFunctions_eq_nil.1 h
      rfl
  | cons f fs ih =>
      intro p hx h
      obtain ⟨p', hf, h⟩ := elaborateFunctions_eq_nil.1 h
      obtain ⟨hx', hunit⟩ := FunctionDesc.elaborate_withUnit (n := n) hx hf
      exact elaborateFunctions_eq_nil.2 ⟨_, hunit, ih hx' h⟩

section Descriptions

variable {d : Description} {f : FunctionDesc} {i k n : Nat} {p q : Program}
  {results operands params names : List String} {body : List BodyOpDesc}

/-- One apply of one function may return with the unroll by one. -/
theorem elaborateFunctions_unit {fs : List FunctionDesc}
    (hop : f.ops[k]? = some (.apply results operands params body))
    (hrank : ∀ name ∈ operands, f.RankOf name n)
    (hlast : body.getLast? = some (.ret names none)) :
    ∀ {i : Nat} {p : Program}, fs[i]? = some f → elaborateFunctions p fs = (q, []) →
      ∃ x, elaborateFunctions p
          (fs.modify i fun f => { f with ops := f.ops.modify k (OpDesc.withUnit n) }) =
        (q.withUnit x n, []) := by
  induction fs with
  | nil => rintro i p ⟨⟩
  | cons g fs ih =>
      intro i p hf h
      obtain ⟨p', hg, h⟩ := elaborateFunctions_eq_nil.1 h
      cases i with
      | zero =>
          obtain rfl : g = f := Option.some.inj hf
          obtain ⟨x, hx, hunit⟩ := FunctionDesc.elaborate_unit hop hrank hlast hg
          exact ⟨x, elaborateFunctions_eq_nil.2 ⟨_, hunit, elaborateFunctions_withUnit hx h⟩⟩
      | succ i =>
          obtain ⟨x, hunit⟩ := ih hf h
          exact ⟨x, elaborateFunctions_eq_nil.2 ⟨p', hg, hunit⟩⟩

/-- A description with one apply that returns with the unroll by one gives the same program,
but for that return. -/
theorem Description.elaborate_withUnit
    (h : d.elaborate = .ok p)
    (hf : d.functions[i]? = some f)
    (hop : f.ops[k]? = some (.apply results operands params body))
    (hrank : ∀ name ∈ operands, f.RankOf name n)
    (hlast : body.getLast? = some (.ret names none)) :
    ∃ x, (d.withUnit i k n).elaborate = .ok (p.withUnit x n) := by
  obtain ⟨x, hunit⟩ := elaborateFunctions_unit hop hrank hlast hf (elaborate_eq_ok.1 h)
  exact ⟨x, elaborate_eq_ok.2 hunit⟩

end Descriptions
end StencilShapes
