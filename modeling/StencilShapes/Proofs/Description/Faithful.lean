import StencilShapes.Proofs.Description.Body
import StencilShapes.Proofs.Description.Construction
import StencilShapes.Proofs.Description.Realization
import StencilShapes.Proofs.Domain.Chain

/-!
# Elaboration is faithful

A scope says of each name what an environment says of it, and each step of elaboration adds
one operation that realizes the description read so far.  What has been added stays as it
is: only an apply changes after it was made, while its body grows and when it gets its
results, and both end before the next operation of the function.

**Results.**
* `BodyState.realizes_addOps`: the body of an apply.
* `FunctionState.realizes_addOp`, `FunctionState.realizes_addOps`: the operations of a
  function.
* `Description.realized`: the program of a description realizes it, and has nothing else.
-/

namespace StencilShapes

open Program

namespace Scope

variable {α : Type} {value : α → ValueId} {env : Environment} {s s' : Scope α}
  {name : String} {a : α}

/-- Names have the meaning that the environment gives to them. -/
def Agrees (value : α → ValueId) (env : Environment) (s : Scope α) : Prop :=
  ∀ name, env.meaning name = (s.bindings.lookup name).map value

theorem Agrees.empty (value : α → ValueId) : Agrees value [] {} :=
  fun _ => rfl

theorem Agrees.get (h : s.Agrees value env) (hs : s.get name = .ok a) :
    env.meaning name = some (value a) := by
  rw [h name, get_eq_ok.1 hs, Option.map_some]

theorem Agrees.getAll {names : List String} {as : List α}
    (h : s.Agrees value env)
    (hs : s.getAll names = .ok as) :
    (as.map value).map some = names.map env.meaning := by
  induction names generalizing as with
  | nil => rw [getAll_nil.1 hs]; rfl
  | cons name names ih =>
      obtain ⟨a, as', ha, has, rfl⟩ := getAll_cons.1 hs
      rw [List.map_cons, List.map_cons, List.map_cons, ih has, h.get ha]

/-- A definition adds to the meaning of names. -/
theorem Agrees.define (h : s.Agrees value env) (hs : s.define name a = .ok s') :
    s'.Agrees value (env ++ [(name, value a)]) := by
  obtain ⟨hnew, rfl⟩ := define_eq_ok.1 hs
  intro x
  have hx := h x
  rw [Environment.meaning] at hx ⊢
  rw [List.lookup_append, hx, List.lookup_cons, List.lookup_cons]
  cases hname : x == name with
  | true =>
      obtain rfl := beq_iff_eq.1 hname
      simp [hnew]
  | false => simp

theorem Agrees.defineAll {xs : List (String × α)} :
    ∀ {env : Environment} {s : Scope α}, s.Agrees value env → s.defineAll xs = .ok s' →
      s'.Agrees value (env ++ xs.map fun x => (x.1, value x.2)) := by
  induction xs with
  | nil =>
      intro env s h hs
      cases hs
      rwa [List.map_nil, List.append_nil]
  | cons x xs ih =>
      rcases x with ⟨name, a⟩
      intro env s h hs
      obtain ⟨t, ht, hs⟩ := defineAll_cons.1 hs
      have hrest := ih (h.define ht) hs
      rwa [List.append_assoc] at hrest

end Scope

namespace Program

/-- New results have the types that were asked for. -/
theorem map_typeOf_newResults (u : OpId) (tys : List Ty) :
    ∀ p : Program, (p.newResults u tys).2.map (p.newResults u tys).1.typeOf = tys := by
  induction tys with
  | nil => exact fun _ => rfl
  | cons ty tys ih =>
      intro p
      have hdefined : ((p.newResult u ty).1.originOf (p.newResult u ty).2).isSome := by
        rw [newResult_snd, originOf_newResult, if_pos rfl]
        rfl
      have hty : ((p.newResult u ty).1.newResults u tys).1.typeOf (p.newResult u ty).2 = ty := by
        rw [(Grows.newResults u tys _).ty hdefined, newResult_snd, typeOf_newResult, if_pos rfl]
      exact congrArg₂ List.cons hty (ih (p.newResult u ty).1)

theorem size_ops_newResults (u : OpId) (tys : List Ty) :
    ∀ p : Program, (p.newResults u tys).1.ops.size = p.ops.size := by
  induction tys with
  | nil => exact fun _ => rfl
  | cons ty tys ih => exact fun p => (ih (p.newResult u ty).1).trans (Array.size_modify ..)

theorem size_ops_addInner (p : Program) (a : OpId) (kind : OpKind) (operands : List ValueId)
    (tys : List Ty) :
    (p.addInner a kind operands tys).1.ops.size = p.ops.size + 1 := by
  refine (Array.size_modify ..).trans ((size_ops_newResults _ tys _).trans ?_)
  exact Array.size_push ..

theorem ops_newArgs (owner : Option OpId) (tys : List Ty) :
    ∀ (p : Program) (index : Nat), (p.newArgs owner index tys).1.ops = p.ops := by
  induction tys with
  | nil => exact fun _ _ => rfl
  | cons ty tys ih => exact fun p index => ih (p.newValue ty (.arg owner index)).1 (index + 1)

theorem size_ops_openApply (p : Program) (operands : List ValueId) :
    (p.openApply operands).1.ops.size = p.ops.size + 1 :=
  (Array.size_modify ..).trans
    ((congrArg Array.size (ops_newArgs _ _ _ 0)).trans (Array.size_push ..))

theorem functions_append_congr {p q : Program} (h : q.functions = p.functions) (u : OpId) :
    (q.append u).functions = (p.append u).functions := by
  rw [Program.append, Program.append, h]

theorem op?_newOp_append (p : Program) (kind : OpKind) (operands : List ValueId)
    (tys : List Ty) :
    let r := (p.newOp kind operands none).1.newResults ⟨p.ops.size⟩ tys
    (r.1.append ⟨p.ops.size⟩).op? ⟨p.ops.size⟩ =
      some
        { id := ⟨p.ops.size⟩, kind, operands, operandTypes := operands.map p.typeOf
          results := r.2, parent := none } :=
  (op?_append _ _ _).trans (op?_newResults_self tys (p.op?_newOp_self kind operands none))

theorem size_ops_newOp_append (p : Program) (kind : OpKind) (operands : List ValueId)
    (tys : List Ty) :
    (((p.newOp kind operands none).1.newResults ⟨p.ops.size⟩ tys).1.append
      ⟨p.ops.size⟩).ops.size = p.ops.size + 1 :=
  (size_ops_newResults _ tys _).trans (Array.size_push ..)

/-- Each result of an apply has the element of the first value of its group. -/
theorem getElem?_groupTypes {tys : List Ty} {size j : Nat} {ty : Ty}
    (hsize : 0 < size)
    (h : (groupTypes tys size)[j]? = some ty) :
    ∃ ty', tys[j * size]? = some ty' ∧ ty = .temp ty'.element none := by
  have hmap : groupTypes tys size = (List.range (tys.length / size)).map fun j =>
      .temp (tys[j * size]?.getD default).element none := by
    rw [groupTypes, ← List.filterMap_eq_map]
    refine List.filterMap_congr fun j hj => ?_
    have hlt : j * size < tys.length :=
      Nat.lt_of_lt_of_le (Nat.mul_lt_mul_of_pos_right (List.mem_range.1 hj) hsize)
        (Nat.div_mul_le_self _ _)
    simp [List.getElem?_eq_getElem hlt]
  rw [hmap, List.getElem?_map] at h
  rcases Option.map_eq_some_iff.1 h with ⟨k, hk, rfl⟩
  obtain ⟨hj, rfl⟩ := List.getElem?_eq_some_iff.1 hk
  rw [List.length_range] at hj
  have hlt : j * size < tys.length :=
    Nat.lt_of_lt_of_le (Nat.mul_lt_mul_of_pos_right hj hsize) (Nat.div_mul_le_self _ _)
  refine ⟨tys[j * size], List.getElem?_eq_getElem hlt, ?_⟩
  simp [List.getElem?_eq_getElem hlt]

/-- An inner operation changes the apply that it joins and no other. -/
theorem Extends.addInner {p : Program} {a : OpId} (kind : OpKind) (operands : List ValueId)
    (tys : List Ty) :
    p.Extends (p.addInner a kind operands tys).1 (some a) where
  grows := Grows.addInner kind operands tys p a
  op {u o} ho hu := by
    have hne : u ≠ ⟨p.ops.size⟩ := fun he => Nat.lt_irrefl _ (he ▸ op?_lt ho)
    rw [op?_addInner_of_ne kind operands tys hne fun he => hu (by rw [he]), ho]

theorem Extends.newResults {p : Program} {u : OpId} (tys : List Ty) :
    p.Extends (p.newResults u tys).1 (some u) where
  grows := Grows.newResults u tys p
  op ho hu := (op?_newResults_of_ne tys (fun he => hu (by rw [he])) _).trans ho

theorem Extends.append (p : Program) (u : OpId) (open? : Option OpId) :
    p.Extends (p.append u) open? :=
  ⟨Grows.append p u, fun ho _ => ho⟩

theorem Extends.beginFunction (p : Program) (name : String) (stencil : Bool) (tys : List Ty) :
    p.Extends (p.beginFunction name stencil tys).1 none :=
  ⟨Grows.beginFunction p name stencil tys, fun ho _ => (op?_newArgs none tys _ p 0).trans ho⟩

theorem Extends.openApply (p : Program) (operands : List ValueId) :
    p.Extends (p.openApply operands).1 none where
  grows := Grows.openApply p operands
  op ho _ := by rw [op?_openApply, if_neg (Nat.ne_of_lt (op?_lt ho)), ho]

/-- A load or a store leaves all others alone. -/
theorem Extends.newOp_append (p : Program) (kind : OpKind) (operands : List ValueId)
    (tys : List Ty) :
    p.Extends
      (((p.newOp kind operands none).1.newResults ⟨p.ops.size⟩ tys).1.append ⟨p.ops.size⟩)
      none where
  grows := Grows.newOp_append p kind operands tys
  op {u o} ho _ := by
    have hne : u ≠ ⟨p.ops.size⟩ := fun he => Nat.lt_irrefl _ (he ▸ op?_lt ho)
    rw [op?_append, op?_newResults_of_ne tys hne, op?_newOp_old kind operands none ho]

/-- An inner operation over the values that names stand for. -/
theorem realizes_addInner {p : Program} {a : OpId} {o : Operation} {env : Environment}
    {op : BodyOpDesc} {operands : List ValueId}
    (ho : p.op? a = some o)
    (hreads : operands.map some = op.reads.map env.meaning)
    (hdefined : ∀ v ∈ operands, (p.originOf v).isSome) :
    let r := p.addInner a op.kind operands (op.resultTypes (operands.map p.typeOf))
    ∃ ox, r.1.op? ⟨p.ops.size⟩ = some ox ∧ r.1.RealizesInner a env op ox ∧ ox.results = r.2 := by
  intro r
  have hsame : operands.map r.1.typeOf = operands.map p.typeOf :=
    (Extends.addInner op.kind operands _).map_typeOf hdefined
  refine ⟨_, op?_addInner_self op.kind operands _ ho, ⟨rfl, hreads, rfl, ?_⟩, rfl⟩
  exact (map_typeOf_newResults _ _ _).trans (congrArg op.resultTypes hsame.symm)

end Program

namespace BodyState

variable {base : Program} {apply : OpId} {args : List ValueId} {s s' : BodyState}
  {env : Environment} {o : Operation} {block : Block}

/-- An operation of a body is an inner operation over the values that names stand for. -/
theorem addOp_spec {last : Bool} {op : BodyOpDesc}
    (hagree : s.scope.Agrees id env)
    (hs : s.addOp apply args last op = .ok s') :
    ∃ operands : List ValueId, operands.map some = op.reads.map env.meaning ∧
      (∀ v ∈ operands, ∃ name, (name, v) ∈ s.scope.bindings) ∧
      let r := s.program.addInner apply op.kind operands
        (op.resultTypes (operands.map s.program.typeOf))
      s'.program = r.1 ∧ s'.scope.Agrees id (env ++ op.results.zip r.2) := by
  cases op with
  | access result param offset =>
      rcases addOp_access.1 hs with ⟨arg, _, scope, harg, _, _, hscope, rfl⟩
      rw [Program.access_eq] at hscope ⊢
      refine ⟨[arg], ?_, List.forall_mem_singleton.2 ⟨param, Scope.mem_of_get harg⟩, rfl, ?_⟩
      · exact congrArg (fun v => [v]) (hagree.get harg).symm
      · show scope.Agrees id (env ++ [result].zip (s.program.addInner apply (.access offset) [arg]
          [.scalar (s.program.typeOf arg).element]).2)
        rw [Program.addInner_one]
        exact hagree.define hscope
  | arith result operator lhs rhs =>
      rcases addOp_arith.1 hs with ⟨l, r, scope, hl, hr, hscope, rfl⟩
      rw [Program.arith_eq] at hscope ⊢
      refine ⟨[l, r], ?_, List.forall_mem_cons.2 ⟨⟨lhs, Scope.mem_of_get hl⟩,
        List.forall_mem_singleton.2 ⟨rhs, Scope.mem_of_get hr⟩⟩, rfl, ?_⟩
      · exact congrArg₂ (fun v w => [v, w]) (hagree.get hl).symm (hagree.get hr).symm
      · show scope.Agrees id (env ++ [result].zip (s.program.addInner apply (.arith operator) [l, r]
          [s.program.typeOf l]).2)
        rw [Program.addInner_one]
        exact hagree.define hscope
  | ret operands unroll =>
      rcases addOp_ret.1 hs with ⟨_, values, _, hvalues, _, rfl⟩
      have hreads := hagree.getAll hvalues
      rw [List.map_id] at hreads
      refine ⟨values, hreads, fun v hv => Scope.mem_of_getAll hvalues hv, ?_⟩
      have hkind : (BodyOpDesc.ret operands unroll).resultTypes
          (values.map s.program.typeOf) = [] := by
        cases values.map s.program.typeOf <;> rfl
      rw [hkind, Program.ret_eq]
      refine ⟨rfl, ?_⟩
      rw [BodyOpDesc.results, List.zip_nil_left, List.append_nil]
      exact hagree

/-- The operations of a body are added one for one, in order, behind those that are there. -/
theorem realizes_addOps {ops : List BodyOpDesc} :
    ∀ {s : BodyState} {env : Environment} {block : Block}, s.Sound base apply →
      s.scope.Agrees id env → s.program.op? apply = some { o with kind := .apply none block } →
      s.addOps apply args ops = .ok s' →
      ∃ xs, s'.program.RealizesBody apply env ops xs ∧
        s'.program.op? apply =
          some { o with kind := .apply none { block with ops := block.ops ++ xs } } ∧
        s'.program.ops.size = s.program.ops.size + ops.length ∧
        s.program.Extends s'.program (some apply) := by
  induction ops with
  | nil =>
      intro s env block _ _ ho hs
      obtain rfl := addOps_nil.1 hs
      exact ⟨[], .nil, by rw [List.append_nil]; exact ho, rfl, .refl _ _⟩
  | cons op ops ih =>
      intro s env block h hagree ho hs
      obtain ⟨t, ht, hs⟩ := addOps_cons.1 hs
      obtain ⟨operands, hreads, hbound, hprogram, hscope⟩ := addOp_spec hagree ht
      let x : OpId := ⟨s.program.ops.size⟩
      have hx : x ≠ apply := fun he => Nat.lt_irrefl _ (he ▸ op?_lt ho)
      have hdefined : ∀ v ∈ operands, (s.program.originOf v).isSome := fun v hv => by
        obtain ⟨name, hmem⟩ := hbound v hv
        exact (h.inner _ hmem).defined
      obtain ⟨ox, hox, hinner, hresults⟩ := realizes_addInner ho hreads hdefined
      rw [← hprogram] at hox hinner
      rw [← hresults] at hscope
      have happly := op?_addInner_apply op.kind operands
        (op.resultTypes (operands.map s.program.typeOf)) ho
      rw [← hprogram] at happly
      have hfirst : s.program.Extends t.program (some apply) :=
        hprogram ▸ Extends.addInner op.kind operands _
      obtain ⟨xs, hbody, happly', hsize, hrest⟩ := ih (h.addOp ht) hscope happly hs
      have hox' : s'.program.op? x = some ox := hrest.op hox fun he => hx (Option.some.inj he).symm
      refine ⟨x :: xs, .cons hox' (hinner.mono (h.addOp ht).coherent hrest hox) hbody, ?_, ?_,
        hfirst.trans hrest⟩
      · rw [happly', List.append_assoc]
        rfl
      · rw [hsize, hprogram, size_ops_addInner, List.length_cons]
        omega

end BodyState
/-- An operation of a function has been added: it realizes its description, and all else
is as it was. -/
structure FunctionState.Adds (env : Environment) (op : OpDesc) (s s' : FunctionState)
    (o : Operation) : Prop where
  added : s'.program.op? ⟨s.program.ops.size⟩ = some o
  realizes : s'.program.RealizesOp env op o
  agrees : s'.scope.Agrees Named.value (env ++ op.results.zip o.results)
  size : s'.program.ops.size = s.program.ops.size + op.opCount
  functions : s'.program.functions = (s.program.append ⟨s.program.ops.size⟩).functions
  kept : s.program.Extends s'.program none

namespace FunctionState

variable {s s' : FunctionState} {env : Environment}

/-- The results of a closed apply have the elements of what its body returns. -/
theorem returnedBy_of_close {p : Program} {a : OpId} {o t : Operation} {block : Block}
    {unroll : Option Point}
    (hc : p.Coherent)
    (hk : o.kind = .apply none block)
    (hterm : p.terminator? o = some t)
    (hret : t.kind = .ret unroll)
    (hpos : 1 ≤ groupSize unroll)
    (ha : ∀ x ∈ block.ops, x ≠ a) :
    let r := p.newResults a (groupTypes t.operandTypes (groupSize unroll).toNat)
    r.1.ReturnedBy block r.2 := by
  intro r
  have he : p.Extends r.1 (some a) := Extends.newResults _
  rcases Option.bind_eq_some_iff.1 hterm with ⟨z, hz, hoz⟩
  rw [hk] at hz
  have hza : z ≠ a := ha z (List.mem_of_getLast? hz)
  refine ⟨z, t, unroll, hz, he.op hoz fun h => hza (Option.some.inj h).symm, hret, ?_⟩
  intro j v hv
  have htypes := congrArg (·[j]?) (map_typeOf_newResults a
    (groupTypes t.operandTypes (groupSize unroll).toNat) p)
  simp only [List.getElem?_map] at htypes
  rw [hv, Option.map_some] at htypes
  obtain ⟨ty, hty, hv⟩ := getElem?_groupTypes (by omega) htypes.symm
  rw [hc.declared hoz, List.getElem?_map] at hty
  rcases Option.map_eq_some_iff.1 hty with ⟨w, hw, rfl⟩
  rw [← (unrollVolume_of_groupSize hpos).1]
  exact ⟨w, hw, hv.trans (by rw [he.grows.ty (hc.operand hoz w (List.mem_of_getElem? hw))])⟩

theorem realizes_addApply {results operands params : List String} {body : List BodyOpDesc}
    (h : s.Sound)
    (hagree : s.scope.Agrees Named.value env)
    (hs : s.addApply results operands params body = .ok s') :
    ∃ o, Adds env (.apply results operands params body) s s' o := by
  rcases addApply_eq_ok.1 hs with
    ⟨hparams, ns, rank, hns, hrank, scope, b, p, values, scope', hscope, hb, hclose, hcount,
      hscope', rfl⟩
  have hbody := h.body_of_addOps hns hrank hscope hb
  obtain ⟨_, f, hfs, hnamed⟩ := h.named
  have hvisible := Sound.operands_of_operandRank hnamed hns hrank
  have hopened := h.openApply hfs (fun v hv => (hvisible v hv).1) (fun v hv => (hvisible v hv).2)
    hscope
  rw [Program.openApply_op] at hb hclose hbody hopened
  let a : OpId := ⟨s.program.ops.size⟩
  let r := s.program.openApply (ns.map Named.value)
  let o : Operation :=
    { id := a, kind := .apply none { args := r.2.2, ops := [] }, operands := ns.map Named.value
      operandTypes := (ns.map Named.value).map s.program.typeOf, results := [], parent := none }
  have ho : r.1.op? a = some { o with kind := .apply none { args := r.2.2, ops := [] } } :=
    (s.program.op?_openApply (ns.map Named.value) a).trans (if_pos rfl)
  have hnames : scope.Agrees id (params.zip r.2.2) := by
    have hdefined := (Scope.Agrees.empty id).defineAll hscope
    simpa using hdefined
  obtain ⟨xs, hrealizes, hob, hsize, hkept⟩ := BodyState.realizes_addOps hopened hnames
    ho hb
  rw [List.nil_append] at hob
  obtain ⟨o', t, unroll, ho', hterm, hret, hpos, _, rfl, rfl⟩ := closeApply_eq_ok.1 hclose
  obtain rfl := Option.some.inj (hob.symm.trans ho')
  -- What stands in the body names the apply as its parent, and the apply has none.
  have hxs : ∀ x ∈ xs, x ≠ a := by
    intro x hx hxa
    obtain ⟨_, _, _, ox, hox, hinner⟩ := hrealizes.exists_op x hx
    rw [hxa] at hox
    obtain rfl := Option.some.inj (hob.symm.trans hox)
    cases hinner.parent
  let tys := groupTypes t.operandTypes (groupSize unroll).toNat
  have hclosed : b.program.Extends ((b.program.newResults a tys).1.append a) (some a) :=
    (Extends.newResults tys).trans (Extends.append _ a _)
  have hall : s.program.Extends ((b.program.newResults a tys).1.append a) none := by
    have hnone : s.program.op? a = none := by simp [op?, a]
    refine Extends.close ?_ hnone
    have hopen : s.program.Extends r.1 (some a) :=
      ⟨Grows.openApply _ _, fun hu _ => (Extends.openApply _ _).op hu (by rintro ⟨⟩)⟩
    exact (hopen.trans hkept).trans hclosed
  refine ⟨_, (op?_append _ _ _).trans (op?_newResults_self tys hob), ⟨?_, ?_, rfl, ?_⟩, ?_, ?_, ?_,
    hall⟩
  · refine ⟨{ args := r.2.2, ops := xs }, rfl, ?_, ?_, ?_⟩
    · show r.2.2.length = params.length
      rw [openApply_args, List.length_map, List.length_range, List.length_map,
        Scope.length_of_getAll hns, hparams]
    · exact hrealizes.mono hbody.coherent hclosed fun x hx he => hxs x hx (Option.some.inj he).symm
    · exact returnedBy_of_close hbody.coherent rfl hterm hret hpos hxs
  · exact hagree.getAll hns
  · exact hcount
  · have hdefined := hagree.defineAll hscope'
    have hzip : ∀ vs : List ValueId,
        (results.zip (vs.map fun v => ({ value := v, rank := b.rank } : Named))).map
          (fun x => (x.1, Named.value x.2)) = results.zip vs := by
      intro vs
      rw [List.zip_map_right, List.map_map]
      exact List.map_id _
    rw [hzip] at hdefined
    exact hdefined
  · show ((b.program.newResults a tys).1.append a).ops.size = _
    have happend : ((b.program.newResults a tys).1.append a).ops.size = b.program.ops.size :=
      size_ops_newResults a tys b.program
    rw [happend, hsize]
    show r.1.ops.size + body.length = _
    rw [size_ops_openApply, OpDesc.opCount]
    omega
  · refine functions_append_congr ?_ a
    rw [functions_newResults, hbody.functions, functions_openApply]

/-- Each operation of a function is added as it is described. -/
theorem realizes_addOp {op : OpDesc}
    (h : s.Sound)
    (hagree : s.scope.Agrees Named.value env)
    (hs : s.addOp op = .ok s') :
    ∃ o, Adds env op s s' o := by
  cases op with
  | load result field =>
      rcases addLoad_eq_ok.1 hs with ⟨n, scope, hn, hscope, rfl⟩
      let tys := [Ty.temp (s.program.typeOf n.value).element none]
      have hkept := Extends.newOp_append s.program (.load none) [n.value] tys
      have htypes := map_typeOf_newResults ⟨s.program.ops.size⟩ tys
        (s.program.newOp (.load none) [n.value] none).1
      have hone : ((s.program.newOp (.load none) [n.value] none).1.newResults
          ⟨s.program.ops.size⟩ tys).2 = [⟨s.program.values.size⟩] := by
        rw [newResults_one, size_values_newOp]
      rw [load_eq] at hscope ⊢
      have hagree' := hagree.define hscope
      rw [show [(result, (⟨s.program.values.size⟩ : ValueId))] =
        [result].zip [⟨s.program.values.size⟩] from rfl, ← hone] at hagree'
      refine ⟨_, op?_newOp_append s.program (.load none) [n.value] tys,
        ⟨⟨rfl, htypes.trans ?_⟩, ?_, rfl, rfl⟩, hagree',
        size_ops_newOp_append s.program (.load none) [n.value] tys, rfl, hkept⟩
      · exact congrArg (fun ty : Ty => [Ty.temp ty.element none])
          (hkept.grows.ty (h.get_defined hn)).symm
      · exact congrArg (fun v => [v]) (hagree.get hn).symm
  | apply results operands params body => exact realizes_addApply h hagree hs
  | store value field lower upper =>
      rcases addStore_eq_ok.1 hs with ⟨_, v, w, _, _, hv, hw, _, _, rfl⟩
      rw [store_eq]
      refine ⟨_, op?_newOp_append s.program (.store { lower, upper }) [v.value, w.value] [],
        ⟨rfl, ?_, rfl, rfl⟩, ?_,
        size_ops_newOp_append s.program (.store { lower, upper }) [v.value, w.value] [], rfl,
        Extends.newOp_append s.program (.store { lower, upper }) [v.value, w.value] []⟩
      · exact congrArg₂ (fun v w => [v, w]) (hagree.get hv).symm (hagree.get hw).symm
      · rw [OpDesc.results, List.zip_nil_left, List.append_nil]
        exact hagree

/-- The operations of a function are added one for one, in order. -/
theorem realizes_addOps {ops : List OpDesc} :
    ∀ {s : FunctionState} {env : Environment} {fs : List Function} {f : Function}, s.Sound →
      s.scope.Agrees Named.value env → s.program.functions.toList = fs ++ [f] →
      s.addOps ops = .ok s' →
      ∃ us, s'.program.RealizesOps env ops us ∧
        s'.program.functions.toList = fs ++ [{ f with body := f.body ++ us }] ∧
        s'.program.ops.size = s.program.ops.size + (ops.map OpDesc.opCount).sum ∧
        s.program.Extends s'.program none := by
  induction ops with
  | nil =>
      intro s env fs f _ _ hfs hs
      obtain rfl := addOps_nil.1 hs
      exact ⟨[], .nil, by rw [List.append_nil]; exact hfs, rfl, .refl _ _⟩
  | cons op ops ih =>
      intro s env fs f h hagree hfs hs
      obtain ⟨t, ht, hs⟩ := addOps_cons.1 hs
      obtain ⟨o, hadds⟩ := realizes_addOp h hagree ht
      have hft : t.program.functions.toList =
          fs ++ [{ f with body := f.body ++ [⟨s.program.ops.size⟩] }] := by
        rw [hadds.functions]
        exact toList_functions_append _ hfs
      obtain ⟨us, hops, hfunctions, hsize, hkept⟩ := ih (h.addOp ht) hadds.agrees hft hs
      have hadded := hkept.op hadds.added (by rintro ⟨⟩)
      have hrealizes := hadds.realizes.mono (h.addOp ht).coherent hkept hadds.added
      refine ⟨_ :: us, .cons hadded hrealizes hops, ?_, ?_, hadds.kept.trans hkept⟩
      · rw [hfunctions, List.append_assoc]
        rfl
      · rw [hsize, hadds.size, List.map_cons, List.sum_cons, Nat.add_assoc]

end FunctionState

/-- A function of a description is added behind the others. -/
theorem FunctionDesc.realizes_elaborate {f : FunctionDesc} {p q : Program}
    (hc : p.Coherent)
    (hp : p.Scoped)
    (h : f.elaborate p = .ok q) :
    ∃ g, q.functions.toList = p.functions.toList ++ [g] ∧ q.RealizesFunction f g ∧
      (∀ v ∈ g.args, (q.originOf v).isSome) ∧ q.ops.size = p.ops.size + f.opCount ∧
      p.Extends q none := by
  obtain ⟨scope, s, hscope, hs, rfl⟩ := elaborate_eq_ok.1 h
  have hsound := FunctionState.Sound.beginFunction hc hp hscope
  let r := p.beginFunction f.name f.stencil f.argTypes
  have hargs : r.2 = (List.range f.argTypes.length).map fun i => ⟨p.values.size + i⟩ :=
    newArgs_snd none f.argTypes p 0
  have hfunctions : r.1.functions.toList = p.functions.toList ++
      [{ name := f.name, stencil := f.stencil, args := r.2, body := [] }] := by
    simp [r, Program.beginFunction, functions_newArgs]
  have hnames : scope.Agrees Named.value ((f.args.map FieldDesc.name).zip r.2) := by
    have hdefined := (Scope.Agrees.empty Named.value).defineAll hscope
    rw [List.nil_append, argNames, List.map_map] at hdefined
    rw [List.zip_map_left]
    exact hdefined
  have htypes : r.2.map r.1.typeOf = f.argTypes := by
    refine List.ext_getElem? fun i => ?_
    rw [hargs, List.map_map, List.getElem?_map]
    by_cases hi : i < f.argTypes.length
    · have hty := typeOf_newArgs none f.argTypes ⟨p.values.size + i⟩ p 0
      rw [if_neg (by simp), Nat.add_sub_cancel_left, List.getElem?_eq_getElem hi] at hty
      simp only [List.getElem?_range hi, Option.map_some, List.getElem?_eq_getElem hi]
      exact congrArg some hty
    · simp [hi]
  have hdefined : ∀ v ∈ r.2, (r.1.originOf v).isSome := by
    intro v hv
    rw [hargs] at hv
    obtain ⟨i, hi, rfl⟩ := List.mem_map.1 hv
    have hlt := List.mem_range.1 hi
    have horigin : r.1.originOf ⟨p.values.size + i⟩ = some (.arg none (0 + i)) := by
      have htop : ¬ p.values.size + i < p.values.size := by omega
      refine (originOf_newArgs none f.argTypes _ p 0).trans ?_
      simp [hlt, htop]
    rw [horigin]
    rfl
  obtain ⟨us, hops, hbody, hsize, hkept⟩ :=
    FunctionState.realizes_addOps hsound hnames hfunctions hs
  refine ⟨_, hbody, ⟨rfl, rfl, ?_, hops⟩, fun v hv => ?_, ?_,
    (Extends.beginFunction p f.name f.stencil f.argTypes).trans hkept⟩
  · exact (hkept.map_typeOf hdefined).trans htypes
  · rw [hkept.grows.origin (hdefined v hv)]
    exact hdefined v hv
  · have hbegin : r.1.ops = p.ops := ops_newArgs none f.argTypes p 0
    rw [hsize, hbegin, opCount]

/-- The functions of a description are added one for one, in order. -/
theorem realizes_elaborateFunctions {fs : List FunctionDesc} :
    ∀ {p q : Program}, p.Coherent → p.Scoped → elaborateFunctions p fs = (q, []) →
      ∃ gs, q.functions.toList = p.functions.toList ++ gs ∧
        List.Forall₂ q.RealizesFunction fs gs ∧
        q.ops.size = p.ops.size + (fs.map FunctionDesc.opCount).sum ∧ p.Extends q none := by
  induction fs with
  | nil =>
      intro p q _ _ h
      obtain rfl := elaborateFunctions_eq_nil.1 h
      exact ⟨[], (List.append_nil _).symm, .nil, rfl, .refl _ _⟩
  | cons f fs ih =>
      intro p q hc hp h
      obtain ⟨p', hf, h⟩ := elaborateFunctions_eq_nil.1 h
      obtain ⟨hc', hp'⟩ := FunctionDesc.sound_of_elaborate hc hp hf
      obtain ⟨g, hg, hrealizes, hargs, hsize, hkept⟩ := FunctionDesc.realizes_elaborate hc hp hf
      obtain ⟨gs, hgs, hrest, hsize', hkept'⟩ := ih hc' hp' h
      refine ⟨g :: gs, ?_, .cons (hrealizes.mono hc' hkept' hargs) hrest, ?_, hkept.trans hkept'⟩
      · rw [hgs, hg, List.append_assoc]
        rfl
      · rw [hsize', hsize, List.map_cons, List.sum_cons, Nat.add_assoc]

namespace Description

variable {d : Description} {p : Program}

/-- The functions of the program realize those of the description. -/
theorem realizes_functions (h : d.elaborate = .ok p) :
    List.Forall₂ p.RealizesFunction d.functions p.functions.toList ∧ p.ops.size = d.opCount := by
  obtain ⟨gs, hgs, hall, hsize, _⟩ :=
    realizes_elaborateFunctions Coherent.empty Scoped.empty (elaborate_eq_ok.1 h)
  rw [show ({} : Program).functions.toList = [] from rfl, List.nil_append] at hgs
  refine ⟨hgs ▸ hall, hsize.trans ?_⟩
  rw [Description.opCount]
  exact Nat.zero_add _

/-- The program of a description has the functions of the description, and those have its
operations, one for one and in order.  It has no others, none of them stands in two places,
and only stores have bounds. -/
theorem realized (h : d.elaborate = .ok p) :
    List.Forall₂ p.RealizesFunction d.functions p.functions.toList ∧
      p.ops.size = d.opCount ∧
      (∀ u o, p.op? u = some o → ∃ r, ∀ s, (p.opsIn s).count u = if s = r then 1 else 0) ∧
      ∀ u o, p.op? u = some o → o.kind.bounds?.isSome → ∃ b, o.kind = .store b := by
  obtain ⟨hfunctions, hsize⟩ := realizes_functions h
  refine ⟨hfunctions, hsize, fun u o ho => ?_, fun u o ho hb => ?_⟩
  · obtain ⟨r, _, hcount⟩ := (sound_of_elaborate h).exact.placed u o ho List.not_mem_nil
    exact ⟨r, hcount⟩
  have hshaped : o.kind.isShaped = true := by
    cases hk : o.kind with
    | load b => rfl
    | apply b body => rfl
    | store b => rfl
    | _ =>
        rw [hk] at hb
        cases hb
  refine OpKind.exists_store hshaped ?_
  by_contra hinf
  rw [(scoped_of_elaborate h).fresh ho (by simpa using hinf)] at hb
  cases hb

theorem realized_smoothing :
    List.Forall₂ Program.smoothing.RealizesFunction Description.smoothing.functions
        Program.smoothing.functions.toList ∧
      Program.smoothing.ops.size = 8 ∧
      (∀ u o, Program.smoothing.op? u = some o →
        ∃ r, ∀ s, (Program.smoothing.opsIn s).count u = if s = r then 1 else 0) ∧
      ∀ u o, Program.smoothing.op? u = some o → o.kind.bounds?.isSome → ∃ b, o.kind = .store b :=
  realized Program.elaborate_smoothing

end Description
end StencilShapes
