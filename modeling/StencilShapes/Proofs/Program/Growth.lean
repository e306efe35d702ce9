import StencilShapes.Proofs.Program.Coherence

/-!
# Growth, outer and inner values, and ranks

A program grows when it keeps what it has: the origins and types of its values,
and the operands and kinds of its operations up to what stands in their bodies.
Outer values flow between the operations of a function, inner values stay in the
body of an apply.  An outer value has a rank, which is declared for an argument
and is inherited from the first operand by a result.

**Results.**
* `Program.HasRank.unique`: a value has one rank at most.
* `Program.HasRank.mono`, `Program.IsOuter.mono`, `Program.IsInner.mono`: growth
  keeps ranks, outer values and inner values.
-/

namespace StencilShapes

namespace OpKind

/-- The kind without what stands in its body. -/
def head : OpKind → OpKind
  | .apply bounds _ => .apply bounds { args := [], ops := [] }
  | k => k

/-- The offset of an access, or the unroll of a return. -/
def point? : OpKind → Option Point
  | .access offset => some offset
  | .ret unroll => unroll
  | _ => none

@[simp] theorem head_appendInner (op : OpId) (k : OpKind) :
    (k.appendInner op).head = k.head := by
  cases k <;> rfl

theorem isShaped_head (k : OpKind) : k.head.isShaped = k.isShaped := by
  cases k <;> rfl

theorem isInferable_head (k : OpKind) : k.head.isInferable = k.isInferable := by
  cases k <;> rfl

theorem bounds?_head (k : OpKind) : k.head.bounds? = k.bounds? := by
  cases k <;> rfl

theorem point?_head (k : OpKind) : k.head.point? = k.point? := by
  cases k <;> rfl

theorem isShaped_of_isInferable {k : OpKind} (h : k.isInferable = true) :
    k.isShaped = true := by
  cases k <;> first | rfl | exact h

/-- What has a body is an apply. -/
theorem isShaped_of_body? {k : OpKind} {body : Block} (h : k.body? = some body) :
    k.isShaped = true := by
  cases k <;> first | rfl | cases h

theorem body?_eq_none {k : OpKind} (h : k.isShaped = false) : k.body? = none := by
  cases k <;> first | rfl | cases h

/-- A shaped operation that is not inferable is a store. -/
theorem exists_store {k : OpKind} (hs : k.isShaped = true) (hk : k.isInferable = false) :
    ∃ b, k = .store b := by
  cases k with
  | store b => exact ⟨b, rfl⟩
  | load b => cases hk
  | apply b body => cases hk
  | _ => cases hs

end OpKind

namespace Program

/-- A value that flows between the operations of a function. -/
def IsOuter (p : Program) (v : ValueId) : Prop :=
  (∃ j, p.originOf v = some (.arg none j)) ∨
    ∃ u j o, p.originOf v = some (.result u j) ∧ p.op? u = some o ∧ o.kind.isShaped = true

/-- A value that stays in the body of an apply. -/
def IsInner (p : Program) (v : ValueId) : Prop :=
  (∃ a j, p.originOf v = some (.arg (some a) j)) ∨
    ∃ u j o, p.originOf v = some (.result u j) ∧ p.op? u = some o ∧ o.kind.isShaped = false

/-- The rank of an outer value: that of the field, or that of the first operand of
the operation that defines it. -/
inductive HasRank (p : Program) : ValueId → Nat → Prop
  | arg {v : ValueId} {j rank : Nat} {element : Element} :
      p.originOf v = some (.arg none j) →
      p.typeOf v = .field element rank →
      HasRank p v rank
  | result {v x : ValueId} {u : OpId} {j rank : Nat} {o : Operation} :
      p.originOf v = some (.result u j) →
      p.op? u = some o →
      o.kind.isInferable = true →
      o.operands.head? = some x →
      HasRank p x rank →
      HasRank p v rank

theorem HasRank.unique {p : Program} {v : ValueId} {r s : Nat}
    (hr : p.HasRank v r) (hs : p.HasRank v s) :
    r = s := by
  induction hr with
  | arg horigin hty =>
      cases hs with
      | arg _ hty' =>
          rw [hty] at hty'
          cases hty'
          rfl
      | result horigin' =>
          rw [horigin] at horigin'
          cases horigin'
  | result horigin ho _ hx _ ih =>
      cases hs with
      | arg horigin' _ =>
          rw [horigin] at horigin'
          cases horigin'
      | result horigin' ho' _ hx' hs =>
          rw [horigin] at horigin'
          cases horigin'
          rw [ho] at ho'
          cases ho'
          rw [hx] at hx'
          cases hx'
          exact ih hs

/-- The rank of a result is the rank of the first operand. -/
theorem HasRank.head {p : Program} {v : ValueId} {u : OpId} {j r : Nat} {o : Operation}
    (h : p.HasRank v r) (horigin : p.originOf v = some (.result u j)) (ho : p.op? u = some o) :
    ∃ x, o.operands.head? = some x ∧ p.HasRank x r := by
  cases h with
  | arg horigin' _ =>
      rw [horigin] at horigin'
      cases horigin'
  | result horigin' ho' _ hx hr =>
      rw [horigin] at horigin'
      cases horigin'
      rw [ho] at ho'
      cases ho'
      exact ⟨_, hx, hr⟩

theorem IsOuter.defined {p : Program} {v : ValueId} (h : p.IsOuter v) :
    (p.originOf v).isSome := by
  rcases h with ⟨_, h⟩ | ⟨_, _, _, h, _⟩ <;> rw [h] <;> rfl

theorem IsInner.defined {p : Program} {v : ValueId} (h : p.IsInner v) :
    (p.originOf v).isSome := by
  rcases h with ⟨_, _, h⟩ | ⟨_, _, _, h, _⟩ <;> rw [h] <;> rfl

theorem IsInner.not_isOuter {p : Program} {v : ValueId} (h : p.IsInner v) :
    ¬ p.IsOuter v := by
  rcases h with ⟨_, _, h⟩ | ⟨_, _, o, h, ho, hk⟩
  · rintro (⟨_, h'⟩ | ⟨_, _, _, h', _⟩) <;> rw [h] at h' <;> cases h'
  · rintro (⟨_, h'⟩ | ⟨_, _, o', h', ho', hk'⟩)
    · rw [h] at h'
      cases h'
    · rw [h] at h'
      cases h'
      rw [ho] at ho'
      cases ho'
      rw [hk] at hk'
      cases hk'

/-- A program that keeps what another one has. -/
structure Grows (p q : Program) : Prop where
  origin : ∀ {v}, (p.originOf v).isSome → q.originOf v = p.originOf v
  ty : ∀ {v}, (p.originOf v).isSome → q.typeOf v = p.typeOf v
  /-- Operations are kept, up to their results and what stands in their bodies. -/
  op : ∀ {u o}, p.op? u = some o →
    ∃ o', q.op? u = some o' ∧ o'.operands = o.operands ∧ o'.kind.head = o.kind.head

namespace Grows

theorem refl (p : Program) : p.Grows p :=
  ⟨fun _ => rfl, fun _ => rfl, fun ho => ⟨_, ho, rfl, rfl⟩⟩

theorem trans {p q r : Program} (hpq : p.Grows q) (hqr : q.Grows r) : p.Grows r where
  origin hv := by
    have hv' := hpq.origin hv
    rw [hqr.origin (by rw [hv']; exact hv), hv']
  ty hv := by
    have hv' := hpq.origin hv
    rw [hqr.ty (by rw [hv']; exact hv), hpq.ty hv]
  op ho := by
    obtain ⟨o', ho', hops, hkind⟩ := hpq.op ho
    obtain ⟨o'', ho'', hops', hkind'⟩ := hqr.op ho'
    exact ⟨o'', ho'', hops'.trans hops, hkind'.trans hkind⟩

/-- Growth keeps which operations are shaped. -/
theorem isShaped {p q : Program} {u : OpId} {b : Bool}
    (hg : p.Grows q)
    (h : ∃ o, p.op? u = some o ∧ o.kind.isShaped = b) :
    ∃ o, q.op? u = some o ∧ o.kind.isShaped = b := by
  rcases h with ⟨o, ho, hk⟩
  obtain ⟨o', ho', _, hkind⟩ := hg.op ho
  refine ⟨o', ho', ?_⟩
  rw [← OpKind.isShaped_head, hkind, OpKind.isShaped_head, hk]

theorem append (p : Program) (op : OpId) : p.Grows (p.append op) :=
  ⟨fun _ => rfl, fun _ => rfl, fun ho => ⟨_, ho, rfl, rfl⟩⟩

theorem newOp (p : Program) (kind : OpKind) (operands : List ValueId)
    (parent : Option OpId) :
    p.Grows (p.newOp kind operands parent).1 where
  origin _ := originOf_newOp _ _ _ _ _
  ty _ := by rw [typeOf_newOp]
  op ho := ⟨_, op?_newOp_old kind operands parent ho, rfl, rfl⟩

theorem newResult (p : Program) (op : OpId) (ty : Ty) : p.Grows (p.newResult op ty).1 where
  origin hv := by rw [originOf_newResult, if_neg (Nat.ne_of_lt (p.originOf_isSome.1 hv))]
  ty hv := by rw [typeOf_newResult, if_neg (Nat.ne_of_lt (p.originOf_isSome.1 hv))]
  op {u o} ho := by
    rw [op?_newResult, ho]
    split
    · exact ⟨_, rfl, rfl, rfl⟩
    · exact ⟨_, rfl, rfl, rfl⟩

theorem newResults (op : OpId) (tys : List Ty) :
    ∀ p : Program, p.Grows (p.newResults op tys).1 := by
  induction tys with
  | nil => exact Grows.refl
  | cons ty tys ih => exact fun p => (Grows.newResult p op ty).trans (ih (p.newResult op ty).1)

theorem appendToBody (p : Program) (apply op : OpId) : p.Grows (p.appendToBody apply op) where
  origin _ := rfl
  ty _ := rfl
  op {u o} ho := by
    rw [op?_appendToBody, ho]
    split
    · exact ⟨_, rfl, rfl, OpKind.head_appendInner op o.kind⟩
    · exact ⟨_, rfl, rfl, rfl⟩

theorem newArgs (p : Program) (owner : Option OpId) (index : Nat) (tys : List Ty) :
    p.Grows (p.newArgs owner index tys).1 where
  origin hv := by rw [originOf_newArgs, if_pos (p.originOf_isSome.1 hv)]
  ty hv := by rw [typeOf_newArgs, if_pos (p.originOf_isSome.1 hv)]
  op ho := ⟨_, by rw [op?_newArgs, ho], rfl, rfl⟩

theorem beginFunction (p : Program) (name : String) (stencil : Bool) (tys : List Ty) :
    p.Grows (p.beginFunction name stencil tys).1 :=
  ⟨(newArgs p none 0 tys).origin, (newArgs p none 0 tys).ty, (newArgs p none 0 tys).op⟩

theorem openApply (p : Program) (operands : List ValueId) :
    p.Grows (p.openApply operands).1 where
  origin hv := by rw [originOf_openApply, if_pos (p.originOf_isSome.1 hv)]
  ty hv := by rw [typeOf_openApply, if_pos (p.originOf_isSome.1 hv)]
  op ho := ⟨_, by rw [op?_openApply, if_neg (Nat.ne_of_lt (op?_lt ho)), ho], rfl, rfl⟩

end Grows

/-- New results come from their operation. -/
theorem exists_originOf_newResults {op : OpId} {v : ValueId} (tys : List Ty) :
    ∀ {p : Program}, v ∈ (p.newResults op tys).2 →
      ∃ j, (p.newResults op tys).1.originOf v = some (.result op j) := by
  induction tys with
  | nil =>
      intro p hv
      cases hv
  | cons ty tys ih =>
      intro p hv
      rcases List.mem_cons.1 hv with rfl | hv
      · have hnew : (p.newResult op ty).1.originOf (p.newResult op ty).2 =
            some (.result op ((p.op? op).elim 0 (·.results.length))) := by
          rw [newResult_snd, originOf_newResult, if_pos rfl]
        have hdef : ((p.newResult op ty).1.originOf (p.newResult op ty).2).isSome := by
          rw [hnew]
          rfl
        exact ⟨_, ((Grows.newResults op tys _).origin hdef).trans hnew⟩
      · exact ih hv

theorem IsOuter.mono {p q : Program} {v : ValueId} (hg : p.Grows q) (h : p.IsOuter v) :
    q.IsOuter v := by
  have hv := hg.origin h.defined
  rcases h with ⟨j, h⟩ | ⟨u, j, o, h, ho, hk⟩
  · exact Or.inl ⟨j, hv.trans h⟩
  · obtain ⟨o', ho', hk'⟩ := hg.isShaped ⟨o, ho, hk⟩
    exact Or.inr ⟨u, j, o', hv.trans h, ho', hk'⟩

theorem IsInner.mono {p q : Program} {v : ValueId} (hg : p.Grows q) (h : p.IsInner v) :
    q.IsInner v := by
  have hv := hg.origin h.defined
  rcases h with ⟨a, j, h⟩ | ⟨u, j, o, h, ho, hk⟩
  · exact Or.inl ⟨a, j, hv.trans h⟩
  · obtain ⟨o', ho', hk'⟩ := hg.isShaped ⟨o, ho, hk⟩
    exact Or.inr ⟨u, j, o', hv.trans h, ho', hk'⟩

theorem HasRank.mono {p q : Program} {v : ValueId} {r : Nat} (hg : p.Grows q)
    (h : p.HasRank v r) :
    q.HasRank v r := by
  induction h with
  | @arg w _ _ _ horigin hty =>
      have hv : (p.originOf w).isSome := by rw [horigin]; rfl
      exact .arg ((hg.origin hv).trans horigin) ((hg.ty hv).trans hty)
  | @result w _ _ _ _ _ horigin ho hk hx _ ih =>
      have hv : (p.originOf w).isSome := by rw [horigin]; rfl
      obtain ⟨o', ho', hops, hkind⟩ := hg.op ho
      refine .result ((hg.origin hv).trans horigin) ho' ?_ (hops ▸ hx) ih
      rw [← OpKind.isInferable_head, hkind, OpKind.isInferable_head, hk]

end Program
end StencilShapes
