import StencilShapes.Proofs.Domain.Suffix

/-!
# What inference writes

A commit writes the bounds of its operation.  Then each result gets its shape, and the type
goes where the result is read: to what shaped operations declare for it, and through an
apply to the argument that stands for it.  Nothing else is written, and elements stay as
they are.

Nothing is asked of the program but that its accounts agree: values may flow between
functions, and bodies may read what is none of their arguments.

**Results.**
* `Program.inferFunctions_lists`: what each step adds to a list, a run adds.
* `Program.typeOf_retype_cases`: the values that follow one that is retyped.
* `Program.Writes.inferOp`: what one step writes.
* `Program.writes_of_inferShapes`: what a run writes.
-/

namespace StencilShapes

/-- The value without its type. -/
def Value.frame (w : Value) : Value :=
  { w with ty := default }

namespace Program

section Runs

variable {t : ExtentTable} {P : List Inferred → Program → Prop}

/-- What each step adds to a list, a run adds. -/
theorem inferOps_lists {name : String} {us : List OpId}
    (hstep : ∀ {listed q q' name u o i}, P listed q → q.op? u = some o →
      q.inferOp t name o = .ok (q', i) → P (listed ++ [i]) q') :
    ∀ {listed : List Inferred} {p : Program}, P listed p →
      P (listed ++ (p.inferOps t name us).inferred) (p.inferOps t name us).program := by
  induction us with
  | nil =>
      intro listed p h
      rwa [inferOps, List.append_nil]
  | cons u us ih =>
      intro listed p h
      rw [inferOps]
      split
      · exact ih h
      · next o ho =>
          split
          · split
            · rwa [List.append_nil]
            · next q i hok =>
                have hrest := ih (hstep h ho hok)
                rwa [List.append_assoc] at hrest
          · exact ih h

theorem inferFunctions_lists {fs : List Function}
    (hstep : ∀ {listed q q' name u o i}, P listed q → q.op? u = some o →
      q.inferOp t name o = .ok (q', i) → P (listed ++ [i]) q') :
    ∀ {listed : List Inferred} {p : Program}, P listed p →
      P (listed ++ (p.inferFunctions t fs).1.inferred) (p.inferFunctions t fs).1.program := by
  induction fs with
  | nil =>
      intro listed p h
      rwa [inferFunctions, List.append_nil]
  | cons f fs ih =>
      intro listed p h
      have hf : P (listed ++ (p.inferFunction t f).inferred) (p.inferFunction t f).program :=
        inferOps_lists hstep h
      simp only [inferFunctions]
      split
      · split
        · exact hf
        · have hrest := ih hf
          rwa [List.append_assoc] at hrest
      · exact ih h

theorem inferShapes_lists {p : Program}
    (h : P [] p)
    (hstep : ∀ {listed q q' name u o i}, P listed q → q.op? u = some o →
      q.inferOp t name o = .ok (q', i) → P (listed ++ [i]) q') :
    P (p.inferShapes t).2.1.inferred (p.inferShapes t).1 :=
  inferFunctions_lists hstep h

end Runs

/-- The value itself, or an argument of a body that stands for it. -/
def Follows (p : Program) (v w : ValueId) : Prop :=
  w = v ∨ ∃ a k o, p.originOf w = some (.arg (some a) k) ∧ p.op? a = some o ∧
    o.operands[k]? = some v

/-- A result of an operation that is listed. -/
def ResultOf (p : Program) (listed : List Inferred) (v : ValueId) : Prop :=
  ∃ i ∈ listed, ∃ o, p.op? i.op = some o ∧ v ∈ o.results

section Retyping

variable {p q : Program} {v w : ValueId}

/-- What stands for a value has its type. -/
theorem Follows.typeOf_eq (h : p.Follows v w) (hc : p.Coherent) : p.typeOf w = p.typeOf v := by
  rcases h with rfl | ⟨a, k, o, horigin, ho, hv⟩
  · rfl
  · obtain ⟨o', body, ho', hbody, hw⟩ := hc.arg.1 horigin
    obtain rfl : o = o' := Option.some.inj (ho.symm.trans ho')
    have htypes := congrArg (·[k]?) ((hc.arg_types ho hbody).trans (hc.declared ho))
    simpa [hw, hv] using htypes

/-- When a value is retyped, its type goes to what follows it and to no other value. -/
theorem typeOf_retype_cases (hc : p.Coherent) (hframe : p.SameFrame q) (v w : ValueId) (ty : Ty) :
    ((q.setType v ty).retypeUses ty (q.usesOf v)).typeOf w = q.typeOf w ∨
      ((q.setType v ty).retypeUses ty (q.usesOf v)).typeOf w = ty ∧ p.Follows v w := by
  let q₁ := q.setType v ty
  have hframe₁ : p.SameFrame q₁ := hframe.trans (sameFrame_setType q v ty)
  by_cases hw : (p.originOf w).isSome
  · have hw₁ : (q₁.originOf w).isSome := by rwa [hframe₁.origin]
    obtain ⟨hin, hout, _⟩ := typeOf_retypeUses ty (q.usesOf v) hw₁
    by_cases harg : ∃ use ∈ q.usesOf v, q₁.bodyArg? use.user use.operand = some w
    · -- The argument stands for the operand at which the value is read.
      obtain ⟨⟨u, k⟩, huse, harg⟩ := harg
      have horigin := Typed.bodyArg_isInner hc hframe₁ harg
      obtain ⟨o, body, ho, hbody, _⟩ := bodyArg?_eq_some.1 harg
      obtain ⟨o', ho', hread⟩ := hc.mem_uses.1 (hframe.uses ▸ huse)
      exact .inr ⟨hin ⟨_, huse, ⟨o, ho, OpKind.isShaped_of_body? hbody⟩, harg⟩,
        .inr ⟨u, k, o', horigin, ho', hread⟩⟩
    · have hkeep := hout fun use huse he => harg ⟨use, huse, he⟩
      have hset := typeOf_setType q v ty w (by rwa [hframe.origin])
      rw [hkeep, hset]
      split
      · next heq => exact .inr ⟨rfl, .inl heq⟩
      · exact .inl rfl
  · -- What is not there has no type of its own.
    have hnone : ∀ {r : Program}, p.SameFrame r → r.typeOf w = default := fun {r} hr => by
      have horigin : r.originOf w = none := by
        rw [hr.origin]
        exact Option.not_isSome_iff_eq_none.1 hw
      rw [originOf, Option.map_eq_none_iff] at horigin
      rw [typeOf, horigin]
      rfl
    exact .inl ((hnone (hframe₁.trans (sameFrame_retypeUses ty _ q₁))).trans (hnone hframe).symm)

end Retyping

/-- Beside the bounds of what is listed, only types have been written: those of results of
listed operations, of the arguments that stand for these, and what shaped operations declare
for them.  Elements are as they were. -/
structure Writes (p : Program) (listed : List Inferred) (q : Program) : Prop where
  frame : p.SameFrame q
  element : ∀ w, (q.typeOf w).element = (p.typeOf w).element
  types : ∀ w, (∀ v, p.ResultOf listed v → ¬ p.Follows v w) → q.typeOf w = p.typeOf w
  /-- Declared types keep their number and their elements. -/
  declared_element : ∀ {u o o'}, p.op? u = some o → q.op? u = some o' →
    o'.operandTypes.map Ty.element = o.operandTypes.map Ty.element
  declared : ∀ {u o o'} {k : Nat}, p.op? u = some o → q.op? u = some o' →
    (o.kind.isShaped = true → ∀ v, o.operands[k]? = some v → ¬ p.ResultOf listed v) →
    o'.operandTypes[k]? = o.operandTypes[k]?

namespace Writes

variable {p q q' : Program} {listed : List Inferred}

theorem refl (p : Program) : p.Writes [] p where
  frame := SameFrame.refl p
  element _ := rfl
  types _ _ := rfl
  declared_element ho ho' := by rw [Option.some.inj (ho.symm.trans ho')]
  declared ho ho' _ := by rw [Option.some.inj (ho.symm.trans ho')]

/-- More may be listed than has been written. -/
theorem append (h : p.Writes listed q) (more : List Inferred) : p.Writes (listed ++ more) q := by
  have hmono : ∀ {v}, p.ResultOf listed v → p.ResultOf (listed ++ more) v := fun {v} hv => by
    obtain ⟨i, hi, hres⟩ := hv
    exact ⟨i, List.mem_append_left more hi, hres⟩
  exact ⟨h.frame, h.element, fun w hw => h.types w fun v hv => hw v (hmono hv),
    h.declared_element, fun ho ho' hk => h.declared ho ho' fun hs v hv hres =>
      hk hs v hv (hmono hres)⟩

theorem commit {u : OpId} {b : Bounds}
    (h : p.Writes listed q)
    (hcommit : q.commit u b = .ok q') :
    p.Writes listed q' := by
  refine ⟨h.frame.trans (sameFrame_commit hcommit), ?_, ?_, fun ho ho' => ?_, fun ho ho' hk => ?_⟩
  · rw [typeOf_commit hcommit]
    exact h.element
  · rw [typeOf_commit hcommit]
    exact h.types
  · obtain ⟨o, hq, _, _, htys⟩ := exists_op_of_commit hcommit ho'
    rw [htys]
    exact h.declared_element ho hq
  · obtain ⟨o, hq, _, _, htys⟩ := exists_op_of_commit hcommit ho'
    rw [htys]
    exact h.declared ho hq hk

/-- What is declared for an operand has the element that the operand was built with. -/
theorem element_of_operand {u : OpId} {o : Operation} {k : Nat} {v : ValueId}
    (h : p.Writes listed q)
    (hc : p.Coherent)
    (ho : q.op? u = some o)
    (hread : o.operands[k]? = some v) :
    (o.operandTypes[k]?).map Ty.element = some (p.typeOf v).element := by
  obtain ⟨o', ho', _, _, hoperands, _⟩ := h.frame.symm.exists_op ho
  have hslot := congrArg (·[k]?) (h.declared_element ho' ho)
  simp only [List.getElem?_map] at hslot
  rw [hslot, hc.declared ho', List.getElem?_map, hoperands, hread]
  rfl

/-- A result of a listed operation gets a shape, and what reads it follows. -/
theorem retype {v : ValueId} {e : Element} {s : Option Point}
    (h : p.Writes listed q)
    (hc : p.Coherent)
    (hv : p.ResultOf listed v)
    (hty : q.typeOf v = .temp e s)
    (shape : Point) :
    p.Writes listed ((q.setType v (.temp e (some shape))).retypeUses (.temp e (some shape))
      (q.usesOf v)) := by
  have he : (p.typeOf v).element = e := by
    rw [← h.element v, hty]
    rfl
  have hframe := (h.frame.trans (sameFrame_setType q v (.temp e (some shape)))).trans
    (sameFrame_retypeUses (.temp e (some shape)) (q.usesOf v) _)
  constructor
  case frame => exact hframe
  case element =>
    intro w
    rcases typeOf_retype_cases hc h.frame v w (.temp e (some shape)) with hkeep | ⟨hnew, hw⟩
    · rw [hkeep]
      exact h.element w
    · rw [hnew, hw.typeOf_eq hc, he]
      rfl
  case types =>
    intro w hw
    rcases typeOf_retype_cases hc h.frame v w (.temp e (some shape)) with hkeep | ⟨_, hfollows⟩
    · rw [hkeep]
      exact h.types w hw
    · exact absurd hfollows (hw v hv)
  case declared_element =>
    intro u o o' ho ho'
    obtain ⟨o₁, ho₁, _, _, htys⟩ := Typed.op_retype hc h.frame _ ho'
    rw [← h.declared_element ho ho₁]
    refine List.ext_getElem? fun k => ?_
    rw [List.getElem?_map, List.getElem?_map, htys]
    split
    · next hread =>
        -- The slot belongs to the value, so it had the element of the value.
        have hslot := h.element_of_operand hc ho₁ hread.2
        rw [hslot, he]
        cases hk : o₁.operandTypes[k]? with
        | none => simp [hk] at hslot
        | some ty => rfl
    · rfl
  case declared =>
    intro u o o' k ho ho' hk
    obtain ⟨o₁, ho₁, _, _, htys⟩ := Typed.op_retype hc h.frame _ ho'
    obtain ⟨_, hkind, hops, _⟩ := h.frame.op_eq ho ho₁
    have hnot : ¬ (o₁.kind.isShaped = true ∧ o₁.operands[k]? = some v) := by
      rintro ⟨hs, hread⟩
      rw [OpKind.isShaped_eq_of_frame hkind] at hs
      exact hk hs v (hops ▸ hread) hv
    rw [htys, if_neg hnot]
    exact h.declared ho ho₁ hk

theorem retypeResults {shape : Point} {vs : List ValueId} (hc : p.Coherent) :
    ∀ {q : Program}, p.Writes listed q → (∀ v ∈ vs, p.ResultOf listed v) →
      p.Writes listed (q.retypeResults shape vs) := by
  induction vs with
  | nil => exact fun h _ => h
  | cons v vs ih =>
      intro q h hvs
      have hrest := fun w hw => hvs w (List.mem_cons_of_mem v hw)
      rw [Program.retypeResults]
      split
      · next hty => exact ih (h.retype hc (hvs v List.mem_cons_self) hty shape) hrest
      · exact ih h hrest

/-- A step writes what belongs to the operation that it lists. -/
theorem inferOp {t : ExtentTable} {name : String} {u : OpId} {o : Operation} {i : Inferred}
    (h : p.Writes listed q)
    (hc : p.Coherent)
    (ho : q.op? u = some o)
    (hok : q.inferOp t name o = .ok (q', i)) :
    p.Writes (listed ++ [i]) q' := by
  obtain ⟨b, shape, q₁, _, _, hcommit, rfl, rfl⟩ := inferOp_eq_ok.1 hok
  refine ((h.append _).commit hcommit).retypeResults hc fun v hv => ?_
  obtain ⟨o', ho', _, _, _, hresults⟩ := h.frame.symm.exists_op ho
  have hu : o.id = u := h.frame.op_id hc.op_id ho
  exact ⟨_, List.mem_append_right listed List.mem_cons_self, o', hu ▸ ho', hresults ▸ hv⟩

end Writes

/-- A run writes what belongs to the operations that it lists. -/
theorem writes_of_inferShapes {p : Program} {t : ExtentTable} (hc : p.Coherent) :
    p.Writes (p.inferShapes t).2.1.inferred (p.inferShapes t).1 :=
  inferShapes_lists (Writes.refl p) fun h ho hok => h.inferOp hc ho hok

end Program
end StencilShapes
