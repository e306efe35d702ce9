import StencilShapes.Proofs.Description.OperandKinds
import StencilShapes.Proofs.Description.Rearranging

/-!
# Kinds, offsets and unroll, as they are described

Of what kind an operation is, and where the body of an apply reads an operand, is said by its
description: parameters stand for operands by their position, and an access names a parameter.
The unroll is that of the return at the end.

**Results.**
* `Program.RealizesContents.exists_kind`: the kind of an operation.
* `Program.Described.mem_offsetsAt`: the offsets at which a body reads.
* `Program.Described.unroll_eq`: the unroll of a body.
-/

namespace StencilShapes

open Program

/-- The unroll that an operation of a body carries. -/
def BodyOpDesc.unroll? : BodyOpDesc → Option Point
  | .ret _ unroll => unroll
  | _ => none

namespace OpDesc

/-- The offsets at which the body reads the operand of a name. -/
def offsetsOf : OpDesc → String → Set Point
  | .apply _ operands params body, name =>
      {offset | ∃ result param, .access result param offset ∈ body ∧
        (param, name) ∈ params.zip operands}
  | _, _ => ∅

/-- The unroll of the return at the end of the body. -/
def unroll? : OpDesc → Option Point
  | .apply _ _ _ body => body.getLast?.bind BodyOpDesc.unroll?
  | _ => none

/-- The box that a store writes. -/
def bounds? : OpDesc → Option Bounds
  | .store _ _ lower upper => some { lower, upper }
  | _ => none

/-- The operation is a load or an apply, so that its domain is inferred. -/
def isInferable : OpDesc → Bool
  | .store _ _ _ _ => false
  | _ => true

/-- The kind of the operation, where `block` is its body. -/
def kindWith (block : Block) : OpDesc → OpKind
  | .load _ _ => .load none
  | .apply _ _ _ _ => .apply none block
  | .store _ _ lower upper => .store { lower, upper }

end OpDesc

/-- The parameters of a body are distinct and as many as the operands, and accesses read no
other names. -/
theorem Description.params_of_elaborate {d : Description} {p : Program} {i : Nat}
    {results operands params : List String} {body : List BodyOpDesc}
    (h : d.elaborate = .ok p)
    (hop : .apply results operands params body ∈ d.opsOf i) :
    params.length = operands.length ∧ params.Nodup ∧
      ∀ op ∈ body, ∀ param, op.param? = some param → param ∈ params := by
  cases hf : d.functions[i]? with
  | none =>
      rw [opsOf, hf] at hop
      cases hop
  | some f =>
      rw [opsOf, hf] at hop
      obtain ⟨hcount, rank, _, hbody⟩ :=
        (wellFormed_of_elaborate h f (List.mem_of_getElem? hf)).ops _ hop
      exact ⟨hcount, hbody.inOrder.distinct.of_append_left,
        fun op hmem => (hbody.fits op hmem).param⟩

namespace Program

variable {p : Program}

section Kinds

variable {op : OpDesc} {o : Operation}

theorem RealizesContents.exists_kind (h : p.RealizesContents o op) :
    ∃ block, o.kind = op.kindWith block := by
  cases op with
  | load => exact ⟨{ args := [], ops := [] }, h.1⟩
  | apply =>
      obtain ⟨block, hk, _⟩ := h
      exact ⟨block, hk⟩
  | store => exact ⟨{ args := [], ops := [] }, h⟩

theorem RealizesContents.isShaped (h : p.RealizesContents o op) :
    o.kind.isShaped = true := by
  obtain ⟨block, hk⟩ := h.exists_kind
  rw [hk]
  cases op <;> rfl

theorem RealizesContents.isInferable (h : p.RealizesContents o op) :
    o.kind.isInferable = op.isInferable := by
  obtain ⟨block, hk⟩ := h.exists_kind
  rw [hk]
  cases op <;> rfl

theorem RealizesContents.bounds? (h : p.RealizesContents o op) :
    o.kind.bounds? = op.bounds? := by
  obtain ⟨block, hk⟩ := h.exists_kind
  rw [hk]
  cases op <;> rfl

end Kinds

/-- Each description has an operation, which realizes it in an environment that begins with
the one from the start. -/
theorem Realizes.exists_more {α : Type} {results : α → List String}
    {one : Environment → α → Operation → Prop} {env : Environment} {ops : List α}
    {us : List OpId}
    (h : p.Realizes results one env ops us) :
    ∀ {k : Nat} {op : α}, ops[k]? = some op →
      ∃ u o more, us[k]? = some u ∧ p.op? u = some o ∧ one (env ++ more) op o := by
  induction h with
  | nil => rintro k op ⟨⟩
  | @cons env _ _ u _ o ho hone _ ih =>
      intro k op hop
      cases k with
      | zero =>
          cases hop
          exact ⟨u, o, [], rfl, ho, (List.append_nil env).symm ▸ hone⟩
      | succ k =>
          obtain ⟨u, o, more, hu, ho, hone⟩ := ih hop
          exact ⟨u, o, _, hu, ho, List.append_assoc env _ more ▸ hone⟩

namespace RealizesBody

variable {a : OpId} {params : List String} {args : List ValueId} {body : List BodyOpDesc}
  {xs : List OpId} {offset : Point} {arg : ValueId}

/-- The accesses of a body are those that are described, and read the arguments at the
positions of their parameters. -/
theorem access_iff
    (h : p.RealizesBody a (params.zip args) body xs)
    (hlength : args.length = params.length)
    (hnodup : params.Nodup)
    (hparams : ∀ op ∈ body, ∀ param, op.param? = some param → param ∈ params) :
    (∃ x ∈ xs, ∃ ox, p.op? x = some ox ∧ ox.kind = .access offset ∧
        ox.operands.head? = some arg) ↔
      ∃ result param, .access result param offset ∈ body ∧ (param, arg) ∈ params.zip args := by
  -- What an access that is described reads.
  have hread : ∀ {result param more} {o : Operation}, .access result param offset ∈ body →
      p.RealizesInner a (params.zip args ++ more) (.access result param offset) o →
      ∃ arg, o.operands = [arg] ∧ (param, arg) ∈ params.zip args := by
    intro result param more o hmem hinner
    have hoperands := hinner.operands
    obtain ⟨arg, harg⟩ := List.length_eq_one_iff.1 (show o.operands.length = 1 by
      simpa [BodyOpDesc.reads] using congrArg List.length hoperands)
    rw [harg] at hoperands
    exact ⟨arg, harg, Description.mem_zip_of_meaning_param hlength (hparams _ hmem param rfl)
      (List.cons.inj hoperands).1.symm⟩
  constructor
  · rintro ⟨x, hx, ox, hox, hk, harg⟩
    obtain ⟨op, hmem, more, o', ho', hinner⟩ := Realizes.exists_op h x hx
    obtain rfl := Option.some.inj (hox.symm.trans ho')
    have hkind := hinner.kind.symm.trans hk
    cases op with
    | access result param offset' =>
        cases hkind
        obtain ⟨arg', harg', hzip⟩ := hread hmem hinner
        rw [harg'] at harg
        cases harg
        exact ⟨result, param, hmem, hzip⟩
    | arith result operator lhs rhs => cases hkind
    | ret operands unroll => cases hkind
  · rintro ⟨result, param, hmem, hzip⟩
    obtain ⟨k, hk⟩ := List.getElem?_of_mem hmem
    obtain ⟨x, ox, more, hx, hox, hinner⟩ := Realizes.exists_more h hk
    obtain ⟨arg', harg', hzip'⟩ := hread hmem hinner
    obtain rfl := eq_of_mem_zip hnodup hzip hzip'
    exact ⟨x, List.mem_of_getElem? hx, ox, hox, hinner.kind, by rw [harg']; rfl⟩

/-- A body ends with the operation that is described last. -/
theorem kind_last {env : Environment} (h : p.RealizesBody a env body xs) :
    (xs.getLast?.bind p.op?).map Operation.kind = body.getLast?.map BodyOpDesc.kind := by
  have hlength := (Realizes.forall₂ h).length_eq
  rw [List.getLast?_eq_getElem?, List.getLast?_eq_getElem?, ← hlength]
  cases hop : body[body.length - 1]? with
  | none =>
      rw [List.getElem?_eq_none_iff, hlength, ← List.getElem?_eq_none_iff] at hop
      rw [hlength, hop]
      rfl
  | some op =>
      obtain ⟨x, ox, more, hx, hox, hinner⟩ := Realizes.exists_more h hop
      rw [hx, Option.bind_some, hox, Option.map_some, Option.map_some, hinner.kind]

end RealizesBody

section Applies

variable {d : Description} {i : Nat} {op : OpDesc} {u : OpId} {o : Operation} {name : String}
  {v : ValueId} {offset : Point}

/-- The unroll is that of the return which is described last. -/
theorem Described.unroll_eq (h : p.Described d i op o) :
    (p.unroll? o).map Prod.snd = op.unroll? := by
  have hcontents := h.contents
  cases op with
  | load result field =>
      rw [(eq_empty_of_bodiless (by rw [hcontents.1]; rfl)).2.1]
      rfl
  | store value field lower upper =>
      rw [(eq_empty_of_bodiless (by rw [show o.kind = _ from hcontents]; rfl)).2.1]
      rfl
  | apply results operands params body =>
      obtain ⟨block, hk, _, hbody, _⟩ := hcontents
      have hkind := hbody.kind_last
      have hterm : p.terminator? o = block.ops.getLast?.bind p.op? := by
        rw [terminator?, hk]
        rfl
      rw [← hterm] at hkind
      rw [Program.unroll?, OpDesc.unroll?]
      generalize body.getLast? = last at hkind ⊢
      generalize p.terminator? o = term at hkind ⊢
      rcases last with _ | op <;> rcases term with _ | ⟨id, kind, _, _, _, _⟩
      · rfl
      · cases hkind
      · cases hkind
      · obtain rfl : kind = op.kind := Option.some.inj hkind
        rcases op with _ | _ | ⟨_, _ | point⟩ <;> rfl

/-- The body reads an operand where its description says that it reads the name. -/
theorem Described.mem_offsetsAt
    (h : p.Described d i op o)
    (hload : d.elaborate = .ok p)
    (hop : op ∈ d.opsOf i)
    (ho : p.op? u = some o)
    (hv : p.Names d i name v) :
    offset ∈ p.offsetsAt o v ↔ offset ∈ op.offsetsOf name := by
  have hcontents := h.contents
  have hempty : o.kind.body? = none → op.offsetsOf name = ∅ →
      (offset ∈ p.offsetsAt o v ↔ offset ∈ op.offsetsOf name) := fun hbody hnone => by
    rw [(eq_empty_of_bodiless hbody).1, hnone]
  cases op with
  | load result field => exact hempty (by rw [hcontents.1]; rfl) rfl
  | store value field lower upper => exact hempty (by rw [show o.kind = _ from hcontents]; rfl) rfl
  | apply results operands params body =>
      obtain ⟨block, hk, hlength, hbody, _⟩ := hcontents
      have hblock : o.kind.body? = some block := by rw [hk]; rfl
      obtain ⟨hcount, hnodup, hparams⟩ := Description.params_of_elaborate hload hop
      have hc := Description.coherent_of_elaborate hload
      constructor
      · rintro ⟨_, x, ox, arg, j, hsome, hx, hox, hkx, hhead, hj, hw⟩
        obtain rfl := Option.some.inj (hblock.symm.trans hsome)
        obtain ⟨result, param, hmem, hzip⟩ :=
          (hbody.access_iff hlength hnodup hparams).1 ⟨x, hx, ox, hox, hkx, hhead⟩
        obtain ⟨m, hm⟩ := List.getElem?_of_mem hzip
        obtain ⟨hparam, harg⟩ := List.getElem?_zip_eq_some.1 hm
        obtain rfl := hc.arg_unique ho hblock hj harg
        obtain ⟨name', hname', hnames⟩ := exists_getElem?_of_forall₂ h.operands.flip hw
        obtain ⟨_, rfl⟩ := hnames.inj hload hv
        exact ⟨result, param, hmem,
          List.mem_of_getElem? (List.getElem?_zip_eq_some.2 ⟨hparam, hname'⟩)⟩
      · rintro ⟨result, param, hmem, hzip⟩
        obtain ⟨j, hj⟩ := List.getElem?_of_mem hzip
        obtain ⟨hparam, hname⟩ := List.getElem?_zip_eq_some.1 hj
        obtain ⟨arg, harg⟩ : ∃ arg, block.args[j]? = some arg :=
          ⟨_, List.getElem?_eq_getElem (hlength ▸ (List.getElem?_eq_some_iff.1 hparam).1)⟩
        obtain ⟨x, hx, ox, hox, hkx, hhead⟩ := (hbody.access_iff hlength hnodup hparams).2
          ⟨result, param, hmem, List.mem_of_getElem? (List.getElem?_zip_eq_some.2 ⟨hparam, harg⟩)⟩
        obtain ⟨w, hw, hnames⟩ := exists_getElem?_of_forall₂ h.operands hname
        obtain rfl := hnames.unique hload hv
        exact ⟨block, x, ox, arg, j, hblock, hx, hox, hkx, hhead, harg, hw⟩

/-- An operand that a body reads has its name in the function of the apply. -/
theorem Described.function_eq {j : Nat}
    (h : p.Described d i op o)
    (hload : d.elaborate = .ok p)
    (hread : (p.offsetsAt o v).Nonempty)
    (hv : p.Names d j name v) :
    i = j := by
  obtain ⟨_, _, _, _, _, n, _, _, _, _, _, _, hn⟩ := hread
  obtain ⟨name', _, hnames⟩ := exists_getElem?_of_forall₂ h.operands.flip hn
  exact (hnames.inj hload hv).1

end Applies
end Program
end StencilShapes
