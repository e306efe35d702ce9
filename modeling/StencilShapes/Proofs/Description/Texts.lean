import StencilShapes.Program.Text
import StencilShapes.Proofs.Compilation.Pipeline
import StencilShapes.Proofs.Description.Faithful
import StencilShapes.Proofs.Domain.OnlyShapes
import StencilShapes.Proofs.Program.Fields

/-!
# When a program has a text

All types have a text but fields of very many dimensions.  A program shows the types of the
arguments of its functions, and otherwise types of its values.  In the program of a
description every field has the type of such an argument, and passes write only temps.  So
there is a text, before and after any passes, unless an argument is described with that many
dimensions.

**Results.**
* `Ty.fits_field`: the fields that have a text.
* `Program.Spelled.isSome_text`, `Program.fits_of_isSome_text`: the types on which the text of
  a program depends.
* `Program.Spelled.inferOp`: what one step of inference leaves.
* `Description.text_eq_none_iff`: the descriptions whose programs have no text.
-/

namespace StencilShapes

/-- A list is mapped where all its items are. -/
theorem isSome_mapM {α β : Type} {f : α → Option β} {l : List α} :
    (l.mapM f).isSome ↔ ∀ a ∈ l, (f a).isSome := by
  induction l with
  | nil => simp
  | cons a l ih =>
      rw [List.forall_mem_cons, ← ih, List.mapM_cons]
      cases f a with
      | none => simp
      | some b => cases l.mapM f <;> simp

@[simp] theorem isSome_bind_some {α β : Type} (x : Option α) (f : α → β) :
    (x.bind fun a => some (f a)).isSome = x.isSome := by
  cases x <;> rfl

namespace Ty

theorem isSome_text {ty : Ty} : ty.text.isSome ↔ ty.fits = true := by
  rw [text]
  split
  · next h => simp [h]
  · next h => simp [h]

theorem fits_field {e : Element} {r : Nat} : (field e r).fits = true ↔ r < 2 ^ 62 := by
  rw [fits, decide_eq_true_iff, textLimit]
  omega

theorem isSome_listText {tys : List Ty} : (listText tys).isSome ↔ ∀ ty ∈ tys, ty.fits = true := by
  simp [listText, isSome_mapM, isSome_text]

end Ty

namespace Operation

variable {p : Program} {o : Operation}

section Declared

variable (h : ∀ ty ∈ o.operandTypes, ty.fits = true)

include h

theorem isSome_argsText (body : Block) : (o.argsText body).isSome := by
  have hargs : ∀ x ∈ body.args.zip (o.operands.zip o.operandTypes), x.2.2.fits = true :=
    fun x hx => h _ (List.of_mem_zip (List.of_mem_zip hx).2).2
  simpa [argsText, isSome_mapM, Ty.isSome_text] using hargs

/-- Beside its results an operation shows what it declares. -/
theorem isSome_kindText : o.kindText.isSome := by
  unfold kindText
  split
  · rfl
  · next body _ => simpa using isSome_argsText h body
  · rfl
  · rfl
  · simpa using Ty.isSome_listText.2 h
  · cases htys : o.operandTypes with
    | nil => rfl
    | cons ty tys =>
        have hty := Ty.isSome_text.2 (h ty (htys ▸ List.mem_cons_self))
        simpa [storedText] using hty

end Declared

theorem isSome_lineText
    (h : ∀ ty ∈ o.operandTypes, ty.fits = true)
    (hresults : ∀ v ∈ o.results, (p.typeOf v).fits = true) :
    (o.lineText p).isSome := by
  obtain ⟨kind, hkind⟩ := Option.isSome_iff_exists.1 (isSome_kindText h)
  simpa [lineText, hkind, Ty.isSome_listText] using hresults

end Operation

namespace Program

variable {p q : Program}

/-- Every type that a program mentions has a text. -/
structure Spelled (p : Program) : Prop where
  value : ∀ v, (p.typeOf v).fits = true
  declared : ∀ {u o}, p.op? u = some o → ∀ ty ∈ o.operandTypes, ty.fits = true

/-- A function shows its arguments, and its operations. -/
theorem isSome_functionText {f : Function} :
    (p.functionText f).isSome ↔
      (∀ a ∈ f.args, (p.typeOf a).fits = true) ∧ ∀ o ∈ p.opsAt f.body, (p.opText o).isSome := by
  have hargs : (f.args.mapM fun a => (p.typeOf a).text.bind fun ty =>
      some (a.text ++ " : " ++ ty)).isSome ↔ ∀ a ∈ f.args, (p.typeOf a).fits = true := by
    simp [isSome_mapM, Ty.isSome_text]
  rw [← hargs, ← isSome_mapM, functionText]
  simp only [Option.pure_def, Option.bind_eq_bind]
  cases f.args.mapM fun a => (p.typeOf a).text.bind fun ty => some (a.text ++ " : " ++ ty) with
  | none => simp
  | some args => simp

/-- There is a text only if all arguments have one. -/
theorem fits_of_isSome_text {f : Function} {v : ValueId}
    (h : p.text.isSome)
    (hf : f ∈ p.functions.toList)
    (hv : v ∈ f.args) :
    (p.typeOf v).fits = true := by
  have hfunctions : ∀ f ∈ p.functions.toList, (p.functionText f).isSome := by
    simpa [text, isSome_mapM] using h
  exact (isSome_functionText.1 (hfunctions f hf)).1 v hv

namespace Spelled

theorem isSome_lineText {us : List OpId} {o : Operation} (h : p.Spelled) (ho : o ∈ p.opsAt us) :
    (o.lineText p).isSome := by
  obtain ⟨u, _, ho⟩ := mem_opsAt.1 ho
  exact Operation.isSome_lineText (h.declared ho) fun v _ => h.value v

theorem isSome_opText {us : List OpId} {o : Operation} (h : p.Spelled) (ho : o ∈ p.opsAt us) :
    (p.opText o).isSome := by
  obtain ⟨line, hline⟩ := Option.isSome_iff_exists.1 (h.isSome_lineText ho)
  simp only [opText, hline, Option.pure_def, Option.bind_eq_bind, Option.bind_some]
  split
  · rfl
  · rw [isSome_bind_some, isSome_mapM]
    exact fun n hn => h.isSome_lineText hn

theorem isSome_text (h : p.Spelled) : p.text.isSome := by
  have hfunctions : ∀ f ∈ p.functions.toList, (p.functionText f).isSome := fun f _ =>
    isSome_functionText.2 ⟨fun v _ => h.value v, fun o ho => h.isSome_opText ho⟩
  simpa [text, isSome_mapM] using hfunctions

section Passes

variable {ty : Ty}

theorem setType (v : ValueId) (h : p.Spelled) (hty : ty.fits = true) : (p.setType v ty).Spelled where
  value w := by
    rw [typeOf, Program.setType, value?_modifyValue]
    split
    · cases p.value? w with
      | none => rfl
      | some x => exact hty
    · exact h.value w
  declared ho := h.declared ho

theorem setOperandType (user : OpId) (operand : Nat) (h : p.Spelled) (hty : ty.fits = true) :
    (p.setOperandType user operand ty).Spelled := by
  have hset : (p.modifyOp user fun o =>
      { o with operandTypes := o.operandTypes.set operand ty }).Spelled := by
    refine ⟨h.value, fun {u o} ho t ht => ?_⟩
    rw [op?_modifyOp] at ho
    obtain ⟨o', ho', rfl | ⟨_, rfl⟩⟩ := exists_of_ite_map ho
    · exact h.declared ho' t ht
    · rcases List.mem_or_eq_of_mem_set ht with ht | rfl
      · exact h.declared ho' t ht
      · exact hty
  rw [setOperandType_eq]
  cases p.bodyArg? user operand with
  | none => exact hset
  | some arg => exact hset.setType arg hty

theorem retypeUses (hty : ty.fits = true) (uses : List Use) :
    ∀ {p : Program}, p.Spelled → (p.retypeUses ty uses).Spelled := by
  induction uses with
  | nil => exact fun h => h
  | cons use rest ih =>
      intro p h
      rw [Program.retypeUses]
      split
      · exact ih (h.setOperandType use.user use.operand hty)
      · exact ih h

/-- A shape is given to temps only, and a temp has a text. -/
theorem retypeResults (shape : Point) (results : List ValueId) :
    ∀ {p : Program}, p.Spelled → (p.retypeResults shape results).Spelled := by
  induction results with
  | nil => exact fun h => h
  | cons v rest ih =>
      intro p h
      rw [Program.retypeResults]
      split
      · exact ih (retypeUses rfl _ (h.setType v rfl))
      · exact ih h

theorem inferOp {t : ExtentTable} {name : String} {o : Operation} {i : Inferred}
    (h : p.Spelled)
    (hok : p.inferOp t name o = .ok (q, i)) :
    q.Spelled := by
  obtain ⟨b, shape, p', _, _, hcommit, rfl, _⟩ := inferOp_eq_ok.1 hok
  refine retypeResults shape o.results ⟨fun v => ?_, fun ho' => ?_⟩
  · rw [typeOf_commit hcommit]
    exact h.value v
  · obtain ⟨o', ho, _, _, htys⟩ := exists_op_of_commit hcommit ho'
    rw [htys]
    exact h.declared ho

theorem inferShapes (t : ExtentTable) (h : p.Spelled) : (p.inferShapes t).1.Spelled :=
  inferShapes_lists (P := fun _ q => q.Spelled) h fun hq _ hok => hq.inferOp hok

end Passes

/-- In a built program it is enough that the arguments of functions have texts. -/
theorem of_built
    (h : p.Built)
    (hargs : ∀ f ∈ p.functions.toList, ∀ v ∈ f.args, (p.typeOf v).fits = true) :
    p.Spelled := by
  have hvalue : ∀ v, (p.typeOf v).fits = true := by
    intro v
    cases hty : p.typeOf v with
    | scalar e => rfl
    | temp e shape => rfl
    | field e r =>
        obtain ⟨vs, hvs, w, hw, hpassed⟩ := Building.fieldsPassed h v e r hty
        obtain ⟨f, hf, rfl⟩ := List.mem_map.1 hvs
        rw [← hpassed]
        exact hargs f hf w hw
  refine ⟨hvalue, fun ho => ?_⟩
  rw [h.coherent.declared ho]
  exact List.forall_mem_map.2 fun v _ => hvalue v

end Spelled

end Program

namespace Description

open Program

variable {d : Description} {p : Program}

/-- The arguments of the functions are those that are described. -/
theorem args_fit_iff (h : d.elaborate = .ok p) :
    (∀ g ∈ p.functions.toList, ∀ v ∈ g.args, (p.typeOf v).fits = true) ↔
      ∀ f ∈ d.functions, ∀ a ∈ f.args, a.rank.toNat < 2 ^ 62 := by
  have hfunction : ∀ {f g}, p.RealizesFunction f g →
      ((∀ v ∈ g.args, (p.typeOf v).fits = true) ↔ ∀ a ∈ f.args, a.rank.toNat < 2 ^ 62) := by
    intro f g hg
    rw [← List.forall_mem_map (P := fun ty : Ty => ty.fits = true), hg.args, List.forall_mem_map]
    simp only [Ty.fits_field]
  have hall := (realizes_functions h).1
  generalize d.functions = fs, p.functions.toList = gs at hall
  induction hall with
  | nil => simp
  | cons hg _ ih =>
      rw [List.forall_mem_cons, List.forall_mem_cons]
      exact and_congr (hfunction hg) ih

/-- An argument has so many dimensions that its type has no text. -/
def Overlong (d : Description) : Prop :=
  ∃ f ∈ d.functions, ∃ a ∈ f.args, 2 ^ 62 ≤ a.rank.toNat

/-- Before and after passes, there is a text where every argument has one. -/
theorem isSome_text_iff (h : d.elaborate = .ok p) (terminal : Pass) :
    (Compilation.run { program := p } terminal).compilation.program.text.isSome ↔
      ∀ f ∈ d.functions, ∀ a ∈ f.args, a.rank.toNat < 2 ^ 62 := by
  have hsound := sound_of_elaborate h
  rw [← args_fit_iff h]
  rcases (Compilation.ending_of_run p terminal).program with hp | ⟨t, hq⟩
  · rw [hp]
    exact ⟨fun htext g hg v hv => fits_of_isSome_text htext hg hv,
      fun hargs => (Spelled.of_built hsound.building hargs).isSome_text⟩
  · rw [hq]
    constructor
    · intro htext g hg v hv
      have honly := onlyShapes_of_inferShapes t hsound.coherent hsound.fresh
      obtain ⟨i, hi⟩ := List.getElem?_of_mem hv
      rw [← honly.typeOf_param hsound.coherent (hsound.filed.params g hg hi)]
      exact fits_of_isSome_text htext (honly.functions ▸ hg) hv
    · exact fun hargs => ((Spelled.of_built hsound.building hargs).inferShapes t).isSome_text

theorem text_eq_none_iff (h : d.elaborate = .ok p) (terminal : Pass) :
    (Compilation.run { program := p } terminal).compilation.program.text = none ↔ d.Overlong := by
  rw [← Option.not_isSome_iff_eq_none, isSome_text_iff h terminal, Overlong]
  push Not
  rfl

end Description
end StencilShapes
