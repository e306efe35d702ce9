import StencilShapes.Proofs.Program.Built
import Mathlib.Data.List.Nodup

/-!
# Where operations stand

The operations of a function form a block, and so do those of the body of an apply.  An
operation stands in the body that its parent names, or in a function if it has no parent;
only an apply that has not been closed stands nowhere.  Each call that grows a program
keeps these accounts, together with the numbering of the values and the order of the
use lists.

**Results.**
* `Program.Filed.enter`, `Program.Filed.append`, `Program.Filed.addInner`: the calls that
  place operations.
* `Program.Filed.beginFunction`: a function may begin at any time.
* `Program.Filed.count_opsIn`: an operation that is filed stands in one block, once.
-/

namespace StencilShapes

/-- A block: the operations of a function, or those of the body of an apply. -/
inductive Region where
  | entry (function : Nat)
  | body (apply : OpId)
  deriving DecidableEq

/-- The parent of the operations in a block. -/
def Region.parent? : Region → Option OpId
  | .entry _ => none
  | .body a => some a

/-- A use comes before another one: it belongs to an earlier operation, or to an earlier
operand of the same one. -/
def Use.Before (s t : Use) : Prop :=
  s.user.index < t.user.index ∨ (s.user = t.user ∧ s.operand < t.operand)

theorem OpKind.isSome_body?_head (k : OpKind) : k.head.body?.isSome = k.body?.isSome := by
  cases k <;> rfl

namespace Program

/-- The operations in the body of an apply. -/
def bodyOps (p : Program) (a : OpId) : List OpId :=
  ((p.op? a).bind (·.kind.body?)).elim [] Block.ops

/-- The operations of a block, in order. -/
def opsIn (p : Program) : Region → List OpId
  | .entry k => p.functions[k]?.elim [] Function.body
  | .body a => p.bodyOps a

/-- Each value knows its position. -/
def Numbered (p : Program) : Prop :=
  ∀ v w, p.value? v = some w → w.id = v

/-- The accounts of where operations stand.  Those in `outside` have no parent, and have
not joined a function. -/
structure Filed (p : Program) (outside : List OpId) : Prop where
  numbered : p.Numbered
  uses : ∀ v, (p.usesOf v).Pairwise Use.Before
  /-- The arguments of a function are numbered densely. -/
  params : ∀ f ∈ p.functions.toList, ∀ {i v}, f.args[i]? = some v →
    p.originOf v = some (.arg none i)
  /-- No two functions share an argument. -/
  params_ordered : (p.functions.toList.flatMap Function.args).Pairwise (·.index < ·.index)
  inner : ∀ {u a}, u ∈ p.bodyOps a ↔ ∃ o, p.op? u = some o ∧ o.parent = some a
  outer : ∀ {u}, u ∈ p.entries ∨ u ∈ outside ↔ ∃ o, p.op? u = some o ∧ o.parent = none
  apart : ∀ u ∈ outside, u ∉ p.entries
  ordered : ∀ a, (p.bodyOps a).Pairwise (·.index < ·.index)

section Views

variable {p q : Program}

theorem bodyOps_eq {a : OpId} {o : Operation} (ho : p.op? a = some o) :
    p.bodyOps a = o.kind.body?.elim [] Block.ops := by
  rw [bodyOps, ho, Option.bind_some]

theorem bodyOps_eq_nil {a : OpId} (ha : p.op? a = none) : p.bodyOps a = [] := by
  rw [bodyOps, ha]
  rfl

theorem mem_bodyOps {u a : OpId} :
    u ∈ p.bodyOps a ↔ ∃ o body, p.op? a = some o ∧ o.kind.body? = some body ∧ u ∈ body.ops := by
  unfold bodyOps
  cases p.op? a with
  | none => simp
  | some o => cases hb : o.kind.body? <;> simp [hb]

/-- A new operation, whose body is empty if it has one, changes no body. -/
theorem bodyOps_extended {o : Operation}
    (hop : ∀ u, q.op? u = if u.index = p.ops.size then some o else p.op? u)
    (hempty : ∀ body, o.kind.body? = some body → body.ops = [])
    (a : OpId) :
    q.bodyOps a = p.bodyOps a := by
  rw [bodyOps, hop]
  split
  · next ha =>
      have hnone : p.op? a = none := by simp [op?, ha]
      rw [bodyOps_eq_nil hnone, Option.bind_some]
      cases hb : o.kind.body? with
      | none => rfl
      | some body => exact hempty body hb
  · rfl

/-- New results change no body. -/
theorem bodyOps_newResults (u : OpId) (tys : List Ty) (a : OpId) :
    (p.newResults u tys).1.bodyOps a = p.bodyOps a := by
  by_cases ha : a = u
  · subst ha
    cases ho : p.op? a with
    | some o => rw [bodyOps_eq ho, bodyOps_eq (op?_newResults_self tys ho)]
    | none =>
        have hnone : ∀ (tys : List Ty) {p : Program}, p.op? a = none →
            (p.newResults a tys).1.op? a = none := by
          intro tys
          induction tys with
          | nil => exact fun h => h
          | cons ty tys ih =>
              intro p h
              refine ih (p := (p.newResult a ty).1) ?_
              rw [op?_newResult, if_pos rfl, h]
              rfl
        rw [bodyOps_eq_nil ho, bodyOps_eq_nil (hnone tys ho)]
  · rw [bodyOps, bodyOps, op?_newResults_of_ne tys ha]

theorem usesOf_newResults (u : OpId) (tys : List Ty) (v : ValueId) :
    ∀ p : Program, (p.newResults u tys).1.usesOf v = p.usesOf v := by
  induction tys with
  | nil => exact fun _ => rfl
  | cons ty tys ih => exact fun p => (ih (p.newResult u ty).1).trans (usesOf_newResult p u ty v)

end Views

/-- Growth keeps what has a body. -/
theorem Grows.hasBody {p q : Program} {u : OpId}
    (hg : p.Grows q)
    (h : ∃ o, p.op? u = some o ∧ o.kind.body?.isSome) :
    ∃ o, q.op? u = some o ∧ o.kind.body?.isSome := by
  rcases h with ⟨o, ho, hbody⟩
  obtain ⟨o', ho', _, hkind⟩ := hg.op ho
  refine ⟨o', ho', ?_⟩
  rw [← OpKind.isSome_body?_head, hkind, OpKind.isSome_body?_head]
  exact hbody

theorem Grows.newOp_append (p : Program) (kind : OpKind) (operands : List ValueId)
    (tys : List Ty) :
    p.Grows
      (((p.newOp kind operands none).1.newResults ⟨p.ops.size⟩ tys).1.append ⟨p.ops.size⟩) :=
  ((Grows.newOp p kind operands none).trans (Grows.newResults _ tys _)).trans (Grows.append _ _)

namespace Numbered

variable {p : Program}

theorem newValue (h : p.Numbered) (ty : Ty) (origin : Origin) :
    (p.newValue ty origin).1.Numbered := by
  intro v w hw
  simp only [Program.newValue, value?, Array.getElem?_push] at hw
  split at hw
  · next hv =>
      cases hw
      exact (takeValue_supply p).trans (congrArg ValueId.mk hv.symm)
  · exact h v w hw

theorem newOp (h : p.Numbered) (kind : OpKind) (operands : List ValueId)
    (parent : Option OpId) :
    (p.newOp kind operands parent).1.Numbered := by
  intro v w hw
  rw [value?_newOp] at hw
  rcases Option.map_eq_some_iff.1 hw with ⟨w', hw', rfl⟩
  exact (h v w' hw' :)

theorem newResults (u : OpId) (tys : List Ty) :
    ∀ {p : Program}, p.Numbered → (p.newResults u tys).1.Numbered := by
  induction tys with
  | nil => exact fun h => h
  | cons ty tys ih => exact fun h => ih (p := (Program.newResult _ u ty).1) (h.newValue ty _)

theorem newArgs (owner : Option OpId) (tys : List Ty) :
    ∀ {p : Program} (index : Nat), p.Numbered → (p.newArgs owner index tys).1.Numbered := by
  induction tys with
  | nil => exact fun _ h => h
  | cons ty tys ih => exact fun index h => ih (index + 1) (h.newValue ty _)

theorem openApply (h : p.Numbered) (operands : List ValueId) :
    (p.openApply operands).1.Numbered := by
  rw [openApply_eq]
  exact newArgs (some ⟨p.ops.size⟩) (operands.map p.typeOf) 0 (h.newOp _ operands none)

end Numbered

/-- The slots of one operation are in order. -/
theorem pairwise_slots (user : OpId) (v : ValueId) (ws : List ValueId) :
    ∀ index : Nat, (slots user v index ws).Pairwise Use.Before := by
  induction ws with
  | nil => exact fun _ => List.Pairwise.nil
  | cons w ws ih =>
      intro index
      rw [slots]
      split
      · refine List.Pairwise.cons (fun use huse => ?_) (ih (index + 1))
        rcases mem_slots.1 huse with ⟨huser, i, hi, _⟩
        exact Or.inr ⟨huser.symm, by rw [hi]; show index < index + 1 + i; omega⟩
      · exact ih (index + 1)

/-- The uses of a new operation come behind all others. -/
theorem pairwise_uses_append {p : Program} {v : ValueId} (ws : List ValueId)
    (hc : p.Coherent)
    (h : (p.usesOf v).Pairwise Use.Before) :
    (p.usesOf v ++ slots ⟨p.ops.size⟩ v 0 ws).Pairwise Use.Before := by
  refine List.pairwise_append.2 ⟨h, pairwise_slots _ v ws 0, fun s hs t ht => Or.inl ?_⟩
  rcases hc.mem_uses.1 hs with ⟨o, ho, _⟩
  rw [(mem_slots.1 ht).1]
  exact op?_lt ho

namespace Filed

variable {p q : Program} {outside : List OpId}

theorem empty : ({} : Program).Filed [] := by
  constructor <;> simp [Numbered, value?, usesOf, entries, bodyOps, op?]

theorem exists_op (h : p.Filed outside) {u : OpId} (hu : u ∈ outside) :
    ∃ o, p.op? u = some o ∧ o.parent = none :=
  h.outer.1 (Or.inr hu)

theorem lt_size_of_mem_bodyOps (h : p.Filed outside) {u a : OpId} (hu : u ∈ p.bodyOps a) :
    u.index < p.ops.size := by
  rcases h.inner.1 hu with ⟨o, ho, _⟩
  exact op?_lt ho

/-- Functions that stay know their arguments still. -/
theorem params_of_grows
    (h : p.Filed outside)
    (hg : p.Grows q)
    (hfunctions : q.functions = p.functions) :
    ∀ f ∈ q.functions.toList, ∀ {i v}, f.args[i]? = some v → q.originOf v = some (.arg none i) := by
  intro f hf i v hv
  rw [hfunctions] at hf
  have horigin := h.params f hf hv
  rw [hg.origin (by rw [horigin]; rfl), horigin]

/-- So do functions that change in other respects. -/
theorem params_of_map_args
    (h : p.Filed outside)
    (hargs : q.functions.toList.map Function.args = p.functions.toList.map Function.args) :
    (∀ f ∈ q.functions.toList, ∀ {i v}, f.args[i]? = some v → p.originOf v = some (.arg none i)) ∧
      (q.functions.toList.flatMap Function.args).Pairwise (·.index < ·.index) := by
  constructor
  · intro f hf i v hv
    obtain ⟨g, hg, hgargs⟩ := List.mem_map.1 (hargs ▸ List.mem_map_of_mem (f := Function.args) hf)
    exact h.params g hg (hgargs ▸ hv)
  · rw [List.flatMap_def, hargs, ← List.flatMap_def]
    exact h.params_ordered

/-- A change that moves no operation keeps the accounts. -/
theorem keep
    (h : p.Filed outside)
    (hnumbered : q.Numbered)
    (hg : p.Grows q)
    (hfunctions : q.functions = p.functions)
    (huses : ∀ v, q.usesOf v = p.usesOf v)
    (hparent : ∀ u, (q.op? u).map Operation.parent = (p.op? u).map Operation.parent)
    (hbodies : ∀ a, q.bodyOps a = p.bodyOps a) :
    q.Filed outside := by
  have hentries : q.entries = p.entries := by rw [entries, hfunctions, entries]
  have hop : ∀ {u parent}, (∃ o, q.op? u = some o ∧ o.parent = parent) ↔
      ∃ o, p.op? u = some o ∧ o.parent = parent := by
    intro u parent
    rw [← Option.map_eq_some_iff, hparent, Option.map_eq_some_iff]
  constructor
  case numbered => exact hnumbered
  case uses => exact fun v => huses v ▸ h.uses v
  case params => exact h.params_of_grows hg hfunctions
  case params_ordered => exact hfunctions ▸ h.params_ordered
  case inner => exact fun {u a} => by rw [hbodies, hop, h.inner]
  case outer => exact fun {u} => by rw [hentries, hop, h.outer]
  case apart => exact fun u hu => hentries ▸ h.apart u hu
  case ordered => exact fun a => hbodies a ▸ h.ordered a

/-- A new operation without a parent stands nowhere at first. -/
theorem enter {o : Operation}
    (h : p.Filed outside)
    (hc : p.Coherent)
    (hf : p.Fresh)
    (hnumbered : q.Numbered)
    (hg : p.Grows q)
    (hfunctions : q.functions = p.functions)
    (huses : ∀ v, q.usesOf v = p.usesOf v ++ slots ⟨p.ops.size⟩ v 0 o.operands)
    (hop : ∀ u, q.op? u = if u.index = p.ops.size then some o else p.op? u)
    (hparent : o.parent = none)
    (hempty : ∀ body, o.kind.body? = some body → body.ops = []) :
    q.Filed (⟨p.ops.size⟩ :: outside) := by
  have hentries : q.entries = p.entries := by rw [entries, hfunctions, entries]
  have hbodies := bodyOps_extended hop hempty
  have hnone : p.op? ⟨p.ops.size⟩ = none := by simp [op?]
  constructor
  case numbered => exact hnumbered
  case uses => exact fun v => huses v ▸ pairwise_uses_append o.operands hc (h.uses v)
  case params => exact h.params_of_grows hg hfunctions
  case params_ordered => exact hfunctions ▸ h.params_ordered
  case inner =>
    intro u a
    rw [hbodies, h.inner, hop]
    split
    · next hu =>
        obtain rfl : u = ⟨p.ops.size⟩ := congrArg OpId.mk hu
        simp [hnone, hparent]
    · rfl
  case outer =>
    intro u
    rw [hentries, List.mem_cons, or_left_comm, h.outer, hop]
    split
    · next hu =>
        obtain rfl : u = ⟨p.ops.size⟩ := congrArg OpId.mk hu
        simp [hparent]
    · next hu =>
        have hne : u ≠ ⟨p.ops.size⟩ := fun he => hu (congrArg OpId.index he)
        simp [hne]
  case apart =>
    intro u hu hentry
    rw [hentries] at hentry
    rcases List.mem_cons.1 hu with rfl | hu
    · exact Nat.lt_irrefl _ (hf.lt_size hentry)
    · exact h.apart u hu hentry
  case ordered => exact fun a => hbodies a ▸ h.ordered a

theorem newOp {kind : OpKind} {operands : List ValueId}
    (h : p.Filed outside)
    (hc : p.Coherent)
    (hf : p.Fresh)
    (hbody : kind.body? = none)
    (hoperands : ∀ v ∈ operands, (p.originOf v).isSome) :
    (p.newOp kind operands none).1.Filed (⟨p.ops.size⟩ :: outside) :=
  h.enter hc hf (h.numbered.newOp kind operands none) (Grows.newOp p kind operands none) rfl
    (usesOf_newOp p kind none hoperands) (p.op?_newOp kind operands none) rfl
    fun body hb => by rw [hbody] at hb; cases hb

theorem openApply {operands : List ValueId}
    (h : p.Filed outside)
    (hc : p.Coherent)
    (hf : p.Fresh)
    (hoperands : ∀ v ∈ operands, (p.originOf v).isSome) :
    (p.openApply operands).1.Filed (⟨p.ops.size⟩ :: outside) := by
  refine h.enter hc hf (h.numbered.openApply operands) (Grows.openApply p operands)
    (functions_openApply p operands) (usesOf_openApply p operands hoperands)
    (p.op?_openApply operands) rfl ?_
  rintro body ⟨⟩
  rfl

theorem newResults (h : p.Filed outside) (u : OpId) (tys : List Ty) :
    (p.newResults u tys).1.Filed outside :=
  h.keep (h.numbered.newResults u tys) (Grows.newResults u tys p) (functions_newResults u tys p)
    (fun v => usesOf_newResults u tys v p) (fun _ => map_op?_newResults (fun _ _ => rfl) tys p)
    (bodyOps_newResults u tys)

/-- An operation that stands nowhere joins the function begun last. -/
theorem append {u : OpId}
    (h : p.Filed (u :: outside))
    (hfunctions : p.functions ≠ #[])
    (hu : u ∉ outside) :
    (p.append u).Filed outside := by
  obtain ⟨fs, f, hfs⟩ : ∃ fs f, p.functions.toList = fs ++ [f] := by
    rcases List.eq_nil_or_concat p.functions.toList with hnil | ⟨fs, f, hfs⟩
    · exact absurd (Array.toList_eq_nil_iff.1 hnil) hfunctions
    · exact ⟨fs, f, hfs.trans List.concat_eq_append⟩
  have hentries : (p.append u).entries = p.entries ++ [u] := by
    simp [entries, toList_functions_append u hfs, hfs]
  constructor
  case numbered => exact h.numbered
  case uses => exact h.uses
  case params => exact (h.params_of_map_args (p.map_args_append u)).1
  case params_ordered => exact (h.params_of_map_args (p.map_args_append u)).2
  case inner => exact h.inner
  case outer =>
    intro x
    refine Iff.trans ?_ (h.outer (u := x))
    rw [hentries]
    simp only [List.mem_append, List.mem_cons, List.not_mem_nil, or_false, or_assoc]
  case apart =>
    intro x hx hentry
    rw [hentries] at hentry
    rcases List.mem_append.1 hentry with hentry | hentry
    · exact h.apart x (List.mem_cons_of_mem _ hx) hentry
    · obtain rfl := List.mem_singleton.1 hentry
      exact hu hx
  case ordered => exact h.ordered

/-- A load or a store joins its function at once. -/
theorem newOp_append {kind : OpKind} {operands : List ValueId} (tys : List Ty)
    (h : p.Filed outside)
    (hc : p.Coherent)
    (hf : p.Fresh)
    (hbody : kind.body? = none)
    (hoperands : ∀ v ∈ operands, (p.originOf v).isSome)
    (hfunctions : p.functions ≠ #[]) :
    Filed
      (((p.newOp kind operands none).1.newResults ⟨p.ops.size⟩ tys).1.append ⟨p.ops.size⟩)
      outside := by
  refine ((h.newOp hc hf hbody hoperands).newResults ⟨p.ops.size⟩ tys).append ?_ fun hmem => ?_
  · rw [functions_newResults]
    exact hfunctions
  · obtain ⟨o, ho, _⟩ := h.exists_op hmem
    exact Nat.lt_irrefl _ (op?_lt ho)

/-- An operation with a parent joins the body that the parent has. -/
theorem addInner {a : OpId} {o : Operation} {kind : OpKind} {operands : List ValueId}
    (tys : List Ty)
    (h : p.Filed outside)
    (hc : p.Coherent)
    (ho : p.op? a = some o)
    (hbody : o.kind.body?.isSome)
    (hkind : kind.body? = none)
    (hoperands : ∀ v ∈ operands, (p.originOf v).isSome) :
    (p.addInner a kind operands tys).1.Filed outside := by
  have hg := Grows.addInner kind operands tys p a
  have hfunctions := functions_addInner kind operands tys p a
  have hentries : (p.addInner a kind operands tys).1.entries = p.entries := by
    rw [entries, hfunctions, entries]
  have hself := op?_addInner_self kind operands tys ho
  have happly := op?_addInner_apply kind operands tys ho
  have hbodies : ∀ x, (p.addInner a kind operands tys).1.bodyOps x =
      if x = a then p.bodyOps x ++ [⟨p.ops.size⟩] else p.bodyOps x := by
    intro x
    by_cases hx : x = a
    · subst hx
      obtain ⟨body, hbody⟩ := Option.isSome_iff_exists.1 hbody
      rw [if_pos rfl, bodyOps_eq happly, bodyOps_eq ho, OpKind.body?_appendInner, hbody]
      rfl
    · rw [if_neg hx]
      by_cases hnew : x = ⟨p.ops.size⟩
      · have hnone : p.op? x = none := by simp [op?, hnew]
        rw [bodyOps_eq_nil hnone, hnew, bodyOps_eq hself, hkind]
        rfl
      · rw [bodyOps, op?_addInner_of_ne kind operands tys hnew hx, bodyOps]
  have hparent : ∀ {u parent}, u ≠ ⟨p.ops.size⟩ →
      ((∃ ox, (p.addInner a kind operands tys).1.op? u = some ox ∧ ox.parent = parent) ↔
        ∃ ox, p.op? u = some ox ∧ ox.parent = parent) := by
    intro u parent hu
    by_cases hx : u = a
    · subst hx
      simp [happly, ho]
    · rw [op?_addInner_of_ne kind operands tys hu hx]
  have hsize : p.op? ⟨p.ops.size⟩ = none := by simp [op?]
  constructor
  case numbered =>
    exact Numbered.newResults ⟨p.ops.size⟩ tys (h.numbered.newOp kind operands (some a))
  case uses =>
    intro v
    have huses : (p.addInner a kind operands tys).1.usesOf v =
        p.usesOf v ++ slots ⟨p.ops.size⟩ v 0 operands :=
      (usesOf_newResults ⟨p.ops.size⟩ tys v _).trans (usesOf_newOp p kind (some a) hoperands v)
    exact huses ▸ pairwise_uses_append operands hc (h.uses v)
  case params => exact h.params_of_grows hg hfunctions
  case params_ordered => exact hfunctions ▸ h.params_ordered
  case inner =>
    intro u x
    rw [hbodies]
    by_cases hu : u = ⟨p.ops.size⟩
    · subst hu
      have hold : (⟨p.ops.size⟩ : OpId) ∉ p.bodyOps x := fun hmem =>
        Nat.lt_irrefl _ (h.lt_size_of_mem_bodyOps hmem)
      rw [hself]
      split
      · next hx => simp [hx]
      · next hx => simp [hold, Ne.symm hx]
    · rw [hparent hu, ← h.inner]
      split
      · simp [hu]
      · rfl
  case outer =>
    intro u
    rw [hentries, h.outer]
    by_cases hu : u = ⟨p.ops.size⟩
    · subst hu
      simp [hself, hsize]
    · rw [hparent hu]
  case apart => exact fun u hu => hentries ▸ h.apart u hu
  case ordered =>
    intro x
    rw [hbodies]
    split
    · refine List.pairwise_append.2 ⟨h.ordered x, List.pairwise_singleton _ _, fun u hu w hw => ?_⟩
      obtain rfl := List.mem_singleton.1 hw
      exact h.lt_size_of_mem_bodyOps hu
    · exact h.ordered x

/-- A new function has new arguments and an empty block. -/
theorem beginFunction (h : p.Filed outside) (name : String) (stencil : Bool) (tys : List Ty) :
    (p.beginFunction name stencil tys).1.Filed outside := by
  have hg := Grows.beginFunction p name stencil tys
  have hop : ∀ u, (p.beginFunction name stencil tys).1.op? u = p.op? u := fun u =>
    op?_newArgs none tys u p 0
  have hentries := entries_beginFunction p name stencil tys
  have hbodies : ∀ a, (p.beginFunction name stencil tys).1.bodyOps a = p.bodyOps a := fun a => by
    rw [bodyOps, hop, bodyOps]
  have hargs := newArgs_snd none tys p 0
  have hfunctions : (p.beginFunction name stencil tys).1.functions.toList =
      p.functions.toList ++ [{ name, stencil, args := (p.newArgs none 0 tys).2, body := [] }] := by
    simp [Program.beginFunction, functions_newArgs]
  constructor
  case numbered => exact h.numbered.newArgs none tys 0
  case uses =>
    intro v
    have huses : (p.beginFunction name stencil tys).1.usesOf v = p.usesOf v :=
      usesOf_newArgs none tys v p 0
    exact huses ▸ h.uses v
  case params =>
    intro f hf i v hv
    rw [hfunctions] at hf
    rcases List.mem_append.1 hf with hf | hf
    · have horigin := h.params f hf hv
      rw [hg.origin (by rw [horigin]; rfl), horigin]
    · obtain rfl := List.mem_singleton.1 hf
      simp only [hargs, List.getElem?_map, Option.map_eq_some_iff] at hv
      rcases hv with ⟨k, hk, rfl⟩
      obtain ⟨hi, rfl⟩ := List.getElem?_eq_some_iff.1 hk
      rw [List.length_range] at hi
      refine (originOf_newArgs none tys _ p 0).trans ?_
      have htop : ¬ p.values.size + i < p.values.size := by omega
      simp [hi, htop]
  case params_ordered =>
    have hnew : ((p.newArgs none 0 tys).2).Pairwise (·.index < ·.index) := by
      rw [hargs, List.pairwise_map]
      exact List.pairwise_lt_range.imp fun hlt => Nat.add_lt_add_left hlt _
    rw [hfunctions, List.flatMap_append, List.pairwise_append]
    refine ⟨h.params_ordered, by simpa using hnew, fun v hv w hw => ?_⟩
    obtain ⟨f, hf, hv⟩ := List.mem_flatMap.1 hv
    obtain ⟨i, hi⟩ := List.getElem?_of_mem hv
    have hlt : v.index < p.values.size :=
      p.originOf_isSome.1 (by rw [h.params f hf hi]; rfl)
    simp only [List.flatMap_cons, List.flatMap_nil, List.append_nil, hargs, List.mem_map] at hw
    rcases hw with ⟨k, _, rfl⟩
    exact Nat.lt_of_lt_of_le hlt (Nat.le_add_right _ k)
  case inner => exact fun {u a} => by rw [hbodies, hop, h.inner]
  case outer => exact fun {u} => by rw [hentries, hop, h.outer]
  case apart => exact fun u hu => hentries ▸ h.apart u hu
  case ordered => exact fun a => hbodies a ▸ h.ordered a

/-- Whether a function is a stencil program does not matter to the accounts. -/
theorem setStencil (h : p.Filed outside) (function : Nat) (stencil : Bool) :
    (p.setStencil function stencil).Filed outside := by
  have hentries := entries_setStencil p function stencil
  obtain ⟨hparams, hordered⟩ := h.params_of_map_args (p.map_args_setStencil function stencil)
  refine ⟨h.numbered, h.uses, hparams, hordered, h.inner, ?_, ?_, h.ordered⟩
  · exact fun {u} => by rw [hentries]; exact h.outer
  · exact fun u hu => hentries ▸ h.apart u hu

end Filed

section Blocks

variable {p : Program} {outside : List OpId}

theorem mem_opsIn_entry {k : Nat} {u : OpId} :
    u ∈ p.opsIn (.entry k) ↔ ∃ f, p.functions.toList[k]? = some f ∧ u ∈ f.body := by
  rw [opsIn, ← Array.getElem?_toList]
  cases p.functions.toList[k]? <;> simp

theorem mem_entries_iff {u : OpId} : u ∈ p.entries ↔ ∃ k, u ∈ p.opsIn (.entry k) := by
  simp only [mem_opsIn_entry, entries, List.mem_flatMap]
  constructor
  · rintro ⟨f, hf, hu⟩
    obtain ⟨k, hk⟩ := List.getElem?_of_mem hf
    exact ⟨k, f, hk, hu⟩
  · rintro ⟨k, f, hk, hu⟩
    exact ⟨f, List.mem_of_getElem? hk, hu⟩

/-- Lists that are in order one after another have nothing in common. -/
theorem index_unique {α : Type} {key : α → Nat} {g : Function → List α} {fs : List Function}
    {f f' : Function} {j k : Nat} {x : α}
    (hord : (fs.flatMap g).Pairwise fun a b => key a < key b)
    (hj : fs[j]? = some f)
    (hk : fs[k]? = some f')
    (hx : x ∈ g f)
    (hx' : x ∈ g f') :
    j = k := by
  have hord := (List.pairwise_flatMap.1 hord).2
  rw [List.pairwise_iff_getElem] at hord
  obtain ⟨hjlt, rfl⟩ := List.getElem?_eq_some_iff.1 hj
  obtain ⟨hklt, rfl⟩ := List.getElem?_eq_some_iff.1 hk
  rcases Nat.lt_trichotomy j k with hlt | heq | hlt
  · exact absurd (hord j k hjlt hklt hlt x hx x hx') (Nat.lt_irrefl _)
  · exact heq
  · exact absurd (hord k j hklt hjlt hlt x hx' x hx) (Nat.lt_irrefl _)

/-- An operation stands in one function only. -/
theorem Fresh.entry_unique (hf : p.Fresh) {j k : Nat} {u : OpId}
    (hj : u ∈ p.opsIn (.entry j)) (hk : u ∈ p.opsIn (.entry k)) :
    j = k := by
  rcases mem_opsIn_entry.1 hj with ⟨f, hfj, huf⟩
  rcases mem_opsIn_entry.1 hk with ⟨g, hgk, hug⟩
  exact index_unique hf.ordered hfj hgk huf hug

/-- Each block is in the order in which its operations were made. -/
theorem Filed.ordered_opsIn (h : p.Filed outside) (hf : p.Fresh) (r : Region) :
    (p.opsIn r).Pairwise (·.index < ·.index) := by
  cases r with
  | body a => exact h.ordered a
  | entry k =>
      rw [opsIn, ← Array.getElem?_toList]
      cases hk : p.functions.toList[k]? with
      | none => exact List.Pairwise.nil
      | some f => exact (List.pairwise_flatMap.1 hf.ordered).1 f (List.mem_of_getElem? hk)

/-- An operation that is filed stands in one block, once. -/
theorem Filed.count_opsIn {u : OpId} {o : Operation}
    (h : p.Filed outside)
    (hf : p.Fresh)
    (ho : p.op? u = some o)
    (hu : u ∉ outside) :
    ∃ r, r.parent? = o.parent ∧ ∀ s, (p.opsIn s).count u = if s = r then 1 else 0 := by
  obtain ⟨r, hparent, hmem, hunique⟩ : ∃ r, Region.parent? r = o.parent ∧ u ∈ p.opsIn r ∧
      ∀ s, u ∈ p.opsIn s → s = r := by
    have hinner : ∀ a, u ∈ p.opsIn (.body a) → o.parent = some a := by
      intro a ha
      rcases h.inner.1 ha with ⟨o', ho', hparent⟩
      rwa [Option.some.inj (ho.symm.trans ho')]
    have hentry : ∀ k, u ∈ p.opsIn (.entry k) → o.parent = none := by
      intro k hk
      rcases h.outer.1 (Or.inl (mem_entries_iff.2 ⟨k, hk⟩)) with ⟨o', ho', hparent⟩
      rwa [Option.some.inj (ho.symm.trans ho')]
    cases hparent : o.parent with
    | some a =>
        refine ⟨.body a, rfl, h.inner.2 ⟨o, ho, hparent⟩, fun s hs => ?_⟩
        cases s with
        | body b => rw [Option.some.inj (hparent.symm.trans (hinner b hs))]
        | entry k => rw [hentry k hs] at hparent; cases hparent
    | none =>
        obtain ⟨k, hk⟩ := mem_entries_iff.1 ((h.outer.2 ⟨o, ho, hparent⟩).resolve_right hu)
        refine ⟨.entry k, rfl, hk, fun s hs => ?_⟩
        cases s with
        | body b => rw [hinner b hs] at hparent; cases hparent
        | entry j => rw [hf.entry_unique hs hk]
  refine ⟨r, hparent, fun s => ?_⟩
  have hnodup : (p.opsIn s).Nodup := (h.ordered_opsIn hf s).imp fun hlt he => by
    rw [he] at hlt
    exact Nat.lt_irrefl _ hlt
  split
  · next hs =>
      subst hs
      exact List.count_eq_one_of_mem hnodup hmem
  · next hs => exact List.count_eq_zero.2 fun hin => hs (hunique s hin)

/-- What stands outside stands in no block. -/
theorem Filed.not_mem_opsIn {u : OpId} (h : p.Filed outside) (hu : u ∈ outside) (r : Region) :
    u ∉ p.opsIn r := by
  obtain ⟨o, ho, hparent⟩ := h.exists_op hu
  intro hr
  cases r with
  | entry k => exact h.apart u hu (mem_entries_iff.2 ⟨k, hr⟩)
  | body a =>
      rcases h.inner.1 hr with ⟨o', ho', hparent'⟩
      obtain rfl : o = o' := Option.some.inj (ho.symm.trans ho')
      rw [hparent] at hparent'
      cases hparent'

end Blocks

end Program
end StencilShapes
