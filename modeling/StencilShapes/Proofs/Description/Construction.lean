import StencilShapes.Proofs.Description.Elaborated
import StencilShapes.Proofs.Program.Calls

/-!
# Elaboration as a run of calls

Elaboration grows a program by calls that a builder admits: each name stands for a value
that is there, and an apply is closed before its function goes on.  An apply that cannot be
closed rejects its function, so no apply of an elaborated program was given up.

**Results.**
* `Builder.exists_run_addOps`, `Builder.exists_run_addApply`: the calls for a body and for
  an apply.
* `Description.exists_run`: the calls for a description.
-/

namespace StencilShapes

namespace Builder

variable {b b' b'' : Builder}

theorem run_append (cs ds : List Call) :
    ∀ b : Builder, b.run (cs ++ ds) = (b.run cs).bind fun b => b.run ds := by
  induction cs with
  | nil => exact fun _ => rfl
  | cons c cs ih =>
      intro b
      simp only [List.cons_append, run, ih, Option.bind_assoc]

/-- Some calls lead from one builder to another one. -/
def Reaches (b b' : Builder) : Prop :=
  ∃ cs, b.run cs = some b'

namespace Reaches

theorem refl (b : Builder) : b.Reaches b :=
  ⟨[], rfl⟩

theorem trans (h : b.Reaches b') (h' : b'.Reaches b'') : b.Reaches b'' := by
  rcases h with ⟨cs, hcs⟩
  rcases h' with ⟨ds, hds⟩
  exact ⟨cs ++ ds, by rw [run_append, hcs, Option.bind_some, hds]⟩

/-- One call that the interface admits. -/
theorem call {c : Call} (hc : b.admits c = true) : b.Reaches (b.perform c) :=
  ⟨[c], by simp only [run, Builder.call, if_pos hc, Option.bind_some]⟩

end Reaches
end Builder

open Program Builder

namespace BodyState

variable {base : Program} {apply : OpId} {args : List ValueId} {s s' : BodyState}

/-- An operation of a body is one call. -/
theorem reaches_addOp {last : Bool} {op : BodyOpDesc}
    (h : s.Sound base apply)
    (hbegun : base.functions ≠ #[])
    (hs : s.addOp apply args last op = .ok s') :
    Reaches { program := s.program, opened := some apply }
      { program := s'.program, opened := some apply } := by
  have hget : ∀ {name v}, s.scope.get name = .ok v → (s.program.originOf v).isSome :=
    fun hv => (h.inner _ (Scope.mem_of_get hv)).defined
  have hcall : ∀ {c : Call}, c.isInner = true → (∀ v ∈ c.reads, (s.program.originOf v).isSome) →
      Reaches { program := s.program, opened := some apply }
        (perform { program := s.program, opened := some apply } c) := fun hinner hreads =>
    .call (admits_iff.2 ⟨hreads, hinner, fun _ => h.functions ▸ hbegun⟩)
  cases op with
  | access result param offset =>
      rcases BodyState.addOp_access.1 hs with ⟨arg, _, _, harg, _, _, _, rfl⟩
      exact hcall (c := .access arg offset) rfl (List.forall_mem_singleton.2 (hget harg))
  | arith result operator lhs rhs =>
      rcases BodyState.addOp_arith.1 hs with ⟨l, r, _, hl, hr, _, rfl⟩
      exact hcall (c := .arith operator l r) rfl
        (List.forall_mem_cons.2 ⟨hget hl, List.forall_mem_singleton.2 (hget hr)⟩)
  | ret operands unroll =>
      rcases BodyState.addOp_ret.1 hs with ⟨_, values, _, hvalues, _, rfl⟩
      refine hcall (c := .ret values unroll) rfl fun v hv => ?_
      obtain ⟨name, hmem⟩ := Scope.mem_of_getAll hvalues hv
      exact (h.inner _ hmem).defined

theorem reaches_addOps {ops : List BodyOpDesc} (hbegun : base.functions ≠ #[]) :
    ∀ {s : BodyState}, s.Sound base apply → s.addOps apply args ops = .ok s' →
      Reaches { program := s.program, opened := some apply }
        { program := s'.program, opened := some apply } := by
  induction ops with
  | nil =>
      intro s _ hs
      rw [BodyState.addOps_nil.1 hs]
      exact .refl _
  | cons op ops ih =>
      intro s h hs
      rcases BodyState.addOps_cons.1 hs with ⟨t, ht, hs⟩
      exact (reaches_addOp h hbegun ht).trans (ih (h.addOp ht) hs)

end BodyState

namespace FunctionState

variable {s s' : FunctionState}

theorem Sound.begun (h : s.Sound) : s.program.functions ≠ #[] := by
  obtain ⟨fs, f, hfs, _⟩ := h.named
  intro hnil
  rw [hnil] at hfs
  cases fs <;> cases hfs

theorem Sound.get_defined (h : s.Sound) {name : String} {n : Named}
    (hn : s.scope.get name = .ok n) :
    (s.program.originOf n.value).isSome := by
  obtain ⟨_, f, _, hnamed⟩ := h.named
  exact (hnamed _ (Scope.mem_of_get hn)).1.defined

/-- A call between applies. -/
theorem Sound.reaches (h : s.Sound) {c : Call}
    (hinner : c.isInner = false)
    (hreads : ∀ v ∈ c.reads, (s.program.originOf v).isSome) :
    Reaches { program := s.program } (perform { program := s.program } c) :=
  .call (admits_iff.2 ⟨hreads, hinner, fun _ => h.begun⟩)

theorem reaches_addApply {results operands params : List String} {body : List BodyOpDesc}
    (h : s.Sound)
    (hs : s.addApply results operands params body = .ok s') :
    Reaches { program := s.program } { program := s'.program } := by
  rcases FunctionState.addApply_eq_ok.1 hs with
    ⟨_, ns, rank, hns, hrank, scope, b, p, values, _, hscope, hb, hclose, _, _, rfl⟩
  obtain ⟨_, f, hfs, hnamed⟩ := h.named
  have hoperands := Sound.operands_of_operandRank hnamed hns hrank
  have hopened := h.openApply hfs (fun v hv => (hoperands v hv).1)
    (fun v hv => (hoperands v hv).2) hscope
  have hbegun : (s.program.openApply (ns.map Named.value)).1.functions ≠ #[] := by
    rw [functions_openApply]
    exact h.begun
  have hopen := h.reaches (c := .openApply (ns.map Named.value)) rfl fun v hv =>
    (hoperands v hv).1.defined
  have hfinish : Reaches
      { program := b.program, opened := some (s.program.openApply (ns.map Named.value)).2.1 }
      { program := p } := by
    have hadmits : admits
        { program := b.program, opened := some (s.program.openApply (ns.map Named.value)).2.1 }
        .finish = true :=
      admits_iff.2 ⟨List.forall_mem_nil _, rfl, fun _ => by
        rw [(hopened.addOps hb).functions]
        exact hbegun⟩
    have hstep := Reaches.call hadmits
    simp only [perform, hclose] at hstep
    exact hstep
  exact (hopen.trans (BodyState.reaches_addOps hbegun hopened hb)).trans hfinish

theorem reaches_addOp {op : OpDesc}
    (h : s.Sound)
    (hs : s.addOp op = .ok s') :
    Reaches { program := s.program } { program := s'.program } := by
  cases op with
  | load result field =>
      rcases FunctionState.addLoad_eq_ok.1 hs with ⟨n, _, hn, _, rfl⟩
      exact h.reaches (c := .load n.value) rfl (List.forall_mem_singleton.2 (h.get_defined hn))
  | apply results operands params body => exact reaches_addApply h hs
  | store value field lower upper =>
      rcases FunctionState.addStore_eq_ok.1 hs with ⟨_, v, w, _, _, hv, hw, _, _, rfl⟩
      exact h.reaches (c := .store v.value w.value { lower, upper }) rfl
        (List.forall_mem_cons.2
          ⟨h.get_defined hv, List.forall_mem_singleton.2 (h.get_defined hw)⟩)

theorem reaches_addOps {ops : List OpDesc} :
    ∀ {s : FunctionState}, s.Sound → s.addOps ops = .ok s' →
      Reaches { program := s.program } { program := s'.program } := by
  induction ops with
  | nil =>
      intro s _ hs
      rw [FunctionState.addOps_nil.1 hs]
      exact .refl _
  | cons op ops ih =>
      intro s h hs
      rcases FunctionState.addOps_cons.1 hs with ⟨t, ht, hs⟩
      exact (reaches_addOp h ht).trans (ih (h.addOp ht) hs)

end FunctionState

/-- The calls for a function. -/
theorem FunctionDesc.reaches_elaborate {f : FunctionDesc} {p q : Program}
    (hc : p.Coherent)
    (hp : p.Scoped)
    (h : f.elaborate p = .ok q) :
    Reaches { program := p } { program := q } := by
  rcases FunctionDesc.elaborate_eq_ok.1 h with ⟨scope, s, hscope, hs, rfl⟩
  have hbegin : Reaches { program := p }
      { program := (p.beginFunction f.name f.stencil f.argTypes).1 } :=
    .call (c := .beginFunction f.name f.stencil f.argTypes)
      (admits_iff.2 ⟨List.forall_mem_nil _, rfl, by rintro ⟨⟩⟩)
  exact hbegin.trans
    (FunctionState.reaches_addOps (FunctionState.Sound.beginFunction hc hp hscope) hs)

theorem reaches_elaborateFunctions {fs : List FunctionDesc} :
    ∀ {p q : Program}, p.Coherent → p.Scoped → elaborateFunctions p fs = (q, []) →
      Reaches { program := p } { program := q } := by
  induction fs with
  | nil =>
      intro p q _ _ h
      rw [elaborateFunctions_eq_nil.1 h]
      exact .refl _
  | cons f fs ih =>
      intro p q hc hp h
      rcases elaborateFunctions_eq_nil.1 h with ⟨p', hf, h⟩
      obtain ⟨hc', hp'⟩ := FunctionDesc.sound_of_elaborate hc hp hf
      exact (FunctionDesc.reaches_elaborate hc hp hf).trans (ih hc' hp' h)

/-- The program of a description is built by calls that leave no apply open and give none up. -/
theorem Description.exists_run {d : Description} {p : Program} (h : d.elaborate = .ok p) :
    ∃ cs, Builder.run {} cs = some { program := p } :=
  reaches_elaborateFunctions Coherent.empty Scoped.empty (elaborate_eq_ok.1 h)

/-- The accounts of the program of a description. -/
theorem Description.sound_of_elaborate {d : Description} {p : Program}
    (h : d.elaborate = .ok p) :
    Builder.Sound { program := p } := by
  obtain ⟨cs, hcs⟩ := exists_run h
  exact Builder.Sound.empty.run hcs

end StencilShapes
