import StencilShapes.Proofs.Description.Blocks
import StencilShapes.Proofs.Domain.Effects
import StencilShapes.Proofs.Domain.Reach

/-!
# Inference changes nothing but shapes

Inference reaches through use lists into operations that are not its own, and through
operand positions into bodies.  Whether it succeeds or fails, it leaves there bounds of loads
and applies of stencil programs that had none, and shapes in types that follow from these;
the rest of the program is as it was built.  So extents are the same before and after.

In a loaded program values do not leave their function, so a function that is no stencil
program stays as it is, its bodies included.

**Results.**
* `Program.SameFrame.extents_eq`: extents belong to the frame of a program.
* `Program.Rewritten.value`: values keep everything but their types.
* `Program.onlyShapes_of_inferShapes`: what a run changes.
* `Program.sparesOthers_of_onlyShapes`: what it does not touch in a loaded program.
* `Program.inference_changes_only_shapes`: both, and that extents stay.
-/

namespace StencilShapes

namespace OpKind

theorem frame_frame (k : OpKind) : k.frame.frame = k.frame := by
  cases k <;> rfl

theorem body?_frame (k : OpKind) : k.frame.body? = k.body? := by
  cases k <;> rfl

/-- Beside its frame a kind has only its bounds. -/
theorem eq_of_frame_of_bounds? {k k' : OpKind} (h : k.frame = k'.frame)
    (hb : k.bounds? = k'.bounds?) :
    k = k' := by
  cases hk : k.isInferable with
  | false => exact eq_of_frame h hk
  | true =>
      cases k with
      | load b =>
          cases k' with
          | load b' => exact congrArg load hb
          | _ => cases h
      | apply b body =>
          cases k' with
          | apply b' body' =>
              obtain rfl : b = b' := hb
              cases h
              rfl
          | _ => cases h
      | _ => cases hk

end OpKind

/-- Beside its frame an operation has its bounds and what it declares. -/
theorem Operation.eq_of_frame {o o' : Operation}
    (h : o'.frame = o.frame)
    (hb : o'.kind.bounds? = o.kind.bounds?)
    (htys : o'.operandTypes = o.operandTypes) :
    o' = o := by
  have hkind : o'.kind.frame = o.kind.frame := congrArg Operation.kind h
  have hkind' := OpKind.eq_of_frame_of_bounds? hkind hb
  rcases o with ⟨id, kind, operands, tys, results, parent⟩
  rcases o' with ⟨id', kind', operands', tys', results', parent'⟩
  cases hkind'
  cases htys
  cases h
  rfl

/-- Beside its frame a value has its type. -/
theorem Value.eq_of_frame {w w' : Value} (h : w'.frame = w.frame) (hty : w'.ty = w.ty) : w' = w := by
  rcases w with ⟨id, ty, origin, uses⟩
  rcases w' with ⟨id', ty', origin', uses'⟩
  cases hty
  cases h
  rfl

namespace Program

section Extents

variable {p q : Program}

theorem access?_frame (body : Block) (operands : List ValueId) (o : Operation) :
    access? body operands o.frame = access? body operands o := by
  rcases o with ⟨id, kind, _, _, _, _⟩
  cases kind <;> rfl

namespace SameFrame

theorem opsAt_eq (h : p.SameFrame q) (us : List OpId) :
    (q.opsAt us).map Operation.frame = (p.opsAt us).map Operation.frame := by
  rw [opsAt, opsAt, List.map_filterMap, List.map_filterMap]
  exact congrArg (List.filterMap · us) (funext h.op)

/-- The accesses of a body belong to the frame. -/
theorem accesses_eq (h : p.SameFrame q) (o : Operation) : q.accesses o.frame = p.accesses o := by
  have haccess : ∀ (body : Block) (r : Program),
      (r.opsAt body.ops).filterMap (access? body o.operands) =
        ((r.opsAt body.ops).map Operation.frame).filterMap (access? body o.operands) := by
    intro body r
    rw [List.filterMap_map]
    exact List.filterMap_congr fun x _ => (access?_frame body o.operands x).symm
  simp only [accesses, Operation.frame, OpKind.body?_frame]
  cases o.kind.body? with
  | none => rfl
  | some body =>
      dsimp only
      rw [haccess body q, haccess body p, h.opsAt_eq]

theorem applyExtents_eq (h : p.SameFrame q) (o : Operation) :
    q.applyExtents o.frame = p.applyExtents o := by
  have hunroll : q.unroll? o.frame = p.unroll? o := h.unroll?_eq (OpKind.frame_frame o.kind)
  rw [applyExtents, applyExtents, h.accesses_eq, hunroll]

theorem foldApplies_eq (h : p.SameFrame q) (os : List Operation) :
    ∀ t : ExtentTable, q.foldApplies t (os.map Operation.frame) = p.foldApplies t os := by
  induction os with
  | nil => exact fun _ => rfl
  | cons o os ih =>
      intro t
      rw [List.map_cons, foldApplies, foldApplies, h.applyExtents_eq]
      simp only [Operation.frame]
      cases o.kind with
      | apply bounds body =>
          simp only [OpKind.frame]
          cases p.applyExtents o with
          | error fault => rfl
          | ok extents => exact ih _
      | _ => exact ih t

theorem walk_eq (h : p.SameFrame q) (us : List OpId) :
    (q.walk us).map Operation.frame = (p.walk us).map Operation.frame := by
  have hwalk : ∀ r : Program, (r.walk us).map Operation.frame =
      ((r.opsAt us).map Operation.frame).flatMap fun o =>
        o :: (r.opsAt (o.kind.body?.elim [] Block.ops)).map Operation.frame := by
    intro r
    rw [walk, List.map_flatMap, List.flatMap_map]
    simp only [List.map_cons, Operation.frame, OpKind.body?_frame]
  rw [hwalk, hwalk, h.opsAt_eq]
  exact List.flatMap_congr fun o _ => by rw [h.opsAt_eq]

theorem foldFunctions_eq (h : p.SameFrame q) (fs : List Function) :
    ∀ t : ExtentTable, q.foldFunctions t fs = p.foldFunctions t fs := by
  induction fs with
  | nil => exact fun _ => rfl
  | cons f fs ih =>
      intro t
      have happlies : q.foldApplies t (q.walk f.body) = p.foldApplies t (p.walk f.body) := by
        rw [← (SameFrame.refl q).foldApplies_eq, h.walk_eq, h.foldApplies_eq]
      rw [foldFunctions, foldFunctions, happlies]
      split
      · cases p.foldApplies t (p.walk f.body) with
        | error fault => rfl
        | ok t' => exact ih t'
      · exact ih t

/-- Extents belong to the frame of a program. -/
theorem extents_eq (h : p.SameFrame q) : q.extents = p.extents := by
  rw [extents, extents, h.functions]
  exact h.foldFunctions_eq _ _

end SameFrame
end Extents

section Values

variable (p : Program)

theorem value?_setType (v : ValueId) (ty : Ty) (w : ValueId) :
    ((p.setType v ty).value? w).map Value.frame = (p.value? w).map Value.frame := by
  rw [setType, value?_modifyValue]
  split
  · cases p.value? w <;> rfl
  · rfl

theorem value?_setOperandType (user : OpId) (operand : Nat) (ty : Ty) (w : ValueId) :
    ((p.setOperandType user operand ty).value? w).map Value.frame =
      (p.value? w).map Value.frame := by
  rw [setOperandType_eq]
  cases p.bodyArg? user operand with
  | none => rfl
  | some arg => exact value?_setType _ arg ty w

variable {p}

/-- Values keep everything but their types. -/
theorem Rewritten.value {q : Program} (h : p.Rewritten q) (w : ValueId) :
    (q.value? w).map Value.frame = (p.value? w).map Value.frame := by
  induction h with
  | refl => rfl
  | commit _ hcommit ih =>
      obtain ⟨_, _, _, _, rfl⟩ := commit_eq_ok.1 hcommit
      exact ih
  | setType v ty _ ih => exact (value?_setType _ v ty w).trans ih
  | setOperandType user operand ty _ ih =>
      exact (value?_setOperandType _ user operand ty w).trans ih

end Values

/-- The programs differ in what has been committed and in the types that follow from it, and
in nothing else. -/
structure OnlyShapes (p : Program) (listed : List Inferred) (q : Program) : Prop where
  functions : q.functions = p.functions
  ops : ∀ u, (q.op? u).map Operation.frame = (p.op? u).map Operation.frame
  values : ∀ v, (q.value? v).map Value.frame = (p.value? v).map Value.frame
  /-- What is listed is a load or an apply of a stencil program and has got its bounds. -/
  committed : ∀ i ∈ listed, p.boundsOf i.op = none ∧ q.boundsOf i.op = some i.bounds ∧
    (∃ o, p.op? i.op = some o ∧ o.kind.isInferable = true) ∧
    ∃ f ∈ p.functions.toList, f.stencil = true ∧ i.op ∈ f.body
  bounds : ∀ u, (∀ i ∈ listed, i.op ≠ u) → q.boundsOf u = p.boundsOf u
  element : ∀ v, (q.typeOf v).element = (p.typeOf v).element
  /-- A type has changed only if the value is a result of what is listed, or stands for one. -/
  types : ∀ v, q.typeOf v ≠ p.typeOf v → ∃ r, p.ResultOf listed r ∧ p.Follows r v
  declared_element : ∀ u o o', p.op? u = some o → q.op? u = some o' →
    o'.operandTypes.map Ty.element = o.operandTypes.map Ty.element
  /-- What is declared has changed only where a shaped operation reads such a result. -/
  declared : ∀ u o o' (k : Nat), p.op? u = some o → q.op? u = some o' →
    o'.operandTypes[k]? ≠ o.operandTypes[k]? →
      o.kind.isShaped = true ∧ ∃ r, o.operands[k]? = some r ∧ p.ResultOf listed r

/-- The blocks of the function at a position: its own one, and the bodies in it. -/
def HasBlock (p : Program) (k : Nat) : Region → Prop
  | .entry j => j = k
  | .body a => a ∈ p.opsIn (.entry k)

/-- Functions that are no stencil programs have their operations and values as they were. -/
structure SparesOthers (p q : Program) : Prop where
  ops : ∀ (k : Nat) f r, p.functions[k]? = some f → f.stencil = false → p.HasBlock k r →
    ∀ u ∈ p.opsIn r, q.op? u = p.op? u
  values : ∀ (k : Nat) f r, p.functions[k]? = some f → f.stencil = false → p.HasBlock k r →
    ∀ v, p.DefinedIn r v → q.value? v = p.value? v

/-- What a run lists stands in stencil programs. -/
theorem FunctionsRun.exists_stencil {p : Program} {t : ExtentTable} {fs : List Function}
    {r : Inference} {i : Inferred}
    (h : p.FunctionsRun t [] fs r)
    (hi : i ∈ r.inferred) :
    ∃ f ∈ fs, f.stencil = true ∧ i.op ∈ f.body := by
  have hentry : i.entry ∈ r.inferred.map Inferred.entry := List.mem_map_of_mem hi
  cases hfault : r.fault with
  | none =>
      rw [h.complete hfault] at hentry
      exact mem_schedule hentry
  | some fault =>
      obtain ⟨before, f, after, earlier, x, later, hfs, hs, hbody, _, hentries⟩ :=
        h.stopped fault hfault
      rw [hentries] at hentry
      rcases List.mem_append.1 hentry with hmem | hmem
      · obtain ⟨g, hg, hstencil, hu⟩ := mem_schedule hmem
        exact ⟨g, hfs ▸ List.mem_append_left _ hg, hstencil, hu⟩
      · obtain ⟨u, hu, heq⟩ := List.mem_map.1 hmem
        refine ⟨f, by simp [hfs], hs, ?_⟩
        rw [← show u = i.op from congrArg Prod.snd heq, hbody]
        exact List.mem_append_right _
          (List.mem_cons_of_mem _ (List.mem_reverse.1 (mem_inferablesIn hu)))

/-- Whether it succeeds or fails, a run changes only shapes. -/
theorem onlyShapes_of_inferShapes {p : Program} (t : ExtentTable)
    (hc : p.Coherent) (hf : p.Fresh) :
    p.OnlyShapes (p.inferShapes t).2.1.inferred (p.inferShapes t).1 := by
  have hrun := run_inferFunctions (t := t) hc hf p.functions.toList (Commits.start p)
  have hcommits : p.Commits (p.inferShapes t).2.1.inferred (p.inferShapes t).1 := hrun.commits
  have hwrites := writes_of_inferShapes (t := t) hc
  constructor
  case functions => exact hwrites.frame.functions
  case ops => exact hwrites.frame.op
  case values => exact (rewritten_inferFunctions t p.functions.toList p).value
  case committed =>
    intro i hi
    have hcommitted := hcommits.committed i hi
    obtain ⟨o, ho, hk, _⟩ := hcommitted.results
    exact ⟨hcommitted.unbounded, hcommitted.bounds, ⟨o, ho, hk⟩, hrun.exists_stencil hi⟩
  case bounds => exact hcommits.bounds
  case element => exact hwrites.element
  case types =>
    intro v hne
    by_contra hnone
    exact hne (hwrites.types v fun r hr hfollows => hnone ⟨r, hr, hfollows⟩)
  case declared_element => exact fun u o o' => hwrites.declared_element
  case declared =>
    intro u o o' k ho ho' hne
    by_contra hnone
    exact hne (hwrites.declared ho ho' fun hs r hr hres => hnone ⟨hs, r, hr, hres⟩)

/-- The arguments of functions are no results and stand for none. -/
theorem OnlyShapes.typeOf_param {p q : Program} {listed : List Inferred} {v : ValueId} {i : Nat}
    (h : p.OnlyShapes listed q)
    (hc : p.Coherent)
    (hv : p.originOf v = some (.arg none i)) :
    q.typeOf v = p.typeOf v := by
  by_contra hne
  obtain ⟨r, ⟨_, _, o, ho, hres⟩, rfl | ⟨a, k, o', horigin, _⟩⟩ := h.types v hne
  · obtain ⟨j, hj⟩ := hc.mem_results ho hres
    rw [hv] at hj
    cases hj
  · rw [hv] at horigin
    cases horigin

section Loaded

variable {d : Description} {p q : Program} {listed : List Inferred}

/-- The results of what is listed belong to stencil programs. -/
theorem OnlyShapes.definedIn (h : p.OnlyShapes listed q) {v : ValueId}
    (hv : p.ResultOf listed v) :
    ∃ (k : Nat) (f : Function), p.functions[k]? = some f ∧ f.stencil = true ∧
      p.DefinedIn (.entry k) v := by
  obtain ⟨i, hi, o, ho, hres⟩ := hv
  obtain ⟨_, _, _, f, hf, hs, hu⟩ := h.committed i hi
  obtain ⟨k, hk⟩ := List.getElem?_of_mem hf
  refine ⟨k, f, ?_, hs, .inr ⟨i.op, mem_opsIn_entry.2 ⟨f, hk, hu⟩, o, ho, hres⟩⟩
  rwa [← Array.getElem?_toList]

section Others

variable {k : Nat} {f : Function} {r : Region}

variable
  (h : p.OnlyShapes listed q)
  (hf : p.functions[k]? = some f)
  (hs : f.stencil = false)
  (hr : p.HasBlock k r)

include h hf hs hr

/-- What another function defines is no such result. -/
theorem OnlyShapes.not_resultOf {v : ValueId}
    (hsound : Builder.Sound { program := p })
    (hv : p.DefinedIn r v) :
    ¬ p.ResultOf listed v := by
  intro hres
  obtain ⟨j, g, hg, hstencil, hdefined⟩ := h.definedIn hres
  obtain rfl := hv.unique hsound hdefined
  obtain rfl : j = k := hr
  obtain rfl : f = g := Option.some.inj (hf.symm.trans hg)
  rw [hs] at hstencil
  cases hstencil

/-- The operations of another function have the bounds that they had. -/
theorem OnlyShapes.boundsOf_eq {u : OpId}
    (hsound : Builder.Sound { program := p })
    (hu : u ∈ p.opsIn r) :
    q.boundsOf u = p.boundsOf u := by
  refine h.bounds u fun i hi hiu => ?_
  obtain ⟨_, _, _, g, hg, hstencil, hmem⟩ := h.committed i hi
  obtain ⟨j, hj⟩ := List.getElem?_of_mem hg
  obtain rfl := region_unique hsound hu (mem_opsIn_entry.2 ⟨g, hj, hiu ▸ hmem⟩)
  obtain rfl : j = k := hr
  rw [← Array.getElem?_toList, hj] at hf
  obtain rfl := Option.some.inj hf
  rw [hs] at hstencil
  cases hstencil

/-- They declare what they did, since what they read is none of these results. -/
theorem OnlyShapes.operandTypes_eq {u : OpId} {o o' : Operation}
    (hload : d.elaborate = .ok p)
    (hu : u ∈ p.opsIn r)
    (ho : p.op? u = some o)
    (ho' : q.op? u = some o') :
    o'.operandTypes = o.operandTypes := by
  refine List.ext_getElem? fun n => ?_
  by_contra hne
  obtain ⟨_, v, hv, hres⟩ := h.declared u o o' n ho ho' hne
  have hdefined := Description.definedIn_of_operand hload hu ho (List.mem_of_getElem? hv)
  exact h.not_resultOf hf hs hr (Description.sound_of_elaborate hload) hdefined hres

/-- The values of another function have the types that they had. -/
theorem OnlyShapes.typeOf_eq {v : ValueId}
    (hload : d.elaborate = .ok p)
    (hv : p.DefinedIn r v) :
    q.typeOf v = p.typeOf v := by
  have hsound := Description.sound_of_elaborate hload
  by_contra hne
  obtain ⟨w, hres, rfl | ⟨a, n, o, horigin, ho, hread⟩⟩ := h.types v hne
  · exact h.not_resultOf hf hs hr hsound hv hres
  · -- An argument of a body is defined there, and what it stands for around that body.
    rcases hv with harg | ⟨u, _, ou, hou, hmem⟩
    · obtain ⟨i, hi⟩ := origin_of_mem_argsIn hsound harg
      rw [horigin, Option.some.injEq, Origin.arg.injEq] at hi
      cases r with
      | entry j => cases hi.1
      | body b =>
          obtain rfl : a = b := Option.some.inj hi.1
          have hdefined : p.DefinedIn (.entry k) w :=
            Description.definedIn_of_operand hload hr ho (List.mem_of_getElem? hread)
          exact h.not_resultOf hf hs (r := .entry k) rfl hsound hdefined hres
    · obtain ⟨i, hi⟩ := hsound.coherent.mem_results hou hmem
      rw [horigin] at hi
      cases hi

end Others

/-- In a loaded program no value leaves its function, so nothing that follows a result of a
stencil program is found in another function. -/
theorem sparesOthers_of_onlyShapes (hload : d.elaborate = .ok p) (h : p.OnlyShapes listed q) :
    p.SparesOthers q := by
  have hsound := Description.sound_of_elaborate hload
  constructor
  case ops =>
    intro k f r hf hs hr u hu
    obtain ⟨o, ho⟩ := Option.isSome_iff_exists.1 ((hsound.inRange (SameFrame.refl p)).block r u hu)
    have hframe := h.ops u
    rw [ho] at hframe
    obtain ⟨o', ho', hframe⟩ := Option.map_eq_some_iff.1 hframe
    have hbounds := h.boundsOf_eq hf hs hr hsound hu
    rw [boundsOf, boundsOf, ho, ho'] at hbounds
    have htys := h.operandTypes_eq hf hs hr hload hu ho ho'
    rw [ho', ho, Operation.eq_of_frame hframe hbounds htys]
  case values =>
    intro k f r hf hs hr v hv
    have hty := h.typeOf_eq hf hs hr hload hv
    have hframe := h.values v
    cases hw : p.value? v with
    | none =>
        rw [hw] at hframe
        exact Option.map_eq_none_iff.1 hframe
    | some w =>
        rw [hw] at hframe
        obtain ⟨w', hw', hframe⟩ := Option.map_eq_some_iff.1 hframe
        rw [typeOf, typeOf, hw, hw'] at hty
        rw [hw', Value.eq_of_frame hframe hty]

end Loaded

/-- Whether it succeeds or fails, inference changes nothing but shapes: the extents are the
same before and after, and a loaded program keeps all functions that are no stencil
programs as they were. -/
theorem inference_changes_only_shapes {p q : Program} {t : ExtentTable} {s : ShapeSummary}
    {fault? : Option DomainFault}
    (h : p.Built)
    (hinfer : p.inferShapes t = (q, s, fault?)) :
    p.OnlyShapes s.inferred q ∧ q.extents = p.extents ∧
      ∀ d : Description, d.elaborate = .ok p → p.SparesOthers q := by
  have honly := onlyShapes_of_inferShapes t h.coherent h.fresh
  have hframe := (rewritten_inferFunctions t p.functions.toList p).sameFrame
  have hq : (p.inferShapes t).1 = q := congrArg Prod.fst hinfer
  have hs : (p.inferShapes t).2.1 = s := congrArg (fun r => r.2.1) hinfer
  rw [hq, hs] at honly
  refine ⟨honly, ?_, fun d hload => sparesOthers_of_onlyShapes hload honly⟩
  rw [← hq]
  exact hframe.extents_eq

end Program

/-- The smoothing step, behind one that is no stencil program. -/
def Description.hosting : Description :=
  { functions :=
      smoothing.functions.map (fun f => { f with name := "host", stencil := false }) ++
        smoothing.functions }

namespace Program

/-- The program of both. -/
def hosting : Program :=
  (elaborateFunctions {} Description.hosting.functions).1

/-- The extents of both. -/
def hostingExtents : ExtentTable :=
  hosting.extents.toOption.getD .empty

theorem elaborate_hosting : Description.hosting.elaborate = .ok hosting := by
  rfl

/-- What inference makes of both. -/
def hostingShaped : Program :=
  (hosting.inferShapes hostingExtents).1

theorem inference_changes_only_shapes_hosting :
    (hosting.inferShapes hostingExtents).2.1.inferred.map Inferred.entry =
        [("smooth", ⟨9⟩), ("smooth", ⟨8⟩)] ∧
      hosting.OnlyShapes (hosting.inferShapes hostingExtents).2.1.inferred hostingShaped ∧
      hostingShaped.extents = hosting.extents ∧ hosting.SparesOthers hostingShaped := by
  have hinfer : hosting.inferShapes hostingExtents =
      (hostingShaped, (hosting.inferShapes hostingExtents).2.1,
        (hosting.inferShapes hostingExtents).2.2) := by
    rw [hostingShaped]
  obtain ⟨honly, hextents, hspares⟩ := inference_changes_only_shapes
    (Description.sound_of_elaborate elaborate_hosting).building hinfer
  exact ⟨by decide +kernel, honly, hextents, hspares _ elaborate_hosting⟩

end Program
end StencilShapes
