import StencilShapes.Proofs.Description.Faithful
import StencilShapes.Proofs.Description.Accepted

/-!
# Values stay in their blocks

An elaborated program is in scoped form.  Every operation stands in one block, reads
arguments of that block and results of earlier operations in it, and no value leaves the
block that defines it.  A body ends with its only return.

So what reads a result of a function stands behind the operation that defines it.  The
reverse pass over the function has visited the readers when it comes to the operation, and
their bounds do not change any more.

**Results.**
* `Program.ScopedForm`: the form.
* `Program.boundsOf_inferOps`, `Program.boundsOf_inferFunctions`: visits write the bounds of
  what they visit.
* `Description.scopedForm_of_elaborate`: elaborated programs are in scoped form.
-/

namespace StencilShapes

namespace Program

/-- The arguments of a block. -/
def argsIn (p : Program) : Region → List ValueId
  | .entry k => p.functions[k]?.elim [] Function.args
  | .body a => ((p.op? a).bind (·.kind.body?)).elim [] Block.args

/-- A block defines its arguments and the results of its operations. -/
def DefinedIn (p : Program) (r : Region) (v : ValueId) : Prop :=
  v ∈ p.argsIn r ∨ ∃ u ∈ p.opsIn r, ∃ o, p.op? u = some o ∧ v ∈ o.results

/-- The consumer `x` of an operation `u` stands behind it.  Visits of `u` and of what comes
after it in the schedule leave the bounds of `x` alone. -/
structure FinalAt (p : Program) (f : Function) (later : List Function) (u x : OpId) : Prop where
  visited : ∃ init rest, f.body = init ++ u :: rest ∧ x ∈ rest
  bounds : ∀ init rest, f.body = init ++ u :: rest → ∀ t q, p.SameFrame q →
    let r := q.inferOps t f.name (init ++ [u]).reverse
    r.program.boundsOf x = q.boundsOf x ∧
      (r.program.inferFunctions t later).1.program.boundsOf x = q.boundsOf x

/-- Every value is defined once and read behind its definition, in the same block. -/
structure ScopedForm (p : Program) : Prop where
  /-- Every operation stands in one block, once. -/
  placed : ∀ u o, p.op? u = some o →
    ∃ r, r.parent? = o.parent ∧ ∀ s, (p.opsIn s).count u = if s = r then 1 else 0
  /-- An operand is an argument of the block or a result of an earlier operation in it. -/
  operand : ∀ r (k : Nat) u o, (p.opsIn r)[k]? = some u → p.op? u = some o → ∀ v ∈ o.operands,
    v ∈ p.argsIn r ∨ ∃ j < k, ∃ w ow, (p.opsIn r)[j]? = some w ∧ p.op? w = some ow ∧
      v ∈ ow.results
  /-- The last operation of a body is a return, and no other one is. -/
  returns : ∀ a o body, p.op? a = some o → o.kind.body? = some body →
    body.ops ≠ [] ∧ ∀ (k : Nat) x, body.ops[k]? = some x → ∃ ox, p.op? x = some ox ∧
      ((∃ unroll, ox.kind = .ret unroll) ↔ k + 1 = body.ops.length)
  /-- What reads a value stands in the block that defines it. -/
  apart : ∀ r v, p.DefinedIn r v → ∀ use ∈ p.usesOf v, use.user ∈ p.opsIn r
  /-- What reads a result stands behind the operation that defines it. -/
  later : ∀ r (j : Nat) u o, (p.opsIn r)[j]? = some u → p.op? u = some o →
    ∀ v ∈ o.results, ∀ use ∈ p.usesOf v, ∃ k, j < k ∧ (p.opsIn r)[k]? = some use.user
  /-- When the reverse pass comes to an operation, the bounds of what reads its results are
  final. -/
  final : ∀ before f after, p.functions.toList = before ++ f :: after →
    ∀ u ∈ f.body, ∀ o, p.op? u = some o → ∀ v ∈ o.results, ∀ use ∈ p.usesOf v,
      p.FinalAt f after u use.user

section Visits

variable {p : Program} {t : ExtentTable} {x : OpId}

/-- Visits write the bounds of what they visit. -/
theorem boundsOf_inferOps (hid : ∀ {u o}, p.op? u = some o → o.id = u) (name : String) :
    ∀ (us : List OpId) {q : Program}, p.SameFrame q → x ∉ us →
      (q.inferOps t name us).program.boundsOf x = q.boundsOf x := by
  intro us
  induction us with
  | nil => exact fun _ _ => rfl
  | cons u us ih =>
      intro q h hx
      obtain ⟨hxu, hxus⟩ := not_or.1 (fun h => hx (List.mem_cons.2 h))
      simp only [inferOps]
      split
      · exact ih h hxus
      · next o ho =>
          split
          · split
            · rfl
            · next q' i hok =>
                obtain ⟨hframe, hbounds⟩ := inferOp_spec hok
                have hou : o.id = u := h.op_id hid ho
                refine (ih (h.trans hframe) hxus).trans ?_
                rw [hbounds, if_neg (hou ▸ hxu)]
          · exact ih h hxus

theorem boundsOf_inferFunctions (hid : ∀ {u o}, p.op? u = some o → o.id = u) :
    ∀ (fs : List Function) {q : Program}, p.SameFrame q → (∀ f ∈ fs, x ∉ f.body) →
      (q.inferFunctions t fs).1.program.boundsOf x = q.boundsOf x := by
  intro fs
  induction fs with
  | nil => exact fun _ _ => rfl
  | cons f fs ih =>
      intro q h hx
      obtain ⟨hxf, hxfs⟩ := List.forall_mem_cons.1 hx
      have hframe := (rewritten_inferOps t f.name f.body.reverse q).sameFrame
      have hvisits := boundsOf_inferOps (t := t) hid f.name f.body.reverse h
        (fun hmem => hxf (List.mem_reverse.1 hmem))
      simp only [inferFunctions]
      split
      · split
        · exact hvisits
        · exact (ih (h.trans hframe) hxfs).trans hvisits
      · exact ih h hxfs

end Visits

section Regions

variable {p : Program}

theorem mem_argsIn_entry {k : Nat} {v : ValueId} :
    v ∈ p.argsIn (.entry k) ↔ ∃ f, p.functions.toList[k]? = some f ∧ v ∈ f.args := by
  rw [argsIn, ← Array.getElem?_toList]
  cases p.functions.toList[k]? <;> simp

theorem mem_argsIn_body {a : OpId} {v : ValueId} :
    v ∈ p.argsIn (.body a) ↔
      ∃ o body, p.op? a = some o ∧ o.kind.body? = some body ∧ v ∈ body.args := by
  rw [argsIn]
  cases p.op? a with
  | none => simp
  | some o => cases hb : o.kind.body? <;> simp [hb]

variable (h : Builder.Sound { program := p })

include h

/-- An argument knows whose argument it is. -/
theorem origin_of_mem_argsIn {r : Region} {v : ValueId} (hv : v ∈ p.argsIn r) :
    ∃ i, p.originOf v = some (.arg r.parent? i) := by
  cases r with
  | entry k =>
      obtain ⟨f, hf, hv⟩ := mem_argsIn_entry.1 hv
      obtain ⟨i, hi⟩ := List.getElem?_of_mem hv
      exact ⟨i, h.filed.params f (List.mem_of_getElem? hf) hi⟩
  | body a =>
      obtain ⟨o, body, ho, hbody, hv⟩ := mem_argsIn_body.1 hv
      obtain ⟨i, hi⟩ := List.getElem?_of_mem hv
      exact ⟨i, h.coherent.arg.2 ⟨o, body, ho, hbody, hi⟩⟩

/-- An operation stands in one block only. -/
theorem region_unique {r s : Region} {u : OpId} (hr : u ∈ p.opsIn r) (hs : u ∈ p.opsIn s) :
    r = s := by
  obtain ⟨o, ho⟩ := Option.isSome_iff_exists.1 ((h.inRange (SameFrame.refl p)).block r u hr)
  obtain ⟨_, _, hcount⟩ := h.exact.placed u o ho List.not_mem_nil
  have hpos : ∀ {s}, u ∈ p.opsIn s → s = _ := fun {s} hs => by
    by_contra hne
    have hzero := hcount s
    rw [if_neg hne] at hzero
    exact List.count_eq_zero.1 hzero hs
  exact (hpos hr).trans (hpos hs).symm

theorem nodup_opsIn (r : Region) : (p.opsIn r).Nodup :=
  (h.filed.ordered_opsIn h.fresh r).imp fun hlt he => Nat.ne_of_lt hlt (congrArg OpId.index he)

/-- A value is defined in one block only. -/
theorem DefinedIn.unique {r s : Region} {v : ValueId} (hr : p.DefinedIn r v)
    (hs : p.DefinedIn s v) :
    r = s := by
  rcases hr with hr | ⟨u, hu, o, ho, hv⟩
  · obtain ⟨i, hi⟩ := origin_of_mem_argsIn h hr
    rcases hs with hs | ⟨w, hw, ow, how, hvw⟩
    · obtain ⟨j, hj⟩ := origin_of_mem_argsIn h hs
      rw [hi, Option.some.injEq, Origin.arg.injEq] at hj
      cases r with
      | entry k =>
          cases s with
          | body b => cases hj.1
          | entry m =>
              obtain ⟨f, hf, hvf⟩ := mem_argsIn_entry.1 hr
              obtain ⟨g, hg, hvg⟩ := mem_argsIn_entry.1 hs
              rw [index_unique h.filed.params_ordered hf hg hvf hvg]
      | body a =>
          cases s with
          | entry m => cases hj.1
          | body b => rw [Option.some.inj hj.1]
    · obtain ⟨j, hj⟩ := h.coherent.mem_results how hvw
      rw [hi] at hj
      cases hj
  · obtain ⟨i, hi⟩ := h.coherent.mem_results ho hv
    rcases hs with hs | ⟨w, hw, ow, how, hvw⟩
    · obtain ⟨j, hj⟩ := origin_of_mem_argsIn h hs
      rw [hi] at hj
      cases hj
    · obtain ⟨j, hj⟩ := h.coherent.mem_results how hvw
      rw [hi] at hj
      cases hj
      exact region_unique h hu hw

end Regions
end Program

open Program

namespace BodyOpDesc

theorem isReturn_iff (op : BodyOpDesc) :
    op.isReturn = true ↔ ∃ unroll, op.kind = .ret unroll := by
  cases op <;> simp [isReturn, kind]

end BodyOpDesc

/-- The return of a body is told by its position. -/
theorem Returns.isReturn_iff {n k : Nat} {body : List BodyOpDesc} {op : BodyOpDesc}
    (h : Returns n body)
    (hop : body[k]? = some op) :
    op.isReturn = true ↔ k + 1 = body.length := by
  obtain ⟨init, operands, unroll, rfl, hinit, _⟩ := h
  rw [List.length_append, List.length_singleton, Nat.add_right_cancel_iff]
  rcases getElem?_concat_eq_some.1 hop with hop | ⟨rfl, rfl⟩
  · have hlt := (List.getElem?_eq_some_iff.1 hop).1
    rw [hinit op (List.mem_of_getElem? hop)]
    exact iff_of_false Bool.false_ne_true (Nat.ne_of_lt hlt)
  · exact iff_of_true rfl rfl

namespace Description

variable {d : Description} {p : Program}

/-- An operation stands in one of the blocks. -/
theorem exists_region {u : OpId} {o : Operation} (h : d.elaborate = .ok p)
    (ho : p.op? u = some o) :
    ∃ r, u ∈ p.opsIn r := by
  obtain ⟨r, _, hcount⟩ := (sound_of_elaborate h).exact.placed u o ho List.not_mem_nil
  refine ⟨r, List.count_pos_iff.1 ?_⟩
  rw [hcount r, if_pos rfl]
  exact Nat.one_pos

/-- An inner operation stands in the body of an apply. -/
theorem exists_block_of_inner {u : OpId} {o : Operation} (h : d.elaborate = .ok p)
    (ho : p.op? u = some o)
    (hk : o.kind.isShaped = false) :
    ∃ a oa block, p.op? a = some oa ∧ oa.kind.body? = some block ∧ u ∈ block.ops := by
  obtain ⟨r, hu⟩ := exists_region h ho
  cases r with
  | entry k =>
      obtain ⟨o', ho', hshaped⟩ :=
        (sound_of_elaborate h).fresh.entry u (mem_entries_iff.2 ⟨k, hu⟩)
      obtain rfl : o = o' := Option.some.inj (ho.symm.trans ho')
      rw [hk] at hshaped
      cases hshaped
  | body a =>
      obtain ⟨oa, block, hoa, hblock, hmem⟩ := mem_bodyOps.1 hu
      exact ⟨a, oa, block, hoa, hblock, hmem⟩

/-- What an operation of a function has been described by. -/
theorem exists_opDesc {u : OpId} {o : Operation} (h : d.elaborate = .ok p)
    (ho : p.op? u = some o)
    (hk : o.kind.isShaped = true) :
    ∃ f ∈ d.functions, ∃ op ∈ f.ops, ∃ env, p.RealizesOp env op o := by
  have hentry : u ∈ p.entries := by
    obtain ⟨r, hu⟩ := exists_region h ho
    cases r with
    | entry k => exact mem_entries_iff.2 ⟨k, hu⟩
    | body a =>
        obtain ⟨oa, block, hoa, hblock, hmem⟩ := mem_bodyOps.1 hu
        obtain ⟨o', ho', hinner⟩ := (sound_of_elaborate h).fresh.inner hoa hblock u hmem
        obtain rfl : o = o' := Option.some.inj (ho.symm.trans ho')
        rw [hk] at hinner
        cases hinner
  obtain ⟨g, hg, hug⟩ := List.mem_flatMap.1 hentry
  obtain ⟨f, hf, hrealizes⟩ := exists_mem_of_forall₂ (realizes_functions h).1 g hg
  obtain ⟨op, hop, _, o', ho', hrealizes⟩ := hrealizes.ops.exists_op u hug
  obtain rfl : o = o' := Option.some.inj (ho.symm.trans ho')
  exact ⟨f, hf, op, hop, _, hrealizes⟩

/-- What a body has been described by. -/
theorem exists_applyDesc {a : OpId} {o : Operation} {block : Block}
    (h : d.elaborate = .ok p)
    (ho : p.op? a = some o)
    (hblock : o.kind.body? = some block) :
    ∃ f ∈ d.functions, ∃ results operands params body,
      OpDesc.apply results operands params body ∈ f.ops ∧ block.args.length = params.length ∧
        p.RealizesBody a (params.zip block.args) body block.ops := by
  obtain ⟨f, hf, op, hop, _, hrealizes⟩ := exists_opDesc h ho (OpKind.isShaped_of_body? hblock)
  have hcontents := hrealizes.contents
  cases op with
  | load result field =>
      rw [hcontents.1] at hblock
      cases hblock
  | apply results operands params body =>
      obtain ⟨block', hk, hlength, hbody, _⟩ := hcontents
      rw [hk] at hblock
      obtain rfl : block' = block := Option.some.inj hblock
      rw [(sound_of_elaborate h).coherent.op_id ho] at hbody
      exact ⟨f, hf, results, operands, params, body, hop, hlength, hbody⟩
  | store value field lower upper =>
      rw [show o.kind = _ from hcontents] at hblock
      cases hblock

/-- An operand is an argument of the block or a result of an earlier operation in it. -/
theorem operand_of_elaborate (h : d.elaborate = .ok p) (r : Region) {k : Nat} {u : OpId}
    {o : Operation} {v : ValueId}
    (hu : (p.opsIn r)[k]? = some u)
    (ho : p.op? u = some o)
    (hv : v ∈ o.operands) :
    v ∈ p.argsIn r ∨ ∃ j < k, ∃ w ow, (p.opsIn r)[j]? = some w ∧ p.op? w = some ow ∧
      v ∈ ow.results := by
  have hzip : ∀ {names : List String} {args : List ValueId},
      v ∈ (names.zip args).map Prod.snd → v ∈ args := fun hmem => by
    obtain ⟨b, hb, rfl⟩ := List.mem_map.1 hmem
    exact (List.of_mem_zip hb).2
  cases r with
  | entry n =>
      obtain ⟨g, hg, _⟩ := mem_opsIn_entry.1 (List.mem_of_getElem? hu)
      have hbody : p.opsIn (.entry n) = g.body := by
        rw [opsIn, ← Array.getElem?_toList, hg]
        rfl
      rw [hbody] at hu ⊢
      obtain ⟨f, _, hrealizes⟩ :=
        exists_mem_of_forall₂ (realizes_functions h).1 g (List.mem_of_getElem? hg)
      refine (hrealizes.ops.operand_cases RealizesOp.operand_mem hu ho v hv).imp_left fun hmem => ?_
      exact mem_argsIn_entry.2 ⟨g, hg, hzip hmem⟩
  | body a =>
      obtain ⟨oa, block, hoa, hblock, _⟩ := mem_bodyOps.1 (List.mem_of_getElem? hu)
      have hbody : p.opsIn (.body a) = block.ops := by
        rw [opsIn, bodyOps_eq hoa, hblock]
        rfl
      rw [hbody] at hu ⊢
      obtain ⟨_, _, _, _, params, _, _, _, hrealizes⟩ := exists_applyDesc h hoa hblock
      refine (hrealizes.operand_cases RealizesInner.operand_mem hu ho v hv).imp_left fun hmem => ?_
      exact mem_argsIn_body.2 ⟨oa, block, hoa, hblock, hzip hmem⟩

theorem wellFormed_of_elaborate (h : d.elaborate = .ok p) :
    ∀ f ∈ d.functions, f.WellFormed :=
  (rejections_of_elaborateFunctions d.functions {}).eq_nil_iff.1
    (congrArg Prod.snd (elaborate_eq_ok.1 h))

/-- The last operation of a body is its only return. -/
theorem returns_of_elaborate {a : OpId} {o : Operation} {block : Block}
    (h : d.elaborate = .ok p)
    (ho : p.op? a = some o)
    (hblock : o.kind.body? = some block) :
    block.ops ≠ [] ∧ ∀ (k : Nat) x, block.ops[k]? = some x → ∃ ox, p.op? x = some ox ∧
      ((∃ unroll, ox.kind = .ret unroll) ↔ k + 1 = block.ops.length) := by
  obtain ⟨f, hf, results, operands, params, body, hop, _, hrealizes⟩ :=
    exists_applyDesc h ho hblock
  obtain ⟨_, _, hwell⟩ := ((wellFormed_of_elaborate h f hf).ops _ hop).body
  have hall := Realizes.forall₂ hrealizes
  have hlength := hall.length_eq
  refine ⟨?_, fun k x hx => ?_⟩
  · obtain ⟨init, ops, unroll, hbody, _⟩ := hwell.returns
    rw [← List.length_pos_iff, ← hlength, hbody, List.length_append]
    exact Nat.succ_pos _
  · obtain ⟨hk, rfl⟩ := List.getElem?_eq_some_iff.1 hx
    have hk' : k < body.length := hlength ▸ hk
    obtain ⟨_, ox, hox, hinner⟩ := hall.get hk' hk
    refine ⟨ox, hox, ?_⟩
    rw [hinner.kind, ← BodyOpDesc.isReturn_iff, ← hlength]
    exact hwell.returns.isReturn_iff (List.getElem?_eq_getElem hk')

/-- What an operation reads is defined in its block. -/
theorem definedIn_of_operand (h : d.elaborate = .ok p) {r : Region} {u : OpId} {o : Operation}
    {v : ValueId}
    (hu : u ∈ p.opsIn r)
    (ho : p.op? u = some o)
    (hv : v ∈ o.operands) :
    p.DefinedIn r v := by
  obtain ⟨k, hk⟩ := List.getElem?_of_mem hu
  exact (operand_of_elaborate h r hk ho hv).imp_right
    fun ⟨_, _, w, ow, hw, how, hvw⟩ => ⟨w, List.mem_of_getElem? hw, ow, how, hvw⟩

/-- What reads a value stands in the block that defines it. -/
theorem region_of_use (h : d.elaborate = .ok p) {r : Region} {v : ValueId} {use : Use}
    (hv : p.DefinedIn r v)
    (huse : use ∈ p.usesOf v) :
    ∃ (k : Nat) (o : Operation), (p.opsIn r)[k]? = some use.user ∧ p.op? use.user = some o ∧
      v ∈ o.operands := by
  have hsound := sound_of_elaborate h
  obtain ⟨o, ho, hread⟩ := hsound.coherent.mem_uses.1 huse
  have hmem := List.mem_of_getElem? hread
  obtain ⟨s, hs⟩ := exists_region h ho
  obtain rfl := (definedIn_of_operand h hs ho hmem).unique hsound hv
  obtain ⟨k, hk⟩ := List.getElem?_of_mem hs
  exact ⟨k, o, hk, ho, hmem⟩

/-- What reads a result stands behind the operation that defines it. -/
theorem later_of_elaborate (h : d.elaborate = .ok p) {r : Region} {j : Nat} {u : OpId}
    {o : Operation} {v : ValueId} {use : Use}
    (hu : (p.opsIn r)[j]? = some u)
    (ho : p.op? u = some o)
    (hv : v ∈ o.results)
    (huse : use ∈ p.usesOf v) :
    ∃ k, j < k ∧ (p.opsIn r)[k]? = some use.user := by
  have hsound := sound_of_elaborate h
  obtain ⟨i, hi⟩ := hsound.coherent.mem_results ho hv
  obtain ⟨k, oc, hk, hoc, hread⟩ :=
    region_of_use h (.inr ⟨u, List.mem_of_getElem? hu, o, ho, hv⟩) huse
  refine ⟨k, ?_, hk⟩
  rcases operand_of_elaborate h r hk hoc hread with harg | ⟨j', hlt, w, ow, hw, how, hvw⟩
  · obtain ⟨i', hi'⟩ := origin_of_mem_argsIn hsound harg
    rw [hi] at hi'
    cases hi'
  · obtain ⟨i', hi'⟩ := hsound.coherent.mem_results how hvw
    rw [hi] at hi'
    cases hi'
    -- The definition stands at one position, which is that of the reader's operand.
    have hj := (List.getElem?_eq_some_iff.1 hu).1
    rwa [(List.getElem?_inj hj (nodup_opsIn hsound r)).1 (hu.trans hw.symm)]

/-- When the reverse pass comes to an operation, the bounds of what reads its results are
final. -/
theorem finalAt_of_elaborate (h : d.elaborate = .ok p) {before after : List Function}
    {f : Function} {u : OpId} {o : Operation} {v : ValueId} {use : Use}
    (hfs : p.functions.toList = before ++ f :: after)
    (hu : u ∈ f.body)
    (ho : p.op? u = some o)
    (hv : v ∈ o.results)
    (huse : use ∈ p.usesOf v) :
    p.FinalAt f after u use.user := by
  have hsound := sound_of_elaborate h
  have hf : p.functions.toList[before.length]? = some f := by
    rw [hfs, List.getElem?_append_right (Nat.le_refl _), Nat.sub_self]
    rfl
  have hbody : p.opsIn (.entry before.length) = f.body := by
    rw [opsIn, ← Array.getElem?_toList, hf]
    rfl
  have hnodup : f.body.Nodup := hbody ▸ nodup_opsIn hsound (.entry before.length)
  -- The reader is behind the operation, wherever the list is split at the operation.
  have hbehind : ∀ init rest, f.body = init ++ u :: rest → use.user ∈ rest := by
    intro init rest hsplit
    have hj : (p.opsIn (.entry before.length))[init.length]? = some u := by
      rw [hbody, hsplit, List.getElem?_append_right (Nat.le_refl _), Nat.sub_self]
      rfl
    obtain ⟨k, hlt, hk⟩ := later_of_elaborate h hj ho hv huse
    obtain ⟨m, rfl⟩ := Nat.exists_eq_add_of_lt hlt
    rw [hbody, hsplit, List.getElem?_append_right (by omega),
      show init.length + m + 1 - init.length = m + 1 by omega] at hk
    exact List.mem_of_getElem? hk
  obtain ⟨init, rest, hsplit⟩ := List.append_of_mem hu
  refine ⟨⟨init, rest, hsplit, hbehind init rest hsplit⟩, fun init rest hsplit t q hframe => ?_⟩
  have hrest := hbehind init rest hsplit
  have hinit : use.user ∉ (init ++ [u]).reverse := by
    rw [hsplit, List.append_cons] at hnodup
    exact fun hmem => (List.nodup_append.1 hnodup).2.2 _ (List.mem_reverse.1 hmem) _ hrest rfl
  have hafter : ∀ g ∈ after, use.user ∉ g.body := by
    intro g hg hmem
    obtain ⟨m, hm⟩ := List.getElem?_of_mem hg
    have hg' : p.functions.toList[before.length + (m + 1)]? = some g := by
      rw [hfs, List.getElem?_append_right (Nat.le_add_right _ _), Nat.add_sub_cancel_left]
      exact hm
    have huser : use.user ∈ f.body :=
      hsplit ▸ List.mem_append_right _ (List.mem_cons_of_mem _ hrest)
    exact absurd (index_unique hsound.fresh.ordered hf hg' huser hmem) (by omega)
  have hvisits := boundsOf_inferOps (t := t) hsound.coherent.op_id f.name _ hframe hinit
  have hvisited := hframe.trans (rewritten_inferOps t f.name (init ++ [u]).reverse q).sameFrame
  exact ⟨hvisits,
    (boundsOf_inferFunctions hsound.coherent.op_id after hvisited hafter).trans hvisits⟩

/-- Elaborated programs are in scoped form. -/
theorem scopedForm_of_elaborate (h : d.elaborate = .ok p) : p.ScopedForm where
  placed u o ho := (sound_of_elaborate h).exact.placed u o ho List.not_mem_nil
  operand r _ _ _ hu ho _ hv := operand_of_elaborate h r hu ho hv
  returns _ _ _ ho hblock := returns_of_elaborate h ho hblock
  apart _ _ hv _ huse := by
    obtain ⟨_, _, hk, _⟩ := region_of_use h hv huse
    exact List.mem_of_getElem? hk
  later _ _ _ _ hu ho _ hv _ huse := later_of_elaborate h hu ho hv huse
  final _ _ _ hfs _ hu _ ho _ hv _ huse := finalAt_of_elaborate h hfs hu ho hv huse

/-- The smoothing of a field is in scoped form. -/
theorem scopedForm_of_elaborate_smoothing :
    ∃ p, Description.smoothing.elaborate = .ok p ∧ p.ScopedForm :=
  ⟨_, Program.elaborate_smoothing, scopedForm_of_elaborate Program.elaborate_smoothing⟩

end Description
end StencilShapes
