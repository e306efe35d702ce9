import StencilShapes.Proofs.Description.Meanings
import StencilShapes.Proofs.Extent.Counterparts

/-!
# One description, two programs

Two operations that realize one description do the same, in whatever programs they stand, if
they read values of the same types.  The bodies of two applies are gone through side by side:
what a name stands for in the one body has the type of what it stands for in the other, and
it is an argument of the one body where it is an argument of the other.

**Results.**
* `Program.RealizesBody.twins`: the operations of the bodies, one by one.
* `Program.Described.types_eq`: the results have the same types.
* `Program.Described.twins`: the operations are twins.
-/

namespace StencilShapes

/-- Environments in which names stand for values that belong together. -/
theorem Environment.meaning_of_forall₂ {R : ValueId → ValueId → Prop} {env env' : Environment}
    {name : String} {v v' : ValueId}
    (h : List.Forall₂ (fun b c => b.1 = c.1 ∧ R b.2 c.2) env env')
    (hv : env.meaning name = some v)
    (hv' : env'.meaning name = some v') :
    R v v' := by
  induction h with
  | nil => cases hv
  | @cons b c _ _ hbc _ ih =>
      obtain ⟨n, w⟩ := b
      obtain ⟨n', w'⟩ := c
      obtain ⟨rfl, hw⟩ : n = n' ∧ R w w' := hbc
      rw [meaning, List.lookup_cons] at hv hv'
      split at hv
      · next heq =>
          rw [heq] at hv'
          cases hv
          cases hv'
          exact hw
      · next heq =>
          rw [heq] at hv'
          exact ih hv hv'

namespace Program

/-- What is read is what the names stand for. -/
theorem forall₂_meaning {env : Environment} {names : List String} {vs : List ValueId}
    (h : vs.map some = names.map env.meaning) :
    List.Forall₂ (fun name v => env.meaning name = some v) names vs :=
  forall₂_of_map_eq h.symm

section Bodies

/-- Values of two bodies that have the same type, and stand for the same operands. -/
structure InnerPair (p p' : Program) (block block' : Block) (v v' : ValueId) : Prop where
  type : p.typeOf v = p'.typeOf v'
  arg : ∀ i : Nat, block.args[i]? = some v ↔ block'.args[i]? = some v'

/-- Operations of two bodies that do the same. -/
structure InnerTwins (p p' : Program) (block block' : Block) (o o' : Operation) : Prop where
  kind : o.kind = o'.kind
  operands : List.Forall₂ (p.InnerPair p' block block') o.operands o'.operands
  results : o.results.map p.typeOf = o'.results.map p'.typeOf

/-- Two bodies have the same operations. -/
def BodyTwins (p p' : Program) (block block' : Block) : Prop :=
  List.Forall₂ (fun x x' => ∃ o o', p.op? x = some o ∧ p'.op? x' = some o' ∧
    p.InnerTwins p' block block' o o') block.ops block'.ops

variable {p p' : Program} {a a' : OpId} {oa oa' : Operation} {block block' : Block}

theorem InnerPair.symm {v v' : ValueId} (h : p.InnerPair p' block block' v v') :
    p'.InnerPair p block' block v' v :=
  ⟨h.type.symm, fun i => (h.arg i).symm⟩

theorem InnerTwins.symm {o o' : Operation} (h : p.InnerTwins p' block block' o o') :
    p'.InnerTwins p block' block o' o :=
  ⟨h.kind.symm, h.operands.flip.imp fun _ _ => InnerPair.symm, h.results.symm⟩

theorem BodyTwins.symm (h : p.BodyTwins p' block block') : p'.BodyTwins p block' block :=
  List.Forall₂.imp (fun _ _ ⟨o, o', ho, ho', htwins⟩ => ⟨o', o, ho', ho, htwins.symm⟩)
    (List.Forall₂.flip h)

/-- An argument of a body stands for one operand. -/
theorem Coherent.arg_unique (hc : p.Coherent)
    (ho : p.op? a = some oa) (hblock : oa.kind.body? = some block)
    {i j : Nat} {v : ValueId}
    (hi : block.args[i]? = some v) (hj : block.args[j]? = some v) :
    i = j := by
  have horigin := hc.arg.2 ⟨oa, block, ho, hblock, hi⟩
  rw [hc.arg.2 ⟨oa, block, ho, hblock, hj⟩] at horigin
  cases horigin
  rfl

/-- A result is no argument of a body. -/
theorem Coherent.not_mem_args (hc : p.Coherent)
    (ho : p.op? a = some oa) (hblock : oa.kind.body? = some block)
    {x : OpId} {o : Operation} {v : ValueId}
    (hx : p.op? x = some o) (hv : v ∈ o.results) (i : Nat) :
    block.args[i]? ≠ some v := by
  intro hi
  obtain ⟨j, hj⟩ := hc.mem_results hx hv
  rw [hc.arg.2 ⟨oa, block, ho, hblock, hi⟩] at hj
  cases hj

variable (hc : p.Coherent) (hc' : p'.Coherent)
  (ho : p.op? a = some oa) (hblock : oa.kind.body? = some block)
  (ho' : p'.op? a' = some oa') (hblock' : oa'.kind.body? = some block')

include hc hc' ho hblock ho' hblock'

/-- Bodies of one description go hand in hand, from names for pairs to more names for pairs. -/
theorem RealizesBody.twins {body : List BodyOpDesc} :
    ∀ {env env' : Environment} {xs xs' : List OpId},
      p.RealizesBody a env body xs → p'.RealizesBody a' env' body xs' →
      List.Forall₂ (fun b c => b.1 = c.1 ∧ p.InnerPair p' block block' b.2 c.2) env env' →
      List.Forall₂ (fun x x' => ∃ o o', p.op? x = some o ∧ p'.op? x' = some o' ∧
        p.InnerTwins p' block block' o o') xs xs' := by
  induction body with
  | nil =>
      intro env env' xs xs' h h' _
      cases h
      cases h'
      exact .nil
  | cons op body ih =>
      intro env env' xs xs' h h' henv
      cases h with
      | cons hx hop hrest =>
      cases h' with
      | cons hx' hop' hrest' =>
      rename_i x xs o x' xs' o'
      have hoperands : List.Forall₂ (p.InnerPair p' block block') o.operands o'.operands :=
        forall₂_of_common (forall₂_meaning hop.operands) (forall₂_meaning hop'.operands)
          fun hv hv' => Environment.meaning_of_forall₂ henv hv hv'
      have hresults : o.results.map p.typeOf = o'.results.map p'.typeOf := by
        rw [hop.results, hop'.results, map_eq_of_forall₂ hoperands InnerPair.type]
      -- What an operation defines stands for no operand, in either body.
      have hpairs : List.Forall₂ (p.InnerPair p' block block') o.results o'.results := by
        obtain ⟨hlength, htypes⟩ := List.forall₂_iff_zip.1 (forall₂_of_map_eq hresults)
        refine List.forall₂_iff_zip.2 ⟨hlength, fun hmem => ⟨htypes hmem, fun i => ?_⟩⟩
        obtain ⟨hv, hv'⟩ := List.of_mem_zip hmem
        exact iff_of_false (hc.not_mem_args ho hblock hx hv i)
          (hc'.not_mem_args ho' hblock' hx' hv' i)
      refine .cons ⟨o, o', hx, hx', hop.kind.trans hop'.kind.symm, hoperands, hresults⟩ ?_
      exact ih hrest hrest' (List.rel_append henv (forall₂_zip hpairs op.results))

/-- The arguments of bodies go hand in hand if the applies read values of the same types. -/
theorem forall₂_args (htypes : oa.operands.map p.typeOf = oa'.operands.map p'.typeOf) :
    List.Forall₂ (p.InnerPair p' block block') block.args block'.args := by
  have hargs : block.args.map p.typeOf = block'.args.map p'.typeOf := by
    rw [hc.arg_types ho hblock, hc.declared ho, hc'.arg_types ho' hblock', hc'.declared ho', htypes]
  obtain ⟨hlength, hpairs⟩ := List.forall₂_iff_zip.1 (forall₂_of_map_eq hargs)
  refine List.forall₂_iff_zip.2 ⟨hlength, fun hmem => ⟨hpairs hmem, fun i => ?_⟩⟩
  obtain ⟨j, hj⟩ := List.getElem?_of_mem hmem
  obtain ⟨hv, hv'⟩ := List.getElem?_zip_eq_some.1 hj
  constructor
  · intro hi
    rwa [hc.arg_unique ho hblock hi hv]
  · intro hi
    rwa [hc'.arg_unique ho' hblock' hi hv']

end Bodies

section Applies

variable {p p' : Program} {o o' : Operation} {block block' : Block}

/-- Where the one body reads an operand, the other one reads what corresponds to it. -/
theorem BodyTwins.accessesAt {V : ValueId → ValueId → Prop} {v v' : ValueId} {offset : Point}
    (h : p.BodyTwins p' block block')
    (hblock : o.kind.body? = some block) (hblock' : o'.kind.body? = some block')
    (hoperands : List.Forall₂ V o.operands o'.operands)
    (hunique : ∀ {w}, V v w → w = v')
    (hread : p.AccessesAt o v offset) :
    p'.AccessesAt o' v' offset := by
  obtain ⟨_, x, ox, arg, i, hbody, hx, hox, hk, harg, hi, hv⟩ := hread
  obtain rfl := Option.some.inj (hblock.symm.trans hbody)
  obtain ⟨j, hj⟩ := List.getElem?_of_mem hx
  obtain ⟨x', hx', ox₁, ox', hox₁, hox', htwins⟩ := exists_getElem?_of_forall₂ h hj
  obtain rfl := Option.some.inj (hox.symm.trans hox₁)
  rw [List.head?_eq_getElem?] at harg
  obtain ⟨arg', harg', hpair⟩ := exists_getElem?_of_forall₂ htwins.operands harg
  obtain ⟨w, hw, hvw⟩ := exists_getElem?_of_forall₂ hoperands hv
  obtain rfl := hunique hvw
  exact ⟨block', x', ox', arg', i, hblock', List.mem_of_getElem? hx', hox',
    htwins.kind.symm.trans hk, by rw [List.head?_eq_getElem?, harg'], (hpair.arg i).1 hi, hw⟩

/-- Bodies that have the same operations end with the same operation. -/
theorem BodyTwins.last {z : OpId}
    (h : p.BodyTwins p' block block')
    (hz : block.ops.getLast? = some z) :
    ∃ z' oz oz', block'.ops.getLast? = some z' ∧ p.op? z = some oz ∧ p'.op? z' = some oz' ∧
      p.InnerTwins p' block block' oz oz' := by
  rw [List.getLast?_eq_getElem?] at hz
  obtain ⟨z', hz', oz, oz', hoz, hoz', htwins⟩ := exists_getElem?_of_forall₂ h hz
  refine ⟨z', oz, oz', ?_, hoz, hoz', htwins⟩
  rw [List.getLast?_eq_getElem?, ← List.Forall₂.length_eq h, hz']

/-- The results of applies have the same types if what is returned has. -/
theorem BodyTwins.returned
    (h : p.BodyTwins p' block block')
    (hlength : o.results.length = o'.results.length)
    (hreturned : p.ReturnedBy block o.results) (hreturned' : p'.ReturnedBy block' o'.results) :
    o.results.map p.typeOf = o'.results.map p'.typeOf := by
  obtain ⟨z, oz, unroll, hz, hoz, hk, htypes⟩ := hreturned
  obtain ⟨z', oz', unroll', hz', hoz', hk', htypes'⟩ := hreturned'
  obtain ⟨z₁, oz₁, oz₁', hz₁, hoz₁, hoz₁', htwins⟩ := h.last hz
  obtain rfl := Option.some.inj (hz'.symm.trans hz₁)
  obtain rfl := Option.some.inj (hoz.symm.trans hoz₁)
  obtain rfl := Option.some.inj (hoz'.symm.trans hoz₁')
  have hunroll := htwins.kind
  rw [hk, hk'] at hunroll
  cases hunroll
  refine List.ext_getElem? fun j => ?_
  rw [List.getElem?_map, List.getElem?_map]
  cases hv : o.results[j]? with
  | none =>
      rw [List.getElem?_eq_none_iff, hlength, ← List.getElem?_eq_none_iff] at hv
      rw [hv]
      rfl
  | some v =>
      obtain ⟨hj, _⟩ := List.getElem?_eq_some_iff.1 hv
      obtain ⟨v', hv'⟩ : ∃ v', o'.results[j]? = some v' :=
        ⟨_, List.getElem?_eq_getElem (hlength ▸ hj)⟩
      obtain ⟨w, hw, hty⟩ := htypes j v hv
      obtain ⟨w', hw', hty'⟩ := htypes' j v' hv'
      obtain ⟨w₁, hw₁, hpair⟩ := exists_getElem?_of_forall₂ htwins.operands hw
      obtain rfl := Option.some.inj (hw'.symm.trans hw₁)
      rw [hv', Option.map_some, Option.map_some, hty, hty', hpair.type]

/-- The return of the one body carries the unroll of the other. -/
theorem BodyTwins.unroll {ret : OpId} {point : Point}
    (h : p.BodyTwins p' block block')
    (hblock : o.kind.body? = some block) (hblock' : o'.kind.body? = some block')
    (hunroll : p.unroll? o = some (ret, point)) :
    ∃ ret', p'.unroll? o' = some (ret', point) := by
  obtain ⟨oz, hoz, _, hk⟩ := unroll?_eq_some.1 hunroll
  rw [terminator?, hblock, Option.bind_some] at hoz
  obtain ⟨z, hz, hoz⟩ := Option.bind_eq_some_iff.1 hoz
  obtain ⟨z', oz₁, oz', hz', hoz₁, hoz', htwins⟩ := h.last hz
  obtain rfl := Option.some.inj (hoz.symm.trans hoz₁)
  refine ⟨oz'.id, unroll?_eq_some.2 ⟨oz', ?_, rfl, htwins.kind.symm.trans hk⟩⟩
  rw [terminator?, hblock', Option.bind_some, hz', Option.bind_some, hoz']

theorem BodyTwins.unroll_eq
    (h : p.BodyTwins p' block block')
    (hblock : o.kind.body? = some block) (hblock' : o'.kind.body? = some block') :
    (p.unroll? o).map Prod.snd = (p'.unroll? o').map Prod.snd := by
  refine Option.ext fun point => ?_
  simp only [Option.map_eq_some_iff, Prod.exists, exists_eq_right]
  exact ⟨fun ⟨_, hret⟩ => h.unroll hblock hblock' hret,
    fun ⟨_, hret⟩ => h.symm.unroll hblock' hblock hret⟩

theorem BodyTwins.innerTypes_eq
    (h : p.BodyTwins p' block block')
    (hblock : o.kind.body? = some block) (hblock' : o'.kind.body? = some block') :
    p.innerTypes o = p'.innerTypes o' :=
  innerTypes_eq_of_forall₂ hblock hblock' (List.Forall₂.imp
    (fun _ _ ⟨ox, ox', hox, hox', htwins⟩ => ⟨ox, ox', hox, hox', htwins.results⟩) h)

end Applies

section Contents

variable {p p' : Program} {u u' : OpId} {o o' : Operation} {op : OpDesc}

/-- The bodies of one description have the same operations. -/
theorem exists_bodyTwins {results operands params : List String} {body : List BodyOpDesc}
    (hc : p.Coherent) (hc' : p'.Coherent)
    (ho : p.op? u = some o) (ho' : p'.op? u' = some o')
    (h : p.RealizesContents o (.apply results operands params body))
    (h' : p'.RealizesContents o' (.apply results operands params body))
    (htypes : o.operands.map p.typeOf = o'.operands.map p'.typeOf) :
    ∃ block block', o.kind = .apply none block ∧ o'.kind = .apply none block' ∧
      p.BodyTwins p' block block' ∧ p.ReturnedBy block o.results ∧
        p'.ReturnedBy block' o'.results := by
  obtain ⟨block, hk, _, hbody, hreturned⟩ := h
  obtain ⟨block', hk', _, hbody', hreturned'⟩ := h'
  have hblock : o.kind.body? = some block := by rw [hk]; rfl
  have hblock' : o'.kind.body? = some block' := by rw [hk']; rfl
  have hargs := forall₂_args hc hc' ho hblock ho' hblock' htypes
  rw [hc.op_id ho] at hbody
  rw [hc'.op_id ho'] at hbody'
  exact ⟨block, block', hk, hk',
    RealizesBody.twins hc hc' ho hblock ho' hblock' hbody hbody' (forall₂_zip hargs params),
    hreturned, hreturned'⟩

/-- The types of results follow from those of operands. -/
theorem types_eq_of_contents
    (hc : p.Coherent) (hc' : p'.Coherent)
    (ho : p.op? u = some o) (ho' : p'.op? u' = some o')
    (h : p.RealizesContents o op) (h' : p'.RealizesContents o' op)
    (htypes : o.operands.map p.typeOf = o'.operands.map p'.typeOf)
    (hlength : o.results.length = op.results.length)
    (hlength' : o'.results.length = op.results.length) :
    o.results.map p.typeOf = o'.results.map p'.typeOf := by
  cases op with
  | load result field =>
      have hload : ∀ {p : Program} {vs : List ValueId},
          vs.map (fun v => Ty.temp (p.typeOf v).element none) =
            (vs.map p.typeOf).map fun ty => .temp ty.element none := fun {_ _} => by
        rw [List.map_map]
        rfl
      rw [h.2, h'.2, hload, hload, htypes]
  | apply results operands params body =>
      obtain ⟨block, block', _, _, htwins, hreturned, hreturned'⟩ :=
        exists_bodyTwins hc hc' ho ho' h h' htypes
      exact htwins.returned (hlength.trans hlength'.symm) hreturned hreturned'
  | store value field lower upper =>
      rw [List.length_eq_zero_iff.1 hlength, List.length_eq_zero_iff.1 hlength']
      rfl

/-- Without a body nothing is read at an offset, and nothing is unrolled. -/
theorem eq_empty_of_bodiless (hbody : o.kind.body? = none) :
    (∀ v, p.offsetsAt o v = ∅) ∧ p.unroll? o = none ∧ p.innerTypes o = [] := by
  refine ⟨fun v => Set.eq_empty_iff_forall_notMem.2 ?_, ?_, ?_⟩
  · rintro offset ⟨_, _, _, _, _, hsome, _⟩
    rw [hbody] at hsome
    cases hsome
  · rw [unroll?, terminator?, hbody]
    rfl
  · rw [innerTypes, hbody]
    rfl

theorem twins_of_bodiless {V : ValueId → ValueId → Prop}
    (hk : o.kind = o'.kind) (hbody : o.kind.body? = none)
    (hoperands : List.Forall₂ V o.operands o'.operands)
    (hresults : List.Forall₂ V o.results o'.results) :
    p.Twins p' V o o' := by
  obtain ⟨hoffsets, hunroll, hinner⟩ := eq_empty_of_bodiless (p := p) hbody
  obtain ⟨hoffsets', hunroll', hinner'⟩ := eq_empty_of_bodiless (p := p') (hk ▸ hbody)
  refine ⟨by rw [hk], hoperands, hresults, fun _ => ?_, ?_, hinner.trans hinner'.symm⟩
  · rw [hoffsets, hoffsets']
  · rw [hunroll, hunroll']

/-- Operations of one description are twins, if they read values that correspond. -/
theorem twins_of_contents {V : ValueId → ValueId → Prop}
    (hc : p.Coherent) (hc' : p'.Coherent)
    (ho : p.op? u = some o) (ho' : p'.op? u' = some o')
    (h : p.RealizesContents o op) (h' : p'.RealizesContents o' op)
    (hoperands : List.Forall₂ V o.operands o'.operands)
    (hresults : List.Forall₂ V o.results o'.results)
    (htypes : ∀ {v w}, V v w → p.typeOf v = p'.typeOf w)
    (hunique : ∀ {v w w'}, V v w → V v w' → w = w')
    (hunique' : ∀ {v v' w}, V v w → V v' w → v = v') :
    p.Twins p' V o o' := by
  cases op with
  | load result field =>
      exact twins_of_bodiless (h.1.trans h'.1.symm) (by rw [h.1]; rfl) hoperands hresults
  | store value field lower upper =>
      have hk : o.kind = .store { lower, upper } := h
      exact twins_of_bodiless (hk.trans h'.symm) (by rw [hk]; rfl) hoperands hresults
  | apply results operands params body =>
      obtain ⟨block, block', hk, hk', htwins, _⟩ :=
        exists_bodyTwins hc hc' ho ho' h h' (map_eq_of_forall₂ hoperands htypes)
      have hblock : o.kind.body? = some block := by rw [hk]; rfl
      have hblock' : o'.kind.body? = some block' := by rw [hk']; rfl
      refine ⟨by rw [hk, hk']; rfl, hoperands, hresults, fun hv => ?_,
        htwins.unroll_eq hblock hblock', htwins.innerTypes_eq hblock hblock'⟩
      ext offset
      exact ⟨htwins.accessesAt hblock hblock' hoperands fun hw => hunique hw hv,
        htwins.symm.accessesAt hblock' hblock hoperands.flip fun hw => hunique' hw hv⟩

end Contents

end Program
end StencilShapes
