import StencilShapes.Proofs.Description.Body
import StencilShapes.Proofs.Description.Faithful
import StencilShapes.Proofs.Program.Calls

/-!
# Closing an apply

An apply that is open has no results.  It can be closed exactly when its body ends with a
return whose values fall into groups of the volume of the unroll.  The volume is the product
of the unroll in the integers: whether the products on the way to it are in range, and in
which order they are taken, does not matter.

**Results.**
* `Program.Building.unclosed`: an open apply has neither bounds nor results.
* `Program.exists_close_iff`, `Program.closeApply_eq_error`: when an apply is closed, and why it
  is not.
* `Program.Closes.of_closeApply`: what closing an apply adds to a program.
* `Builder.finish_of_run`: what becomes of the open apply after any calls.
-/

namespace StencilShapes
namespace Program

variable {p q : Program} {a : OpId}

/-- There is a function to join, and the apply has neither bounds nor results. -/
structure Unclosed (p : Program) (a : OpId) : Prop where
  begun : p.functions ≠ #[]
  apply : ∃ o body, p.op? a = some o ∧ o.kind = .apply none body ∧ o.results = []

/-- What joins the body of an open apply does not close it. -/
theorem Unclosed.addInner (h : p.Unclosed a) (kind : OpKind) (operands : List ValueId)
    (tys : List Ty) :
    (p.addInner a kind operands tys).1.Unclosed a := by
  rcases h with ⟨hbegun, o, body, ho, hkind, hresults⟩
  refine ⟨?_, _, { body with ops := body.ops ++ [⟨p.ops.size⟩] },
    op?_addInner_apply kind operands tys ho, ?_, hresults⟩
  · rwa [functions_addInner]
  · simp only [hkind, OpKind.appendInner]

/-- While an apply is open, it has no results. -/
theorem Building.unclosed {a? : Option OpId} (h : Building p a?) : ∀ a ∈ a?, p.Unclosed a := by
  induction h with
  | empty => rintro a ⟨⟩
  | beginFunction => rintro a ⟨⟩
  | setStencil => rintro a ⟨⟩
  | load => rintro a ⟨⟩
  | store => rintro a ⟨⟩
  | closeApply => rintro a ⟨⟩
  | abandon => rintro a ⟨⟩
  | @openApply p operands _ hbegun =>
      rw [openApply_op]
      rintro a ⟨⟩
      refine ⟨?_, _, _, (p.op?_openApply operands _).trans (if_pos rfl), rfl, rfl⟩
      rwa [functions_openApply]
  | @access p a arg _ _ _ ih =>
      rw [access_eq]
      rintro _ ⟨⟩
      exact (ih a rfl).addInner _ _ [.scalar (p.typeOf arg).element]
  | @arith p a _ lhs _ _ _ _ ih =>
      rw [arith_eq]
      rintro _ ⟨⟩
      exact (ih a rfl).addInner _ _ [p.typeOf lhs]
  | @ret p a _ _ _ _ ih =>
      rw [ret_eq]
      rintro _ ⟨⟩
      exact (ih a rfl).addInner _ _ []

/-- The body of the apply ends with a return of these values. -/
def EndsWith (p : Program) (a : OpId) (operands : List ValueId) (unroll : Option Point) : Prop :=
  ∃ t, p.lastIn a = some t ∧ t.kind = .ret unroll ∧ t.operands = operands

theorem EndsWith.unique {operands operands' : List ValueId} {unroll unroll' : Option Point}
    (h : p.EndsWith a operands unroll)
    (h' : p.EndsWith a operands' unroll') :
    operands = operands' ∧ unroll = unroll' := by
  rcases h with ⟨t, ht, hkind, rfl⟩
  rcases h' with ⟨t', ht', hkind', rfl⟩
  obtain rfl : t = t' := Option.some.inj (ht.symm.trans ht')
  cases hkind.symm.trans hkind'
  exact ⟨rfl, rfl⟩

/-- The volume of an unroll can be taken, and values fall into groups of that size, exactly
when this is so of the product in the integers. -/
theorem groupSize_dvd_iff {values : Nat} {unroll : Option Point} :
    1 ≤ groupSize unroll ∧ (values : Int) % groupSize unroll = 0 ↔
      1 ≤ unrollVolume unroll ∧ unrollVolume unroll ≤ 9223372036854775807 ∧
        unrollVolume unroll ∣ values := by
  constructor
  · rintro ⟨hpos, hmod⟩
    obtain ⟨heq, hle⟩ := unrollVolume_of_groupSize hpos
    refine ⟨heq ▸ hpos, hle, ?_⟩
    rw [← heq]
    exact Int.dvd_of_emod_eq_zero hmod
  · rintro ⟨hpos, hle, hdvd⟩
    rw [groupSize_eq_unrollVolume hpos hle]
    exact ⟨hpos, Int.emod_eq_zero_of_dvd hdvd⟩

/-- What `p` becomes when its apply `a`, which returns `operands` in groups of `size`, is
closed: it gets the results `values`. -/
structure Closes (p : Program) (a : OpId) (operands : List ValueId) (size : Int)
    (q : Program) (values : List ValueId) : Prop where
  count : (values.length : Int) = operands.length / size
  /-- The results are the values that were added. -/
  new : ∀ j v, values[j]? = some v → v.index = p.values.size + j
  added : q.values.size = p.values.size + values.length
  old : ∀ v : ValueId, v.index < p.values.size → q.value? v = p.value? v
  /-- A result takes its element from the first value of its group. -/
  type : ∀ j v, values[j]? = some v →
    ∃ w, operands[j * size.toNat]? = some w ∧ q.typeOf v = .temp (p.typeOf w).element none
  apply : ∃ o, p.op? a = some o ∧ q.op? a = some { o with results := values }
  ops : ∀ u, u ≠ a → q.op? u = p.op? u
  /-- The apply ends the function begun last. -/
  entry : q.opsIn (.entry (p.functions.size - 1)) = p.opsIn (.entry (p.functions.size - 1)) ++ [a]
  functions : ∀ k, k ≠ p.functions.size - 1 → q.functions[k]? = p.functions[k]?

section Results

theorem value?_newResults {v : ValueId} (u : OpId) (tys : List Ty) :
    ∀ {p : Program}, v.index < p.values.size → (p.newResults u tys).1.value? v = p.value? v := by
  induction tys with
  | nil => exact fun _ => rfl
  | cons ty tys ih =>
      intro p hv
      have hone : (p.newResult u ty).1.value? v = p.value? v :=
        Array.getElem?_push_lt hv |>.trans (Array.getElem?_eq_getElem hv).symm
      have hlt : v.index < (p.newResult u ty).1.values.size :=
        Nat.lt_of_lt_of_eq (Nat.lt_succ_of_lt hv) (size_newValue _ _ _).symm
      exact (ih hlt).trans hone

theorem index_newResults (u : OpId) (tys : List Ty) :
    ∀ {p : Program} {j : Nat} {v : ValueId}, (p.newResults u tys).2[j]? = some v →
      v.index = p.values.size + j := by
  induction tys with
  | nil => rintro p j v ⟨⟩
  | cons ty tys ih =>
      intro p j v hv
      have hsize : (p.newResult u ty).1.values.size = p.values.size + 1 := size_newValue _ _ _
      cases j with
      | zero =>
          cases hv
          exact p.nextValue_eq
      | succ j =>
          rw [ih (p := (p.newResult u ty).1) hv, hsize]
          omega

end Results

/-- The function begun last ends with what is put there. -/
theorem opsIn_append_last
    (hfunctions : p.functions ≠ #[])
    (hq : q.functions = p.functions)
    (u : OpId) :
    (q.append u).opsIn (.entry (p.functions.size - 1)) =
      p.opsIn (.entry (p.functions.size - 1)) ++ [u] := by
  have hlt : p.functions.size - 1 < p.functions.size :=
    Nat.sub_lt (Array.size_pos_iff.2 hfunctions) Nat.one_pos
  simp only [opsIn, append, hq, Array.getElem?_modify, if_true, Array.getElem?_eq_getElem hlt,
    Option.map_some, Option.elim_some]

/-- What an apply gets when it is closed. -/
theorem Closes.of_closeApply {operands values : List ValueId} {unroll : Option Point}
    (hc : p.Coherent)
    (hopen : p.Unclosed a)
    (hends : p.EndsWith a operands unroll)
    (hclose : p.closeApply a = .ok (q, values)) :
    p.Closes a operands (unrollVolume unroll) q values := by
  obtain ⟨o, t, unroll', ho, hterm, hkind, hpos, hmod, rfl, rfl⟩ := closeApply_eq_ok.1 hclose
  obtain ⟨rfl, rfl⟩ := hends.unique ⟨t, Option.bind_eq_some_iff.2 ⟨o, ho, hterm⟩, hkind, rfl⟩
  obtain ⟨hbegun, o', _, ho', _, hresults⟩ := hopen
  obtain rfl : o = o' := Option.some.inj (ho.symm.trans ho')
  obtain ⟨z, _, hz⟩ := Option.bind_eq_some_iff.1 hterm
  obtain ⟨hsize, _⟩ := unrollVolume_of_groupSize hpos
  have hdeclared : t.operandTypes = t.operands.map p.typeOf := hc.declared hz
  have hlength : t.operandTypes.length = t.operands.length := by
    rw [hdeclared, List.length_map]
  generalize htys : groupTypes t.operandTypes (groupSize unroll).toNat = tys
  have htypes := map_typeOf_newResults a tys p
  have hold := op?_newResults_self tys ho
  rw [hresults, List.nil_append] at hold
  constructor
  case count =>
    rw [length_newResults, ← htys, length_groupTypes (by omega), hlength, ← hsize]
    rw [Int.natCast_ediv, Int.toNat_of_nonneg (by omega)]
  case new => exact fun j v hv => index_newResults a tys hv
  case added => rw [length_newResults]; exact size_newResults a tys p
  case old => exact fun v hv => value?_newResults a tys hv
  case type =>
    intro j v hv
    have hty : tys[j]? = some ((p.newResults a tys).1.typeOf v) := by
      have hmap := congrArg (·[j]?) htypes
      simpa only [List.getElem?_map, hv, Option.map_some] using hmap.symm
    rw [← htys] at hty
    obtain ⟨ty, hj, htemp⟩ := getElem?_groupTypes (by omega) hty
    rw [hdeclared, List.getElem?_map] at hj
    obtain ⟨w, hw, rfl⟩ := Option.map_eq_some_iff.1 hj
    refine ⟨w, hsize ▸ hw, ?_⟩
    rw [typeOf_append, ← htemp, htys]
  case apply => exact ⟨o, ho, hold⟩
  case ops => exact fun u hu => op?_newResults_of_ne tys hu p
  case entry => exact opsIn_append_last hbegun (functions_newResults a tys p) a
  case functions =>
    intro k hk
    rw [append, functions_newResults, Array.getElem?_modify, if_neg (Ne.symm hk)]

/-- An apply is closed when its body ends with a return whose values fall into groups. -/
theorem exists_close_iff (hc : p.Coherent) :
    (∃ q values, p.closeApply a = .ok (q, values)) ↔
      ∃ operands unroll, p.EndsWith a operands unroll ∧
        1 ≤ unrollVolume unroll ∧ unrollVolume unroll ≤ 9223372036854775807 ∧
          unrollVolume unroll ∣ operands.length := by
  have hlength : ∀ {o t : Operation}, p.terminator? o = some t →
      t.operandTypes.length = t.operands.length := fun hterm => by
    obtain ⟨z, _, hz⟩ := Option.bind_eq_some_iff.1 hterm
    rw [hc.declared hz, List.length_map]
  constructor
  · rintro ⟨q, values, hclose⟩
    obtain ⟨o, t, unroll, ho, hterm, hkind, hpos, hmod, _⟩ := closeApply_eq_ok.1 hclose
    refine ⟨t.operands, unroll, ⟨t, Option.bind_eq_some_iff.2 ⟨o, ho, hterm⟩, hkind, rfl⟩, ?_⟩
    exact groupSize_dvd_iff.1 ⟨hpos, hlength hterm ▸ hmod⟩
  · rintro ⟨operands, unroll, ⟨t, hlast, hkind, rfl⟩, hgroups⟩
    obtain ⟨o, ho, hterm⟩ := Option.bind_eq_some_iff.1 hlast
    obtain ⟨hpos, hmod⟩ := groupSize_dvd_iff.2 hgroups
    exact ⟨_, _, closeApply_eq_ok.2
      ⟨o, t, unroll, ho, hterm, hkind, hpos, hlength hterm ▸ hmod, rfl, rfl⟩⟩

/-- The two reasons for which an apply is not closed. -/
theorem closeApply_eq_error {fault : CloseFault}
    (hc : p.Coherent)
    (h : p.closeApply a = .error fault) :
    (fault = .missingReturn ∧ ¬ ∃ operands unroll, p.EndsWith a operands unroll) ∨
      ∃ operands unroll, p.EndsWith a operands unroll ∧
        fault = .unevenReturn operands.length (unroll.getD []) := by
  unfold closeApply at h
  split at h
  · next id unroll operands tys results parent hlast =>
      obtain ⟨o, _, hterm⟩ := Option.bind_eq_some_iff.1 hlast
      obtain ⟨z, _, hz⟩ := Option.bind_eq_some_iff.1 hterm
      have htys : tys = operands.map p.typeOf := hc.declared hz
      refine .inr ⟨operands, unroll, ⟨_, hlast, rfl, rfl⟩, ?_⟩
      dsimp only at h
      split at h
      · cases h
        simp only [htys, List.length_map]
      · cases h
  · next hlast =>
      cases h
      refine .inl ⟨rfl, ?_⟩
      rintro ⟨_, unroll, ⟨id, kind, operands, tys, results, parent⟩, ht, rfl, rfl⟩
      exact hlast id unroll operands tys results parent ht

end Program

namespace Builder

/-- Whatever calls were made before: the open apply is closed exactly when its body ends with
a return whose values fall into groups of the volume of the unroll, it then gets one result per
group and joins its function, and else it is given up and nothing changes. -/
theorem finish_of_run {cs : List Call} {b : Builder} {a : OpId}
    (hrun : run {} cs = some b)
    (hopened : b.opened = some a) :
    ((∃ q values, b.program.closeApply a = .ok (q, values)) ↔
        ∃ operands unroll, b.program.EndsWith a operands unroll ∧
          1 ≤ unrollVolume unroll ∧ unrollVolume unroll ≤ 9223372036854775807 ∧
            unrollVolume unroll ∣ operands.length) ∧
      (∀ q values, b.program.closeApply a = .ok (q, values) →
        b.call .finish = some { b with program := q, opened := none } ∧
          (q.opsIn (.entry (b.program.functions.size - 1))).count a = 1 ∧
          ∃ operands unroll, b.program.EndsWith a operands unroll ∧
            b.program.Closes a operands (unrollVolume unroll) q values) ∧
      ∀ fault, b.program.closeApply a = .error fault →
        b.call .finish = some (b.giveUp a) ∧ (b.giveUp a).program = b.program ∧
          (fault = .missingReturn ↔ ¬ ∃ operands unroll, b.program.EndsWith a operands unroll) := by
  have hsound : b.Sound := Sound.empty.run hrun
  rcases b with ⟨p, opened, dropped⟩
  obtain rfl : opened = some a := hopened
  have hc : p.Coherent := hsound.coherent
  have hopen : p.Unclosed a := hsound.building.unclosed a rfl
  have hcall : call ⟨p, some a, dropped⟩ .finish = some (perform ⟨p, some a, dropped⟩ .finish) :=
    if_pos (admits_iff.2 ⟨by rintro v ⟨⟩, rfl, fun _ => hopen.begun⟩)
  refine ⟨Program.exists_close_iff hc, ?_, ?_⟩
  · intro q values hclose
    obtain ⟨operands, unroll, hends, _⟩ := (Program.exists_close_iff hc).1 ⟨q, values, hclose⟩
    have hcloses := Program.Closes.of_closeApply hc hopen hends hclose
    have hold : a ∉ p.opsIn (.entry (p.functions.size - 1)) :=
      hsound.filed.not_mem_opsIn List.mem_cons_self _
    refine ⟨?_, ?_, operands, unroll, hends, hcloses⟩
    · rw [hcall]
      simp only [perform, hclose]
    · rw [hcloses.entry, List.count_append, List.count_eq_zero.2 hold, List.count_singleton_self]
  · intro fault hclose
    refine ⟨?_, rfl, ?_⟩
    · rw [hcall]
      simp only [perform, hclose]
    · rcases Program.closeApply_eq_error hc hclose with ⟨rfl, hnot⟩ | ⟨operands, unroll, hends, rfl⟩
      · exact iff_of_true rfl hnot
      · exact iff_of_false (by rintro ⟨⟩) (not_not_intro ⟨operands, unroll, hends⟩)

/-- Calls for an apply that returns six values in groups of three: both factors of its unroll
are negative. -/
def sextet : List Call :=
  [.beginFunction "f" true [.field .f64 2, .field .f32 2], .load ⟨0⟩, .load ⟨1⟩,
    .openApply [⟨2⟩, ⟨3⟩], .access ⟨4⟩ [.one, .one], .access ⟨5⟩ [.one, .one],
    .ret [⟨6⟩, ⟨7⟩, ⟨7⟩, ⟨7⟩, ⟨6⟩, ⟨6⟩] (some [.ofInt64 (-1), .ofInt64 (-3)])]

theorem finish_of_run_sextet :
    ∃ b q, run {} sextet = some b ∧ b.opened = some ⟨2⟩ ∧
      b.program.closeApply ⟨2⟩ = .ok (q, [⟨8⟩, ⟨9⟩]) ∧
      q.typeOf ⟨8⟩ = .temp .f64 none ∧ q.typeOf ⟨9⟩ = .temp .f32 none ∧
      b.call .finish = some { b with program := q, opened := none } ∧
      (q.opsIn (.entry (b.program.functions.size - 1))).count ⟨2⟩ = 1 ∧
      ∃ operands unroll, b.program.EndsWith ⟨2⟩ operands unroll ∧
        b.program.Closes ⟨2⟩ operands (unrollVolume unroll) q [⟨8⟩, ⟨9⟩] :=
  ⟨_, _, rfl, rfl, rfl, rfl, rfl,
    (finish_of_run (show run {} sextet = some _ from rfl) rfl).2.1 _ _ rfl⟩

end Builder
end StencilShapes
