import StencilShapes.Proofs.Description.Ranks
import StencilShapes.Proofs.Extent.Modular

/-!
# The order in which the unroll is taken off

The extents of an apply are recorded per operand, and the unroll is taken off one after the
other, in no particular order; the first extent that cannot be changed ends the analysis.
Ranks agree in an elaborated program, so that there is one fault at most that any extent of
an apply can have, and then neither the table nor the fault depends on the order.

**Results.**
* `Table.changeAt_spec`: what a change under some keys does, key by key.
* `Table.changeAt_eq_change`: where no two entries have different faults, all orders agree.
* `Description.unroll_in_any_order`: taking off the unroll in any order of the operands.
-/

namespace StencilShapes

open Program

namespace Table

variable {α ε : Type} {t t' : Table α} {k : Nat} {ks : List Nat} {f : α → Except ε α}

theorem mem_entries_iff {a : α} : (k, a) ∈ t.entries ↔ t.find? k = some a := by
  refine ⟨find?_of_mem_entries, fun h => ?_⟩
  obtain ⟨before, after, hsplit, _⟩ := List.lookup_eq_some_iff.1 h
  rw [hsplit]
  exact List.mem_append_right _ List.mem_cons_self

theorem mem_keys_iff : k ∈ t.entries.map Prod.fst ↔ ∃ a, t.find? k = some a := by
  simp [← mem_entries_iff]

theorem nodup_keys (t : Table α) : (t.entries.map Prod.fst).Nodup :=
  t.sorted.imp fun h => Nat.ne_of_lt h

/-- A table is known from its entries under all keys: they have one order only. -/
theorem ext_find? (h : ∀ k, t.find? k = t'.find? k) : t = t' := by
  have hnodup : ∀ s : Table α, s.entries.Nodup := fun s => s.nodup_keys.of_map _
  have hperm : t.entries.Perm t'.entries := by
    refine (List.perm_ext_iff_of_nodup (hnodup t) (hnodup t')).2 fun ⟨k, a⟩ => ?_
    rw [mem_entries_iff, mem_entries_iff, h k]
  have hsorted : ∀ s : Table α, s.entries.Pairwise fun a b => a.1 < b.1 := fun s =>
    List.pairwise_map.1 s.sorted
  refine eq_of_entries (hperm.eq_of_pairwise (fun a b _ _ hab hba => ?_) (hsorted t) (hsorted t'))
  exact absurd hab (Nat.lt_asymm hba)

/-- Changes the entries under the keys, one after the other, until one cannot be changed. -/
def changeAt (f : α → Except ε α) (t : Table α) : List Nat → Except ε (Table α)
  | [] => .ok t
  | k :: ks =>
      match t.find? k with
      | none => t.changeAt f ks
      | some a =>
          match f a with
          | .ok b => (t.insert k b).changeAt f ks
          | .error fault => .error fault

/-- Entries under the keys have changed, and nothing else has. -/
structure ChangedAt (f : α → Except ε α) (ks : List Nat) (t t' : Table α) : Prop where
  changed : ∀ k ∈ ks, ∀ a, t.find? k = some a → ∃ b, f a = .ok b ∧ t'.find? k = some b
  kept : ∀ k, k ∉ ks ∨ t.find? k = none → t'.find? k = t.find? k

/-- A key without an entry is passed over. -/
theorem ChangedAt.skip (h : ChangedAt f ks t t') (hk : t.find? k = none) :
    ChangedAt f (k :: ks) t t' where
  changed j hj a ha := by
    rcases List.mem_cons.1 hj with rfl | hj
    · rw [hk] at ha
      cases ha
    · exact h.changed j hj a ha
  kept j hj := h.kept j (hj.imp_left fun hj hmem => hj (List.mem_cons_of_mem _ hmem))

/-- An entry is changed first, and the other ones after it. -/
theorem ChangedAt.cons {a b : α}
    (h : ChangedAt f ks (t.insert k b) t')
    (hnew : k ∉ ks)
    (hk : t.find? k = some a)
    (hf : f a = .ok b) :
    ChangedAt f (k :: ks) t t' := by
  have hother : ∀ {j}, j ≠ k → (t.insert k b).find? j = t.find? j := fun hj => by
    rw [find?_insert, if_neg hj]
  constructor
  case changed =>
    intro j hj c hc
    rcases List.mem_cons.1 hj with rfl | hj
    · obtain rfl : a = c := Option.some.inj (hk.symm.trans hc)
      refine ⟨b, hf, (h.kept j (.inl hnew)).trans ?_⟩
      rw [find?_insert, if_pos rfl]
    · exact h.changed j hj c ((hother (ne_of_mem_of_not_mem hj hnew)).trans hc)
  case kept =>
    intro j hj
    have hne : j ≠ k := by
      rintro rfl
      rcases hj with hj | hj
      · exact hj List.mem_cons_self
      · rw [hk] at hj
        cases hj
    rw [← hother hne] at hj ⊢
    exact h.kept j (hj.imp_left fun hj hmem => hj (List.mem_cons_of_mem _ hmem))

/-- A change goes on to the last key, or it stops at an entry that cannot be changed. -/
theorem changeAt_spec (f : α → Except ε α) (ks : List Nat) :
    ∀ t : Table α, ks.Nodup →
      (∃ t', t.changeAt f ks = .ok t' ∧ ChangedAt f ks t t') ∨
        ∃ k a fault, t.find? k = some a ∧ f a = .error fault ∧
          k ∈ ks ∧ t.changeAt f ks = .error fault := by
  induction ks with
  | nil => exact fun t _ => .inl ⟨t, rfl, by rintro k ⟨⟩, fun _ _ => rfl⟩
  | cons key ks ih =>
      intro t hnodup
      obtain ⟨hkey, hks⟩ := List.nodup_cons.1 hnodup
      cases hfind : t.find? key with
      | none =>
          simp only [changeAt, hfind]
          rcases ih t hks with ⟨t', ht', h⟩ | ⟨k, a, fault, ha, hf, hk, hfault⟩
          · exact .inl ⟨t', ht', h.skip hfind⟩
          · exact .inr ⟨k, a, fault, ha, hf, List.mem_cons_of_mem _ hk, hfault⟩
      | some a =>
          cases hf : f a with
          | error fault =>
              refine .inr ⟨key, a, fault, hfind, hf, List.mem_cons_self, ?_⟩
              simp only [changeAt, hfind, hf]
          | ok b =>
              simp only [changeAt, hfind, hf]
              rcases ih (t.insert key b) hks with ⟨t', ht', h⟩ | ⟨k, c, fault, hc, hc', hk, hfault⟩
              · exact .inl ⟨t', ht', h.cons hkey hfind hf⟩
              · rw [find?_insert, if_neg (ne_of_mem_of_not_mem hk hkey)] at hc
                exact .inr ⟨k, c, fault, hc, hc', List.mem_cons_of_mem _ hk, hfault⟩

/-- Where entries that cannot be changed have one fault, it does not matter in which order
they are changed. -/
theorem changeAt_eq_change {fault : ε}
    (hks : ks.Perm (t.entries.map Prod.fst))
    (hfault : ∀ k a fault', t.find? k = some a → f a = .error fault' → fault' = fault) :
    t.changeAt f ks = t.change f := by
  have hmem : ∀ {k a}, t.find? k = some a → k ∈ ks := fun ha =>
    hks.mem_iff.2 (mem_keys_iff.2 ⟨_, ha⟩)
  rcases changeAt_spec f ks t (hks.nodup_iff.2 t.nodup_keys) with
    ⟨t₁, h₁, hchanged, hkept⟩ | ⟨k, a, fault₁, ha, hf, _, h₁⟩
  · cases h₂ : t.change f with
    | error fault₂ =>
        obtain ⟨k, a, ha, hf⟩ := change_eq_error h₂
        obtain ⟨b, hb, _⟩ := hchanged k (hmem ha) a ha
        rw [hf] at hb
        cases hb
    | ok t₂ =>
        rw [h₁]
        refine congrArg Except.ok (ext_find? fun k => ?_)
        rcases find?_change h₂ k with ⟨hnone, hnone₂⟩ | ⟨a, b, ha, hb, hb₂⟩
        · rw [hkept k (.inr hnone), hnone, hnone₂]
        · obtain ⟨b', hb', hb₁⟩ := hchanged k (hmem ha) a ha
          rw [hb] at hb'
          cases hb'
          rw [hb₁, hb₂]
  · cases h₂ : t.change f with
    | error fault₂ =>
        obtain ⟨k', a', ha', hf'⟩ := change_eq_error h₂
        rw [h₁, hfault k a fault₁ ha hf, hfault k' a' fault₂ ha' hf']
    | ok t₂ =>
        rcases find?_change h₂ k with ⟨hnone, _⟩ | ⟨a', b, ha', hb, _⟩
        · rw [ha] at hnone
          cases hnone
        · obtain rfl : a = a' := Option.some.inj (ha.symm.trans ha')
          rw [hf] at hb
          cases hb

end Table

namespace Program

variable {p : Program} {u : OpId} {o : Operation} {r : Nat}

/-- The extents of an apply, where the unroll is taken off operand by operand in the given
order. -/
def applyExtentsIn (p : Program) (order : List ValueId) (apply : Operation) :
    Except ExtentFault (Table Extent) :=
  match foldAccesses .empty (p.accesses apply) with
  | .error fault => .error fault
  | .ok extents =>
      match p.unroll? apply with
      | none => .ok extents
      | some (ret, block) =>
          match extents.changeAt (·.unroll block) (order.map ValueId.index) with
          | .ok extents => .ok extents
          | .error fault => .error (.unroll ret fault)

/-- Where ranks agree, an unroll can only fail for the range. -/
theorem overflow_of_unroll {extents : Table Extent} {k : Nat} {e : Extent} {ret : OpId}
    {block : Point} {fault : PointFault}
    (hc : p.Coherent)
    (ho : p.op? u = some o)
    (hr : p.OpRank o r)
    (hrec : Records extents (p.accesses o))
    (hunroll : p.unroll? o = some (ret, block))
    (he : extents.find? k = some e)
    (hfault : e.unroll block = .error fault) :
    fault = .overflow := by
  have hspans := spans_of_records (v := ⟨k⟩) hc ho hrec he
  obtain ⟨offset, hoffset⟩ := hspans.nonempty
  rcases Extent.unroll_eq_error.1 hfault with ⟨hne, _⟩ | ⟨_, heq, _⟩
  · refine absurd ?_ hne
    rw [hspans.positive_length, ← hspans.rank offset hoffset, hr.length_of_offsetsAt hoffset,
      hr.length_of_unroll hunroll]
  · exact heq

/-- Where ranks agree, all accesses of an apply can be folded. -/
theorem exists_foldAccesses
    (hc : p.Coherent)
    (ho : p.op? u = some o)
    (hr : p.OpRank o r) :
    ∃ extents, foldAccesses .empty (p.accesses o) = .ok extents := by
  cases h : foldAccesses .empty (p.accesses o) with
  | ok extents => exact ⟨extents, rfl⟩
  | error fault => exact absurd (firstClash_of_foldAccesses hc ho h).1 hr.not_mixedRank

/-- Where ranks agree, the order in which the unroll is taken off does not matter. -/
theorem applyExtentsIn_eq {order : List ValueId} {extents : Table Extent}
    (hc : p.Coherent)
    (ho : p.op? u = some o)
    (hr : p.OpRank o r)
    (hfold : foldAccesses .empty (p.accesses o) = .ok extents)
    (horder : (order.map ValueId.index).Perm (extents.entries.map Prod.fst)) :
    p.applyExtentsIn order o = p.applyExtents o := by
  simp only [applyExtentsIn, applyExtents, hfold]
  cases hunroll : p.unroll? o with
  | none => rfl
  | some carrier =>
      rcases carrier with ⟨ret, block⟩
      have hsame : extents.changeAt (·.unroll block) (order.map ValueId.index) =
          extents.change (·.unroll block) :=
        Table.changeAt_eq_change horder fun k e fault he hfault =>
          overflow_of_unroll hc ho hr (records_of_foldAccesses hfold) hunroll he hfault
      cases hchange : extents.change (·.unroll block) with
      | ok kept => simp only [hsame.trans hchange, hchange]
      | error fault => simp only [hsame.trans hchange, hchange]

/-- Where ranks agree, an apply whose accesses can be folded fails at its return, and for the
range. -/
theorem unroll_overflow_of_applyExtents {extents : Table Extent} {fault : ExtentFault}
    (hc : p.Coherent)
    (ho : p.op? u = some o)
    (hr : p.OpRank o r)
    (hfold : foldAccesses .empty (p.accesses o) = .ok extents)
    (h : p.applyExtents o = .error fault) :
    ∃ ret block, p.unroll? o = some (ret, block) ∧ fault = .unroll ret .overflow := by
  simp only [applyExtents, hfold] at h
  split at h
  · cases h
  · next ret block hunroll =>
      split at h
      · cases h
      · next pointFault hchange =>
          cases h
          obtain ⟨k, e, he, hfault⟩ := Table.change_eq_error hchange
          refine ⟨ret, block, hunroll, congrArg (ExtentFault.unroll ret) ?_⟩
          exact overflow_of_unroll hc ho hr (records_of_foldAccesses hfold) hunroll he hfault

end Program

/-- In a program that elaborates, the extents of an apply are recorded for the operands that
its body accesses.  In whichever order of these operands the unroll is taken off, the outcome
is that of the analysis: the same table, or a fault of the return for the range. -/
theorem Description.unroll_in_any_order {d : Description} {p : Program} {u : OpId}
    {o : Operation}
    (hload : d.elaborate = .ok p)
    (ho : p.op? u = some o)
    (happly : o.kind.body?.isSome) :
    ∃ extents : Table Extent, foldAccesses .empty (p.accesses o) = .ok extents ∧
      (∀ v : ValueId, v.index ∈ extents.entries.map Prod.fst ↔ (p.offsetsAt o v).Nonempty) ∧
      (∀ order : List ValueId,
        (order.map ValueId.index).Perm (extents.entries.map Prod.fst) →
          p.applyExtentsIn order o = p.applyExtents o) ∧
      ∀ fault, p.applyExtents o = .error fault →
        ∃ ret block, p.unroll? o = some (ret, block) ∧ fault = .unroll ret .overflow := by
  have hc : p.Coherent := coherent_of_elaborate hload
  obtain ⟨body, hbody⟩ := Option.isSome_iff_exists.1 happly
  obtain ⟨r, hr⟩ := (scoped_of_elaborate hload).ranked ho (OpKind.isShaped_of_body? hbody)
  obtain ⟨extents, hfold⟩ := exists_foldAccesses hc ho hr
  have hrec := records_of_foldAccesses hfold
  refine ⟨extents, hfold, fun v => ?_, fun order => applyExtentsIn_eq hc ho hr hfold,
    fun fault => unroll_overflow_of_applyExtents hc ho hr hfold⟩
  rw [Table.mem_keys_iff]
  exact ⟨fun ⟨e, he⟩ => (spans_of_records hc ho hrec he).nonempty,
    exists_of_records hc ho hrec⟩

/-- An apply of two operands, with an unroll that can be taken off one extent only: the other
one ends at the least coordinate. -/
def Description.brink : Description :=
  { functions :=
      [{ name := "f"
         stencil := true
         args :=
           [{ name := "x", element := .f64, rank := 1 },
             { name := "y", element := .f64, rank := 1 }]
         ops :=
           [.load "s" "x", .load "t" "y",
             .apply ["u"] ["s", "t"] ["a", "b"]
               [.access "k" "a" [.ofInt64 (-9223372036854775808)], .access "l" "b" [.ofInt64 3],
                 .arith "m" .add "k" "l", .ret ["m", "m"] (some [.ofInt64 2])]] }] }

namespace Program

/-- The program of the two operands. -/
def brink : Program :=
  (elaborateFunctions {} Description.brink.functions).1

/-- The apply of the two operands. -/
def brinkApply : Operation :=
  { id := ⟨2⟩, kind := .apply none { args := [⟨4⟩, ⟨5⟩], ops := [⟨3⟩, ⟨4⟩, ⟨5⟩, ⟨6⟩] }
    operands := [⟨2⟩, ⟨3⟩], operandTypes := [.temp .f64 none, .temp .f64 none], results := [⟨9⟩]
    parent := none }

/-- What is recorded for the two operands. -/
def brinkRecords : Table Extent :=
  { entries :=
      [(2, .single [.ofInt64 (-9223372036854775808)]), (3, .single [.ofInt64 3])]
    sorted := by decide }

theorem elaborate_brink : Description.brink.elaborate = .ok brink := by
  rfl

end Program

theorem Description.unroll_in_any_order_brink :
    foldAccesses .empty (Program.brink.accesses brinkApply) = .ok brinkRecords ∧
      Program.brink.applyExtentsIn [⟨3⟩, ⟨2⟩] brinkApply = Program.brink.applyExtents brinkApply ∧
      Program.brink.applyExtents brinkApply = .error (.unroll ⟨6⟩ .overflow) ∧
      ∃ block, Program.brink.unroll? brinkApply = some (⟨6⟩, block) := by
  obtain ⟨extents, hfold, _, horder, hfault⟩ := Description.unroll_in_any_order elaborate_brink
    (show Program.brink.op? ⟨2⟩ = some brinkApply from rfl) rfl
  have hrecords : foldAccesses .empty (Program.brink.accesses brinkApply) = .ok brinkRecords := rfl
  have herror : Program.brink.applyExtents brinkApply = .error (.unroll ⟨6⟩ .overflow) := rfl
  obtain rfl : brinkRecords = extents := Except.ok.inj (hrecords.symm.trans hfold)
  refine ⟨hfold, horder [⟨3⟩, ⟨2⟩] (by decide), herror, ?_⟩
  obtain ⟨_, block, hunroll, ⟨⟩⟩ := hfault _ herror
  exact ⟨block, hunroll⟩

end StencilShapes
