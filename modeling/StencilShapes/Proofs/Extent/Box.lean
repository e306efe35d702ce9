import StencilShapes.Extent.Analysis
import StencilShapes.Proofs.Point
import Mathlib.Order.Bounds.Basic
import Mathlib.Order.Lattice

/-!
# Extents are least boxes

Folding keeps, for each value that is read, the least box around the offsets of all
accesses so far.  It stops at the first access whose rank is not that of the earlier
accesses to the same value; nothing else can go wrong, since lesser and greater
coordinates never leave the range.  Taking off the unroll can go wrong in two ways,
by its rank or by a coordinate that leaves the range.

**Results.**
* `Program.records_of_foldAccesses`: folding finds the least boxes.
* `Program.foldAccesses_eq_error`: where folding stops.
* `Extent.unroll_eq_error`: when the unroll cannot be taken off.
* `Table.change_eq_error`: an entry that cannot be changed.
-/

namespace StencilShapes

/-- The least box around some offsets of one rank. -/
structure Extent.Spans (e : Extent) (offsets : Set Point) : Prop where
  nonempty : offsets.Nonempty
  rank : ∀ o ∈ offsets, o.length = e.negative.length
  positive_length : e.positive.length = e.negative.length
  isLeast : ∀ d < e.negative.length, IsLeast ((Point.coord · d) '' offsets) (e.negative.coord d)
  isGreatest : ∀ d < e.negative.length,
    IsGreatest ((Point.coord · d) '' offsets) (e.positive.coord d)

namespace Extent

variable {e e' : Extent} {offset : Point} {offsets : Set Point}

theorem widen_eq_ok :
    e.widen offset = .ok e' ↔
      Point.min e.negative offset = .ok e'.negative ∧
        Point.max e.positive offset = .ok e'.positive := by
  unfold widen
  cases Point.min e.negative offset with
  | error fault => simp
  | ok negative =>
      cases Point.max e.positive offset with
      | error fault => simp
      | ok positive =>
          rcases e' with ⟨negative', positive'⟩
          simp

theorem spans_single (offset : Point) : (Extent.single offset).Spans {offset} where
  nonempty := Set.singleton_nonempty offset
  rank _ ho := congrArg List.length ho
  positive_length := rfl
  isLeast d _ := by
    rw [Set.image_singleton]
    exact isLeast_singleton
  isGreatest d _ := by
    rw [Set.image_singleton]
    exact isGreatest_singleton

theorem Spans.widen (h : e.Spans offsets) (hw : e.widen offset = .ok e') :
    e'.Spans (insert offset offsets) := by
  rcases widen_eq_ok.1 hw with ⟨hmin, hmax⟩
  rcases Point.min_eq_ok.1 hmin with ⟨hl, hn, hmin⟩
  rcases Point.max_eq_ok.1 hmax with ⟨_, hp, hmax⟩
  constructor
  case nonempty => exact Set.insert_nonempty offset offsets
  case rank =>
    rintro o (rfl | ho)
    · exact hl.symm.trans hn.symm
    · exact (h.rank o ho).trans hn.symm
  case positive_length => exact hp.trans (h.positive_length.trans hn.symm)
  case isLeast =>
    intro d hd
    rw [hn] at hd
    rw [Set.image_insert_eq, hmin d hd, min_comm]
    exact (h.isLeast d hd).insert _
  case isGreatest =>
    intro d hd
    rw [hn] at hd
    rw [Set.image_insert_eq, hmax d (h.positive_length.symm ▸ hd), max_comm]
    exact (h.isGreatest d hd).insert _

/-- An offset does not fit into an extent for its rank alone. -/
theorem widen_eq_error {fault : PointFault}
    (hlen : e.positive.length = e.negative.length)
    (h : e.widen offset = .error fault) :
    offset.length ≠ e.negative.length ∧ ∃ l r, fault = .rankMismatch l r := by
  by_cases hl : e.negative.length = offset.length
  · obtain ⟨negative, hmin⟩ := Point.exists_min hl
    obtain ⟨positive, hmax⟩ := Point.exists_max (hlen.trans hl)
    have hok : e.widen offset = .ok ⟨negative, positive⟩ := widen_eq_ok.2 ⟨hmin, hmax⟩
    rw [hok] at h
    cases h
  · have hmin : Point.min e.negative offset =
        .error (.rankMismatch e.negative.length offset.length) := Point.combine_rank hl
    simp only [widen, hmin] at h
    cases h
    exact ⟨Ne.symm hl, _, _, rfl⟩

theorem unroll_eq_ok {block : Point} :
    e.unroll block = .ok e' ↔
      e'.negative = e.negative ∧ Point.shrink e.positive block = .ok e'.positive := by
  unfold unroll
  cases Point.shrink e.positive block with
  | error fault => simp
  | ok positive =>
      rcases e' with ⟨negative', positive'⟩
      simp [eq_comm]

/-- The unroll cannot be taken off for its rank, or because a coordinate leaves the range. -/
theorem unroll_eq_error {block : Point} {fault : PointFault} :
    e.unroll block = .error fault ↔
      (e.positive.length ≠ block.length ∧
        fault = .rankMismatch e.positive.length block.length) ∨
      (e.positive.length = block.length ∧ fault = .overflow ∧
        ∃ d < e.positive.length, ¬ Coord.InRange (e.positive.coord d - block.coord d) ∨
          ¬ Coord.InRange (e.positive.coord d - block.coord d + 1)) := by
  have hshrink : e.unroll block = .error fault ↔
      Point.shrink e.positive block = .error fault := by
    unfold unroll
    cases Point.shrink e.positive block <;> simp
  rw [hshrink]
  by_cases hl : e.positive.length = block.length
  · simp [Point.shrink_eq_error hl, hl]
  · have hrank : Point.shrink e.positive block =
        .error (.rankMismatch e.positive.length block.length) := Point.combine_rank hl
    simp [hrank, hl, eq_comm]

end Extent

namespace Table

variable {α β ε : Type} {t : Table α}

/-- A changed table has an entry where the table has one. -/
theorem find?_change {f : α → Except ε β} {t' : Table β} (h : t.change f = .ok t') (k : Nat) :
    (t.find? k = none ∧ t'.find? k = none) ∨
      ∃ a b, t.find? k = some a ∧ f a = .ok b ∧ t'.find? k = some b := by
  have hentries : ∀ {es : List (Nat × α)} {bs}, changeEntries f es = .ok bs →
      (es.lookup k = none ∧ bs.1.lookup k = none) ∨
        ∃ a b, es.lookup k = some a ∧ f a = .ok b ∧ bs.1.lookup k = some b := by
    intro es
    induction es with
    | nil =>
        intro bs hbs
        cases hbs
        exact Or.inl ⟨rfl, rfl⟩
    | cons e es ih =>
        rcases e with ⟨key, a⟩
        intro bs hbs
        simp only [changeEntries] at hbs
        split at hbs
        · cases hbs
        · next b hb =>
            split at hbs
            · cases hbs
            · next cs hcs =>
                cases hbs
                simp only [List.lookup_cons]
                cases k == key with
                | true => exact Or.inr ⟨a, b, rfl, hb, rfl⟩
                | false => exact ih hcs
  simp only [change] at h
  split at h
  · cases h
  · next bs hbs =>
      cases h
      exact hentries hbs

/-- The entry under a key is the one that the list has. -/
theorem find?_of_mem_entries {k : Nat} {a : α} (h : (k, a) ∈ t.entries) :
    t.find? k = some a := by
  obtain ⟨before, after, hsplit⟩ := List.append_of_mem h
  refine List.lookup_eq_some_iff.2 ⟨before, after, hsplit, ?_⟩
  intro x hx
  have hsorted := t.sorted
  rw [hsplit, List.map_append, List.pairwise_append] at hsorted
  have hlt := hsorted.2.2 x.1 (List.mem_map_of_mem hx) k (by simp)
  simpa using (Nat.ne_of_lt hlt).symm

/-- A table cannot be changed when one of its entries cannot. -/
theorem change_eq_error {f : α → Except ε β} {fault : ε} (h : t.change f = .error fault) :
    ∃ k a, t.find? k = some a ∧ f a = .error fault := by
  have hentries : ∀ {es : List (Nat × α)}, changeEntries f es = .error fault →
      ∃ e ∈ es, f e.2 = .error fault := by
    intro es
    induction es with
    | nil =>
        intro h
        cases h
    | cons e es ih =>
        rcases e with ⟨k, a⟩
        intro h
        simp only [changeEntries] at h
        split at h
        · next hfault =>
            cases h
            exact ⟨(k, a), List.mem_cons_self, hfault⟩
        · split at h
          · next hfault =>
              cases h
              obtain ⟨e, he, hf⟩ := ih hfault
              exact ⟨e, List.mem_cons_of_mem _ he, hf⟩
          · cases h
  simp only [change] at h
  split at h
  · next hfault =>
      cases h
      obtain ⟨⟨k, a⟩, he, hf⟩ := hentries hfault
      exact ⟨k, a, find?_of_mem_entries he, hf⟩
  · cases h

end Table

namespace Program

/-- The offsets of the accesses to a value. -/
def offsetsIn (as : List Access) (v : ValueId) : Set Point :=
  {offset | ∃ a ∈ as, a.value = v ∧ a.offset = offset}

theorem offsetsIn_concat_self (as : List Access) (a : Access) :
    offsetsIn (as ++ [a]) a.value = insert a.offset (offsetsIn as a.value) := by
  ext offset
  constructor
  · rintro ⟨b, hb, hv, ho⟩
    rcases List.mem_append.1 hb with hb | hb
    · exact Or.inr ⟨b, hb, hv, ho⟩
    · obtain rfl := List.mem_singleton.1 hb
      exact Or.inl ho.symm
  · rintro (rfl | ⟨b, hb, hv, ho⟩)
    · exact ⟨a, by simp, rfl, rfl⟩
    · exact ⟨b, List.mem_append_left _ hb, hv, ho⟩

theorem offsetsIn_concat_of_ne {as : List Access} {a : Access} {v : ValueId} (h : a.value ≠ v) :
    offsetsIn (as ++ [a]) v = offsetsIn as v := by
  ext offset
  constructor
  · rintro ⟨b, hb, hv, ho⟩
    rcases List.mem_append.1 hb with hb | hb
    · exact ⟨b, hb, hv, ho⟩
    · obtain rfl := List.mem_singleton.1 hb
      exact absurd hv h
  · rintro ⟨b, hb, hv, ho⟩
    exact ⟨b, List.mem_append_left _ hb, hv, ho⟩

/-- Each entry is the least box around the offsets of the accesses to its value, and each
value that is accessed has an entry. -/
structure Records (t : Table Extent) (as : List Access) : Prop where
  spans : ∀ {v : ValueId} {e}, t.find? v.index = some e → e.Spans (offsetsIn as v)
  covers : ∀ {v : ValueId}, (offsetsIn as v).Nonempty → ∃ e, t.find? v.index = some e

namespace Records

variable {t : Table Extent} {as : List Access} {a : Access}

theorem empty : Records .empty [] where
  spans h := by cases h
  covers := by rintro v ⟨_, _, ⟨⟩, _⟩

/-- One more access widens the entry of its value. -/
theorem insert {e : Extent} (h : Records t as)
    (he : e.Spans (Insert.insert a.offset (offsetsIn as a.value))) :
    Records (t.insert a.value.index e) (as ++ [a]) := by
  have hindex : ∀ {v : ValueId}, v.index ≠ a.value.index → a.value ≠ v := fun hne heq =>
    hne (heq ▸ rfl)
  constructor
  · intro v e' he'
    rw [Table.find?_insert] at he'
    split at he'
    · next hv =>
        cases he'
        obtain rfl : v = a.value := by cases v; exact congrArg ValueId.mk hv
        rw [offsetsIn_concat_self]
        exact he
    · next hv =>
        rw [offsetsIn_concat_of_ne (hindex hv)]
        exact h.spans he'
  · intro v hv
    rw [Table.find?_insert]
    split
    · exact ⟨e, rfl⟩
    · next hne =>
        rw [offsetsIn_concat_of_ne (hindex hne)] at hv
        exact h.covers hv

/-- Accesses to one value have one rank. -/
theorem rank_eq (h : Records t as) {v : ValueId} {o o' : Point}
    (ho : o ∈ offsetsIn as v) (ho' : o' ∈ offsetsIn as v) :
    o.length = o'.length := by
  obtain ⟨e, he⟩ := h.covers ⟨o, ho⟩
  exact ((h.spans he).rank o ho).trans ((h.spans he).rank o' ho').symm

end Records

/-- Folding goes on to the end, or it stops at an access whose rank is not that of the
earlier accesses to the same value. -/
theorem foldAccesses_spec (as : List Access) :
    ∀ {t : Table Extent} {before : List Access}, Records t before →
      (∃ t', foldAccesses t as = .ok t' ∧ Records t' (before ++ as)) ∨
      ∃ mid a after t' l r, as = mid ++ a :: after ∧ Records t' (before ++ mid) ∧
        (∃ o ∈ offsetsIn (before ++ mid) a.value, o.length ≠ a.offset.length) ∧
        foldAccesses t as = .error (.access a.op (.rankMismatch l r)) := by
  induction as with
  | nil =>
      intro t before h
      exact Or.inl ⟨t, rfl, by rwa [List.append_nil]⟩
  | cons a as ih =>
      intro t before h
      -- What happens behind an access that can be folded.
      have hnext : ∀ {t₁ : Table Extent}, Records t₁ (before ++ [a]) →
          foldAccesses t (a :: as) = foldAccesses t₁ as →
          (∃ t', foldAccesses t (a :: as) = .ok t' ∧ Records t' (before ++ a :: as)) ∨
          ∃ mid b after t' l r, a :: as = mid ++ b :: after ∧ Records t' (before ++ mid) ∧
            (∃ o ∈ offsetsIn (before ++ mid) b.value, o.length ≠ b.offset.length) ∧
            foldAccesses t (a :: as) = .error (.access b.op (.rankMismatch l r)) := by
        intro t₁ h₁ heq
        rw [heq]
        rcases ih h₁ with ⟨t', ht', hr⟩ | ⟨mid, b, after, t', l, r, hsplit, hr, hclash, herr⟩
        · refine Or.inl ⟨t', ht', ?_⟩
          rwa [List.append_assoc] at hr
        · refine Or.inr ⟨a :: mid, b, after, t', l, r, by rw [hsplit]; rfl, ?_, ?_, herr⟩
          · rwa [List.append_assoc] at hr
          · rwa [List.append_assoc] at hclash
      cases hfind : t.find? a.value.index with
      | none =>
          have hnone : offsetsIn before a.value = ∅ := by
            refine Set.not_nonempty_iff_eq_empty.1 fun hne => ?_
            obtain ⟨e, he⟩ := h.covers hne
            rw [hfind] at he
            cases he
          have hspans : (Extent.single a.offset).Spans
              (insert a.offset (offsetsIn before a.value)) := by
            rw [hnone, insert_empty_eq]
            exact Extent.spans_single _
          exact hnext (h.insert hspans) (by simp only [foldAccesses, hfind])
      | some e =>
          have hspans := h.spans hfind
          cases hwiden : e.widen a.offset with
          | ok e' =>
              exact hnext (h.insert (hspans.widen hwiden))
                (by simp only [foldAccesses, hfind, hwiden])
          | error fault =>
              obtain ⟨hrank, l, r, rfl⟩ := Extent.widen_eq_error hspans.positive_length hwiden
              obtain ⟨o, ho⟩ := hspans.nonempty
              refine Or.inr ⟨[], a, as, t, l, r, rfl, by rwa [List.append_nil], ⟨o, ?_, ?_⟩, ?_⟩
              · rwa [List.append_nil]
              · rw [hspans.rank o ho]
                exact hrank.symm
              · simp only [foldAccesses, hfind, hwiden]

/-- Folding finds the least boxes. -/
theorem records_of_foldAccesses {as : List Access} {t : Table Extent}
    (h : foldAccesses .empty as = .ok t) :
    Records t as := by
  rcases foldAccesses_spec as Records.empty with ⟨t', ht', hr⟩ | ⟨_, _, _, _, _, _, _, _, _, herr⟩
  · rw [h] at ht'
    cases ht'
    exact hr
  · rw [h] at herr
    cases herr

/-- Folding stops at the first access whose rank is not that of the earlier accesses to
the same value. -/
theorem foldAccesses_eq_error {as : List Access} {fault : ExtentFault}
    (h : foldAccesses .empty as = .error fault) :
    ∃ before a after l r, as = before ++ a :: after ∧
      (∀ v, ∀ o ∈ offsetsIn before v, ∀ o' ∈ offsetsIn before v, o.length = o'.length) ∧
      (∃ o ∈ offsetsIn before a.value, o.length ≠ a.offset.length) ∧
      fault = .access a.op (.rankMismatch l r) := by
  rcases foldAccesses_spec as Records.empty with
    ⟨t', ht', _⟩ | ⟨before, a, after, t', l, r, hsplit, hr, hclash, herr⟩
  · rw [h] at ht'
    cases ht'
  · rw [h] at herr
    cases herr
    exact ⟨before, a, after, l, r, hsplit, fun v o ho o' ho' => hr.rank_eq ho ho', hclash, rfl⟩

end Program
end StencilShapes
