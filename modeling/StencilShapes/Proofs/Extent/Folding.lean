import StencilShapes.Proofs.Extent.Box
import Mathlib.Data.List.Induction

/-!
# Folding offsets into an extent

An extent begins with one offset, and others are offered to it one after the other.  An
offset of the rank of the first one is taken in; any other one is refused and leaves the
extent as it was.  So both ends always belong to the offsets taken in so far, and what is
left at the end depends on nothing but these.

**Results.**
* `Extent.Spans.unique`: a set of offsets has one least box.
* `Extent.step_of_rank`, `Extent.step_of_rank_ne`: one step.
* `Extent.spans_after`, `Extent.getElem?_trace`: a run.
* `Extent.folds_to_box`: each step of a run, and its outcome.
-/

namespace StencilShapes

namespace Extent

variable {e e' : Extent} {s : Set Point} {first offset : Point} {offsets : List Point}

/-- The extent after some offsets have been offered. -/
def after (e : Extent) (offsets : List Point) : Extent :=
  offsets.foldl (fun e offset => (e.step offset).1) e

/-- The first offset, and those of its rank among some others. -/
def fitting (first : Point) (offsets : List Point) : Set Point :=
  {offset | offset ∈ first :: offsets ∧ offset.length = first.length}

/-- A set of offsets has one least box. -/
theorem Spans.unique (h : e.Spans s) (h' : e'.Spans s) : e = e' := by
  obtain ⟨offset, hoffset⟩ := h.nonempty
  have hrank : e.negative.length = e'.negative.length :=
    (h.rank offset hoffset).symm.trans (h'.rank offset hoffset)
  have hnegative : e.negative = e'.negative :=
    Point.ext_coord hrank fun d hd =>
      (h.isLeast d hd).unique (h'.isLeast d (hrank ▸ hd))
  have hpositive : e.positive = e'.positive := by
    refine Point.ext_coord ?_ fun d hd => ?_
    · rw [h.positive_length, h'.positive_length, hrank]
    · rw [h.positive_length] at hd
      exact (h.isGreatest d hd).unique (h'.isGreatest d (hrank ▸ hd))
  cases e
  cases e'
  simp_all

section Step

/-- An offset of the right rank is taken in. -/
theorem step_of_rank (h : e.Spans s) (hl : offset.length = e.negative.length) :
    (e.step offset).2 = none ∧ (e.step offset).1.Spans (insert offset s) := by
  cases hw : e.widen offset with
  | ok e' =>
      simp only [step, hw]
      exact ⟨trivial, h.widen hw⟩
  | error fault =>
      obtain ⟨hne, _⟩ := widen_eq_error h.positive_length hw
      exact absurd hl hne

/-- Any other offset is refused, with the two ranks, and leaves the extent as it was. -/
theorem step_of_rank_ne (hl : offset.length ≠ e.negative.length) :
    e.step offset = (e, some (.rankMismatch e.negative.length offset.length)) := by
  have hmin : Point.min e.negative offset =
      .error (.rankMismatch e.negative.length offset.length) := Point.combine_rank (Ne.symm hl)
  simp only [step, widen, hmin]

end Step

section Fitting

@[simp] theorem fitting_nil : fitting first [] = {first} := by
  ext offset
  simp only [fitting, List.mem_singleton, Set.mem_ofPred_eq, Set.mem_singleton_iff]
  constructor
  · rintro ⟨rfl, _⟩
    rfl
  · rintro rfl
    exact ⟨rfl, rfl⟩

theorem mem_fitting_concat {o : Point} :
    o ∈ fitting first (offsets ++ [offset]) ↔
      o ∈ fitting first offsets ∨ o = offset ∧ o.length = first.length := by
  simp only [fitting, List.mem_cons, List.mem_append, List.not_mem_nil, or_false,
    Set.mem_ofPred_eq, ← or_assoc, or_and_right]

theorem fitting_concat_of_rank (hl : offset.length = first.length) :
    fitting first (offsets ++ [offset]) = insert offset (fitting first offsets) := by
  ext o
  rw [mem_fitting_concat, Set.mem_insert_iff, or_comm]
  refine or_congr_left ⟨And.left, ?_⟩
  rintro rfl
  exact ⟨rfl, hl⟩

theorem fitting_concat_of_rank_ne (hl : offset.length ≠ first.length) :
    fitting first (offsets ++ [offset]) = fitting first offsets := by
  ext o
  refine mem_fitting_concat.trans (or_iff_left ?_)
  rintro ⟨rfl, hrank⟩
  exact hl hrank

end Fitting

section Run

@[simp] theorem after_nil : e.after [] = e :=
  rfl

theorem after_concat : e.after (offsets ++ [offset]) = ((e.after offsets).step offset).1 := by
  rw [after, List.foldl_append]
  rfl

/-- An extent that spans what fits to an offset has the rank of that offset. -/
theorem Spans.length_of_fitting (h : e.Spans (fitting first offsets)) :
    e.negative.length = first.length :=
  (h.rank first ⟨List.mem_cons_self, rfl⟩).symm

/-- After any offsets, the extent is the least box around those that fit. -/
theorem spans_after (first : Point) (offsets : List Point) :
    ((single first).after offsets).Spans (fitting first offsets) := by
  induction offsets using List.reverseRecOn with
  | nil =>
      rw [after_nil, fitting_nil]
      exact spans_single first
  | append_singleton offsets offset ih =>
      rw [after_concat]
      by_cases hl : offset.length = first.length
      · rw [fitting_concat_of_rank hl]
        exact (step_of_rank ih (hl.trans ih.length_of_fitting.symm)).2
      · rw [fitting_concat_of_rank_ne hl, step_of_rank_ne (ih.length_of_fitting.symm ▸ hl)]
        exact ih

@[simp] theorem length_trace (e : Extent) (offsets : List Point) :
    (e.trace offsets).length = offsets.length := by
  induction offsets generalizing e with
  | nil => rfl
  | cons offset offsets ih => simp [trace, ih]

/-- A run makes each step where the steps before have led. -/
theorem getElem?_trace (e : Extent) {i : Nat} (h : offsets[i]? = some offset) :
    (e.trace offsets)[i]? = some ((e.after (offsets.take i)).step offset) := by
  induction offsets generalizing e i with
  | nil => simp at h
  | cons o offsets ih =>
      cases i with
      | zero =>
          obtain rfl : o = offset := by simpa using h
          rfl
      | succ i => exact ih (e.step o).1 (by simpa using h)

end Run

/-- The fault of offering an offset to the extent of another one. -/
def refusal? (first offset : Point) : Option PointFault :=
  if offset.length = first.length then none
  else some (.rankMismatch first.length offset.length)

/-- What is told of a step of a run, and what is left after it. -/
theorem step_after (first offset : Point) (offsets : List Point) :
    ((single first).after offsets).step offset =
      ((single first).after (offsets ++ [offset]), refusal? first offset) := by
  have hspans := spans_after first offsets
  have hlength := hspans.length_of_fitting
  refine Prod.ext after_concat.symm ?_
  by_cases hl : offset.length = first.length
  · rw [refusal?, if_pos hl]
    exact (step_of_rank hspans (hl.trans hlength.symm)).1
  · rw [refusal?, if_neg hl, step_of_rank_ne (hlength.symm ▸ hl), hlength]

/-- Offsets are offered to the extent of a first one.  After each step, the ends are the least
and the greatest coordinates of the first offset and of all offsets of its rank so far.  A
step fails exactly when the rank is another one; then it names both ranks, and the extent is
as before.  So neither order nor repetition matters to what is left. -/
theorem folds_to_box (first : Point) (offsets : List Point) :
    ((single first).trace offsets).length = offsets.length ∧
      (∀ (i : Nat) (offset : Point), offsets[i]? = some offset →
        ∃ fault, ((single first).trace offsets)[i]? =
            some ((single first).after (offsets.take (i + 1)), fault) ∧
          ((single first).after (offsets.take (i + 1))).Spans
            (fitting first (offsets.take (i + 1))) ∧
          (fault = none ↔ offset.length = first.length) ∧
          (offset.length ≠ first.length →
            fault = some (.rankMismatch first.length offset.length) ∧
              (single first).after (offsets.take (i + 1)) =
                (single first).after (offsets.take i))) ∧
      ((single first).after offsets).Spans (fitting first offsets) ∧
      ∀ (first' : Point) (offsets' : List Point),
        fitting first offsets = fitting first' offsets' →
          (single first).after offsets = (single first').after offsets' := by
  refine ⟨length_trace _ _, fun i offset hoffset => ?_, spans_after first offsets,
    fun first' offsets' hsame => ?_⟩
  · have htake : offsets.take (i + 1) = offsets.take i ++ [offset] := by
      rw [List.take_add_one, hoffset]
      rfl
    refine ⟨refusal? first offset, ?_, spans_after first (offsets.take (i + 1)), ?_,
      fun hne => ⟨if_neg hne, ?_⟩⟩
    · rw [getElem?_trace _ hoffset, step_after, htake]
    · rw [refusal?]
      split <;> simp_all
    · rw [htake, after_concat, step_of_rank_ne]
      rwa [(spans_after first (offsets.take i)).length_of_fitting]
  · have hspans := spans_after first offsets
    rw [hsame] at hspans
    exact hspans.unique (spans_after first' offsets')

/-- Offsets of two ranks, one of them repeated, and the same in another order. -/
theorem folds_to_box_mixed :
    let line (n : Int64) : Point := [.ofInt64 n]
    let given := [line 3, [], line (-2), line 3]
    ((single (line 1)).trace given)[1]? =
        some (⟨line 1, line 3⟩, some (.rankMismatch 1 0)) ∧
      (single (line 1)).after given = ⟨line (-2), line 3⟩ ∧
      (single (line 1)).after given = (single (line (-2))).after [line 3, line 1] := by
  intro line given
  obtain ⟨_, hsteps, _, hset⟩ := folds_to_box (line 1) given
  obtain ⟨fault, htrace, _, _, hrefused⟩ := hsteps 1 [] rfl
  obtain ⟨rfl, _⟩ := hrefused (by decide)
  refine ⟨htrace.trans (by decide), by decide, hset (line (-2)) [line 3, line 1] ?_⟩
  ext offset
  simp only [fitting, given, line, List.mem_cons, List.not_mem_nil, or_false, Set.mem_ofPred_eq]
  grind

end Extent
end StencilShapes
