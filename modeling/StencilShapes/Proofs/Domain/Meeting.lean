import StencilShapes.Proofs.Domain.Demand

/-!
# Meeting one use after another

The fold over the uses of a result extends a box by what each use demands.  Of the ranks of
these demands it knows nothing in advance: a box without dimensions gives way to any other
one, and from a box with a dimension on all demands must have its rank.  In each case the box
that is reached covers what has been met.

**Results.**
* `Bounds.hull?_eq_some`: how a box is extended.
* `Program.hull?_of_meetDemand`: what one use adds.
* `Program.covers_of_meetDemands`: the box that a fold reaches covers all that it has met.
-/

namespace StencilShapes

namespace Bounds

/-- A box reaches at least as far as another one of the same rank, in all dimensions. -/
structure Covers (c b : Bounds) : Prop where
  lower_length : b.lower.length = c.lower.length
  upper_length : b.upper.length = c.upper.length
  lower : ∀ d < c.lower.length, c.lower.coord d ≤ b.lower.coord d
  upper : ∀ d < c.upper.length, b.upper.coord d ≤ c.upper.coord d

variable {b c need : Bounds}

theorem Covers.refl (b : Bounds) : b.Covers b :=
  ⟨rfl, rfl, fun _ _ => le_rfl, fun _ _ => le_rfl⟩

theorem Covers.trans (hcb : c.Covers b) (hb : b.Covers need) : c.Covers need where
  lower_length := hb.lower_length.trans hcb.lower_length
  upper_length := hb.upper_length.trans hcb.upper_length
  lower d hd := (hcb.lower d hd).trans (hb.lower d (hcb.lower_length ▸ hd))
  upper d hd := (hb.upper d (hcb.upper_length ▸ hd)).trans (hcb.upper d hd)

theorem Covers.rank_eq (h : c.Covers b) : b.rank = c.rank :=
  h.lower_length

/-- Only the box without dimensions is covered by that box. -/
theorem Covers.eq_nil (h : c.Covers b) : c = .nil ↔ b = .nil := by
  constructor
  · rintro rfl
    exact eq_nil_of_ranked ⟨h.lower_length, h.upper_length⟩
  · rintro rfl
    exact eq_nil_of_ranked ⟨h.lower_length.symm, h.upper_length.symm⟩

/-- Only the box without dimensions gives way to a box of another rank; any other one is
extended. -/
theorem hull?_eq_some (h : b.hull? need = some c) :
    (b = .nil ∧ c = need) ∨ (b ≠ .nil ∧ c.Covers b ∧ c.Covers need) := by
  unfold hull? at h
  split at h
  · next hnil =>
      rw [Bool.and_eq_true, List.isEmpty_iff, List.isEmpty_iff] at hnil
      cases h
      exact Or.inl ⟨eq_nil_of_ranked ⟨by rw [hnil.1]; rfl, by rw [hnil.2]; rfl⟩, rfl⟩
  · next hne =>
      split at h
      · split at h
        · next lower upper hmin hmax =>
            cases h
            obtain ⟨hl, hllen, hlower⟩ := Point.min_eq_ok.1 hmin
            obtain ⟨hu, hulen, hupper⟩ := Point.max_eq_ok.1 hmax
            refine Or.inr ⟨?_, ⟨hllen.symm, hulen.symm, fun d hd => ?_, fun d hd => ?_⟩,
              ⟨hl.symm.trans hllen.symm, hu.symm.trans hulen.symm, fun d hd => ?_, fun d hd => ?_⟩⟩
            · rintro rfl
              exact hne rfl
            · rw [hlower d (hllen ▸ hd)]
              exact min_le_left _ _
            · rw [hupper d (hulen ▸ hd)]
              exact le_max_left _ _
            · rw [hlower d (hllen ▸ hd)]
              exact min_le_right _ _
            · rw [hupper d (hulen ▸ hd)]
              exact le_max_right _ _
        · cases h
      · cases h

end Bounds

/-- The box is the other one, with its ends moved by the extent at which an operation reads
a value. -/
structure Bounds.Widened (t : ExtentTable) (u : OpId) (v : ValueId) (b need : Bounds) : Prop where
  lower_length : need.lower.length = b.lower.length
  upper_length : need.upper.length = b.upper.length
  lower : ∀ d < b.lower.length, need.lower.coord d = b.lower.coord d + t.negativeAt u v d
  upper : ∀ d < b.upper.length, need.upper.coord d = b.upper.coord d + t.positiveAt u v d

theorem Bounds.Widened.eq_nil {t : ExtentTable} {u : OpId} {v : ValueId} {b need : Bounds}
    (h : Widened t u v b need) :
    need = .nil ↔ b = .nil := by
  constructor
  · rintro rfl
    exact eq_nil_of_ranked ⟨h.lower_length.symm, h.upper_length.symm⟩
  · rintro rfl
    exact eq_nil_of_ranked ⟨h.lower_length, h.upper_length⟩

namespace Program

section Meeting

variable {p : Program} {t : ExtentTable} {name : String} {producer : Place}
  {use : Use} {uses : List Use} {b box box' : Bounds} {v : ValueId}

/-- A demand is the box of the reader, widened by the extent. -/
theorem widened_of_demandedBounds {u : OpId} {d : Demand} {need : Bounds}
    (h : demandedBounds t u d b = .ok need) :
    Bounds.Widened t u d.value b need := by
  unfold demandedBounds at h
  split at h
  · next hnone =>
      cases h
      have hzero : ∀ k, t.negativeAt u d.value k = 0 ∧ t.positiveAt u d.value k = 0 := fun k => by
        simp [ExtentTable.negativeAt, ExtentTable.positiveAt, hnone]
      refine ⟨rfl, rfl, fun k _ => ?_, fun k _ => ?_⟩
      · rw [(hzero k).1, Int.add_zero]
      · rw [(hzero k).2, Int.add_zero]
  · next e he =>
      split at h
      · cases h
      · next lower hlower =>
          split at h
          · cases h
          · next upper hupper =>
              cases h
              obtain ⟨_, hllen, hlcoord⟩ := Point.add_eq_ok.1 (widenEnd_eq_ok.1 hlower)
              obtain ⟨_, hulen, hucoord⟩ := Point.add_eq_ok.1 (widenEnd_eq_ok.1 hupper)
              refine ⟨hllen, hulen, fun k hk => ?_, fun k hk => ?_⟩
              · simp only [ExtentTable.negativeAt, he, Option.elim_some]
                exact hlcoord k hk
              · simp only [ExtentTable.positiveAt, he, Option.elim_some]
                exact hucoord k hk

/-- A use that demands a box: its operation has bounds, and an operand at its position. -/
def Demanding (p : Program) (use : Use) (b : Bounds) : Prop :=
  p.boundsOf use.user = some b ∧ (p.valueAt? use).isSome

/-- A use that demands nothing is passed over. -/
theorem meetDemand_of_not_demanding (h : ∀ b, ¬ p.Demanding use b) :
    p.meetDemand t name producer box use = .ok box := by
  unfold meetDemand
  cases ho : p.op? use.user with
  | none => rfl
  | some o =>
      dsimp only
      split
      · next b v hb hv =>
          exact absurd ⟨by simp [boundsOf, ho, hb], by simp [valueAt?, ho, hv]⟩ (h b)
      · rfl

/-- A use that demands a box extends the box so far by what it demands. -/
theorem hull?_of_meetDemand
    (hb : p.Demanding use b)
    (h : p.meetDemand t name producer box use = .ok box') :
    ∃ v need, p.valueAt? use = some v ∧ Bounds.Widened t use.user v b need ∧
      box.hull? need = some box' := by
  obtain ⟨hbounds, hvalue⟩ := hb
  obtain ⟨o, ho, hk⟩ := Option.bind_eq_some_iff.1 hbounds
  obtain ⟨v, hv⟩ := Option.isSome_iff_exists.1 hvalue
  have hv' : o.operands[use.operand]? = some v := by simpa [valueAt?, ho] using hv
  unfold meetDemand at h
  simp only [ho, hk, hv'] at h
  split at h
  · cases h
  · next need hneed =>
      split at h
      · next hhull =>
          cases h
          exact ⟨v, need, hv, widened_of_demandedBounds hneed, hhull⟩
      · cases h

/-- The box covers what a use demands, unless that has no dimension. -/
def Meets (p : Program) (t : ExtentTable) (box : Bounds) (use : Use) : Prop :=
  ∀ b v, p.boundsOf use.user = some b → p.valueAt? use = some v → b ≠ .nil →
    ∃ need, Bounds.Widened t use.user v b need ∧ box.Covers need

theorem Meets.mono (h : p.Meets t box use) (hbox : box = .nil ∨ box'.Covers box) :
    p.Meets t box' use := by
  intro b v hb hv hne
  obtain ⟨need, hwidened, hcovers⟩ := h b v hb hv hne
  rcases hbox with rfl | hbox
  · exact absurd (hwidened.eq_nil.1 (hcovers.eq_nil.1 rfl)) hne
  · exact ⟨need, hwidened, hbox.trans hcovers⟩

/-- One use is met, and the box does not lose anything. -/
theorem meets_of_meetDemand (h : p.meetDemand t name producer box use = .ok box') :
    (box = .nil ∨ box'.Covers box) ∧ p.Meets t box' use := by
  by_cases hb : ∃ b, p.Demanding use b
  · obtain ⟨b, hb⟩ := hb
    obtain ⟨v, need, hv, hwidened, hhull⟩ := hull?_of_meetDemand hb h
    have hmeets : box'.Covers need → p.Meets t box' use := by
      intro hcovers b' v' hb' hv' _
      obtain rfl : b = b' := Option.some.inj (hb.1.symm.trans hb')
      obtain rfl : v = v' := Option.some.inj (hv.symm.trans hv')
      exact ⟨need, hwidened, hcovers⟩
    rcases Bounds.hull?_eq_some hhull with ⟨hnil, rfl⟩ | ⟨_, hbox, hneed⟩
    · exact ⟨Or.inl hnil, hmeets (Bounds.Covers.refl _)⟩
    · exact ⟨Or.inr hbox, hmeets hneed⟩
  · have hnone : ∀ b, ¬ p.Demanding use b := fun b hb' => hb ⟨b, hb'⟩
    rw [meetDemand_of_not_demanding hnone] at h
    cases h
    exact ⟨Or.inr (Bounds.Covers.refl _), fun b v hb' hv _ =>
      absurd ⟨hb', by rw [hv]; rfl⟩ (hnone b)⟩

/-- The box that a fold reaches covers all that it has met. -/
theorem covers_of_meetDemands :
    ∀ {box : Bounds}, p.meetDemands t name producer box uses = .ok box' →
      (box = .nil ∨ box'.Covers box) ∧ ∀ use ∈ uses, p.Meets t box' use := by
  induction uses with
  | nil =>
      intro box h
      cases h
      exact ⟨Or.inr (Bounds.Covers.refl _), List.forall_mem_nil _⟩
  | cons use rest ih =>
      intro box h
      rw [meetDemands] at h
      split at h
      · next box₁ hstep =>
          obtain ⟨hbox₁, huse⟩ := meets_of_meetDemand hstep
          obtain ⟨hbox', hrest⟩ := ih h
          refine ⟨?_, List.forall_mem_cons.2 ⟨huse.mono hbox', hrest⟩⟩
          -- A box without dimensions covers no other one.
          rcases hbox₁ with hnil | hbox₁
          · exact Or.inl hnil
          · exact hbox'.imp (fun hnil => (hbox₁.eq_nil).1 hnil) fun hbox' => hbox'.trans hbox₁
      · cases h

end Meeting

end Program
end StencilShapes
