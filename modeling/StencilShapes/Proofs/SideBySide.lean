import Mathlib.Data.List.Forall2

/-!
# Lists side by side

Two lists belong together when they are as long as each other and each item belongs to the
item at its position: operations to their descriptions, values of one program to those of
another, items of an array to the values they were written for.

**Results.**
* `exists_getElem?_of_forall₂`, `exists_mem_of_forall₂`: what belongs to one item.
* `forall₂_of_common`: two lists that belong to a third one.
* `map_eq_of_forall₂`, `forall₂_of_map_eq`: items that belong together by a common value.
-/

namespace StencilShapes

variable {α β γ : Type}

/-- What corresponds to an element at a position. -/
theorem exists_getElem?_of_forall₂ {R : α → β → Prop} {as : List α} {bs : List β}
    (h : List.Forall₂ R as bs) :
    ∀ {k : Nat} {a : α}, as[k]? = some a → ∃ b, bs[k]? = some b ∧ R a b := by
  induction h with
  | nil =>
      intro k a ha
      cases ha
  | cons hab _ ih =>
      intro k a ha
      cases k with
      | zero =>
          cases ha
          exact ⟨_, rfl, hab⟩
      | succ k => exact ih ha

/-- An item belongs to some item of the other list. -/
theorem exists_mem_of_forall₂ {R : α → β → Prop} {as : List α} {bs : List β}
    (h : List.Forall₂ R as bs) :
    ∀ b ∈ bs, ∃ a ∈ as, R a b := by
  intro b hb
  obtain ⟨k, hk⟩ := List.getElem?_of_mem hb
  obtain ⟨a, ha, hab⟩ := exists_getElem?_of_forall₂ h.flip hk
  exact ⟨a, List.mem_of_getElem? ha, hab⟩

/-- Two lists that belong to one list belong together. -/
theorem forall₂_of_common {R : α → β → Prop} {S : α → γ → Prop}
    {T : β → γ → Prop} {as : List α} {bs : List β} {cs : List γ}
    (h : List.Forall₂ R as bs) (h' : List.Forall₂ S as cs)
    (hstep : ∀ {a b c}, R a b → S a c → T b c) :
    List.Forall₂ T bs cs := by
  induction h generalizing cs with
  | nil =>
      cases h'
      exact .nil
  | cons hab _ ih =>
      cases h' with
      | cons hac h' => exact .cons (hstep hab hac) (ih h')

/-- Names with items that belong together. -/
theorem forall₂_zip {R : β → γ → Prop} {bs : List β} {cs : List γ}
    (h : List.Forall₂ R bs cs) :
    ∀ names : List α,
      List.Forall₂ (fun b c => b.1 = c.1 ∧ R b.2 c.2) (names.zip bs) (names.zip cs) := by
  induction h with
  | nil =>
      intro names
      rw [List.zip_nil_right, List.zip_nil_right]
      exact .nil
  | cons hbc _ ih =>
      intro names
      cases names with
      | nil => exact .nil
      | cons name names => exact .cons ⟨rfl, hbc⟩ (ih names)

theorem map_eq_of_forall₂ {R : α → β → Prop} {f : α → γ} {g : β → γ}
    {as : List α} {bs : List β}
    (h : List.Forall₂ R as bs)
    (hstep : ∀ {a b}, R a b → f a = g b) :
    as.map f = bs.map g := by
  induction h with
  | nil => rfl
  | cons hab _ ih => rw [List.map_cons, List.map_cons, hstep hab, ih]

theorem forall₂_of_map_eq {f : α → γ} {g : β → γ} {as : List α} {bs : List β}
    (h : as.map f = bs.map g) :
    List.Forall₂ (fun a b => f a = g b) as bs := by
  rw [← List.forall₂_map_right_iff (R := fun a c => f a = c),
    ← List.forall₂_map_left_iff (R := fun a c => a = c), List.forall₂_eq_eq_eq, h]

end StencilShapes
