import StencilShapes.Proofs.Description.Steps
import Mathlib.Data.List.Nodup

/-!
# Names that a scope knows

What a scope does depends on which names it knows: a known name is found, a new one can
be defined, and several can be defined when they are new and distinct.  Ranks that are
known and the same can be compared.

**Results.**
* `Scope.Knows.exists_getAll_iff`: names are found when all of them are known.
* `Scope.Knows.defineAll`, `Scope.Knows.exists_defineAll`: defining several names.
* `exists_operandRank`: operands of one rank have a common rank.
-/

namespace StencilShapes

namespace Scope

variable {α : Type} {s s' : Scope α} {known names : List String} {name : String} {a : α}
  {xs : List (String × α)}

theorem defineAll_cons :
    s.defineAll ((name, a) :: xs) = .ok s' ↔
      ∃ t, s.define name a = .ok t ∧ t.defineAll xs = .ok s' := by
  simp only [defineAll, Elaboration.bind_eq_ok]

/-- Names are looked up one by one. -/
theorem get_of_mem_zip {as : List α} (h : s.getAll names = .ok as)
    (hmem : (name, a) ∈ names.zip as) :
    s.get name = .ok a := by
  induction names generalizing as with
  | nil => cases hmem
  | cons x names ih =>
      rcases getAll_cons.1 h with ⟨b, bs, hb, hbs, rfl⟩
      rcases List.mem_cons.1 hmem with heq | hmem
      · cases heq
        exact hb
      · exact ih hbs hmem

/-- A scope knows some names, each of them once. -/
structure Knows (s : Scope α) (known : List String) : Prop where
  distinct : known.Nodup
  isSome_iff : ∀ name, (s.bindings.lookup name).isSome ↔ name ∈ known

namespace Knows

theorem empty : Knows ({} : Scope α) [] :=
  ⟨List.nodup_nil, fun name => by simp⟩

theorem exists_get_iff (h : s.Knows known) : (∃ a, s.get name = .ok a) ↔ name ∈ known := by
  rw [← h.isSome_iff, Option.isSome_iff_exists]
  exact exists_congr fun a => get_eq_ok

theorem exists_getAll_iff (h : s.Knows known) :
    (∃ as, s.getAll names = .ok as) ↔ ∀ name ∈ names, name ∈ known := by
  induction names with
  | nil => simp [getAll_nil]
  | cons name names ih =>
      rw [List.forall_mem_cons, ← ih, ← h.exists_get_iff]
      simp only [getAll_cons]
      constructor
      · rintro ⟨_, a, as, ha, has, rfl⟩
        exact ⟨⟨a, ha⟩, as, has⟩
      · rintro ⟨⟨a, ha⟩, as, has⟩
        exact ⟨_, a, as, ha, has, rfl⟩

theorem exists_define_iff (h : s.Knows known) :
    (∃ s', s.define name a = .ok s') ↔ name ∉ known := by
  simp only [define_eq_ok, exists_and_left, exists_eq, and_true]
  rw [← h.isSome_iff, Bool.not_eq_true, Option.isSome_eq_false_iff, Option.isNone_iff_eq_none]

theorem define (h : s.Knows known) (hs : s.define name a = .ok s') :
    s'.Knows (known ++ [name]) := by
  have hnew : name ∉ known := h.exists_define_iff.1 ⟨s', hs⟩
  obtain ⟨_, rfl⟩ := define_eq_ok.1 hs
  constructor
  · rw [← List.concat_eq_append, List.nodup_concat]
    exact ⟨hnew, h.distinct⟩
  · intro x
    rw [List.lookup_cons, List.mem_append, List.mem_singleton, ← h.isSome_iff]
    cases hx : x == name with
    | true => simp [beq_iff_eq.1 hx]
    | false => simp [beq_eq_false_iff_ne.1 hx]

theorem defineAll (h : s.Knows known) (hs : s.defineAll xs = .ok s') :
    s'.Knows (known ++ xs.map Prod.fst) := by
  induction xs generalizing s known with
  | nil =>
      cases hs
      rwa [List.map_nil, List.append_nil]
  | cons x xs ih =>
      rcases x with ⟨name, a⟩
      obtain ⟨t, ht, hs⟩ := defineAll_cons.1 hs
      have hrest := ih (h.define ht) hs
      rwa [List.append_assoc] at hrest

/-- New names can be defined when they are new and distinct. -/
theorem exists_defineAll (h : s.Knows known) (hnew : (known ++ xs.map Prod.fst).Nodup) :
    ∃ s', s.defineAll xs = .ok s' := by
  induction xs generalizing s known with
  | nil => exact ⟨s, rfl⟩
  | cons x xs ih =>
      rcases x with ⟨name, a⟩
      have hname : name ∉ known := fun hmem =>
        (List.nodup_append'.1 hnew).2.2 hmem (by simp)
      obtain ⟨t, ht⟩ := h.exists_define_iff.2 hname
      obtain ⟨s', hs'⟩ := ih (h.define ht) (by rwa [List.append_assoc])
      exact ⟨s', defineAll_cons.2 ⟨t, ht, hs'⟩⟩

end Knows
end Scope

/-- Known ranks that are the same have a common rank. -/
theorem exists_operandRank {rank : Option Nat} {xs : List (String × Named)}
    (h : ∀ x ∈ xs, ∃ r, rank = some r ∧ x.2.rank = some r) :
    ∀ start : Option Nat, (∀ r, start = some r → rank = some r) →
      ∃ rank', operandRank start xs = .ok rank' := by
  induction xs with
  | nil => exact fun start _ => ⟨start, rfl⟩
  | cons x xs ih =>
      rcases x with ⟨name, n⟩
      intro start hstart
      obtain ⟨r, hr, hn⟩ := h _ List.mem_cons_self
      have hunify : n.unify start (.operand name) = .ok (some r) := by
        refine (Named.unify_eq_ok hn).2 ⟨rfl, fun s hs => ?_⟩
        exact Option.some.inj ((hstart s hs).symm.trans hr)
      obtain ⟨rank', hrank'⟩ := ih (fun x hx => h x (List.mem_cons_of_mem _ hx)) (some r)
        fun s hs => hs ▸ hr
      exact ⟨rank', by simp only [operandRank, Elaboration.bind_eq_ok]; exact ⟨_, hunify, hrank'⟩⟩

end StencilShapes
