import StencilShapes.Proofs.Json.Reading
import StencilShapes.Proofs.SideBySide

/-!
# Variations of a value

Whoever writes a value may put the members of an object in any order, and may leave out
members that hold what is assumed without them.  A value varies into all the values that
are written so, with the same freedom in every object inside.

**Results.**
* `Json.Fits.of_varies`: a variation is nested no deeper and has no other numbers.
* `Token.spaced_flatMap`: tokens may all have the same blanks before them.
-/

namespace StencilShapes

namespace Json

/-- Members that are kept are related, and only optional ones are left out. -/
inductive MembersVary (optional : String × Json → Prop) (R : Json → Json → Prop) :
    List (String × Json) → List (String × Json) → Prop
  | nil : MembersVary optional R [] []
  | keep {key : String} {v w : Json} {ms ns : List (String × Json)} :
      R v w →
      MembersVary optional R ms ns →
      MembersVary optional R ((key, v) :: ms) ((key, w) :: ns)
  | drop {m : String × Json} {ms ns : List (String × Json)} :
      optional m →
      MembersVary optional R ms ns →
      MembersVary optional R (m :: ms) ns

/-- The second value is the first one with the members of its objects in any order and
some of those that are optional left out. -/
inductive Varies (optional : String × Json → Prop) : Json → Json → Prop
  | null : Varies optional .null .null
  | bool {b : Bool} : Varies optional (.bool b) (.bool b)
  | number {n : Numeral} : Varies optional (.number n) (.number n)
  | string {s : String} : Varies optional (.string s) (.string s)
  | array {vs ws : List Json} :
      List.Forall₂ (Varies optional) vs ws →
      Varies optional (.array vs) (.array ws)
  | object {ms kept ns : List (String × Json)} :
      MembersVary optional (Varies optional) ms kept →
      kept.Perm ns →
      Varies optional (.object ms) (.object ns)

variable {optional : String × Json → Prop}

theorem MembersVary.refl {R : Json → Json → Prop} {ms : List (String × Json)}
    (h : ∀ m ∈ ms, R m.2 m.2) :
    MembersVary optional R ms ms := by
  induction ms with
  | nil => exact .nil
  | cons m ms ih =>
      obtain ⟨hm, hms⟩ := List.forall_mem_cons.1 h
      exact .keep hm (ih hms)

/-- A member that is there comes from a member with the same key. -/
theorem MembersVary.exists_mem {R : Json → Json → Prop} {ms ns : List (String × Json)}
    (h : MembersVary optional R ms ns) :
    ∀ n ∈ ns, ∃ v, (n.1, v) ∈ ms ∧ R v n.2 := by
  induction h with
  | nil => exact List.forall_mem_nil _
  | keep hvw _ ih =>
      refine List.forall_mem_cons.2 ⟨⟨_, List.mem_cons_self, hvw⟩, fun n hn => ?_⟩
      obtain ⟨v, hv, hR⟩ := ih n hn
      exact ⟨v, List.mem_cons_of_mem _ hv, hR⟩
  | drop _ _ ih =>
      intro n hn
      obtain ⟨v, hv, hR⟩ := ih n hn
      exact ⟨v, List.mem_cons_of_mem _ hv, hR⟩

/-- A member that has to be there is there. -/
theorem MembersVary.exists_cons {R : Json → Json → Prop} {key : String} {v : Json}
    {ms ns : List (String × Json)}
    (h : MembersVary optional R ((key, v) :: ms) ns)
    (hkey : ¬ optional (key, v)) :
    ∃ w ns', ns = (key, w) :: ns' ∧ R v w ∧ MembersVary optional R ms ns' := by
  cases h with
  | keep hvw hms => exact ⟨_, _, rfl, hvw, hms⟩
  | drop hm _ => exact absurd hm hkey

/-- What is kept has its keys in the order they had. -/
theorem MembersVary.sublist_keys {R : Json → Json → Prop} {ms ns : List (String × Json)}
    (h : MembersVary optional R ms ns) :
    (ns.map Prod.fst).Sublist (ms.map Prod.fst) := by
  induction h with
  | nil => exact List.Sublist.refl _
  | keep _ _ ih => exact ih.cons_cons _
  | drop _ _ ih => exact ih.cons _

/-- A value as it is varies into itself. -/
theorem Varies.refl (v : Json) : Varies optional v v := by
  induction v using Json.induct with
  | null => exact .null
  | bool b => exact .bool
  | number n => exact .number
  | string s => exact .string
  | array items ih => exact .array (List.forall₂_same.2 ih)
  | object members ih => exact .object (.refl ih) (.refl _)

/-- A value that varies into itself only. -/
def Fixed (optional : String × Json → Prop) (v : Json) : Prop :=
  ∀ w, Varies optional v w → w = v

theorem fixed_null : Fixed optional .null := by
  rintro w ⟨⟩
  rfl

theorem fixed_number (n : Numeral) : Fixed optional (.number n) := by
  rintro w ⟨⟩
  rfl

theorem fixed_string (s : String) : Fixed optional (.string s) := by
  rintro w ⟨⟩
  rfl

theorem fixed_array {vs : List Json} (hvs : ∀ v ∈ vs, Fixed optional v) :
    Fixed optional (.array vs) := by
  intro w h
  cases h with
  | @array _ ws hws =>
      congr 1
      induction hws with
      | nil => rfl
      | cons hvw _ ih =>
          obtain ⟨hv, hvs⟩ := List.forall_mem_cons.1 hvs
          rw [hv _ hvw, ih hvs]

theorem fixed_strings (ss : List String) : Fixed optional (.strings ss) :=
  fixed_array (List.forall_mem_map.2 fun s _ => fixed_string s)

/-- Members that have to be there and cannot vary stay as they are. -/
theorem MembersVary.eq_of_fixed {ms ns : List (String × Json)}
    (h : MembersVary optional (Varies optional) ms ns)
    (hms : ∀ m ∈ ms, ¬ optional m ∧ Fixed optional m.2) :
    ns = ms := by
  induction h with
  | nil => rfl
  | keep hvw _ ih =>
      obtain ⟨hm, hms⟩ := List.forall_mem_cons.1 hms
      rw [hm.2 _ hvw, ih hms]
  | drop hm _ _ => exact absurd hm (hms _ List.mem_cons_self).1

/-- A variation is nested no deeper than the value, and has no other numbers. -/
theorem Fits.of_varies {room : Nat} {v w : Json} (h : v.Fits room) (hw : Varies optional v w) :
    w.Fits room := by
  induction h generalizing w with
  | null => cases hw; exact .null
  | bool => cases hw; exact .bool
  | int hi => cases hw; exact .int hi
  | string => cases hw; exact .string
  | array _ ih =>
      cases hw with
      | array hws =>
          refine .array fun w hw => ?_
          obtain ⟨v, hv, hvw⟩ := exists_mem_of_forall₂ hws w hw
          exact ih v hv hvw
  | object _ ih =>
      cases hw with
      | object hkept hperm =>
          refine .object fun n hn => ?_
          obtain ⟨v, hv, hvn⟩ := hkept.exists_mem n (hperm.mem_iff.2 hn)
          exact ih _ hv hvn

end Json

namespace Token

/-- Tokens may all have the same blanks before them. -/
theorem spaced_flatMap {blanks : List Char} (h : ∀ c ∈ blanks, isBlank c = true)
    (ts : List Token) :
    Spaced ts (ts.flatMap fun t => blanks ++ t.text) := by
  induction ts with
  | nil => exact .nil (List.forall_mem_nil _)
  | cons t ts ih =>
      rw [List.flatMap_cons, List.append_assoc]
      exact .cons h ih

end Token

end StencilShapes
