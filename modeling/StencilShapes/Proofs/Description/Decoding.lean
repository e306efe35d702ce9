import StencilShapes.Description.Read
import StencilShapes.Proofs.Json.Variation
import Mathlib.Data.List.Perm.Basic
import Mathlib.Data.List.Nodup

/-!
# Descriptions are read back

A description is written as a value whose objects have their members in a fixed order.
Reading does not depend on this order, because what is read of one member does not change
how another one is read, and it does not depend on members that hold their defaults.  The
members of an operation are put aside as values until its tag is known; what is done with
them then looks each of them up by its name.

**Results.**
* `FieldDesc.read_of_varies`, `OpDesc.read_of_varies`, `FunctionDesc.read_of_varies`: each
  part is read from every variation of its object.
* `Description.ofText_text`: a description is read back from its text.
* `Description.ofText_of_varies`: neither the order of members nor defaults nor blanks matter.
-/

namespace StencilShapes

open Json

namespace Draft

section Order

variable {σ : Type} {read : σ → String → Draft → Read σ}

/-- Reading one member and reading another may change places. -/
def Commutes (read : σ → String → Draft → Read σ) : Prop :=
  ∀ {key key' : String}, key ≠ key' → ∀ (s : σ) (d d' : Draft),
    ((read s key d).toOption >>= fun s => (read s key' d').toOption) =
      ((read s key' d').toOption >>= fun s => (read s key d).toOption)

theorem toOption_readMembers (s : σ) (ms : List (String × Json)) :
    (readMembers read .closed s (memberDrafts ms)).toOption =
      ms.foldlM (fun s m => (read s m.1 m.2.draft).toOption) s := by
  induction ms generalizing s with
  | nil => rfl
  | cons m ms ih =>
      rw [memberDrafts, readMembers, List.foldlM_cons]
      simp only [Quoted.text?_ofString]
      cases read s m.1 m.2.draft with
      | error fault => rfl
      | ok s' => exact ih s'

/-- Members with different keys may come in any order. -/
theorem readMembers_of_perm {s r : σ} {ms ns : List (String × Json)}
    (hread : Commutes read)
    (hkeys : (ms.map Prod.fst).Nodup)
    (h : ms.Perm ns)
    (hms : readMembers read .closed s (memberDrafts ms) = .ok r) :
    readMembers read .closed s (memberDrafts ns) = .ok r := by
  have hfold : (readMembers read .closed s (memberDrafts ms)).toOption =
      (readMembers read .closed s (memberDrafts ns)).toOption := by
    rw [toOption_readMembers, toOption_readMembers, List.foldlM_eq_foldl, List.foldlM_eq_foldl]
    refine h.foldl_eq' (fun m hm n hn known => ?_) _
    rcases known with _ | s
    · rfl
    · rcases eq_or_ne m.1 n.1 with heq | hne
      · rw [List.inj_on_of_nodup_map hkeys hm hn heq]
      · exact hread hne s m.2.draft n.2.draft
  rw [hms] at hfold
  cases hns : readMembers read .closed s (memberDrafts ns) with
  | error fault => rw [hns] at hfold; cases hfold
  | ok r' => rw [hns] at hfold; cases hfold; rfl

end Order

/-- Items are read one after the other. -/
theorem readItems_of_forall₂ {α : Type} {read : Draft → Read α} {as : List α} {vs : List Json}
    (h : List.Forall₂ (fun a v => read v.draft = .ok a) as vs) :
    readItems read .closed (itemDrafts vs) = .ok as := by
  induction h with
  | nil => rfl
  | cons ha _ ih => simp only [itemDrafts, readItems, ha, ih]

end Draft

open Draft

/-- What may be left out: members that hold what is assumed without them. -/
def Description.Omissible (m : String × Json) : Prop :=
  m = ("stencil_program", .bool true) ∨ m = ("args", .array []) ∨ m = ("unroll", .null)

theorem Description.Omissible.stencil_eq {b : Bool}
    (h : Description.Omissible ("stencil_program", .bool b)) :
    b = true := by
  simpa [Description.Omissible] using h

theorem Description.Omissible.args_eq {fs : List FieldDesc}
    (h : Description.Omissible ("args", .array (fs.map FieldDesc.toJson))) :
    fs = [] := by
  simpa [Description.Omissible] using h

theorem Description.Omissible.unroll_eq {p : Option Point}
    (h : Description.Omissible ("unroll", p.elim .null Point.toJson)) :
    p = none := by
  cases p with
  | none => rfl
  | some p => simp [Description.Omissible, Point.toJson] at h

open Description

section Fixed

variable {optional : String × Json → Prop}

theorem Point.fixed_toJson (p : Point) : Fixed optional p.toJson :=
  fixed_array (List.forall_mem_map.2 fun _ _ => fixed_number _)

theorem Point.fixed_optional (p : Option Point) :
    Fixed optional (p.elim .null Point.toJson) := by
  cases p with
  | none => exact fixed_null
  | some p => exact p.fixed_toJson

end Fixed

namespace Draft

theorem toOption_map {α β : Type} (f : α → β) (x : Read α) :
    (f <$> x).toOption = x.toOption.map f := by
  cases x <;> rfl

theorem readString_draft (s : String) : readString (Json.string s).draft = .ok s :=
  Quoted.text?_ofString s

theorem readElement_draft (e : Element) : readElement (Json.string e.text).draft = .ok e := by
  rw [draft, readElement, Quoted.text?_ofString]
  cases e <;> rfl

theorem readRank_draft (n : UInt64) : readRank (Json.int n.toNat).draft = .ok n := by
  have hn : (n.toNat : Int) ≤ 18446744073709551615 := by
    have := n.toNat_lt
    omega
  have hrange : Numeral.intBetween? 0 18446744073709551615 (.ofInt n.toNat) =
      some (n.toNat : Int) := by
    simp [Numeral.intBetween?, Numeral.int?_ofInt, hn]
  simp only [Json.int, draft, readRank, hrange, Int.toNat_natCast, UInt64.ofNat_toNat]

end Draft

theorem FieldMembers.commutes : Commutes FieldMembers.read := by
  intro key key' hne s d d'
  unfold FieldMembers.read
  split <;> split
  all_goals first
    | exact absurd rfl hne
    | simp only [toOption_map, Option.bind_eq_bind, Option.map_eq_bind, Option.bind_assoc,
        Function.comp_def, Option.bind_some]
      rw [Option.bind_comm]

/-- A field is read from every variation of its object. -/
theorem FieldDesc.read_of_varies (f : FieldDesc) (w : Json) (h : Varies Omissible f.toJson w) :
    FieldDesc.read w.draft = .ok f := by
  cases h with
  | object hkept hperm =>
      obtain rfl := hkept.eq_of_fixed (by
        simp [Omissible, fixed_string, fixed_number, Json.int])
      have hinorder : readMembers FieldMembers.read .closed {}
          (memberDrafts [("name", .string f.name), ("element", .string f.element.text),
            ("rank", .int f.rank.toNat)]) =
          .ok { name := some f.name, element := some f.element, rank := some f.rank } := by
        simp only [memberDrafts, readMembers, Quoted.text?_ofString, FieldMembers.read, readOnce,
          readString_draft, readElement_draft, readRank_draft]
        rfl
      have hread := readMembers_of_perm FieldMembers.commutes (by simp) hperm hinorder
      rw [draft, FieldDesc.read, hread]
      rfl

namespace Json

theorem items?_of_forall₂ {α : Type} {read : Json → Option α} {as : List α} {vs : List Json}
    (h : List.Forall₂ (fun a v => read v = some a) as vs) :
    (Json.array vs).items? read = some as := by
  rw [items?]
  induction h with
  | nil => rfl
  | cons ha _ ih => rw [List.mapM_cons, ha, ih]; rfl

theorem items?_map {α : Type} {read : Json → Option α} {write : α → Json}
    (h : ∀ a, read (write a) = some a) (as : List α) :
    (Json.array (as.map write)).items? read = some as :=
  items?_of_forall₂ (List.forall₂_map_right_iff.2 (List.forall₂_same.2 fun a _ => h a))

theorem strings?_strings (ss : List String) : (Json.strings ss).strings? = some ss := by
  have hstring : ∀ s, (Json.string s).string? = some s := fun _ => rfl
  exact items?_map hstring ss

theorem coord?_int (c : Coord) : (Json.int c.val).coord? = some c := by
  rw [Json.int, coord?, Numeral.int?_ofInt]
  exact Coord.ofInt?_eq_some.2 rfl

theorem point?_toJson (p : Point) : p.toJson.point? = some p :=
  items?_map coord?_int p

theorem optionalPoint?_toJson (p : Option Point) :
    (p.elim .null Point.toJson).optionalPoint? = some p := by
  cases p with
  | none => rfl
  | some p =>
      have h := point?_toJson p
      rw [Point.toJson] at h
      simp only [Option.elim, Point.toJson, optionalPoint?, h, Option.map_some]

theorem operator?_text (o : Operator) : (Json.string o.text).operator? = some o := by
  cases o <;> rfl

end Json

namespace OpMembers

/-- Looking up a member does not depend on the order of members. -/
theorem unique?_of_perm {name : String} {ms ns : List (String × Json)} (h : ms.Perm ns) :
    unique? name ms = unique? name ns := by
  have hfilter := h.filter (·.1 == name)
  unfold unique?
  split
  · next m hm =>
      rw [hm] at hfilter
      rw [← List.singleton_perm.1 hfilter]
  · next hms =>
      split
      · next n hn =>
          rw [hn] at hfilter
          exact absurd (List.perm_singleton.1 hfilter) (hms n)
      · rfl

theorem select_of_perm {names : List String} {ms ns : List (String × Json)} (h : ms.Perm ns) :
    (OpMembers.named ms).select names = (OpMembers.named ns).select names := by
  simp only [select, unique?_of_perm h]

theorem selectOptional_of_perm {names : List String} {last : String}
    {ms ns : List (String × Json)} (h : ms.Perm ns) :
    (OpMembers.named ms).selectOptional names last =
      (OpMembers.named ns).selectOptional names last := by
  simp only [selectOptional, select_of_perm h, h.any_eq]

end OpMembers

theorem BodyOpDesc.ofJson?_of_perm {ms ns : List (String × Json)} (h : ms.Perm ns) :
    BodyOpDesc.ofJson? (.object ms) = BodyOpDesc.ofJson? (.object ns) := by
  have hothers := h.filter (·.1 != "op")
  have hmembers : BodyOpDesc.ofMembers? (.named (ms.filter (·.1 != "op"))) =
      BodyOpDesc.ofMembers? (.named (ns.filter (·.1 != "op"))) := by
    funext tag
    cases tag with
    | access => simp only [ofMembers?, OpMembers.select_of_perm hothers]
    | arith => simp only [ofMembers?, OpMembers.select_of_perm hothers]
    | ret => simp only [ofMembers?, OpMembers.selectOptional_of_perm hothers]
  simp only [ofJson?, OpMembers.unique?_of_perm h, hmembers]

theorem OpDesc.ofMembers?_of_perm {ms ns : List (String × Json)} (h : ms.Perm ns) (tag : OpTag) :
    OpDesc.ofMembers? (.named ms) tag = OpDesc.ofMembers? (.named ns) tag := by
  cases tag <;> simp only [ofMembers?, OpMembers.select_of_perm h]

/-- An operation of a body is found in every variation of its object. -/
theorem BodyOpDesc.ofJson?_of_varies (b : BodyOpDesc) (w : Json)
    (h : Varies Omissible b.toJson w) :
    BodyOpDesc.ofJson? w = some b := by
  cases b with
  | access result param offset =>
      cases h with
      | object hkept hperm =>
          obtain rfl := hkept.eq_of_fixed (by
            simp [Omissible, fixed_string, Point.fixed_toJson])
          rw [← ofJson?_of_perm hperm]
          simp [ofJson?, OpMembers.unique?, BodyTag.ofJson?, ofMembers?, OpMembers.select,
            string?, point?_toJson]
  | arith result operator lhs rhs =>
      cases h with
      | object hkept hperm =>
          obtain rfl := hkept.eq_of_fixed (by
            simp [Omissible, fixed_string])
          rw [← ofJson?_of_perm hperm]
          simp [ofJson?, OpMembers.unique?, BodyTag.ofJson?, ofMembers?, OpMembers.select,
            string?, operator?_text]
  | ret operands unroll =>
      cases h with
      | object hkept hperm =>
          rw [← ofJson?_of_perm hperm]
          obtain ⟨_, _, rfl, htag, hkept₁⟩ := hkept.exists_cons (by simp [Omissible])
          obtain ⟨_, _, rfl, hoperands, hkept₂⟩ := hkept₁.exists_cons (by simp [Omissible])
          obtain rfl := fixed_string _ _ htag
          obtain rfl := fixed_strings _ _ hoperands
          rcases hkept₂ with _ | ⟨hunroll, hnone⟩ | ⟨hunroll, hnone⟩
          · cases hnone
            obtain rfl := Point.fixed_optional unroll _ hunroll
            simp [ofJson?, OpMembers.unique?, BodyTag.ofJson?, ofMembers?,
              OpMembers.selectOptional, OpMembers.select, strings?_strings,
              optionalPoint?_toJson]
          · cases hnone
            obtain rfl := hunroll.unroll_eq
            simp [ofJson?, OpMembers.unique?, BodyTag.ofJson?, ofMembers?,
              OpMembers.selectOptional, OpMembers.select, strings?_strings, optionalPoint?]

namespace Json

theorem fits_strings {room : Nat} (ss : List String) : (Json.strings ss).Fits (room + 1) :=
  .array (List.forall_mem_map.2 fun _ _ => .string)

theorem fits_point {room : Nat} (p : Point) : p.toJson.Fits (room + 1) :=
  .array (List.forall_mem_map.2 fun c _ => .int (by have := c.inRange; omega))

theorem fits_optionalPoint {room : Nat} (p : Option Point) :
    (p.elim .null Point.toJson).Fits (room + 1) := by
  cases p with
  | none => exact .null
  | some p => exact fits_point p

end Json

theorem FieldDesc.fits {room : Nat} (f : FieldDesc) : f.toJson.Fits (room + 1) := by
  have hrank : (Json.int f.rank.toNat).Fits room := .int (by have := f.rank.toNat_lt; omega)
  exact .object (by simp [Fits.string, hrank])

theorem BodyOpDesc.fits {room : Nat} (b : BodyOpDesc) : b.toJson.Fits (room + 2) := by
  cases b <;> exact .object (by simp [Fits.string, fits_strings, fits_point, fits_optionalPoint])

theorem OpDesc.fits {room : Nat} (op : OpDesc) : op.toJson.Fits (room + 4) := by
  have hbody : ∀ body : List BodyOpDesc,
      (Json.array (body.map BodyOpDesc.toJson)).Fits (room + 3) :=
    fun body => .array (List.forall_mem_map.2 fun b _ => b.fits)
  cases op <;> exact .object (by simp [Fits.string, fits_strings, fits_point, hbody])

theorem FunctionDesc.fits {room : Nat} (f : FunctionDesc) : f.toJson.Fits (room + 6) := by
  have hargs : (Json.array (f.args.map FieldDesc.toJson)).Fits (room + 5) :=
    .array (List.forall_mem_map.2 fun a _ => a.fits)
  have hops : (Json.array (f.ops.map OpDesc.toJson)).Fits (room + 5) :=
    .array (List.forall_mem_map.2 fun op _ => op.fits)
  exact .object (by simp [Fits.string, Fits.bool, hargs, hops])

theorem Description.fits {room : Nat} (d : Description) : d.toJson.Fits (room + 8) := by
  have hfunctions : (Json.array (d.functions.map FunctionDesc.toJson)).Fits (room + 7) :=
    .array (List.forall_mem_map.2 fun f _ => f.fits)
  exact .object (by simp [hfunctions])

namespace TaggedMembers

/-- Members besides the tag are put aside as the values they are. -/
theorem readMembers_of_fits {ms : List (String × Json)} (rest : List (Quoted × Draft))
    (h : ∀ m ∈ ms, m.1 ≠ "op" ∧ m.2.Fits OpDesc.room) (m : TaggedMembers) :
    readMembers TaggedMembers.read .closed m (memberDrafts ms ++ rest) =
      readMembers TaggedMembers.read .closed { m with members := ms.reverse ++ m.members }
        rest := by
  induction ms generalizing m with
  | nil => rfl
  | cons n ms ih =>
      obtain ⟨hn, hms⟩ := List.forall_mem_cons.1 h
      have hread : TaggedMembers.read m n.1 n.2.draft =
          .ok { m with members := n :: m.members } := by
        rw [read.eq_2 _ _ _ hn.1, value_draft hn.2]
        rfl
      rw [memberDrafts, List.cons_append, readMembers]
      simp only [Quoted.text?_ofString, hread, ih hms]
      simp

theorem read_tag {text : String} {tag : OpTag} (h : OpTag.ofText? text = some tag)
    (members : List (String × Json)) :
    TaggedMembers.read { members } "op" (Json.string text).draft =
      .ok { tag := some tag, members } := by
  simp only [read, readOnce, OpTag.read, readString_draft]
  simp [bind, Except.bind, h, require]

end TaggedMembers

/-- The tag of an operation may stand anywhere among its members. -/
theorem OpDesc.read_of_perm {text : String} {tag : OpTag} {others ns : List (String × Json)}
    (htag : OpTag.ofText? text = some tag)
    (hothers : ∀ m ∈ others, m.1 ≠ "op")
    (hfits : (Json.object ns).Fits (OpDesc.room + 1))
    (h : (("op", .string text) :: others).Perm ns) :
    OpDesc.read (Json.object ns).draft = require (OpDesc.ofMembers? (.named others) tag) := by
  obtain ⟨front, back, rfl⟩ := List.append_of_mem (h.mem_iff.1 List.mem_cons_self)
  have hrest : others.Perm (front ++ back) := (List.perm_cons _).1 (h.trans List.perm_middle)
  have hmembers : ∀ m ∈ front ++ back, m.1 ≠ "op" ∧ m.2.Fits OpDesc.room := by
    intro m hm
    refine ⟨hothers m (hrest.mem_iff.2 hm), ?_⟩
    cases hfits with
    | object hfits => exact hfits m (List.perm_middle.mem_iff.2 (List.mem_cons_of_mem _ hm))
  obtain ⟨hfront, hback⟩ := List.forall_mem_append.1 hmembers
  have hread : readMembers TaggedMembers.read .closed {}
      (memberDrafts (front ++ ("op", .string text) :: back)) =
        .ok { tag := some tag, members := (front ++ back).reverse } := by
    have happend : memberDrafts (front ++ ("op", .string text) :: back) =
        memberDrafts front ++ (.ofString "op", (Json.string text).draft) ::
          (memberDrafts back ++ []) := by
      simp [memberDrafts_eq_map]
    rw [happend, TaggedMembers.readMembers_of_fits _ hfront, readMembers]
    simp only [Quoted.text?_ofString, TaggedMembers.read_tag htag,
      TaggedMembers.readMembers_of_fits _ hback]
    simp [readMembers, Ending.check]
  rw [draft, OpDesc.read, hread, OpDesc.ofMembers?_of_perm hrest]
  simp [bind, Except.bind, require]

/-- Items are found in every variation of their array. -/
theorem Json.items?_of_varies {α : Type} {read : Json → Option α} {write : α → Json}
    (h : ∀ a w, Varies Omissible (write a) w → read w = some a) {as : List α} {w : Json}
    (hw : Varies Omissible (.array (as.map write)) w) :
    w.items? read = some as := by
  cases hw with
  | array hws => exact items?_of_forall₂ ((List.forall₂_map_left_iff.1 hws).imp h)

/-- An operation is read from every variation of its object. -/
theorem OpDesc.read_of_varies (op : OpDesc) (w : Json) (h : Varies Omissible op.toJson w) :
    OpDesc.read w.draft = .ok op := by
  have hop : op.toJson.Fits (OpDesc.room + 1) := op.fits
  have hfits := hop.of_varies h
  cases op with
  | load result field =>
      cases h with
      | object hkept hperm =>
          obtain rfl := hkept.eq_of_fixed (by simp [Omissible, fixed_string])
          rw [read_of_perm (by rfl : OpTag.ofText? "load" = some .load) (by simp) hfits hperm]
          simp [ofMembers?, OpMembers.select, OpMembers.unique?, string?, require]
  | apply results operands params body =>
      cases h with
      | object hkept hperm =>
          obtain ⟨_, _, rfl, htag, hkept₁⟩ := hkept.exists_cons (by simp [Omissible])
          obtain ⟨_, _, rfl, hresults, hkept₂⟩ := hkept₁.exists_cons (by simp [Omissible])
          obtain ⟨_, _, rfl, hoperands, hkept₃⟩ := hkept₂.exists_cons (by simp [Omissible])
          obtain ⟨_, _, rfl, hparams, hkept₄⟩ := hkept₃.exists_cons (by simp [Omissible])
          obtain ⟨_, _, rfl, hbody, hnone⟩ := hkept₄.exists_cons (by simp [Omissible])
          cases hnone
          obtain rfl := fixed_string _ _ htag
          obtain rfl := fixed_strings _ _ hresults
          obtain rfl := fixed_strings _ _ hoperands
          obtain rfl := fixed_strings _ _ hparams
          have hbody := items?_of_varies BodyOpDesc.ofJson?_of_varies hbody
          rw [read_of_perm (by rfl : OpTag.ofText? "apply" = some .apply) (by simp) hfits hperm]
          simp [ofMembers?, OpMembers.select, OpMembers.unique?, strings?_strings, hbody, require]
  | store value field lower upper =>
      cases h with
      | object hkept hperm =>
          obtain rfl := hkept.eq_of_fixed (by simp [Omissible, fixed_string, Point.fixed_toJson])
          rw [read_of_perm (by rfl : OpTag.ofText? "store" = some .store) (by simp) hfits hperm]
          simp [ofMembers?, OpMembers.select, OpMembers.unique?, string?, point?_toJson, require]

/-- Items are read from every variation of their array. -/
theorem Draft.readArray_of_varies {α : Type} {read : Draft → Read α} {write : α → Json}
    (h : ∀ a w, Varies Omissible (write a) w → read w.draft = .ok a) {as : List α} {w : Json}
    (hw : Varies Omissible (.array (as.map write)) w) :
    readArray read w.draft = .ok as := by
  cases hw with
  | array hws => exact readItems_of_forall₂ ((List.forall₂_map_left_iff.1 hws).imp h)

theorem FunctionMembers.commutes : Commutes FunctionMembers.read := by
  intro key key' hne s d d'
  unfold FunctionMembers.read
  split <;> split
  all_goals first
    | exact absurd rfl hne
    | simp only [toOption_map, Option.bind_eq_bind, Option.map_eq_bind, Option.bind_assoc,
        Function.comp_def, Option.bind_some]
      rw [Option.bind_comm]

/-- Members of a function that are left out are made up for by their defaults. -/
theorem FunctionMembers.toFunction_eq {f : FunctionDesc} {stencil : Option Bool}
    {args : Option (List FieldDesc)}
    (hstencil : stencil.getD true = f.stencil)
    (hargs : args.getD [] = f.args) :
    FunctionMembers.toFunction { name := some f.name, stencil, args, ops := some f.ops } =
      .ok f := by
  simp only [toFunction, hstencil, hargs]
  rfl

/-- The members of a function are read in the order they are written in. -/
theorem FunctionMembers.exists_read {f : FunctionDesc} {kept : List (String × Json)}
    (h : MembersVary Omissible (Varies Omissible)
      [("name", .string f.name), ("stencil_program", .bool f.stencil),
        ("args", .array (f.args.map FieldDesc.toJson)),
        ("ops", .array (f.ops.map OpDesc.toJson))] kept) :
    ∃ m, readMembers FunctionMembers.read .closed {} (memberDrafts kept) = .ok m ∧
      m.toFunction = .ok f := by
  obtain ⟨_, kept₁, rfl, hname, h₁⟩ := h.exists_cons (by simp [Omissible])
  obtain rfl := fixed_string _ _ hname
  have hargs {w} (hw : Varies Omissible (.array (f.args.map FieldDesc.toJson)) w) :=
    readArray_of_varies FieldDesc.read_of_varies hw
  have hops {w} (hw : Varies Omissible (.array (f.ops.map OpDesc.toJson)) w) :=
    readArray_of_varies OpDesc.read_of_varies hw
  rcases h₁ with _ | ⟨hs, h₂⟩ | ⟨hs, h₂⟩ <;>
  rcases h₂ with _ | ⟨ha, h₃⟩ | ⟨ha, h₃⟩ <;>
  obtain ⟨_, _, rfl, ho, ⟨⟩⟩ := h₃.exists_cons (by simp [Omissible])
  · cases hs
    have hf : FunctionMembers.toFunction ⟨some f.name, some f.stencil, some f.args, some f.ops⟩ =
        .ok f := toFunction_eq rfl rfl
    refine ⟨_, ?_, hf⟩
    simp only [memberDrafts, readMembers, Quoted.text?_ofString, read, readOnce,
      readString_draft, hargs ha, hops ho]
    rfl
  · cases hs
    have hf : FunctionMembers.toFunction ⟨some f.name, some f.stencil, none, some f.ops⟩ =
        .ok f := toFunction_eq rfl ha.args_eq.symm
    refine ⟨_, ?_, hf⟩
    simp only [memberDrafts, readMembers, Quoted.text?_ofString, read, readOnce,
      readString_draft, hops ho]
    rfl
  · have hf : FunctionMembers.toFunction ⟨some f.name, none, some f.args, some f.ops⟩ =
        .ok f := toFunction_eq hs.stencil_eq.symm rfl
    refine ⟨_, ?_, hf⟩
    simp only [memberDrafts, readMembers, Quoted.text?_ofString, read, readOnce,
      readString_draft, hargs ha, hops ho]
    rfl
  · have hf : FunctionMembers.toFunction ⟨some f.name, none, none, some f.ops⟩ =
        .ok f := toFunction_eq hs.stencil_eq.symm ha.args_eq.symm
    refine ⟨_, ?_, hf⟩
    simp only [memberDrafts, readMembers, Quoted.text?_ofString, read, readOnce,
      readString_draft, hops ho]
    rfl

/-- A function is read from every variation of its object. -/
theorem FunctionDesc.read_of_varies (f : FunctionDesc) (w : Json)
    (h : Varies Omissible f.toJson w) :
    FunctionDesc.read w.draft = .ok f := by
  cases h with
  | object hkept hperm =>
      obtain ⟨m, hm, hf⟩ := FunctionMembers.exists_read hkept
      have hkeys := hkept.sublist_keys.nodup (by simp)
      rw [draft, FunctionDesc.read, readMembers_of_perm FunctionMembers.commutes hkeys hperm hm]
      exact hf

theorem Description.commutes : Commutes Description.readMember := by
  intro key key' hne s d d'
  unfold Description.readMember
  split <;> split
  all_goals first
    | exact absurd rfl hne
    | simp only [toOption_map, Option.bind_eq_bind, Option.map_eq_bind, Option.bind_assoc,
        Function.comp_def, Option.bind_some]
      rw [Option.bind_comm]

/-- A description is read from every variation of its object. -/
theorem Description.read_of_varies {d : Description} {w : Json}
    (h : Varies Omissible d.toJson w) :
    Description.read w.draft = .ok d := by
  cases h with
  | object hkept hperm =>
      obtain ⟨_, _, rfl, hfunctions, hnone⟩ := hkept.exists_cons (by simp [Omissible])
      cases hnone
      have hfunctions := readArray_of_varies FunctionDesc.read_of_varies hfunctions
      have hinorder {v} (hv : readArray FunctionDesc.read v.draft = .ok d.functions) :
          readMembers Description.readMember .closed none (memberDrafts [("functions", v)]) =
            .ok (some d.functions) := by
        simp only [memberDrafts, readMembers, Quoted.text?_ofString, Description.readMember,
          readOnce, hv]
        rfl
      have hread := readMembers_of_perm Description.commutes (by simp) hperm (hinorder hfunctions)
      rw [draft, Description.read, hread]
      rfl

namespace Description

/-- A text says what the value says whose tokens it has. -/
theorem ofText_of_spaced {room : Nat} {d : Description} {w : Json} {s : String}
    (hfits : w.Fits room)
    (hs : Token.Spaced w.tokens s.toList)
    (hread : Description.read w.draft = .ok d) :
    Description.ofText s = .ok d := by
  rw [ofText, Draft.ofText_of_spaced hfits hs]
  simp only [hread]
  rfl

/-- A description is read back from its text. -/
theorem ofText_text (d : Description) : Description.ofText d.text = .ok d := by
  have hfits : d.toJson.Fits 8 := d.fits
  refine ofText_of_spaced hfits ?_ (read_of_varies (.refl _))
  rw [text, compact, String.toList_ofList]
  exact Token.spaced_flatMap (List.forall_mem_nil _) _

/-- A description is read from every text of it: the members of each object may come in
any order, those that hold their defaults may be left out, and there may be blanks around
every token. -/
theorem ofText_of_varies {d : Description} {w : Json} {s : String}
    (h : Varies Omissible d.toJson w)
    (hs : Token.Spaced w.tokens s.toList) :
    Description.ofText s = .ok d := by
  have hfits : d.toJson.Fits 8 := d.fits
  exact ofText_of_spaced (hfits.of_varies h) hs (read_of_varies h)

/-- A function that hands on what it is given. -/
def identity : FunctionDesc where
  name := "identity"
  stencil := true
  args := []
  ops := [.apply ["r"] ["t"] ["x"] [.ret ["x"] none]]

/-- Its return without the unroll, with the members in the opposite order. -/
def identityReturn : Json :=
  .object [("operands", .strings ["x"]), ("op", .string "return")]

/-- Its operation with all members in the opposite order. -/
def identityApply : Json :=
  .object
    [("body", .array [identityReturn]), ("params", .strings ["x"]), ("operands", .strings ["t"]),
      ("results", .strings ["r"]), ("op", .string "apply")]

/-- The function without its defaults, with the members in the opposite order. -/
def identityReversed : Json :=
  .object
    [("functions", .array
      [.object [("ops", .array [identityApply]), ("name", .string "identity")]])]

theorem varies_identityReversed :
    Varies Omissible (Description.toJson { functions := [identity] }) identityReversed := by
  have hreturn : Varies Omissible (BodyOpDesc.ret ["x"] none).toJson identityReturn :=
    .object (.keep (.refl _) (.keep (.refl _) (.drop (.inr (.inr rfl)) .nil)))
      (List.reverse_perm _).symm
  have hbody : Varies Omissible (.array [(BodyOpDesc.ret ["x"] none).toJson])
      (.array [identityReturn]) :=
    .array (.cons hreturn .nil)
  have happly : Varies Omissible (OpDesc.apply ["r"] ["t"] ["x"] [.ret ["x"] none]).toJson
      identityApply :=
    .object (.keep (.refl _) (.keep (.refl _) (.keep (.refl _) (.keep (.refl _)
      (.keep hbody .nil))))) (List.reverse_perm _).symm
  have hfunction : Varies Omissible identity.toJson
      (.object [("ops", .array [identityApply]), ("name", .string "identity")]) :=
    .object (.keep (.refl _) (.drop (.inl rfl) (.drop (.inr (.inl rfl))
      (.keep (.array (.cons happly .nil)) .nil)))) (List.reverse_perm _).symm
  exact .object (.keep (.array (.cons hfunction .nil)) .nil) (.refl _)

theorem ofText_of_varies_identityReversed :
    Varies Omissible (Description.toJson { functions := [identity] }) identityReversed ∧
      Description.ofText
        (String.ofList (identityReversed.tokens.flatMap fun t => ['\n', ' '] ++ t.text)) =
          .ok { functions := [identity] } := by
  refine ⟨varies_identityReversed, ofText_of_varies varies_identityReversed ?_⟩
  rw [String.toList_ofList]
  exact Token.spaced_flatMap (by simp [Token.isBlank]) _

end Description

end StencilShapes
