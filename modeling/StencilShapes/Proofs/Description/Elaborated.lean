import StencilShapes.Proofs.Description.Steps
import StencilShapes.Proofs.Program.Scope

/-!
# Elaborated programs are coherent and scoped

The names of a function stand for values that are visible in it and have a rank;
the names of a body stand for inner values.  Each step of elaboration keeps this,
so the program that a description gives is coherent and scoped.

An apply joins its function only when it is closed.  While its body is built, the
program is looked at as if the apply had joined already: the steps that fill the
body do not touch the functions, so the order of the two makes no difference.

**Results.**
* `BodyState.Sound.addOps`: what building a body keeps.
* `FunctionState.Sound.addOps`: what building a function keeps.
* `Description.coherent_of_elaborate`, `Description.scoped_of_elaborate`.
-/

namespace StencilShapes

open Program

/-- An inner operation with its results keeps a program scoped, before it joins its body. -/
theorem Program.Scoped.newInner_newResults {p : Program} {apply : OpId} {kind : OpKind}
    {operands : List ValueId} (tys : List Ty)
    (h : (p.append apply).Scoped) (hc : p.Coherent)
    (hkind : kind.isShaped = false)
    (hoperands : ∀ v ∈ operands, p.IsInner v) :
    (((p.newOp kind operands (some apply)).1.newResults ⟨p.ops.size⟩ tys).1.append apply).Scoped := by
  have hc₁ : (p.newOp kind operands (some apply)).1.Coherent :=
    hc.newOp (some apply) (OpKind.body?_eq_none hkind) fun v hv => (hoperands v hv).defined
  have hs₁ : ((p.newOp kind operands (some apply)).1.append apply).Scoped :=
    h.newInner (hc.append apply) (some apply) hkind
      fun v hv => (hoperands v hv).mono (Grows.append _ _)
  have hs₂ := Scoped.newResults tys (hc₁.append apply) hs₁
    (p.op?_newOp_self kind operands (some apply)) fun hshaped => by
      rw [hkind] at hshaped
      cases hshaped
  rwa [newResults_append] at hs₂

/-- A body under construction, in the program `base` with one more apply. -/
structure BodyState.Sound (base : Program) (apply : OpId) (s : BodyState) : Prop where
  coherent : s.program.Coherent
  /-- With the apply in its function, the program is scoped. -/
  inScope : (s.program.append apply).Scoped
  grows : base.Grows s.program
  functions : s.program.functions = base.functions
  /-- The names of the body stand for inner values. -/
  inner : ∀ b ∈ s.scope.bindings, s.program.IsInner b.2
  /-- The apply, whose operands and body have the rank that is known so far. -/
  opened : ∃ o body, s.program.op? apply = some o ∧ o.kind = .apply none body ∧
    (∀ v ∈ o.operands, ∃ r, s.rank = some r ∧ s.program.HasRank v r) ∧
    (∀ x ∈ body.ops, ∃ ox, s.program.op? x = some ox ∧
      (∀ pt, ox.kind.point? = some pt → s.rank = some pt.length) ∧
      (ox.operands ≠ [] → o.operands ≠ [])) ∧
    (s.scope.bindings ≠ [] → o.operands ≠ [])

namespace BodyState.Sound

variable {base : Program} {apply : OpId} {s : BodyState}

/-- What is known of an operation of the body stays known while the program grows. -/
theorem point_of_grows {p q : Program} {o : Operation} {x : OpId} {rank rank' : Option Nat}
    (hg : p.Grows q)
    (hrank : ∀ r, rank = some r → rank' = some r)
    (hx : ∃ ox, p.op? x = some ox ∧ (∀ pt, ox.kind.point? = some pt → rank = some pt.length) ∧
      (ox.operands ≠ [] → o.operands ≠ [])) :
    ∃ ox, q.op? x = some ox ∧ (∀ pt, ox.kind.point? = some pt → rank' = some pt.length) ∧
      (ox.operands ≠ [] → o.operands ≠ []) := by
  rcases hx with ⟨ox, hox, hpt, hsource⟩
  obtain ⟨ox', hox', hops, hkind⟩ := hg.op hox
  refine ⟨ox', hox', fun pt hpt' => hrank _ (hpt pt ?_), fun hne => hsource (hops ▸ hne)⟩
  rw [← OpKind.point?_head, ← hkind, OpKind.point?_head, hpt']

/-- An inner operation over values that the body knows, with names for its results. -/
theorem addInner {scope : Scope ValueId} {rank : Option Nat}
    (h : s.Sound base apply)
    (kind : OpKind) (operands : List ValueId) (tys : List Ty)
    (hkind : kind.isShaped = false)
    (hoperands : ∀ v ∈ operands, ∃ name, (name, v) ∈ s.scope.bindings)
    (hpoint : ∀ pt, kind.point? = some pt → rank = some pt.length)
    (hrank : ∀ r, s.rank = some r → rank = some r)
    (htys : tys ≠ [] → operands ≠ [])
    (hscope : ∀ b ∈ scope.bindings,
      b ∈ s.scope.bindings ∨ b.2 ∈ (s.program.addInner apply kind operands tys).2) :
    Sound base apply
      { program := (s.program.addInner apply kind operands tys).1, scope, rank } := by
  rcases h.opened with ⟨o, body, ho, hk, hops, hpoints, hnamed⟩
  have hbody : kind.body? = none := OpKind.body?_eq_none hkind
  have hinner : ∀ v ∈ operands, s.program.IsInner v := fun v hv => by
    obtain ⟨name, hb⟩ := hoperands v hv
    exact h.inner _ hb
  have hsource : operands ≠ [] → o.operands ≠ [] := fun hne => by
    obtain ⟨v, hv⟩ := List.exists_mem_of_ne_nil _ hne
    obtain ⟨name, hb⟩ := hoperands v hv
    exact hnamed (List.ne_nil_of_mem hb)
  let x : OpId := ⟨s.program.ops.size⟩
  have hx : apply ≠ x := fun he => Nat.lt_irrefl _ (he ▸ op?_lt ho)
  -- First the operation with its results, then its place in the body.
  let p₁ := (s.program.newOp kind operands (some apply)).1
  let p₂ := (p₁.newResults x tys).1
  have hg₂ : s.program.Grows p₂ := (Grows.newOp _ _ _ _).trans (Grows.newResults x tys p₁)
  obtain ⟨ox₂, hox₂, hkx₂, hopsx₂⟩ :
      ∃ ox, p₂.op? x = some ox ∧ ox.kind = kind ∧ ox.operands = operands := by
    obtain ⟨results, hox⟩ :=
      exists_op?_newResults tys (s.program.op?_newOp_self kind operands (some apply))
    exact ⟨_, hox, rfl, rfl⟩
  have ho₂ : p₂.op? apply = some o :=
    (op?_newResults_of_ne tys hx p₁).trans (op?_newOp_old kind operands (some apply) ho)
  have hs₂ : (p₂.append apply).Scoped :=
    h.inScope.newInner_newResults tys h.coherent hkind hinner
  have hrank₂ : ∀ v ∈ o.operands, ∃ r, rank = some r ∧ p₂.HasRank v r := fun v hv => by
    obtain ⟨r, hr, hv⟩ := hops v hv
    exact ⟨r, hrank r hr, hv.mono hg₂⟩
  have hpoints₂ : ∀ y ∈ body.ops, ∃ oy, p₂.op? y = some oy ∧
      (∀ pt, oy.kind.point? = some pt → rank = some pt.length) ∧
      (oy.operands ≠ [] → o.operands ≠ []) := fun y hy =>
    point_of_grows hg₂ hrank (hpoints y hy)
  have hpoint₂ : ∀ pt, ox₂.kind.point? = some pt → rank = some pt.length := fun pt hpt =>
    hpoint pt (hkx₂ ▸ hpt)
  have hg₃ : s.program.Grows (p₂.appendToBody apply x) :=
    Grows.addInner kind operands tys s.program apply
  constructor
  case coherent => exact h.coherent.addInner tys hbody fun v hv => (hinner v hv).defined
  case inScope =>
    have hlen : ∀ r, rank = some r → rank.getD 0 = r := fun r hr => by rw [hr]; rfl
    refine Scoped.appendToBody (r := rank.getD 0) hs₂ hox₂ ?_ fun pt hpt =>
      (hlen _ (hpoint₂ pt hpt)).symm
    intro o' ho'
    obtain rfl : o = o' := Option.some.inj (ho₂.symm.trans ho')
    refine ⟨fun v hv => ?_, fun b hb => ?_, fun body' hb y hy => ?_⟩
    · obtain ⟨r, hr, hv⟩ := hrank₂ v hv
      rw [hlen r hr]
      exact hv.mono (Grows.append _ _)
    · rw [hk] at hb
      cases hb
    · rw [hk] at hb
      cases hb
      obtain ⟨oy, hoy, hpt, _⟩ := hpoints₂ y hy
      exact ⟨oy, hoy, fun pt hpt' => (hlen _ (hpt pt hpt')).symm⟩
  case grows => exact h.grows.trans hg₃
  case functions => exact (functions_addInner _ _ _ _ _).trans h.functions
  case inner =>
    intro b hb
    rcases hscope b hb with hb | hb
    · exact (h.inner b hb).mono hg₃
    · obtain ⟨j, hj⟩ := exists_originOf_newResults tys hb
      obtain ⟨ox₃, hox₃, hkx₃⟩ :=
        (Grows.appendToBody p₂ apply x).isShaped ⟨ox₂, hox₂, by rw [hkx₂, hkind]⟩
      exact Or.inr ⟨x, j, ox₃, hj, hox₃, hkx₃⟩
  case opened =>
    have hg' := Grows.appendToBody p₂ apply x
    refine ⟨_, { body with ops := body.ops ++ [x] }, op?_addInner_apply kind operands tys ho,
      by rw [hk]; rfl, ?_, ?_, ?_⟩
    · intro v hv
      obtain ⟨r, hr, hv⟩ := hrank₂ v hv
      exact ⟨r, hr, hv.mono hg'⟩
    · intro y hy
      refine point_of_grows hg' (fun _ => id) ?_
      rcases List.mem_append.1 hy with hy | hy
      · exact hpoints₂ y hy
      · obtain rfl := List.mem_singleton.1 hy
        exact ⟨ox₂, hox₂, hpoint₂, fun hne => hsource (hopsx₂ ▸ hne)⟩
    · intro hne
      obtain ⟨b, hb⟩ := List.exists_mem_of_ne_nil _ hne
      rcases hscope b hb with hb | hb
      · exact hnamed (List.ne_nil_of_mem hb)
      · refine hsource (htys fun hnil => ?_)
        subst hnil
        cases hb

variable {args : List ValueId} {s' : BodyState}

/-- Each operation of a body keeps the body sound. -/
theorem addOp {last : Bool} {op : BodyOpDesc}
    (h : s.Sound base apply)
    (hs : s.addOp apply args last op = .ok s') :
    s'.Sound base apply := by
  have hget : ∀ {name v}, s.scope.get name = .ok v → ∃ name, (name, v) ∈ s.scope.bindings :=
    fun hv => ⟨_, Scope.mem_of_get hv⟩
  cases op with
  | access result param offset =>
      rcases BodyState.addOp_access.1 hs with ⟨arg, rank, scope, harg, _, hrank, hscope, rfl⟩
      rcases unifyRank_eq_ok.1 hrank with ⟨rfl, hkeep⟩
      rw [Program.access_eq] at hscope ⊢
      refine h.addInner (.access offset) [arg] [.scalar (s.program.typeOf arg).element] rfl
        ?_ ?_ ?_ ?_ ?_
      · rintro v (_ | ⟨_, ⟨⟩⟩)
        exact hget harg
      · rintro pt ⟨⟩
        rfl
      · exact fun r hr => by rw [hkeep r hr]
      · exact fun _ => List.cons_ne_nil _ _
      · intro b hb
        rcases Scope.mem_of_define hscope hb with rfl | hb
        · exact Or.inr (by rw [Program.addInner_one]; exact List.mem_cons_self)
        · exact Or.inl hb
  | arith result operator lhs rhs =>
      rcases BodyState.addOp_arith.1 hs with ⟨l, r, scope, hl, hr, hscope, rfl⟩
      rw [Program.arith_eq] at hscope ⊢
      refine h.addInner (.arith operator) [l, r] [s.program.typeOf l] rfl ?_ ?_ ?_ ?_ ?_
      · rintro v (_ | ⟨_, _ | ⟨_, ⟨⟩⟩⟩)
        · exact hget hl
        · exact hget hr
      · rintro pt ⟨⟩
      · exact fun r hr => hr
      · exact fun _ => List.cons_ne_nil _ _
      · intro b hb
        rcases Scope.mem_of_define hscope hb with rfl | hb
        · exact Or.inr (by rw [Program.addInner_one]; exact List.mem_cons_self)
        · exact Or.inl hb
  | ret operands unroll =>
      rcases BodyState.addOp_ret.1 hs with ⟨_, values, rank, hvalues, hunroll, rfl⟩
      have hrank : (∀ u, unroll = some u → rank = some u.length) ∧
          ∀ r, s.rank = some r → rank = some r := by
        cases unroll with
        | none =>
            subst hunroll
            refine ⟨fun u hu => ?_, fun r hr => hr⟩
            cases hu
        | some u =>
            rcases hunroll with ⟨r, hr, rfl⟩
            rcases unifyRank_eq_ok.1 hr with ⟨rfl, hkeep⟩
            refine ⟨fun u' hu => ?_, fun r hr => by rw [hkeep r hr]⟩
            cases hu
            rfl
      rw [Program.ret_eq]
      refine h.addInner (.ret unroll) values [] rfl ?_ ?_ hrank.2 ?_ ?_
      · exact fun v hv => Scope.mem_of_getAll hvalues hv
      · exact fun pt hpt => hrank.1 pt hpt
      · exact fun hnil => absurd rfl hnil
      · exact fun b hb => Or.inl hb

/-- Building a body keeps it sound. -/
theorem addOps {ops : List BodyOpDesc} :
    ∀ {s : BodyState}, s.Sound base apply → s.addOps apply args ops = .ok s' →
      s'.Sound base apply := by
  induction ops with
  | nil =>
      intro s h hs
      rwa [BodyState.addOps_nil.1 hs]
  | cons op ops ih =>
      intro s h hs
      rcases BodyState.addOps_cons.1 hs with ⟨t, ht, hs⟩
      exact ih (h.addOp ht) hs

end BodyState.Sound

/-- A name of a function stands for a value that the function may read, with its rank. -/
def Named.Sound (p : Program) (f : Function) (n : Named) : Prop :=
  p.VisibleIn f n.value ∧ ∃ r, n.rank = some r ∧ p.HasRank n.value r

theorem Named.Sound.mono {p q : Program} {f g : Function} {n : Named}
    (hg : p.Grows q)
    (hfg : ∀ u ∈ f.body, u ∈ g.body)
    (h : n.Sound p f) :
    n.Sound q g := by
  rcases h with ⟨hv, r, hr, hrank⟩
  exact ⟨hv.mono hg hfg, r, hr, hrank.mono hg⟩

structure FunctionState.Sound (s : FunctionState) : Prop where
  coherent : s.program.Coherent
  inScope : s.program.Scoped
  /-- The names belong to the function begun last. -/
  named : ∃ fs f, s.program.functions.toList = fs ++ [f] ∧
    ∀ b ∈ s.scope.bindings, b.2.Sound s.program f

namespace Program

/-- The results of an operation that has joined its function may be read there, with
the rank of the first operand. -/
theorem named_of_newResults {p : Program} {f : Function} {u : OpId} {o : Operation}
    {v x : ValueId} {r : Nat}
    (tys : List Ty)
    (ho : p.op? u = some o)
    (hu : u ∈ f.body)
    (hk : o.kind.isInferable = true)
    (hx : o.operands.head? = some x)
    (hr : p.HasRank x r)
    (hv : v ∈ (p.newResults u tys).2) :
    Named.Sound (p.newResults u tys).1 f { value := v, rank := some r } := by
  obtain ⟨results, ho'⟩ := exists_op?_newResults tys ho
  obtain ⟨j, hj⟩ := exists_originOf_newResults tys hv
  refine ⟨Or.inr ⟨u, hu, j, hj⟩, r, rfl, ?_⟩
  exact .result hj ho' hk hx (hr.mono (Grows.newResults u tys p))

end Program

namespace FunctionState.Sound

variable {s s' : FunctionState}

theorem addLoad {result field : String}
    (h : s.Sound)
    (hs : s.addLoad result field = .ok s') :
    s'.Sound := by
  rcases FunctionState.addLoad_eq_ok.1 hs with ⟨n, scope, hn, hscope, rfl⟩
  rw [Program.load_eq] at hscope ⊢
  rcases h.named with ⟨fs, f, hfs, hnamed⟩
  obtain ⟨hvis, r, hr, hrank⟩ := hnamed _ (Scope.mem_of_get hn)
  let u : OpId := ⟨s.program.ops.size⟩
  let p₁ := (s.program.newOp (.load none) [n.value] none).1.append u
  have hone : ∀ v ∈ [n.value], v = n.value := fun v hv => List.mem_singleton.1 hv
  have hc₁ : p₁.Coherent :=
    (h.coherent.newOp none rfl fun v hv => hone v hv ▸ hvis.defined).append u
  have hs₁ : p₁.Scoped :=
    h.inScope.newOp_append h.coherent hfs (Or.inl rfl) (fun v hv => hone v hv ▸ hvis)
      (fun v hv => hone v hv ▸ hrank) fun b hb => by cases hb
  have hg₁ : s.program.Grows p₁ := (Grows.newOp _ _ _ _).trans (Grows.append _ _)
  obtain ⟨o₁, ho₁, hk₁, hops₁⟩ :
      ∃ o, p₁.op? u = some o ∧ o.kind = .load none ∧ o.operands = [n.value] :=
    ⟨_, op?_newOp_self _ _ _ _, rfl, rfl⟩
  let tys := [Ty.temp (s.program.typeOf n.value).element none]
  have hone₂ : (p₁.newResults u tys).2 = [⟨s.program.values.size⟩] := by
    rw [newResults_one, ← size_values_newOp s.program (.load none) [n.value] none]
    rfl
  have hg₂ : p₁.Grows (p₁.newResults u tys).1 := Grows.newResults u tys p₁
  have hs₂ : (p₁.newResults u tys).1.Scoped := by
    refine Scoped.newResults tys hc₁ hs₁ ho₁ fun _ => ⟨by rw [hk₁]; rfl, fun ty hty => ?_⟩
    exact ⟨_, List.mem_singleton.1 hty⟩
  refine ⟨hc₁.newResults tys ho₁, hs₂, fs, { f with body := f.body ++ [u] }, ?_, fun b hb => ?_⟩
  · exact (congrArg Array.toList (functions_newResults u tys p₁)).trans
      (toList_functions_append u hfs)
  · rcases Scope.mem_of_define hscope hb with rfl | hb
    · rw [hr]
      exact named_of_newResults (u := u) tys ho₁
        (List.mem_append_right _ List.mem_cons_self) (by rw [hk₁]; rfl) (by rw [hops₁]; rfl)
        (hrank.mono hg₁) (by rw [hone₂]; exact List.mem_cons_self)
    · exact (hnamed b hb).mono (hg₁.trans hg₂) fun x hx => List.mem_append_left _ hx

theorem addStore {value field : String} {lower upper : Point}
    (h : s.Sound)
    (hs : s.addStore value field lower upper = .ok s') :
    s'.Sound := by
  rcases FunctionState.addStore_eq_ok.1 hs with ⟨hlen, v, w, rank, rank', hv, hw, hvr, hwr, rfl⟩
  rcases h.named with ⟨fs, f, hfs, hnamed⟩
  obtain ⟨hvis, r, hr, hrank⟩ := hnamed _ (Scope.mem_of_get hv)
  obtain ⟨hvis', r', hr', hrank'⟩ := hnamed _ (Scope.mem_of_get hw)
  obtain ⟨rfl, hlower⟩ := (Named.unify_eq_ok hr).1 hvr
  obtain ⟨_, hsame⟩ := (Named.unify_eq_ok hr').1 hwr
  obtain rfl := hlower _ rfl
  obtain rfl := hsame _ rfl
  rw [Program.store_eq]
  let u : OpId := ⟨s.program.ops.size⟩
  let p₁ := (s.program.newOp (.store { lower, upper }) [v.value, w.value] none).1.append u
  have htwo : ∀ {P : ValueId → Prop}, P v.value → P w.value → ∀ x ∈ [v.value, w.value], P x :=
    fun h₁ h₂ => List.forall_mem_cons.2 ⟨h₁, List.forall_mem_singleton.2 h₂⟩
  have hc₁ : p₁.Coherent := (h.coherent.newOp none rfl (htwo hvis.defined hvis'.defined)).append u
  have hg₁ : s.program.Grows p₁ := (Grows.newOp _ _ _ _).trans (Grows.append _ _)
  have hs₁ : p₁.Scoped := by
    refine h.inScope.newOp_append h.coherent hfs (Or.inr ⟨_, rfl⟩) (htwo hvis hvis')
      (htwo hrank hrank') fun b hb => ?_
    cases hb
    exact ⟨rfl, hlen.symm⟩
  refine ⟨hc₁, hs₁, fs, _, toList_functions_append u hfs, fun b hb => ?_⟩
  exact (hnamed b hb).mono hg₁ fun x hx => List.mem_append_left _ hx

/-- An apply that has just been opened has a sound body. -/
theorem openApply {params : List String} {operands : List ValueId} {rank : Option Nat}
    {scope : Scope ValueId} {fs : List Function} {f : Function}
    (h : s.Sound)
    (hfs : s.program.functions.toList = fs ++ [f])
    (hvisible : ∀ v ∈ operands, s.program.VisibleIn f v)
    (hrank : ∀ v ∈ operands, ∃ r, rank = some r ∧ s.program.HasRank v r)
    (hscope : Scope.defineAll {} (params.zip (s.program.openApply operands).2.2) = .ok scope) :
    BodyState.Sound (s.program.openApply operands).1 (s.program.openApply operands).2.1
      { program := (s.program.openApply operands).1, scope, rank } := by
  have hg : s.program.Grows (s.program.openApply operands).1 := Grows.openApply _ _
  have hnames : ∀ b ∈ scope.bindings, b.2 ∈ (s.program.openApply operands).2.2 := by
    intro b hb
    rcases Scope.mem_of_defineAll hscope hb with hb | hb
    · exact (List.of_mem_zip hb).2
    · cases hb
  constructor
  case coherent => exact h.coherent.openApply fun v hv => (hvisible v hv).defined
  case inScope =>
    rw [openApply_op]
    refine h.inScope.openApply_append (r := rank.getD 0) h.coherent hfs hvisible fun v hv => ?_
    obtain ⟨r, hr, hv⟩ := hrank v hv
    rw [hr]
    exact hv
  case grows => exact Grows.refl _
  case functions => rfl
  case inner =>
    intro b hb
    obtain ⟨j, hj⟩ := List.getElem?_of_mem (hnames b hb)
    obtain ⟨hlt, hindex⟩ := (getElem?_openApply_args _ _).1 hj
    refine Or.inl ⟨⟨s.program.ops.size⟩, j, ?_⟩
    rw [originOf_openApply, if_neg (by omega), if_pos (by omega), hindex, Nat.add_sub_cancel_left]
  case opened =>
    rw [openApply_op]
    refine ⟨_, _, (op?_openApply _ _ _).trans (if_pos rfl), rfl, fun v hv => ?_, fun x hx => ?_,
      fun hne => ?_⟩
    · obtain ⟨r, hr, hv⟩ := hrank v hv
      exact ⟨r, hr, hv.mono hg⟩
    · cases hx
    · obtain ⟨b, hb⟩ := List.exists_mem_of_ne_nil _ hne
      obtain ⟨j, hj⟩ := List.getElem?_of_mem (hnames b hb)
      have hlt := ((getElem?_openApply_args _ _).1 hj).1
      exact List.ne_nil_of_length_pos (Nat.lt_of_le_of_lt (Nat.zero_le j) hlt)

theorem exists_ty_of_mem_newResults {p : Program} {u : OpId} {tys : List Ty} {v : ValueId}
    (h : v ∈ (p.newResults u tys).2) :
    ∃ ty, ty ∈ tys := by
  cases tys with
  | nil => cases h
  | cons ty tys => exact ⟨ty, List.mem_cons_self⟩

/-- The operands of an apply are visible and have the common rank. -/
theorem operands_of_operandRank {f : Function} {operands : List String} {ns : List Named}
    {rank : Option Nat}
    (hnamed : ∀ b ∈ s.scope.bindings, b.2.Sound s.program f)
    (hns : s.scope.getAll operands = .ok ns)
    (hrank : operandRank none (operands.zip ns) = .ok rank) :
    ∀ v ∈ ns.map Named.value,
      s.program.VisibleIn f v ∧ ∃ r, rank = some r ∧ s.program.HasRank v r := by
  have hsound : ∀ n ∈ ns, n.Sound s.program f := fun n hn => by
    obtain ⟨name, hmem⟩ := Scope.mem_of_getAll hns hn
    exact hnamed _ hmem
  obtain ⟨_, hcommon, _⟩ := operandRank_eq_ok hrank fun x hx =>
    (hsound _ (List.of_mem_zip hx).2).2.imp fun r hr => hr.1
  intro v hv
  rcases List.mem_map.1 hv with ⟨n, hn, rfl⟩
  obtain ⟨hvis, r, hr, hvr⟩ := hsound n hn
  obtain ⟨i, hi⟩ := List.getElem?_of_mem hn
  have hlt : i < operands.length := by
    rw [← Scope.length_of_getAll hns]
    exact (List.getElem?_eq_some_iff.1 hi).1
  have hmem : (operands[i], n) ∈ operands.zip ns :=
    List.mem_of_getElem? (List.getElem?_zip_eq_some.2 ⟨List.getElem?_eq_getElem hlt, hi⟩)
  exact ⟨hvis, r, (hcommon _ hmem).symm.trans hr, hvr⟩

/-- An apply whose body returns something reads something, and so has a rank. -/
theorem head_of_terminator {base : Program} {apply : OpId} {b : BodyState} {o z : Operation}
    (h : b.Sound base apply)
    (ho : b.program.op? apply = some o)
    (hz : b.program.terminator? o = some z)
    (htys : z.operandTypes ≠ []) :
    ∃ v vs r, o.operands = v :: vs ∧ b.rank = some r ∧ b.program.HasRank v r := by
  rcases h.opened with ⟨o', block, ho', hk, hranked, hblock, _⟩
  obtain rfl : o = o' := Option.some.inj (ho.symm.trans ho')
  rcases Option.bind_eq_some_iff.1 hz with ⟨x, hx, hxz⟩
  have hret : z.operands ≠ [] := by
    intro hnil
    have hdeclared := h.coherent.declared hxz
    rw [hnil] at hdeclared
    exact htys hdeclared
  rw [hk] at hx
  obtain ⟨oz, hoz, _, hsource⟩ := hblock x (List.mem_of_getLast? hx)
  obtain rfl : z = oz := Option.some.inj (hxz.symm.trans hoz)
  obtain ⟨v, vs, hv⟩ := List.ne_nil_iff_exists_cons.1 (hsource hret)
  obtain ⟨r, hr, hvr⟩ := hranked v (by rw [hv]; exact List.mem_cons_self)
  exact ⟨v, vs, r, hv, hr, hvr⟩

/-- The body of an apply is sound when all its operations are there. -/
theorem body_of_addOps {operands params : List String} {body : List BodyOpDesc} {ns : List Named}
    {rank : Option Nat} {scope : Scope ValueId} {b : BodyState}
    (h : s.Sound)
    (hns : s.scope.getAll operands = .ok ns)
    (hrank : operandRank none (operands.zip ns) = .ok rank)
    (hscope : Scope.defineAll {} (params.zip (s.program.openApply (ns.map Named.value)).2.2) =
      .ok scope)
    (hb : BodyState.addOps (s.program.openApply (ns.map Named.value)).2.1
      (s.program.openApply (ns.map Named.value)).2.2
      { program := (s.program.openApply (ns.map Named.value)).1, scope, rank } body = .ok b) :
    b.Sound (s.program.openApply (ns.map Named.value)).1
      (s.program.openApply (ns.map Named.value)).2.1 := by
  rcases h.named with ⟨fs, f, hfs, hnamed⟩
  have hoperands := operands_of_operandRank hnamed hns hrank
  exact (h.openApply hfs (fun v hv => (hoperands v hv).1) (fun v hv => (hoperands v hv).2)
    hscope).addOps hb

theorem addApply {results operands params : List String} {body : List BodyOpDesc}
    (h : s.Sound)
    (hs : s.addApply results operands params body = .ok s') :
    s'.Sound := by
  rcases FunctionState.addApply_eq_ok.1 hs with
    ⟨_, ns, rank, hns, hrank, scope, b, p, values, scope', hscope, hb, hclose, _, hscope', rfl⟩
  rcases h.named with ⟨fs, f, hfs, hnamed⟩
  have hbody := h.body_of_addOps hns hrank hscope hb
  rcases closeApply_eq_ok.1 hclose with ⟨o, t, unroll, ho, hterm, _, _, _, rfl, rfl⟩
  let u := (s.program.openApply (ns.map Named.value)).2.1
  let tys := groupTypes t.operandTypes (groupSize unroll).toNat
  let p₁ := b.program.append u
  have hc₁ : p₁.Coherent := hbody.coherent.append u
  have hg₁ : s.program.Grows p₁ :=
    ((Grows.openApply _ _).trans hbody.grows).trans (Grows.append _ _)
  have hfs₁ : p₁.functions.toList = fs ++ [{ f with body := f.body ++ [u] }] := by
    refine toList_functions_append u ?_
    rw [hbody.functions, functions_openApply, hfs]
  rcases hbody.opened with ⟨o', _, ho', hk, _⟩
  obtain rfl : o = o' := Option.some.inj (ho.symm.trans ho')
  have hinf : o.kind.isInferable = true := by rw [hk]; rfl
  have hclosed : (p₁.newResults u tys) =
      ((b.program.newResults u tys).1.append u, (b.program.newResults u tys).2) :=
    newResults_append tys u b.program
  have hg₂ : p₁.Grows (p₁.newResults u tys).1 := Grows.newResults u tys p₁
  have hs₂ : (p₁.newResults u tys).1.Scoped :=
    Scoped.newResults tys hc₁ hbody.inScope ho fun _ =>
      ⟨hinf, fun ty hty => (mem_groupTypes hty).2⟩
  have hnew : ∀ v ∈ (p₁.newResults u tys).2,
      Named.Sound (p₁.newResults u tys).1 { f with body := f.body ++ [u] }
        { value := v, rank := b.rank } := by
    intro v hv
    -- A result stands for a value that the body returns, so the apply reads something.
    obtain ⟨ty, hty⟩ := exists_ty_of_mem_newResults hv
    obtain ⟨w, ws, r, hw, hr, hwr⟩ :=
      head_of_terminator hbody ho hterm (mem_groupTypes hty).1
    rw [hr]
    exact named_of_newResults (u := u) tys ho
      (List.mem_append_right _ List.mem_cons_self) hinf (by rw [hw]; rfl)
      (hwr.mono (Grows.append _ _)) hv
  have hc₂ : (p₁.newResults u tys).1.Coherent := hc₁.newResults tys ho
  have hfs₂ := congrArg Array.toList (functions_newResults u tys p₁)
  rw [hclosed] at hc₂ hg₂ hfs₂ hs₂ hnew
  refine ⟨hc₂, hs₂, fs, _, hfs₂.trans hfs₁, fun c hc => ?_⟩
  rcases Scope.mem_of_defineAll hscope' hc with hc | hc
  · obtain ⟨v, hv, hcv⟩ := List.mem_map.1 (List.of_mem_zip hc).2
    rw [← hcv]
    exact hnew v hv
  · exact (hnamed c hc).mono (hg₁.trans hg₂) fun x hx => List.mem_append_left _ hx

theorem addOp {op : OpDesc}
    (h : s.Sound)
    (hs : s.addOp op = .ok s') :
    s'.Sound := by
  cases op with
  | load result field => exact h.addLoad hs
  | apply results operands params body => exact h.addApply hs
  | store value field lower upper => exact h.addStore hs

/-- Building the operations of a function keeps it sound. -/
theorem addOps {ops : List OpDesc} :
    ∀ {s : FunctionState}, s.Sound → s.addOps ops = .ok s' → s'.Sound := by
  induction ops with
  | nil =>
      intro s h hs
      rwa [FunctionState.addOps_nil.1 hs]
  | cons op ops ih =>
      intro s h hs
      rcases FunctionState.addOps_cons.1 hs with ⟨t, ht, hs⟩
      exact ih (h.addOp ht) hs

/-- A function begins with names for its arguments. -/
theorem beginFunction {p : Program} {f : FunctionDesc} {scope : Scope Named}
    (hc : p.Coherent)
    (hp : p.Scoped)
    (hscope : Scope.defineAll {} (f.argNames (p.beginFunction f.name f.stencil f.argTypes).2) =
      .ok scope) :
    Sound { program := (p.beginFunction f.name f.stencil f.argTypes).1, scope } := by
  let g : Function :=
    { name := f.name, stencil := f.stencil, args := (p.newArgs none 0 f.argTypes).2, body := [] }
  refine ⟨hc.beginFunction _ _ _, hp.beginFunction hc _ _ _, p.functions.toList, g, ?_, ?_⟩
  · simp [g, Program.beginFunction, functions_newArgs]
  · intro b hb
    rcases Scope.mem_of_defineAll hscope hb with hb | hb
    · rcases List.mem_map.1 hb with ⟨⟨a, v⟩, hav, rfl⟩
      obtain ⟨i, hi⟩ := List.getElem?_of_mem hav
      rcases List.getElem?_zip_eq_some.1 hi with ⟨ha, hv⟩
      have hv' : (p.newArgs none 0 f.argTypes).2[i]? = some v := hv
      rw [newArgs_snd, List.getElem?_map] at hv'
      rcases Option.map_eq_some_iff.1 hv' with ⟨k, hk, rfl⟩
      rcases List.getElem?_eq_some_iff.1 hk with ⟨hlt, hk⟩
      rw [List.getElem_range] at hk
      subst hk
      rw [List.length_range] at hlt
      have hnew : ¬ p.values.size + i < p.values.size := by omega
      have horigin : (p.beginFunction f.name f.stencil f.argTypes).1.originOf
          ⟨p.values.size + i⟩ = some (.arg none i) := by
        refine (originOf_newArgs none f.argTypes _ p 0).trans ?_
        simp [hlt, hnew]
      have hty : (p.beginFunction f.name f.stencil f.argTypes).1.typeOf ⟨p.values.size + i⟩ =
          .field a.element a.rank.toNat := by
        refine (typeOf_newArgs none f.argTypes _ p 0).trans ?_
        simp [FunctionDesc.argTypes, ha, hnew]
      exact ⟨Or.inl ⟨i, horigin⟩, _, rfl, .arg horigin hty⟩
    · cases hb

end FunctionState.Sound

/-- Each function of a description leaves the program coherent and scoped. -/
theorem FunctionDesc.sound_of_elaborate {f : FunctionDesc} {p q : Program}
    (hc : p.Coherent)
    (hp : p.Scoped)
    (h : f.elaborate p = .ok q) :
    q.Coherent ∧ q.Scoped := by
  rcases FunctionDesc.elaborate_eq_ok.1 h with ⟨scope, s, hscope, hs, rfl⟩
  have hsound := (FunctionState.Sound.beginFunction hc hp hscope).addOps hs
  exact ⟨hsound.coherent, hsound.inScope⟩

theorem sound_of_elaborateFunctions {fs : List FunctionDesc} :
    ∀ {p q : Program}, p.Coherent → p.Scoped → elaborateFunctions p fs = (q, []) →
      q.Coherent ∧ q.Scoped := by
  induction fs with
  | nil =>
      intro p q hc hp h
      rw [elaborateFunctions_eq_nil.1 h]
      exact ⟨hc, hp⟩
  | cons f fs ih =>
      intro p q hc hp h
      rcases elaborateFunctions_eq_nil.1 h with ⟨p', hf, h⟩
      obtain ⟨hc', hp'⟩ := FunctionDesc.sound_of_elaborate hc hp hf
      exact ih hc' hp' h

namespace Description

variable {d : Description} {p : Program}

/-- The program of a description is coherent. -/
theorem coherent_of_elaborate (h : d.elaborate = .ok p) : p.Coherent :=
  (sound_of_elaborateFunctions Coherent.empty Scoped.empty (elaborate_eq_ok.1 h)).1

/-- The program of a description is scoped. -/
theorem scoped_of_elaborate (h : d.elaborate = .ok p) : p.Scoped :=
  (sound_of_elaborateFunctions Coherent.empty Scoped.empty (elaborate_eq_ok.1 h)).2

end Description
end StencilShapes
