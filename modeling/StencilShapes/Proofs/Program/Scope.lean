import StencilShapes.Proofs.Program.Growth

/-!
# Scoped programs

In a scoped program values flow forward within one function: what reads a result
of an operation stands behind that operation, in the same function.  Outer
operations read outer values and inner operations inner ones, and all parts of an
outer operation that have a rank have the same one.  Nothing is inferred yet.

**Results.**
* `Program.Scoped.enter`: an operation may join the function begun last if it reads
  values that are visible there.
* `Program.Scoped.newInner`, `Program.Scoped.newResult`, `Program.Scoped.appendToBody`:
  the steps that fill the body of an apply and give it results.
* `Program.Scoped.beginFunction`: a function may begin at any time.
-/

namespace StencilShapes
namespace Program

/-- Operands, bounds, offsets and unroll of an outer operation have one rank. -/
structure OpRank (p : Program) (o : Operation) (rank : Nat) : Prop where
  operands : ∀ v ∈ o.operands, p.HasRank v rank
  /-- Both ends of the bounds have the rank. -/
  bounds : ∀ b, o.kind.bounds? = some b → b.lower.length = rank ∧ b.upper.length = rank
  /-- Offsets and unroll in the body have the rank. -/
  points : ∀ body, o.kind.body? = some body → ∀ x ∈ body.ops,
    ∃ ox, p.op? x = some ox ∧ ∀ q, ox.kind.point? = some q → q.length = rank

theorem OpRank.mono {p q : Program} {o : Operation} {r : Nat} (hg : p.Grows q)
    (h : p.OpRank o r) :
    q.OpRank o r where
  operands v hv := (h.operands v hv).mono hg
  bounds := h.bounds
  points body hbody x hx := by
    obtain ⟨ox, hox, hpt⟩ := h.points body hbody x hx
    obtain ⟨ox', hox', _, hkind⟩ := hg.op hox
    refine ⟨ox', hox', fun pt hpt' => hpt pt ?_⟩
    rw [← OpKind.point?_head, ← hkind, OpKind.point?_head, hpt']

/-- A value that the next operation of a function may read. -/
def VisibleIn (p : Program) (f : Function) (v : ValueId) : Prop :=
  (∃ j, p.originOf v = some (.arg none j)) ∨
    ∃ u ∈ f.body, ∃ j, p.originOf v = some (.result u j)

theorem VisibleIn.defined {p : Program} {f : Function} {v : ValueId} (h : p.VisibleIn f v) :
    (p.originOf v).isSome := by
  rcases h with ⟨_, h⟩ | ⟨_, _, _, h⟩ <;> rw [h] <;> rfl

theorem VisibleIn.mono {p q : Program} {f g : Function} {v : ValueId} (hg : p.Grows q)
    (hfg : ∀ u ∈ f.body, u ∈ g.body) (h : p.VisibleIn f v) :
    q.VisibleIn g v := by
  have hv := hg.origin h.defined
  rcases h with ⟨j, h⟩ | ⟨u, hu, j, h⟩
  · exact Or.inl ⟨j, hv.trans h⟩
  · exact Or.inr ⟨u, hfg u hu, j, hv.trans h⟩

/-- Values flow forward within functions, ranks agree, and nothing is inferred yet. -/
structure Scoped (p : Program) : Prop where
  /-- Each operation stands behind all that were made before it, function by function. -/
  ordered : (p.functions.toList.flatMap Function.body).Pairwise (·.index < ·.index)
  body : ∀ f ∈ p.functions.toList, ∀ u ∈ f.body, ∃ o, p.op? u = some o ∧ o.kind.isShaped = true
  /-- What reads a result stands behind the operation that defines it. -/
  flow : ∀ f ∈ p.functions.toList, ∀ u ∈ f.body, ∀ o, p.op? u = some o →
    ∀ v ∈ o.results, ∀ use ∈ p.usesOf v, use.user ∈ f.body ∧ u.index < use.user.index
  /-- Operations read what is visible in their function. -/
  visible : ∀ f ∈ p.functions.toList, ∀ u ∈ f.body, ∀ o, p.op? u = some o →
    ∀ v ∈ o.operands, p.VisibleIn f v
  outer : ∀ {u o}, p.op? u = some o → o.kind.isShaped = true → ∀ v ∈ o.operands, p.IsOuter v
  inner : ∀ {u o}, p.op? u = some o → o.kind.isShaped = false → ∀ v ∈ o.operands, p.IsInner v
  fresh : ∀ {u o}, p.op? u = some o → o.kind.isInferable = true → o.kind.bounds? = none
  /-- The results of loads and applies are temps without a shape. -/
  results : ∀ {u o}, p.op? u = some o → o.kind.isInferable = true →
    ∀ v ∈ o.results, ∃ e, p.typeOf v = .temp e none
  store : ∀ {u o b}, p.op? u = some o → o.kind = .store b → o.results = []
  /-- The parts of an outer operation have one rank. -/
  ranked : ∀ {u o}, p.op? u = some o → o.kind.isShaped = true → ∃ r, p.OpRank o r

namespace Scoped

variable {p : Program}

theorem empty : ({} : Program).Scoped := by
  constructor <;> simp [op?]

theorem isOuter_of_visible (h : p.Scoped) {f : Function} (hf : f ∈ p.functions.toList)
    {v : ValueId} (hv : p.VisibleIn f v) :
    p.IsOuter v := by
  rcases hv with ⟨j, hj⟩ | ⟨u, hu, j, hj⟩
  · exact Or.inl ⟨j, hj⟩
  · obtain ⟨o, ho, hk⟩ := h.body f hf u hu
    exact Or.inr ⟨u, j, o, hj, ho, hk⟩

/-- An operation belongs to one function only. -/
theorem function_unique (h : p.Scoped) {fs : List Function} {f g : Function} {u : OpId}
    (hfs : p.functions.toList = fs ++ [f]) (hg : g ∈ fs) (hu : u ∈ g.body) :
    u ∉ f.body := by
  intro hu'
  have hord := h.ordered
  rw [hfs, List.flatMap_append, List.pairwise_append] at hord
  have hlt := hord.2.2 u (List.mem_flatMap.2 ⟨g, hg, hu⟩) u (by simpa using hu')
  exact Nat.lt_irrefl _ hlt

/-- Growth within the same functions keeps what is visible in them. -/
theorem visible_of_grows {q : Program} (h : p.Scoped) (hg : p.Grows q)
    {f : Function} (hf : f ∈ p.functions.toList) {u : OpId} (hu : u ∈ f.body) {o : Operation}
    (ho : q.op? u = some o) {v : ValueId} (hv : v ∈ o.operands) :
    q.VisibleIn f v := by
  obtain ⟨o₁, ho₁, _⟩ := h.body f hf u hu
  obtain ⟨o₂, ho₂, hops, _⟩ := hg.op ho₁
  obtain rfl : o = o₂ := Option.some.inj (ho.symm.trans ho₂)
  exact (h.visible f hf u hu o₁ ho₁ v (hops ▸ hv)).mono hg fun _ hx => hx

theorem lt_size (h : p.Scoped) {f : Function} (hf : f ∈ p.functions.toList) {u : OpId}
    (hu : u ∈ f.body) :
    u.index < p.ops.size := by
  obtain ⟨o, ho, _⟩ := h.body f hf u hu
  exact op?_lt ho

/-- A store has no results, so what defines a value is a load or an apply. -/
theorem isInferable_of_mem_results (h : p.Scoped) {u : OpId} {o : Operation} {v : ValueId}
    (ho : p.op? u = some o) (hshaped : o.kind.isShaped = true) (hv : v ∈ o.results) :
    o.kind.isInferable = true := by
  cases hk : o.kind.isInferable with
  | true => rfl
  | false =>
      obtain ⟨b, hb⟩ := OpKind.exists_store hshaped hk
      rw [h.store ho hb] at hv
      cases hv

end Scoped

/-- The operation `o` is new, defines nothing yet, and ends the function begun last. -/
structure Enters (p q : Program) (fs : List Function) (f : Function) (o : Operation) : Prop where
  before : p.functions.toList = fs ++ [f]
  after : q.functions.toList = fs ++ [{ f with body := f.body ++ [⟨p.ops.size⟩] }]
  grows : p.Grows q
  op : ∀ u, q.op? u = if u.index = p.ops.size then some o else p.op? u
  uses : ∀ v, q.usesOf v = p.usesOf v ++ slots ⟨p.ops.size⟩ v 0 o.operands
  results : o.results = []

namespace Enters

variable {p q : Program} {fs : List Function} {f : Function} {u : OpId} {o o' : Operation}

/-- An operation of the new program is the new one or an old one. -/
theorem op_cases (he : p.Enters q fs f o) (ho' : q.op? u = some o') :
    (u = ⟨p.ops.size⟩ ∧ o' = o) ∨ p.op? u = some o' := by
  rw [he.op] at ho'
  split at ho'
  · next hu =>
      cases u
      exact Or.inl ⟨congrArg OpId.mk hu, (Option.some.inj ho').symm⟩
  · exact Or.inr ho'

theorem op_old (he : p.Enters q fs f o) (ho' : p.op? u = some o') : q.op? u = some o' := by
  rw [he.op, if_neg (Nat.ne_of_lt (op?_lt ho')), ho']

/-- A function of the new program has not changed, or it has got the new operation. -/
theorem function_cases (he : p.Enters q fs f o) {g : Function} (hg : g ∈ q.functions.toList) :
    (g ∈ p.functions.toList ∧ g ∈ fs) ∨
      (f ∈ p.functions.toList ∧ g = { f with body := f.body ++ [⟨p.ops.size⟩] }) := by
  rw [he.after] at hg
  rw [he.before]
  rcases List.mem_append.1 hg with hg | hg
  · exact Or.inl ⟨List.mem_append_left _ hg, hg⟩
  · exact Or.inr ⟨by simp, List.mem_singleton.1 hg⟩

theorem ordered (he : p.Enters q fs f o) (h : p.Scoped) :
    (q.functions.toList.flatMap Function.body).Pairwise (·.index < ·.index) := by
  have hord := h.ordered
  have hlt : ∀ u ∈ p.functions.toList.flatMap Function.body, u.index < p.ops.size := by
    intro u hu
    rcases List.mem_flatMap.1 hu with ⟨g, hg, hu⟩
    exact h.lt_size hg hu
  rw [he.before] at hord hlt
  rw [he.after]
  simp only [List.flatMap_append, List.flatMap_cons, List.flatMap_nil, List.append_nil,
    ← List.append_assoc] at hord hlt ⊢
  refine List.pairwise_append.2 ⟨hord, List.pairwise_singleton _ _, fun u hu w hw => ?_⟩
  obtain rfl := List.mem_singleton.1 hw
  exact hlt u hu

theorem body (he : p.Enters q fs f o) (h : p.Scoped) (hshaped : o.kind.isShaped = true) :
    ∀ g ∈ q.functions.toList, ∀ u ∈ g.body, ∃ o', q.op? u = some o' ∧ o'.kind.isShaped = true := by
  intro g hg u hu
  have hkeep : ∀ {g}, g ∈ p.functions.toList → u ∈ g.body →
      ∃ o', q.op? u = some o' ∧ o'.kind.isShaped = true := fun hg hu =>
    (h.body _ hg u hu).imp fun _ ho' => ⟨he.op_old ho'.1, ho'.2⟩
  rcases he.function_cases hg with ⟨hg, _⟩ | ⟨hf, rfl⟩
  · exact hkeep hg hu
  · rcases List.mem_append.1 hu with hu | hu
    · exact hkeep hf hu
    · obtain rfl := List.mem_singleton.1 hu
      exact ⟨o, by rw [he.op, if_pos rfl], hshaped⟩

theorem flow (he : p.Enters q fs f o) (hc : p.Coherent) (h : p.Scoped)
    (hvisible : ∀ v ∈ o.operands, p.VisibleIn f v) :
    ∀ g ∈ q.functions.toList, ∀ u ∈ g.body, ∀ o', q.op? u = some o' → ∀ v ∈ o'.results,
      ∀ use ∈ q.usesOf v, use.user ∈ g.body ∧ u.index < use.user.index := by
  intro g hg u hu o' ho' v hv use huse
  rcases he.op_cases ho' with ⟨_, rfl⟩ | ho'
  · rw [he.results] at hv
    cases hv
  have hlt := op?_lt ho'
  rw [he.uses, List.mem_append] at huse
  rcases he.function_cases hg with ⟨hg, hfs⟩ | ⟨hf, rfl⟩
  · rcases huse with huse | huse
    · exact h.flow g hg u hu o' ho' v hv use huse
    · -- The new operation cannot read what another function defines.
      rcases mem_slots.1 huse with ⟨_, i, _, hi⟩
      obtain ⟨j, hj⟩ := hc.mem_results ho' hv
      rcases hvisible v (List.mem_of_getElem? hi) with ⟨_, hv'⟩ | ⟨u', hu', _, hv'⟩
      · rw [hj] at hv'
        cases hv'
      · rw [hj] at hv'
        cases hv'
        exact absurd hu' (h.function_unique he.before hfs hu)
  · have hu : u ∈ f.body := by
      rcases List.mem_append.1 hu with hu | hu
      · exact hu
      · obtain rfl := List.mem_singleton.1 hu
        exact absurd hlt (Nat.lt_irrefl _)
    rcases huse with huse | huse
    · obtain ⟨huser, hlt'⟩ := h.flow f hf u hu o' ho' v hv use huse
      exact ⟨List.mem_append_left _ huser, hlt'⟩
    · rcases mem_slots.1 huse with ⟨huser, _⟩
      rw [huser]
      exact ⟨by simp, hlt⟩

theorem visible (he : p.Enters q fs f o) (h : p.Scoped)
    (hvisible : ∀ v ∈ o.operands, p.VisibleIn f v) :
    ∀ g ∈ q.functions.toList, ∀ u ∈ g.body, ∀ o', q.op? u = some o' →
      ∀ v ∈ o'.operands, q.VisibleIn g v := by
  intro g hg u hu o' ho' v hv
  rcases he.function_cases hg with ⟨hg, _⟩ | ⟨hf, rfl⟩
  · exact h.visible_of_grows he.grows hg hu ho' hv
  · rcases List.mem_append.1 hu with hu | hu
    · exact (h.visible_of_grows he.grows hf hu ho' hv).mono (Grows.refl q)
        fun x hx => List.mem_append_left _ hx
    · obtain rfl := List.mem_singleton.1 hu
      rw [he.op, if_pos rfl] at ho'
      cases ho'
      exact (hvisible v hv).mono he.grows fun x hx => List.mem_append_left _ hx

end Enters

namespace Scoped

variable {p : Program}

/-- An operation joins the function begun last, whose values it may read. -/
theorem enter {q : Program} {fs : List Function} {f : Function} {o : Operation}
    (hc : p.Coherent) (h : p.Scoped)
    (he : p.Enters q fs f o)
    (hshaped : o.kind.isShaped = true)
    (hfresh : o.kind.isInferable = true → o.kind.bounds? = none)
    (hvisible : ∀ v ∈ o.operands, p.VisibleIn f v)
    (hrank : ∃ r, q.OpRank o r) :
    q.Scoped := by
  have hf : f ∈ p.functions.toList := by simp [he.before]
  constructor
  case ordered => exact he.ordered h
  case body => exact he.body h hshaped
  case flow => exact he.flow hc h hvisible
  case visible => exact he.visible h hvisible
  case outer =>
    intro u o' ho' hk v hv
    rcases he.op_cases ho' with ⟨_, rfl⟩ | ho'
    · exact (h.isOuter_of_visible hf (hvisible v hv)).mono he.grows
    · exact (h.outer ho' hk v hv).mono he.grows
  case inner =>
    intro u o' ho' hk v hv
    rcases he.op_cases ho' with ⟨_, rfl⟩ | ho'
    · rw [hshaped] at hk
      cases hk
    · exact (h.inner ho' hk v hv).mono he.grows
  case fresh =>
    intro u o' ho' hk
    rcases he.op_cases ho' with ⟨_, rfl⟩ | ho'
    · exact hfresh hk
    · exact h.fresh ho' hk
  case results =>
    intro u o' ho' hk v hv
    rcases he.op_cases ho' with ⟨_, rfl⟩ | ho'
    · rw [he.results] at hv
      cases hv
    · obtain ⟨j, hj⟩ := hc.mem_results ho' hv
      rw [he.grows.ty (by rw [hj]; rfl)]
      exact h.results ho' hk v hv
  case store =>
    intro u o' b ho' hk
    rcases he.op_cases ho' with ⟨_, rfl⟩ | ho'
    · exact he.results
    · exact h.store ho' hk
  case ranked =>
    intro u o' ho' hk
    rcases he.op_cases ho' with ⟨_, rfl⟩ | ho'
    · exact hrank
    · obtain ⟨r, hr⟩ := h.ranked ho' hk
      exact ⟨r, hr.mono he.grows⟩

/-- A load or a store joins its function at once. -/
theorem newOp_append {fs : List Function} {f : Function} {kind : OpKind}
    {operands : List ValueId} {r : Nat}
    (hc : p.Coherent) (h : p.Scoped)
    (hfs : p.functions.toList = fs ++ [f])
    (hkind : kind = .load none ∨ ∃ b, kind = .store b)
    (hvisible : ∀ v ∈ operands, p.VisibleIn f v)
    (hrank : ∀ v ∈ operands, p.HasRank v r)
    (hbounds : ∀ b, kind.bounds? = some b → b.lower.length = r ∧ b.upper.length = r) :
    ((p.newOp kind operands none).1.append ⟨p.ops.size⟩).Scoped := by
  have hg : p.Grows ((p.newOp kind operands none).1.append ⟨p.ops.size⟩) :=
    (Grows.newOp p kind operands none).trans (Grows.append _ _)
  have hbody : kind.body? = none := by
    rcases hkind with rfl | ⟨b, rfl⟩ <;> rfl
  have he : p.Enters ((p.newOp kind operands none).1.append ⟨p.ops.size⟩) fs f
      { id := ⟨p.ops.size⟩, kind, operands, operandTypes := operands.map p.typeOf, results := []
        parent := none } :=
    { before := hfs
      after := toList_functions_append _ hfs
      grows := hg
      op := p.op?_newOp kind operands none
      uses := p.usesOf_newOp kind none fun v hv => (hvisible v hv).defined
      results := rfl }
  refine enter hc h he ?_ ?_ hvisible ⟨r, ?_⟩
  · rcases hkind with rfl | ⟨b, rfl⟩ <;> rfl
  · rcases hkind with rfl | ⟨b, rfl⟩
    · exact fun _ => rfl
    · exact fun hk => Bool.noConfusion hk
  · exact ⟨fun v hv => (hrank v hv).mono hg, hbounds, fun body hb => by rw [hbody] at hb; cases hb⟩

/-- An open apply already counts as an operation of its function. -/
theorem openApply_append {fs : List Function} {f : Function} {operands : List ValueId} {r : Nat}
    (hc : p.Coherent) (h : p.Scoped)
    (hfs : p.functions.toList = fs ++ [f])
    (hvisible : ∀ v ∈ operands, p.VisibleIn f v)
    (hrank : ∀ v ∈ operands, p.HasRank v r) :
    ((p.openApply operands).1.append ⟨p.ops.size⟩).Scoped := by
  have hg : p.Grows ((p.openApply operands).1.append ⟨p.ops.size⟩) :=
    (Grows.openApply p operands).trans (Grows.append _ _)
  have he : p.Enters ((p.openApply operands).1.append ⟨p.ops.size⟩) fs f _ :=
    { before := hfs
      after := toList_functions_append _ (by rw [functions_openApply, hfs])
      grows := hg
      op := p.op?_openApply operands
      uses := p.usesOf_openApply operands fun v hv => (hvisible v hv).defined
      results := rfl }
  refine enter hc h he rfl (fun _ => rfl) hvisible ⟨r, ?_⟩
  refine ⟨fun v hv => (hrank v hv).mono hg, ?_, ?_⟩
  · intro b hb
    cases hb
  · intro body hb x hx
    cases hb
    cases hx

/-- An inner operation may be made at any time. -/
theorem newInner {kind : OpKind} {operands : List ValueId}
    (hc : p.Coherent) (h : p.Scoped)
    (parent : Option OpId)
    (hkind : kind.isShaped = false)
    (hinner : ∀ v ∈ operands, p.IsInner v) :
    (p.newOp kind operands parent).1.Scoped := by
  have hg : p.Grows (p.newOp kind operands parent).1 := Grows.newOp p kind operands parent
  have hcases : ∀ {u o'}, (p.newOp kind operands parent).1.op? u = some o' →
      (o'.kind = kind ∧ o'.operands = operands) ∨ p.op? u = some o' := by
    intro u o' ho'
    rw [op?_newOp] at ho'
    split at ho'
    · cases ho'
      exact Or.inl ⟨rfl, rfl⟩
    · exact Or.inr ho'
  have hshaped : ∀ {u o'}, (p.newOp kind operands parent).1.op? u = some o' →
      o'.kind.isShaped = true → p.op? u = some o' := by
    intro u o' ho' hk
    rcases hcases ho' with ⟨hk', _⟩ | ho'
    · rw [hk', hkind] at hk
      cases hk
    · exact ho'
  have hinferable : ∀ {u o'}, (p.newOp kind operands parent).1.op? u = some o' →
      o'.kind.isInferable = true → p.op? u = some o' := fun ho' hk =>
    hshaped ho' (OpKind.isShaped_of_isInferable hk)
  constructor
  case ordered => exact h.ordered
  case body => exact fun f hf u hu => hg.isShaped (h.body f hf u hu)
  case flow =>
    intro f hf u hu o ho v hv use huse
    obtain ⟨o', ho', hk'⟩ := h.body f hf u hu
    have ho'' : (p.newOp kind operands parent).1.op? u = some o' :=
      op?_newOp_old kind operands parent ho'
    obtain rfl : o' = o := Option.some.inj (ho''.symm.trans ho)
    rw [usesOf_newOp p kind parent (fun w hw => (hinner w hw).defined), List.mem_append] at huse
    rcases huse with huse | huse
    · exact h.flow f hf u hu o' ho' v hv use huse
    · -- An outer value is not among the operands.
      rcases mem_slots.1 huse with ⟨_, i, _, hi⟩
      obtain ⟨j, hj⟩ := hc.mem_results ho' hv
      exact absurd (Or.inr ⟨u, j, o', hj, ho', hk'⟩)
        (hinner v (List.mem_of_getElem? hi)).not_isOuter
  case visible => exact fun f hf u hu o ho v hv => h.visible_of_grows hg hf hu ho hv
  case outer =>
    intro u o ho hk v hv
    exact (h.outer (hshaped ho hk) hk v hv).mono hg
  case inner =>
    intro u o ho hk v hv
    rcases hcases ho with ⟨_, hops⟩ | ho
    · exact (hinner v (hops ▸ hv)).mono hg
    · exact (h.inner ho hk v hv).mono hg
  case fresh => exact fun ho hk => h.fresh (hinferable ho hk) hk
  case results =>
    intro u o ho hk v hv
    rw [typeOf_newOp]
    exact h.results (hinferable ho hk) hk v hv
  case store =>
    intro u o b ho hk
    exact h.store (hshaped ho (by rw [hk]; rfl)) hk
  case ranked =>
    intro u o ho hk
    obtain ⟨r, hr⟩ := h.ranked (hshaped ho hk) hk
    exact ⟨r, hr.mono hg⟩

/-- A load or an apply gets temps as results, an inner operation anything. -/
theorem newResult {u : OpId} {o : Operation} {ty : Ty}
    (hc : p.Coherent) (h : p.Scoped)
    (ho : p.op? u = some o)
    (hkind : o.kind.isShaped = true → o.kind.isInferable = true ∧ ∃ e, ty = .temp e none) :
    (p.newResult u ty).1.Scoped := by
  have hg : p.Grows (p.newResult u ty).1 := Grows.newResult p u ty
  have hcases : ∀ {x ox}, (p.newResult u ty).1.op? x = some ox →
      ∃ ox', p.op? x = some ox' ∧ ox.kind = ox'.kind ∧ ox.operands = ox'.operands ∧
        ∀ v ∈ ox.results, v ∈ ox'.results ∨ (x = u ∧ v.index = p.values.size) := by
    intro x ox hox
    rcases op?_newResult_cases hox with ⟨ox', hox', rfl | ⟨hx, rfl⟩⟩
    · exact ⟨ox, hox', rfl, rfl, fun v hv => Or.inl hv⟩
    · refine ⟨ox', hox', rfl, rfl, fun v hv => ?_⟩
      rcases List.mem_append.1 hv with hv | hv
      · exact Or.inl hv
      · obtain rfl := List.mem_singleton.1 hv
        exact Or.inr ⟨hx, rfl⟩
  constructor
  case ordered => exact h.ordered
  case body => exact fun f hf x hx => hg.isShaped (h.body f hf x hx)
  case flow =>
    intro f hf x hx ox hox v hv use huse
    rw [usesOf_newResult] at huse
    obtain ⟨ox', hox', _, _, hres⟩ := hcases hox
    rcases hres v hv with hv | ⟨_, hv⟩
    · exact h.flow f hf x hx ox' hox' v hv use huse
    · -- Nothing reads a new value.
      rcases hc.mem_uses.1 huse with ⟨o', ho', hi⟩
      have hdef := hc.operand ho' v (List.mem_of_getElem? hi)
      rw [p.originOf_isSome, hv] at hdef
      exact absurd hdef (Nat.lt_irrefl _)
  case visible => exact fun f hf x hx ox hox v hv => h.visible_of_grows hg hf hx hox hv
  case outer =>
    intro x ox hox hk v hv
    obtain ⟨ox', hox', hk', hops, _⟩ := hcases hox
    exact (h.outer hox' (hk' ▸ hk) v (hops ▸ hv)).mono hg
  case inner =>
    intro x ox hox hk v hv
    obtain ⟨ox', hox', hk', hops, _⟩ := hcases hox
    exact (h.inner hox' (hk' ▸ hk) v (hops ▸ hv)).mono hg
  case fresh =>
    intro x ox hox hk
    obtain ⟨ox', hox', hk', _⟩ := hcases hox
    rw [hk'] at hk ⊢
    exact h.fresh hox' hk
  case results =>
    intro x ox hox hk v hv
    obtain ⟨ox', hox', hk', _, hres⟩ := hcases hox
    rw [hk'] at hk
    rcases hres v hv with hv | ⟨rfl, hv⟩
    · obtain ⟨j, hj⟩ := hc.mem_results hox' hv
      rw [hg.ty (by rw [hj]; rfl)]
      exact h.results hox' hk v hv
    · rw [ho] at hox'
      cases hox'
      obtain ⟨e, rfl⟩ := (hkind (OpKind.isShaped_of_isInferable hk)).2
      exact ⟨e, by rw [typeOf_newResult, if_pos hv]⟩
  case store =>
    intro x ox b hox hk
    obtain ⟨ox', hox', hk', _, hres⟩ := hcases hox
    rw [hk'] at hk
    refine List.eq_nil_iff_forall_not_mem.2 fun v hv => ?_
    rcases hres v hv with hv | ⟨rfl, _⟩
    · rw [h.store hox' hk] at hv
      cases hv
    · rw [ho] at hox'
      cases hox'
      rw [hk] at hkind
      exact Bool.noConfusion (hkind rfl).1
  case ranked =>
    intro x ox hox hk
    obtain ⟨ox', hox', hk', hops, _⟩ := hcases hox
    obtain ⟨r, hr⟩ := h.ranked hox' (hk' ▸ hk)
    refine ⟨r, ?_⟩
    have hr' := hr.mono hg
    exact ⟨fun v hv => hr'.operands v (hops ▸ hv), fun b hb => hr'.bounds b (hk' ▸ hb),
      fun body hb => hr'.points body (hk' ▸ hb)⟩

/-- An inner operation joins the body of an apply whose rank it has. -/
theorem appendToBody {a x : OpId} {ox : Operation} {r : Nat}
    (h : p.Scoped)
    (hox : p.op? x = some ox)
    (hrank : ∀ o, p.op? a = some o → p.OpRank o r)
    (hpoint : ∀ pt, ox.kind.point? = some pt → pt.length = r) :
    (p.appendToBody a x).Scoped := by
  have hg : p.Grows (p.appendToBody a x) := Grows.appendToBody p a x
  have hcases : ∀ {u o}, (p.appendToBody a x).op? u = some o →
      ∃ o', p.op? u = some o' ∧ o.kind.head = o'.kind.head ∧ o.operands = o'.operands ∧
        o.results = o'.results ∧ o.kind.bounds? = o'.kind.bounds? ∧
        o.kind.isInferable = o'.kind.isInferable ∧ o.kind.isShaped = o'.kind.isShaped := by
    intro u o ho
    rcases op?_appendToBody_cases ho with ⟨o', ho', rfl | ⟨_, rfl⟩⟩
    · exact ⟨o, ho', rfl, rfl, rfl, rfl, rfl, rfl⟩
    · exact ⟨o', ho', OpKind.head_appendInner _ _, rfl, rfl, OpKind.bounds?_appendInner _ _,
        OpKind.isInferable_appendInner _ _, OpKind.isShaped_appendInner _ _⟩
  constructor
  case ordered => exact h.ordered
  case body => exact fun f hf u hu => hg.isShaped (h.body f hf u hu)
  case flow =>
    intro f hf u hu o ho v hv use huse
    obtain ⟨o', ho', _, _, hres, _⟩ := hcases ho
    exact h.flow f hf u hu o' ho' v (hres ▸ hv) use huse
  case visible => exact fun f hf u hu o ho v hv => h.visible_of_grows hg hf hu ho hv
  case outer =>
    intro u o ho hk v hv
    obtain ⟨o', ho', _, hops, _, _, _, hk'⟩ := hcases ho
    exact (h.outer ho' (hk' ▸ hk) v (hops ▸ hv)).mono hg
  case inner =>
    intro u o ho hk v hv
    obtain ⟨o', ho', _, hops, _, _, _, hk'⟩ := hcases ho
    exact (h.inner ho' (hk' ▸ hk) v (hops ▸ hv)).mono hg
  case fresh =>
    intro u o ho hk
    obtain ⟨o', ho', _, _, _, hb, hk', _⟩ := hcases ho
    rw [hb]
    exact h.fresh ho' (hk' ▸ hk)
  case results =>
    intro u o ho hk v hv
    obtain ⟨o', ho', _, _, hres, _, hk', _⟩ := hcases ho
    exact h.results ho' (hk' ▸ hk) v (hres ▸ hv)
  case store =>
    intro u o b ho hk
    obtain ⟨o', ho', hhead, _, hres, _⟩ := hcases ho
    rw [hres]
    refine h.store (b := b) ho' ?_
    rw [hk] at hhead
    generalize o'.kind = k at hhead
    cases k <;> cases hhead
    rfl
  case ranked =>
    intro u o ho hk
    rcases op?_appendToBody_cases ho with ⟨o', ho', rfl | ⟨rfl, rfl⟩⟩
    · obtain ⟨s, hs⟩ := h.ranked ho' hk
      exact ⟨s, hs.mono hg⟩
    · have hr := (hrank o' ho').mono hg
      refine ⟨r, hr.operands, fun b hb => hr.bounds b (by simpa using hb), fun body hb y hy => ?_⟩
      rw [OpKind.body?_appendInner] at hb
      rcases Option.map_eq_some_iff.1 hb with ⟨body', hbody', rfl⟩
      rcases List.mem_append.1 hy with hy | hy
      · exact hr.points body' hbody' y hy
      · obtain rfl := List.mem_singleton.1 hy
        obtain ⟨ox', hox', _, hkind⟩ := hg.op hox
        refine ⟨ox', hox', fun pt hpt => hpoint pt ?_⟩
        rw [← OpKind.point?_head, ← hkind, OpKind.point?_head, hpt]

/-- A function begins with new arguments and without operations. -/
theorem beginFunction (hc : p.Coherent) (h : p.Scoped) (name : String) (stencil : Bool)
    (tys : List Ty) :
    (p.beginFunction name stencil tys).1.Scoped := by
  have hg : p.Grows (p.beginFunction name stencil tys).1 := Grows.beginFunction p name stencil tys
  have hop : ∀ u, (p.beginFunction name stencil tys).1.op? u = p.op? u := fun u =>
    op?_newArgs none tys u p 0
  have hfs : (p.beginFunction name stencil tys).1.functions.toList =
      p.functions.toList ++ [{ name, stencil, args := (p.newArgs none 0 tys).2, body := [] }] := by
    simp [Program.beginFunction, functions_newArgs]
  have hmem : ∀ {f u}, f ∈ (p.beginFunction name stencil tys).1.functions.toList → u ∈ f.body →
      f ∈ p.functions.toList := by
    intro f u hf hu
    rw [hfs] at hf
    rcases List.mem_append.1 hf with hf | hf
    · exact hf
    · obtain rfl := List.mem_singleton.1 hf
      cases hu
  constructor
  case ordered =>
    rw [hfs]
    simpa using h.ordered
  case body =>
    intro f hf u hu
    rw [hop]
    exact h.body f (hmem hf hu) u hu
  case flow =>
    intro f hf u hu o ho v hv use huse
    rw [hop] at ho
    refine h.flow f (hmem hf hu) u hu o ho v hv use ?_
    rwa [← usesOf_newArgs none tys v p 0]
  case visible =>
    exact fun f hf u hu o ho v hv => h.visible_of_grows hg (hmem hf hu) hu ho hv
  case outer =>
    intro u o ho hk v hv
    rw [hop] at ho
    exact (h.outer ho hk v hv).mono hg
  case inner =>
    intro u o ho hk v hv
    rw [hop] at ho
    exact (h.inner ho hk v hv).mono hg
  case fresh =>
    intro u o ho hk
    rw [hop] at ho
    exact h.fresh ho hk
  case results =>
    intro u o ho hk v hv
    rw [hop] at ho
    obtain ⟨j, hj⟩ := hc.mem_results ho hv
    rw [hg.ty (by rw [hj]; rfl)]
    exact h.results ho hk v hv
  case store =>
    intro u o b ho hk
    rw [hop] at ho
    exact h.store ho hk
  case ranked =>
    intro u o ho hk
    rw [hop] at ho
    obtain ⟨r, hr⟩ := h.ranked ho hk
    exact ⟨r, hr.mono hg⟩

end Scoped

section Results

variable {u : OpId}

theorem Scoped.newResults (tys : List Ty) :
    ∀ {p : Program} {o : Operation}, p.Coherent → p.Scoped → p.op? u = some o →
      (o.kind.isShaped = true →
        o.kind.isInferable = true ∧ ∀ ty ∈ tys, ∃ e, ty = .temp e none) →
      (p.newResults u tys).1.Scoped := by
  induction tys with
  | nil => exact fun _ h _ _ => h
  | cons ty tys ih =>
      intro p o hc h ho hk
      refine ih (hc.newResult ty ho) (h.newResult hc ho fun hs => ?_) (op?_newResult_self ty ho)
        fun hs => ?_
      · exact ⟨(hk hs).1, (hk hs).2 ty List.mem_cons_self⟩
      · exact ⟨(hk hs).1, fun t ht => (hk hs).2 t (List.mem_cons_of_mem _ ht)⟩

/-- Results can be added before or after an operation joins its function. -/
theorem newResults_append (tys : List Ty) (a : OpId) :
    ∀ p : Program, (p.append a).newResults u tys =
      ((p.newResults u tys).1.append a, (p.newResults u tys).2) := by
  induction tys with
  | nil => exact fun _ => rfl
  | cons ty tys ih =>
      intro p
      have hrest := ih (p.newResult u ty).1
      simp only [newResults]
      exact congrArg (fun r => (r.1, (p.newResult u ty).2 :: r.2)) hrest

end Results

/-- An inner operation with its results, at the end of the body of an apply. -/
def addInner (p : Program) (apply : OpId) (kind : OpKind) (operands : List ValueId)
    (tys : List Ty) : Program × List ValueId :=
  let q := (p.newOp kind operands (some apply)).1
  let (q, vs) := q.newResults ⟨p.ops.size⟩ tys
  (q.appendToBody apply ⟨p.ops.size⟩, vs)

section Calls

variable (p : Program)

theorem load_eq (field : ValueId) :
    p.load field =
      let ty := .temp (p.typeOf field).element none
      let q := ((p.newOp (.load none) [field] none).1.newResults ⟨p.ops.size⟩ [ty]).1
      (q.append ⟨p.ops.size⟩, ⟨p.values.size⟩) := by
  simp [load, newResults]

theorem store_eq (value field : ValueId) (bounds : Bounds) :
    p.store value field bounds =
      ((p.newOp (.store bounds) [value, field] none).1.append ⟨p.ops.size⟩, ⟨p.ops.size⟩) := by
  simp [store]

theorem access_eq (apply : OpId) (arg : ValueId) (offset : Point) :
    p.access apply arg offset =
      ((p.addInner apply (.access offset) [arg] [.scalar (p.typeOf arg).element]).1,
        ⟨p.values.size⟩) := by
  simp [access, addInner, newResults]

theorem arith_eq (apply : OpId) (operator : Operator) (lhs rhs : ValueId) :
    p.arith apply operator lhs rhs =
      ((p.addInner apply (.arith operator) [lhs, rhs] [p.typeOf lhs]).1, ⟨p.values.size⟩) := by
  simp [arith, addInner, newResults]

theorem ret_eq (apply : OpId) (values : List ValueId) (unroll : Option Point) :
    p.ret apply values unroll = (p.addInner apply (.ret unroll) values []).1 := by
  simp [ret, addInner, newResults]

end Calls

section Inner

variable {p : Program} {apply : OpId} {o : Operation} (kind : OpKind) (operands : List ValueId)
  (tys : List Ty)

theorem Coherent.addInner {kind : OpKind} {operands : List ValueId}
    (h : p.Coherent)
    (hbody : kind.body? = none)
    (hoperands : ∀ v ∈ operands, (p.originOf v).isSome) :
    (p.addInner apply kind operands tys).1.Coherent := by
  have hnew := h.newOp (some apply) hbody hoperands
  exact (hnew.newResults tys (p.op?_newOp_self kind operands (some apply))).appendToBody apply _

theorem Grows.addInner (p : Program) (apply : OpId) :
    p.Grows (p.addInner apply kind operands tys).1 :=
  ((Grows.newOp p kind operands (some apply)).trans (Grows.newResults _ tys _)).trans
    (Grows.appendToBody _ _ _)

/-- The one result comes at the end of the arena. -/
theorem addInner_one (ty : Ty) (p : Program) (apply : OpId) :
    (p.addInner apply kind operands [ty]).2 = [⟨p.values.size⟩] := by
  rw [addInner, newResults_one, size_values_newOp]

theorem functions_addInner (p : Program) (apply : OpId) :
    (p.addInner apply kind operands tys).1.functions = p.functions :=
  functions_newResults _ tys _

/-- The body of the apply ends with the new operation. -/
theorem op?_addInner_apply (ho : p.op? apply = some o) :
    (p.addInner apply kind operands tys).1.op? apply =
      some { o with kind := o.kind.appendInner ⟨p.ops.size⟩ } := by
  have hne : apply ≠ ⟨p.ops.size⟩ := fun he => Nat.lt_irrefl _ (he ▸ op?_lt ho)
  have hold : ((p.newOp kind operands (some apply)).1.newResults ⟨p.ops.size⟩ tys).1.op? apply =
      some o :=
    (op?_newResults_of_ne tys hne _).trans (op?_newOp_old kind operands (some apply) ho)
  have hjoin := op?_appendToBody ((p.newOp kind operands (some apply)).1.newResults
    ⟨p.ops.size⟩ tys).1 apply ⟨p.ops.size⟩ apply
  rw [if_pos rfl, hold] at hjoin
  exact hjoin

/-- The new operation, with its results. -/
theorem op?_addInner_self (ho : p.op? apply = some o) :
    (p.addInner apply kind operands tys).1.op? ⟨p.ops.size⟩ =
      some
        { id := ⟨p.ops.size⟩, kind, operands, operandTypes := operands.map p.typeOf,
          results := (p.addInner apply kind operands tys).2, parent := some apply } := by
  have hne : (⟨p.ops.size⟩ : OpId) ≠ apply := fun he => Nat.lt_irrefl _ (he ▸ op?_lt ho)
  have hnew := op?_newResults_self tys (p.op?_newOp_self kind operands (some apply))
  exact ((op?_appendToBody _ apply _ _).trans (if_neg hne)).trans hnew

theorem exists_op?_addInner (ho : p.op? apply = some o) :
    ∃ results, (p.addInner apply kind operands tys).1.op? ⟨p.ops.size⟩ =
      some
        { id := ⟨p.ops.size⟩, kind, operands, operandTypes := operands.map p.typeOf, results,
          parent := some apply } :=
  ⟨_, op?_addInner_self kind operands tys ho⟩

/-- Other operations than the new one and the apply are left alone. -/
theorem op?_addInner_of_ne {u : OpId} (hu : u ≠ ⟨p.ops.size⟩) (hne : u ≠ apply) :
    (p.addInner apply kind operands tys).1.op? u = p.op? u := by
  have hindex : u.index ≠ p.ops.size := fun he => hu (congrArg OpId.mk he)
  have hnew : ((p.newOp kind operands (some apply)).1.newResults ⟨p.ops.size⟩ tys).1.op? u =
      p.op? u := by
    rw [op?_newResults_of_ne tys hu, op?_newOp, if_neg hindex]
  exact ((op?_appendToBody _ apply _ _).trans (if_neg hne)).trans hnew

end Inner

/-- The temps that an apply gives its results. -/
theorem mem_groupTypes {tys : List Ty} {size : Nat} {ty : Ty}
    (h : ty ∈ groupTypes tys size) :
    tys ≠ [] ∧ ∃ e, ty = .temp e none := by
  rcases List.mem_filterMap.1 h with ⟨j, _, hj⟩
  rcases Option.map_eq_some_iff.1 hj with ⟨t, ht, rfl⟩
  exact ⟨List.ne_nil_of_mem (List.mem_of_getElem? ht), t.element, rfl⟩

/-- What it takes to close an apply, and what comes of it. -/
theorem closeApply_eq_ok {p q : Program} {apply : OpId} {values : List ValueId} :
    p.closeApply apply = .ok (q, values) ↔
      ∃ o t unroll, p.op? apply = some o ∧ p.terminator? o = some t ∧ t.kind = .ret unroll ∧
        1 ≤ groupSize unroll ∧ (t.operandTypes.length : Int) % groupSize unroll = 0 ∧
        let r := p.newResults apply (groupTypes t.operandTypes (groupSize unroll).toNat)
        q = r.1.append apply ∧ values = r.2 := by
  unfold closeApply
  constructor
  · intro h
    split at h
    · next id unroll operands tys results parent hterm =>
        rcases Option.bind_eq_some_iff.1 hterm with ⟨o, ho, ht⟩
        dsimp only at h
        split at h
        · cases h
        · next hsize =>
            rw [not_or, Int.not_lt, Classical.not_not] at hsize
            cases h
            exact ⟨o, _, unroll, ho, ht, rfl, hsize.1, hsize.2, rfl, rfl⟩
    · cases h
  · rintro ⟨o, ⟨id, kind, operands, tys, results, parent⟩, unroll, ho, ht, rfl, hpos, hmod, rfl,
      rfl⟩
    have hsize : ¬ (groupSize unroll < 1 ∨ (tys.length : Int) % groupSize unroll ≠ 0) := by
      rw [not_or, Int.not_lt, Classical.not_not]
      exact ⟨hpos, hmod⟩
    simp only [ho, Option.bind_some, ht]
    rw [if_neg hsize]

end Program
end StencilShapes
