import StencilShapes.Proofs.Description.Elaborated
import StencilShapes.Proofs.Domain.Run

/-!
# The domain of an operation by chains of uses

Inference widens a box one use at a time.  Unrolled over a whole function, this is a
statement about chains: each chain of uses from an operation to a store asks for the
bounds of the store, moved by the extents on the way, and the domain of the operation
is the least box that meets all of them.  The sums are taken over the integers; no
step of inference has left the range.

**Results.**
* `Program.Progress.le_of_useChain`: the domain meets what each chain asks for.
* `Program.Progress.exists_useChain`: each end of the domain is asked for by some chain.
* `Description.bounds_span_use_chains`: the domain is the least box that meets all
  chains.
-/

namespace StencilShapes
namespace Program

/-- A chain of uses in a function, from an operation to the bounds of a store.  Each
link is an operation with the value that it reads. -/
inductive UseChain (p : Program) (f : Function) : OpId → List (OpId × ValueId) → Bounds → Prop
  | store {x u : OpId} {v : ValueId} {ou : Operation} {b : Bounds} :
      p.Reads x v u →
      u ∈ f.body →
      p.op? u = some ou →
      ou.kind = .store b →
      UseChain p f x [(u, v)] b
  | link {x u : OpId} {v : ValueId} {links : List (OpId × ValueId)} {b : Bounds} :
      p.Reads x v u →
      u ∈ f.body →
      UseChain p f u links b →
      UseChain p f x ((u, v) :: links) b

/-- The lower end that a chain asks for. -/
def chainLower (t : ExtentTable) (links : List (OpId × ValueId)) (b : Bounds) (d : Nat) : Int :=
  b.lower.coord d + (links.map fun link => t.negativeAt link.1 link.2 d).sum

/-- The upper end that a chain asks for. -/
def chainUpper (t : ExtentTable) (links : List (OpId × ValueId)) (b : Bounds) (d : Nat) : Int :=
  b.upper.coord d + (links.map fun link => t.positiveAt link.1 link.2 d).sum

theorem chainLower_cons (t : ExtentTable) (u : OpId) (v : ValueId)
    (links : List (OpId × ValueId)) (b : Bounds) (d : Nat) :
    chainLower t ((u, v) :: links) b d = chainLower t links b d + t.negativeAt u v d := by
  simp only [chainLower, List.map_cons, List.sum_cons]
  omega

theorem chainUpper_cons (t : ExtentTable) (u : OpId) (v : ValueId)
    (links : List (OpId × ValueId)) (b : Bounds) (d : Nat) :
    chainUpper t ((u, v) :: links) b d = chainUpper t links b d + t.positiveAt u v d := by
  simp only [chainUpper, List.map_cons, List.sum_cons]
  omega

variable {p q : Program} {t : ExtentTable} {f : Function} {x u : OpId} {v : ValueId}

/-- What starts a chain is read by something. -/
theorem UseChain.reads {links : List (OpId × ValueId)} {b : Bounds}
    (h : p.UseChain f x links b) :
    ∃ v u, p.Reads x v u := by
  cases h with
  | store hr => exact ⟨_, _, hr⟩
  | link hr => exact ⟨_, _, hr⟩

/-- What is read and stands in a function is a load or an apply. -/
theorem Reads.isInferable {o : Operation}
    (hs : p.Scoped)
    (hf : f ∈ p.functions.toList)
    (hx : x ∈ f.body)
    (ho : p.op? x = some o)
    (h : p.Reads x v u) :
    o.kind.isInferable = true := by
  rcases h with ⟨ox, _, hox, hv, _⟩
  obtain rfl : o = ox := Option.some.inj (ho.symm.trans hox)
  obtain ⟨o', ho', hshaped⟩ := hs.body f hf x hx
  obtain rfl : o = o' := Option.some.inj (ho.symm.trans ho')
  exact hs.isInferable_of_mem_results ho hshaped hv

namespace Progress

variable {done : OpId → Prop}

/-- What reads a settled operation has bounds of the same rank. -/
theorem reader_bounds {o : Operation} {r : Nat}
    (h : p.Progress t done q)
    (hc : p.Coherent) (hs : p.Scoped)
    (hdone : ∀ u, p.Reads x v u → done u)
    (ho : p.op? x = some o)
    (hr : p.OpRank o r)
    (hreads : p.Reads x v u) :
    ∃ ou c, p.op? u = some ou ∧ q.boundsOf u = some c ∧ p.OpRank ou r ∧ c.Ranked r ∧
      p.HasRank v r ∧ (ou.kind = .store c ∨ ou.kind.isInferable = true) := by
  obtain ⟨_, ou, _, _, hou, hshaped, _⟩ := id hreads
  obtain ⟨c, s, hb, hs', hranked⟩ := h.bounds_of_done hs hou hshaped (hdone u hreads)
  obtain ⟨rfl, hv⟩ := rank_of_reads hc ho hou hr hs' hreads
  refine ⟨ou, c, hou, hb, hs', hranked, hv, ?_⟩
  cases hk : ou.kind.isInferable with
  | true => exact Or.inr rfl
  | false =>
      obtain ⟨c', hc'⟩ := OpKind.exists_store hshaped hk
      obtain ⟨ou', hou', hkind, _⟩ := h.frame.exists_op_eq hou hk
      rw [boundsOf, hou', Option.bind_some, hkind, hc'] at hb
      cases hb
      exact Or.inl hc'

/-- A settled operation spans its demands with the rank that it has. -/
theorem spans_of_done {o : Operation} {b : Bounds} {r : Nat}
    (h : p.Progress t done q)
    (ho : p.op? x = some o)
    (hk : o.kind.isInferable = true)
    (hdone : done x)
    (hb : q.boundsOf x = some b)
    (hranked : b.Ranked r) :
    b.Spans r (p.lowerNeeds t q.boundsOf x) (p.upperNeeds t q.boundsOf x) := by
  obtain ⟨_, c, s, _, _, hc, hspans⟩ := (h.settled ho hk hdone).spans
  obtain rfl : b = c := Option.some.inj (hb.symm.trans hc)
  obtain rfl : r = s := hranked.1.symm.trans hspans.ranked.1
  exact hspans

/-- The domain of an operation meets what each chain asks for. -/
theorem le_of_useChain {links : List (OpId × ValueId)} {c : Bounds}
    (h : p.Progress t done q)
    (hc : p.Coherent) (hs : p.Scoped)
    (hf : f ∈ p.functions.toList)
    (hdone : ∀ u ∈ f.body, done u)
    (hchain : p.UseChain f x links c) :
    ∀ {o b r}, x ∈ f.body → p.op? x = some o → o.kind.isInferable = true → p.OpRank o r →
      q.boundsOf x = some b → b.Ranked r →
      c.Ranked r ∧ ∀ d < r, b.lower.coord d ≤ chainLower t links c d ∧
        chainUpper t links c d ≤ b.upper.coord d := by
  have hreaders : ∀ {x v u}, x ∈ f.body → p.Reads x v u → done u := fun hx hr =>
    hdone _ (mem_body_of_reads hc hs hf hx hr).1
  induction hchain with
  | @store x u v ou b₀ hreads _ hou hk₀ =>
      intro o b r hx ho hk hr hb hranked
      have hspans := h.spans_of_done ho hk (hdone x hx) hb hranked
      obtain ⟨ou', c, hou', hcu, _, hcr, _, hkind⟩ :=
        h.reader_bounds hc hs (fun u => hreaders hx) ho hr hreads
      obtain rfl : ou = ou' := Option.some.inj (hou.symm.trans hou')
      obtain rfl : c = b₀ := by
        rw [hk₀] at hkind
        rcases hkind with hkind | hkind
        · cases hkind
          rfl
        · cases hkind
      refine ⟨hcr, fun d hd => ?_⟩
      have hd' : d < c.rank := hcr.rank_eq.symm ▸ hd
      have hlower := (hspans.isLeast d hd).2 ⟨v, u, c, hreads, hcu, hd', rfl⟩
      have hupper := (hspans.isGreatest d hd).2 ⟨v, u, c, hreads, hcu, hd', rfl⟩
      simp only [chainLower, chainUpper, List.map_cons, List.map_nil, List.sum_cons, List.sum_nil]
      omega
  | @link x u v links c₀ hreads hu hrest ih =>
      intro o b r hx ho hk hr hb hranked
      have hspans := h.spans_of_done ho hk (hdone x hx) hb hranked
      obtain ⟨ou, c, hou, hcu, hur, hcr, _, _⟩ :=
        h.reader_bounds hc hs (fun u => hreaders hx) ho hr hreads
      rcases hrest.reads with ⟨_, _, hreads'⟩
      obtain ⟨hc₀, hle⟩ := ih hu hou (hreads'.isInferable hs hf hu hou) hur hcu hcr
      refine ⟨hc₀, fun d hd => ?_⟩
      have hd' : d < c.rank := hcr.rank_eq.symm ▸ hd
      have hlower := (hspans.isLeast d hd).2 ⟨v, u, c, hreads, hcu, hd', rfl⟩
      have hupper := (hspans.isGreatest d hd).2 ⟨v, u, c, hreads, hcu, hd', rfl⟩
      obtain ⟨hle₁, hle₂⟩ := hle d hd
      rw [chainLower_cons, chainUpper_cons]
      omega

/-- Each end of the domain of an operation is asked for by some chain. -/
theorem exists_useChain
    (h : p.Progress t done q)
    (hc : p.Coherent) (hs : p.Scoped)
    (hf : f ∈ p.functions.toList)
    (hdone : ∀ u ∈ f.body, done u) :
    ∀ {x o b r}, x ∈ f.body → p.op? x = some o → o.kind.isInferable = true → p.OpRank o r →
      q.boundsOf x = some b → b.Ranked r → ∀ d < r,
      (∃ links c, p.UseChain f x links c ∧ b.lower.coord d = chainLower t links c d) ∧
        ∃ links c, p.UseChain f x links c ∧ b.upper.coord d = chainUpper t links c d := by
  intro x
  -- What reads a result stands behind the operation, so the distance to the end decreases.
  generalize hn : p.ops.size - x.index = n
  induction n using Nat.strong_induction_on generalizing x with
  | _ n ih =>
      intro o b r hx ho hk hr hb hranked d hd
      have hspans := h.spans_of_done ho hk (hdone x hx) hb hranked
      -- A reader is a store, or it is asked for by chains itself.
      have hstep : ∀ {v u}, p.Reads x v u → ∃ c, q.boundsOf u = some c ∧
          (∃ links c', p.UseChain f x ((u, v) :: links) c' ∧
            c.lower.coord d = chainLower t links c' d) ∧
          ∃ links c', p.UseChain f x ((u, v) :: links) c' ∧
            c.upper.coord d = chainUpper t links c' d := by
        intro v u hreads
        obtain ⟨hu, hlt⟩ := mem_body_of_reads hc hs hf hx hreads
        obtain ⟨ou, c, hou, hcu, hur, hcr, _, hstore | hinf⟩ :=
          h.reader_bounds hc hs
            (fun u hr => hdone u (mem_body_of_reads hc hs hf hx hr).1) ho hr hreads
        · refine ⟨c, hcu, ⟨[], c, .store hreads hu hou hstore, ?_⟩,
            [], c, .store hreads hu hou hstore, ?_⟩
          · simp [chainLower]
          · simp [chainUpper]
        · have hsmall : p.ops.size - u.index < n := by
            have := op?_lt hou
            omega
          obtain ⟨⟨links, c₁, hchain, hlow⟩, links', c₂, hchain', hup⟩ :=
            ih _ hsmall rfl hu hou hinf hur hcu hcr d hd
          exact ⟨c, hcu, ⟨links, c₁, .link hreads hu hchain, hlow⟩,
            links', c₂, .link hreads hu hchain', hup⟩
      constructor
      · obtain ⟨v, u, c, hreads, hcu, _, hlow⟩ := (hspans.isLeast d hd).1
        obtain ⟨c', hcu', ⟨links, c₁, hchain, hlow'⟩, _⟩ := hstep hreads
        obtain rfl : c = c' := Option.some.inj (hcu.symm.trans hcu')
        exact ⟨_, c₁, hchain, by rw [chainLower_cons, hlow, hlow']⟩
      · obtain ⟨v, u, c, hreads, hcu, _, hup⟩ := (hspans.isGreatest d hd).1
        obtain ⟨c', hcu', _, links, c₂, hchain, hup'⟩ := hstep hreads
        obtain rfl : c = c' := Option.some.inj (hcu.symm.trans hcu')
        exact ⟨_, c₂, hchain, by rw [chainUpper_cons, hup, hup']⟩

end Progress
end Program

/-- The least box that meets what all chains from an operation ask for. -/
structure Program.IsChainBox (p : Program) (t : ExtentTable) (f : Function) (x : OpId)
    (b : Bounds) : Prop where
  ranked : b.Ranked b.rank
  nonempty : ∃ links c, p.UseChain f x links c
  /-- All chains end in bounds of this rank. -/
  chain_ranked : ∀ links c, p.UseChain f x links c → c.Ranked b.rank
  /-- The lower end is the least one that is asked for. -/
  isLeast : ∀ d < b.rank,
    IsLeast {n | ∃ links c, p.UseChain f x links c ∧ n = chainLower t links c d}
      (b.lower.coord d)
  /-- The upper end is the greatest one that is asked for. -/
  isGreatest : ∀ d < b.rank,
    IsGreatest {n | ∃ links c, p.UseChain f x links c ∧ n = chainUpper t links c d}
      (b.upper.coord d)

/-- The bounds that inference commits are the least box that meets all chains of uses. -/
theorem Description.bounds_span_use_chains {d : Description} {p q : Program} {t : ExtentTable}
    {s : ShapeSummary} {f : Function} {x : OpId} {o : Operation}
    (hload : d.elaborate = .ok p)
    (hextents : p.extents = .ok t)
    (hinfer : p.inferShapes t = (q, s, none))
    (hf : f ∈ p.functions.toList)
    (hstencil : f.stencil = true)
    (hx : x ∈ f.body)
    (ho : p.op? x = some o)
    (hk : o.kind.isInferable = true) :
    ∃ b, q.boundsOf x = some b ∧ p.IsChainBox t f x b := by
  have hc := Description.coherent_of_elaborate hload
  have hs := Description.scoped_of_elaborate hload
  have h := Program.progress_of_inferShapes hc hs (Program.measured_of_extents hc hextents) hinfer
  have hdone : ∀ u ∈ f.body, Program.InStencil p.functions.toList u := fun u hu =>
    ⟨f, hf, hstencil, hu⟩
  have hsettled := h.settled ho hk (hdone x hx)
  rcases hsettled.spans with ⟨o', b, r, ho', hr, hb, hspans⟩
  obtain rfl : o = o' := Option.some.inj (ho.symm.trans ho')
  obtain rfl := hspans.ranked.rank_eq
  have hle := fun links c (hchain : p.UseChain f x links c) =>
    h.le_of_useChain hc hs hf hdone hchain hx ho hk hr hb hspans.ranked
  have hattained := h.exists_useChain hc hs hf hdone hx ho hk hr hb hspans.ranked
  have hpos : 0 < b.rank := by
    rcases hsettled.admissible.used with ⟨v, u, r, hreads, hv, hr'⟩
    obtain ⟨_, _, _, _, _, _, hv', _⟩ := h.reader_bounds hc hs
      (fun u hr => hdone u (Program.mem_body_of_reads hc hs hf hx hr).1) ho hr hreads
    rwa [← hv.unique hv']
  refine ⟨b, hb, hspans.ranked, ?_, fun links c hchain => (hle links c hchain).1, ?_, ?_⟩
  · obtain ⟨⟨links, c, hchain, _⟩, _⟩ := hattained 0 hpos
    exact ⟨links, c, hchain⟩
  · refine fun i hi => ⟨(hattained i hi).1, ?_⟩
    rintro n ⟨links, c, hchain, rfl⟩
    exact ((hle links c hchain).2 i hi).1
  · refine fun i hi => ⟨(hattained i hi).2, ?_⟩
    rintro n ⟨links, c, hchain, rfl⟩
    exact ((hle links c hchain).2 i hi).2

/-- A smoothing step that computes two cells at once; its input is stored as well. -/
def Description.smoothing : Description :=
  { functions :=
      [{ name := "smooth"
         stencil := true
         args :=
           [{ name := "in", element := .f64, rank := 1 },
             { name := "out", element := .f64, rank := 1 }]
         ops :=
           [.load "t" "in",
             .apply ["u"] ["t"] ["a"]
               [.access "l" "a" [{ val := -1 }], .access "r" "a" [.one],
                 .arith "s" .add "l" "r", .ret ["s", "r"] (some [{ val := 2 }])],
             .store "u" "out" [{ val := 0 }] [{ val := 8 }],
             .store "t" "out" [{ val := 0 }] [{ val := 16 }]] }] }

namespace Program

/-- The program of the smoothing step. -/
def smoothing : Program :=
  (elaborateFunctions {} Description.smoothing.functions).1

/-- The extents of the smoothing step. -/
def smoothingExtents : ExtentTable :=
  smoothing.extents.toOption.getD .empty

/-- The function of the smoothing step: a load, an apply and two stores. -/
def smoothingFunction : Function :=
  { name := "smooth", stencil := true, args := [⟨0⟩, ⟨1⟩], body := [⟨0⟩, ⟨1⟩, ⟨6⟩, ⟨7⟩] }

/-- The smoothing step with its domains and shapes. -/
def smoothingShaped : Program :=
  (smoothing.inferShapes smoothingExtents).1

theorem elaborate_smoothing : Description.smoothing.elaborate = .ok smoothing := by
  rfl

theorem extents_smoothing : smoothing.extents = .ok smoothingExtents := by
  rfl

theorem inferShapes_smoothing :
    smoothing.inferShapes smoothingExtents =
      (smoothingShaped, (smoothing.inferShapes smoothingExtents).2.1, none) := by
  have hfault : (smoothing.inferShapes smoothingExtents).2.2 = none := by decide
  rw [smoothingShaped]
  generalize smoothing.inferShapes smoothingExtents = r at hfault
  rw [← hfault]

theorem op?_smoothing :
    smoothing.op? ⟨0⟩ =
      some
        { id := ⟨0⟩, kind := .load none, operands := [⟨0⟩], operandTypes := [.field .f64 1]
          results := [⟨2⟩], parent := none } := by
  rfl

end Program

theorem Description.bounds_span_use_chains_smoothing :
    ∃ b, Program.smoothingShaped.boundsOf ⟨0⟩ = some b ∧
      Program.smoothing.IsChainBox Program.smoothingExtents Program.smoothingFunction ⟨0⟩ b :=
  Description.bounds_span_use_chains Program.elaborate_smoothing Program.extents_smoothing
    Program.inferShapes_smoothing (by decide) rfl (by decide) Program.op?_smoothing rfl

end StencilShapes
