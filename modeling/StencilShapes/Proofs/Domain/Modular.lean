import StencilShapes.Proofs.Program.Between
import StencilShapes.Proofs.Extent.Modular

/-!
# Inference between others

Inference follows use lists, and those of a program lead to its own operations.  So it
does between others what it does in the program alone: it commits the same bounds under
identifiers that have moved, and it leaves the others as they are.

**Results.**
* `Program.inferOp_between`, `Program.inferOps_between`: inference in one program.
* `Program.inferFunctions_layout`: inference in programs one behind the other.
-/

namespace StencilShapes

section Faults

variable (s : IdSupply)

def Place.shift (place : Place) : Place :=
  { place with op := place.op.map fun x => (x.1.shift s, x.2) }

def Demand.shift (d : Demand) : Demand :=
  { d with
    consumer := d.consumer.shift s
    producer := d.producer.shift s
    value := d.value.shift s }

def DomainFault.shift : DomainFault → DomainFault
  | .extentRank demand => .extentRank (demand.shift s)
  | .widening demand base extent => .widening (demand.shift s) base extent
  | .mixedRank demand rank earlier => .mixedRank (demand.shift s) rank earlier
  | .noShape producer bounds fault => .noShape (producer.shift s) bounds fault
  | .unconsumed producer => .unconsumed (producer.shift s)
  | .emptyDomain producer bounds shape => .emptyDomain (producer.shift s) bounds shape
  | .commit producer fault => .commit (producer.shift s) fault

def Inferred.shift (i : Inferred) : Inferred :=
  { i with op := i.op.shift s }

theorem Place.ofOp_shift (function : String) (o : Operation) :
    ofOp function (o.shift s) = (ofOp function o).shift s := by
  simp [ofOp, Operation.shift, Place.shift]

end Faults

namespace Program

section Demands

variable (p r : Program) {q : Program} {T t : ExtentTable}

theorem domainShape_shift (s : IdSupply) (producer : Place) (b : Bounds) :
    domainShape (producer.shift s) b = (domainShape producer b).mapError (DomainFault.shift s) := by
  rw [domainShape, domainShape]
  cases Point.sub b.upper b.lower with
  | error fault => rfl
  | ok shape =>
      simp only
      split
      · rfl
      · split <;> rfl

theorem widenEnd_shift (s : IdSupply) (d : Demand) (base extent : Point) :
    widenEnd (d.shift s) base extent = (widenEnd d base extent).mapError (DomainFault.shift s) := by
  rw [widenEnd, widenEnd]
  cases Point.add base extent with
  | error fault => cases fault <;> rfl
  | ok b => rfl

variable (hT : ∀ u v, (q.op? u).isSome →
  T.find? (u.shift p.supply) (v.shift p.supply) = t.find? u v)

include hT

theorem demandedBounds_between {u : OpId} (hu : (q.op? u).isSome) (d : Demand) (bounds : Bounds) :
    demandedBounds T (u.shift p.supply) (d.shift p.supply) bounds =
      (demandedBounds t u d bounds).mapError (DomainFault.shift p.supply) := by
  rw [demandedBounds, demandedBounds,
    show (d.shift p.supply).value = d.value.shift p.supply from rfl, hT u d.value hu]
  cases t.find? u d.value with
  | none => rfl
  | some extent =>
      simp only [widenEnd_shift]
      cases widenEnd d bounds.lower extent.negative with
      | error fault => rfl
      | ok lower => cases widenEnd d bounds.upper extent.positive <;> rfl

theorem meetDemand_between (function : String) (producer : Place) (b : Bounds) {use : Use}
    (huse : (q.op? use.user).isSome) :
    (between p r q).meetDemand T function (producer.shift p.supply) b (use.shift p.supply) =
      (q.meetDemand t function producer b use).mapError (DomainFault.shift p.supply) := by
  rw [meetDemand, meetDemand,
    show (use.shift p.supply).user = use.user.shift p.supply from rfl, op?_between p r huse]
  cases ho : q.op? use.user with
  | none => rfl
  | some consumer =>
      simp only [Option.map_some]
      rw [Place.ofOp_shift]
      simp only [Operation.shift, OpKind.bounds?_shift, Use.shift, List.getElem?_map]
      cases consumer.kind.bounds? with
      | none => rfl
      | some bounds =>
          cases consumer.operands[use.operand]? with
          | none => rfl
          | some value =>
              have hneed := demandedBounds_between p hT huse
                { consumer := .ofOp function consumer, producer, operand := use.operand, value }
                bounds
              simp only [Demand.shift] at hneed
              simp only [Option.map_some, hneed]
              generalize demandedBounds t use.user _ bounds = demanded
              cases demanded with
              | error fault => rfl
              | ok need =>
                  simp only [Except.mapError]
                  cases b.hull? need <;> rfl

theorem meetDemands_between (function : String) (producer : Place) {uses : List Use} :
    (∀ use ∈ uses, (q.op? use.user).isSome) → ∀ b : Bounds,
      (between p r q).meetDemands T function (producer.shift p.supply) b
          (uses.map (Use.shift p.supply)) =
        (q.meetDemands t function producer b uses).mapError (DomainFault.shift p.supply) := by
  induction uses with
  | nil => exact fun _ _ => rfl
  | cons use uses ih =>
      intro huses b
      obtain ⟨huse, huses⟩ := List.forall_mem_cons.1 huses
      rw [List.map_cons, meetDemands, meetDemands, meetDemand_between p r hT _ _ _ huse]
      cases q.meetDemand t function producer b use with
      | error fault => rfl
      | ok b' => exact ih huses b'

end Demands

section Writing

variable (p r : Program) {q : Program}

theorem commit_shift (s : IdSupply) (b : Bounds) (k : OpKind) :
    (k.shift s).commit b = OpKind.shift s <$> k.commit b := by
  cases k with
  | load b' => cases b' <;> rfl
  | apply b' body => cases b' <;> rfl
  | _ => rfl

theorem commit_between {u : OpId} (hu : (q.op? u).isSome) (b : Bounds) :
    (between p r q).commit (u.shift p.supply) b = between p r <$> q.commit u b := by
  rw [commit, commit, op?_between p r hu]
  cases q.op? u with
  | none => rfl
  | some o =>
      simp only [Option.map_some, Operation.shift, commit_shift]
      cases o.kind.commit b with
      | error fault => rfl
      | ok kind =>
          exact congrArg Except.ok (modifyOp_between p r (f := fun o => { o with kind })
            (g := fun o => { o with kind := kind.shift p.supply }) (fun _ => rfl) hu)

theorem bodyArg?_between {u : OpId} (hu : (q.op? u).isSome) (operand : Nat) :
    (between p r q).bodyArg? (u.shift p.supply) operand =
      (q.bodyArg? u operand).map (ValueId.shift p.supply) := by
  rw [bodyArg?, bodyArg?, op?_between p r hu]
  cases q.op? u with
  | none => rfl
  | some o =>
      simp only [Option.map_some, Option.bind_some, Operation.shift, OpKind.body?_shift]
      cases o.kind.body? with
      | none => rfl
      | some body => exact List.getElem?_map

theorem setOperandType_between (hq : q.InRange) {u : OpId} (hu : (q.op? u).isSome)
    (operand : Nat) (ty : Ty) :
    (between p r q).setOperandType (u.shift p.supply) operand ty =
      between p r (q.setOperandType u operand ty) := by
  have hdeclared := modifyOp_between p r
    (f := fun o => { o with operandTypes := o.operandTypes.set operand ty })
    (g := fun o => { o with operandTypes := o.operandTypes.set operand ty }) (fun _ => rfl) hu
  rw [setOperandType_eq, setOperandType_eq, bodyArg?_between p r hu, hdeclared]
  cases harg : q.bodyArg? u operand with
  | none => rfl
  | some arg =>
      refine setType_between p r ?_ ty
      obtain ⟨body, hbody, hget⟩ := Option.bind_eq_some_iff.1 harg
      obtain ⟨o, ho, hbody⟩ := Option.bind_eq_some_iff.1 hbody
      exact (hq.arg u o body ho hbody).2 arg (List.mem_of_getElem? hget)

theorem retypeUses_between (ty : Ty) {uses : List Use} :
    ∀ {q : Program}, q.Closed → (∀ use ∈ uses, (q.op? use.user).isSome) →
      (between p r q).retypeUses ty (uses.map (Use.shift p.supply)) =
        between p r (q.retypeUses ty uses) := by
  induction uses with
  | nil => exact fun {_} _ _ => rfl
  | cons use uses ih =>
      intro q hq huses
      obtain ⟨huse, huses⟩ := List.forall_mem_cons.1 huses
      have hshaped : ((between p r q).op? (use.shift p.supply).user).elim false (·.kind.isShaped) =
          (q.op? use.user).elim false (·.kind.isShaped) := by
        rw [show (use.shift p.supply).user = use.user.shift p.supply from rfl,
          op?_between p r huse]
        cases q.op? use.user with
        | none => rfl
        | some o => exact OpKind.isShaped_shift o.kind
      rw [List.map_cons, retypeUses, retypeUses]
      simp only [hshaped]
      split
      · have hframe := sameFrame_setOperandType q use.user use.operand ty
        have hset := setOperandType_between p r hq.inRange huse use.operand ty
        rw [show (use.shift p.supply).user = use.user.shift p.supply from rfl,
          show (use.shift p.supply).operand = use.operand from rfl, hset]
        exact ih (hq.of_sameFrame hframe) fun x hx => (hframe.op?_isSome x.user).trans (huses x hx)
      · exact ih hq huses

theorem isSome_op?_of_mem_usesOf (hq : q.InRange) {v : ValueId} :
    ∀ use ∈ q.usesOf v, (q.op? use.user).isSome := by
  intro use huse
  obtain ⟨o, ho, _⟩ := hq.use v use huse
  rw [ho]
  rfl

theorem retypeResults_between (shape : Point) {vs : List ValueId} :
    ∀ {q : Program}, q.Closed → (∀ v ∈ vs, (q.value? v).isSome) →
      (between p r q).retypeResults shape (vs.map (ValueId.shift p.supply)) =
        between p r (q.retypeResults shape vs) := by
  induction vs with
  | nil => exact fun {_} _ _ => rfl
  | cons v vs ih =>
      intro q hq hvs
      obtain ⟨hv, hvs⟩ := List.forall_mem_cons.1 hvs
      rw [List.map_cons, retypeResults, retypeResults, typeOf_between p r hv]
      cases q.typeOf v with
      | temp element shape' =>
          have hset := sameFrame_setType q v (.temp element (some shape))
          have huses : ∀ use ∈ q.usesOf v, ((q.setType v (.temp element (some shape))).op?
              use.user).isSome := isSome_op?_of_mem_usesOf hq.inRange
          have hframe := hset.trans
            (sameFrame_retypeUses (.temp element (some shape)) (q.usesOf v) _)
          simp only [setType_between p r hv, usesOf_between p r hv]
          rw [retypeUses_between p r _ (hq.of_sameFrame hset) huses]
          exact ih (hq.of_sameFrame hframe) fun w hw => (hframe.value?_isSome w).trans (hvs w hw)
      | _ => exact ih hq hvs

end Writing

end Program

/-- How far inference has come in a program between others. -/
def Inference.between (p r : Program) (x : Inference) : Inference :=
  { program := p.between r x.program
    inferred := x.inferred.map (Inferred.shift p.supply)
    fault := x.fault.map (DomainFault.shift p.supply) }

namespace Program

section Inferring

variable (p r : Program) {T t : ExtentTable}

theorem inferOp_between {q : Program} (hq : q.Closed)
    (hT : ∀ u v, (q.op? u).isSome →
      T.find? (u.shift p.supply) (v.shift p.supply) = t.find? u v)
    (function : String) {u : OpId} {o : Operation} (ho : q.op? u = some o) :
    (between p r q).inferOp T function (o.shift p.supply) =
      (fun x => (between p r x.1, x.2.shift p.supply)) <$>
        (q.inferOp t function o).mapError (DomainFault.shift p.supply) := by
  have hresults : ∀ v ∈ o.results, (q.value? v).isSome := hq.inRange.result u o ho
  have huses : (o.results.map (ValueId.shift p.supply)).flatMap (between p r q).usesOf =
      (o.results.flatMap q.usesOf).map (Use.shift p.supply) := by
    rw [List.flatMap_map, List.map_flatMap]
    exact List.flatMap_congr fun v hv => usesOf_between p r (hresults v hv)
  have husers : ∀ use ∈ o.results.flatMap q.usesOf, (q.op? use.user).isSome := by
    intro use huse
    obtain ⟨v, _, huse⟩ := List.mem_flatMap.1 huse
    exact isSome_op?_of_mem_usesOf hq.inRange use huse
  have hdemands := meetDemands_between p r hT function (.ofOp function o) husers .nil
  have hid : (q.op? o.id).isSome := by
    rw [hq.inRange.op_id u o ho, ho]
    rfl
  rw [inferOp, inferOp, Place.ofOp_shift]
  simp only [Operation.shift, huses, hdemands]
  cases q.meetDemands t function (.ofOp function o) .nil (o.results.flatMap q.usesOf) with
  | error fault => rfl
  | ok bounds =>
      simp only [Except.mapError, domainShape_shift]
      cases domainShape (.ofOp function o) bounds with
      | error fault => rfl
      | ok shape =>
          simp only [commit_between p r hid]
          cases hcommit : q.commit o.id bounds with
          | error fault => rfl
          | ok q' =>
              have hframe := sameFrame_commit hcommit
              have hretype := retypeResults_between p r shape (hq.of_sameFrame hframe)
                fun v hv => (hframe.value?_isSome v).trans (hresults v hv)
              exact congrArg (fun x => Except.ok (x, _)) hretype

theorem inferOps_between (function : String) {us : List OpId} :
    ∀ {q : Program}, q.Closed →
      (∀ u v, (q.op? u).isSome → T.find? (u.shift p.supply) (v.shift p.supply) = t.find? u v) →
      (∀ u ∈ us, (q.op? u).isSome) →
      (between p r q).inferOps T function (us.map (OpId.shift p.supply)) =
        (q.inferOps t function us).between p r := by
  induction us with
  | nil => exact fun {_} _ _ _ => rfl
  | cons u us ih =>
      intro q hq hT hus
      obtain ⟨hu, hus⟩ := List.forall_mem_cons.1 hus
      rw [List.map_cons, inferOps, inferOps, op?_between p r hu]
      cases ho : q.op? u with
      | none => exact ih hq hT hus
      | some o =>
          have hkind : (o.shift p.supply).kind.isInferable = o.kind.isInferable :=
            OpKind.isInferable_shift o.kind
          simp only [Option.map_some, hkind, inferOp_between p r hq hT function ho]
          split
          · cases hok : q.inferOp t function o with
            | error fault => rfl
            | ok x =>
                rcases x with ⟨q', i⟩
                obtain ⟨hframe, _⟩ := inferOp_spec hok
                have hrest := ih (hq.of_sameFrame hframe)
                  (fun u v hu => hT u v ((hframe.op?_isSome u).symm.trans hu))
                  fun x hx => (hframe.op?_isSome x).trans (hus x hx)
                exact congrArg (Inference.cons (i.shift p.supply)) hrest
          · exact ih hq hT hus

/-- Inference in the functions of one program, and then in others. -/
theorem inferFunctions_between (rest : List Function) {fs : List Function} :
    ∀ {q : Program}, q.Closed →
      (∀ u v, (q.op? u).isSome → T.find? (u.shift p.supply) (v.shift p.supply) = t.find? u v) →
      (∀ f ∈ fs, ∀ u ∈ f.body, (q.op? u).isSome) →
      (between p r q).inferFunctions T (fs.map (Function.shift p.supply) ++ rest) =
        let x := q.inferFunctions t fs
        match x.1.fault with
        | some _ => (x.1.between p r, x.2)
        | none =>
            let y := (between p r x.1.program).inferFunctions T rest
            ({ y.1 with inferred := x.1.inferred.map (Inferred.shift p.supply) ++ y.1.inferred },
              x.2 ++ y.2) := by
  induction fs with
  | nil => exact fun {_} _ _ _ => rfl
  | cons f fs ih =>
      intro q hq hT hfs
      obtain ⟨hf, hfs⟩ := List.forall_mem_cons.1 hfs
      have hone : (between p r q).inferFunction T (f.shift p.supply) =
          (q.inferFunction t f).between p r := by
        rw [inferFunction, inferFunction, Function.shift, ← List.map_reverse]
        exact inferOps_between p r f.name hq hT fun u hu => hf u (List.mem_reverse.1 hu)
      have hframe : q.SameFrame (q.inferFunction t f).program :=
        (rewritten_inferOps t f.name _ q).sameFrame
      have hnext := ih (hq.of_sameFrame hframe)
        (fun u v hu => hT u v ((hframe.op?_isSome u).symm.trans hu))
        fun g hg x hx => (hframe.op?_isSome x).trans (hfs g hg x hx)
      rw [List.map_cons, List.cons_append, inferFunctions, inferFunctions]
      by_cases hstencil : f.stencil = true
      · rw [if_pos hstencil, if_pos (show (f.shift p.supply).stencil = true from hstencil)]
        simp only [hone, Inference.between]
        cases hfault : (q.inferFunction t f).fault with
        | some fault => simp [hfault]
        | none =>
            simp only [Option.map_none, hnext]
            cases hrest : ((q.inferFunction t f).program.inferFunctions t fs).1.fault with
            | some fault => simp [Inference.between, hrest]
            | none => simp
      · rw [if_neg hstencil, if_neg (show ¬ (f.shift p.supply).stencil = true from hstencil)]
        simp only [ih hq hT hfs]
        cases (q.inferFunctions t fs).1.fault <;> rfl

end Inferring

section Inferred

variable {t : ExtentTable}

theorem isSome_op?_of_mem_inferOps (function : String) {us : List OpId} :
    ∀ {q : Program}, q.Closed →
      ∀ i ∈ (q.inferOps t function us).inferred, (q.op? i.op).isSome := by
  induction us with
  | nil => exact fun {_} _ => List.forall_mem_nil _
  | cons u us ih =>
      intro q hq
      simp only [inferOps]
      split
      · exact ih hq
      · next o ho =>
          split
          · split
            · exact List.forall_mem_nil _
            · next q' i hok =>
                obtain ⟨hframe, _⟩ := inferOp_spec hok
                refine List.forall_mem_cons.2 ⟨?_, fun j hj => ?_⟩
                · obtain ⟨_, _, _, _, _, _, _, rfl⟩ := inferOp_eq_ok.1 hok
                  rw [hq.inRange.op_id u o ho, ho]
                  rfl
                · exact (hframe.op?_isSome j.op).symm.trans (ih (hq.of_sameFrame hframe) j hj)
          · exact ih hq

theorem isSome_op?_of_mem_inferFunctions {fs : List Function} :
    ∀ {q : Program}, q.Closed →
      ∀ i ∈ (q.inferFunctions t fs).1.inferred, (q.op? i.op).isSome := by
  induction fs with
  | nil => exact fun {_} _ => List.forall_mem_nil _
  | cons f fs ih =>
      intro q hq
      have hone : ∀ i ∈ (q.inferFunction t f).inferred, (q.op? i.op).isSome :=
        isSome_op?_of_mem_inferOps f.name hq
      have hframe : q.SameFrame (q.inferFunction t f).program :=
        (rewritten_inferOps t f.name _ q).sameFrame
      simp only [inferFunctions]
      split
      · split
        · exact hone
        · intro i hi
          rcases List.mem_append.1 hi with hi | hi
          · exact hone i hi
          · exact (hframe.op?_isSome i.op).symm.trans (ih (hq.of_sameFrame hframe) i hi)
      · exact ih hq

end Inferred

/-- Inference in a program with its own extents. -/
def inference (q : Program) : Inference × List String :=
  q.inferFunctions q.table q.functions.toList

theorem sameFrame_inference (q : Program) : q.SameFrame q.inference.1.program :=
  (rewritten_inferFunctions q.table q.functions.toList q).sameFrame

/-- Inference in programs one behind the other is inference in each one alone. -/
theorem inferFunctions_layout {T : ExtentTable} {qs : List Program} :
    (∀ q ∈ qs, q.Closed) → ∀ {p : Program}, T.Serves p.supply qs →
      let x := (p.extend (layout p.supply qs)).inferFunctions T
        (layout p.supply qs).functions.toList
      (x.1.fault = none ↔ ∀ q ∈ qs, q.inference.1.fault = none) ∧
        (x.1.fault = none →
          x.1.program = p.extend (layout p.supply (qs.map fun q => q.inference.1.program)) ∧
          x.1.inferred = layoutLists Inferred.shift p.supply
            (qs.map fun q => (q, q.inference.1.inferred)) ∧
          x.2 = qs.flatMap fun q => q.inference.2) := by
  induction qs with
  | nil => exact fun _ _ _ => ⟨iff_of_true rfl (List.forall_mem_nil _), fun _ => ⟨rfl, rfl, rfl⟩⟩
  | cons q qs ih =>
      intro hqs p hT
      obtain ⟨hq, hqs⟩ := List.forall_mem_cons.1 hqs
      obtain ⟨hfind, hT⟩ := hT
      have hstep := inferFunctions_between p (layout (p.join q).supply qs)
        (layout (p.join q).supply qs).functions.toList hq hfind
        fun f => hq.inRange.isSome_op?_function
      have hsupply : (p.join q.inference.1.program).supply = (p.join q).supply := by
        rw [supply_join, supply_join, (sameFrame_inference q).after]
      rw [supply_join, ← functions_layout_cons, ← supply_join, between,
        ← extend_layout_cons] at hstep
      simp only [hstep, List.forall_mem_cons]
      rw [show q.inferFunctions q.table q.functions.toList = q.inference from rfl]
      cases hfault : q.inference.1.fault with
      | some fault =>
          refine ⟨iff_of_false ?_ fun h => Option.some_ne_none _ h.1, fun h => ?_⟩
          · simp [Inference.between, hfault]
          · simp [Inference.between, hfault] at h
      | none =>
          have hserves : T.Serves (p.join q.inference.1.program).supply qs := by
            rw [hsupply, supply_join]
            exact hT
          obtain ⟨hiff, hsuccess⟩ := ih hqs hserves
          rw [hsupply] at hiff hsuccess
          refine ⟨hiff.trans (and_iff_right rfl).symm, fun h => ?_⟩
          obtain ⟨hprogram, hinferred, hskipped⟩ := hsuccess h
          refine ⟨hprogram.trans ?_, ?_, ?_⟩
          · rw [List.map_cons, extend_layout_cons, hsupply]
          · rw [supply_join p q] at hinferred ⊢
            exact congrArg (q.inference.1.inferred.map (Inferred.shift p.supply) ++ ·) hinferred
          · exact congrArg (q.inference.2 ++ ·) hskipped

/-- Inference in programs one behind the other, with the extents that they have alone. -/
theorem inference_layout {qs : List Program} (hqs : ∀ q ∈ qs, q.Closed)
    (htable : (layout {} qs).table.applies.entries = layoutEntries {} qs) :
    ((layout {} qs).inference.1.fault = none ↔ ∀ q ∈ qs, q.inference.1.fault = none) ∧
      ((layout {} qs).inference.1.fault = none →
        (layout {} qs).inference.1.program =
            layout {} (qs.map fun q => q.inference.1.program) ∧
          (layout {} qs).inference.1.inferred =
            layoutLists Inferred.shift {} (qs.map fun q => (q, q.inference.1.inferred)) ∧
          (layout {} qs).inference.2 = qs.flatMap fun q => q.inference.2) := by
  have hserves : (layout {} qs).table.Serves {} qs :=
    ExtentTable.serves_of_entries (fun q hq => (hqs q hq).inRange) (List.nil_append _ ▸ htable)
      (List.forall_mem_nil _)
  have hrun := inferFunctions_layout hqs (p := {}) hserves
  simp only [empty_extend] at hrun
  exact hrun

end Program
end StencilShapes
