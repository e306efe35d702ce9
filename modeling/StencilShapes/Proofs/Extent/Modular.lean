import StencilShapes.Proofs.Program.Between
import StencilShapes.Extent.Analysis

/-!
# Extents between others

The extents of an apply come from its body, and the applies of one program are entered
behind those of the programs before it.  So a program has the extents between others that
it has alone, under identifiers that have moved.

**Results.**
* `Program.applyExtents_between`: the extents of one apply.
* `Program.foldFunctions_layout`: those of programs one behind the other.
-/

namespace StencilShapes

namespace Table

variable {α β ε : Type}

/-- The table with its keys moved. -/
def shift (n : Nat) (t : Table α) : Table α :=
  { entries := t.entries.map fun e => (n + e.1, e.2)
    sorted := by
      rw [List.map_map]
      have hsorted := t.sorted
      rw [List.pairwise_map] at hsorted ⊢
      exact hsorted.imp fun h => Nat.add_lt_add_left h n }

theorem eq_of_entries {t u : Table α} (h : t.entries = u.entries) : t = u := by
  rcases t with ⟨es, _⟩
  rcases u with ⟨fs, _⟩
  cases h
  rfl

theorem lookup_shift (n k : Nat) (g : α → β) (es : List (Nat × α)) :
    (es.map fun e => (n + e.1, g e.2)).lookup (n + k) = (es.lookup k).map g := by
  induction es with
  | nil => rfl
  | cons e es ih =>
      rw [List.map_cons, List.lookup_cons, List.lookup_cons, ih,
        show (n + k == n + e.1) = (k == e.1) by simp]
      cases k == e.1 <;> rfl

theorem find?_shift (n k : Nat) (t : Table α) : (t.shift n).find? (n + k) = t.find? k :=
  (lookup_shift n k id t.entries).trans Option.map_id_apply

theorem insertEntry_shift (n k : Nat) (a : α) (g : α → β) (es : List (Nat × α)) :
    insertEntry (n + k) (g a) (es.map fun e => (n + e.1, g e.2)) =
      (insertEntry k a es).map fun e => (n + e.1, g e.2) := by
  induction es with
  | nil => rfl
  | cons e es ih =>
      simp only [List.map_cons, insertEntry, Nat.add_lt_add_iff_left, Nat.add_left_cancel_iff, ih]
      split
      · rfl
      · split <;> rfl

theorem insert_shift (n k : Nat) (a : α) (t : Table α) :
    (t.shift n).insert (n + k) a = (t.insert k a).shift n :=
  eq_of_entries (insertEntry_shift n k a id t.entries)

/-- A key above all others goes to the end. -/
theorem insertEntry_append {key : Nat} {a : α} {es es' : List (Nat × α)}
    (h : ∀ e ∈ es, e.1 < key) :
    insertEntry key a (es ++ es') = es ++ insertEntry key a es' := by
  induction es with
  | nil => rfl
  | cons e es ih =>
      obtain ⟨he, hes⟩ := List.forall_mem_cons.1 h
      rw [List.cons_append, insertEntry, if_neg (Nat.not_lt.2 (Nat.le_of_lt he)),
        if_neg (Nat.ne_of_gt he), ih hes, List.cons_append]

/-- A change of a table is a change of its list of entries. -/
theorem entries_change (f : α → Except ε β) (t : Table α) :
    Table.entries <$> t.change f = t.entries.mapM fun e => (fun b => (e.1, b)) <$> f e.2 := by
  have hentries : ∀ es : List (Nat × α), (fun bs => bs.1) <$> changeEntries f es =
      es.mapM fun e => (fun b => (e.1, b)) <$> f e.2 := by
    intro es
    induction es with
    | nil => rfl
    | cons e es ih =>
        rw [List.mapM_cons, ← ih, changeEntries]
        cases f e.2 with
        | error fault => rfl
        | ok b => cases changeEntries f es <;> rfl
  rw [← hentries, change]
  cases changeEntries f t.entries <;> rfl

theorem change_shift (f : α → Except ε β) (n : Nat) (t : Table α) :
    (t.shift n).change f = shift n <$> t.change f := by
  have hlist : ∀ es : List (Nat × α),
      (es.map fun e => (n + e.1, e.2)).mapM (fun e => (fun b => (e.1, b)) <$> f e.2) =
        List.map (fun e => (n + e.1, e.2)) <$> es.mapM fun e => (fun b => (e.1, b)) <$> f e.2 := by
    intro es
    induction es with
    | nil => rfl
    | cons e es ih =>
        simp only [List.map_cons, List.mapM_cons, ih, map_bind, bind_map_left, map_pure]
  have hentries : Table.entries <$> (t.shift n).change f =
      Table.entries <$> (shift n <$> t.change f) := by
    rw [entries_change, shift, hlist, ← entries_change, ← comp_map, ← comp_map]
    rfl
  revert hentries
  cases (t.shift n).change f <;> cases t.change f <;> intro hentries
  · cases hentries
    rfl
  · cases hentries
  · cases hentries
  · exact congrArg Except.ok (eq_of_entries (Except.ok.inj hentries))

end Table

def Access.shift (s : IdSupply) (a : Access) : Access :=
  { a with op := a.op.shift s, value := a.value.shift s }

def ExtentFault.shift (s : IdSupply) : ExtentFault → ExtentFault
  | .access op fault => .access (op.shift s) fault
  | .unroll op fault => .unroll (op.shift s) fault

namespace Program

/-- The extents of an apply that has moved. -/
def shiftExtents (s : IdSupply) :
    Except ExtentFault (Table Extent) → Except ExtentFault (Table Extent)
  | .ok extents => .ok (extents.shift s.nextValue)
  | .error fault => .error (fault.shift s)

theorem lookup_zip_shift (s : IdSupply) (arg : ValueId) (args operands : List ValueId) :
    ((args.map (ValueId.shift s)).zip (operands.map (ValueId.shift s))).lookup (arg.shift s) =
      ((args.zip operands).lookup arg).map (ValueId.shift s) := by
  rw [List.zip_map]
  induction args.zip operands with
  | nil => rfl
  | cons x xs ih =>
      have hkey : (arg.shift s == x.1.shift s) = (arg == x.1) := by
        rw [Bool.eq_iff_iff, beq_iff_eq, beq_iff_eq, ValueId.shift_inj]
      rw [List.map_cons, List.lookup_cons, List.lookup_cons, Prod.map_fst, hkey, ih]
      cases arg == x.1 <;> rfl

theorem access?_shift (s : IdSupply) (body : Block) (operands : List ValueId) (o : Operation) :
    access? (body.shift s) (operands.map (ValueId.shift s)) (o.shift s) =
      (access? body operands o).map (Access.shift s) := by
  rcases o with ⟨id, kind, args, tys, results, parent⟩
  cases kind with
  | access offset =>
      cases args with
      | nil => rfl
      | cons arg args =>
          simp only [access?, Operation.shift, OpKind.shift, List.map_cons, List.head?_cons,
            Block.shift, lookup_zip_shift, Option.map_map]
          rfl
  | _ => rfl

theorem foldAccesses_shift (s : IdSupply) (as : List Access) :
    ∀ t : Table Extent,
      foldAccesses (t.shift s.nextValue) (as.map (Access.shift s)) =
        shiftExtents s (foldAccesses t as) := by
  induction as with
  | nil => exact fun _ => rfl
  | cons a as ih =>
      intro t
      have hinsert : ∀ e, (t.shift s.nextValue).insert (a.value.shift s).index e =
          (t.insert a.value.index e).shift s.nextValue := fun e => Table.insert_shift _ _ e t
      have hfind : (t.shift s.nextValue).find? (a.value.shift s).index =
          t.find? a.value.index := Table.find?_shift _ _ t
      simp only [List.map_cons, foldAccesses, Access.shift, hfind, hinsert]
      cases t.find? a.value.index with
      | none => exact ih _
      | some e =>
          simp only
          cases e.widen a.offset with
          | error fault => rfl
          | ok e' => exact ih _

section Between

variable (p r : Program) {q : Program} (hq : q.InRange)

include hq

theorem accesses_between {u : OpId} {o : Operation} (ho : q.op? u = some o) :
    (between p r q).accesses (o.shift p.supply) =
      (q.accesses o).map (Access.shift p.supply) := by
  have hbody := hq.isSome_op?_body ho
  simp only [accesses, Operation.shift, OpKind.body?_shift]
  cases h : o.kind.body? with
  | none => rfl
  | some body =>
      rw [h] at hbody
      simp only [Option.map_some, Block.shift]
      have hops : ∀ x ∈ body.ops, (q.op? x).isSome := hbody
      rw [opsAt_between p r hops, List.filterMap_map, List.map_filterMap]
      exact List.filterMap_congr fun x _ => access?_shift p.supply body o.operands x

theorem unroll?_between {u : OpId} {o : Operation} (ho : q.op? u = some o) :
    (between p r q).unroll? (o.shift p.supply) =
      (q.unroll? o).map fun x => (x.1.shift p.supply, x.2) := by
  rw [unroll?, unroll?, terminator?_between p r hq ho]
  cases q.terminator? o with
  | none => rfl
  | some last =>
      rcases last with ⟨id, kind, operands, tys, results, parent⟩
      cases kind with
      | ret unroll => cases unroll <;> rfl
      | _ => rfl

theorem applyExtents_between {u : OpId} {o : Operation} (ho : q.op? u = some o) :
    (between p r q).applyExtents (o.shift p.supply) =
      shiftExtents p.supply (q.applyExtents o) := by
  have hfold := foldAccesses_shift p.supply (q.accesses o) .empty
  rw [show Table.shift p.supply.nextValue Table.empty = (Table.empty : Table Extent) from rfl]
    at hfold
  rw [applyExtents, applyExtents, accesses_between p r hq ho, unroll?_between p r hq ho, hfold]
  cases foldAccesses .empty (q.accesses o) with
  | error fault => rfl
  | ok extents =>
      simp only [shiftExtents]
      cases q.unroll? o with
      | none => rfl
      | some last =>
          simp only [Option.map_some, Table.change_shift]
          cases extents.change (·.unroll last.2) <;> rfl

end Between
end Program

namespace ExtentTable

/-- A table that a program has alone, behind the table `T` of programs before it. -/
def behind (T : ExtentTable) (s : IdSupply) (hT : ∀ e ∈ T.applies.entries, e.1 < s.nextOp)
    (t : ExtentTable) : ExtentTable :=
  ⟨{ entries :=
      T.applies.entries ++
        t.applies.entries.map fun e => (s.nextOp + e.1, e.2.shift s.nextValue)
     sorted := by
      have hsorted := t.applies.sorted
      rw [List.pairwise_map] at hsorted
      rw [List.map_append, List.map_map, List.pairwise_append]
      refine ⟨T.applies.sorted, ?_, ?_⟩
      · rw [List.pairwise_map]
        exact hsorted.imp fun h => Nat.add_lt_add_left h _
      · intro k hk l hl
        obtain ⟨e, he, rfl⟩ := List.mem_map.1 hk
        obtain ⟨e', _, rfl⟩ := List.mem_map.1 hl
        exact Nat.lt_of_lt_of_le (hT e he) (Nat.le_add_right _ _) }⟩

variable {T : ExtentTable} {s : IdSupply} {hT : ∀ e ∈ T.applies.entries, e.1 < s.nextOp}

theorem insert_behind (t : ExtentTable) (u : OpId) (extents : Table Extent) :
    (T.behind s hT t).insert (u.shift s) (extents.shift s.nextValue) =
      T.behind s hT (t.insert u extents) := by
  have hempty : (extents.shift s.nextValue).entries.isEmpty = extents.entries.isEmpty :=
    List.isEmpty_map
  rw [insert, insert, hempty]
  split
  · rfl
  · refine congrArg ExtentTable.mk (Table.eq_of_entries ?_)
    have hkeys : ∀ e ∈ T.applies.entries, e.1 < s.nextOp + u.index := fun e he =>
      Nat.lt_of_lt_of_le (hT e he) (Nat.le_add_right _ _)
    exact (Table.insertEntry_append hkeys).trans
      (congrArg _ (Table.insertEntry_shift _ _ _ (Table.shift s.nextValue) _))

theorem behind_empty : T.behind s hT .empty = T := by
  refine congrArg ExtentTable.mk (Table.eq_of_entries ?_)
  exact List.append_nil _

end ExtentTable

namespace Program

/-- A walk finds operations of the program. -/
theorem exists_op?_of_mem_walk {q : Program} {us : List OpId} {o : Operation}
    (h : o ∈ q.walk us) :
    ∃ u, q.op? u = some o := by
  obtain ⟨a, ha, ho⟩ := List.mem_flatMap.1 h
  rcases List.mem_cons.1 ho with rfl | ho
  · obtain ⟨u, _, hu⟩ := List.mem_filterMap.1 ha
    exact ⟨u, hu⟩
  · obtain ⟨u, _, hu⟩ := List.mem_filterMap.1 ho
    exact ⟨u, hu⟩

section Between

variable (p r : Program) {q : Program} (hq : q.InRange)
variable (T : ExtentTable) (hT : ∀ e ∈ T.applies.entries, e.1 < p.supply.nextOp)

include hq

theorem foldApplies_between {os : List Operation} :
    (∀ o ∈ os, ∃ u, q.op? u = some o) → ∀ t : ExtentTable,
      (between p r q).foldApplies (T.behind p.supply hT t) (os.map (Operation.shift p.supply)) =
        match q.foldApplies t os with
        | .ok t => .ok (T.behind p.supply hT t)
        | .error fault => .error (fault.shift p.supply) := by
  induction os with
  | nil => exact fun _ _ => rfl
  | cons o os ih =>
      intro hos t
      obtain ⟨⟨u, ho⟩, hos⟩ := List.forall_mem_cons.1 hos
      have hextents := applyExtents_between p r hq ho
      rw [List.map_cons, foldApplies, foldApplies, hextents]
      simp only [Operation.shift]
      cases o.kind with
      | apply bounds body =>
          simp only [OpKind.shift]
          cases q.applyExtents o with
          | error fault => rfl
          | ok extents =>
              simp only [shiftExtents, ExtentTable.insert_behind]
              exact ih hos _
      | _ => exact ih hos t

/-- The extents of the functions of one program, and then those of others. -/
theorem foldFunctions_between (rest : List Function) {fs : List Function} :
    (∀ f ∈ fs, ∀ u ∈ f.body, (q.op? u).isSome) → ∀ t : ExtentTable,
      ((between p r q).foldFunctions (T.behind p.supply hT t)
          (fs.map (Function.shift p.supply) ++ rest)).toOption =
        (q.foldFunctions t fs).toOption.bind fun t' =>
          ((between p r q).foldFunctions (T.behind p.supply hT t') rest).toOption := by
  induction fs with
  | nil => exact fun _ _ => rfl
  | cons f fs ih =>
      intro hfs t
      obtain ⟨hf, hfs⟩ := List.forall_mem_cons.1 hfs
      rw [List.map_cons, List.cons_append, foldFunctions, foldFunctions]
      by_cases hstencil : f.stencil = true
      · have hwalk : ∀ o ∈ q.walk f.body, ∃ u, q.op? u = some o := fun o =>
          exists_op?_of_mem_walk
        rw [if_pos hstencil, if_pos (show (f.shift p.supply).stencil = true from hstencil)]
        simp only [Function.shift, walk_between p r hq hf, foldApplies_between p r hq T hT hwalk]
        cases q.foldApplies t (q.walk f.body) with
        | error fault => rfl
        | ok t' => exact ih hfs t'
      · rw [if_neg hstencil, if_neg (show ¬ (f.shift p.supply).stencil = true from hstencil)]
        exact ih hfs t

end Between

/-- The extents of a program, and none if they cannot be found. -/
def table (q : Program) : ExtentTable :=
  q.extents.toOption.getD .empty

theorem extents_eq_table {q : Program} (h : q.extents.toOption.isSome) :
    q.extents = .ok q.table := by
  unfold table
  cases ht : q.extents with
  | ok t => rfl
  | error e =>
      rw [ht] at h
      cases h

section Keys

variable {q : Program} {n : Nat}

theorem key_lt_of_foldApplies {os : List Operation} :
    (∀ o ∈ os, o.id.index < n) → ∀ {t t' : ExtentTable}, q.foldApplies t os = .ok t' →
      (∀ e ∈ t.applies.entries, e.1 < n) → ∀ e ∈ t'.applies.entries, e.1 < n := by
  induction os with
  | nil =>
      intro _ t t' h ht
      cases h
      exact ht
  | cons o os ih =>
      intro hos t t' h ht
      obtain ⟨ho, hos⟩ := List.forall_mem_cons.1 hos
      simp only [foldApplies] at h
      split at h
      · split at h
        · next extents _ =>
            refine ih hos h fun e he => ?_
            rw [ExtentTable.insert] at he
            split at he
            · exact ht e he
            · rcases Table.mem_keys_insertEntry.1 (List.mem_map_of_mem he) with hkey | hkey
              · rw [hkey]
                exact ho
              · obtain ⟨e', he', hkey⟩ := List.mem_map.1 hkey
                rw [← hkey]
                exact ht e' he'
        · cases h
      · exact ih hos h ht

/-- The extents of a program are those of its applies. -/
theorem key_lt_of_extents (hq : q.InRange) {t : ExtentTable} (h : q.extents = .ok t) :
    ∀ e ∈ t.applies.entries, e.1 < q.ops.size := by
  have hops : ∀ {us : List OpId}, ∀ o ∈ q.walk us, o.id.index < q.ops.size := by
    intro us o ho
    obtain ⟨u, hu⟩ := exists_op?_of_mem_walk ho
    rw [hq.op_id u o hu, ← isSome_op?, hu]
    rfl
  have hfold : ∀ {fs : List Function} {t t' : ExtentTable}, q.foldFunctions t fs = .ok t' →
      (∀ e ∈ t.applies.entries, e.1 < q.ops.size) →
        ∀ e ∈ t'.applies.entries, e.1 < q.ops.size := by
    intro fs
    induction fs with
    | nil =>
        intro t t' h ht
        cases h
        exact ht
    | cons f fs ih =>
        intro t t' h ht
        simp only [foldFunctions] at h
        split at h
        · split at h
          · next hok => exact ih h (key_lt_of_foldApplies hops hok ht)
          · cases h
        · exact ih h ht
  exact hfold h (List.forall_mem_nil _)

theorem key_lt_of_mem_table (hq : q.InRange) : ∀ e ∈ q.table.applies.entries, e.1 < q.ops.size := by
  rw [table]
  cases ht : q.extents with
  | error d => exact List.forall_mem_nil _
  | ok t => exact key_lt_of_extents hq ht

end Keys

/-- The entries of programs one behind the other, from `s` on. -/
def layoutEntries (s : IdSupply) (qs : List Program) : List (Nat × Table Extent) :=
  layoutLists (fun s e => (s.nextOp + e.1, e.2.shift s.nextValue)) s
    (qs.map fun q => (q, q.table.applies.entries))

/-- Programs one behind the other have the extents that each one has alone. -/
theorem foldFunctions_layout {qs : List Program} :
    (∀ q ∈ qs, q.InRange) → ∀ {p : Program} {T : ExtentTable},
      (∀ e ∈ T.applies.entries, e.1 < p.supply.nextOp) →
      let run := ((p.extend (layout p.supply qs)).foldFunctions T
        (layout p.supply qs).functions.toList).toOption
      (run.isSome ↔ ∀ q ∈ qs, q.extents.toOption.isSome) ∧
        ∀ T', run = some T' →
          T'.applies.entries = T.applies.entries ++ layoutEntries p.supply qs := by
  induction qs with
  | nil =>
      intro _ p T _
      refine ⟨iff_of_true rfl (List.forall_mem_nil _), fun T' hT' => ?_⟩
      obtain rfl : T = T' := Option.some.inj hT'
      exact (List.append_nil _).symm
  | cons q qs ih =>
      intro hqs p T hT
      obtain ⟨hq, hqs⟩ := List.forall_mem_cons.1 hqs
      have hstep := foldFunctions_between p (layout (p.join q).supply qs) hq T hT
        (layout (p.join q).supply qs).functions.toList (fun f => hq.isSome_op?_function) .empty
      rw [ExtentTable.behind_empty, supply_join, ← functions_layout_cons, ← supply_join, between,
        ← extend_layout_cons] at hstep
      simp only [hstep, List.forall_mem_cons, layoutEntries, List.map_cons, layoutLists]
      rw [show q.foldFunctions .empty q.functions.toList = q.extents from rfl]
      cases ht : q.extents with
      | error d =>
          refine ⟨iff_of_false Bool.false_ne_true fun h => Bool.false_ne_true h.1, fun T' h => ?_⟩
          cases h
      | ok t =>
          have hT' : ∀ e ∈ (T.behind p.supply hT t).applies.entries,
              e.1 < (p.join q).supply.nextOp := by
            rw [supply_join]
            intro e he
            rcases List.mem_append.1 he with he | he
            · exact Nat.lt_of_lt_of_le (hT e he) (Nat.le_add_right _ _)
            · obtain ⟨e', he', rfl⟩ := List.mem_map.1 he
              exact Nat.add_lt_add_left (key_lt_of_extents hq ht e' he') _
          obtain ⟨hsome, hentries⟩ := ih hqs hT'
          rw [extend_layout_cons]
          refine ⟨hsome.trans (and_iff_right rfl).symm, fun T' h => ?_⟩
          rw [hentries T' h, supply_join, table, ht]
          exact List.append_assoc _ _ _

theorem le_key_of_mem_layoutEntries {s : IdSupply} {qs : List Program} :
    ∀ e ∈ layoutEntries s qs, s.nextOp ≤ e.1 :=
  le_key_of_mem_layoutLists (fun _ _ => Nat.le_add_right _ _) _ s

/-- The extents of programs one behind the other. -/
theorem extents_layout {qs : List Program} (hqs : ∀ q ∈ qs, q.InRange) :
    ((layout {} qs).extents.toOption.isSome ↔ ∀ q ∈ qs, q.extents.toOption.isSome) ∧
      ((layout {} qs).extents.toOption.isSome →
        (layout {} qs).table.applies.entries = layoutEntries {} qs) := by
  have hrun := foldFunctions_layout hqs (p := {}) (T := .empty) (List.forall_mem_nil _)
  rw [empty_extend] at hrun
  refine ⟨hrun.1, fun hsome => ?_⟩
  obtain ⟨T, hT⟩ := Option.isSome_iff_exists.1 hsome
  rw [table, hT]
  exact hrun.2 T hT

end Program

namespace ExtentTable

open Program

/-- Each program finds in the table, behind those before it, what it finds in its own. -/
def Serves (T : ExtentTable) : IdSupply → List Program → Prop
  | _, [] => True
  | s, q :: qs =>
      (∀ u v, (q.op? u).isSome → T.find? (u.shift s) (v.shift s) = q.table.find? u v) ∧
        T.Serves (s.after q) qs

theorem find?_of_entries {T : ExtentTable} {s : IdSupply} {q : Program}
    {before after : List (Nat × Table Extent)}
    (hT : T.applies.entries = before ++
      (q.table.applies.entries.map (fun e => (s.nextOp + e.1, e.2.shift s.nextValue)) ++ after))
    (hbefore : ∀ e ∈ before, e.1 < s.nextOp)
    (hafter : ∀ e ∈ after, (s.after q).nextOp ≤ e.1)
    {u : OpId} (hu : (q.op? u).isSome) (v : ValueId) :
    T.find? (u.shift s) (v.shift s) = q.table.find? u v := by
  have hlt := isSome_op?.1 hu
  have hnone : ∀ {es : List (Nat × Table Extent)}, (∀ e ∈ es, s.nextOp + u.index ≠ e.1) →
      es.lookup (s.nextOp + u.index) = none := fun hne =>
    List.lookup_eq_none_iff.2 fun e he => bne_iff_ne.2 (hne e he)
  have hlookup : T.applies.find? (s.nextOp + u.index) =
      (q.table.applies.find? u.index).map (Table.shift s.nextValue) := by
    rw [Table.find?, hT, List.lookup_append, List.lookup_append, Table.lookup_shift,
      hnone fun e he => Nat.ne_of_gt (Nat.lt_of_lt_of_le (hbefore e he) (Nat.le_add_right _ _)),
      hnone fun e he => Nat.ne_of_lt (Nat.lt_of_lt_of_le (Nat.add_lt_add_left hlt _) (hafter e he)),
      Option.none_or, Option.or_none]
    rfl
  rw [find?, find?, OpId.shift, hlookup]
  cases q.table.applies.find? u.index with
  | none => rfl
  | some extents => exact Table.find?_shift _ _ extents

theorem serves_of_entries {T : ExtentTable} {qs : List Program} :
    ∀ {before : List (Nat × Table Extent)} {s : IdSupply}, (∀ q ∈ qs, q.InRange) →
      T.applies.entries = before ++ layoutEntries s qs →
      (∀ e ∈ before, e.1 < s.nextOp) → T.Serves s qs := by
  induction qs with
  | nil => exact fun _ _ _ => trivial
  | cons q qs ih =>
      intro before s hqs hT hbefore
      obtain ⟨hq, hqs⟩ := List.forall_mem_cons.1 hqs
      refine ⟨fun u v hu => find?_of_entries hT hbefore le_key_of_mem_layoutEntries hu v, ?_⟩
      refine ih hqs (hT.trans (List.append_assoc _ _ _).symm) fun e he => ?_
      rcases List.mem_append.1 he with he | he
      · exact Nat.lt_of_lt_of_le (hbefore e he) (Nat.le_add_right _ _)
      · obtain ⟨e', he', rfl⟩ := List.mem_map.1 he
        exact Nat.add_lt_add_left (key_lt_of_mem_table hq e' he') _

end ExtentTable
end StencilShapes
