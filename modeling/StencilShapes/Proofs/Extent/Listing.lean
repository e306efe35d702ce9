import StencilShapes.Proofs.Extent.UnrollOrder
import StencilShapes.Report
import Mathlib.Algebra.GroupWithZero.Nat
import Mathlib.Data.List.Sort

/-!
# Listing the extents of a program

A table is met entry by entry, in no particular order.  The entries are sorted by apply and
value, and those of one apply that follow each other go into one group.  Sorting brings the
entries of an apply together, so that each apply gets one group only, and the groups do not
depend on the order in which the entries were met: they are those of the report.

**Results.**
* `ExtentTable.mem_toList`: the entries of a table are what is found in it.
* `ExtentTable.sort_eq_toList`: sorting undoes any order.
* `ApplyExtents.foldl_enter`: grouping entries that are in order.
* `ExtentTable.report_lists_extents`: the report has all extents, each of them once.
-/

namespace StencilShapes

/-- The extent of a value, as an apply reads it. -/
abbrev ExtentEntry := OpId × ValueId × Extent

namespace ExtentEntry

/-- One entry does not come after another one: applies come first, then values. -/
def le (a b : ExtentEntry) : Bool :=
  a.1.index < b.1.index || a.1.index == b.1.index && a.2.1.index ≤ b.2.1.index

theorem le_iff {a b : ExtentEntry} :
    a.le b = true ↔
      a.1.index < b.1.index ∨ a.1.index = b.1.index ∧ a.2.1.index ≤ b.2.1.index := by
  simp [le]

theorem le_trans (a b c : ExtentEntry) (hab : a.le b = true) (hbc : b.le c = true) :
    a.le c = true := by
  rw [le_iff] at *
  omega

theorem le_total (a b : ExtentEntry) : (a.le b || b.le a) = true := by
  rw [Bool.or_eq_true, le_iff, le_iff]
  omega

/-- Entries that do not come after each other are of one apply and one value. -/
theorem keys_eq_of_le {a b : ExtentEntry} (hab : a.le b = true) (hba : b.le a = true) :
    a.1 = b.1 ∧ a.2.1 = b.2.1 := by
  obtain ⟨⟨u⟩, ⟨v⟩, e⟩ := a
  obtain ⟨⟨u'⟩, ⟨v'⟩, e'⟩ := b
  rw [le_iff] at hab hba
  simp only [OpId.mk.injEq, ValueId.mk.injEq]
  simp only at hab hba
  omega

/-- The operand of an entry. -/
def operand (a : ExtentEntry) : OperandExtent :=
  { value := a.2.1, extent := a.2.2 }

end ExtentEntry

namespace ApplyExtents

/-- Puts an operand into the last group, or behind it if that is of another apply. -/
def enter (groups : List ApplyExtents) (a : ExtentEntry) : List ApplyExtents :=
  match groups.getLast? with
  | some last =>
      if last.op = a.1 then
        groups.dropLast ++ [{ last with operands := last.operands ++ [a.operand] }]
      else groups ++ [{ op := a.1, operands := [a.operand] }]
  | none => groups ++ [{ op := a.1, operands := [a.operand] }]

/-- Groups entries of one apply that follow each other. -/
def group (entries : List ExtentEntry) : List ApplyExtents :=
  entries.foldl enter []

end ApplyExtents

namespace ExtentTable

/-- The report on entries that are met in some order. -/
def reportOf (met : List ExtentEntry) : ExtentReport :=
  { applies := ApplyExtents.group (met.mergeSort ExtentEntry.le) }

variable {t : ExtentTable}

section Entries

theorem mem_toList {u : OpId} {v : ValueId} {e : Extent} :
    (u, v, e) ∈ t.toList ↔ t.find? u v = some e := by
  simp only [toList, find?, List.mem_flatMap, List.mem_map, Option.bind_eq_some_iff,
    ← Table.mem_entries_iff]
  constructor
  · rintro ⟨⟨k, es⟩, hk, ⟨j, e'⟩, hj, heq⟩
    cases heq
    exact ⟨es, hk, hj⟩
  · rintro ⟨es, hk, hj⟩
    exact ⟨(u.index, es), hk, (v.index, e), hj, rfl⟩

/-- The entries of a table are in order. -/
theorem pairwise_toList (t : ExtentTable) :
    t.toList.Pairwise fun a b => ExtentEntry.le a b = true := by
  rw [toList, List.pairwise_flatMap]
  constructor
  · rintro ⟨k, es⟩ _
    rw [List.pairwise_map]
    refine (List.pairwise_map.1 es.sorted).imp fun {a b} hab => ?_
    rw [ExtentEntry.le_iff]
    exact Or.inr ⟨rfl, Nat.le_of_lt hab⟩
  · refine (List.pairwise_map.1 t.applies.sorted).imp fun {a b} hab => ?_
    intro x hx y hy
    obtain ⟨_, _, rfl⟩ := List.mem_map.1 hx
    obtain ⟨_, _, rfl⟩ := List.mem_map.1 hy
    rw [ExtentEntry.le_iff]
    exact Or.inl hab

/-- In whichever order the entries are met, sorting brings them into the order of the table. -/
theorem sort_eq_toList {met : List ExtentEntry} (h : met.Perm t.toList) :
    met.mergeSort ExtentEntry.le = t.toList := by
  have hperm : (met.mergeSort ExtentEntry.le).Perm t.toList :=
    (List.mergeSort_perm met ExtentEntry.le).trans h
  have hsorted := List.pairwise_mergeSort ExtentEntry.le_trans ExtentEntry.le_total met
  refine hperm.eq_of_pairwise (fun a b ha hb hab hba => ?_) hsorted t.pairwise_toList
  -- One apply and one value have one extent only.
  obtain ⟨u, v, e⟩ := a
  obtain ⟨u', v', e'⟩ := b
  obtain ⟨rfl, rfl⟩ := ExtentEntry.keys_eq_of_le hab hba
  have he := mem_toList.1 (hperm.mem_iff.1 ha)
  rw [mem_toList.1 hb] at he
  cases he
  rfl

end Entries

end ExtentTable

namespace ApplyExtents

section Grouping

variable {groups : List ApplyExtents} {u : OpId}

/-- Entries of the apply of the last group go into that group. -/
theorem foldl_enter_last (es : List (ValueId × Extent)) :
    ∀ operands : List OperandExtent,
      (es.map fun x => (u, x)).foldl enter (groups ++ [{ op := u, operands }]) =
        groups ++ [{ op := u, operands := operands ++ es.map fun x => ⟨x.1, x.2⟩ }] := by
  induction es with
  | nil => simp
  | cons x es ih =>
      intro operands
      have henter : enter (groups ++ [{ op := u, operands }]) (u, x) =
          groups ++ [{ op := u, operands := operands ++ [⟨x.1, x.2⟩] }] := by
        simp [enter, ExtentEntry.operand]
      rw [List.map_cons, List.foldl_cons, henter, ih, List.append_assoc]
      rfl

/-- Entries of an apply that the last group is not of make up a group of their own. -/
theorem foldl_enter_new (es : List (ValueId × Extent))
    (hes : es ≠ [])
    (hlast : ∀ g ∈ groups.getLast?, g.op ≠ u) :
    (es.map fun x => (u, x)).foldl enter groups =
      groups ++ [{ op := u, operands := es.map fun x => ⟨x.1, x.2⟩ }] := by
  obtain ⟨x, es, rfl⟩ := List.exists_cons_of_ne_nil hes
  have henter : enter groups (u, x) = groups ++ [{ op := u, operands := [⟨x.1, x.2⟩] }] := by
    rw [enter]
    split
    · next g hg => rw [if_neg (hlast g hg)]; rfl
    · rfl
  rw [List.map_cons, List.foldl_cons, henter, foldl_enter_last]
  rfl

/-- The groups of a list of applies, without those that read nothing. -/
def ofEntries (es : List (Nat × Table Extent)) : List ApplyExtents :=
  (es.filter fun x => !x.2.entries.isEmpty).map fun x =>
    { op := ⟨x.1⟩, operands := x.2.entries.map fun y => { value := ⟨y.1⟩, extent := y.2 } }

/-- Applies in order, behind groups of earlier ones, get one group each. -/
theorem foldl_enter (es : List (Nat × Table Extent)) :
    ∀ groups : List ApplyExtents, (es.map Prod.fst).Pairwise (· < ·) →
      (∀ g ∈ groups.getLast?, ∀ k ∈ es.map Prod.fst, g.op.index < k) →
      (es.flatMap fun x => x.2.entries.map fun y =>
          ((⟨x.1⟩, ⟨y.1⟩, y.2) : ExtentEntry)).foldl enter groups =
        groups ++ ofEntries es := by
  induction es with
  | nil => simp [ofEntries]
  | cons x es ih =>
      intro groups hsorted hlast
      obtain ⟨hx, hsorted⟩ := List.pairwise_cons.1 hsorted
      rw [List.flatMap_cons, List.foldl_append]
      by_cases hempty : x.2.entries = []
      · -- An apply that reads nothing has no entries.
        have hrest : ofEntries (x :: es) = ofEntries es := by simp [ofEntries, hempty]
        rw [hempty, hrest]
        exact ih groups hsorted fun g hg k hk => hlast g hg k (List.mem_cons_of_mem _ hk)
      · have hgroup : ofEntries (x :: es) =
            { op := ⟨x.1⟩
              operands := x.2.entries.map fun y => { value := ⟨y.1⟩, extent := y.2 } } ::
              ofEntries es := by simp [ofEntries, hempty]
        have hother : ∀ g ∈ groups.getLast?, g.op ≠ ⟨x.1⟩ := fun g hg heq => by
          have hlt := hlast g hg x.1 List.mem_cons_self
          rw [heq] at hlt
          exact Nat.lt_irrefl _ hlt
        have hnew := foldl_enter_new (x.2.entries.map fun y => (⟨y.1⟩, y.2))
          (by simpa using hempty) hother
        simp only [List.map_map, Function.comp_def] at hnew
        rw [hnew, hgroup, ih _ hsorted, List.append_assoc]
        · rfl
        · intro g hg k hk
          obtain rfl : _ = g := by simpa using hg
          exact hx k hk

end Grouping

end ApplyExtents

namespace ExtentTable

variable {t : ExtentTable}

/-- The report on the entries of a table, in whichever order they are met. -/
theorem reportOf_eq_report {met : List ExtentEntry} (h : met.Perm t.toList) :
    reportOf met = t.report := by
  have hgroups := ApplyExtents.foldl_enter t.applies.entries [] t.applies.sorted (by simp)
  rw [reportOf, sort_eq_toList h]
  exact congrArg ExtentReport.mk hgroups

/-- The applies of a report come from those of the table. -/
theorem mem_report {a : ApplyExtents} :
    a ∈ t.report.applies ↔
      ∃ es, t.applies.find? a.op.index = some es ∧ es.entries ≠ [] ∧
        a.operands = es.entries.map fun y => { value := ⟨y.1⟩, extent := y.2 } := by
  simp only [report, List.mem_map, List.mem_filter, ← Table.mem_entries_iff]
  constructor
  · rintro ⟨⟨k, es⟩, ⟨hk, hne⟩, rfl⟩
    exact ⟨es, hk, by simpa using hne, rfl⟩
  · rintro ⟨es, hk, hne, hoperands⟩
    refine ⟨(a.op.index, es), ⟨hk, by simpa using hne⟩, ?_⟩
    rw [← hoperands]

theorem find?_eq_some {u : OpId} {v : ValueId} {e : Extent} :
    t.find? u v = some e ↔
      ∃ es, t.applies.find? u.index = some es ∧ (v.index, e) ∈ es.entries := by
  simp only [find?, Option.bind_eq_some_iff, ← Table.mem_entries_iff]

/-- What is found in a table is listed, and nothing else. -/
theorem exists_mem_report {u : OpId} {v : ValueId} {e : Extent} :
    (∃ a ∈ t.report.applies, a.op = u ∧ ⟨v, e⟩ ∈ a.operands) ↔ t.find? u v = some e := by
  rw [find?_eq_some]
  constructor
  · rintro ⟨a, ha, rfl, hmem⟩
    obtain ⟨es, hes, _, hoperands⟩ := mem_report.1 ha
    rw [hoperands] at hmem
    obtain ⟨⟨k, e'⟩, hk, heq⟩ := List.mem_map.1 hmem
    cases heq
    exact ⟨es, hes, hk⟩
  · rintro ⟨es, hes, hmem⟩
    exact ⟨⟨u, _⟩, mem_report.2 ⟨es, hes, List.ne_nil_of_mem hmem, rfl⟩, rfl,
      List.mem_map.2 ⟨_, hmem, rfl⟩⟩

/-- An apply is listed exactly when an extent is found for one of its operands. -/
theorem exists_op_report {u : OpId} :
    (∃ a ∈ t.report.applies, a.op = u) ↔ ∃ v e, t.find? u v = some e := by
  constructor
  · rintro ⟨a, ha, rfl⟩
    obtain ⟨es, hes, hne, _⟩ := mem_report.1 ha
    obtain ⟨⟨k, e⟩, hmem⟩ := List.exists_mem_of_ne_nil _ hne
    exact ⟨⟨k⟩, e, find?_eq_some.2 ⟨es, hes, hmem⟩⟩
  · rintro ⟨v, e, he⟩
    obtain ⟨a, ha, hop, _⟩ := exists_mem_report.2 he
    exact ⟨a, ha, hop⟩

/-- The number of extents is the sum of those of the applies. -/
theorem size_eq_sum (t : ExtentTable) :
    t.size = (t.applies.entries.map fun x => x.2.entries.length).sum := by
  rw [size, toList, List.length_flatMap]
  simp

/-- As many operands are listed as there are extents. -/
theorem sum_operands_report (t : ExtentTable) :
    (t.report.applies.map (·.operands.length)).sum = t.size := by
  rw [size_eq_sum, report, List.map_map]
  induction t.applies.entries with
  | nil => rfl
  | cons x es ih => by_cases hempty : x.2.entries = [] <;> simp_all [Function.comp_def]

/-- The report lists the applies for which an extent is recorded, each of them once and in
order, and for each apply its operands, likewise.  An operand is listed with the extent that is
found for it, and with no other; as many are listed as there are extents.  The report does not
depend on the order in which the entries of the table are met before they are sorted. -/
theorem report_lists_extents (t : ExtentTable) :
    (∀ met : List ExtentEntry, met.Perm t.toList → reportOf met = t.report) ∧
      (t.report.applies.map (·.op.index)).Pairwise (· < ·) ∧
      (∀ a ∈ t.report.applies, (a.operands.map (·.value.index)).Pairwise (· < ·)) ∧
      (∀ u, (∃ a ∈ t.report.applies, a.op = u) ↔ ∃ v e, t.find? u v = some e) ∧
      (∀ u v e, (∃ a ∈ t.report.applies, a.op = u ∧ ⟨v, e⟩ ∈ a.operands) ↔
        t.find? u v = some e) ∧
      (t.report.applies.map (·.operands.length)).sum = t.size ∧
      t.size = (t.applies.entries.map fun x => x.2.entries.length).sum := by
  refine ⟨fun met => reportOf_eq_report, ?_, fun a ha => ?_, fun u => exists_op_report,
    fun u v e => exists_mem_report, sum_operands_report t, size_eq_sum t⟩
  · have hsorted := List.pairwise_map.1 t.applies.sorted
    rw [report, List.map_map]
    exact List.pairwise_map.2 (hsorted.sublist List.filter_sublist)
  · obtain ⟨es, _, _, hoperands⟩ := mem_report.1 ha
    rw [hoperands, List.map_map]
    exact es.sorted

/-- Two applies, one of them with two operands. -/
def crossing : ExtentTable :=
  { applies :=
      { entries :=
          [(3, { entries := [(1, .single [])], sorted := by decide }),
            (7, { entries := [(2, .single []), (4, .single [.one])], sorted := by decide })]
        sorted := by decide } }

theorem report_lists_extents_crossing :
    reportOf [(⟨7⟩, ⟨4⟩, .single [.one]), (⟨3⟩, ⟨1⟩, .single []), (⟨7⟩, ⟨2⟩, .single [])] =
        crossing.report ∧
      crossing.report.applies.map (fun a => (a.op.index, a.operands.map (·.value.index))) =
        [(3, [1]), (7, [2, 4])] := by
  obtain ⟨hany, _⟩ := report_lists_extents crossing
  exact ⟨hany _ (by decide), rfl⟩

end ExtentTable
end StencilShapes
