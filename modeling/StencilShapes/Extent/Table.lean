import StencilShapes.Extent.Basic
import StencilShapes.Program.Basic

/-!
# Tables of extents

A table holds entries under natural numbers, in strictly increasing order, so
that each key occurs once and the order of insertion leaves no trace.  Extents
are kept in two layers: by apply, then by the value that the apply reads.

**Main statements.**
* `Table.find?_insert`: an insertion is seen under its key and nowhere else.
-/

namespace StencilShapes

/-- Entries in strictly increasing order of their keys. -/
structure Table (α : Type) where
  entries : List (Nat × α)
  /-- Each key is less than all that follow. -/
  sorted : (entries.map Prod.fst).Pairwise (· < ·)

namespace Table

variable {α β ε : Type}

def empty : Table α :=
  { entries := [], sorted := List.Pairwise.nil }

/-- The entry under a key. -/
def find? (t : Table α) (key : Nat) : Option α :=
  t.entries.lookup key

/-- Puts an entry in its place, or in the place of an earlier one under the same key. -/
def insertEntry (key : Nat) (a : α) : List (Nat × α) → List (Nat × α)
  | [] => [(key, a)]
  | (k, b) :: rest =>
      if key < k then (key, a) :: (k, b) :: rest
      else if key = k then (key, a) :: rest
      else (k, b) :: insertEntry key a rest

theorem mem_keys_insertEntry {key k : Nat} {a : α} {es : List (Nat × α)} :
    k ∈ (insertEntry key a es).map Prod.fst ↔ k = key ∨ k ∈ es.map Prod.fst := by
  induction es with
  | nil => simp [insertEntry]
  | cons e es ih =>
      obtain ⟨k', b⟩ := e
      simp only [insertEntry]
      split
      · simp
      · split
        · next h => simp [h]
        · simp only [List.map_cons, List.mem_cons, ih]
          exact or_left_comm

theorem sorted_insertEntry {key : Nat} {a : α} {es : List (Nat × α)}
    (h : (es.map Prod.fst).Pairwise (· < ·)) :
    ((insertEntry key a es).map Prod.fst).Pairwise (· < ·) := by
  induction es with
  | nil => simp [insertEntry]
  | cons e es ih =>
      obtain ⟨k, b⟩ := e
      have hk := List.pairwise_cons.1 h
      simp only [insertEntry]
      split
      · next hlt =>
          refine List.pairwise_cons.2 ⟨fun x hx => ?_, h⟩
          rcases List.mem_cons.1 hx with rfl | hx
          · exact hlt
          · exact Nat.lt_trans hlt (hk.1 x hx)
      · split
        · next heq => exact List.pairwise_cons.2 ⟨fun x hx => heq ▸ hk.1 x hx, hk.2⟩
        · next hlt heq =>
            refine List.pairwise_cons.2 ⟨fun x hx => ?_, ih hk.2⟩
            rcases mem_keys_insertEntry.1 hx with rfl | hx
            · show k < x
              omega
            · exact hk.1 x hx

theorem lookup_insertEntry {key k : Nat} {a : α} {es : List (Nat × α)} :
    (insertEntry key a es).lookup k = if k = key then some a else es.lookup k := by
  induction es with
  | nil => simp only [insertEntry, List.lookup_cons, List.lookup_nil]; grind
  | cons e es ih =>
      obtain ⟨k', b⟩ := e
      simp only [insertEntry]
      split
      · grind
      · split <;> grind

/-- The table with an entry, in place of an earlier one under the same key. -/
def insert (t : Table α) (key : Nat) (a : α) : Table α :=
  { entries := insertEntry key a t.entries, sorted := sorted_insertEntry t.sorted }

theorem find?_insert {t : Table α} {key k : Nat} {a : α} :
    (t.insert key a).find? k = if k = key then some a else t.find? k :=
  lookup_insertEntry

/-- Changes all entries, in the order of their keys, until one cannot be changed. -/
def changeEntries (f : α → Except ε β) :
    (es : List (Nat × α)) → Except ε { bs : List (Nat × β) // bs.map Prod.fst = es.map Prod.fst }
  | [] => .ok ⟨[], rfl⟩
  | (k, a) :: es =>
      match f a with
      | .error fault => .error fault
      | .ok b =>
          match changeEntries f es with
          | .error fault => .error fault
          | .ok bs => .ok ⟨(k, b) :: bs.1, by simp [bs.2]⟩

/-- The table with all entries changed. -/
def change (f : α → Except ε β) (t : Table α) : Except ε (Table β) :=
  match changeEntries f t.entries with
  | .error fault => .error fault
  | .ok bs => .ok { entries := bs.1, sorted := by rw [bs.2]; exact t.sorted }

end Table

/-- The extent of each value that an apply reads, by apply and by value. -/
structure ExtentTable where
  applies : Table (Table Extent)

namespace ExtentTable

def empty : ExtentTable := ⟨Table.empty⟩

/-- The extent of a value as an operation reads it; none if it is never accessed there. -/
def find? (t : ExtentTable) (op : OpId) (value : ValueId) : Option Extent :=
  (t.applies.find? op.index).bind (·.find? value.index)

/-- The table with the extents of one apply; an apply that accesses nothing leaves no trace. -/
def insert (t : ExtentTable) (op : OpId) (extents : Table Extent) : ExtentTable :=
  if extents.entries.isEmpty then t else ⟨t.applies.insert op.index extents⟩

/-- All extents, ordered by apply and then by value. -/
def toList (t : ExtentTable) : List (OpId × ValueId × Extent) :=
  t.applies.entries.flatMap fun (op, extents) =>
    extents.entries.map fun (value, e) => (⟨op⟩, ⟨value⟩, e)

def size (t : ExtentTable) : Nat :=
  t.toList.length

end ExtentTable

end StencilShapes
