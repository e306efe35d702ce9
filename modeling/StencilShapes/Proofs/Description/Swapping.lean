import StencilShapes.Proofs.Description.Accepted

/-!
# Swapping neighbours

Two operations of a function that stand next to each other may change places when the second
one reads nothing that the first one defines.  Each name is still defined once, and is read
only where it is known.  What makes an operation well-formed is said of names and ranks, and
these do not depend on the order.

**Results.**
* `InOrder.swap`: names stay in order.
* `FunctionDesc.RankOf.of_mem`: ranks do not depend on the order.
* `FunctionDesc.WellFormed.swap`: the function is still well-formed.
* `Description.exists_elaborate`: what is well-formed is accepted.
-/

namespace StencilShapes

namespace InOrder

variable {α : Type} {reads results : α → List String} {known known' : List String}
  {init rest : List α} {a b : α}

/-- It does not matter in which order names became known. -/
theorem of_perm {ops : List α}
    (h : InOrder reads results known ops)
    (hknown : known.Perm known') :
    InOrder reads results known' ops where
  distinct := (hknown.append_right _).nodup_iff.1 h.distinct
  defined before op after hsplit name hname :=
    (h.defined before op after hsplit name hname).imp_left hknown.mem_iff.1

/-- Names stay in order when two neighbours change places, unless the second one reads what
the first one defines. -/
theorem swap (hapart : ∀ name ∈ reads b, name ∉ results a) :
    ∀ {known : List String}, InOrder reads results known (init ++ a :: b :: rest) →
      InOrder reads results known (init ++ b :: a :: rest) := by
  induction init with
  | nil =>
      intro known h
      obtain ⟨ha, h⟩ := cons_iff.1 h
      obtain ⟨hb, h⟩ := cons_iff.1 h
      refine cons_iff.2 ⟨fun name hname => ?_, cons_iff.2 ⟨fun name hname => ?_, h.of_perm ?_⟩⟩
      · exact (List.mem_append.1 (hb name hname)).resolve_right (hapart name hname)
      · exact List.mem_append_left _ (ha name hname)
      · rw [List.append_assoc, List.append_assoc]
        exact List.perm_append_comm.append_left known
  | cons c init ih =>
      intro known h
      obtain ⟨hc, h⟩ := cons_iff.1 h
      exact cons_iff.2 ⟨hc, ih h⟩

end InOrder

namespace FunctionDesc

variable {f f' : FunctionDesc}

/-- The rank of a name follows from the arguments and the operations, in whatever order these
stand. -/
theorem RankOf.of_mem {name : String} {r : Nat}
    (h : f.RankOf name r)
    (hargs : f'.args = f.args)
    (hops : ∀ op ∈ f.ops, op ∈ f'.ops) :
    f'.RankOf name r := by
  induction h with
  | arg ha hname hrank => exact .arg (hargs ▸ ha) hname hrank
  | load hop _ ih => exact .load (hops _ hop) ih
  | apply hop hne _ hname ih => exact .apply (hops _ hop) hne ih hname

theorem OpWellFormed.of_mem {op : OpDesc}
    (h : f.OpWellFormed op)
    (hargs : f'.args = f.args)
    (hops : ∀ op ∈ f.ops, op ∈ f'.ops) :
    f'.OpWellFormed op := by
  cases op with
  | load result field => exact trivial
  | apply results operands params body =>
      obtain ⟨hcount, rank, hrank, hbody⟩ := h
      refine ⟨hcount, rank, ⟨fun x hx => ?_, hrank.of_nil⟩, hbody⟩
      obtain ⟨r, hr, hx⟩ := hrank.of_mem x hx
      exact ⟨r, hr, hx.of_mem hargs hops⟩
  | store value field lower upper =>
      exact ⟨h.ends, h.value.of_mem hargs hops, h.field.of_mem hargs hops⟩

/-- A function stays well-formed when two neighbours change places. -/
theorem WellFormed.swap {init rest : List OpDesc} {a b : OpDesc}
    (h : FunctionDesc.WellFormed { f with ops := init ++ a :: b :: rest })
    (hapart : ∀ name ∈ b.reads, name ∉ a.results) :
    FunctionDesc.WellFormed { f with ops := init ++ b :: a :: rest } := by
  have hperm : (init ++ a :: b :: rest).Perm (init ++ b :: a :: rest) :=
    (List.Perm.swap b a rest).append_left init
  exact ⟨h.inOrder.swap hapart, fun op hop =>
    (h.ops op (hperm.mem_iff.2 hop)).of_mem rfl fun _ hop => hperm.mem_iff.1 hop⟩

end FunctionDesc

namespace Description

/-- Descriptions of well-formed functions are accepted. -/
theorem exists_elaborate {d : Description} (h : ∀ f ∈ d.functions, f.WellFormed) :
    ∃ p, d.elaborate = .ok p :=
  ⟨_, elaborate_eq_ok.2 (Prod.ext rfl ((rejections_of_elaborateFunctions _ _).eq_nil_iff.2 h))⟩

end Description
end StencilShapes
