import StencilShapes.Description.Basic
import Mathlib.Algebra.BigOperators.Group.List.Basic
import Mathlib.Algebra.Ring.Int.Defs
import Mathlib.Data.Int.Order.Basic
import Mathlib.Data.List.Nodup
import Mathlib.Data.List.Pairwise

/-!
# Well-formed descriptions

What makes a description sensible, said of names and ranks alone and without building
anything.  In a function and in the body of an apply alike, names are defined once and
read only where they are known.  A name of a function has a rank, which is declared for
an argument, and which a load and an apply pass on.

**Results.**
* `InOrder.cons_iff`, `BodyWellFormed.cons_iff`: the first operation and the rest.
* `InOrder.reads_eq_nil`: where nothing is known from the start, nothing is read.
* `FunctionDesc.RankOf.unique`: a name has one rank at most.
-/

namespace StencilShapes

section InOrder

variable {α : Type}

/-- Names are defined once, and read only where they are known. -/
structure InOrder (reads results : α → List String) (known : List String) (ops : List α) :
    Prop where
  distinct : (known ++ ops.flatMap results).Nodup
  /-- What is read is known from the start, or an earlier operation defines it. -/
  defined : ∀ before op after, ops = before ++ op :: after → ∀ name ∈ reads op,
    name ∈ known ∨ ∃ earlier ∈ before, name ∈ results earlier

namespace InOrder

variable {reads results : α → List String} {known : List String} {op : α} {ops : List α}

theorem nil_iff : InOrder reads results known [] ↔ known.Nodup := by
  refine ⟨fun h => by simpa using h.distinct, fun h => ⟨by simpa using h, ?_⟩⟩
  intro before op after hsplit
  cases before <;> cases hsplit

theorem cons_iff :
    InOrder reads results known (op :: ops) ↔
      (∀ name ∈ reads op, name ∈ known) ∧ InOrder reads results (known ++ results op) ops := by
  have hdistinct : known ++ (op :: ops).flatMap results =
      known ++ results op ++ ops.flatMap results := by
    rw [List.flatMap_cons, List.append_assoc]
  constructor
  · intro h
    refine ⟨fun name hname => ?_, hdistinct ▸ h.distinct, ?_⟩
    · rcases h.defined [] op ops rfl name hname with hknown | ⟨_, hnil, _⟩
      · exact hknown
      · cases hnil
    · intro before op' after hsplit name hname
      rcases h.defined (op :: before) op' after (by rw [hsplit]; rfl) name hname with
        hknown | ⟨earlier, hmem, hdef⟩
      · exact Or.inl (List.mem_append_left _ hknown)
      · rcases List.mem_cons.1 hmem with rfl | hmem
        · exact Or.inl (List.mem_append_right _ hdef)
        · exact Or.inr ⟨earlier, hmem, hdef⟩
  · rintro ⟨hreads, h⟩
    refine ⟨hdistinct.symm ▸ h.distinct, ?_⟩
    intro before op' after hsplit name hname
    rcases List.cons_eq_append_iff.1 hsplit with ⟨rfl, heq⟩ | ⟨before', rfl, hrest⟩
    · cases heq
      exact Or.inl (hreads name hname)
    · rcases h.defined before' op' after hrest name hname with hknown | ⟨earlier, hmem, hdef⟩
      · rcases List.mem_append.1 hknown with hknown | hdef
        · exact Or.inl hknown
        · exact Or.inr ⟨op, List.mem_cons_self, hdef⟩
      · exact Or.inr ⟨earlier, List.mem_cons_of_mem _ hmem, hdef⟩

/-- Where nothing is known from the start and whatever defines a name reads one, nothing
is read. -/
theorem reads_eq_nil (hsource : ∀ op, results op ≠ [] → reads op ≠ []) :
    ∀ {ops : List α}, InOrder reads results [] ops → ∀ op ∈ ops, reads op = [] := by
  intro ops
  induction ops with
  | nil => exact fun _ op hop => by cases hop
  | cons op ops ih =>
      intro h
      obtain ⟨hreads, hrest⟩ := cons_iff.1 h
      have hnone : reads op = [] := List.eq_nil_iff_forall_not_mem.2 fun name hname => by
        cases hreads name hname
      have hresults : results op = [] := by
        by_contra hne
        exact hsource op hne hnone
      rw [hresults] at hrest
      intro op' hop'
      rcases List.mem_cons.1 hop' with rfl | hop'
      · exact hnone
      · exact ih hrest op' hop'

end InOrder

/-- Operations that define a common name are the same. -/
theorem eq_of_mem_results {results : α → List String} {ops : List α} {a b : α} {name : String}
    (h : (ops.flatMap results).Nodup)
    (ha : a ∈ ops) (hb : b ∈ ops)
    (hname : name ∈ results a) (hname' : name ∈ results b) :
    a = b := by
  by_contra hne
  have hdisjoint := (List.nodup_flatMap.1 h).2
  have hsymm : Std.Symm (Function.onFun List.Disjoint results) := ⟨fun _ _ h _ hx hy => h hy hx⟩
  exact hdisjoint.forall ha hb hne hname hname'

end InOrder

namespace BodyOpDesc

/-- The names that an operation reads. -/
def reads : BodyOpDesc → List String
  | .access _ param _ => [param]
  | .arith _ _ lhs rhs => [lhs, rhs]
  | .ret operands _ => operands

/-- The names that an operation defines. -/
def results : BodyOpDesc → List String
  | .access result _ _ => [result]
  | .arith result _ _ _ => [result]
  | .ret _ _ => []

/-- What an access reads. -/
def param? : BodyOpDesc → Option String
  | .access _ param _ => some param
  | _ => none

/-- The offset of an access, or the unroll of a return. -/
def point? : BodyOpDesc → Option Point
  | .access _ _ offset => some offset
  | .ret _ unroll => unroll
  | _ => none

def isReturn : BodyOpDesc → Bool
  | .ret _ _ => true
  | _ => false

theorem reads_ne_nil {op : BodyOpDesc} (h : op.results ≠ []) : op.reads ≠ [] := by
  cases op with
  | access result param offset => exact List.cons_ne_nil _ _
  | arith result operator lhs rhs => exact List.cons_ne_nil _ _
  | ret operands unroll => exact absurd rfl h

/-- An operation fits into a body with some parameters, whose apply may have a rank. -/
structure Fits (params : List String) (rank : Option Nat) (op : BodyOpDesc) : Prop where
  /-- An access reads a parameter. -/
  param : ∀ name, op.param? = some name → name ∈ params
  point : ∀ r, rank = some r → ∀ pt, op.point? = some pt → pt.length = r

end BodyOpDesc

/-- How many returned values make up one result: the product of the unroll. -/
def unrollVolume (unroll : Option Point) : Int :=
  unroll.elim 1 fun u => (u.map Coord.val).prod

/-- So many returned values make up so many results. -/
structure Yields (values : Nat) (unroll : Option Point) (results : Nat) : Prop where
  volume_pos : 1 ≤ unrollVolume unroll
  volume_le : unrollVolume unroll ≤ 9223372036854775807
  count : (values : Int) = unrollVolume unroll * results

/-- The last operation is the only return, and it yields a number of results. -/
def Returns (results : Nat) (body : List BodyOpDesc) : Prop :=
  ∃ init operands unroll, body = init ++ [.ret operands unroll] ∧
    (∀ op ∈ init, op.isReturn = false) ∧ Yields operands.length unroll results

theorem Returns.not_nil {n : Nat} : ¬ Returns n [] := by
  rintro ⟨init, operands, unroll, hsplit, _⟩
  cases init <;> cases hsplit

theorem Returns.cons_iff {n : Nat} {op : BodyOpDesc} {ops : List BodyOpDesc}
    (hop : op.isReturn = false) :
    Returns n (op :: ops) ↔ Returns n ops := by
  constructor
  · rintro ⟨init, operands, unroll, hsplit, hinit, hyields⟩
    rcases List.cons_eq_append_iff.1 hsplit with ⟨_, heq⟩ | ⟨init', rfl, hrest⟩
    · cases heq
      cases hop
    · exact ⟨init', operands, unroll, hrest,
        fun x hx => hinit x (List.mem_cons_of_mem _ hx), hyields⟩
  · rintro ⟨init, operands, unroll, rfl, hinit, hyields⟩
    exact ⟨op :: init, operands, unroll, rfl, List.forall_mem_cons.2 ⟨hop, hinit⟩, hyields⟩

theorem Returns.ret_iff {n : Nat} {operands : List String} {unroll : Option Point}
    {ops : List BodyOpDesc} :
    Returns n (.ret operands unroll :: ops) ↔ ops = [] ∧ Yields operands.length unroll n := by
  constructor
  · rintro ⟨init, operands', unroll', hsplit, hinit, hyields⟩
    rcases List.cons_eq_append_iff.1 hsplit with ⟨_, heq⟩ | ⟨init', rfl, _⟩
    · cases heq
      exact ⟨rfl, hyields⟩
    · cases hinit _ List.mem_cons_self
  · rintro ⟨rfl, hyields⟩
    exact ⟨[], operands, unroll, rfl, List.forall_mem_nil _, hyields⟩

/-- The rest of the body of an apply: `known` has the parameters and what earlier
operations of the body define. -/
structure BodyWellFormed (params : List String) (rank : Option Nat) (results : Nat)
    (known : List String) (body : List BodyOpDesc) : Prop where
  inOrder : InOrder BodyOpDesc.reads BodyOpDesc.results known body
  fits : ∀ op ∈ body, op.Fits params rank
  returns : Returns results body

namespace BodyWellFormed

variable {params known operands : List String} {rank : Option Nat} {n : Nat} {op : BodyOpDesc}
  {ops : List BodyOpDesc} {unroll : Option Point}

theorem cons_iff (hop : op.isReturn = false) :
    BodyWellFormed params rank n known (op :: ops) ↔
      (∀ name ∈ op.reads, name ∈ known) ∧ op.Fits params rank ∧
        BodyWellFormed params rank n (known ++ op.results) ops := by
  constructor
  · rintro ⟨horder, hfits, hreturns⟩
    obtain ⟨hreads, horder⟩ := InOrder.cons_iff.1 horder
    obtain ⟨hfit, hfits⟩ := List.forall_mem_cons.1 hfits
    exact ⟨hreads, hfit, horder, hfits, (Returns.cons_iff hop).1 hreturns⟩
  · rintro ⟨hreads, hfit, horder, hfits, hreturns⟩
    exact ⟨InOrder.cons_iff.2 ⟨hreads, horder⟩, List.forall_mem_cons.2 ⟨hfit, hfits⟩,
      (Returns.cons_iff hop).2 hreturns⟩

theorem ret_iff (hknown : known.Nodup) :
    BodyWellFormed params rank n known (.ret operands unroll :: ops) ↔
      ops = [] ∧ (∀ name ∈ operands, name ∈ known) ∧
        BodyOpDesc.Fits params rank (.ret operands unroll) ∧ Yields operands.length unroll n := by
  constructor
  · rintro ⟨horder, hfits, hreturns⟩
    obtain ⟨rfl, hyields⟩ := Returns.ret_iff.1 hreturns
    exact ⟨rfl, (InOrder.cons_iff.1 horder).1, hfits _ List.mem_cons_self, hyields⟩
  · rintro ⟨rfl, hreads, hfit, hyields⟩
    refine ⟨InOrder.cons_iff.2 ⟨hreads, InOrder.nil_iff.2 ?_⟩,
      List.forall_mem_singleton.2 hfit, Returns.ret_iff.2 ⟨rfl, hyields⟩⟩
    rwa [BodyOpDesc.results, List.append_nil]

/-- The body of an apply without operands returns nothing. -/
theorem eq_zero_of_nil (h : BodyWellFormed [] rank n [] ops) : n = 0 := by
  obtain ⟨init, operands, unroll, rfl, _, hyields⟩ := h.returns
  have hreads : operands = [] :=
    h.inOrder.reads_eq_nil (fun op => op.reads_ne_nil) (.ret operands unroll) (by simp)
  have hcount := hyields.count
  rw [hreads] at hcount
  have hpos := hyields.volume_pos
  rcases Int.mul_eq_zero.1 hcount.symm with hzero | hzero
  · omega
  · exact Int.ofNat_eq_zero.1 hzero

end BodyWellFormed

namespace OpDesc

/-- The names that an operation reads. -/
def reads : OpDesc → List String
  | .load _ field => [field]
  | .apply _ operands _ _ => operands
  | .store value field _ _ => [value, field]

/-- The names that an operation defines. -/
def results : OpDesc → List String
  | .load result _ => [result]
  | .apply results _ _ _ => results
  | .store _ _ _ _ => []

end OpDesc

namespace FunctionDesc

variable (f : FunctionDesc)

/-- The rank of a name: it is declared for an argument, a load has that of its source and
an apply that of its operands. -/
inductive RankOf : String → Nat → Prop
  | arg {a : FieldDesc} {name : String} {r : Nat} :
      a ∈ f.args →
      a.name = name →
      a.rank.toNat = r →
      RankOf name r
  | load {result field : String} {r : Nat} :
      OpDesc.load result field ∈ f.ops →
      RankOf field r →
      RankOf result r
  | apply {results operands params : List String} {body : List BodyOpDesc} {name : String}
      {r : Nat} :
      OpDesc.apply results operands params body ∈ f.ops →
      operands ≠ [] →
      (∀ x ∈ operands, RankOf x r) →
      name ∈ results →
      RankOf name r

/-- The one rank of some names; there is none without names. -/
structure CommonRank (names : List String) (rank : Option Nat) : Prop where
  of_mem : ∀ x ∈ names, ∃ r, rank = some r ∧ f.RankOf x r
  of_nil : names = [] → rank = none

structure ApplyWellFormed (results operands params : List String) (body : List BodyOpDesc) :
    Prop where
  paramCount : params.length = operands.length
  /-- Besides its own results the body reads parameters only. -/
  body : ∃ rank, f.CommonRank operands rank ∧
    BodyWellFormed params rank results.length params body

structure StoreWellFormed (value field : String) (lower upper : Point) : Prop where
  ends : lower.length = upper.length
  value : f.RankOf value lower.length
  field : f.RankOf field lower.length

def OpWellFormed : OpDesc → Prop
  | .load _ _ => True
  | .apply results operands params body => f.ApplyWellFormed results operands params body
  | .store value field lower upper => f.StoreWellFormed value field lower upper

/-- Names are in order, and each operation is well-formed. -/
structure WellFormed : Prop where
  inOrder : InOrder OpDesc.reads OpDesc.results (f.args.map FieldDesc.name) f.ops
  ops : ∀ op ∈ f.ops, f.OpWellFormed op

variable {f}

/-- A name has one rank at most. -/
theorem RankOf.unique {name : String} {r s : Nat}
    (hr : f.RankOf name r)
    (h : InOrder OpDesc.reads OpDesc.results (f.args.map FieldDesc.name) f.ops)
    (hs : f.RankOf name s) :
    r = s := by
  obtain ⟨hargs, hops, hdisjoint⟩ := List.nodup_append'.1 h.distinct
  have hnot : ∀ {a op name}, a ∈ f.args → a.name = name → op ∈ f.ops → name ∉ op.results :=
    fun ha hname hop hres =>
      hdisjoint (List.mem_map.2 ⟨_, ha, hname⟩) (List.mem_flatMap.2 ⟨_, hop, hres⟩)
  have hsame : ∀ {op op' : OpDesc} {name}, op ∈ f.ops → op' ∈ f.ops → name ∈ op.results →
      name ∈ op'.results → op = op' := eq_of_mem_results hops
  induction hr generalizing s with
  | arg ha hname hrank =>
      cases hs with
      | arg ha' hname' hrank' =>
          rw [List.inj_on_of_nodup_map hargs ha ha' (hname.trans hname'.symm)] at hrank
          exact hrank.symm.trans hrank'
      | load hop => exact absurd List.mem_cons_self (hnot ha hname hop)
      | apply hop _ _ hmem => exact absurd hmem (hnot ha hname hop)
  | load hop _ ih =>
      cases hs with
      | arg ha hname => exact absurd List.mem_cons_self (hnot ha hname hop)
      | load hop' hs =>
          cases hsame hop hop' List.mem_cons_self List.mem_cons_self
          exact ih hs
      | apply hop' _ _ hmem => cases hsame hop hop' List.mem_cons_self hmem
  | apply hop hne _ hmem ih =>
      cases hs with
      | arg ha hname => exact absurd hmem (hnot ha hname hop)
      | load hop' => cases hsame hop hop' hmem List.mem_cons_self
      | apply hop' _ hs hmem' =>
          cases hsame hop hop' hmem hmem'
          obtain ⟨x, hx⟩ := List.exists_mem_of_ne_nil _ hne
          exact ih x hx (hs x hx)

theorem CommonRank.unique {names : List String} {rank rank' : Option Nat}
    (h : f.CommonRank names rank)
    (horder : InOrder OpDesc.reads OpDesc.results (f.args.map FieldDesc.name) f.ops)
    (h' : f.CommonRank names rank') :
    rank = rank' := by
  cases names with
  | nil => rw [h.of_nil rfl, h'.of_nil rfl]
  | cons x names =>
      obtain ⟨r, rfl, hr⟩ := h.of_mem x List.mem_cons_self
      obtain ⟨r', rfl, hr'⟩ := h'.of_mem x List.mem_cons_self
      rw [hr.unique horder hr']

end FunctionDesc
end StencilShapes
