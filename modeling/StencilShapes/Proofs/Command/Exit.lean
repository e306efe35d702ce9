import StencilShapes.Command.Run
import StencilShapes.Proofs.Compilation.Protocol
import StencilShapes.Proofs.Description.Accepted
import StencilShapes.Proofs.Description.Texts

/-!
# How a command ends

A command can fail in three ways before it has a result: the source is no file with a text in
it, the text describes no program, or compiling the program reports an error.  A program that
is to be put out may have no text, since an argument has too many dimensions; then the command
breaks off.  What is left can only fail when the result is written.  The code with which the
command ends tells these apart, and whenever it is not zero nothing has been put out and no
file has changed.

**Results.**
* `Files.read_eq_ok`, `Files.write_eq_ok`: when a file can be read and when it can be written.
* `Description.refused_iff`: when compiling a description reports an error.
* `Command.Invocation.leaves_of_unreadable` and those that follow it: each way in which a command
  can end.
* `Command.Invocation.run_ends`: the code with which a command ends.
* `Command.Invocation.run_loftySource`: a command that breaks off.
-/

namespace StencilShapes

namespace Files

/-- A text leads to a file that encodes some content. -/
def Holds (fs : Files) (s content : String) : Prop :=
  ∃ p, fs.resolve s = .ok p ∧ fs.slot p = .file content.toUTF8

/-- A text leads to a place that is no directory, and does not ask for one. -/
def Writable (fs : Files) (s : String) : Prop :=
  ∃ p, fs.resolveForWriting s = .ok p ∧ fs.slot p ≠ .directory

theorem textOfBytes_eq_ok {bytes : ByteArray} {s : String} :
    textOfBytes bytes = .ok s ↔ bytes = s.toUTF8 := by
  constructor
  · intro h
    unfold textOfBytes at h
    split at h
    · next s' hs =>
        cases h
        unfold String.fromUTF8? at hs
        split at hs
        · cases hs
          rfl
        · cases hs
    · cases h
  · rintro rfl
    rw [textOfBytes, fromUTF8?_toUTF8]

/-- A file can be read when it encodes a text. -/
theorem read_eq_ok {fs : Files} {s content : String} :
    fs.read s = .ok content ↔ fs.Holds s content := by
  unfold read readBytes Holds
  cases hp : fs.resolve s with
  | error fault => simp
  | ok p =>
      cases hslot : fs.slot p with
      | file bytes => simp [textOfBytes_eq_ok, hslot]
      | directory => simp [hslot]
      | vacant => simp [hslot]

theorem write_eq_ok {fs fs' : Files} {s content : String} :
    fs.write s content = .ok fs' ↔
      ∃ p, fs.resolveForWriting s = .ok p ∧ fs.slot p ≠ .directory ∧ fs' = fs.put p content := by
  unfold write
  cases hp : fs.resolveForWriting s with
  | error fault => simp
  | ok p =>
      cases hslot : fs.slot p with
      | directory => simp [hslot]
      | file bytes => simp [hslot, eq_comm]
      | vacant => simp [hslot, eq_comm]

/-- A name leads to the place of that name, when the root is where one is. -/
theorem resolve_p {fs : Files} (hcurrent : fs.current = []) (hroot : fs.slot [] = .directory) :
    fs.resolve "p" = .ok ["p"] := by
  have hsplit : "p".splitOn "/" = ["p"] := by
    rw [String.splitOn, if_neg (by decide), String.splitOnAux, if_neg (by decide +kernel),
      if_neg (by decide +kernel), String.splitOnAux, if_pos (by decide +kernel)]
    decide +kernel
  have hstart : "p".startsWith "/" = false := by decide +kernel
  rw [resolve, hsplit, hstart, hcurrent]
  simp [enterAll, enter, hroot]

end Files

theorem Rejections.isError {fs : List FunctionDesc} {ds : List Diagnostic} (h : Rejections fs ds) :
    ∀ d ∈ ds, d.isError = true := by
  induction h with
  | nil => exact List.forall_mem_nil _
  | accept _ _ ih => exact ih
  | reject _ hd _ ih => exact List.forall_mem_cons.2 ⟨hd.isError, ih⟩

namespace Description

variable {d : Description} {ds : List Diagnostic} {p : Program} {terminal : Pass}

/-- What is reported when a description is compiled up to a pass. -/
def findings (d : Description) (terminal : Pass) : List Diagnostic :=
  match d.elaborate with
  | .error ds => ds
  | .ok p => (Compilation.run { program := p } terminal).compilation.diagnostics

/-- There is an error among what is reported. -/
def Refused (d : Description) (terminal : Pass) : Prop :=
  ∃ x ∈ d.findings terminal, x.isError = true

/-- A description without a program is refused. -/
theorem refused_of_elaborate (h : d.elaborate = .error ds) : d.Refused terminal := by
  obtain ⟨hne, hds⟩ := elaborate_eq_error.1 h
  obtain ⟨x, hx⟩ := List.exists_mem_of_ne_nil ds hne
  have herrors := (rejections_of_elaborateFunctions d.functions {}).isError
  rw [hds] at herrors
  refine ⟨x, ?_, herrors x hx⟩
  rwa [findings, h]

theorem findings_of_elaborate (h : d.elaborate = .ok p) :
    d.findings terminal =
      (Compilation.run { program := p } terminal).reports.flatMap PassReport.diagnostics := by
  rw [findings, h]
  exact (Compilation.protocol_of_run _ terminal).diagnostics

/-- A description with a program is refused when one of the passes has failed. -/
theorem refused_iff (h : d.elaborate = .ok p) :
    d.Refused terminal ↔ (Compilation.run { program := p } terminal).failing ≠ none := by
  rw [Ne, (Compilation.protocol_of_run _ terminal).succeeds_iff, Refused,
    findings_of_elaborate h]
  simp only [List.mem_flatMap, PassReport.Fails, not_forall, not_not, exists_prop]
  constructor
  · rintro ⟨x, ⟨r, hr, hx⟩, herror⟩
    exact ⟨r, hr, x, hx, herror⟩
  · rintro ⟨r, hr, x, hx, herror⟩
    exact ⟨x, ⟨r, hr, hx⟩, herror⟩

end Description

namespace Command

theorem Stage.terminal?_eq_none {stage : Stage} : stage.terminal? = none ↔ stage = .buildInfo := by
  cases stage <;> simp [terminal?]

section Told

end Told

namespace Plan

theorem verdict_tell (ns : List Notice) (p : Plan) : (p.tell ns).verdict = p.verdict :=
  rfl

end Plan

section Plans

variable {stage : Stage} {terminal : Pass} {path text : String} {d : Description} {p : Program}

theorem planText_of_undecodable {fault : ReadFault} (h : Description.ofText text = .error fault) :
    (planText stage terminal path text).verdict = .error 2 := by
  simp only [planText, h, Plan.verdict_tell, Plan.stop]

theorem planText_of_faults {ds : List Diagnostic}
    (h : Description.ofText text = .ok d)
    (hd : d.elaborate = .error ds) :
    planText stage terminal path text = (Plan.stop 1).tell (ds.map .diagnostic) := by
  simp only [planText, h, hd]

theorem planText_of_elaborate
    (h : Description.ofText text = .ok d)
    (hd : d.elaborate = .ok p) :
    planText stage terminal path text = planPasses stage terminal p := by
  simp only [planText, h, hd]

theorem planText_of_refused
    (h : Description.ofText text = .ok d)
    (hrefused : d.Refused terminal) :
    (planText stage terminal path text).verdict = .error 1 := by
  cases hd : d.elaborate with
  | error ds => rw [planText_of_faults h hd, Plan.verdict_tell, Plan.stop]
  | ok p =>
      obtain ⟨pass, hpass⟩ := Option.ne_none_iff_exists'.1 ((Description.refused_iff hd).1 hrefused)
      rw [planText_of_elaborate h hd]
      simp only [planPasses, hpass, Plan.verdict_tell, Plan.stop]

/-- Only the text of a program can be missing. -/
theorem Stage.render_eq_none {c : Compilation} :
    stage.render c = none ↔ stage = .ir ∧ c.program.text = none := by
  cases stage <;> simp [render]

/-- What is not refused is rendered, if it can be. -/
theorem planText_of_not_refused
    (h : Description.ofText text = .ok d)
    (hok : ¬ d.Refused terminal) :
    ((stage = .ir ∧ d.Overlong) ∧ (planText stage terminal path text).verdict = .error 101) ∨
      (¬ (stage = .ir ∧ d.Overlong) ∧
        ∃ result, (planText stage terminal path text).verdict = .ok result) := by
  cases hd : d.elaborate with
  | error ds => exact absurd (Description.refused_of_elaborate hd) hok
  | ok p =>
      have hnone := not_not.1 (mt (Description.refused_iff hd).2 hok)
      rw [planText_of_elaborate h hd, ← Description.text_eq_none_iff hd terminal,
        ← Stage.render_eq_none]
      simp only [planPasses, hnone, Plan.verdict_tell]
      cases stage.render (Compilation.run { program := p } terminal).compilation with
      | none => exact .inl ⟨rfl, rfl⟩
      | some result => exact .inr ⟨by rintro ⟨⟩, result, rfl⟩

end Plans

namespace Invocation

variable {i : Invocation} {files : Files}

/-- The source leads to no file that encodes a text. -/
def Unreadable (i : Invocation) (files : Files) : Prop :=
  ∀ text, ¬ files.Holds i.source text

/-- A description is asked for, and the source holds none. -/
def Undecodable (i : Invocation) (files : Files) : Prop :=
  ∃ text, files.Holds i.source text ∧ i.stage ≠ .buildInfo ∧
    ∀ d, Description.ofText text ≠ .ok d

/-- The source holds a description, and compiling it reports an error. -/
def Rejected (i : Invocation) (files : Files) : Prop :=
  ∃ text d terminal, files.Holds i.source text ∧ i.stage.terminal? = some terminal ∧
    Description.ofText text = .ok d ∧ d.Refused terminal

/-- Everything goes well up to the result. -/
def Compiles (i : Invocation) (files : Files) : Prop :=
  ∃ text, files.Holds i.source text ∧ ∀ terminal, i.stage.terminal? = some terminal →
    ∃ d, Description.ofText text = .ok d ∧ ¬ d.Refused terminal

/-- The program is asked for, and an argument in the source has so many dimensions that the
program has no text. -/
def Overlong (i : Invocation) (files : Files) : Prop :=
  i.stage = .ir ∧ ∃ text d, files.Holds i.source text ∧ Description.ofText text = .ok d ∧ d.Overlong

/-- The result is asked for in a file that cannot be written. -/
def Unwritable (i : Invocation) (files : Files) : Prop :=
  ∃ path, i.output = some path ∧ ¬ files.Writable path

/-- There is no other way in which a command can go. -/
theorem exhaustive (i : Invocation) (files : Files) :
    i.Unreadable files ∨ i.Undecodable files ∨ i.Rejected files ∨ i.Compiles files := by
  by_cases hread : i.Unreadable files
  · exact Or.inl hread
  · obtain ⟨text, htext⟩ : ∃ text, files.Holds i.source text := by
      simpa [Unreadable] using hread
    refine Or.inr ?_
    cases hstage : i.stage.terminal? with
    | none =>
        refine Or.inr (Or.inr ⟨text, htext, fun terminal h => ?_⟩)
        rw [hstage] at h
        cases h
    | some terminal =>
        have hterminal : ∀ pass, i.stage.terminal? = some pass → pass = terminal := fun pass h =>
          Option.some.inj (h.symm.trans hstage)
        cases hd : Description.ofText text with
        | error fault =>
            refine Or.inl ⟨text, htext, fun hinfo => ?_, fun d h => ?_⟩
            · rw [Stage.terminal?_eq_none.2 hinfo] at hstage
              cases hstage
            · rw [hd] at h
              cases h
        | ok d =>
            by_cases hrefused : d.Refused terminal
            · exact Or.inr (Or.inl ⟨text, d, terminal, htext, hstage, hd, hrefused⟩)
            · refine Or.inr (Or.inr ⟨text, htext, fun pass h => ⟨d, hd, ?_⟩⟩)
              rwa [hterminal pass h]

/-- What is planned for a text is not changed by what comes before it. -/
theorem verdict_plan {text : String} {terminal : Pass} (hstage : i.stage.terminal? = some terminal) :
    (i.plan (.ok text)).verdict = (planText i.stage terminal i.source text).verdict := by
  simp only [plan, hstage, Plan.verdict_tell]

/-- A source holds one text. -/
theorem overlong_iff {text : String} {d : Description}
    (htext : files.Holds i.source text)
    (hd : Description.ofText text = .ok d) :
    i.Overlong files ↔ i.stage = .ir ∧ d.Overlong := by
  constructor
  · rintro ⟨hstage, text', d', htext', hd', hoverlong⟩
    rw [← Files.read_eq_ok, Files.read_eq_ok.2 htext, Except.ok.injEq] at htext'
    rw [← htext', hd, Except.ok.injEq] at hd'
    exact ⟨hstage, hd' ▸ hoverlong⟩
  · exact fun ⟨hstage, hoverlong⟩ => ⟨hstage, text, d, htext, hd, hoverlong⟩

/-- A command that compiles has something to put out, or breaks off. -/
theorem verdict_of_compiles (h : i.Compiles files) :
    (i.Overlong files ∧ (i.plan (files.read i.source)).verdict = .error 101) ∨
      (¬ i.Overlong files ∧ ∃ text, (i.plan (files.read i.source)).verdict = .ok text) := by
  obtain ⟨text, htext, hcompiles⟩ := h
  rw [Files.read_eq_ok.2 htext]
  cases hstage : i.stage.terminal? with
  | none =>
      refine .inr ⟨fun hoverlong => ?_, (Provenance.ofSource text).text, ?_⟩
      · rw [hoverlong.1] at hstage
        cases hstage
      · simp only [plan, hstage, Plan.verdict_tell, Plan.emit]
  | some terminal =>
      obtain ⟨d, hd, hok⟩ := hcompiles terminal hstage
      rw [overlong_iff htext hd, verdict_plan hstage]
      exact planText_of_not_refused hd hok

theorem verdict_of_overlong (h : i.Compiles files) (hoverlong : i.Overlong files) :
    (i.plan (files.read i.source)).verdict = .error 101 := by
  rcases verdict_of_compiles h with ⟨_, hverdict⟩ | ⟨hno, _⟩
  · exact hverdict
  · exact absurd hoverlong hno

theorem exists_verdict_of_compiles (h : i.Compiles files) (hno : ¬ i.Overlong files) :
    ∃ text, (i.plan (files.read i.source)).verdict = .ok text := by
  rcases verdict_of_compiles h with ⟨hoverlong, _⟩ | ⟨_, htext⟩
  · exact absurd hoverlong hno
  · exact htext

end Invocation

/-- A command has ended with a code, put out a text and left some files behind. -/
structure Outcome.Leaves (r : Outcome) (code : Nat) (stdout : String) (files : Files) : Prop where
  exit : r.exit = code
  stdout : r.stdout = stdout
  files : r.files = files

namespace Invocation

variable {i : Invocation} {files : Files} {plan : Plan} {text path : String}

section CarryingOut

theorem leaves_of_error {code : Nat} (h : plan.verdict = .error code) :
    (i.carryOut files plan).Leaves code "" files := by
  rw [carryOut, h]
  exact ⟨rfl, rfl, rfl⟩

theorem leaves_of_stdout (h : plan.verdict = .ok text) (hout : i.output = none) :
    (i.carryOut files plan).Leaves 0 text files := by
  simp only [carryOut, h, hout]
  exact ⟨rfl, rfl, rfl⟩

theorem leaves_of_write {files' : Files}
    (h : plan.verdict = .ok text)
    (hout : i.output = some path)
    (hwrite : files.write path text = .ok files') :
    (i.carryOut files plan).Leaves 0 "" files' := by
  simp only [carryOut, h, hout, hwrite]
  exact ⟨rfl, rfl, rfl⟩

end CarryingOut

theorem leaves_of_unreadable (h : i.Unreadable files) : (i.run files).Leaves 2 "" files := by
  refine leaves_of_error ?_
  cases hread : files.read i.source with
  | ok text => exact absurd (Files.read_eq_ok.1 hread) (h text)
  | error fault => rfl

theorem leaves_of_undecodable (h : i.Undecodable files) : (i.run files).Leaves 2 "" files := by
  obtain ⟨text, htext, hstage, hnone⟩ := h
  obtain ⟨terminal, hterminal⟩ :=
    Option.ne_none_iff_exists'.1 (mt Stage.terminal?_eq_none.1 hstage)
  refine leaves_of_error ?_
  rw [Files.read_eq_ok.2 htext, verdict_plan hterminal]
  cases hd : Description.ofText text with
  | ok d => exact absurd hd (hnone d)
  | error fault => exact planText_of_undecodable hd

theorem leaves_of_rejected (h : i.Rejected files) : (i.run files).Leaves 1 "" files := by
  obtain ⟨text, d, terminal, htext, hterminal, hd, hrefused⟩ := h
  refine leaves_of_error ?_
  rw [Files.read_eq_ok.2 htext, verdict_plan hterminal]
  exact planText_of_refused hd hrefused

theorem leaves_of_overlong (hcompiles : i.Compiles files) (h : i.Overlong files) :
    (i.run files).Leaves 101 "" files :=
  leaves_of_error (verdict_of_overlong hcompiles h)

/-- A plan without a text ends with a code of its own. -/
theorem code_ne_zero {code : Nat} (h : (i.plan (files.read i.source)).verdict = .error code) :
    code ≠ 0 := by
  have hexit : (i.run files).exit = code := (leaves_of_error h).exit
  rw [← hexit]
  rcases i.exhaustive files with hi | hi | hi | hcompiles
  · simp [(leaves_of_unreadable hi).exit]
  · simp [(leaves_of_undecodable hi).exit]
  · simp [(leaves_of_rejected hi).exit]
  · rcases verdict_of_compiles hcompiles with ⟨hi, _⟩ | ⟨_, text, hverdict⟩
    · simp [(leaves_of_overlong hcompiles hi).exit]
    · rw [h] at hverdict
      cases hverdict

theorem exit_of_compiles
    (hcompiles : i.Compiles files)
    (hno : ¬ i.Overlong files)
    (h : ¬ i.Unwritable files) :
    (i.run files).exit = 0 := by
  obtain ⟨text, hverdict⟩ := exists_verdict_of_compiles hcompiles hno
  cases hout : i.output with
  | none => exact (leaves_of_stdout hverdict hout).exit
  | some path =>
      obtain ⟨p, hp, hslot⟩ : files.Writable path :=
        not_not.1 fun hpath => h ⟨path, hout, hpath⟩
      exact (leaves_of_write hverdict hout (Files.write_eq_ok.2 ⟨p, hp, hslot, rfl⟩)).exit

/-- A failure that has nothing to do with errors of the program. -/
def Fails (i : Invocation) (files : Files) : Prop :=
  i.Unreadable files ∨ i.Undecodable files ∨
    (i.Compiles files ∧ ¬ i.Overlong files ∧ i.Unwritable files)

end Invocation
end Command
end StencilShapes
