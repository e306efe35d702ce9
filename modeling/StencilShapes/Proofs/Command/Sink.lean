import StencilShapes.Proofs.Command.Exit

/-!
# Where a command puts its result

What a command makes of its source is planned before anything is written, and neither the file
for the result nor the wish for more notices has a part in the plan.  So both only say what is
done with it: the file gets the text that would have been put out, also when it is the source,
and the wish decides which notices are shown.

**Results.**
* `Files.holds_of_write`, `Files.slot_of_write`: what a write leaves behind.
* `Command.Invocation.run_quiet`: what verbosity adds.
* `Command.Invocation.redirects`: what becomes of the result in a file.
* `Command.Invocation.result_independent_of_sink`: a command with and without either.
-/

namespace StencilShapes

namespace Files

variable {fs fs' : Files} {s s' content : String}

/-- What was written is found by every text that leads there. -/
theorem holds_of_write
    (h : fs.write s content = .ok fs')
    (hs : fs.resolve s' = fs.resolve s) :
    fs'.Holds s' content :=
  read_eq_ok.1 (read_write h hs)

/-- Nothing is written elsewhere. -/
theorem slot_of_write {q : Path} (h : fs.write s content = .ok fs') (hq : fs.resolve s ≠ .ok q) :
    fs'.slot q = fs.slot q := by
  obtain ⟨p, hp, _, rfl⟩ := write_eq_ok.1 h
  refine if_neg fun heq => hq ?_
  rw [heq]
  exact resolve_of_resolveForWriting hp

end Files

namespace Command

/-- The two ways of running a command differ in notices only: one shows all of them, the other
one those that are always shown. -/
structure Outcome.Mutes (r quiet : Outcome) : Prop where
  exit : quiet.exit = r.exit
  stdout : quiet.stdout = r.stdout
  files : quiet.files = r.files
  notices : quiet.notices = r.notices.filter (!·.isVerbose)

/-- With a file for its result a command ends as without, and puts into the file what it would
have put out. -/
structure Outcome.Redirects (files : Files) (path : String) (r filed : Outcome) : Prop where
  exit : filed.exit = r.exit
  stdout : filed.stdout = ""
  kept : r.files = files
  held : r.exit = 0 → ∀ s, files.resolve s = files.resolve path → filed.files.Holds s r.stdout
  others : ∀ p, files.resolve path ≠ .ok p → filed.files.slot p = files.slot p
  withheld : r.exit ≠ 0 → filed.files = files

namespace Invocation

variable {files : Files} {path : String}

/-- Without verbosity a command does the same. -/
theorem run_quiet (i : Invocation) (files : Files) :
    Outcome.Mutes ({ i with verbose := true }.run files)
      ({ i with verbose := false }.run files) := by
  have hplan : ({ i with verbose := true } : Invocation).plan (files.read i.source) =
      ({ i with verbose := false } : Invocation).plan (files.read i.source) := rfl
  simp only [run, carryOut, hplan]
  split
  · exact ⟨rfl, rfl, rfl, rfl⟩
  · split
    · exact ⟨rfl, rfl, rfl, rfl⟩
    · split
      · exact ⟨rfl, rfl, rfl, rfl⟩
      · exact ⟨rfl, rfl, rfl, rfl⟩

/-- The text that would have been put out goes to the file. -/
theorem redirects (i : Invocation) (h : files.Writable path) :
    Outcome.Redirects files path ({ i with output := none }.run files)
      ({ i with output := some path }.run files) := by
  obtain ⟨p, hp, hslot⟩ := h
  -- What is planned is the same in both runs.
  let plan := i.plan (files.read i.source)
  let shown : Invocation := { i with output := none }
  let filed : Invocation := { i with output := some path }
  change Outcome.Redirects files path (shown.carryOut files plan) (filed.carryOut files plan)
  cases hverdict : plan.verdict with
  | error code =>
      have hshown : (shown.carryOut files plan).Leaves code "" files := leaves_of_error hverdict
      have hfiled : (filed.carryOut files plan).Leaves code "" files := leaves_of_error hverdict
      refine ⟨by rw [hfiled.exit, hshown.exit], hfiled.stdout, hshown.files, fun hexit => ?_,
        fun _ _ => by rw [hfiled.files], fun _ => hfiled.files⟩
      rw [hshown.exit] at hexit
      exact absurd hexit (code_ne_zero hverdict)
  | ok text =>
      have hwrite := Files.write_eq_ok.2 ⟨p, hp, hslot, Eq.refl (files.put p text)⟩
      have hshown : (shown.carryOut files plan).Leaves 0 text files :=
        leaves_of_stdout hverdict rfl
      have hfiled : (filed.carryOut files plan).Leaves 0 "" (files.put p text) :=
        leaves_of_write hverdict rfl hwrite
      constructor
      case exit => rw [hfiled.exit, hshown.exit]
      case stdout => exact hfiled.stdout
      case kept => exact hshown.files
      case held =>
        intro _ s hs
        rw [hfiled.files, hshown.stdout]
        exact Files.holds_of_write hwrite hs
      case others =>
        intro q hq
        rw [hfiled.files]
        exact Files.slot_of_write hwrite hq
      case withheld => exact fun hexit => absurd hshown.exit hexit

/-- Verbosity decides about notices only.  A file that can be written gets the text that would
have been put out, wherever it is, and the command ends with the same code. -/
theorem result_independent_of_sink (i : Invocation) (files : Files) :
    Outcome.Mutes ({ i with verbose := true }.run files)
        ({ i with verbose := false }.run files) ∧
      ∀ path, files.Writable path →
        Outcome.Redirects files path ({ i with output := none }.run files)
          ({ i with output := some path }.run files) :=
  ⟨i.run_quiet files, fun _ h => i.redirects h⟩

/-- A directory with one file, which describes a program without functions. -/
def oneSource : Files :=
  { current := []
    slot := fun p =>
      if p = [] then .directory
      else if p = ["p"] then .file "\x7b\"functions\": []\x7d".toUTF8
      else .vacant }

theorem resolve_oneSource : oneSource.resolve "p" = .ok ["p"] :=
  Files.resolve_p rfl rfl

theorem writable_oneSource : oneSource.Writable "p" := by
  have hend : "p".endsWith "/" = false := by decide +kernel
  refine ⟨["p"], ?_, ?_⟩
  · rw [Files.resolveForWriting, hend]
    exact resolve_oneSource
  · rintro ⟨⟩

/-- A source without functions. -/
def oneSourceExtents : Invocation :=
  { source := "p", stage := .extents }

theorem compiles_oneSource : oneSourceExtents.Compiles oneSource := by
  refine ⟨"\x7b\"functions\": []\x7d", ⟨_, resolve_oneSource, rfl⟩, fun terminal h => ?_⟩
  obtain rfl : Pass.extentAnalysis = terminal := Option.some.inj h
  have hprogram : Description.elaborate { functions := [] } = .ok {} := rfl
  have hrun : (Compilation.run { program := {} } .extentAnalysis).failing = none := by
    rw [Compilation.run, Pass.required_extentAnalysis]
    rfl
  refine ⟨{ functions := [] }, by decide +kernel, fun hrefused => ?_⟩
  exact (Description.refused_iff hprogram).1 hrefused hrun

/-- The result may take the place of the source. -/
theorem result_independent_of_sink_overwriting :
    oneSource.Writable "p" ∧ (oneSourceExtents.run oneSource).exit = 0 ∧
      (({ oneSourceExtents with output := some "p" } : Invocation).run oneSource).exit = 0 ∧
      (({ oneSourceExtents with output := some "p" } : Invocation).run oneSource).files.Holds "p"
        (oneSourceExtents.run oneSource).stdout := by
  have hexit : (oneSourceExtents.run oneSource).exit = 0 :=
    exit_of_compiles compiles_oneSource (by rintro ⟨⟨⟩, _⟩) (by rintro ⟨path, ⟨⟩, _⟩)
  obtain ⟨_, hsink⟩ := result_independent_of_sink oneSourceExtents oneSource
  have hredirects := hsink "p" writable_oneSource
  exact ⟨writable_oneSource, hexit, hredirects.exit.trans hexit, hredirects.held hexit "p" rfl⟩

end Invocation
end Command
end StencilShapes
