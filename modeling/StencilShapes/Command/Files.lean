/-!
# Files

A file system as far as a command sees it: a working directory, and at each
path a file, a directory or nothing.  Two texts that lead to the same place name
the same file.

**Main statements.**
* `Files.read_write`: a file that was written is read back, also by another
  text that leads to it.
-/

namespace StencilShapes

/-- The names that lead from the root to a place. -/
abbrev Path := List String

/-- What is found at a path. -/
inductive Slot where
  | file (bytes : ByteArray)
  | directory
  | vacant

/-- Why a file cannot be read or written. -/
inductive FileFault where
  | isDirectory
  /-- There is nothing, or no directory to hold it. -/
  | notFound
  | notDirectory
  | notText
  | other (reason : String)
  deriving DecidableEq

/-- The wording of a fault. -/
def FileFault.message : FileFault → String
  | .isDirectory => "Is a directory (os error 21)"
  | .notFound => "No such file or directory (os error 2)"
  | .notDirectory => "Not a directory (os error 20)"
  | .notText => "stream did not contain valid UTF-8"
  | .other reason => reason

/-- The text that some bytes encode. -/
def textOfBytes (bytes : ByteArray) : Except FileFault String :=
  match String.fromUTF8? bytes with
  | some s => .ok s
  | none => .error .notText

theorem fromUTF8?_toUTF8 (s : String) : String.fromUTF8? s.toUTF8 = some s := by
  simp only [String.fromUTF8?, String.toUTF8_eq_toByteArray, dif_pos s.isValidUTF8]
  rfl

/-- A file system with a working directory. -/
structure Files where
  current : Path
  slot : Path → Slot

namespace Files

/-- One step from a place, which has to be a directory. -/
def enter (fs : Files) (p : Path) (name : String) : Except FileFault Path :=
  match fs.slot p with
  | .vacant => .error .notFound
  | .file _ => .error .notDirectory
  | .directory =>
      if name = "" ∨ name = "." then .ok p
      else if name = ".." then .ok p.dropLast
      else .ok (p ++ [name])

/-- Several steps from a place. -/
def enterAll (fs : Files) (p : Path) : List String → Except FileFault Path
  | [] => .ok p
  | name :: rest =>
      match fs.enter p name with
      | .ok p => fs.enterAll p rest
      | .error fault => .error fault

/-- The place to which a text leads. -/
def resolve (fs : Files) (s : String) : Except FileFault Path :=
  fs.enterAll (if s.startsWith "/" then [] else fs.current) (s.splitOn "/")

/-- The content of a file. -/
def readBytes (fs : Files) (s : String) : Except FileFault ByteArray :=
  match fs.resolve s with
  | .error fault => .error fault
  | .ok p =>
      match fs.slot p with
      | .file bytes => .ok bytes
      | .directory => .error .isDirectory
      | .vacant => .error .notFound

/-- The content of a file as a text. -/
def read (fs : Files) (s : String) : Except FileFault String :=
  match fs.readBytes s with
  | .ok bytes => textOfBytes bytes
  | .error fault => .error fault

/-- The files after a text has been put at a place. -/
def put (fs : Files) (p : Path) (text : String) : Files :=
  { fs with slot := fun q => if q = p then .file text.toUTF8 else fs.slot q }

/-- The place to which a text leads for writing.  A slash at its end asks for a
directory, which cannot be written, whether there is one or not. -/
def resolveForWriting (fs : Files) (s : String) : Except FileFault Path :=
  if s.endsWith "/" then
    match fs.resolve (s.dropEndWhile '/').copy with
    | .error fault => .error fault
    | .ok _ => .error .isDirectory
  else fs.resolve s

/-- Writes a text into a file, new or in place of what it held. -/
def write (fs : Files) (s : String) (text : String) : Except FileFault Files :=
  match fs.resolveForWriting s with
  | .error fault => .error fault
  | .ok p =>
      match fs.slot p with
      | .directory => .error .isDirectory
      | _ => .ok (fs.put p text)

theorem resolve_of_resolveForWriting {fs : Files} {s : String} {p : Path}
    (h : fs.resolveForWriting s = .ok p) : fs.resolve s = .ok p := by
  unfold resolveForWriting at h
  split at h
  · split at h <;> simp at h
  · exact h

theorem enterAll_put {fs : Files} {p q r : Path} {text : String} {names : List String}
    (hp : fs.slot p ≠ .directory) (h : fs.enterAll q names = .ok r) :
    (fs.put p text).enterAll q names = .ok r := by
  induction names generalizing q with
  | nil => exact h
  | cons name names ih =>
      simp only [enterAll] at h ⊢
      split at h
      · next q' hq =>
          have hdir : fs.slot q = .directory := by
            unfold enter at hq
            split at hq <;> simp_all
          have hne : q ≠ p := by
            rintro rfl
            exact hp hdir
          have : (fs.put p text).enter q name = .ok q' := by
            rw [← hq]
            simp [enter, put, hne]
          simp only [this]
          exact ih h
      · simp at h

theorem read_write {fs fs' : Files} {s s' text : String} (h : fs.write s text = .ok fs')
    (hs : fs.resolve s' = fs.resolve s) : fs'.read s' = .ok text := by
  unfold write at h
  split at h
  · simp at h
  · next p hp =>
      split at h
      · simp at h
      · next hslot =>
          simp only [Except.ok.injEq] at h
          subst h
          have hr : (fs.put p text).resolve s' = .ok p := by
            rw [resolve_of_resolveForWriting hp] at hs
            exact enterAll_put hslot hs
          simp only [read, readBytes, hr]
          simp only [put, if_pos, textOfBytes, fromUTF8?_toUTF8]

end Files

end StencilShapes
