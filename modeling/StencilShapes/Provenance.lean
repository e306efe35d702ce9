import StencilShapes.Digest.Sha256
import StencilShapes.Json.Basic

/-!
# Provenance

Which source and which version of the program a result comes from.
-/

namespace StencilShapes

/-- The version of the program. -/
def version : String := "0.1.0"

/-- Where a result comes from. -/
structure Provenance where
  sourceHash : String
  compilerVersion : String
  deriving DecidableEq

namespace Provenance

/-- The provenance of what is made from a source text. -/
def ofSource (source : String) : Provenance :=
  { sourceHash := Sha256.hexDigest source.toUTF8.toList, compilerVersion := version }

/-- The provenance as an object. -/
def toJson (p : Provenance) : Json :=
  .object
    [("source_hash", .string p.sourceHash), ("compiler_version", .string p.compilerVersion)]

/-- The text of the provenance. -/
def text (p : Provenance) : String :=
  p.toJson.pretty

end Provenance

end StencilShapes
