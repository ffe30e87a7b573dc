import ComponentCompiler.Component.Options
import ComponentCompiler.Json.Printer
import ComponentCompiler.Json.Reader

/-!
# Configuration files

A configuration is a JSON text with the options of the compiler.  A missing file is a
configuration with defaults; a file that cannot be read or is no configuration is an error, and
`Config.load` takes the defaults instead.

## Main definitions

* `Config`, `Config.toJson`, `Config.ofJson?` — configurations.
* `ConfigFile`, `Config.tryLoad`, `Config.load` — from a file.
-/

namespace ComponentCompiler

/-- A configuration. -/
structure Config where
  /-- Where the schema of the file is found. -/
  schema : Option String := none
  /-- The options of the compiler. -/
  compiler : Options := {}
  deriving DecidableEq, Repr

/-- What stands at the place of a configuration file. -/
inductive ConfigFile where
  /-- Nothing. -/
  | missing
  /-- A directory. -/
  | directory
  /-- A file with these bytes. -/
  | file (bytes : ByteArray)

/-- Why there is no configuration. -/
inductive ConfigError where
  /-- The file cannot be read as a text. -/
  | read
  /-- The text is no configuration. -/
  | parse
  deriving DecidableEq, Repr

/-- The text of the error about the file at a path. -/
def ConfigError.message (path : String) : ConfigError → String
  | .read => "failed to read " ++ path
  | .parse => "failed to parse " ++ path

namespace Config

/-- A configuration as a JSON value. -/
def toJson (c : Config) : Json :=
  .ofMembers ((c.schema.map fun s => ("$schema", Json.ofText s)).toList ++
    [("compiler", c.compiler.toJson)])

/-- A configuration as a JSON text. -/
def serialize (c : Config) : String := String.ofList c.toJson.print

/-- A text that may be null. -/
def nullableText? : Json → Option (Option String)
  | .null => some none
  | v => v.text?.map some

/-- A configuration from a JSON value. -/
def ofJson? (v : Json) : Option Config := do
  let r ← v.record? ["$schema", "compiler"]
  return {
    schema := ← r.optional 0 none nullableText?
    compiler := ← r.optional 1 {} Options.ofJson? }

/-- The configuration in a file, or why there is none. -/
def tryLoad : ConfigFile → Except ConfigError Config
  | .missing => .ok {}
  | .directory => .error .read
  | .file bytes =>
      match String.fromUTF8? bytes with
      | none => .error .read
      | some text =>
          match Json.parse? text >>= ofJson? with
          | none => .error .parse
          | some c => .ok c

/-- The configuration in a file, or the default one. -/
def load (f : ConfigFile) : Config :=
  match tryLoad f with
  | .ok c => c
  | .error _ => {}

end Config

end ComponentCompiler
