import ComponentCompiler.Json.Record

/-!
# Options of the compiler

## Main definitions

* `Options`, `Options.toJson`, `Options.ofJson?` — the options, and as a JSON value.
-/

namespace ComponentCompiler

/-- The options of a compiler. -/
structure Options where
  /-- What stands in front of the token in a scope. -/
  scopePrefix : String := "data-v-"
  /-- The name under which the render functions are known in a script. -/
  renderBinding : String := "__renderFns__"
  /-- How the target of the older way of exporting is spelled. -/
  legacyExportTarget : String := "module.exports"
  /-- Whether a template without an exported object is an error. -/
  strictExportShape : Bool := false
  /-- Whether styles are made small. -/
  minifyStyles : Bool := false
  /-- What stands behind the name of a component in the name of its template module. -/
  templateModuleSuffix : String := ".template"
  deriving DecidableEq, Repr

namespace Options

/-- The names of the options in JSON texts. -/
def fields : List String :=
  ["scopePrefix", "renderBinding", "legacyExportTarget", "strictExportShape", "minifyStyles",
   "templateModuleSuffix"]

/-- Options as a JSON value. -/
def toJson (o : Options) : Json :=
  .ofMembers (fields.zip
    [.ofText o.scopePrefix, .ofText o.renderBinding, .ofText o.legacyExportTarget,
     .bool o.strictExportShape, .bool o.minifyStyles, .ofText o.templateModuleSuffix])

/-- Options from a JSON value; what is missing has its default. -/
def ofJson? (v : Json) : Option Options := do
  let r ← v.record? fields
  let o : Options := {}
  return {
    scopePrefix := ← r.optional 0 o.scopePrefix Json.text?
    renderBinding := ← r.optional 1 o.renderBinding Json.text?
    legacyExportTarget := ← r.optional 2 o.legacyExportTarget Json.text?
    strictExportShape := ← r.optional 3 o.strictExportShape Json.bool?
    minifyStyles := ← r.optional 4 o.minifyStyles Json.bool?
    templateModuleSuffix := ← r.optional 5 o.templateModuleSuffix Json.text? }

end Options

end ComponentCompiler
