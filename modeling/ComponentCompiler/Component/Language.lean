/-!
# Languages

The languages of styles and templates come in families; one compiler serves a whole family.

## Main definitions

* `StyleFamily`, `TemplateFamily` — the families, with `ofLang?` and `name`.
-/

namespace ComponentCompiler

/-- The families of style languages. -/
inductive StyleFamily where
  /-- Plain stylesheets. -/
  | css
  /-- Both notations of one language. -/
  | sass
  /-- The third language. -/
  | less
  deriving DecidableEq, Repr

namespace StyleFamily

/-- The family of a language. -/
def ofLang? : String → Option StyleFamily
  | "css" => some .css
  | "sass" => some .sass
  | "scss" => some .sass
  | "less" => some .less
  | _ => none

/-- The name of a family. -/
def name : StyleFamily → String
  | .css => "css"
  | .sass => "sass"
  | .less => "less"

/-- All families, by name. -/
def all : List StyleFamily := [.css, .less, .sass]

end StyleFamily

/-- The families of template languages. -/
inductive TemplateFamily where
  /-- Plain markup. -/
  | html
  /-- The language with two names. -/
  | pug
  deriving DecidableEq, Repr

namespace TemplateFamily

/-- The family of a language. -/
def ofLang? : String → Option TemplateFamily
  | "html" => some .html
  | "pug" => some .pug
  | "jade" => some .pug
  | _ => none

/-- The name of a family. -/
def name : TemplateFamily → String
  | .html => "html"
  | .pug => "pug"

/-- All families, by name. -/
def all : List TemplateFamily := [.html, .pug]

end TemplateFamily

end ComponentCompiler
