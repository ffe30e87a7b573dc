import ComponentCompiler.Component.Compile

/-!
# How the tasks of a component end

Every style and the template of a component is a task of its own.  How it ends depends on nothing
but the task itself and the collaborators: the rules below say it case by case, with the error and
the language that the error names.

## Main definitions

* `Preprocessed` — what becomes of the text of a style before it is scoped.
* `InScope` — what becomes of its stylesheet in a component with or without a scope.
* `StyleEnds`, `TemplateEnds` — how the task of a style and that of the template end.

## Main results

* `styleEnds_iff`, `templateEnds_iff` — **the compiler keeps to the rules, and they leave no
  choice**.
-/

namespace ComponentCompiler

variable {c : Compiler} {address name : String} {scopeId : Option String} {style : StyleBlock}

/-! ### Styles -/

/-- What becomes of the text of a style before it is scoped: its language and a plain stylesheet, or
an error that names the language. -/
inductive Preprocessed (t : Toolchain) (address : String) (style : StyleBlock) :
    Except CompileError (String × String) → Prop where
  /-- A style that names no language is a plain stylesheet as it stands. -/
  | plain (h : style.lang = none) : Preprocessed t address style (.ok ("css", style.content))
  /-- Nobody knows the language. -/
  | unsupported {lang : String} (h : style.lang = some lang)
      (hfamily : StyleFamily.ofLang? lang = none) :
      Preprocessed t address style (.error (.unsupportedStyleLanguage lang))
  /-- The language is known, but no compiler is there for it. -/
  | missing {lang : String} {family : StyleFamily} (h : style.lang = some lang)
      (hfamily : StyleFamily.ofLang? lang = some family) (hcompiler : t.styles.get? family = none) :
      Preprocessed t address style (.error (.missingPreprocessor lang))
  /-- The compiler for the language gives a stylesheet. -/
  | compiled {lang : String} {family : StyleFamily} {compiler : StyleCompiler} {css : String}
      (h : style.lang = some lang) (hfamily : StyleFamily.ofLang? lang = some family)
      (hcompiler : t.styles.get? family = some compiler)
      (hcss : (compiler style.content { lang, address }).outcome = .ok css) :
      Preprocessed t address style (.ok (lang, css))
  /-- The compiler for the language fails. -/
  | failed {lang : String} {family : StyleFamily} {compiler : StyleCompiler} {cause : Cause}
      (h : style.lang = some lang) (hfamily : StyleFamily.ofLang? lang = some family)
      (hcompiler : t.styles.get? family = some compiler)
      (hcause : (compiler style.content { lang, address }).outcome = .error cause) :
      Preprocessed t address style (.error (.stylePreprocess lang cause))

/-- What becomes of a plain stylesheet in a component with or without a scope. -/
inductive InScope (scopeId : Option String) (style : StyleBlock) (css : String) :
    Except Style.CssError String → Prop where
  /-- A style that asks for no scope stays as it is, and so does every style of a component without
  a scope. -/
  | untouched (hscope : style.isScoped = false ∨ scopeId = none) :
      InScope scopeId style css (.ok css)
  /-- A style that asks for a scope gets that of the component, if its stylesheet can be scoped. -/
  | scoped {id : String} (hscoped : style.isScoped = true) (hid : scopeId = some id) :
      InScope scopeId style css (Style.scopeCss id css)

/-- How the task of a style ends in a component with or without a scope. -/
inductive StyleEnds (c : Compiler) (address : String) (scopeId : Option String)
    (style : StyleBlock) : Except CompileError StyleResult → Prop where
  /-- The stylesheet gets its scope, and is made small if the options ask for that. -/
  | finished {lang css sheet payload : String}
      (h : Preprocessed c.toolchain address style (.ok (lang, css)))
      (hsheet : InScope scopeId style css (.ok sheet))
      (hpayload : c.minified address sheet = .ok payload) :
      StyleEnds c address scopeId style (.ok { lang, isScoped := style.isScoped, payload })
  /-- There is no stylesheet. -/
  | failed {e : CompileError} (h : Preprocessed c.toolchain address style (.error e)) :
      StyleEnds c address scopeId style (.error e)
  /-- The stylesheet cannot be scoped. -/
  | unscopable {lang css : String} {e : Style.CssError}
      (h : Preprocessed c.toolchain address style (.ok (lang, css)))
      (herror : InScope scopeId style css (.error e)) :
      StyleEnds c address scopeId style (.error (.css e))
  /-- The stylesheet cannot be made small. -/
  | unminified {lang css sheet : String} {e : Style.CssError}
      (h : Preprocessed c.toolchain address style (.ok (lang, css)))
      (hsheet : InScope scopeId style css (.ok sheet))
      (herror : c.minified address sheet = .error e) :
      StyleEnds c address scopeId style (.error (.css e))

theorem preprocessed_plainCss (c : Compiler) (address : String) (style : StyleBlock) :
    Preprocessed c.toolchain address style (c.plainCss address style).outcome := by
  unfold Compiler.plainCss
  cases hlang : style.lang with
  | none => exact .plain hlang
  | some lang =>
    cases hfamily : StyleFamily.ofLang? lang with
    | none =>
      simp only [Toolchain.styleCompilerFor, hfamily]
      exact .unsupported hlang hfamily
    | some family =>
      cases hcompiler : c.toolchain.styles.get? family with
      | none =>
        simp only [Toolchain.styleCompilerFor, hfamily, hcompiler]
        exact .missing hlang hfamily hcompiler
      | some compiler =>
        simp only [Toolchain.styleCompilerFor, hfamily, hcompiler, Job.mapError, Job.andThen]
        cases hout : (compiler style.content { lang, address }).outcome with
        | ok css => exact .compiled hlang hfamily hcompiler hout
        | error cause => exact .failed hlang hfamily hcompiler hout

/-- The rules leave no choice. -/
theorem Preprocessed.unique {t : Toolchain} {r r' : Except CompileError (String × String)}
    (h : Preprocessed t address style r) (h' : Preprocessed t address style r') : r = r' := by
  cases h <;> cases h' <;> grind

theorem outcome_reported {ε α : Type} (t : Job ε α) : t.reported.outcome = t.outcome := by
  unfold Job.reported
  split <;> rfl

theorem inScope_scopedCss (scopeId : Option String) (style : StyleBlock) (css : String) :
    InScope scopeId style css (Compiler.scopedCss scopeId style css) := by
  unfold Compiler.scopedCss
  split
  · next hscoped => exact .scoped hscoped rfl
  · next hscope =>
    refine .untouched ?_
    cases hscoped : style.isScoped with
    | false => exact .inl rfl
    | true => exact .inr (Option.eq_none_iff_forall_ne_some.2 fun id hid => hscope id hid hscoped)

theorem InScope.unique {css : String} {r r' : Except Style.CssError String}
    (h : InScope scopeId style css r) (h' : InScope scopeId style css r') : r = r' := by
  cases h <;> cases h' <;> grind

theorem styleEnds_compileStyle (c : Compiler) (address : String) (scopeId : Option String)
    (style : StyleBlock) :
    StyleEnds c address scopeId style (c.compileStyle address scopeId style).outcome := by
  have hplain := preprocessed_plainCss c address style
  rw [Compiler.compileStyle, outcome_reported, Job.andThen]
  cases hout : (c.plainCss address style).outcome with
  | error e =>
    rw [hout] at hplain
    exact .failed hplain
  | ok r =>
    obtain ⟨lang, css⟩ := r
    rw [hout] at hplain
    have hscope := inScope_scopedCss scopeId style css
    cases hsheet : Compiler.scopedCss scopeId style css with
    | error e =>
      rw [hsheet] at hscope
      simp only [Except.bind, hsheet]
      exact .unscopable hplain hscope
    | ok sheet =>
      rw [hsheet] at hscope
      simp only [Except.bind, hsheet]
      show StyleEnds c address scopeId style
        (((c.minified address sheet).mapError .css).bind _)
      cases hpayload : c.minified address sheet with
      | error e => exact .unminified hplain hscope hpayload
      | ok payload => exact .finished hplain hscope hpayload

theorem StyleEnds.unique {r r' : Except CompileError StyleResult}
    (h : StyleEnds c address scopeId style r) (h' : StyleEnds c address scopeId style r') :
    r = r' := by
  -- two rules for one stylesheet differ in what its scope and its size make of it
  cases h with
  | finished h hsheet hpayload | failed h | unscopable h hsheet | unminified h hsheet herror =>
    cases h' with
    | finished h' hsheet' | failed h' | unscopable h' hsheet' | unminified h' hsheet' =>
      have := h.unique h'
      grind [InScope.unique]

/-- **The compiler keeps to the rules for styles, and they leave no choice.** -/
theorem styleEnds_iff {r : Except CompileError StyleResult} :
    (c.compileStyle address scopeId style).outcome = r ↔ StyleEnds c address scopeId style r :=
  ⟨fun h => h ▸ styleEnds_compileStyle c address scopeId style,
    (styleEnds_compileStyle c address scopeId style).unique⟩

/-! ### The template -/

/-- How the task of the template ends: with markup if there is a template, or with an error that
names its language. -/
inductive TemplateEnds (t : Toolchain) (name : String) :
    Option TemplateBlock → Except CompileError (Option String) → Prop where
  /-- There is no template. -/
  | none : TemplateEnds t name none (.ok .none)
  /-- A template that names no language is markup as it stands. -/
  | plain {template : TemplateBlock} (h : template.lang = .none) :
      TemplateEnds t name (some template) (.ok (some template.content))
  /-- Nobody knows the language. -/
  | unsupported {template : TemplateBlock} {lang : String} (h : template.lang = some lang)
      (hfamily : TemplateFamily.ofLang? lang = .none) :
      TemplateEnds t name (some template) (.error (.unsupportedTemplateLanguage lang))
  /-- The language is known, but no compiler is there for it. -/
  | missing {template : TemplateBlock} {lang : String} {family : TemplateFamily}
      (h : template.lang = some lang) (hfamily : TemplateFamily.ofLang? lang = some family)
      (hcompiler : t.templates.get? family = .none) :
      TemplateEnds t name (some template) (.error (.missingTemplateCompiler lang))
  /-- The compiler for the language gives markup. -/
  | compiled {template : TemplateBlock} {lang : String} {family : TemplateFamily}
      {compiler : TemplateCompiler} {markup : String} (h : template.lang = some lang)
      (hfamily : TemplateFamily.ofLang? lang = some family)
      (hcompiler : t.templates.get? family = some compiler)
      (hmarkup : (compiler template.content name).outcome = .ok markup) :
      TemplateEnds t name (some template) (.ok (some markup))
  /-- The compiler for the language fails. -/
  | failed {template : TemplateBlock} {lang : String} {family : TemplateFamily}
      {compiler : TemplateCompiler} {cause : Cause} (h : template.lang = some lang)
      (hfamily : TemplateFamily.ofLang? lang = some family)
      (hcompiler : t.templates.get? family = some compiler)
      (hcause : (compiler template.content name).outcome = .error cause) :
      TemplateEnds t name (some template) (.error (.templateLanguage lang cause))

theorem templateEnds_compileTemplate (c : Compiler) (name : String)
    (template : Option TemplateBlock) :
    TemplateEnds c.toolchain name template (c.compileTemplate name template).outcome := by
  cases template with
  | none => exact .none
  | some template =>
    cases hlang : template.lang with
    | none =>
      simp only [Compiler.compileTemplate, hlang]
      exact .plain hlang
    | some lang =>
      simp only [Compiler.compileTemplate, Toolchain.templateCompilerFor, hlang]
      cases hfamily : TemplateFamily.ofLang? lang with
      | none => exact .unsupported hlang hfamily
      | some family =>
        cases hcompiler : c.toolchain.templates.get? family with
        | none =>
          simp only [hcompiler]
          exact .missing hlang hfamily hcompiler
        | some compiler =>
          simp only [hcompiler, Job.mapError, Job.andThen]
          cases hout : (compiler template.content name).outcome with
          | ok markup => exact .compiled hlang hfamily hcompiler hout
          | error cause => exact .failed hlang hfamily hcompiler hout

theorem TemplateEnds.unique {t : Toolchain} {template : Option TemplateBlock}
    {r r' : Except CompileError (Option String)} (h : TemplateEnds t name template r)
    (h' : TemplateEnds t name template r') : r = r' := by
  cases h <;> cases h' <;> grind

/-- **The compiler keeps to the rules for templates, and they leave no choice.** -/
theorem templateEnds_iff {template : Option TemplateBlock}
    {r : Except CompileError (Option String)} :
    (c.compileTemplate name template).outcome = r ↔ TemplateEnds c.toolchain name template r :=
  ⟨fun h => h ▸ templateEnds_compileTemplate c name template,
    (templateEnds_compileTemplate c name template).unique⟩

/-- There is markup exactly if there is a template. -/
theorem TemplateEnds.isSome_iff {t : Toolchain} {template : Option TemplateBlock}
    {markup : Option String} (h : TemplateEnds t name template (.ok markup)) :
    markup.isSome ↔ template.isSome := by
  cases h <;> exact Iff.rfl

end ComponentCompiler
