import PredictiveParsing.Proofs.Cminus.Compilers
import PredictiveParsing.Proofs.Parse.Agreement

/-!
# The pool of a program lists its declarations

`Source.pool` is the pool that a source asks for: its global variables in their order, the built-in
functions and then its own, and for each function a scope with its parameters and then its local
variables. Making the declarations of a legal source one after the other gives this pool
(`declareAll_bindings`), since no function is opened under a name that is there; so every successful
compilation, with whatever table, has it (`compile_lists`).
-/

namespace PredictiveParsing

namespace SymbolTable

/-- A table with these symbols one after the other. -/
def ofSymbols (ss : List Symbol) : SymbolTable := ss.foldl append {}

theorem ofSymbols_concat (ss : List Symbol) (s : Symbol) :
    ofSymbols (ss ++ [s]) = (ofSymbols ss).append s := by
  rw [ofSymbols, List.foldl_append]
  rfl

theorem entries_ofSymbols_names (ss : List Symbol) :
    (ofSymbols ss).entries.map Symbol.name = ss.map Symbol.name := by
  have hfold : ∀ t : SymbolTable, (ss.foldl append t).entries.map Symbol.name =
      t.entries.map Symbol.name ++ ss.map Symbol.name := by
    induction ss with
    | nil => simp
    | cons s ss ih =>
      intro t
      rw [List.foldl_cons, ih, entries_append]
      simp [s.name_placeAt]
  exact hfold {}

end SymbolTable

namespace Cminus

/-! ## The pool that a source asks for -/

def Parameter.symbol (p : Parameter) : Symbol := .localVar p.name .int intWidth 0 true

def Variable.localSymbol (v : Variable) : Symbol := .localVar v.name .int v.width 0 false

def Variable.globalSymbol (v : Variable) : Symbol := .globalVar v.name .int v.width 0

/-- Parameters come first, arrays among them as any other. -/
def Function.symbols (f : Function) : List Symbol :=
  f.parameters.map Parameter.symbol ++ f.locals.map Variable.localSymbol

def Function.scope (f : Function) : Scope := ⟨f.name, .ofSymbols f.symbols⟩

/-- The entry of a function whose scope is the one at this index. -/
def Function.symbol (scope : Nat) (f : Function) : Symbol :=
  .function f.name f.returns (f.parameters.map fun _ => .int) scope

def Definition.variable? : Definition → Option Variable
  | var v => some v
  | function _ => none

def Definition.function? : Definition → Option Function
  | var _ => none
  | function f => some f

namespace Source

/-- The global variables, in the order of their definition. -/
def globals (source : Source) : List Variable := source.filterMap Definition.variable?

def functions (source : Source) : List Function := source.filterMap Definition.function?

def pool (source : Source) : Pool where
  globals := .ofSymbols (source.globals.map Variable.globalSymbol)
  scopes :=
    ⟨"input", {}⟩ :: ⟨"output", .ofSymbols [.localVar "num" .int intWidth 0 true]⟩ ::
      source.functions.map Function.scope
  functions := .ofSymbols
    (.function "input" .int [] 0 :: .function "output" .void [.int] 1 ::
      source.functions.mapIdx fun i f => f.symbol (i + 2))

end Source

/-! ## Changing the last of a list -/

theorem modify_findIdx_concat {β : Type} {p : β → Bool} {xs : List β} {y : β}
    (hxs : ∀ x ∈ xs, p x = false) (hy : p y = true) (f : β → β) :
    (xs ++ [y]).modify ((xs ++ [y]).findIdx p) f = xs ++ [f y] := by
  induction xs with
  | nil => simp [List.findIdx_cons, hy]
  | cons x xs ih =>
    obtain ⟨hx, hxs⟩ := List.forall_mem_cons.mp hxs
    rw [List.cons_append, List.findIdx_cons, hx, cond_false, List.modify_succ_cons, ih hxs,
      List.cons_append]

/-! ## Declarations of one function -/

/-- The pool with one more function, which has these parameters and this table. -/
def opened (pool : Pool) (name : String) (returns : ValueType) (params : List ValueType)
    (table : SymbolTable) : Pool where
  globals := pool.globals
  scopes := pool.scopes ++ [⟨name, table⟩]
  functions := pool.functions.append (.function name returns params pool.nextScope)

section Opened

variable {pool : Pool} {name : String} {returns : ValueType} {params : List ValueType}
  {table : SymbolTable}

/-- What is appended to the scope of the last function stays there when no other has its name. -/
theorem appendLocal_opened (hscopes : ∀ s ∈ pool.scopes, s.name ≠ name) (symbol : Symbol) :
    (opened pool name returns params table).appendLocal name symbol =
      opened pool name returns params (table.append symbol) := by
  have hmodify := modify_findIdx_concat (p := fun s : Scope => s.name == name) (y := ⟨name, table⟩)
    (fun s hs => beq_false_of_ne (hscopes s hs)) (by simp) (·.append symbol)
  simp only [opened, Pool.appendLocal, hmodify]
  rfl

theorem addParam_opened (hfunctions : ∀ s ∈ pool.functions.entries, s.name ≠ name)
    (ty : ValueType) :
    (opened pool name returns params table).addParam name ty =
      opened pool name returns (params ++ [ty]) table := by
  have hmodify := modify_findIdx_concat (p := fun s : Symbol => s.name == name)
    (y := .function name returns params pool.nextScope)
    (fun s hs => beq_false_of_ne (hfunctions s hs)) (by simp [Symbol.name]) (·.addParam ty)
  simp only [opened, Pool.addParam, SymbolTable.update, SymbolTable.entries_append, Symbol.placeAt,
    hmodify]
  rfl

theorem declareAll_parameters (hscopes : ∀ s ∈ pool.scopes, s.name ≠ name)
    (hfunctions : ∀ s ∈ pool.functions.entries, s.name ≠ name) (ps : List Parameter) :
    declareAll (opened pool name returns params table) (ps.map (Parameter.binding name)) =
      opened pool name returns (params ++ ps.map fun _ => .int)
        ((ps.map Parameter.symbol).foldl SymbolTable.append table) := by
  induction ps generalizing params table with
  | nil => simp [declareAll]
  | cons p ps ih =>
    have hdeclare : (opened pool name returns params table).declare (p.binding name) =
        opened pool name returns (params ++ [.int]) (table.append p.symbol) := by
      rw [Parameter.binding, Pool.declare, appendLocal_opened hscopes, addParam_opened hfunctions]
      rfl
    rw [List.map_cons, declareAll, List.foldl_cons, hdeclare]
    refine ih.trans ?_
    simp

theorem declareAll_locals (hscopes : ∀ s ∈ pool.scopes, s.name ≠ name) (vs : List Variable) :
    declareAll (opened pool name returns params table) (vs.map (Variable.localBinding name)) =
      opened pool name returns params
        ((vs.map Variable.localSymbol).foldl SymbolTable.append table) := by
  induction vs generalizing table with
  | nil => rfl
  | cons v vs ih =>
    have hdeclare : (opened pool name returns params table).declare (v.localBinding name) =
        opened pool name returns params (table.append v.localSymbol) :=
      appendLocal_opened hscopes _
    rw [List.map_cons, declareAll, List.foldl_cons, hdeclare]
    exact ih

end Opened

theorem declareAll_function {pool : Pool} {f : Function}
    (hscopes : ∀ s ∈ pool.scopes, s.name ≠ f.name)
    (hfunctions : ∀ s ∈ pool.functions.entries, s.name ≠ f.name) :
    declareAll pool f.bindings =
      opened pool f.name f.returns (f.parameters.map fun _ => .int) (.ofSymbols f.symbols) := by
  have hopen : declareAll pool f.bindings = declareAll (opened pool f.name f.returns [] {})
      (f.parameters.map (Parameter.binding f.name) ++
        f.locals.map (Variable.localBinding f.name)) := rfl
  rw [hopen, declareAll_append, declareAll_parameters hscopes hfunctions,
    declareAll_locals hscopes, SymbolTable.ofSymbols, Function.symbols, List.foldl_append]
  rfl

/-! ## Declarations of a program -/

section Pool

variable (source : Source)

/-- The names under which functions are there, the built-in ones before the others. -/
def Source.functionNames : List String := "input" :: "output" :: source.functions.map Function.name

theorem Source.scope_names : source.pool.scopes.map Scope.name = source.functionNames := by
  simp [pool, functionNames, Function.scope, Function.comp_def]

theorem Source.function_names :
    source.pool.functions.entries.map Symbol.name = source.functionNames := by
  have hnames : (source.functions.mapIdx fun i f => f.symbol (i + 2)).map Symbol.name =
      source.functions.map Function.name := by
    refine List.ext_getElem? fun i => ?_
    simp [List.getElem?_mapIdx, Function.symbol, Symbol.name, Function.comp_def]
  rw [pool, SymbolTable.entries_ofSymbols_names]
  simpa [functionNames, Symbol.name] using hnames

theorem Source.functions_environment (env : Environment) :
    (source.environment env).functions.map Prod.fst =
      env.functions.map Prod.fst ++ source.functions.map Function.name := by
  induction source generalizing env with
  | nil => simp [environment, functions]
  | cons d ds ih =>
    have hstep : Source.environment (d :: ds) env = Source.environment ds (d.after env) := rfl
    rw [hstep, ih]
    cases d with
    | var v => rfl
    | function f =>
      simp [Definition.after, Function.header, Environment.withFunction, functions,
        Definition.function?]

/-- No function of the source has a name that may still be declared. -/
theorem Source.fresh_of_header? {name : String}
    (h : (source.environment .initial).header? name = none) : name ∉ source.functionNames := by
  have hnames : (source.environment .initial).functions.map Prod.fst = source.functionNames :=
    source.functions_environment .initial
  rw [← hnames]
  intro hmem
  obtain ⟨⟨_, header⟩, hentry, rfl⟩ := List.mem_map.mp hmem
  rw [Environment.header?, List.lookup_eq_none_iff] at h
  exact absurd (h _ hentry) (by simp)

theorem Source.pool_concat_var (v : Variable) :
    Source.pool (source ++ [.var v]) = declareAll source.pool (Definition.var v).bindings := by
  have hglobals : Source.globals (source ++ [.var v]) = source.globals ++ [v] := by
    simp [globals, Definition.variable?]
  have hfunctions : Source.functions (source ++ [.var v]) = source.functions := by
    simp [functions, Definition.function?]
  rw [pool, hglobals, hfunctions, List.map_append, List.map_singleton, SymbolTable.ofSymbols_concat]
  rfl

theorem Source.pool_concat_function {f : Function} (h : f.name ∉ source.functionNames) :
    Source.pool (source ++ [.function f]) =
      declareAll source.pool (Definition.function f).bindings := by
  have hscopes : ∀ s ∈ source.pool.scopes, s.name ≠ f.name := fun s hs he =>
    h (source.scope_names ▸ he ▸ List.mem_map_of_mem hs)
  have hentries : ∀ s ∈ source.pool.functions.entries, s.name ≠ f.name := fun s hs he =>
    h (source.function_names ▸ he ▸ List.mem_map_of_mem hs)
  have hglobals : Source.globals (source ++ [.function f]) = source.globals := by
    simp [globals, Definition.variable?]
  have hfunctions : Source.functions (source ++ [.function f]) = source.functions ++ [f] := by
    simp [functions, Definition.function?]
  have hscope : source.pool.nextScope = source.functions.length + 2 := by
    simp [pool, Pool.nextScope]
  rw [Definition.bindings, declareAll_function hscopes hentries, opened, hscope, pool, hglobals,
    hfunctions, List.mapIdx_concat, ← List.cons_append, ← List.cons_append,
    SymbolTable.ofSymbols_concat, List.map_append]
  rfl

/-- Behind a source that is legal so far, the declarations of legal definitions lead on to the pool
of both together. -/
theorem Source.declareAll_pool {rest : Source} :
    ∀ {source : Source}, LegalIn (source.environment .initial) rest →
      declareAll source.pool rest.bindings = Source.pool (source ++ rest) := by
  induction rest with
  | nil =>
    intro source _
    rw [List.append_nil]
    rfl
  | cons d ds ih =>
    rintro source ⟨hd, hds⟩
    have hpool : declareAll source.pool d.bindings = Source.pool (source ++ [d]) := by
      cases d with
      | var v => exact (source.pool_concat_var v).symm
      | function f =>
        refine (source.pool_concat_function (source.fresh_of_header? ?_)).symm
        simpa using fun hsome => hd.fresh (.inr hsome)
    have henvironment : Source.environment (source ++ [d]) .initial =
        d.after (source.environment .initial) := List.foldl_append
    have hstep : Source.bindings (d :: ds) = d.bindings ++ Source.bindings ds := rfl
    rw [hstep, declareAll_append, hpool, ih (henvironment ▸ hds), List.append_assoc]
    rfl

end Pool

/-- A legal source declares its pool. -/
theorem Source.Legal.declareAll_bindings {source : Source} (h : source.Legal) :
    declareAll Pool.initial source.bindings = source.pool :=
  @Source.declareAll_pool source [] h

/-! ## Types and widths -/

/-- An integer takes 4, and an array 4 for each of its elements. -/
structure Variable.Measured (v : Variable) : Prop where
  type : v.type.type? = some .int
  width : match v.length with
    | none => v.width = 4
    | some text => ∃ n, count? text = some n ∧ 0 < n ∧ v.width = 4 * n

theorem Variable.Legal.toMeasured {v : Variable} {taken : String → Prop} {used : Nat}
    (h : v.Legal taken used) : v.Measured := by
  refine ⟨h.type, ?_⟩
  have hmeasured := h.measured
  rw [Variable.width]
  cases hlength : v.length with
  | none => rfl
  | some text =>
    rw [hlength] at hmeasured
    obtain ⟨width, hwidth⟩ := Option.isSome_iff_exists.mp hmeasured
    obtain ⟨n, hn, hpositive⟩ := Option.bind_eq_some_iff.mp hwidth
    obtain ⟨hlt, hsome⟩ := Option.ite_none_right_eq_some.mp hpositive
    obtain rfl := Option.some.inj hsome
    exact ⟨n, hn, hlt, by rw [hwidth]; rfl⟩

theorem LegalParameters.type {globals : List (String × Nat)} {ps : List Parameter} :
    ∀ {declared : List (String × Nat)}, LegalParameters globals declared ps →
      ∀ p ∈ ps, p.type.type? = some .int := by
  induction ps with
  | nil => simp
  | cons p ps ih =>
    rintro declared ⟨hp, hps⟩
    exact List.forall_mem_cons.mpr ⟨hp.type, ih hps⟩

theorem LegalLocals.measured {globals : List (String × Nat)} {vs : List Variable} :
    ∀ {declared : List (String × Nat)}, LegalLocals globals declared vs →
      ∀ v ∈ vs, v.Measured := by
  induction vs with
  | nil => simp
  | cons v vs ih =>
    rintro declared ⟨hv, hvs⟩
    exact List.forall_mem_cons.mpr ⟨hv.toMeasured, ih hvs⟩

/-- The function has its type by its keyword, its parameters are integers, and its local variables
have their widths. -/
structure Function.Typed (f : Function) : Prop where
  returns : f.type.type? = some f.returns
  parameters : ∀ p ∈ f.parameters, p.type.type? = some .int
  locals : ∀ v ∈ f.locals, v.Measured

theorem Function.Legal.typed {f : Function} {env : Environment} (h : f.Legal env) : f.Typed := by
  refine ⟨?_, h.parameters.type, h.locals.measured⟩
  obtain ⟨ty, hty⟩ := Option.isSome_iff_exists.mp h.type
  rw [Function.returns, hty, Option.getD_some]

theorem LegalIn.typed {source : Source} : ∀ {env : Environment}, LegalIn env source →
    (∀ v ∈ source.globals, v.Measured) ∧ ∀ f ∈ source.functions, f.Typed := by
  induction source with
  | nil =>
    intro env _
    exact ⟨by simp [Source.globals], by simp [Source.functions]⟩
  | cons d ds ih =>
    rintro env ⟨hd, hds⟩
    obtain ⟨hglobals, hfunctions⟩ := ih hds
    cases d with
    | var v => exact ⟨List.forall_mem_cons.mpr ⟨Variable.Legal.toMeasured hd, hglobals⟩, hfunctions⟩
    | function f => exact ⟨hglobals, List.forall_mem_cons.mpr ⟨Function.Legal.typed hd, hfunctions⟩⟩

/-! ## Results -/

/-- Whatever table the compiler has: a program that it accepts spells a source, and the pool is
exactly what the source declares, with the types and widths that are written there. -/
theorem compile_lists {c : Compiler} (hc : c.Made) {tokens : List Token} {program : Program}
    (h : c.compile tokens = some (.ok program)) :
    (∃ source : Source, source.Spells tokens) ∧
      ∀ source : Source, source.Spells tokens → program.symbols = source.pool ∧
        (∀ v ∈ source.globals, v.Measured) ∧ ∀ f ∈ source.functions, f.Typed := by
  obtain ⟨hgrammar, hfits⟩ := hc.fits
  obtain ⟨g, t, overlaps⟩ := c
  cases hgrammar
  obtain ⟨compiled, hcompiled, -⟩ := exists_ofGrammar
  have hexact := Compiled.exact_of_ofGrammar hcompiled
  obtain ⟨hresult, hpool⟩ := Compiler.compile_eq_some_ok_iff.mp h
  obtain ⟨hresult', hpool'⟩ := Machine.refines_of_fits hcompiled distinctShapes_resolved hfits
    local_semantics tokens Pool.initial program.tree hresult
  obtain ⟨hv, -⟩ := Run.result?_eq_some_ok_iff.mp hresult'
  refine ⟨sentence_iff_exists_source.mp (Machine.sentence_of_accepted hexact local_semantics hv),
    fun source hspells => ?_⟩
  obtain ⟨F, hmap, rfl, hF⟩ := hspells.exists_forest
  have hlegal := (accepted_iff_legal hexact hF hmap).mp hv
  refine ⟨?_, LegalIn.typed hlegal⟩
  calc program.symbols
      = ((Machine.mk resolved compiled.table semantics).run F.tokens Pool.initial).pool :=
        (hpool'.trans hpool).symm
    _ = declareAll Pool.initial source.bindings := pool_of_accepted hexact hF hmap hv
    _ = source.pool := hlegal.declareAll_bindings

/-- An array, and a function with an array parameter and a local variable. -/
def smallSource : Source :=
  [.var ⟨⟨.int, "int"⟩, "x", some "3"⟩,
   .function ⟨⟨.void, "void"⟩, "f", [⟨⟨.int, "int"⟩, "a", false⟩, ⟨⟨.int, "int"⟩, "b", true⟩],
     [⟨⟨.int, "int"⟩, "y", none⟩], .done⟩]

def smallTokens : List Token :=
  smallSource.spelling.map fun t => ⟨t.kind, if t.text = "" then t.kind else t.text, 1⟩

theorem compile_smallTokens : ((Compiled.ofGrammar resolved).map fun c =>
    ((Compiler.mk resolved c.table c.overlaps).compile smallTokens).any fun r => r.toBool) =
      .ok true := by
  decide +kernel

theorem compile_lists_smallTokens : ∃ (c : Compiler) (program : Program), c.Made ∧
    c.compile smallTokens = some (.ok program) ∧ program.symbols =
      { globals := ⟨[.globalVar "x" .int 12 0], 12⟩
        scopes := [⟨"input", {}⟩, ⟨"output", ⟨[.localVar "num" .int 4 0 true], 4⟩⟩,
          ⟨"f", ⟨[.localVar "a" .int 4 0 true, .localVar "b" .int 4 4 true,
            .localVar "y" .int 4 8 false], 12⟩⟩]
        functions := ⟨[.function "input" .int [] 0, .function "output" .void [.int] 1,
          .function "f" .void [.int, .int] 2], 0⟩ } := by
  obtain ⟨compiled, hcompiler, hsome⟩ := Compiler.exists_ofGrammar_of_map compile_smallTokens
  obtain ⟨r, hr, hok⟩ := (Option.any_eq_true ..).mp hsome
  cases r with
  | error => cases hok
  | ok program =>
    have hmade := Compiler.Made.ofGrammar hcompiler
    have hspells : smallSource.Spells smallTokens := by
      rw [Source.Spells]
      decide
    obtain ⟨hpool, -⟩ := (compile_lists hmade hr).2 smallSource hspells
    exact ⟨_, program, hmade, hr, hpool.trans (by decide)⟩

end Cminus

end PredictiveParsing
