import PredictiveParsing.Proofs.Cminus.Rules
import PredictiveParsing.Proofs.Symbols.Lookup

/-!
# The pool represents the environment

While a program is checked, the pool of symbols has what the static rules call the environment, and
the scope of a function what they call its context. A table's width is the storage of its variables
until there is no address left.

* `Represents.withVariable`, `Represents.withFunction`: global declarations;
* `Inside.withParameter`, `Inside.withLocal`: declarations in a function.
-/

namespace PredictiveParsing.Cminus

/-! ## Tables -/

/-- The table has these variables with these widths. -/
structure Holds (t : SymbolTable) (declared : List (String × Nat)) : Prop where
  entries : t.entries.map Symbol.name = names declared
  width : t.width = min (storage declared) (storageLimit - 1)

section Holds

variable {t : SymbolTable} {declared : List (String × Nat)}

theorem Holds.exist_iff (h : Holds t declared) (name : String) :
    t.exist name = true ↔ name ∈ names declared := by
  rw [← h.entries, SymbolTable.exist, List.any_eq_true, List.mem_map]
  simp

theorem Holds.isSome_query_iff (h : Holds t declared) (name : String) :
    (t.query name).isSome = true ↔ name ∈ names declared := by
  rw [← t.exist_eq_isSome_query, h.exist_iff]

theorem Holds.hasRoom_iff (h : Holds t declared) {width : Nat} (hw : 0 < width) :
    t.hasRoom width = true ↔ storage declared + width < storageLimit := by
  rw [SymbolTable.hasRoom, decide_eq_true_iff, h.width]
  have hlimit : 0 < storageLimit := by decide
  omega

theorem Holds.append (h : Holds t declared) {s : Symbol} {name : String} {width : Nat}
    (hname : s.name = name) (hwidth : s.width = width) :
    Holds (t.append s) (declared ++ [(name, width)]) := by
  refine ⟨?_, ?_⟩
  · rw [SymbolTable.entries_append, List.map_append, h.entries, List.map_singleton,
      s.name_placeAt, hname]
    simp [names]
  · have hlimit : 0 < storageLimit := by decide
    have hstorage : storage (declared ++ [(name, width)]) = storage declared + width := by
      simp [storage]
    show min (t.width + s.width) (storageLimit - 1) = _
    rw [h.width, hwidth, hstorage]
    omega

end Holds

/-! ## The environment -/

theorem Environment.header?_withFunction (env : Environment) (name other : String)
    (header : Header) : (env.withFunction name header).header? other =
      (env.header? other).or (if name = other then some header else none) := by
  rw [header?, withFunction, List.lookup_append, header?]
  congr 1
  by_cases h : name = other
  · simp [h]
  · have hne : (other == name) = false := beq_false_of_ne fun he => h he.symm
    simp [h, List.lookup_cons, hne]

/-- The header that a function's entry stands for. -/
def headerOf : Symbol → Option Header
  | .function _ returns params _ => some ⟨returns, params.length⟩
  | _ => none

structure Represents (pool : Pool) (env : Environment) : Prop where
  globals : Holds pool.globals env.globals
  functions : ∀ name, (pool.function? name).map headerOf = (env.header? name).map some
  scopes : ∀ name, (pool.scope? name).isSome = (env.header? name).isSome

section Represents

variable {pool : Pool} {env : Environment}

theorem header?_initial (name : String) : Environment.initial.header? name =
    (if "input" = name then some ⟨.int, 0⟩ else none).or
      (if "output" = name then some ⟨.void, 1⟩ else none) := by
  have h : Environment.initial = ((⟨[], []⟩ : Environment).withFunction "input"
      ⟨.int, 0⟩).withFunction "output" ⟨.void, 1⟩ := rfl
  rw [h, Environment.header?_withFunction, Environment.header?_withFunction]
  rfl

theorem represents_initial : Represents Pool.initial .initial := by
  refine ⟨⟨rfl, rfl⟩, fun name => ?_, fun name => ?_⟩
  · rw [header?_initial, Pool.function?, Pool.initial, SymbolTable.query_append,
      SymbolTable.query_append, Symbol.name, Symbol.name]
    by_cases hi : "input" = name
    · rw [if_pos hi, if_pos hi]
      rfl
    · rw [if_neg hi, if_neg hi]
      by_cases ho : "output" = name
      · rw [if_pos ho, if_pos ho]
        rfl
      · rw [if_neg ho, if_neg ho]
        rfl
  · rw [header?_initial, Pool.scope?, Pool.initial, List.find?_cons, List.find?_cons]
    by_cases hi : "input" = name
    · simp [hi]
    · have hi' : ("input" == name) = false := beq_false_of_ne hi
      by_cases ho : "output" = name
      · simp [hi, ho, hi']
      · have ho' : ("output" == name) = false := beq_false_of_ne ho
        simp [hi, ho, hi', ho']

theorem Represents.isSome_function? (h : Represents pool env) (name : String) :
    (pool.function? name).isSome = (env.header? name).isSome := by
  have hf := congrArg Option.isSome (h.functions name)
  rwa [Option.isSome_map, Option.isSome_map] at hf

theorem Represents.calledFunction?_eq (h : Represents pool env) (name : String) :
    (calledFunction? pool name).map (fun entry => Header.mk entry.1 entry.2.length) =
      env.header? name := by
  have hf := h.functions name
  rw [calledFunction?]
  cases he : env.header? name with
  | none =>
    rw [he, Option.map_none, Option.map_eq_none_iff] at hf
    rw [hf]
    rfl
  | some header =>
    rw [he, Option.map_some, Option.map_eq_some_iff] at hf
    obtain ⟨s, hs, hheader⟩ := hf
    rw [hs]
    cases s with
    | function _ returns params _ => exact hheader
    | globalVar => cases hheader
    | localVar => cases hheader

theorem Represents.withVariable (h : Represents pool env) (name : String) (ty : ValueType)
    (width : Nat) : Represents (pool.declare (.globalVar name ty width))
      (env.withVariable name width) :=
  ⟨h.globals.append rfl rfl, h.functions, h.scopes⟩

theorem Represents.withFunction (h : Represents pool env) (name : String) (returns : ValueType) :
    Represents (pool.declare (.function name returns)) (env.withFunction name ⟨returns, 0⟩) := by
  refine ⟨h.globals, fun other => ?_, fun other => ?_⟩
  · have hf : (pool.declare (.function name returns)).function? other = (pool.function? other).or
        (if name = other then some (.function name returns [] pool.nextScope) else none) :=
      (pool.openScope name).function?_appendFunction _ other
    rw [hf, env.header?_withFunction, Option.map_or, Option.map_or, h.functions]
    congr 1
    by_cases hn : name = other
    · rw [if_pos hn, if_pos hn]
      rfl
    · rw [if_neg hn, if_neg hn]
      rfl
  · have hs : (pool.declare (.function name returns)).scope? other =
        (pool.scope? other).or (if name = other then some { name } else none) :=
      pool.scope?_openScope name other
    rw [hs, env.header?_withFunction, Option.isSome_or, Option.isSome_or, h.scopes]
    by_cases hn : name = other
    · rw [if_pos hn, if_pos hn]
      rfl
    · rw [if_neg hn, if_neg hn]
      rfl

end Represents

/-! ## The inside of a function -/

/-- The pool has this context for the function. -/
structure Inside (pool : Pool) (function : String) (s : Context) : Prop where
  outer : Represents pool s.outer
  header : ∃ parameters, s.outer.header? function = some ⟨s.returns, parameters⟩
  scope : ∃ scope, pool.scope? function = some scope ∧ Holds scope.table s.locals

section Inside

variable {pool : Pool} {function : String} {s : Context}

theorem Inside.view (h : Inside pool function s) :
    ∃ view : ScopeView, pool.view? function = some view ∧ view.outer = pool.globals ∧
      Holds view.inner.table s.locals := by
  obtain ⟨scope, hscope, hlocals⟩ := h.scope
  refine ⟨⟨scope, pool.globals⟩, ?_, rfl, hlocals⟩
  rw [Pool.view?, hscope, Option.map_some]

/-- A function that was just opened. -/
theorem Represents.inside (h : Represents pool env) {name : String}
    (hfresh : env.header? name = none) (returns : ValueType) :
    Inside (pool.declare (.function name returns)) name
      ⟨env.withFunction name ⟨returns, 0⟩, returns, []⟩ := by
  refine ⟨h.withFunction name returns, ⟨0, ?_⟩, { name }, ?_, rfl, rfl⟩
  · rw [env.header?_withFunction, hfresh, Option.none_or, if_pos rfl]
  · have hs : (pool.declare (.function name returns)).scope? name =
        (pool.scope? name).or (if name = name then some { name } else none) :=
      pool.scope?_openScope name name
    have hnone : pool.scope? name = none := by
      have hs := h.scopes name
      rw [hfresh] at hs
      exact Option.isNone_iff_eq_none.mp (Option.isSome_eq_false_iff.mp hs)
    rw [hs, hnone, Option.none_or, if_pos rfl]

theorem scopes_appendLocal (pool : Pool) (name other : String) (symbol : Symbol) :
    ((pool.appendLocal name symbol).scope? other).isSome = (pool.scope? other).isSome := by
  rw [Pool.scope?_appendLocal]
  by_cases h : other = name
  · rw [if_pos h, Option.isSome_map, h]
  · rw [if_neg h]

theorem Inside.scope_appendLocal (h : Inside pool function s) {symbol : Symbol} {name : String}
    {width : Nat} (hname : symbol.name = name) (hwidth : symbol.width = width) :
    ∃ scope, (pool.appendLocal function symbol).scope? function = some scope ∧
      Holds scope.table (s.locals ++ [(name, width)]) := by
  obtain ⟨scope, hscope, hlocals⟩ := h.scope
  refine ⟨scope.append symbol, ?_, hlocals.append hname hwidth⟩
  rw [Pool.scope?_appendLocal, if_pos rfl, hscope, Option.map_some]

theorem Inside.withLocal (h : Inside pool function s) (name : String) (ty : ValueType)
    (width : Nat) : Inside (pool.declare (.localVar function name ty width)) function
      { s with locals := s.locals ++ [(name, width)] } :=
  ⟨⟨h.outer.globals, h.outer.functions,
      fun other => (scopes_appendLocal pool function other _).trans (h.outer.scopes other)⟩,
    h.header, h.scope_appendLocal rfl rfl⟩

/-- A parameter is a local variable and counts in the function's header. -/
theorem Inside.withParameter {env : Environment} {returns : ValueType} {n : Nat}
    {locals : List (String × Nat)} (hfresh : env.header? function = none)
    (h : Inside pool function ⟨env.withFunction function ⟨returns, n⟩, returns, locals⟩)
    (name : String) (ty : ValueType) :
    Inside (pool.declare (.param function name ty)) function
      ⟨env.withFunction function ⟨returns, n + 1⟩, returns, locals ++ [(name, intWidth)]⟩ := by
  refine ⟨⟨h.outer.globals, fun other => ?_, fun other => ?_⟩, ⟨n + 1, ?_⟩,
    h.scope_appendLocal rfl rfl⟩
  · have hf := h.outer.functions other
    have hdeclare : (pool.declare (.param function name ty)).function? other =
        if other = function then (pool.function? function).map (·.addParam ty)
        else pool.function? other :=
      Pool.function?_addParam _ function other ty
    rw [env.header?_withFunction] at hf ⊢
    rw [hdeclare]
    by_cases ho : other = function
    · subst ho
      rw [hfresh, Option.none_or, if_pos rfl, Option.map_some, Option.map_eq_some_iff] at hf
      obtain ⟨symbol, hsymbol, hheader⟩ := hf
      rw [hfresh, Option.none_or, if_pos rfl, if_pos rfl, hsymbol]
      cases symbol with
      | function _ _ params _ =>
        cases hheader
        simp [Symbol.addParam, headerOf]
      | globalVar => cases hheader
      | localVar => cases hheader
    · have hne : function ≠ other := fun he => ho he.symm
      rw [if_neg hne] at hf ⊢
      rw [if_neg ho, hf]
  · have hs := (scopes_appendLocal pool function other (.localVar name ty intWidth 0 true)).trans
      (h.outer.scopes other)
    rw [env.header?_withFunction] at hs ⊢
    refine Eq.trans (b := ((pool.appendLocal function (.localVar name ty intWidth 0 true)).scope?
      other).isSome) rfl (hs.trans ?_)
    rw [Option.isSome_or, Option.isSome_or]
    by_cases hn : function = other
    · rw [if_pos hn, if_pos hn]
      rfl
    · rw [if_neg hn, if_neg hn]
  · rw [env.header?_withFunction, hfresh, Option.none_or, if_pos rfl]

end Inside

end PredictiveParsing.Cminus
