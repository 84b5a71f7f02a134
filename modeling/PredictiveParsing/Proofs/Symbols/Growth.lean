import PredictiveParsing.Proofs.Symbols.Layout

/-!
# How a pool grows

What one declaration adds to a pool (`Pool.Gains`): an entry behind those that are there, with a
function also an empty scope for it, and with a parameter also its type at the end of a signature.
Everything that was there stays where it was and what it was (`Pool.Keeps`), but for the signature
of one function, and this is so after any number of declarations (`Keeps.trans`).

* `gains_declare`: what is declared where there is a place for it;
* `Gains.keeps`: nothing is lost.
-/

namespace PredictiveParsing

namespace Symbol

/-- The type of a variable, or of what a function returns. -/
def type : Symbol → ValueType
  | globalVar _ ty .. => ty
  | localVar _ ty .. => ty
  | function _ returns .. => returns

/-- The second symbol is the first one, but for the parameters of a function. -/
structure Stays (x y : Symbol) : Prop where
  name : y.name = x.name
  type : y.type = x.type
  width : y.width = x.width
  offset? : y.offset? = x.offset?

theorem Stays.refl (x : Symbol) : x.Stays x := ⟨rfl, rfl, rfl, rfl⟩

theorem Stays.trans {x y z : Symbol} (h : x.Stays y) (h' : y.Stays z) : x.Stays z :=
  ⟨h'.name.trans h.name, h'.type.trans h.type, h'.width.trans h.width, h'.offset?.trans h.offset?⟩

end Symbol

/-! ## Tables -/

namespace SymbolTable

variable {t t' t'' : SymbolTable}

/-- Every entry stays in its position. -/
def Keeps (t t' : SymbolTable) : Prop :=
  ∀ (i : Nat) (x : Symbol), t.entries[i]? = some x → ∃ y, t'.entries[i]? = some y ∧ x.Stays y

theorem Keeps.refl (t : SymbolTable) : t.Keeps t := fun _ x h => ⟨x, h, .refl x⟩

theorem Keeps.trans (h : t.Keeps t') (h' : t'.Keeps t'') : t.Keeps t'' := by
  intro i x hi
  obtain ⟨y, hy, hxy⟩ := h i x hi
  obtain ⟨z, hz, hyz⟩ := h' i y hy
  exact ⟨z, hz, hxy.trans hyz⟩

theorem keeps_append (t : SymbolTable) (x : Symbol) : t.Keeps (t.append x) := by
  intro i y hi
  exact ⟨y, (List.getElem?_append_left (List.getElem?_eq_some_iff.mp hi).1).trans hi, .refl y⟩

/-- The first symbol of a name stays the first one. -/
theorem Keeps.exists_query (h : t.Keeps t') {name : String} {x : Symbol}
    (hx : t.query name = some x) : ∃ y, t'.query name = some y ∧ x.Stays y := by
  obtain ⟨hname, i, hi, he, hfirst⟩ := List.find?_eq_some_iff_getElem.mp hx
  obtain ⟨y, hy, hstays⟩ := h i x (he ▸ List.getElem?_eq_getElem hi)
  obtain ⟨hi', he'⟩ := List.getElem?_eq_some_iff.mp hy
  refine ⟨y, List.find?_eq_some_iff_getElem.mpr ⟨hstays.name ▸ hname, i, hi', he', ?_⟩, hstays⟩
  intro j hj
  obtain ⟨z, hz, hstays'⟩ := h j _ (List.getElem?_eq_getElem (Nat.lt_trans hj hi))
  obtain ⟨hj', hz'⟩ := List.getElem?_eq_some_iff.mp hz
  rw [hz', hstays'.name]
  exact hfirst j hj

/-- A type comes to the parameters of one function, or nothing changes. -/
inductive TakesParam (t : SymbolTable) (ty : ValueType) : SymbolTable → Prop
  | unchanged : TakesParam t ty t
  | added {i scope : Nat} {name : String} {returns : ValueType} {params : List ValueType}
      (h : t.entries[i]? = some (.function name returns params scope)) :
      TakesParam t ty
        { t with entries := t.entries.set i (.function name returns (params ++ [ty]) scope) }

theorem TakesParam.keeps {ty : ValueType} (h : t.TakesParam ty t') : t.Keeps t' := by
  cases h with
  | unchanged => exact .refl t
  | @added j scope name returns params hj =>
    intro i x hi
    by_cases he : j = i
    · subst he
      obtain rfl := Option.some.inj (hi.symm.trans hj)
      exact ⟨_, List.getElem?_set_self (List.getElem?_eq_some_iff.mp hj).1, rfl, rfl, rfl, rfl⟩
    · exact ⟨x, (List.getElem?_set_ne he).trans hi, .refl x⟩

/-- The first symbol of a name need not be a function, and there may be none. -/
theorem takesParam_update (t : SymbolTable) (name : String) (ty : ValueType) :
    t.TakesParam ty (t.update name (·.addParam ty)) := by
  obtain ⟨entries, width⟩ := t
  rw [update]
  generalize entries.findIdx _ = i
  rw [List.modify_eq_set_getElem?]
  cases hi : entries[i]? with
  | none => exact .unchanged
  | some x =>
    have hsame (hx : x.addParam ty = x) :
        TakesParam ⟨entries, width⟩ ty ⟨entries.set i (x.addParam ty), width⟩ := by
      obtain ⟨_, rfl⟩ := List.getElem?_eq_some_iff.mp hi
      rw [hx, List.set_getElem_self]
      exact .unchanged
    cases x with
    | function => exact .added hi
    | globalVar => exact hsame rfl
    | localVar => exact hsame rfl

end SymbolTable

/-! ## Pools -/

namespace Pool

variable {p p' p'' : Pool}

/-- Every entry of every table stays in its position, and every scope with its name. -/
structure Keeps (p p' : Pool) : Prop where
  globals : p.globals.Keeps p'.globals
  functions : p.functions.Keeps p'.functions
  scopes : ∀ (i : Nat) (scope : Scope), p.scopes[i]? = some scope →
    ∃ scope', p'.scopes[i]? = some scope' ∧ scope'.name = scope.name ∧
      scope.table.Keeps scope'.table

theorem Keeps.refl (p : Pool) : p.Keeps p :=
  ⟨.refl _, .refl _, fun _ scope h => ⟨scope, h, rfl, .refl _⟩⟩

theorem Keeps.trans (h : p.Keeps p') (h' : p'.Keeps p'') : p.Keeps p'' := by
  refine ⟨h.globals.trans h'.globals, h.functions.trans h'.functions, fun i scope hi => ?_⟩
  obtain ⟨scope', hi', hname, hkeeps⟩ := h.scopes i scope hi
  obtain ⟨scope'', hi'', hname', hkeeps'⟩ := h'.scopes i scope' hi'
  exact ⟨scope'', hi'', hname'.trans hname, hkeeps.trans hkeeps'⟩

/-- One declaration more: a global variable, a local variable in one scope, a function with an empty
scope, or a parameter in one scope. -/
inductive Gains (p : Pool) : Pool → Prop
  | globalVar (name : String) (ty : ValueType) (width : Nat) :
      Gains p { p with globals := p.globals.append (.globalVar name ty width 0) }
  | localVar {i : Nat} {scope : Scope} (hscope : p.scopes[i]? = some scope) (name : String)
      (ty : ValueType) (width : Nat) :
      Gains p { p with scopes := p.scopes.set i (scope.append (.localVar name ty width 0 false)) }
  | function (name : String) (returns : ValueType) :
      Gains p
        { p with
          scopes := p.scopes ++ [{ name }]
          functions := p.functions.append (.function name returns [] p.scopes.length) }
  | param {i : Nat} {scope : Scope} {functions : SymbolTable} {ty : ValueType}
      (hscope : p.scopes[i]? = some scope) (hfunctions : p.functions.TakesParam ty functions)
      (name : String) :
      Gains p
        { p with
          scopes := p.scopes.set i (scope.append (.localVar name ty intWidth 0 true))
          functions }

/-- A scope takes one symbol more, and the others stay. -/
theorem keeps_set {i : Nat} {scope : Scope} (hscope : p.scopes[i]? = some scope) (x : Symbol)
    {functions : SymbolTable} (hfunctions : p.functions.Keeps functions) :
    p.Keeps { p with scopes := p.scopes.set i (scope.append x), functions } := by
  refine ⟨.refl _, hfunctions, fun j scope' hj => ?_⟩
  by_cases he : i = j
  · subst he
    obtain rfl := Option.some.inj (hj.symm.trans hscope)
    exact ⟨scope'.append x, List.getElem?_set_self (List.getElem?_eq_some_iff.mp hj).1, rfl,
      scope'.table.keeps_append x⟩
  · exact ⟨scope', (List.getElem?_set_ne he).trans hj, rfl, .refl _⟩

theorem Gains.keeps (h : p.Gains p') : p.Keeps p' := by
  cases h with
  | globalVar name ty width =>
    exact ⟨p.globals.keeps_append _, .refl _, (Keeps.refl p).scopes⟩
  | localVar hscope => exact keeps_set hscope _ (.refl _)
  | param hscope hfunctions => exact keeps_set hscope _ hfunctions.keeps
  | function name returns =>
    refine ⟨.refl _, p.functions.keeps_append _, fun i scope hi => ?_⟩
    exact ⟨scope, (List.getElem?_append_left (List.getElem?_eq_some_iff.mp hi).1).trans hi, rfl,
      .refl _⟩

/-! ## Declarations -/

/-- There is a scope for what is declared in one. -/
def HasPlace (p : Pool) : Binding → Prop
  | .localVar function .. => (p.scope? function).isSome
  | .param function .. => (p.scope? function).isSome
  | _ => True

/-- Only the first scope of the name changes. -/
theorem exists_scopes_appendLocal {function : String} (h : (p.scope? function).isSome)
    (x : Symbol) :
    ∃ i scope, p.scopes[i]? = some scope ∧
      (p.appendLocal function x).scopes = p.scopes.set i (scope.append x) := by
  obtain ⟨scope, hscope⟩ := Option.isSome_iff_exists.mp h
  rw [scope?, List.find?_eq_getElem?_findIdx] at hscope
  refine ⟨_, scope, hscope, ?_⟩
  show p.scopes.modify _ _ = _
  rw [List.modify_eq_set_getElem?, hscope]
  rfl

theorem gains_declare {b : Binding} (h : p.HasPlace b) : p.Gains (p.declare b) := by
  cases b with
  | globalVar name ty width => exact .globalVar name ty width
  | function name returns => exact .function name returns
  | localVar function name ty width =>
    obtain ⟨i, scope, hi, hscopes⟩ := exists_scopes_appendLocal h (.localVar name ty width 0 false)
    have hgains := Gains.localVar hi name ty width
    rwa [← hscopes] at hgains
  | param function name ty =>
    obtain ⟨i, scope, hi, hscopes⟩ := exists_scopes_appendLocal h (.localVar name ty intWidth 0 true)
    have hgains := Gains.param hi (p.functions.takesParam_update function ty) name
    rwa [← hscopes] at hgains

end Pool

end PredictiveParsing
