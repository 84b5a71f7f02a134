import PredictiveParsing.Proofs.Symbols.Lookup

/-!
# Sound pools

What a pool of C-minus declarations satisfies at any time, whatever was declared and wherever a
program broke off: functions and scopes go together, `input` and `output` are as they were, names
are told apart, parameters come first, and variables are integers that take whole words.

* `sound_initial`: the pool of a program without declarations is sound;
* `Sound.declareGlobal`, `declareFunction`, `declareLocal`, `declareParam`: a declaration that was
  checked keeps a pool sound.
-/

namespace PredictiveParsing

/-- Room for one integer or more. -/
def IsWords (width : Nat) : Prop := 0 < width ∧ intWidth ∣ width

/-! ## Names -/

theorem SymbolTable.exist_eq_false_iff {t : SymbolTable} {name : String} :
    t.exist name = false ↔ name ∉ t.entries.map Symbol.name := by
  simp only [exist, List.any_eq_false, beq_iff_eq, List.mem_map, not_exists, not_and]

/-- One more name that was not there. -/
theorem nodup_append_singleton {names : List String} {name : String} (h : names.Nodup)
    (hname : name ∉ names) : (names ++ [name]).Nodup := by
  refine List.nodup_append.mpr ⟨h, List.pairwise_singleton _ _, fun a ha b hb => ?_⟩
  rw [List.mem_singleton.mp hb]
  rintro rfl
  exact hname ha

section Keys

variable {β : Type} {key : β → String} {bs : List β} {i : Nat} {b : β}

/-- Where the keys are told apart, an element is the first of its key. -/
theorem findIdx_eq_of_nodup (h : (bs.map key).Nodup) (hi : bs[i]? = some b) :
    bs.findIdx (fun x => key x == key b) = i := by
  obtain ⟨hlt, rfl⟩ := List.getElem?_eq_some_iff.mp hi
  refine (List.findIdx_eq hlt).mpr ⟨by simp, fun j hj => beq_false_of_ne fun he => ?_⟩
  have hne := List.pairwise_iff_getElem.mp h j i (by simp; omega) (by simpa) hj
  simp only [List.getElem_map] at hne
  exact hne he

theorem find?_eq_of_nodup (h : (bs.map key).Nodup) (hi : bs[i]? = some b) :
    bs.find? (fun x => key x == key b) = some b := by
  have hidx := findIdx_eq_of_nodup h hi
  have hlt : bs.findIdx (fun x => key x == key b) < bs.length :=
    hidx ▸ (List.getElem?_eq_some_iff.mp hi).1
  rw [List.find?_eq_getElem?_findIdx, hidx, hi]

end Keys

/-! ## Scopes -/

namespace Scope

/-- The types of the parameters. -/
def paramTypes (s : Scope) : List ValueType :=
  s.table.entries.filterMap fun
    | .localVar _ ty _ _ true => some ty
    | _ => none

def OnlyParams (s : Scope) : Prop := ∀ x ∈ s.table.entries, x.isParam = true

structure Sound (s : Scope) : Prop where
  names : (s.table.entries.map Symbol.name).Nodup
  params_first : ∃ params locals, s.table.entries = params ++ locals ∧
    (∀ x ∈ params, x.isParam = true) ∧ ∀ x ∈ locals, x.isParam = false
  symbols : ∀ x ∈ s.table.entries, ∃ name width offset isParam,
    x = .localVar name .int width offset isParam ∧ IsWords width

theorem sound_empty (name : String) : ({ name := name } : Scope).Sound :=
  ⟨List.nodup_nil, ⟨[], [], rfl, List.forall_mem_nil _, List.forall_mem_nil _⟩,
    List.forall_mem_nil _⟩

variable {s : Scope} {name : String} {width : Nat}

theorem names_append (hs : s.Sound) (hfree : s.table.exist name = false) (isParam : Bool) :
    ((s.append (.localVar name .int width 0 isParam)).table.entries.map Symbol.name).Nodup := by
  have hentries : (s.append (.localVar name .int width 0 isParam)).table.entries =
      s.table.entries ++ [.localVar name .int width s.table.width isParam] := rfl
  rw [hentries, List.map_append]
  exact nodup_append_singleton hs.names (SymbolTable.exist_eq_false_iff.mp hfree)

theorem symbols_append (hs : s.Sound) (hwidth : IsWords width) (isParam : Bool) :
    ∀ x ∈ (s.append (.localVar name .int width 0 isParam)).table.entries,
      ∃ name width offset isParam, x = .localVar name .int width offset isParam ∧ IsWords width := by
  intro x hx
  rcases List.mem_append.mp hx with hx | hx
  · exact hs.symbols x hx
  · rw [List.mem_singleton] at hx
    exact ⟨name, width, s.table.width, isParam, hx, hwidth⟩

theorem Sound.appendLocal (hs : s.Sound) (hfree : s.table.exist name = false)
    (hwidth : IsWords width) : (s.append (.localVar name .int width 0 false)).Sound := by
  obtain ⟨params, locals, hentries, hparams, hlocals⟩ := hs.params_first
  refine ⟨names_append hs hfree false, ?_, symbols_append hs hwidth false⟩
  refine ⟨params, locals ++ [.localVar name .int width s.table.width false], ?_, hparams, ?_⟩
  · rw [← List.append_assoc, ← hentries]
    rfl
  · exact List.forall_mem_append.mpr ⟨hlocals, List.forall_mem_singleton.mpr rfl⟩

theorem OnlyParams.append (hs : s.OnlyParams) :
    (s.append (.localVar name .int width 0 true)).OnlyParams :=
  List.forall_mem_append.mpr ⟨hs, List.forall_mem_singleton.mpr rfl⟩

theorem Sound.appendParam (hs : s.Sound) (honly : s.OnlyParams)
    (hfree : s.table.exist name = false) (hwidth : IsWords width) :
    (s.append (.localVar name .int width 0 true)).Sound :=
  ⟨names_append hs hfree true, ⟨_, [], (List.append_nil _).symm, honly.append,
    List.forall_mem_nil _⟩, symbols_append hs hwidth true⟩

theorem paramTypes_appendLocal (s : Scope) (name : String) (width : Nat) :
    (s.append (.localVar name .int width 0 false)).paramTypes = s.paramTypes := by
  simp [paramTypes, Scope.append, Symbol.placeAt]

theorem paramTypes_appendParam (s : Scope) (name : String) (width : Nat) :
    (s.append (.localVar name .int width 0 true)).paramTypes = s.paramTypes ++ [.int] := by
  simp [paramTypes, Scope.append, Symbol.placeAt]

end Scope

/-! ## Pools -/

namespace Pool

/-- Functions and scopes go together, with the first two as they were at first, and all is in order
in them and in the global table. -/
structure Sound (p : Pool) : Prop where
  length_eq : p.functions.entries.length = p.scopes.length
  entry : ∀ i scope, p.scopes[i]? = some scope → ∃ returns,
    p.functions.entries[i]? = some (Symbol.function scope.name returns scope.paramTypes i)
  builtin_scopes : p.scopes.take 2 = initial.scopes
  builtin_functions : p.functions.entries.take 2 = initial.functions.entries
  function_names : (p.functions.entries.map Symbol.name).Nodup
  global_names : (p.globals.entries.map Symbol.name).Nodup
  disjoint : ∀ name ∈ p.functions.entries.map Symbol.name,
    name ∉ p.globals.entries.map Symbol.name
  scopes : ∀ scope ∈ p.scopes, scope.Sound
  globals : ∀ x ∈ p.globals.entries, ∃ name width offset,
    x = .globalVar name .int width offset ∧ IsWords width

theorem sound_initial : initial.Sound where
  length_eq := rfl
  entry := by
    rintro (_ | _ | i) scope h
    · cases h
      exact ⟨.int, rfl⟩
    · cases h
      exact ⟨.void, rfl⟩
    · cases h
  builtin_scopes := rfl
  builtin_functions := rfl
  function_names := by decide
  global_names := List.nodup_nil
  disjoint := fun _ _ h => nomatch h
  scopes := by
    refine List.forall_mem_cons.mpr ⟨Scope.sound_empty "input", List.forall_mem_singleton.mpr ?_⟩
    exact (Scope.sound_empty "output").appendParam (List.forall_mem_nil _) rfl
      ⟨by decide, Nat.dvd_refl _⟩
  globals := List.forall_mem_nil _

variable {p : Pool}

theorem Sound.names_eq (h : p.Sound) :
    p.functions.entries.map Symbol.name = p.scopes.map Scope.name := by
  refine List.ext_getElem (by simp [h.length_eq]) fun i hi hi' => ?_
  rw [List.length_map] at hi'
  obtain ⟨returns, hentry⟩ := h.entry i _ (List.getElem?_eq_getElem hi')
  obtain ⟨hlt, hget⟩ := List.getElem?_eq_some_iff.mp hentry
  rw [List.getElem_map, List.getElem_map, hget]
  rfl

theorem Sound.scope_names (h : p.Sound) : (p.scopes.map Scope.name).Nodup :=
  h.names_eq ▸ h.function_names

/-! ## Functions of a program -/

/-- The scope at `i` has this name and is not one that was there at first. -/
def Opens (p : Pool) (f : String) (i : Nat) (scope : Scope) : Prop :=
  2 ≤ i ∧ p.scopes[i]? = some scope ∧ scope.name = f

/-- A program has begun to define this function. -/
def Opened (p : Pool) (f : String) : Prop := ∃ i scope, p.Opens f i scope

/-- A program has begun to define this function, and has come to parameters only. -/
def InHeader (p : Pool) (f : String) : Prop := ∃ i scope, p.Opens f i scope ∧ scope.OnlyParams

theorem InHeader.opened {f : String} (h : p.InHeader f) : p.Opened f := by
  obtain ⟨i, scope, hf, -⟩ := h
  exact ⟨i, scope, hf⟩

section Opens

variable {f : String} {i : Nat} {scope : Scope}

theorem Sound.scope?_eq (h : p.Sound) (hf : p.Opens f i scope) : p.scope? f = some scope := by
  obtain ⟨-, hget, rfl⟩ := hf
  exact find?_eq_of_nodup h.scope_names hget

theorem Sound.view?_eq (h : p.Sound) (hf : p.Opens f i scope) :
    p.view? f = some ⟨scope, p.globals⟩ := by
  rw [view?, h.scope?_eq hf]
  rfl

theorem Sound.function?_eq (h : p.Sound) (hf : p.Opens f i scope) :
    ∃ returns, p.function? f = some (.function f returns scope.paramTypes i) := by
  obtain ⟨-, hget, rfl⟩ := hf
  obtain ⟨returns, hentry⟩ := h.entry i scope hget
  exact ⟨returns, find?_eq_of_nodup h.function_names hentry⟩

/-! ## Declarations -/

/-- The scope at `i` gets one more symbol, and the entry there is changed. -/
def grow (p : Pool) (i : Nat) (symbol : Symbol) (change : Symbol → Symbol) : Pool where
  globals := p.globals
  scopes := p.scopes.modify i (·.append symbol)
  functions := { p.functions with entries := p.functions.entries.modify i change }

theorem Opens.grow (hf : p.Opens f i scope) (symbol : Symbol) (change : Symbol → Symbol) :
    (p.grow i symbol change).Opens f i (scope.append symbol) := by
  obtain ⟨hi, hget, rfl⟩ := hf
  refine ⟨hi, ?_, rfl⟩
  show (p.scopes.modify i _)[i]? = _
  rw [List.getElem?_modify_eq, hget]
  rfl

theorem map_modify {β : Type} {key : β → String} {f : β → β} (hf : ∀ b, key (f b) = key b)
    (bs : List β) (i : Nat) : (bs.modify i f).map key = bs.map key := by
  refine List.ext_getElem? fun j => ?_
  rw [List.getElem?_map, List.getElem?_map, List.getElem?_modify]
  cases bs[j]? with
  | none => rfl
  | some b =>
    by_cases h : i = j
    · simp [h, hf]
    · simp [h]

theorem take_modify_of_le {β : Type} (f : β → β) (bs : List β) {n i : Nat} (h : n ≤ i) :
    (bs.modify i f).take n = bs.take n := by
  refine List.ext_getElem? fun j => ?_
  rw [List.getElem?_take, List.getElem?_take]
  by_cases hj : j < n
  · rw [if_pos hj, if_pos hj, List.getElem?_modify_ne]
    omega
  · rw [if_neg hj, if_neg hj]

/-- One scope has grown, and the others are as they were. -/
theorem Opens.cases_grow (hf : p.Opens f i scope) {symbol : Symbol} {change : Symbol → Symbol}
    {j : Nat} {s : Scope} (hs : (p.grow i symbol change).scopes[j]? = some s) :
    j = i ∧ s = scope.append symbol ∨ j ≠ i ∧ p.scopes[j]? = some s := by
  obtain ⟨-, hget, -⟩ := hf
  have hs : (p.scopes.modify i (·.append symbol))[j]? = some s := hs
  by_cases hj : j = i
  · subst hj
    rw [List.getElem?_modify_eq, hget] at hs
    exact .inl ⟨rfl, (Option.some.inj hs).symm⟩
  · rw [List.getElem?_modify_ne _ _ (Ne.symm hj)] at hs
    exact .inr ⟨hj, hs⟩

/-- Where the scope stays in order and the entry fits it again, so does the pool. -/
theorem Sound.grow (h : p.Sound) (hf : p.Opens f i scope) {symbol : Symbol}
    {change : Symbol → Symbol} (hsound : (scope.append symbol).Sound)
    (hname : ∀ x, (change x).name = x.name)
    (hentry : ∀ returns, change (.function f returns scope.paramTypes i) =
      .function f returns (scope.append symbol).paramTypes i) :
    (p.grow i symbol change).Sound := by
  -- Entries keep their names, so what is said of names alone is as before.
  have hnames : (p.functions.entries.modify i change).map Symbol.name =
      p.functions.entries.map Symbol.name := map_modify hname _ i
  refine
    { length_eq := ?_, entry := ?_, builtin_scopes := ?_, builtin_functions := ?_,
      function_names := hnames ▸ h.function_names, global_names := h.global_names,
      disjoint := hnames ▸ h.disjoint, scopes := ?_, globals := h.globals }
  · exact (List.length_modify ..).trans (h.length_eq.trans (List.length_modify ..).symm)
  · intro j s hs
    show ∃ returns, (p.functions.entries.modify i change)[j]? = _
    rcases hf.cases_grow hs with ⟨rfl, rfl⟩ | ⟨hj, hs⟩
    · obtain ⟨-, hget, rfl⟩ := hf
      obtain ⟨returns, hfn⟩ := h.entry j scope hget
      refine ⟨returns, ?_⟩
      rw [List.getElem?_modify_eq, hfn, Option.map_eq_map, Option.map_some, hentry]
      rfl
    · rw [List.getElem?_modify_ne _ _ (Ne.symm hj)]
      exact h.entry j s hs
  · exact (take_modify_of_le _ _ hf.1).trans h.builtin_scopes
  · exact (take_modify_of_le _ _ hf.1).trans h.builtin_functions
  · intro s hs
    obtain ⟨j, hs⟩ := List.mem_iff_getElem?.mp hs
    rcases hf.cases_grow hs with ⟨-, rfl⟩ | ⟨-, hs⟩
    · exact hsound
    · exact h.scopes s (List.mem_of_getElem? hs)

theorem Sound.scope_sound (h : p.Sound) (hf : p.Opens f i scope) : scope.Sound :=
  h.scopes scope (List.mem_of_getElem? hf.2.1)

variable {name : String} {width : Nat}

theorem Sound.declare_localVar_eq (h : p.Sound) (hf : p.Opens f i scope) :
    p.declare (.localVar f name .int width) =
      p.grow i (.localVar name .int width 0 false) id := by
  obtain ⟨-, hget, rfl⟩ := hf
  show Pool.mk .. = Pool.mk ..
  rw [findIdx_eq_of_nodup h.scope_names hget, List.modify_id]

theorem Sound.declare_param_eq (h : p.Sound) (hf : p.Opens f i scope) :
    p.declare (.param f name .int) =
      p.grow i (.localVar name .int intWidth 0 true) (·.addParam .int) := by
  obtain ⟨-, hget, rfl⟩ := hf
  obtain ⟨returns, hentry⟩ := h.entry i scope hget
  have hscope : p.scopes.findIdx (fun x => x.name == scope.name) = i :=
    findIdx_eq_of_nodup h.scope_names hget
  have hfunction : p.functions.entries.findIdx (fun x => x.name == scope.name) = i :=
    findIdx_eq_of_nodup h.function_names hentry
  simp only [declare, appendLocal, addParam, SymbolTable.update, Pool.grow, hscope, hfunction]

end Opens

section Declare

variable {f name : String} {width : Nat}

/-- A local whose name is free keeps a pool sound. -/
theorem Sound.declareLocal (h : p.Sound) (hf : p.Opened f)
    (hfree : ∀ view, p.view? f = some view → view.exist name = false) (hwidth : IsWords width) :
    (p.declare (.localVar f name .int width)).Sound ∧
      (p.declare (.localVar f name .int width)).Opened f := by
  obtain ⟨i, scope, hf⟩ := hf
  have hname := (Bool.or_eq_false_iff.mp (hfree _ (h.view?_eq hf))).2
  rw [h.declare_localVar_eq hf]
  refine ⟨h.grow hf ((h.scope_sound hf).appendLocal hname hwidth) (fun _ => rfl) fun returns => ?_,
    i, _, hf.grow ..⟩
  rw [Scope.paramTypes_appendLocal]
  rfl

/-- A parameter whose name is free keeps a pool sound while there are parameters only. -/
theorem Sound.declareParam (h : p.Sound) (hf : p.InHeader f)
    (hfree : ∀ view, p.view? f = some view → view.exist name = false) :
    (p.declare (.param f name .int)).Sound ∧ (p.declare (.param f name .int)).InHeader f := by
  obtain ⟨i, scope, hf, honly⟩ := hf
  have hname := (Bool.or_eq_false_iff.mp (hfree _ (h.view?_eq hf))).2
  rw [h.declare_param_eq hf]
  refine ⟨h.grow hf ((h.scope_sound hf).appendParam honly hname ⟨by decide, Nat.dvd_refl _⟩)
    (fun x => x.name_addParam _) fun returns => ?_, i, _, hf.grow .., honly.append⟩
  rw [Scope.paramTypes_appendParam]
  rfl

/-- A global variable whose name is free keeps a pool sound. -/
theorem Sound.declareGlobal (h : p.Sound) (hfree : p.globals.exist name = false)
    (hfunction : p.functions.exist name = false) (hwidth : IsWords width) :
    (p.declare (.globalVar name .int width)).Sound := by
  have hentries : (p.declare (.globalVar name .int width)).globals.entries =
      p.globals.entries ++ [.globalVar name .int width p.globals.width] := rfl
  rw [SymbolTable.exist_eq_false_iff] at hfree hfunction
  refine { h with global_names := ?_, disjoint := ?_, globals := ?_ }
  · rw [hentries, List.map_append]
    exact nodup_append_singleton h.global_names hfree
  · intro other hother
    rw [hentries, List.map_append, List.mem_append, List.map_singleton, List.mem_singleton]
    rintro (hglobal | rfl)
    · exact h.disjoint other hother hglobal
    · exact hfunction hother
  · intro x hx
    rcases List.mem_append.mp (hentries ▸ hx) with hx | hx
    · exact h.globals x hx
    · exact ⟨name, width, p.globals.width, List.mem_singleton.mp hx, hwidth⟩

/-- A function whose name is free keeps a pool sound, and its scope is open then. -/
theorem Sound.declareFunction (h : p.Sound) (hfree : p.globals.exist name = false)
    (hfunction : p.functions.exist name = false) (returns : ValueType) :
    (p.declare (.function name returns)).Sound ∧
      (p.declare (.function name returns)).InHeader name := by
  have hentries : (p.declare (.function name returns)).functions.entries =
      p.functions.entries ++ [.function name returns [] p.scopes.length] := rfl
  have hscopes : (p.declare (.function name returns)).scopes = p.scopes ++ [{ name := name }] := rfl
  rw [SymbolTable.exist_eq_false_iff] at hfree hfunction
  have htwo : 2 ≤ p.scopes.length := by
    have hlength : (p.scopes.take 2).length = 2 := congrArg List.length h.builtin_scopes
    rw [List.length_take] at hlength
    omega
  refine ⟨?_, p.scopes.length, { name := name }, ⟨htwo, ?_, rfl⟩, List.forall_mem_nil _⟩
  · refine
      { h with
        length_eq := ?_, entry := ?_, builtin_scopes := ?_, builtin_functions := ?_,
        function_names := ?_, disjoint := ?_, scopes := ?_ }
    · rw [hentries, hscopes, List.length_append, List.length_append, h.length_eq]
      rfl
    · intro i scope hi
      rw [hscopes] at hi
      rw [hentries]
      obtain ⟨hlt, -⟩ := List.getElem?_eq_some_iff.mp hi
      rw [List.length_append, List.length_singleton] at hlt
      rcases Nat.lt_or_eq_of_le (Nat.le_of_lt_succ hlt) with hlt | rfl
      · rw [List.getElem?_append_left hlt] at hi
        rw [List.getElem?_append_left (h.length_eq ▸ hlt)]
        exact h.entry i scope hi
      · rw [List.getElem?_concat_length] at hi
        cases hi
        rw [← h.length_eq]
        exact ⟨returns, List.getElem?_concat_length⟩
    · rw [hscopes, List.take_append_of_le_length htwo]
      exact h.builtin_scopes
    · rw [hentries, List.take_append_of_le_length (h.length_eq ▸ htwo)]
      exact h.builtin_functions
    · rw [hentries, List.map_append]
      exact nodup_append_singleton h.function_names hfunction
    · intro other hother
      rw [hentries, List.map_append, List.mem_append] at hother
      rcases hother with hother | hother
      · exact h.disjoint other hother
      · rw [List.map_singleton, List.mem_singleton] at hother
        rw [hother]
        exact hfree
    · rw [hscopes]
      exact List.forall_mem_append.mpr
        ⟨h.scopes, List.forall_mem_singleton.mpr (Scope.sound_empty name)⟩
  · rw [hscopes, List.getElem?_concat_length]

end Declare

end Pool

end PredictiveParsing
