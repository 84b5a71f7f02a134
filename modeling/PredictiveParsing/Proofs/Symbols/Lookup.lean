import PredictiveParsing.Symbols.Pool

/-!
# Looking up names after declarations

What a table, a scope and the pool know of a name after each way to change them. Changing the first
symbol of a name changes what is found under that name and nothing else.
-/

namespace PredictiveParsing

/-- The first element of a key is changed, and the change keeps the key. -/
theorem find?_modify_findIdx {β : Type} (key : β → String) {f : β → β}
    (hf : ∀ b, key (f b) = key b) (bs : List β) (name other : String) :
    (bs.modify (bs.findIdx fun b => key b == name) f).find? (fun b => key b == other) =
      if other = name then (bs.find? fun b => key b == name).map f
      else bs.find? fun b => key b == other := by
  induction bs with
  | nil => simp
  | cons b bs ih =>
    by_cases hb : key b = name
    · by_cases ho : other = name
      · simp [List.findIdx_cons, hf, hb, ho]
      · have hne : name ≠ other := fun h => ho h.symm
        simp [List.findIdx_cons, hf, hb, ho, hne]
    · have hb' : (key b == name) = false := beq_false_of_ne hb
      rw [List.findIdx_cons, hb', cond_false, List.modify_succ_cons, List.find?_cons, ih]
      by_cases ho : other = name
      · rw [if_pos ho, if_pos ho, List.find?_cons, ho, hb']
      · rw [if_neg ho, if_neg ho, List.find?_cons]

theorem Symbol.name_placeAt (s : Symbol) (offset : Nat) : (s.placeAt offset).name = s.name := by
  cases s <;> rfl

theorem Symbol.name_addParam (s : Symbol) (ty : ValueType) : (s.addParam ty).name = s.name := by
  cases s <;> rfl

namespace SymbolTable

theorem query_append (t : SymbolTable) (s : Symbol) (name : String) :
    (t.append s).query name =
      (t.query name).or (if s.name = name then some (s.placeAt t.width) else none) := by
  rw [query, entries_append, List.find?_append, query]
  by_cases h : s.name = name
  · simp [s.name_placeAt, h]
  · simp [s.name_placeAt, h]

theorem query_update {f : Symbol → Symbol} (hf : ∀ s, (f s).name = s.name) (t : SymbolTable)
    (name other : String) : (t.update name f).query other =
      if other = name then (t.query name).map f else t.query other :=
  find?_modify_findIdx Symbol.name hf t.entries name other

end SymbolTable

namespace Pool

theorem scope?_openScope (p : Pool) (name other : String) :
    (p.openScope name).scope? other =
      (p.scope? other).or (if name = other then some { name } else none) := by
  rw [scope?, openScope, List.find?_append, scope?]
  by_cases h : name = other
  · simp [h]
  · simp [h]

theorem scope?_appendLocal (p : Pool) (name other : String) (s : Symbol) :
    (p.appendLocal name s).scope? other =
      if other = name then (p.scope? name).map (·.append s) else p.scope? other :=
  find?_modify_findIdx Scope.name (f := (·.append s)) (fun _ => rfl) p.scopes name other

theorem function?_appendFunction (p : Pool) (s : Symbol) (name : String) :
    (p.appendFunction s).function? name = (p.function? name).or
      (if s.name = name then some (s.placeAt p.functions.width) else none) :=
  p.functions.query_append s name

theorem function?_addParam (p : Pool) (name other : String) (ty : ValueType) :
    (p.addParam name ty).function? other =
      if other = name then (p.function? name).map (·.addParam ty) else p.function? other :=
  p.functions.query_update (fun s => s.name_addParam ty) name other

end Pool

end PredictiveParsing
