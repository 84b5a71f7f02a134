import Mathlib.Algebra.GroupWithZero.Nat
import Mathlib.Algebra.Order.BigOperators.Group.List
import Mathlib.Algebra.Order.Group.Nat
import PredictiveParsing.Proofs.Symbols.Sound

/-!
# Where variables lie

A table is laid out (`SymbolTable.LaidOut`) when each of its variables starts where those before it
end and no sum was cut off at the storage limit. Then no two of them have a byte in common
(`LaidOut.apart`). Declarations for which there is room keep this (`Pool.LaidOut.declare`).

Nothing checks the room for a parameter. Parameters come first in their scope, so that they lie
within the room that all parameters of the pool take (`Pool.Sound.total_le_paramRoom`), and each
declaration adds at most an integer to that (`Pool.paramRoom_declare_le`).
-/

namespace PredictiveParsing

/-! ## Tables -/

namespace Symbol

/-- The symbol lies at this byte, among others. -/
def Covers (s : Symbol) (byte : Nat) : Prop :=
  ∃ offset, s.offset? = some offset ∧ offset ≤ byte ∧ byte < offset + s.width

@[simp] theorem width_placeAt (s : Symbol) (offset : Nat) : (s.placeAt offset).width = s.width := by
  cases s <;> rfl

theorem offset?_placeAt {s : Symbol} (hs : s.offset?.isSome) (offset : Nat) :
    (s.placeAt offset).offset? = some offset := by
  cases s with
  | globalVar => rfl
  | localVar => rfl
  | function => cases hs

@[simp] theorem isParam_placeAt (s : Symbol) (offset : Nat) :
    (s.placeAt offset).isParam = s.isParam := by
  cases s <;> rfl

end Symbol

/-- The room that some symbols take together. -/
def roomOf (symbols : List Symbol) : Nat := (symbols.map Symbol.width).sum

@[simp] theorem roomOf_append (xs ys : List Symbol) : roomOf (xs ++ ys) = roomOf xs + roomOf ys := by
  rw [roomOf, List.map_append, List.sum_append, roomOf, roomOf]

@[simp] theorem roomOf_singleton (x : Symbol) : roomOf [x] = x.width := List.sum_singleton

theorem roomOf_mono {xs ys : List Symbol} (h : xs <+: ys) : roomOf xs ≤ roomOf ys := by
  obtain ⟨more, rfl⟩ := h
  rw [roomOf_append]
  exact Nat.le_add_right ..

namespace SymbolTable

/-- The exact sum of all widths. -/
def total (t : SymbolTable) : Nat := roomOf t.entries

/-- Each entry starts where those before it end, and the table is as wide as all of them, which is
within the limit. -/
structure LaidOut (t : SymbolTable) : Prop where
  offset : ∀ i x, t.entries[i]? = some x → x.offset? = some (roomOf (t.entries.take i))
  width : t.width = t.total
  lt : t.width < storageLimit

/-- No byte belongs to two entries. -/
def Apart (t : SymbolTable) : Prop :=
  t.entries.Pairwise fun x y => ∀ byte, x.Covers byte → ¬ y.Covers byte

theorem laidOut_empty : ({} : SymbolTable).LaidOut := ⟨fun _ _ h => by simp at h, rfl, by decide⟩

theorem LaidOut.hasRoom_iff {t : SymbolTable} (h : t.LaidOut) (width : Nat) :
    t.hasRoom width = true ↔ t.total + width < storageLimit := by
  rw [hasRoom, decide_eq_true_eq, h.width]

/-- One more variable for which there is room lies behind all others. -/
theorem LaidOut.append {t : SymbolTable} (h : t.LaidOut) {s : Symbol} (hs : s.offset?.isSome)
    (hroom : t.total + s.width < storageLimit) : (t.append s).LaidOut := by
  have hwidth : (t.append s).width = t.width + s.width := width_append ((h.hasRoom_iff _).mpr hroom)
  refine ⟨fun i x hx => ?_, ?_, ?_⟩
  · rw [entries_append] at hx ⊢
    have hi := (List.getElem?_eq_some_iff.mp hx).1
    rw [List.length_append, List.length_singleton] at hi
    rw [List.take_append_of_le_length (Nat.le_of_lt_succ hi)]
    rcases Nat.lt_or_eq_of_le (Nat.le_of_lt_succ hi) with hi | rfl
    · rw [List.getElem?_append_left hi] at hx
      exact h.offset i x hx
    · rw [List.getElem?_concat_length] at hx
      rw [← Option.some.inj hx, List.take_length, Symbol.offset?_placeAt hs, h.width, total]
  · rw [hwidth, h.width, total, total, entries_append, roomOf_append, roomOf_singleton,
      Symbol.width_placeAt]
  · rw [hwidth, h.width]
    exact hroom

theorem LaidOut.apart {t : SymbolTable} (h : t.LaidOut) : t.Apart := by
  refine List.pairwise_iff_getElem.mpr fun i j hi hj hij byte hx hy => ?_
  obtain ⟨x, hoffset, -, hlt⟩ := hx
  obtain ⟨y, hoffset', hle, -⟩ := hy
  rw [h.offset i _ (List.getElem?_eq_getElem hi)] at hoffset
  rw [h.offset j _ (List.getElem?_eq_getElem hj)] at hoffset'
  -- The first ends before the other starts.
  have hends : roomOf (t.entries.take (i + 1)) = x + t.entries[i].width := by
    rw [List.take_succ_eq_append_getElem hi, roomOf_append, roomOf_singleton,
      Option.some.inj hoffset]
  have hbefore : roomOf (t.entries.take (i + 1)) ≤ y :=
    (roomOf_mono (List.take_prefix_take_left hij)).trans (Option.some.inj hoffset').le
  omega

end SymbolTable

/-! ## Scopes -/

namespace Scope

/-- The room that the parameters take. -/
def paramRoom (s : Scope) : Nat := roomOf s.params

theorem paramRoom_append (s : Scope) (x : Symbol) :
    (s.append x).paramRoom = s.paramRoom + if x.isParam then x.width else 0 := by
  have hparams : (s.append x).params =
      s.params ++ [x.placeAt s.table.width].filter Symbol.isParam := List.filter_append ..
  rw [paramRoom, hparams, roomOf_append, paramRoom]
  cases hx : x.isParam <;> simp [hx, roomOf]

/-- Up to a parameter there are only parameters. -/
theorem Sound.total_le_paramRoom {s : Scope} (hs : s.Sound) {t : SymbolTable} {x : Symbol}
    (hx : x.isParam = true) (h : (t.append x).entries <+: s.table.entries) :
    (t.append x).total ≤ s.paramRoom := by
  obtain ⟨params, locals, hentries, hparams, hlocals⟩ := hs.params_first
  have hall : s.params = params := by
    rw [Scope.params, hentries, List.filter_append, List.filter_eq_self.mpr hparams,
      List.filter_eq_nil_iff.mpr fun y hy => Bool.eq_false_iff.mp (hlocals y hy), List.append_nil]
  rw [hentries] at h
  have hlength : t.entries.length < params.length := by
    by_contra hle
    have hlast : (params ++ locals)[t.entries.length]? = some (x.placeAt t.width) := by
      obtain ⟨more, hmore⟩ := h
      rw [← hmore, SymbolTable.entries_append, List.append_assoc, List.singleton_append,
        List.getElem?_append_right (Nat.le_refl _), Nat.sub_self, List.getElem?_cons_zero]
    rw [List.getElem?_append_right (Nat.le_of_not_lt hle)] at hlast
    have hlocal := hlocals _ (List.mem_of_getElem? hlast)
    rw [Symbol.isParam_placeAt, hx] at hlocal
    cases hlocal
  rw [paramRoom, hall]
  refine roomOf_mono (List.prefix_of_prefix_length_le h (List.prefix_append ..) ?_)
  rw [SymbolTable.entries_append, List.length_append, List.length_singleton]
  exact hlength

end Scope

/-! ## Pools -/

namespace Pool

/-- The tables of variables. -/
def variableTables (p : Pool) : List SymbolTable := p.globals :: p.scopes.map Scope.table

def LaidOut (p : Pool) : Prop := ∀ t ∈ p.variableTables, t.LaidOut

theorem laidOut_iff {p : Pool} :
    p.LaidOut ↔ p.globals.LaidOut ∧ ∀ scope ∈ p.scopes, scope.table.LaidOut := by
  simp [LaidOut, variableTables]

theorem laidOut_initial : initial.LaidOut := by
  have hnum := SymbolTable.laidOut_empty.append (s := .localVar "num" .int intWidth 0 true) rfl
    (by decide)
  refine laidOut_iff.mpr ⟨SymbolTable.laidOut_empty, ?_⟩
  exact List.forall_mem_cons.mpr ⟨SymbolTable.laidOut_empty, List.forall_mem_singleton.mpr hnum⟩

/-- Where one element grows, the sum of all sizes grows by no more than that. -/
theorem sum_modify_le {β : Type} {f : β → β} {size : β → Nat} {more : Nat}
    (hf : ∀ b, size (f b) ≤ size b + more) (bs : List β) (i : Nat) :
    ((bs.modify i f).map size).sum ≤ (bs.map size).sum + more := by
  induction bs generalizing i with
  | nil => cases i <;> simp
  | cons b bs ih =>
    cases i with
    | zero =>
      have hb := hf b
      simp only [List.modify_zero_cons, List.map_cons, List.sum_cons]
      omega
    | succ i =>
      have hi := ih i
      simp only [List.modify_succ_cons, List.map_cons, List.sum_cons]
      omega

/-- The room that all parameters take. -/
def paramRoom (p : Pool) : Nat := (p.scopes.map Scope.paramRoom).sum

/-- Each scope of the first pool is one of the other, possibly with more entries at the end. -/
def Extends (p p' : Pool) : Prop :=
  ∀ (i : Nat) (scope : Scope), p.scopes[i]? = some scope →
    ∃ scope', p'.scopes[i]? = some scope' ∧ scope.table.entries <+: scope'.table.entries

theorem Extends.refl (p : Pool) : p.Extends p :=
  fun _ scope h => ⟨scope, h, List.prefix_refl _⟩

theorem Extends.trans {p p' p'' : Pool} (h : p.Extends p') (h' : p'.Extends p'') :
    p.Extends p'' := by
  intro i scope hi
  obtain ⟨scope', hi', hle⟩ := h i scope hi
  obtain ⟨scope'', hi'', hle'⟩ := h' i scope' hi'
  exact ⟨scope'', hi'', hle.trans hle'⟩

variable {p : Pool}

/-- There is room for what is declared, where it is put. -/
def HasRoom (p : Pool) : Binding → Prop
  | .globalVar _ _ width => p.globals.total + width < storageLimit
  | .localVar function _ _ width =>
    ∀ scope, p.scope? function = some scope → scope.table.total + width < storageLimit
  | .param function _ _ =>
    ∀ scope, p.scope? function = some scope → scope.table.total + intWidth < storageLimit
  | .function _ _ => True

section AppendLocal

variable {function : String} {x : Symbol}

theorem getElem?_appendLocal (p : Pool) (function : String) (x : Symbol) (i : Nat) :
    (p.appendLocal function x).scopes[i]? =
      if p.scopes.findIdx (fun s => s.name == function) = i then
        (p.scope? function).map (·.append x)
      else p.scopes[i]? := by
  show (p.scopes.modify _ _)[i]? = _
  rw [List.getElem?_modify, scope?, List.find?_eq_getElem?_findIdx]
  split
  next h => rw [h]; rfl
  next => exact congrFun Option.map_id _

theorem mem_appendLocal {s : Scope} (h : s ∈ (p.appendLocal function x).scopes) :
    s ∈ p.scopes ∨ ∃ scope, p.scope? function = some scope ∧ s = scope.append x := by
  obtain ⟨i, hi⟩ := List.mem_iff_getElem?.mp h
  rw [getElem?_appendLocal] at hi
  split at hi
  · obtain ⟨scope, hscope, rfl⟩ := Option.map_eq_some_iff.mp hi
    exact .inr ⟨scope, hscope, rfl⟩
  · exact .inl (List.mem_of_getElem? hi)

theorem extends_appendLocal (p : Pool) (function : String) (x : Symbol) :
    p.Extends (p.appendLocal function x) := by
  intro i scope hi
  rw [getElem?_appendLocal]
  split
  next h =>
    rw [scope?, List.find?_eq_getElem?_findIdx, h, hi]
    exact ⟨scope.append x, rfl, List.prefix_append ..⟩
  next => exact ⟨scope, hi, List.prefix_refl _⟩

theorem LaidOut.appendLocal (h : p.LaidOut) (hx : x.offset?.isSome)
    (hroom : ∀ scope, p.scope? function = some scope →
      scope.table.total + x.width < storageLimit) : (p.appendLocal function x).LaidOut := by
  obtain ⟨hglobals, hscopes⟩ := laidOut_iff.mp h
  refine laidOut_iff.mpr ⟨hglobals, fun s hs => ?_⟩
  rcases mem_appendLocal hs with hs | ⟨scope, hscope, rfl⟩
  · exact hscopes s hs
  · exact (hscopes scope (List.mem_of_find?_eq_some hscope)).append hx (hroom scope hscope)

theorem paramRoom_appendLocal_le (p : Pool) (function : String) (x : Symbol) :
    (p.appendLocal function x).paramRoom ≤ p.paramRoom + if x.isParam then x.width else 0 :=
  sum_modify_le (fun s => (s.paramRoom_append x).le) p.scopes _

end AppendLocal

/-- Scopes stay, and their entries too. -/
theorem extends_declare (p : Pool) (b : Binding) : p.Extends (p.declare b) := by
  cases b with
  | globalVar => exact .refl p
  | localVar function name ty width => exact p.extends_appendLocal function _
  | param function name ty => exact p.extends_appendLocal function _
  | function name returns =>
    intro i scope hi
    refine ⟨scope, ?_, List.prefix_refl _⟩
    exact (List.getElem?_append_left (List.getElem?_eq_some_iff.mp hi).1).trans hi

/-- Only a parameter adds to the room of the parameters. -/
theorem paramRoom_declare_le (p : Pool) (b : Binding) :
    (p.declare b).paramRoom ≤ p.paramRoom + if b matches .param .. then intWidth else 0 := by
  cases b with
  | globalVar => exact Nat.le_refl _
  | localVar function name ty width => exact p.paramRoom_appendLocal_le function _
  | param function name ty => exact p.paramRoom_appendLocal_le function _
  | function name returns =>
    have hscopes : (p.declare (.function name returns)).scopes = p.scopes ++ [{ name := name }] := rfl
    rw [paramRoom, hscopes, List.map_append, List.sum_append]
    exact Nat.le_refl _

/-- What is declared where there is room is laid out. -/
theorem LaidOut.declare (h : p.LaidOut) {b : Binding} (hroom : p.HasRoom b) :
    (p.declare b).LaidOut := by
  obtain ⟨hglobals, hscopes⟩ := laidOut_iff.mp h
  cases b with
  | globalVar name ty width => exact laidOut_iff.mpr ⟨hglobals.append rfl hroom, hscopes⟩
  | localVar function name ty width => exact h.appendLocal rfl hroom
  | param function name ty => exact h.appendLocal (x := .localVar name ty intWidth 0 true) rfl hroom
  | function name returns =>
    refine laidOut_iff.mpr ⟨hglobals, List.forall_mem_append.mpr ⟨hscopes, ?_⟩⟩
    exact List.forall_mem_singleton.mpr SymbolTable.laidOut_empty

/-- A parameter that is still there at the end, when the pool is sound, ends within the room of all
parameters. -/
theorem Sound.total_le_paramRoom {q : Pool} (hq : q.Sound) {function name : String} {ty : ValueType}
    (h : (p.declare (.param function name ty)).Extends q) {scope : Scope}
    (hscope : p.scope? function = some scope) :
    scope.table.total + intWidth ≤ q.paramRoom := by
  have hlast := getElem?_appendLocal p function (.localVar name ty intWidth 0 true)
    (p.scopes.findIdx fun s => s.name == function)
  rw [if_pos rfl, hscope, Option.map_some] at hlast
  obtain ⟨scope', hscope', hle⟩ := h _ _ hlast
  have hmem := List.mem_of_getElem? hscope'
  have htotal := (hq.scopes scope' hmem).total_le_paramRoom rfl hle
  rw [SymbolTable.total, SymbolTable.entries_append, roomOf_append, roomOf_singleton] at htotal
  exact htotal.trans (List.le_sum_of_mem (List.mem_map_of_mem hmem))

end Pool

end PredictiveParsing
