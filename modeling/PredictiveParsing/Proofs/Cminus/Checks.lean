import PredictiveParsing.Proofs.Cminus.Evaluation
import PredictiveParsing.Proofs.Cminus.Trees

/-!
# What an evaluation decides

`Decides P Q x`: the computation `x` succeeds just when `P` holds, and with a result that has `Q`.
`Checks` says this of the evaluation of every forest that is a given tree but for lines and texts
that do not matter. There is one rule for each constructor of a forest (`checks_nil`, `checks_leaf`,
`Form.checks`); a rule takes what comes next in the forest as its last premise, so that a tree is
checked from left to right.
-/

namespace PredictiveParsing.Cminus

/-! ## Decisions -/

def Decides {β : Type} (P : Prop) (Q : β → Prop) (x : Except Complaint β) : Prop :=
  match x with
  | .ok b => P ∧ Q b
  | .error _ => ¬ P

section Decides

variable {β γ : Type} {P P' : Prop} {Q : β → Prop} {x : Except Complaint β}

theorem Decides.ok {b : β} (hP : P) (hQ : Q b) : Decides P Q (.ok b) := ⟨hP, hQ⟩

theorem Decides.congr (h : Decides P Q x) (hP : P ↔ P') : Decides P' Q x := by
  rwa [← hP]

theorem Decides.mono {Q' : β → Prop} (h : Decides P Q x) (hQ : ∀ b, Q b → Q' b) :
    Decides P Q' x := by
  cases x with
  | error => exact h
  | ok b => exact ⟨h.1, hQ b h.2⟩

/-- Behind a success what was decided holds. -/
theorem Decides.keep (h : Decides P Q x) : Decides P (fun b => P ∧ Q b) x := by
  cases x with
  | error => exact h
  | ok b => exact ⟨h.1, h⟩

theorem Decides.bind {Q' : γ → Prop} {f : β → Except Complaint γ} (h : Decides P Q x)
    (h' : ∀ b, Q b → Decides P' Q' (f b)) : Decides (P ∧ P') Q' (x >>= f) := by
  cases x with
  | error => exact fun hP => h hP.1
  | ok b =>
    have hf := h' b h.2
    show Decides (P ∧ P') Q' (f b)
    cases hx : f b with
    | error =>
      rw [hx] at hf
      exact fun hP => hf hP.2
    | ok c =>
      rw [hx] at hf
      exact ⟨⟨h.1, hf.1⟩, hf.2⟩

theorem Decides.map {Q' : γ → Prop} {f : β → γ} (h : Decides P Q x) (hQ : ∀ b, Q b → Q' (f b)) :
    Decides P Q' (x >>= fun b => return f b) := by
  cases x with
  | error => exact h
  | ok b => exact ⟨h.1, hQ b h.2⟩

theorem decides_iff : Decides P Q x → ((∃ b, x = .ok b) ↔ P) := by
  intro h
  cases x with
  | error =>
    constructor
    · rintro ⟨b, hb⟩
      cases hb
    · exact fun hP => absurd hP h
  | ok b => exact ⟨fun _ => h.1, fun _ => ⟨b, rfl⟩⟩

end Decides

/-- An action decides what its judgement decides. -/
theorem Decides.act {P : Prop} {Q : Attributes × Pool → Prop} {a : Around}
    {children : List Attributes} {action : Action} {own : Attributes} {pool : Pool}
    (h : Decides P (fun change => Q (change.apply pool))
      (action.judge (a.site own children pool))) :
    Decides P Q (act a children (some action) (own, pool)) :=
  h.map fun _ hc => hc

/-! ## Evaluations -/

/-- The evaluation succeeds just when `P` holds, and then `Q` holds of the attributes of the roots
and of the pool. -/
def Checks (G : Forest Action) (a : Around) (slots : List (Option Action)) (pool : Pool) (P : Prop)
    (Q : List Attributes → Pool → Prop) : Prop :=
  ∀ F : Forest Action, F.map Token.bare = G → Decides P (fun r => Q r.1 r.2) (eval F a slots pool)

/-- The attributes of a leaf. -/
def leafAttributes (t : Token) : Attributes where
  lexical := some t.text
  line := some t.line

section Checks

variable {G rest below : Forest Action} {a : Around} {slots : List (Option Action)} {pool : Pool}
  {P : Prop} {Q : List Attributes → Pool → Prop}

theorem Checks.congr (h : Checks G a slots pool P Q) {P' : Prop} (hP : P ↔ P') :
    Checks G a slots pool P' Q :=
  fun F hF => (h F hF).congr hP

theorem Checks.mono (h : Checks G a slots pool P Q) {Q' : List Attributes → Pool → Prop}
    (hQ : ∀ as pool', Q as pool' → Q' as pool') : Checks G a slots pool P Q' :=
  fun F hF => (h F hF).mono fun r hr => hQ r.1 r.2 hr

/-- Behind a success what was checked holds. -/
theorem Checks.keep (h : Checks G a slots pool P Q) :
    Checks G a slots pool P fun as pool' => P ∧ Q as pool' :=
  fun F hF => (h F hF).keep

theorem checks_nil (hQ : Q [] pool) : Checks .nil a slots pool True Q := by
  intro F hF
  obtain rfl := Forest.map_eq_nil hF
  exact .ok trivial hQ

theorem checks_leaf {i : Nat} {token : Token}
    (hrest : ∀ t : Token, t.bare = token →
      Checks rest (a.past (leafAttributes t)) slots pool P fun later pool' =>
        Q (leafAttributes t :: later) pool') :
    Checks (.leaf i token rest) a (none :: slots) pool P Q := by
  intro F hF
  obtain ⟨t, rest', rfl, ht, hr⟩ := Forest.map_eq_leaf hF
  exact (hrest t ht rest' hr).map fun _ hQ => hQ

section Form

variable {f : Form} {slot : Option Action} {own₀ : Attributes}

/-- The slot's action never fails; the opening action, what is below, the closing action and what
comes next are decided one after the other. -/
theorem Form.checks (P₁ P₂ P₃ P₄ : Prop) (Q₁ : Attributes × Pool → Prop)
    (Q₂ : Attributes → List Attributes → Pool → Prop) (Q₃ : Attributes × Pool → Prop)
    (hslot : act a [] slot ({}, pool) = .ok (own₀, pool))
    (hopening : Decides P₁ Q₁ (act a [] f.production.opening (own₀, pool)))
    (hbelow : ∀ own pool₁, Q₁ (own, pool₁) →
      Checks below (a.inside own) f.production.slots pool₁ P₂ (Q₂ own))
    (hclosing : ∀ own children pool₂, Q₂ own children pool₂ →
      Decides P₃ Q₃ (act a children f.production.closing (own, pool₂)))
    (hrest : ∀ own pool₃, Q₃ (own, pool₃) →
      Checks rest (a.past own) slots pool₃ P₄ fun later pool' => Q (own :: later) pool')
    (hP : P₁ ∧ P₂ ∧ P₃ ∧ P₄ ↔ P) :
    Checks (f.tree below rest) a (slot :: slots) pool P Q := by
  intro F hF
  obtain ⟨below', rest', rfl, hb, hr⟩ := Forest.map_eq_node hF
  rw [eval, List.head?_cons, Option.join_some, hslot, ← hP]
  refine hopening.bind ?_
  rintro ⟨own, pool₁⟩ h₁
  refine (hbelow own pool₁ h₁ below' hb).bind ?_
  rintro ⟨children, pool₂⟩ h₂
  refine (hclosing own children pool₂ h₂).bind ?_
  rintro ⟨own', pool₃⟩ h₃
  exact (hrest own' pool₃ h₃ rest' hr).map fun _ hQ => hQ

/-- A node with no actions but that of its slot. -/
theorem Form.checks_plain (P₁ P₂ : Prop) (R : Pool → Prop)
    (hslot : act a [] slot ({}, pool) = .ok (own₀, pool))
    (hopening : f.production.opening = none) (hclosing : f.production.closing = none)
    (hbelow : Checks below (a.inside own₀) f.production.slots pool P₁ fun _ pool' => R pool')
    (hrest : ∀ pool', R pool' →
      Checks rest (a.past own₀) slots pool' P₂ fun later pool'' => Q (own₀ :: later) pool'')
    (hP : P₁ ∧ P₂ ↔ P) : Checks (f.tree below rest) a (slot :: slots) pool P Q := by
  intro F hF
  obtain ⟨below', rest', rfl, hb, hr⟩ := Forest.map_eq_node hF
  rw [eval, List.head?_cons, Option.join_some, hslot, hopening, hclosing, ← hP]
  refine (hbelow below' hb).bind ?_
  rintro ⟨children, pool'⟩ hR
  exact (hrest pool' hR rest' hr).map fun _ hQ => hQ

/-- A node without actions where the pool does not change. -/
theorem Form.checks_still (P₁ P₂ : Prop) (hopening : f.production.opening = none)
    (hclosing : f.production.closing = none)
    (hbelow : Checks below (a.inside {}) f.production.slots pool P₁ fun _ pool' => pool' = pool)
    (hrest : Checks rest (a.past {}) slots pool P₂ fun later pool' => Q ({} :: later) pool')
    (hP : P₁ ∧ P₂ ↔ P) : Checks (f.tree below rest) a (none :: slots) pool P Q := by
  refine Form.checks_plain P₁ P₂ (fun pool' => pool' = pool) rfl hopening hclosing hbelow ?_ hP
  rintro pool' rfl
  exact hrest

/-- A node without actions and without children. -/
theorem Form.checks_empty (hopening : f.production.opening = none)
    (hclosing : f.production.closing = none)
    (hrest : Checks rest (a.past {}) slots pool P fun later pool' => Q ({} :: later) pool') :
    Checks (f.tree .nil rest) a (none :: slots) pool P Q :=
  Form.checks_still True P hopening hclosing (checks_nil rfl) hrest (by rw [true_and])

/-- A node with an opening action. -/
theorem Form.checks_opening (P₁ P₂ P₃ : Prop) (Q₁ : Attributes × Pool → Prop)
    (R : Attributes → Pool → Prop)
    (hslot : act a [] slot ({}, pool) = .ok (own₀, pool)) (hclosing : f.production.closing = none)
    (hopening : Decides P₁ Q₁ (act a [] f.production.opening (own₀, pool)))
    (hbelow : ∀ own pool', Q₁ (own, pool') →
      Checks below (a.inside own) f.production.slots pool' P₂ fun _ pool'' => R own pool'')
    (hrest : ∀ own pool', R own pool' →
      Checks rest (a.past own) slots pool' P₃ fun later pool'' => Q (own :: later) pool'')
    (hP : P₁ ∧ P₂ ∧ P₃ ↔ P) : Checks (f.tree below rest) a (slot :: slots) pool P Q := by
  intro F hF
  obtain ⟨below', rest', rfl, hb, hr⟩ := Forest.map_eq_node hF
  rw [eval, List.head?_cons, Option.join_some, hslot, hclosing, ← hP]
  refine hopening.bind ?_
  rintro ⟨own, pool₁⟩ h₁
  refine (hbelow own pool₁ h₁ below' hb).bind ?_
  rintro ⟨children, pool₂⟩ hR
  exact (hrest own pool₂ hR rest' hr).map fun _ hQ => hQ

/-- A node with a closing action. -/
theorem Form.checks_closing (P₁ P₂ P₃ : Prop) (Q₁ : List Attributes → Pool → Prop)
    (Q₂ : Attributes × Pool → Prop)
    (hslot : act a [] slot ({}, pool) = .ok (own₀, pool)) (hopening : f.production.opening = none)
    (hbelow : Checks below (a.inside own₀) f.production.slots pool P₁ Q₁)
    (hclosing : ∀ children pool', Q₁ children pool' →
      Decides P₂ Q₂ (act a children f.production.closing (own₀, pool')))
    (hrest : ∀ own pool', Q₂ (own, pool') →
      Checks rest (a.past own) slots pool' P₃ fun later pool'' => Q (own :: later) pool'')
    (hP : P₁ ∧ P₂ ∧ P₃ ↔ P) : Checks (f.tree below rest) a (slot :: slots) pool P Q := by
  intro F hF
  obtain ⟨below', rest', rfl, hb, hr⟩ := Forest.map_eq_node hF
  rw [eval, List.head?_cons, Option.join_some, hslot, hopening, ← hP]
  refine (hbelow below' hb).bind ?_
  rintro ⟨children, pool₁⟩ h₁
  refine (hclosing children pool₁ h₁).bind ?_
  rintro ⟨own, pool₂⟩ h₂
  exact (hrest own pool₂ h₂ rest' hr).map fun _ hQ => hQ

end Form

end Checks

end PredictiveParsing.Cminus
