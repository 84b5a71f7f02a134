import PredictiveParsing.Proofs.Cminus.Changes
import PredictiveParsing.Proofs.Cminus.Histories
import PredictiveParsing.Proofs.Parse.Boundaries
import PredictiveParsing.Proofs.Symbols.Layout

/-!
# Storage of C-minus programs

Variables are declared where there is room for them (`guarded_of_judge`). A parameter is declared
without a look at the room, but only behind the token that names it, so that all parameters together
take no more than an integer for each token (`Compiler.Made.paramRoom_run_le`). With fewer than
`2 ^ 60` tokens no table comes near the limit by its parameters, and tables are laid out between any
two actions of a run (`Compiler.Made.laidOut`).

`storage_exact`: no two variables overlap and no width is cut off, and a variable that is in order is
declared just when there is room for it.
-/

namespace PredictiveParsing.Cminus

open Sign (terminal nonTerminal)

/-! ## What is declared -/

/-- What an action may declare: variables for which their table has room, functions, and parameters
without a look at the room. -/
def Allows (pool : Pool) (action : Action) : Binding → Prop
  | .globalVar _ _ width => pool.globals.hasRoom width = true
  | .localVar function _ _ width =>
    ∃ view, pool.view? function = some view ∧ view.inner.table.hasRoom width = true
  | .param _ _ _ => action = .declareParam
  | .function _ _ => True

/-- What the change declares is allowed. -/
def Guarded (pool : Pool) (action : Action) (change : Change) : Prop :=
  ∀ b, change.binding = some b → Allows pool action b

theorem allows_of_declares {pool : Pool} {action : Action} {b : Binding}
    (h : Declares pool action (some b)) : Allows pool action b := by
  cases h with
  | outside hroom => exact hroom
  | inside hview hroom => exact ⟨_, hview, hroom⟩
  | function => trivial
  | param haction => exact haction

theorem guarded_of_judge (s : Site) (action : Action) :
    Ensures (action.judge s) (Guarded s.pool action) := by
  intro change hj b hb
  have hdeclares : Declares s.pool action change.binding := declares_of_judge s action change hj
  rw [hb] at hdeclares
  exact allows_of_declares hdeclares

/-! ## Room for parameters -/

/-- What an action can add to the room of the parameters. -/
def spending (action : Option Action) : Nat :=
  if action = some .declareParam then intWidth else 0

theorem spending_eq_zero {action : Option Action} (h : action ≠ some .declareParam) :
    spending action = 0 := if_neg h

theorem paramRoom_apply_le {pool : Pool} {action : Action} {change : Change}
    (h : Guarded pool action change) :
    (change.apply pool).2.paramRoom ≤ pool.paramRoom + spending (some action) := by
  obtain ⟨attrs, _ | b⟩ := change
  · exact Nat.le_add_right ..
  · have hb := h b rfl
    have hroom : (Change.apply ⟨attrs, some b⟩ pool).2.paramRoom ≤ _ := pool.paramRoom_declare_le b
    cases b with
    | param =>
      obtain rfl : action = .declareParam := hb
      exact hroom
    | globalVar => exact hroom.trans (Nat.le_add_right ..)
    | localVar => exact hroom.trans (Nat.le_add_right ..)
    | function => exact hroom.trans (Nat.le_add_right ..)

/-- A token was taken for each integer that parameters take, but for some at the start. -/
def sparing (start : Nat) : Contract where
  holds seen pool := pool.paramRoom ≤ start + intWidth * seen.length
  blames _ _ := True
  pre _ _ _ := True
  post _ _ s s' :=
    s'.pool.paramRoom + intWidth * s.seen.length ≤ s.pool.paramRoom + intWidth * s'.seen.length
  holds_append h more := by
    rw [List.length_append, Nat.mul_add]
    omega
  blames_append _ _ := trivial

section Sparing

variable {start : Nat} {a : Around}

theorem sparing_acts {children : List Attributes} {action : Option Action} {s : Point}
    (hroom : s.pool.paramRoom + spending action ≤ start + intWidth * s.seen.length)
    {next : Point → Prop}
    (hnext : ∀ own pool, pool.paramRoom ≤ s.pool.paramRoom + spending action →
      next ⟨own, pool, s.seen⟩) : (sparing start).Acts a children action s next := by
  have hdone : ∀ own pool, pool.paramRoom ≤ s.pool.paramRoom + spending action →
      (sparing start).holds s.seen pool ∧ next ⟨own, pool, s.seen⟩ := fun own pool h =>
    ⟨h.trans hroom, hnext own pool h⟩
  unfold Contract.Acts
  cases action with
  | none => exact hdone s.own s.pool (Nat.le_add_right ..)
  | some action =>
    rw [act_some]
    cases hj : action.judge (a.site s.own children s.pool) with
    | error complaint => trivial
    | ok change => exact hdone _ _ (paramRoom_apply_le (guarded_of_judge _ _ _ hj))

/-- An action that declares no parameter. -/
theorem sparing_acts_of_ne {children : List Attributes} {action : Option Action} {s : Point}
    (haction : action ≠ some .declareParam) (hpool : (sparing start).holds s.seen s.pool)
    {next : Point → Prop}
    (hnext : ∀ own pool, pool.paramRoom ≤ s.pool.paramRoom → (sparing start).holds s.seen pool →
      next ⟨own, pool, s.seen⟩) : (sparing start).Acts a children action s next := by
  have hzero := spending_eq_zero haction
  refine sparing_acts (hzero ▸ hpool) fun own pool hroom => ?_
  rw [hzero] at hroom
  exact hnext own pool hroom (hroom.trans hpool)

def terminalCount (u : List Sign) : Nat := u.countP (· matches .terminal _)

/-- Where no slot declares a parameter, the tokens of the terminals are to spare. -/
theorem sparing_visits {u : List Sign} {slots : List (Option Action)}
    (hslots : some .declareParam ∉ slots) {pool : Pool} {seen : List Token}
    (hpool : (sparing start).holds seen pool) {next : List Attributes → Pool → List Token → Prop}
    (hnext : ∀ children pool' more,
      pool'.paramRoom + intWidth * terminalCount u ≤ pool.paramRoom + intWidth * more.length →
        next children pool' (seen ++ more)) :
    (sparing start).Visits u slots a pool seen next := by
  -- A sibling starts with the pool and the tokens that those before it left.
  induction u generalizing slots a pool seen next with
  | nil =>
    have hnil := hnext [] pool [] (Nat.le_refl _)
    rwa [List.append_nil] at hnil
  | cons sign u ih =>
    have hslot : slots.head?.join ≠ some .declareParam := by
      intro h
      cases slots with
      | nil => cases h
      | cons slot slots => exact absurd (h ▸ List.mem_cons_self) hslots
    have htail : some .declareParam ∉ slots.tail := fun h => hslots (List.mem_of_mem_tail h)
    have hcount : terminalCount (sign :: u) = terminalCount [sign] + terminalCount u := by
      rw [← List.singleton_append]
      exact List.countP_append
    have hlater : ∀ own pool₁ more₁, (sparing start).holds (seen ++ more₁) pool₁ →
        pool₁.paramRoom + intWidth * terminalCount [sign] ≤
          pool.paramRoom + intWidth * more₁.length →
        (sparing start).Visits u slots.tail (a.past own) pool₁ (seen ++ more₁)
          fun later => next (own :: later) := by
      intro own pool₁ more₁ hpool₁ hroom₁
      refine ih htail hpool₁ fun children pool' more hroom => ?_
      rw [List.append_assoc]
      refine hnext _ pool' _ ?_
      simp only [hcount, List.length_append, Nat.mul_add]
      omega
    cases sign with
    | nonTerminal n =>
      refine sparing_acts_of_ne hslot hpool fun own pool₁ hroom₁ _ =>
        ⟨trivial, fun own₂ pool₂ more hpool₂ hpost => hlater own₂ pool₂ more hpool₂ ?_⟩
      have hpost : pool₂.paramRoom + intWidth * seen.length ≤
        pool₁.paramRoom + intWidth * (seen ++ more).length := hpost
      have hzero : terminalCount [nonTerminal n] = 0 := rfl
      rw [List.length_append, Nat.mul_add] at hpost
      rw [hzero]
      simp only at hroom₁
      omega
    -- A terminal takes a token, and so would the end mark or nothing at all.
    | terminal | empty | pound =>
      refine sparing_acts_of_ne hslot hpool fun own pool₁ hroom₁ hpool₁ token =>
        hlater _ pool₁ [token] ((sparing start).holds_append hpool₁ _) ?_
      exact Nat.add_le_add hroom₁ (Nat.mul_le_mul_left _ List.countP_le_length)

/-- A production declares a parameter at most at its end, behind a token. -/
def Spares (p : Production Action) : Prop :=
  some .declareParam ∉ p.slots ∧ p.opening ≠ some .declareParam ∧
    spending p.closing ≤ intWidth * terminalCount p.right

instance : DecidablePred Spares := fun _ => inferInstanceAs (Decidable (_ ∧ _ ∧ _))

theorem meets_sparing {p : Production Action} (hp : Spares p) : (sparing start).Meets p := by
  obtain ⟨hslots, hopening, hclosing⟩ := hp
  intro a s hpool _
  refine sparing_acts_of_ne hopening hpool fun own₁ pool₁ hroom₁ hpool₁ => ?_
  refine sparing_visits hslots hpool₁ fun children pool₂ more hroom₂ => ?_
  have hstart : s.pool.paramRoom ≤ start + intWidth * s.seen.length := hpool
  have hlength : intWidth * (s.seen ++ more).length =
      intWidth * s.seen.length + intWidth * more.length := by
    rw [List.length_append, Nat.mul_add]
  -- What the closing action adds was spared by the terminals.
  refine sparing_acts ?_ fun own₃ pool₃ hroom₃ => ?_
  · simp only
    omega
  · show pool₃.paramRoom + _ ≤ _ + intWidth * (s.seen ++ more).length
    simp only at hroom₁ hroom₃
    omega

end Sparing

theorem spares_resolved : ∀ p ∈ resolved.productions, Spares p := by decide +kernel

/-- All parameters together take an integer for each token at most, besides those that were there. -/
theorem Compiler.Made.paramRoom_run_le {c : Compiler} (hc : c.Made) (tokens : List Token)
    (pool : Pool) :
    (c.machine.run tokens pool).pool.paramRoom ≤ pool.paramRoom + intWidth * tokens.length := by
  have hkeeps := hc.keeps_run tokens (C := sparing pool.paramRoom)
    (fun p hp => meets_sparing (spares_resolved p hp)) (fun _ _ _ => trivial)
    (Nat.le_add_right ..) trivial
  refine hkeeps.1.trans (Nat.add_le_add_left (Nat.mul_le_mul_left _ ?_) _)
  rw [List.length_take]
  exact Nat.min_le_right ..

/-! ## Layout along a run -/

theorem extends_of_becomes {p q : Pool} (h : semantics.Becomes p q) : p.Extends q := by
  induction h with
  | refl => exact .refl p
  | tail _ hturn ih =>
    rcases turns_cases hturn with rfl | ⟨action, b, -, rfl⟩
    · exact ih
    · exact ih.trans (Pool.extends_declare _ b)

/-- What an action may declare has room, a parameter because it is there when the run is over. -/
theorem hasRoom_of_allows {p q : Pool} {action : Action} {b : Binding} (hp : p.LaidOut)
    (h : Allows p action b) (hq : q.Sound) (hroom : q.paramRoom < storageLimit)
    (hextends : (p.declare b).Extends q) : p.HasRoom b := by
  obtain ⟨hglobals, hscopes⟩ := Pool.laidOut_iff.mp hp
  cases b with
  | globalVar name ty width => exact (hglobals.hasRoom_iff width).mp h
  | localVar function name ty width =>
    intro scope hscope
    obtain ⟨view, hview, hwidth⟩ := h
    rw [Pool.view?, hscope] at hview
    obtain rfl := Option.some.inj hview
    exact ((hscopes scope (List.mem_of_find?_eq_some hscope)).hasRoom_iff width).mp hwidth
  | param function name ty =>
    intro scope hscope
    exact (hq.total_le_paramRoom hextends hscope).trans_lt hroom
  | function name returns => trivial

theorem laidOut_of_becomes {p q r : Pool} (hp : p.LaidOut) (hpq : semantics.Becomes p q)
    (hqr : semantics.Becomes q r) (hr : r.Sound) (hroom : r.paramRoom < storageLimit) :
    q.LaidOut := by
  induction hpq with
  | refl => exact hp
  | tail _ hturn ih =>
    have hbefore := ih (.head hturn hqr)
    rcases turns_cases hturn with rfl | ⟨action, b, hdeclares, rfl⟩
    · exact hbefore
    · have hallows := allows_of_declares hdeclares
      exact hbefore.declare (hasRoom_of_allows hbefore hallows hr hroom (extends_of_becomes hqr))

/-- With so few tokens a pool on the way of a run is laid out. -/
theorem Compiler.Made.laidOut {c : Compiler} (hc : c.Made) {tokens : List Token}
    (hlength : tokens.length < 2 ^ 60) {p : Pool} (hbefore : semantics.Becomes Pool.initial p)
    (hafter : semantics.Becomes p (c.run tokens).pool) : p.LaidOut := by
  have hsound : (c.run tokens).pool.Sound := (hc.run_keeps tokens Pool.sound_initial).1
  have hparams : (c.run tokens).pool.paramRoom ≤ intWidth + intWidth * tokens.length :=
    hc.paramRoom_run_le tokens Pool.initial
  refine laidOut_of_becomes Pool.laidOut_initial hbefore hafter hsound (hparams.trans_lt ?_)
  rw [intWidth, storageLimit]
  omega

/-! ## Declarations that are in order -/

/-- The table that a variable of this name goes to, and what it is declared as, when the name is
free there. -/
inductive Site.Place (s : Site) (name : String) : SymbolTable → (Nat → Binding) → Prop
  | inside {function : String} {view : ScopeView} (hf : s.function? = some function)
      (hview : s.pool.view? function = some view) (hfree : view.exist name = false) :
      Place s name view.inner.table (.localVar function name .int)
  | outside (hf : s.function? = none) (hfree : s.pool.globals.exist name = false)
      (hfunction : s.pool.function? name = none) :
      Place s name s.pool.globals (.globalVar name .int)

/-- The action declares an `int` of this name and width or an array of this length and width, and
would complain of this fault when there is no room. -/
inductive Site.Asks (s : Site) : Action → String → Nat → Option Nat → SemanticFault → Prop
  | scalar {name : String} (hid : s.own.id = some name) (hty : s.own.ty = some .int) :
      Asks s .declareVariable name intWidth none (.variableTooLarge name)
  | array {name text : String} {child : Attributes} {n : Nat} (hid : s.own.id = some name)
      (hty : s.own.ty = some .int) (hchild : s.child? 1 = some child)
      (htext : child.lexical = some text) (hcount : count? text = some n) (hn : 0 < n) :
      Asks s .declareArray name (intWidth * n) (some n) (.arrayTooLarge name)

section Declare

variable {s : Site} {name : String} {table : SymbolTable} {binding : Nat → Binding}

theorem Site.Place.mem (h : s.Place name table binding) : table ∈ s.pool.variableTables := by
  cases h with
  | outside => exact List.mem_cons_self
  | inside hf hview =>
    obtain ⟨scope, hscope, rfl⟩ := Option.map_eq_some_iff.mp hview
    exact List.mem_cons_of_mem _ (List.mem_map_of_mem (List.mem_of_find?_eq_some hscope))

theorem declare_eq_ite (hid : s.own.id = some name) (hty : s.own.ty = some .int)
    (hplace : s.Place name table binding) (htable : table.LaidOut) (width : Nat)
    (length : Option Nat) :
    declare s width length =
      if table.total + width < storageLimit then
        .ok ⟨{ s.own with length }, some (binding width)⟩
      else .error ⟨tooLarge name length, s.own.line⟩ := by
  rw [declare, Site.identifier_eq hid, ok_bind]
  simp only [← htable.hasRoom_iff]
  cases hplace with
  | @inside function view hf hview hfree =>
    cases hr : view.inner.table.hasRoom width with
    | true => simp [need, hty, hf, hview, hfree, hr, bind, Except.bind, pure, Except.pure]
    | false => simp [need, refuse, hty, hf, hview, hfree, hr, bind, Except.bind]
  | outside hf hfree hfunction =>
    cases s.pool.globals.hasRoom width with
    | true => simp [need, hty, hf, hfree, hfunction, bind, Except.bind, pure, Except.pure]
    | false => simp [need, refuse, hty, hf, hfree, hfunction, bind, Except.bind]

/-- The declaration is made just when there is room for it. -/
theorem Site.Asks.judge_eq {action : Action} {width : Nat} {length : Option Nat}
    {fault : SemanticFault} (h : s.Asks action name width length fault)
    (hplace : s.Place name table binding) (htable : table.LaidOut) :
    action.judge s =
      if table.total + width < storageLimit then
        .ok ⟨{ s.own with length }, some (binding width)⟩
      else .error ⟨fault, s.own.line⟩ := by
  cases h with
  | scalar hid hty => exact declare_eq_ite hid hty hplace htable intWidth none
  | @array _ text child n hid hty hchild htext hcount hn =>
    obtain ⟨k, rfl⟩ := Nat.exists_eq_add_one_of_ne_zero (Nat.ne_of_gt hn)
    rw [Action.judge, declareArray, Site.child_eq hchild, ok_bind, textOf_eq htext, ok_bind,
      Site.identifier_eq hid, ok_bind, hcount]
    by_cases hlimit : intWidth * (k + 1) < storageLimit
    · simp only [if_pos hlimit]
      exact declare_eq_ite hid hty hplace htable _ (some (k + 1))
    · have hfull : ¬ table.total + intWidth * (k + 1) < storageLimit := fun hroom =>
        hlimit ((Nat.le_add_left ..).trans_lt hroom)
      simp only [if_neg hlimit, if_neg hfull]
      rfl

end Declare

/-! ## Results -/

/-- Storage in a run: between any two actions and at the end tables are laid out, so that no two
variables overlap, and a variable that is in order is declared just when its width and the exact sum
of those before it are together below the limit. -/
structure Stores (m : Machine Action) (tokens : List Token) : Prop where
  between : ∀ w, m.Boundary tokens Pool.initial w →
    ∀ t ∈ w.pool.variableTables, t.LaidOut ∧ t.Apart
  final : ∀ t ∈ (m.run tokens Pool.initial).pool.variableTables, t.LaidOut ∧ t.Apart
  declares : ∀ rest config action id w, m.Reaches tokens Pool.initial rest config →
    m.Performs (rest.headD (Lookahead.atEnd tokens)) config action id w →
    ∀ name width length fault table binding,
      (Site.of w id).Asks action name width length fault →
      (Site.of w id).Place name table binding →
        m.semantics.at (some action) id w =
          if table.total + width < storageLimit then
            (.ok (), ⟨w.tree.setAttrs id { w.tree.attrs id with length },
              w.pool.declare (binding width)⟩)
          else (.error (.semantic fault (w.tree.attrs id).line), w)

/-- Whatever the program is, and whatever table the compiler has. -/
theorem storage_exact {c : Compiler} (hc : c.Made) {tokens : List Token}
    (hlength : tokens.length < 2 ^ 60) : Stores c.machine tokens := by
  have hends := hc.ends tokens Pool.initial
  have hboundary : ∀ w, c.machine.Boundary tokens Pool.initial w → w.pool.LaidOut := by
    intro w hw
    obtain ⟨hbefore, hafter⟩ := hw.between hends
    exact hc.laidOut hlength hbefore hafter
  refine ⟨fun w hw t ht => ?_, fun t ht => ?_, ?_⟩
  · have hlaid := hboundary w hw t ht
    exact ⟨hlaid, hlaid.apart⟩
  · obtain ⟨-, hrun⟩ := (Machine.Boundary.reached .start).between hends
    have hlaid := hc.laidOut hlength hrun .refl t ht
    exact ⟨hlaid, hlaid.apart⟩
  · intro rest config action id w hreaches hperforms name width length fault table binding hasks
      hplace
    have htable := hboundary w (.before hreaches hperforms) table hplace.mem
    show action.effect id w = _
    rw [Action.effect_eq, hasks.judge_eq hplace htable]
    by_cases hroom : table.total + width < storageLimit
    · simp only [if_pos hroom]
      rfl
    · simp only [if_neg hroom]
      rfl

/-- An array that leaves no room for one more integer. -/
def overfull : List Token :=
  [⟨"int", "int", 1⟩, ⟨"id", "a", 1⟩, ⟨"[", "[", 1⟩, ⟨"num", "4611686018427387903", 1⟩,
   ⟨"]", "]", 1⟩, ⟨";", ";", 1⟩, ⟨"int", "int", 2⟩, ⟨"id", "b", 2⟩, ⟨";", ";", 2⟩]

theorem runs_overfull : (Compiled.ofGrammar resolved).map (fun c =>
    let r := (Machine.mk resolved c.table semantics).run overfull Pool.initial
    (r.verdict, r.pool.globals.width)) =
      .ok (.rejected (.semantic (.variableTooLarge "b") (some 2)), storageLimit - 4) := by
  decide +kernel

/-- The array is stored, and the variable behind it is not. -/
theorem storage_exact_overfull : ∃ c : Compiler, c.Made ∧ overfull.length < 2 ^ 60 ∧
    (c.run overfull).verdict = .rejected (.semantic (.variableTooLarge "b") (some 2)) ∧
    (c.run overfull).pool.globals.width = storageLimit - 4 ∧ Stores c.machine overfull := by
  obtain ⟨compiled, hc, hruns⟩ := Compiler.exists_ofGrammar_of_map runs_overfull
  obtain ⟨hverdict, hwidth⟩ := Prod.mk.inj hruns
  have hmade := Compiler.Made.ofGrammar hc
  exact ⟨_, hmade, by decide, hverdict, hwidth, storage_exact hmade (by decide)⟩

end PredictiveParsing.Cminus
