import PredictiveParsing.Proofs.Cminus.Evaluation

/-!
# Contracts of non-terminals

A contract says of each non-terminal what holds of its node before it is expanded and when it is
finished, what holds of the pool all the time, and which failures there may be. A production meets the
contract when its actions take it from the one to the other, given that its children do
(`Contract.Meets`): the children are visited from left to right, and the actions run on the way
(`Visits`, `Acts`).

`Contract.sound`: where the productions meet a contract, every course does, also up to its failure.
-/

namespace PredictiveParsing.Cminus

/-- A place on the way: the attributes of a node, the pool, and the tokens that were taken. -/
structure Point where
  own : Attributes
  pool : Pool
  seen : List Token

structure Contract where
  /-- Holds of the tokens taken and the pool all the time. -/
  holds : List Token → Pool → Prop
  /-- Once these tokens were taken a run may fail so. -/
  blames : List Token → Failure → Prop
  pre : Nat → Around → Point → Prop
  post : Nat → Around → Point → Point → Prop
  holds_append : ∀ {seen pool}, holds seen pool → ∀ more, holds (seen ++ more) pool
  blames_append : ∀ {seen failure}, blames seen failure → ∀ more, blames (seen ++ more) failure

namespace Contract

variable (C : Contract)

/-- The action leads on to `next`, or fails as it may. -/
def Acts (a : Around) (children : List Attributes) (action : Option Action) (s : Point)
    (next : Point → Prop) : Prop :=
  match act a children action (s.own, s.pool) with
  | .ok (own, pool) => C.holds s.seen pool ∧ next ⟨own, pool, s.seen⟩
  | .error complaint => C.blames s.seen complaint.failure

/-- The visits of the nodes of some siblings lead on to `next`, given what the contract says of the
non-terminals among them. -/
def Visits : List Sign → List (Option Action) → Around → Pool → List Token →
    (List Attributes → Pool → List Token → Prop) → Prop
  | [], _, _, pool, seen, next => next [] pool seen
  | .nonTerminal n :: u, slots, a, pool, seen, next =>
    C.Acts a [] slots.head?.join ⟨{}, pool, seen⟩ fun s => C.pre n a s ∧
      ∀ own pool' more, C.holds (seen ++ more) pool' → C.post n a s ⟨own, pool', seen ++ more⟩ →
        Visits u slots.tail (a.past own) pool' (seen ++ more) fun later => next (own :: later)
  | _ :: u, slots, a, pool, seen, next =>
    C.Acts a [] slots.head?.join ⟨{}, pool, seen⟩ fun s => ∀ token : Token,
      let own := { s.own with lexical := some token.text, line := some token.line }
      Visits u slots.tail (a.past own) s.pool (seen ++ [token]) fun later => next (own :: later)

/-- A node that is expanded by the production is finished as the contract says. -/
def Meets (p : Production Action) : Prop :=
  ∀ a s, C.holds s.seen s.pool → C.pre p.left a s →
    C.Acts a [] p.opening s fun s₁ =>
      C.Visits p.right p.slots (a.inside s₁.own) s₁.pool s₁.seen fun children pool seen =>
        C.Acts a children p.closing ⟨s₁.own, pool, seen⟩ fun s₂ => C.post p.left a s s₂

/-- What an evaluation comes to, when these tokens were taken in all. -/
def Keeps (seen : List Token) (next : List Attributes → Pool → List Token → Prop) :
    Except Failure (List Attributes) × Pool → Prop
  | (.ok as, pool) => C.holds seen pool ∧ next as pool seen
  | (.error failure, pool) => C.holds seen pool ∧ C.blames seen failure

variable {C}

theorem Visits.acts {sign : Sign} {u : List Sign} {slots : List (Option Action)} {a : Around}
    {pool : Pool} {seen : List Token} {next : List Attributes → Pool → List Token → Prop}
    (h : C.Visits (sign :: u) slots a pool seen next) :
    ∃ next', C.Acts a [] slots.head?.join ⟨{}, pool, seen⟩ next' := by
  cases sign with
  | nonTerminal n => exact ⟨_, h⟩
  | terminal i => exact ⟨_, h⟩
  | empty => exact ⟨_, h⟩
  | pound => exact ⟨_, h⟩

section Keeps

variable {seen more : List Token} {next next' : List Attributes → Pool → List Token → Prop}
  {f : Attributes → Evaluation (List Attributes)}

/-- An action fails as it may, and so does the whole, or it leads on. -/
theorem keeps_perform {a : Around} {children : List Attributes} {action : Option Action}
    {own : Attributes} {pool : Pool} {next : Point → Prop} (hpool : C.holds seen pool)
    (h : C.Acts a children action ⟨own, pool, seen⟩ next)
    (hnext : ∀ own pool, C.holds seen pool → next ⟨own, pool, seen⟩ →
      C.Keeps (seen ++ more) next' ((f own).on pool)) :
    C.Keeps (seen ++ more) next' (Evaluation.on (perform a children action own >>= f) pool) := by
  rw [Evaluation.on_bind, on_perform]
  unfold Acts at h
  revert h
  rcases act a children action (own, pool) with complaint | ⟨own, pool⟩
  · exact fun h => ⟨C.holds_append hpool more, C.blames_append h more⟩
  · exact fun h => hnext own pool h.1 h.2

theorem keeps_bind {x : Evaluation (List Attributes)}
    {f : List Attributes → Evaluation (List Attributes)} {pool : Pool}
    (h : C.Keeps seen next (x.on pool))
    (hnext : ∀ as pool, C.holds seen pool → next as pool seen →
      C.Keeps (seen ++ more) next' ((f as).on pool)) :
    C.Keeps (seen ++ more) next' (Evaluation.on (x >>= f) pool) := by
  rw [Evaluation.on_bind]
  revert h
  rcases x.on pool with ⟨failure | as, pool⟩
  · exact fun h => ⟨C.holds_append h.1 more, C.blames_append h.2 more⟩
  · exact fun h => hnext as pool h.1 h.2

theorem keeps_map {x : Evaluation (List Attributes)} {pool : Pool} (own : Attributes)
    (h : C.Keeps seen (fun later => next (own :: later)) (x.on pool)) :
    C.Keeps seen next (Evaluation.on (x >>= fun later => return own :: later) pool) := by
  rw [Evaluation.on_bind]
  revert h
  rcases x.on pool with ⟨_ | _, _⟩
  · exact id
  · exact id

end Keeps

/-- Where the productions meet a contract, so does every course. -/
theorem sound {g : Grammar Action}
    (hmeets : ∀ p ∈ g.productions, p.slots.length = p.right.length → C.Meets p)
    (hrefuses : ∀ failure, g.Refuses failure → ∀ seen, C.blames seen failure) {T : Course Action}
    (hT : T.Grows g) {a : Around} {slots : List (Option Action)}
    (hslots : slots.length = T.roots.length) {pool : Pool} {seen : List Token}
    (hpool : C.holds seen pool) {next : List Attributes → Pool → List Token → Prop}
    (h : C.Visits T.roots slots a pool seen next) :
    C.Keeps (seen ++ T.tokens) next ((follow T a slots).on pool) := by
  -- A node starts with the pool and the tokens that those before it left, and what its siblings have
  -- to come to is in `next`: all of them change on the way.
  induction T generalizing a slots pool seen next with
  | nil =>
    rw [Course.tokens, List.append_nil]
    exact ⟨hpool, h⟩
  | stop failure signs =>
    rw [follow]
    cases signs with
    | nil =>
      obtain rfl := List.length_eq_zero_iff.mp hslots
      exact ⟨C.holds_append hpool _, hrefuses failure hT _⟩
    | cons sign u =>
      obtain ⟨next', hslot⟩ := h.acts
      exact keeps_perform hpool hslot fun own pool₁ hpool₁ _ =>
        ⟨C.holds_append hpool₁ _, hrefuses failure hT _⟩
  | leaf i token rest ih =>
    obtain ⟨slot, slots, rfl⟩ := List.exists_cons_of_length_eq_add_one hslots
    rw [follow]
    refine keeps_perform hpool h fun own pool₁ hpool₁ hrest => ?_
    refine keeps_map _ ?_
    have hlater := ih hT.2 (Nat.succ.inj hslots)
      (C.holds_append hpool₁ [token]) (hrest token)
    rwa [List.append_assoc] at hlater
  | node p below rest ihb ihr =>
    obtain ⟨⟨hp, hpslots, hroots, hbelow⟩, hgrows⟩ := hT
    obtain ⟨slot, slots, rfl⟩ := List.exists_cons_of_length_eq_add_one hslots
    rw [follow, Course.tokens]
    refine keeps_perform hpool h fun own₁ pool₁ hpool₁ hready => ?_
    obtain ⟨hpre, hrest⟩ := hready
    have hbody := hmeets p hp hpslots a _ hpool₁ hpre
    refine keeps_perform hpool₁ hbody fun own₂ pool₂ hpool₂ hvisits => ?_
    rw [← List.append_assoc]
    rw [← hroots] at hvisits hpslots
    refine keeps_bind (ihb hbelow hpslots hpool₂ hvisits) fun children pool₃ hpool₃ hclosing => ?_
    refine keeps_perform hpool₃ hclosing fun own₄ pool₄ hpool₄ hpost => ?_
    exact keeps_map _ (ihr hgrows (Nat.succ.inj hslots) hpool₄
      (hrest own₄ pool₄ _ hpool₄ hpost))

end Contract

end PredictiveParsing.Cminus
