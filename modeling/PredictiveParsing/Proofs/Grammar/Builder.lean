import PredictiveParsing.Grammar.Builder
import PredictiveParsing.Proofs.Grammar.Resolution

/-!
# Grammars made call by call

The calls that make a declaration, in whatever order they come, leave the names and rules in the
order of the calls and what was given last where only one can be (`ofDraft_eq`, `ofCalls_eq`).
`calls_make_grammar` says from the calls alone whether there is a grammar, and what it is. A position
that no list of slots has room for leaves nothing built.
-/

namespace PredictiveParsing

variable {α : Type}

/-! ## What calls leave behind -/

namespace Rule

def Call.opening? : Call α → Option α
  | .opens action => some action
  | _ => none

def Call.closing? : Call α → Option α
  | .closes action => some action
  | _ => none

def Call.placement? : Call α → Option (Nat × α)
  | .before position action => some (position, action)
  | _ => none

def Call.placedAt? (position : Nat) : Call α → Option α
  | .before i action => if i = position then some action else none
  | _ => none

def Call.listing? : Call α → Option (List (Option α))
  | .listing slots => some slots
  | _ => none

theorem ofDraft_eq (r : Draft α) : ofDraft r =
    { left := r.left, right := r.right, opening := lastOf Call.opening? r.calls,
      closing := lastOf Call.closing? r.calls, slots := lastOf Call.listing? r.calls,
      placed := r.calls.filterMap Call.placement? } := by
  obtain ⟨left, right, calls⟩ := r
  simp only [ofDraft]
  induction calls using List.reverseRecOn with
  | nil => rfl
  | append_singleton calls c ih =>
    rw [List.foldl_concat, ih]
    cases c <;> simp [call, opens, closes, before, listing, lastOf_concat, Call.opening?,
      Call.closing?, Call.listing?, Call.placement?]

/-- The list that was given for the slots last, else one empty slot for each sign. -/
def Draft.listed (r : Draft α) : List (Option α) :=
  (lastOf Call.listing? r.calls).getD (r.right.map fun _ => none)

/-- Each position that is placed at is one that the list has, or has room to grow to. -/
def Draft.HasRoom (r : Draft α) (room : Nat) : Prop :=
  ∀ position action, .before position action ∈ r.calls → position < max room r.listed.length

theorem forall_placement_iff (r : Draft α) (Q : Nat → Prop) :
    (∀ x ∈ r.calls.filterMap Call.placement?, Q x.1) ↔
      ∀ position action, .before position action ∈ r.calls → Q position := by
  simp only [List.mem_filterMap]
  constructor
  · exact fun h position action hc => h (position, action) ⟨_, hc, rfl⟩
  · rintro h x ⟨c, hc, hx⟩
    cases c with
    | before position action => exact Option.some.inj hx ▸ h position action hc
    | opens => cases hx
    | closes => cases hx
    | listing => cases hx

instance (r : Draft α) (room : Nat) : Decidable (r.HasRoom room) :=
  decidable_of_iff _ (forall_placement_iff r (· < max room r.listed.length))

theorem hasRoom_ofDraft {room : Nat} {r : Draft α} :
    (ofDraft r).HasRoom room ↔ r.HasRoom room := by
  rw [ofDraft_eq]
  exact forall_placement_iff r (· < max room r.listed.length)

/-- The production has the names and the actions of the draft in their places, and no slot more than
its list and the positions ask for. -/
structure Draft.Spells (r : Draft α) (g : Grammar α) (p : Production α) : Prop where
  left_name : g.nameOf (.nonTerminal p.left) = r.left
  right_names : p.right.map g.nameOf = r.right
  opening_eq : p.opening = lastOf Call.opening? r.calls
  closing_eq : p.closing = lastOf Call.closing? r.calls
  slot_eq : ∀ j, p.slots[j]?.join = (lastOf (Call.placedAt? j) r.calls).or r.listed[j]?.join
  length_le_iff : ∀ n, p.slots.length ≤ n ↔
    r.listed.length ≤ n ∧ ∀ position action, .before position action ∈ r.calls → position < n

theorem spells_of_makes {g : Grammar α} {p : Production α} {r : Draft α}
    (h : Declaration.Makes g p (ofDraft r)) : r.Spells g p := by
  rw [ofDraft_eq] at h
  refine ⟨h.left_name, h.right_names, h.opening_eq, h.closing_eq, fun j => ?_, fun n => ?_⟩
  · have hcall : ∀ c : Call α, (c.placement?).bind
        (fun x => if x.1 = j then some x.2 else none) = c.placedAt? j := by
      intro c
      cases c <;> rfl
    rw [h.slots_eq, allSlots, join_getElem?_placeAll, lastOf_filterMap, funext hcall]
    rfl
  · rw [h.slots_eq, allSlots, length_placeAll_le_iff]
    exact and_congr_right fun _ => forall_placement_iff r (· < n)

end Rule

namespace Declaration

def Call.terminalNames : Call α → List String
  | .terminals names => names
  | _ => []

def Call.nonTerminalNames : Call α → List String
  | .nonTerminals names => names
  | _ => []

def Call.start? : Call α → Option String
  | .start name => some name
  | _ => none

def Call.drafts : Call α → List (Rule.Draft α)
  | .rule draft => [draft]
  | .rules drafts => drafts
  | _ => []

theorem ofCalls_eq (calls : List (Call α)) : ofCalls calls =
    { terminals := calls.flatMap Call.terminalNames,
      nonTerminals := calls.flatMap Call.nonTerminalNames, start := lastOf Call.start? calls,
      rules := (calls.flatMap Call.drafts).map Rule.ofDraft } := by
  induction calls using List.reverseRecOn with
  | nil => rfl
  | append_singleton calls c ih =>
    rw [ofCalls, List.foldl_concat, ← ofCalls, ih]
    cases c <;> simp [call, lastOf_concat, Call.terminalNames, Call.nonTerminalNames, Call.start?,
      Call.drafts]

end Declaration

/-! ## Results -/

namespace Declaration

/-- When the positions are within the room that there is, a declaration has a grammar just when its
calls name everything once and use only what is named; when they are not, it has none. The grammar is
spelled as the calls say. -/
theorem calls_make_grammar (room : Nat) (calls : List (Call α)) :
    ((∀ r ∈ calls.flatMap Call.drafts, r.HasRoom room) →
      ((∃ g, ((ofCalls calls).build room).run = some (.ok g)) ↔
        (calls.flatMap Call.terminalNames ++ calls.flatMap Call.nonTerminalNames).Nodup ∧
        (∃ name ∈ lastOf Call.start? calls, name ∈ calls.flatMap Call.nonTerminalNames) ∧
        ∀ r ∈ calls.flatMap Call.drafts, r.left ∈ calls.flatMap Call.nonTerminalNames ∧
          ∀ name ∈ r.right, name ∈ calls.flatMap Call.terminalNames ∨
            name ∈ calls.flatMap Call.nonTerminalNames)) ∧
    ∀ g, ((ofCalls calls).build room).run = some (.ok g) →
      (∀ r ∈ calls.flatMap Call.drafts, r.HasRoom room) ∧
      g.validate = .ok () ∧ g.terminals = calls.flatMap Call.terminalNames ∧
      g.nonTerminals = calls.flatMap Call.nonTerminalNames ∧
      lastOf Call.start? calls = some (g.nameOf (.nonTerminal g.start)) ∧
      (∀ name s, g.terminal name = some s ↔
        s.isTerminal = true ∧ g.fits s = true ∧ g.nameOf s = name) ∧
      (∀ name s, g.nonTerminal name = some s ↔
        s.isNonTerminal = true ∧ g.fits s = true ∧ g.nameOf s = name) ∧
      List.Forall₂ (fun p r => r.Spells g p) g.productions (calls.flatMap Call.drafts) := by
  have hbuild : (∃ g, ((ofCalls calls).build room).run = some (.ok g)) ↔ _ := exists_build_iff
  rw [ofCalls_eq] at hbuild ⊢
  simp only [List.forall_mem_map, Rule.hasRoom_ofDraft] at hbuild
  simp only [Rule.ofDraft_eq] at hbuild
  refine ⟨fun hroom => hbuild.trans ?_, fun g hg => ?_⟩
  · refine and_congr_right fun _ => and_congr_right fun _ => ?_
    exact forall₂_congr fun r hr => and_iff_left (hroom r hr)
  · have hmade := made_of_build hg
    obtain ⟨hnodup, -, hrules⟩ := hbuild.mp ⟨g, hg⟩
    have hterminals := hmade.terminals_eq
    have hnonTerminals := hmade.nonTerminals_eq
    dsimp only at hterminals hnonTerminals
    rw [← hterminals, ← hnonTerminals, List.nodup_append] at hnodup
    refine ⟨fun r hr => (hrules r hr).2, Grammar.validate_eq_ok_iff.mpr hmade.valid, hterminals,
      hnonTerminals, hmade.start_name, fun name s => Grammar.terminal_eq_some_iff hnodup.1,
      fun name s => Grammar.nonTerminal_eq_some_iff hnodup.2.1, ?_⟩
    exact (List.forall₂_map_right_iff.mp hmade.makes).imp fun _ _ => Rule.spells_of_makes

/-- Calls out of order, with a list of slots in between, two actions before one child and one
behind the last child. -/
def scattered : List (Call Nat) :=
  [.start "T", .terminals ["a"],
    .rule ⟨"S", ["a", "S"], [.before 3 1, .before 0 2, .listing [none, some 3], .before 0 4]⟩,
    .nonTerminals ["S"], .rules [⟨"S", [], [.closes 5]⟩], .terminals ["b"], .start "S"]

/-- Four slots are enough for these calls, and three are not. -/
theorem calls_make_grammar_scattered :
    (¬ ∃ g, ((ofCalls scattered).build 3).run = some (.ok g)) ∧
    ∃ g p q, ((ofCalls scattered).build 4).run = some (.ok g) ∧
      g.validate = .ok () ∧ g.terminal "b" = some (.terminal 1) ∧ g.productions = [p, q] ∧
      p.slots[0]?.join = some 4 ∧ p.slots[1]?.join = some 3 ∧ p.slots[2]?.join = none ∧
      p.slots[3]?.join = some 1 ∧ p.slots.length ≤ 4 ∧ q.closing = some 5 := by
  refine ⟨fun ⟨g, hg⟩ => absurd ((calls_make_grammar 3 scattered).2 g hg).1 (by decide), ?_⟩
  obtain ⟨hdeclared, hmade⟩ := calls_make_grammar 4 scattered
  obtain ⟨g, hg⟩ := (hdeclared (by decide)).mpr (by decide)
  obtain ⟨-, hvalid, hterminals, -, -, hterminal, -, hspells⟩ := hmade g hg
  have hb : g.fits (.terminal 1) = true ∧ g.nameOf (.terminal 1) = "b" := by
    rw [Grammar.fits_terminal, Grammar.nameOf, hterminals]
    decide
  cases hproductions : g.productions with
  | nil => rw [hproductions] at hspells; cases hspells
  | cons p ps =>
    rw [hproductions] at hspells
    cases hspells with
    | cons hp hrest =>
      cases hrest with
      | @cons q _ _ _ hq hnone =>
        cases hnone
        refine ⟨g, p, q, hg, hvalid, (hterminal "b" (.terminal 1)).mpr ⟨rfl, hb⟩, hproductions,
          hp.slot_eq 0, hp.slot_eq 1, hp.slot_eq 2, hp.slot_eq 3, (hp.length_le_iff 4).mpr ?_,
          hq.closing_eq⟩
        refine ⟨by decide, fun position action hc => ?_⟩
        simp only [List.mem_cons, List.not_mem_nil, or_false, Rule.Call.before.injEq,
          reduceCtorEq, false_or] at hc
        omega

end Declaration

end PredictiveParsing
