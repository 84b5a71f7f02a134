import PredictiveParsing.Proofs.Lookahead.Follow
import PredictiveParsing.Table.Overlap

/-!
# Warnings are always found

For a grammar whose indices fit, looking for overlaps has a result (`ofGrammar_eq`): the warnings
of one non-terminal after the other, each told from the first sets of its right sides and from its
own two sets.
-/

namespace PredictiveParsing.Overlap

variable {α : Type} {g : Grammar α} {firsts follows : Family}

theorem mapM_eq_ok {β γ ε : Type} {f : β → Except ε γ} {h : β → γ} {xs : List β}
    (hf : ∀ x ∈ xs, f x = .ok (h x)) : xs.mapM f = .ok (xs.map h) := by
  induction xs with
  | nil => rfl
  | cons x xs ih =>
    obtain ⟨hx, hxs⟩ := List.forall_mem_cons.mp hf
    rw [List.mapM_cons, hx, ih hxs]
    rfl

def bodies (g : Grammar α) (firsts : Family) (nt : Nat) : List SignSet :=
  (g.productionsOf nt).map fun entry => firstSet firsts entry.1.right

def found (g : Grammar α) (firsts follows : Family) (nt : Nat) : List Overlap :=
  let name := g.nameOf (.nonTerminal nt)
  let first := firsts.entry nt
  (if anyShared (bodies g firsts nt) then [firstFirst name] else []) ++
    (if .empty ∈ first ∧ !first.disjoint (follows.entry nt) then [firstFollow name] else [])

def all (g : Grammar α) (firsts follows : Family) : List Overlap :=
  (List.range g.nonTerminals.length).flatMap (found g firsts follows)

theorem ofNonTerminal_eq (hg : g.Valid) (hf : firsts.length = g.nonTerminals.length)
    (hw : follows.length = g.nonTerminals.length) {nt : Nat} (hn : nt < g.nonTerminals.length) :
    ofNonTerminal g firsts follows nt = .ok (found g firsts follows nt) := by
  have hbodies : (g.productionsOf nt).mapM (fun entry => firstOf firsts entry.1.right) =
      .ok (bodies g firsts nt) := by
    refine mapM_eq_ok fun entry hentry => firstOf_eq hf ?_
    have hp : entry ∈ g.productions.zipIdx := (List.mem_filter.mp hentry).1
    exact hg.right_fits _ ((List.mem_zipIdx hp).2.2 ▸ List.getElem_mem _)
  rw [ofNonTerminal, found, hbodies, Family.at?_eq (hf ▸ hn), Family.at?_eq (hw ▸ hn)]
  rfl

theorem ofGrammar_eq (hg : g.Valid) (hf : firsts.length = g.nonTerminals.length)
    (hw : follows.length = g.nonTerminals.length) :
    ofGrammar g firsts follows = .ok (all g firsts follows) := by
  have hall : (List.range g.nonTerminals.length).mapM (ofNonTerminal g firsts follows) =
      .ok ((List.range g.nonTerminals.length).map (found g firsts follows)) :=
    mapM_eq_ok fun nt hnt => ofNonTerminal_eq hg hf hw (List.mem_range.mp hnt)
  rw [ofGrammar, hall]
  rfl

end PredictiveParsing.Overlap
