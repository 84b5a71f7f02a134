import PredictiveParsing.Proofs.Cminus.Compilers
import PredictiveParsing.Proofs.Json.Inline
import PredictiveParsing.Proofs.Parse.Bounds
import PredictiveParsing.Proofs.Table.RoundTrip
import PredictiveParsing.Proofs.Table.Sameness

/-!
# The compiler with a table from anywhere

`ranked_resolved`: no non-terminal of C-minus comes back to itself on the left, so a run ends with
every table that can be loaded, and it keeps to what there is (`ofDoc_terminates`).
-/

namespace PredictiveParsing.Cminus

/-! ## The rank of a non-terminal -/

/-- How often a non-terminal can be followed down to another on its left. -/
def rank : Nat → Nat
  | Place.callParams => 5
  | Place.callParamList | Place.returnFollow => 4
  | Place.program | Place.params | Place.expression => 3
  | Place.defineList | Place.paramList | Place.localDefineList | Place.codeList
  | Place.iterationFollow | Place.additiveExpr => 2
  | Place.define | Place.defineType | Place.param | Place.localVarDefine | Place.code
  | Place.normalStatementFollow | Place.expressionFollow | Place.additiveExprFollow | Place.term
  | Place.termFollow | Place.idFactorFollow => 1
  | _ => 0

/-- The non-terminals with an empty right side, and those that come to nothing else. -/
def vanishing : List Nat :=
  [Place.program, Place.defineList, Place.params, Place.paramFollow, Place.arraySubscript,
   Place.localDefineList, Place.codeList, Place.callParams, Place.callParamFollow,
   Place.selectionFollow, Place.varFollow, Place.expressionFollow, Place.additiveExprFollow,
   Place.termFollow, Place.idFactorFollow]

theorem rank_le (n : Nat) : rank n ≤ 5 := by
  unfold rank
  split <;> decide

theorem ranked_resolved : resolved.Ranked rank := by
  refine Grammar.ranked_of_closed vanishing (fun n => ?_) ?_ ?_
  · exact (rank_le n).trans_lt (by decide)
  · decide +kernel
  · decide +kernel

theorem valid_resolved : resolved.Valid := by
  obtain ⟨compiled, hcompiled, -⟩ := exists_ofGrammar
  exact (Compiled.exact_of_ofGrammar hcompiled).valid

/-- Whatever table the compiler has, it comes to an answer. -/
theorem Compiler.Made.ends {c : Compiler} (hc : c.Made) (tokens : List Token) (pool : Pool) :
    (c.machine.run tokens pool).verdict = .accepted ∨
      ∃ f, (c.machine.run tokens pool).verdict = .rejected f := by
  obtain ⟨hgrammar, hfits⟩ := hc.fits
  obtain ⟨g, t, overlaps⟩ := c
  cases hgrammar
  exact Machine.run_ends_of_ranked (m := ⟨resolved, t, semantics⟩) local_semantics valid_resolved
    hfits ranked_resolved tokens pool

/-! ## A document -/

def quoted (text : String) : List Char := '"' :: (text.toList ++ ['"'])

def listed (items : List (List Char)) : List Char := '[' :: ([','].intercalate items ++ [']'])

/-- Cells that lead through a declaration, and define nothing more at `int` where a definition
begins. -/
def editedRows : List (List (Option Nat)) :=
  [(0, 1, 0), (1, 1, 1), (1, 0, 2), (1, 27, 2), (2, 1, 3), (5, 1, 9), (3, 11, 4), (4, 11, 6)].foldl
    (fun rows (row, column, i) => rows.modify row fun cells => cells.set column (some i))
    (List.replicate 41 (List.replicate 28 none))

def editedTable : Table := ⟨27, editedRows, by decide +kernel⟩

def editedDoc : Doc :=
  (listed
    [listed (terminals.map quoted), listed (nonTerminals.map quoted),
     listed (resolved.productions.map fun p => quoted (resolved.textOf p)), listed [], listed [],
     listed (editedRows.map fun row => listed (row.map fun cell =>
      (cell.elim "null" toString).toList))]).map some

/-- What the document says. -/
def editedContent : TableDocument :=
  ⟨terminals, nonTerminals, resolved.productions.map resolved.textOf, [], [], editedRows⟩

theorem isPlain_names : ∀ name ∈ terminals ++ nonTerminals, Scan.isPlain name.toList = true := by
  decide +kernel

theorem isPlain_nameOf (s : Sign) : Scan.isPlain (resolved.nameOf s).toList = true := by
  have hplace : ∀ (names : List String) (other : String) (i : Nat),
      (∀ name ∈ other :: names, Scan.isPlain name.toList = true) →
        Scan.isPlain ((names[i]?).getD other).toList = true := by
    intro names other i h
    cases hi : names[i]? with
    | none => exact h other List.mem_cons_self
    | some name => exact h name (List.mem_cons_of_mem _ (List.mem_of_getElem? hi))
  obtain ⟨hterminals, hnonTerminals⟩ := List.forall_mem_append.mp isPlain_names
  cases s with
  | terminal i =>
    exact hplace terminals _ i (List.forall_mem_cons.mpr ⟨by decide +kernel, hterminals⟩)
  | nonTerminal i =>
    exact hplace nonTerminals _ i (List.forall_mem_cons.mpr ⟨by decide +kernel, hnonTerminals⟩)
  | empty => decide +kernel
  | pound => decide +kernel

theorem isPlain_textOf (p : Production Action) :
    Scan.isPlain (resolved.textOf p).toList = true := by
  have hwords : ∀ word ∈ resolved.words p.left p.right, Scan.isPlain word.toList = true := by
    refine List.forall_mem_cons.mpr
      ⟨isPlain_nameOf _, List.forall_mem_cons.mpr ⟨by decide +kernel, ?_⟩⟩
    rw [Grammar.bodyWords]
    split
    next => exact List.forall_mem_singleton.mpr (by decide +kernel)
    next => exact List.forall_mem_map.mpr fun s _ => isPlain_nameOf s
  rw [Grammar.textOf_eq_words, String.toList_intercalate]
  exact Scan.isPlain_intercalate (by decide +kernel) (List.forall_mem_map.mpr hwords)

theorem stands_strings {names : List String}
    (h : ∀ name ∈ names, Scan.isPlain name.toList = true) :
    Scan.Stands (listed (names.map quoted)) (Json.strings names) :=
  Scan.stands_listed fun name hname => Scan.stands_quoted (h name hname)

/-- The parts of the document, each with its value. -/
def editedParts : List (List Char × Json) :=
  [(listed (terminals.map quoted), Json.strings terminals),
   (listed (nonTerminals.map quoted), Json.strings nonTerminals),
   (listed (resolved.productions.map fun p => quoted (resolved.textOf p)),
     Json.strings (resolved.productions.map resolved.textOf)),
   (listed [], .array []), (listed [], .array []),
   (listed (editedRows.map fun row => listed (row.map fun cell =>
      (cell.elim "null" toString).toList)),
     .array (editedRows.map fun row => .array (row.map (Json.option Json.nat))))]

theorem stands_rows {rows : List (List (Option Nat))}
    (h : ∀ row ∈ rows, ∀ cell ∈ row, ∀ i ∈ cell, i < Number.digitLimit) :
    Scan.Stands
      (listed (rows.map fun row => listed (row.map fun cell =>
        (cell.elim "null" toString).toList)))
      (.array (rows.map fun row => .array (row.map (Json.option Json.nat)))) := by
  refine Scan.stands_listed fun row hrow => Scan.stands_listed fun cell hcell => ?_
  have hstands := Scan.stands_chars (TableDocument.integral_cell (h row hrow cell hcell)) 0
  cases cell with
  | none => exact hstands
  | some i => exact hstands

theorem stands_editedParts : ∀ part ∈ editedParts, Scan.Stands part.1 part.2 := by
  obtain ⟨hterminals, hnonTerminals⟩ := List.forall_mem_append.mp isPlain_names
  have htexts : Scan.Stands (listed ((resolved.productions.map resolved.textOf).map quoted))
      (Json.strings (resolved.productions.map resolved.textOf)) :=
    stands_strings (List.forall_mem_map.mpr fun p _ => isPlain_textOf p)
  rw [List.map_map] at htexts
  have hempty : Scan.Stands (listed []) (.array []) := @stands_strings [] nofun
  have hsmall : ∀ row ∈ editedRows, ∀ cell ∈ row, ∀ i ∈ cell, i < Number.digitLimit := by
    decide +kernel
  simp only [editedParts, List.forall_mem_cons, List.not_mem_nil]
  exact ⟨stands_strings hterminals, stands_strings hnonTerminals, htexts, hempty, hempty,
    stands_rows hsmall, nofun⟩

theorem readDoc_editedDoc : Scan.readDoc TableDocument.read editedDoc = .ok editedContent := by
  have hscan : Scan.ofDoc editedDoc = (Scan.ofJson (.array (editedParts.map Prod.snd)), true) :=
    Scan.ofDoc_of_stands (Scan.stands_listed stands_editedParts)
  have hread : TableDocument.read (Scan.ofJson (.array (editedParts.map Prod.snd))) =
      .ok editedContent := editedContent.read_positional
  rw [Scan.readDoc, hscan]
  simp [hread, pure, Except.pure, bind, Except.bind]

theorem fits_editedTable : editedTable.Fits resolved := by
  have hchosen : ∀ entry ∈ editedRows.zipIdx, ∀ cell ∈ entry.1, ∀ i ∈ cell,
      (resolved.productions[i]?).map Production.left = some entry.2 := by decide +kernel
  refine Table.fits_iff.mpr ⟨by decide +kernel, fun nt cells hcells i hi => ?_⟩
  exact Option.map_eq_some_iff.mp
    (hchosen (cells, nt) (List.mem_zipIdx_iff_getElem?.mpr hcells) (some i) hi i rfl)

theorem load_editedDoc : Table.load resolved editedDoc = .ok editedTable := by
  rw [Table.load_eq readDoc_editedDoc]
  exact TableDocument.Describes.table_eq
    { terminals := rfl, nonTerminals := rfl, productions := rfl, width := rfl, rows := rfl,
      fits := fits_editedTable }

theorem ofDoc_editedDoc : Compiler.ofDoc editedDoc = .ok ⟨resolved, editedTable, []⟩ :=
  Compiler.ofDoc_eq_ok_iff.mpr ⟨editedTable, load_editedDoc, rfl⟩

/-! ## Results -/

/-- With a table from a document, whatever its cells are, the loop ends on every input and the
compiler has an answer. All the way the loop goes by nothing that there is not. -/
theorem ofDoc_terminates {d : Doc} {c : Compiler} (h : Compiler.ofDoc d = .ok c)
    (tokens : List Token) :
    (∃ n c', c.machine.Ends (Lookahead.atEnd tokens) n
      (tokens.map (Lookahead.ofToken c.grammar)) (c.machine.start Pool.initial)
        (c.run tokens).verdict c') ∧
    (∃ answer, c.compile tokens = some answer) ∧
    ∀ rest c', c.machine.Reaches tokens Pool.initial rest c' →
      c.machine.Safe (Lookahead.atEnd tokens) rest c' := by
  have hmade := Compiler.Made.ofDoc h
  have hends := hmade.ends tokens Pool.initial
  refine ⟨?_, ?_, fun rest c' hreaches => ?_⟩
  · obtain ⟨n, c', hn, -⟩ := Machine.exists_ends_run hends
    exact ⟨n, c', hn⟩
  · have hrun : c.run tokens = c.machine.run tokens Pool.initial := rfl
    rw [Compiler.compile, hrun, Run.result?]
    rcases hends with hv | ⟨f, hv⟩
    · exact ⟨_, by rw [hv]; rfl⟩
    · exact ⟨_, by rw [hv]; rfl⟩
  · obtain ⟨hgrammar, hfits⟩ := hmade.fits
    obtain ⟨g, t, overlaps⟩ := c
    cases hgrammar
    exact hreaches.safe (m := ⟨resolved, t, semantics⟩) local_semantics valid_resolved hfits

/-- The loaded table has a vanishing production where the compiled one goes on. -/
theorem ofDoc_terminates_editedDoc :
    Compiler.ofDoc editedDoc = .ok ⟨resolved, editedTable, []⟩ ∧
      (∃ answer, (Compiler.mk resolved editedTable []).compile [⟨"int", "int", 1⟩] = some answer) ∧
        ∀ rest c', (Compiler.mk resolved editedTable []).machine.Reaches [⟨"int", "int", 1⟩]
          Pool.initial rest c' → (Compiler.mk resolved editedTable []).machine.Safe
            (Lookahead.atEnd [⟨"int", "int", 1⟩]) rest c' :=
  ⟨ofDoc_editedDoc, (ofDoc_terminates ofDoc_editedDoc [⟨"int", "int", 1⟩]).2⟩

end PredictiveParsing.Cminus
