import Mathlib.Algebra.GroupWithZero.Nat
import PredictiveParsing.Proofs.Cminus.Syntax

/-!
# The static rules of C-minus

When a program is legal, in source order and with everything declared before it is used. An
`Environment` has what was declared outside of functions, a `Context` what can be seen inside of
one. Storage is the exact sum of widths; a variable has to fit into what is left of it, while a
parameter is not asked for room.
-/

namespace PredictiveParsing.Cminus

/-- What a call has to know of a function. -/
structure Header where
  returns : ValueType
  parameters : Nat
  deriving DecidableEq, Repr

/-- The global variables with their widths and the functions, in the order of their declaration. -/
structure Environment where
  globals : List (String × Nat)
  functions : List (String × Header)
  deriving DecidableEq, Repr

/-- The inside of a function, with its parameters and local variables so far. -/
structure Context where
  outer : Environment
  returns : ValueType
  locals : List (String × Nat)
  deriving DecidableEq, Repr

def names (declared : List (String × Nat)) : List String := declared.map Prod.fst

/-- The storage that variables take one after the other. -/
def storage (declared : List (String × Nat)) : Nat := (declared.map Prod.snd).sum

namespace Environment

/-- Only the functions `input` and `output` are there. -/
def initial : Environment where
  globals := []
  functions := [("input", ⟨.int, 0⟩), ("output", ⟨.void, 1⟩)]

def header? (env : Environment) (name : String) : Option Header := env.functions.lookup name

/-- The name of a global variable or a function. -/
def Declares (env : Environment) (name : String) : Prop :=
  name ∈ names env.globals ∨ (env.header? name).isSome

def withVariable (env : Environment) (name : String) (width : Nat) : Environment :=
  { env with globals := env.globals ++ [(name, width)] }

def withFunction (env : Environment) (name : String) (header : Header) : Environment :=
  { env with functions := env.functions ++ [(name, header)] }

end Environment

namespace Context

/-- A parameter, a local variable or a global variable. -/
def Sees (s : Context) (name : String) : Prop :=
  name ∈ names s.locals ∨ name ∈ names s.outer.globals

/-- There is a function of this name with so many parameters. -/
def Calls (s : Context) (name : String) (count : Nat) (returns : ValueType) : Prop :=
  s.outer.header? name = some ⟨returns, count⟩

end Context

/-! ## Expressions and statements -/

def Phrase.Legal (s : Context) {c : Category} : Phrase c → Prop
  | plain e => e.Legal s
  | compare l _ r => l.Legal s ∧ r.Legal s
  | sum t rest => t.Legal s ∧ rest.Legal s
  | sumEnd => True
  | add _ t rest => t.Legal s ∧ rest.Legal s
  | term f rest => f.Legal s ∧ rest.Legal s
  | termEnd => True
  | multiply _ f rest => f.Legal s ∧ rest.Legal s
  | group e => e.Legal s
  | var name => s.Sees name
  | element name index => s.Sees name ∧ index.Legal s
  | call name args => s.Calls name args.count .int ∧ args.Legal s
  | number text => integer? text ≠ none
  | noArguments => True
  | arguments e rest => e.Legal s ∧ rest.Legal s
  | argumentEnd => True
  | argument e rest => e.Legal s ∧ rest.Legal s
  | skip => True
  | assign name value => s.Sees name ∧ value.Legal s
  | assignElement name index value => s.Sees name ∧ index.Legal s ∧ value.Legal s
  | invoke name args => (∃ returns, s.Calls name args.count returns) ∧ args.Legal s
  | choose condition body => condition.Legal s ∧ body.Legal s
  | chooseElse condition body other => condition.Legal s ∧ body.Legal s ∧ other.Legal s
  | loop condition body => condition.Legal s ∧ body.Legal s
  | loopOne condition body => condition.Legal s ∧ body.Legal s
  | leave => s.returns = .void
  | giveBack e => s.returns ≠ .void ∧ e.Legal s
  | done => True
  | step st rest => st.Legal s ∧ rest.Legal s

/-! ## Declarations -/

def TypeName.type? (t : TypeName) : Option ValueType := ValueType.ofKeyword? t.text

/-- The width of a variable, or of an array when the text of its length is a positive number. -/
def widthOf? : Option String → Option Nat
  | none => some intWidth
  | some text => do
    let n ← count? text
    if 0 < n then some (intWidth * n) else none

def Variable.width (v : Variable) : Nat := (widthOf? v.length).getD 0

/-- The variable may be declared where these names are taken, in a table that uses so much
storage. -/
structure Variable.Legal (taken : String → Prop) (used : Nat) (v : Variable) : Prop where
  type : v.type.type? = some .int
  fresh : ¬ taken v.name
  measured : (widthOf? v.length).isSome
  room : used + v.width < storageLimit

structure Parameter.Legal (taken : String → Prop) (p : Parameter) : Prop where
  type : p.type.type? = some .int
  fresh : ¬ taken p.name

def Variable.entry (v : Variable) : String × Nat := (v.name, v.width)

def Parameter.entry (p : Parameter) : String × Nat := (p.name, intWidth)

/-- Names that are taken for what is declared in a function: global variables, and parameters and
local variables so far. Functions are not among them. -/
def Taken (globals declared : List (String × Nat)) (name : String) : Prop :=
  name ∈ names globals ∨ name ∈ names declared

/-- The parameters can be declared one after the other. -/
def LegalParameters (globals : List (String × Nat)) :
    List (String × Nat) → List Parameter → Prop
  | _, [] => True
  | declared, p :: ps =>
    p.Legal (Taken globals declared) ∧ LegalParameters globals (declared ++ [p.entry]) ps

/-- So can the local variables. -/
def LegalLocals (globals : List (String × Nat)) : List (String × Nat) → List Variable → Prop
  | _, [] => True
  | declared, v :: vs =>
    v.Legal (Taken globals declared) (storage declared) ∧
      LegalLocals globals (declared ++ [v.entry]) vs

/-! ## Programs -/

namespace Function

def returns (f : Function) : ValueType := f.type.type?.getD .int

def entries (f : Function) : List (String × Nat) :=
  f.parameters.map Parameter.entry ++ f.locals.map Variable.entry

/-- The environment behind the header of the function. -/
def header (f : Function) (env : Environment) : Environment :=
  env.withFunction f.name ⟨f.returns, f.parameters.length⟩

/-- The body may call the function itself. -/
structure Legal (env : Environment) (f : Function) : Prop where
  type : f.type.type?.isSome
  fresh : ¬ env.Declares f.name
  parameters : LegalParameters env.globals [] f.parameters
  locals : LegalLocals env.globals (f.parameters.map Parameter.entry) f.locals
  body : f.body.Legal ⟨f.header env, f.returns, f.entries⟩

end Function

namespace Definition

def Legal (env : Environment) : Definition → Prop
  | var v => v.Legal env.Declares (storage env.globals)
  | function f => f.Legal env

/-- The environment behind the definition. -/
def after (env : Environment) : Definition → Environment
  | var v => env.withVariable v.name v.width
  | function f => f.header env

end Definition

/-- The definitions are legal one after the other. -/
def LegalIn : Environment → Source → Prop
  | _, [] => True
  | env, d :: ds => d.Legal env ∧ LegalIn (d.after env) ds

/-- The environment behind a list of definitions. -/
def Source.environment (source : Source) (env : Environment) : Environment :=
  source.foldl (fun env' (d : Definition) => d.after env') env

/-- A program is legal when it is in the environment of the built-in functions. -/
def Source.Legal (source : Source) : Prop := LegalIn .initial source

/-! ## Room

What is declared in a legal program fits below the limit. For the parameters, which nothing asks
about, it takes 2 ^ 62 of them to go beyond it.
-/

theorem storage_append (xs ys : List (String × Nat)) :
    storage (xs ++ ys) = storage xs + storage ys := by
  simp [storage]

theorem storage_parameters (ps : List Parameter) :
    storage (ps.map Parameter.entry) = intWidth * ps.length := by
  induction ps with
  | nil => rfl
  | cons p ps ih =>
    have hstep : storage ((p :: ps).map Parameter.entry) =
        intWidth + storage (ps.map Parameter.entry) := rfl
    rw [hstep, ih, List.length_cons, Nat.mul_succ, Nat.add_comm]

theorem LegalLocals.storage_lt {globals : List (String × Nat)} {vs : List Variable} :
    ∀ {declared : List (String × Nat)}, LegalLocals globals declared vs →
      storage declared < storageLimit →
      storage (declared ++ vs.map Variable.entry) < storageLimit := by
  induction vs with
  | nil =>
    intro declared _ h
    rwa [List.map_nil, List.append_nil]
  | cons v vs ih =>
    rintro declared ⟨hv, hvs⟩ -
    have hroom : storage (declared ++ [v.entry]) < storageLimit := by
      rw [storage_append]
      exact hv.room
    have := ih hvs hroom
    rwa [List.append_assoc] at this

theorem Function.Legal.storage_lt {env : Environment} {f : Function} (h : f.Legal env)
    (hparameters : intWidth * f.parameters.length < storageLimit) :
    storage f.entries < storageLimit :=
  h.locals.storage_lt (by rwa [storage_parameters])

theorem LegalIn.storage_lt {source : Source} : ∀ {env : Environment}, LegalIn env source →
    storage env.globals < storageLimit →
    storage (source.environment env).globals < storageLimit := by
  induction source with
  | nil =>
    intro env _ h
    exact h
  | cons d ds ih =>
    rintro env ⟨hd, hds⟩ h
    refine ih hds ?_
    cases d with
    | var v =>
      have hroom := hd.room
      have hafter : ((Definition.var v).after env).globals = env.globals ++ [v.entry] := rfl
      rwa [hafter, storage_append]
    | function f => exact h

/-- The global variables of a legal program fit. -/
theorem Source.Legal.storage_lt {source : Source} (h : source.Legal) :
    storage (source.environment .initial).globals < storageLimit :=
  LegalIn.storage_lt h (by decide)

end PredictiveParsing.Cminus
