import PredictiveParsing.Proofs.Cminus.Answers
import PredictiveParsing.Proofs.Cminus.Contracts

/-!
# The contract of C-minus

What is handed to each non-terminal and what holds when it is finished: where it stands in a program,
whether the pool stays as it was, and which attributes are there (`duties`). All the time the pool is
sound, and a failure is one of the program.

* `meets_duties`: every production meets the contract.
-/

namespace PredictiveParsing.Cminus

open Sign (terminal nonTerminal)

/-! ## Zones -/

/-- Outside of functions, there or in a function, among the parameters of a function, and in its
body. -/
inductive Zone where
  | outside
  | anywhere
  | header
  | inside
  deriving DecidableEq

def Zone.Holds (function? : Option String) (pool : Pool) : Zone → Prop
  | outside => function? = none
  | anywhere => ∀ f, function? = some f → pool.Opened f
  | header => ∃ f, function? = some f ∧ pool.InHeader f
  | inside => ∃ f, function? = some f ∧ pool.Opened f

/-- Where a non-terminal can stand. -/
def zoneOf : Nat → Zone
  | Place.program | Place.defineList | Place.define | Place.defineType | Place.funDefineFollow =>
    .outside
  | Place.varDefineFollow | Place.type => .anywhere
  | Place.params | Place.paramList | Place.paramFollow | Place.param | Place.arraySubscript =>
    .header
  | _ => .inside

/-- The non-terminals below which something is declared. -/
def declaring : List Nat :=
  [Place.program, Place.defineList, Place.define, Place.defineType, Place.varDefineFollow,
   Place.funDefineFollow, Place.params, Place.paramList, Place.paramFollow, Place.param,
   Place.codeBlock, Place.localDefineList, Place.localVarDefine]

/-- Types, subscripts, statements and expressions declare nothing. -/
def Still (n : Nat) : Prop := n ∉ declaring

instance (n : Nat) : Decidable (Still n) := inferInstanceAs (Decidable (_ ∉ _))

theorem Zone.Holds.anywhere {function? : Option String} {pool : Pool} {z : Zone}
    (h : z.Holds function? pool) : Zone.anywhere.Holds function? pool := by
  intro f hf
  cases z with
  | outside => exact absurd (hf.symm.trans h) (Option.some_ne_none f)
  | anywhere => exact h f hf
  | header =>
    obtain ⟨g, hg, hheader⟩ := h
    obtain rfl := Option.some.inj (hf.symm.trans hg)
    exact hheader.opened
  | inside =>
    obtain ⟨g, hg, hopened⟩ := h
    obtain rfl := Option.some.inj (hf.symm.trans hg)
    exact hopened

/-! ## Duties -/

/-- A name and the line of its token were handed to the node. -/
structure Named (seen : List Token) (own : Attributes) : Prop where
  id : ∃ name, own.id = some name
  line : Lined seen own.line

/-- What is handed to a non-terminal: declarators have a name and a type, what stands behind a name
in a statement has the name, and behind a `return` there is its keyword. -/
def Handed (n : Nat) (a : Around) (s : Point) : Prop :=
  match n with
  | Place.defineType | Place.varDefineFollow | Place.funDefineFollow =>
    Named s.seen s.own ∧ ∃ ty, s.own.ty = some ty
  | Place.normalStatementFollow | Place.callFollow | Place.idFactorFollow => Named s.seen s.own
  | Place.returnFollow => ∃ parent keyword before,
    a.parent? = some parent ∧ a.before = keyword :: before ∧ Lined s.seen keyword.line
  | _ => True

structure Ready (n : Nat) (a : Around) (s : Point) : Prop where
  function : s.own.function = none
  zone : (zoneOf n).Holds a.function? s.pool
  handed : Handed n a s

structure Finished (n : Nat) (a : Around) (s s' : Point) : Prop where
  still : Still n → s'.pool = s.pool
  zone : (zoneOf n).Holds a.function? s'.pool
  typed : n = Place.type → ∃ ty, s'.own.ty = some ty

def duties : Contract where
  holds _ pool := pool.Sound
  blames := Blamed
  pre := Ready
  post := Finished
  holds_append h _ := h
  blames_append := blamed_append

section Finished

variable {n : Nat} {a : Around} {s : Point}

/-- Where the pool may change, it is left to say what holds of the new one. -/
theorem finished_of_not_still {s' : Point} (h : ¬ Still n)
    (hzone : (zoneOf n).Holds a.function? s'.pool) : Finished n a s s' :=
  ⟨fun h' => absurd h' h, hzone, fun h' => absurd (h' ▸ (by decide : Still Place.type)) h⟩

/-- Where the pool stays, so does all that is known of it. -/
theorem Ready.finished (h : Ready n a s) (hn : n ≠ Place.type) (own : Attributes)
    (seen : List Token) : Finished n a s ⟨own, s.pool, seen⟩ :=
  ⟨fun _ => rfl, h.zone, fun h' => absurd h' hn⟩

end Finished

section Function

variable {own : Attributes} (hown : own.function = none) (a : Around)

include hown

/-- Below and at a node that names no function there is the one around it. -/
theorem function_inside : (a.inside own).function? = a.function? := by
  rw [Around.inside, hown]
  rfl

theorem function_site (children : List Attributes) (pool : Pool) :
    (a.site own children pool).function? = a.function? := by
  rw [Around.site, hown]
  rfl

end Function

section Acts

variable {a : Around} {children : List Attributes} {action : Action} {s : Point}
  {next : Point → Prop}

theorem act_some (a : Around) (children : List Attributes) (action : Action) (own : Attributes)
    (pool : Pool) : act a children (some action) (own, pool) =
      (action.judge (a.site own children pool) >>= fun change => .ok (change.apply pool)) := rfl

theorem acts_of_answers {Q : Change → Prop}
    (h : Answers s.seen (action.judge (a.site s.own children s.pool)) Q)
    (hnext : ∀ change, Q change → (change.apply s.pool).2.Sound ∧
      next ⟨change.attrs, (change.apply s.pool).2, s.seen⟩) :
    duties.Acts a children (some action) s next := by
  unfold Contract.Acts
  rw [act_some]
  revert h
  cases action.judge (a.site s.own children s.pool) with
  | error complaint => exact id
  | ok change => exact hnext change

theorem acts_of_quiet (hpool : s.pool.Sound)
    (h : Answers s.seen (action.judge (a.site s.own children s.pool))
      (Quiet (a.site s.own children s.pool)))
    (hnext : ∀ own : Attributes, own.function = s.own.function → next ⟨own, s.pool, s.seen⟩) :
    duties.Acts a children (some action) s next := by
  refine acts_of_answers h fun change ⟨hbinding, hfunction⟩ => ?_
  have hsame : (change.apply s.pool).2 = s.pool := by rw [Change.apply, hbinding]
  rw [hsame]
  exact ⟨hpool, hnext _ hfunction⟩

/-- The action gives its node these attributes. -/
theorem acts_of_eq {own : Attributes} (hpool : s.pool.Sound)
    (h : action.judge (a.site s.own children s.pool) = .ok ⟨own, none⟩)
    (hnext : next ⟨own, s.pool, s.seen⟩) : duties.Acts a children (some action) s next := by
  unfold Contract.Acts
  rw [act_some, h]
  exact ⟨hpool, hnext⟩

end Acts

section Visits

variable {i n : Nat} {u : List Sign} {slots : List (Option Action)} {a : Around} {pool : Pool}
  {seen : List Token} {next : List Attributes → Pool → List Token → Prop}

theorem visits_terminal (hpool : pool.Sound)
    (h : ∀ token, duties.Visits u slots (a.past (leafAttributes token)) pool (seen ++ [token])
      fun later => next (leafAttributes token :: later)) :
    duties.Visits (terminal i :: u) (none :: slots) a pool seen next := ⟨hpool, h⟩

theorem visits_nonTerminal (hpool : pool.Sound) (hready : Ready n a ⟨{}, pool, seen⟩)
    (h : ∀ own pool' more, pool'.Sound →
      Finished n a ⟨{}, pool, seen⟩ ⟨own, pool', seen ++ more⟩ →
        duties.Visits u slots (a.past own) pool' (seen ++ more) fun later => next (own :: later)) :
    duties.Visits (nonTerminal n :: u) (none :: slots) a pool seen next := ⟨hpool, hready, h⟩

end Visits

/-! ## Productions that hand nothing on -/

/-- The non-terminals to which something is handed. -/
def needy : List Nat :=
  [Place.defineType, Place.varDefineFollow, Place.funDefineFollow, Place.normalStatementFollow,
   Place.callFollow, Place.returnFollow, Place.idFactorFollow]

theorem handed_of_not_needy {n : Nat} (h : n ∉ needy) (a : Around) (s : Point) :
    Handed n a s := by
  unfold Handed
  split <;> simp_all [needy]

/-- The sign can stand below `left` without being handed anything. -/
def Plain (left : Nat) : Sign → Prop
  | nonTerminal n => zoneOf n = zoneOf left ∧ (Still left → Still n) ∧ n ∉ needy
  | terminal _ => True
  | .empty => False
  | .pound => False

instance (left : Nat) : DecidablePred (Plain left)
  | nonTerminal _ => inferInstanceAs (Decidable (_ ∧ _))
  | terminal _ => inferInstanceAs (Decidable True)
  | .empty => inferInstanceAs (Decidable False)
  | .pound => inferInstanceAs (Decidable False)

/-- The children of a production: a terminal has the text and line of a token that was taken. -/
def Fitting (seen : List Token) : List Sign → List Attributes → Prop :=
  List.Forall₂ fun sign own =>
    ∀ i, sign = terminal i → ∃ token ∈ seen, own = leafAttributes token

/-- The children are visited in the zone of the production, and what comes after them is reached
there. -/
theorem visits_plain {left : Nat} {u : List Sign} (hu : ∀ sign ∈ u, Plain left sign)
    {a : Around} {pool : Pool} {seen : List Token} (hpool : pool.Sound)
    (hzone : (zoneOf left).Holds a.function? pool)
    {next : List Attributes → Pool → List Token → Prop}
    (hnext : ∀ children pool' seen', seen ⊆ seen' → pool'.Sound → Fitting seen' u children →
      (Still left → pool' = pool) → (zoneOf left).Holds a.function? pool' →
        next children pool' seen') :
    duties.Visits u (u.map fun _ => none) a pool seen next := by
  -- `a.past` has the function of `a`, so all siblings stand in the zone of the first.
  induction u generalizing a pool seen next with
  | nil => exact hnext [] pool seen (List.Subset.refl _) hpool .nil (fun _ => rfl) hzone
  | cons sign u ih =>
    obtain ⟨hsign, hrest⟩ := List.forall_mem_cons.mp hu
    cases sign with
    | terminal i =>
      refine visits_terminal hpool fun token => ?_
      refine ih (a := a.past _) hrest hpool hzone
        fun children pool' seen' hseen hpool' hfit hstill hzone' => ?_
      refine hnext _ pool' seen' (fun t ht => hseen (List.mem_append_left _ ht)) hpool'
        (.cons (fun _ _ => ⟨token, hseen ?_, rfl⟩) hfit) hstill hzone'
      exact List.mem_append_right _ (List.mem_singleton_self token)
    | nonTerminal n =>
      obtain ⟨hn, hcalm, hhanded⟩ := hsign
      refine visits_nonTerminal hpool ⟨rfl, hn ▸ hzone, handed_of_not_needy hhanded a _⟩
        fun own pool₁ more hpool₁ hdone => ?_
      refine ih hrest hpool₁ (hn ▸ hdone.zone)
        fun children pool' seen' hseen hpool' hfit hstill hzone' => ?_
      refine hnext _ pool' seen' (fun t ht => hseen (List.mem_append_left _ ht)) hpool'
        (.cons (by rintro i ⟨⟩) hfit) (fun hleft => ?_) hzone'
      exact (hstill hleft).trans (hdone.still (hcalm hleft))
    | empty => exact hsign.elim
    | pound => exact hsign.elim

/-- Where children are handed nothing, it is enough that the actions are quiet. -/
theorem meets_plain {p : Production Action} (hright : ∀ sign ∈ p.right, Plain p.left sign)
    (hslots : p.slots = p.right.map fun _ => none) (hleft : p.left ≠ Place.type)
    (hopening : ∀ (a : Around) (s : Point), s.pool.Sound → Ready p.left a s →
      ∀ action, p.opening = some action →
        Answers s.seen (action.judge (a.site s.own [] s.pool)) (Quiet (a.site s.own [] s.pool)))
    (hclosing : ∀ (a : Around) (own : Attributes) (pool : Pool) (seen : List Token)
      (children : List Attributes), Fitting seen p.right children →
      ∀ action, p.closing = some action →
        Answers seen (action.judge (a.site own children pool)) (Quiet (a.site own children pool))) :
    duties.Meets p := by
  intro a s hpool hready
  have hvisits : ∀ own : Attributes, own.function = s.own.function →
      duties.Visits p.right p.slots (a.inside own) s.pool s.seen fun children pool seen =>
        duties.Acts a children p.closing ⟨own, pool, seen⟩ fun s₂ => Finished p.left a s s₂ := by
    intro own hown
    have hfunction := function_inside (hown.trans hready.function) a
    rw [hslots]
    refine visits_plain hright hpool (hfunction ▸ hready.zone)
      fun children pool seen _ hpool' hfit hstill hzone => ?_
    rw [hfunction] at hzone
    have hdone : ∀ own' : Attributes, Finished p.left a s ⟨own', pool, seen⟩ := fun own' =>
      ⟨hstill, hzone, fun h => absurd h hleft⟩
    cases hc : p.closing with
    | none => exact ⟨hpool', hdone own⟩
    | some action =>
      exact acts_of_quiet hpool' (hclosing a own pool seen children hfit action hc)
        fun own' _ => hdone own'
  cases ho : p.opening with
  | none => exact ⟨hpool, hvisits s.own rfl⟩
  | some action => exact acts_of_quiet hpool (hopening a s hpool hready action ho) hvisits

section Plain

variable {p : Production Action} {action : Action}
  (hright : ∀ sign ∈ p.right, Plain p.left sign) (hslots : p.slots = p.right.map fun _ => none)
  (hleft : p.left ≠ Place.type)

include hright hslots hleft

theorem meets_bare (hopening : p.opening = none) (hclosing : p.closing = none) :
    duties.Meets p := by
  refine meets_plain hright hslots hleft (fun _ _ _ _ action h => ?_) fun _ _ _ _ _ _ action h => ?_
  · exact absurd (hopening.symm.trans h).symm (Option.some_ne_none action)
  · exact absurd (hclosing.symm.trans h).symm (Option.some_ne_none action)

theorem meets_opening (hopening : p.opening = some action) (hclosing : p.closing = none)
    (h : ∀ (a : Around) (s : Point), s.pool.Sound → Ready p.left a s →
      Answers s.seen (action.judge (a.site s.own [] s.pool)) (Quiet (a.site s.own [] s.pool))) :
    duties.Meets p := by
  refine meets_plain hright hslots hleft (fun a s hpool hready action' h' => ?_)
    fun _ _ _ _ _ _ action h => ?_
  · obtain rfl := Option.some.inj (hopening.symm.trans h')
    exact h a s hpool hready
  · exact absurd (hclosing.symm.trans h).symm (Option.some_ne_none action)

theorem meets_closing (hopening : p.opening = none) (hclosing : p.closing = some action)
    (h : ∀ (a : Around) (own : Attributes) (pool : Pool) (seen : List Token)
      (children : List Attributes), Fitting seen p.right children →
        Answers seen (action.judge (a.site own children pool))
          (Quiet (a.site own children pool))) : duties.Meets p := by
  refine meets_plain hright hslots hleft (fun _ _ _ _ action h => ?_)
    fun a own pool seen children hfit action' h' => ?_
  · exact absurd (hopening.symm.trans h).symm (Option.some_ne_none action)
  · obtain rfl := Option.some.inj (hclosing.symm.trans h')
    exact h a own pool seen children hfit

end Plain

theorem Fitting.exists_child {seen : List Token} {u : List Sign} {children : List Attributes}
    (h : Fitting seen u children) {i : Nat} (hi : i < u.length) :
    ∃ child, children[i]? = some child := by
  rw [h.length_eq] at hi
  exact ⟨_, List.getElem?_eq_getElem hi⟩

theorem Fitting.terminal {seen : List Token} {i : Nat} {children : List Attributes}
    (h : Fitting seen [terminal i] children) :
    ∃ token ∈ seen, children = [leafAttributes token] := by
  cases h with
  | cons hown hrest =>
    cases hrest
    obtain ⟨token, htoken, rfl⟩ := hown i rfl
    exact ⟨token, htoken, rfl⟩

/-! ## Names and types on their way -/

theorem mem_snoc (seen : List Token) (token : Token) : token ∈ seen ++ [token] :=
  List.mem_append_right seen (List.mem_singleton_self token)

theorem meets_type (ty : ValueType) : duties.Meets (Form.type ty).production := by
  intro a s hpool hready
  refine ⟨hpool, visits_terminal hpool fun token => ?_⟩
  refine acts_of_answers (answers_typeFromKeyword (mem_snoc s.seen token) rfl)
    fun change ⟨hbinding, hty⟩ => ?_
  have hsame : (change.apply s.pool).2 = s.pool := by rw [Change.apply, hbinding]
  show (change.apply s.pool).2.Sound ∧ _
  rw [hsame]
  exact ⟨hpool, fun _ => rfl, hready.zone, fun _ => Option.isSome_iff_exists.mp hty⟩

/-- What is handed to a declarator behind a type and a name. -/
theorem meets_declarator {left n : Nat} (hstill : ¬ Still left)
    (hhanded : ∀ a s, Named s.seen s.own → (∃ ty, s.own.ty = some ty) → Handed n a s)
    (hdown : ∀ function? pool, (zoneOf left).Holds function? pool →
      (zoneOf n).Holds function? pool)
    (hup : ∀ function? pool pool', (zoneOf left).Holds function? pool →
      (zoneOf n).Holds function? pool' → (zoneOf left).Holds function? pool') :
    duties.Meets
      { left, right := [nonTerminal Place.type, terminal Place.id, nonTerminal n],
        slots := [none, none, some .captureDeclarator] } := by
  intro a s hpool hready
  have hfunction := function_inside hready.function a
  have hzone : (zoneOf left).Holds (a.inside s.own).function? s.pool := hfunction ▸ hready.zone
  refine ⟨hpool, visits_nonTerminal hpool ⟨rfl, hzone.anywhere, trivial⟩
    fun type pool₁ more hpool₁ htype => visits_terminal hpool₁ fun token => ?_⟩
  obtain rfl : pool₁ = s.pool := htype.still (by decide)
  refine acts_of_eq hpool rfl ⟨⟨rfl, hdown _ _ hzone, ?_⟩, fun own pool₂ more' hpool₂ hdone => ?_⟩
  · exact hhanded _ _ ⟨⟨token.text, rfl⟩, token, mem_snoc _ token, rfl⟩ (htype.typed rfl)
  · exact ⟨hpool₂, finished_of_not_still hstill (hfunction ▸ hup _ _ _ hzone hdone.zone)⟩

/-- What was handed to a definition is handed on. -/
theorem meets_inherited {n : Nat}
    (hhanded : ∀ a s, Named s.seen s.own → (∃ ty, s.own.ty = some ty) → Handed n a s)
    (hdown : ∀ pool, (zoneOf n).Holds none pool) :
    duties.Meets
      { left := Place.defineType, right := [nonTerminal n], slots := [some .inherit] } := by
  intro a s hpool hready
  have hfunction : (a.inside s.own).function? = none :=
    (function_inside hready.function a).trans hready.zone
  obtain ⟨hnamed, hty⟩ := hready.handed
  refine ⟨hpool, acts_of_eq hpool rfl ⟨⟨rfl, ?_, ?_⟩, fun own pool₁ more hpool₁ _ => ?_⟩⟩
  · exact hfunction ▸ hdown s.pool
  · exact hhanded _ _ ⟨hnamed.id, hnamed.line⟩ hty
  · exact ⟨hpool₁, finished_of_not_still (by decide : ¬ Still Place.defineType) hready.zone⟩

/-- What stands behind a name in the body of a function has the name handed to it. -/
theorem meets_behindName {left n : Nat} (hleft : zoneOf left = .inside) (hn : zoneOf n = .inside)
    (hstill : Still n) (htype : left ≠ Place.type)
    (hhanded : ∀ a s, Named s.seen s.own → Handed n a s) :
    duties.Meets
      { left, right := [terminal Place.id, nonTerminal n], slots := [none, some .passId] } := by
  intro a s hpool hready
  have hfunction := function_inside hready.function a
  have hzone : Zone.inside.Holds a.function? s.pool := hleft ▸ hready.zone
  refine ⟨hpool, visits_terminal hpool fun token => ?_⟩
  refine acts_of_eq hpool rfl ⟨⟨rfl, ?_, ?_⟩, fun own pool₁ more hpool₁ hdone => ?_⟩
  · rw [hn]
    exact hfunction ▸ hzone
  · exact hhanded _ _ ⟨⟨token.text, rfl⟩, token, mem_snoc _ token, rfl⟩
  · obtain rfl : pool₁ = s.pool := hdone.still hstill
    exact ⟨hpool₁, hready.finished htype _ _⟩

/-! ## Declarations -/

/-- The closing action of a declaration, when what its name was handed to is finished. -/
theorem acts_of_declares {a : Around} {s : Point} (hready : Ready Place.varDefineFollow a s)
    {action : Action} {children : List Attributes} {seen : List Token}
    (h : (∀ f, (a.site s.own children s.pool).function? = some f → s.pool.Opened f) →
      Answers seen (action.judge (a.site s.own children s.pool)) fun change =>
        (change.apply s.pool).2.Sound ∧ ∀ f, (a.site s.own children s.pool).function? = some f →
          (change.apply s.pool).2.Opened f) :
    duties.Acts a children (some action) ⟨s.own, s.pool, seen⟩
      (Finished Place.varDefineFollow a s) := by
  rw [function_site hready.function a] at h
  refine acts_of_answers (h hready.zone) fun change ⟨hsound, hopened⟩ => ?_
  exact ⟨hsound, finished_of_not_still (by decide) hopened⟩

theorem meets_scalar : duties.Meets Form.scalar.production := by
  intro a s hpool hready
  obtain ⟨hnamed, ty, hty⟩ := hready.handed
  obtain ⟨name, hid⟩ := hnamed.id
  refine ⟨hpool, visits_terminal hpool fun token => acts_of_declares hready fun hf => ?_⟩
  exact answers_declare (s := a.site s.own [leafAttributes token] s.pool) hpool hid hty
    (lined_append hnamed.line _) hf ⟨by decide, Nat.dvd_refl _⟩ none

theorem meets_array : duties.Meets Form.array.production := by
  intro a s hpool hready
  obtain ⟨hnamed, ty, hty⟩ := hready.handed
  obtain ⟨name, hid⟩ := hnamed.id
  refine ⟨hpool, visits_terminal hpool fun opening => visits_terminal hpool fun number =>
    visits_terminal hpool fun closing => visits_terminal hpool fun last =>
      acts_of_declares hready fun hf => ?_⟩
  refine answers_declareArray (s := a.site s.own (_ :: leafAttributes number :: _) s.pool) hpool hid
    hty ?_ hf rfl
  exact lined_append (lined_append (lined_append (lined_append hnamed.line _) _) _) _

/-- The function is opened for what is below its node. -/
theorem meets_function : duties.Meets Form.function.production := by
  intro a s hpool hready
  obtain ⟨hnamed, ty, hty⟩ := hready.handed
  obtain ⟨name, hid⟩ := hnamed.id
  refine acts_of_answers (answers_openFunction hpool hid hty hnamed.line)
    fun change ⟨hfunction, hsound, hheader⟩ => ⟨hsound, ?_⟩
  have hin : (a.inside change.attrs).function? = some name := by
    rw [Around.inside, hfunction]
    rfl
  refine visits_terminal hsound fun opening => ?_
  refine visits_nonTerminal hsound ⟨rfl, ⟨name, hin, hheader⟩, trivial⟩
    fun params pool₁ more hpool₁ hparams => visits_terminal hpool₁ fun closing => ?_
  obtain ⟨f, hf, hheader₁⟩ := hparams.zone
  refine visits_nonTerminal hpool₁ ⟨rfl, ⟨f, hf, hheader₁.opened⟩, trivial⟩
    fun block pool₂ more' hpool₂ _ => ⟨hpool₂, ?_⟩
  exact finished_of_not_still (by decide : ¬ Still Place.funDefineFollow) hready.zone

theorem meets_parameter : duties.Meets Form.parameter.production := by
  intro a s hpool hready
  have hfunction := function_inside hready.function a
  obtain ⟨f, hf, hheader⟩ := hready.zone
  have hin := hfunction.trans hf
  refine ⟨hpool, visits_nonTerminal hpool ⟨rfl, ?_, trivial⟩
    fun type pool₁ more hpool₁ htype => visits_terminal hpool₁ fun token => ?_⟩
  · exact hfunction ▸ hready.zone.anywhere
  obtain rfl : pool₁ = s.pool := htype.still (by decide)
  obtain ⟨ty, hty⟩ := htype.typed rfl
  refine visits_nonTerminal hpool ⟨rfl, ⟨f, hin, hheader⟩, trivial⟩
    fun subscript pool₂ more' hpool₂ hsubscript => ?_
  obtain rfl : pool₂ = s.pool := hsubscript.still (by decide)
  refine acts_of_answers (answers_declareParam (s := a.site s.own _ s.pool) hpool
    ((function_site hready.function a _ _).trans hf) hheader
    (List.mem_append_left more' (mem_snoc _ token)) rfl hty rfl rfl)
    fun change ⟨hsound, hheader'⟩ => ?_
  exact ⟨hsound, finished_of_not_still (by decide) ⟨f, hf, hheader'⟩⟩

/-! ## Statements and expressions -/

theorem exists_calledFunction {pool : Pool} (hpool : pool.Sound) {f : String}
    (hf : pool.Opened f) : ∃ entry, calledFunction? pool f = some entry := by
  obtain ⟨i, scope, hopens⟩ := hf
  obtain ⟨returns, hentry⟩ := hpool.function?_eq hopens
  rw [calledFunction?, hentry]
  exact ⟨_, rfl⟩

/-- A `return` finds its keyword and the function around it. -/
theorem Ready.exists_return {a : Around} {s : Point} (hready : Ready Place.returnFollow a s)
    (hpool : s.pool.Sound) : ∃ keyword function entry,
      (a.site s.own [] s.pool).sibling? 1 = some keyword ∧ Lined s.seen keyword.line ∧
      (a.site s.own [] s.pool).function? = some function ∧
      calledFunction? s.pool function = some entry := by
  obtain ⟨parent, keyword, before, hparent, hbefore, hline⟩ := hready.handed
  obtain ⟨f, hf, hopened⟩ := hready.zone
  obtain ⟨entry, hentry⟩ := exists_calledFunction hpool hopened
  refine ⟨keyword, f, entry, ?_, hline, (function_site hready.function a ..).trans hf, hentry⟩
  rw [Around.site, hparent, hbefore]
  rfl

theorem Named.answers_resolve {s : Point} (h : Named s.seen s.own) (a : Around) :
    Answers s.seen (Action.resolveVariable.judge (a.site s.own [] s.pool))
      (Quiet (a.site s.own [] s.pool)) := by
  obtain ⟨⟨name, hid⟩, hline⟩ := h
  exact answers_resolveVariable (s := a.site s.own [] s.pool) hid hline

theorem meets_giveBack : duties.Meets Form.giveBack.production := by
  intro a s hpool hready
  have hfunction := function_inside hready.function a
  refine ⟨hpool, visits_terminal hpool fun token => visits_nonTerminal hpool ⟨rfl, ?_, ?_⟩
    fun own pool₁ more hpool₁ hdone => ⟨hpool₁, ?_⟩⟩
  · exact hfunction ▸ hready.zone
  · exact ⟨s.own, leafAttributes token, [], rfl, rfl, token, mem_snoc _ token, rfl⟩
  · obtain rfl : pool₁ = s.pool := hdone.still (by decide)
    exact hready.finished (by decide) _ _

/-- The pool stays as it is between the check that the function is there and the one of the number
of arguments. -/
theorem meets_call : duties.Meets Form.call.production := by
  intro a s hpool hready
  obtain ⟨⟨name, hid⟩, hline⟩ := hready.handed
  refine acts_of_answers (answers_resolveCall hid hline) ?_
  rintro _ ⟨returns, params, hentry, rfl⟩
  have hfunction : (a.inside { s.own with ty := some returns }).function? = a.function? :=
    function_inside hready.function a
  refine ⟨hpool, visits_terminal hpool fun opening => visits_nonTerminal hpool
    ⟨rfl, hfunction ▸ hready.zone, trivial⟩ fun args pool₁ more hpool₁ hdone =>
      visits_terminal hpool₁ fun closing => ?_⟩
  obtain rfl : pool₁ = s.pool := hdone.still (by decide)
  refine acts_of_quiet hpool (answers_checkCall (s := a.site _ _ s.pool) hid ?_ rfl hentry)
    fun own _ => hready.finished (by decide) own _
  exact lined_append (lined_append (lined_append hline _) _) _

/-- A name is handed on to a call. -/
theorem visits_call {u : List Sign} {slots : List (Option Action)} {a : Around} {own : Attributes}
    {pool : Pool} {seen : List Token} {next : List Attributes → Pool → List Token → Prop}
    (hpool : pool.Sound) (hnamed : Named seen own) (hown : own.function = none)
    (hzone : Zone.inside.Holds a.function? pool)
    (h : ∀ call more, duties.Visits u slots ((a.inside own).past call) pool (seen ++ more)
      fun later => next (call :: later)) :
    duties.Visits (nonTerminal Place.callFollow :: u) (some .inherit :: slots) (a.inside own) pool
      seen next := by
  have hfunction := function_inside hown a
  refine acts_of_eq hpool rfl ⟨⟨rfl, hfunction ▸ hzone, hnamed.id, hnamed.line⟩,
    fun call pool₁ more _ hdone => ?_⟩
  obtain rfl : pool₁ = pool := hdone.still (by decide)
  exact h call more

theorem meets_invoke : duties.Meets Form.invoke.production := by
  intro a s hpool hready
  exact ⟨hpool, visits_call hpool hready.handed hready.function hready.zone fun call more =>
    visits_terminal hpool fun token => ⟨hpool, hready.finished (by decide) _ _⟩⟩

theorem meets_callFactor : duties.Meets Form.callFactor.production := by
  intro a s hpool hready
  obtain ⟨⟨name, hid⟩, hline⟩ := hready.handed
  refine ⟨hpool, visits_call hpool hready.handed hready.function hready.zone fun call more => ?_⟩
  exact acts_of_quiet hpool (answers_requireValue (s := a.site s.own [call] s.pool) hid
    (lined_append hline more) rfl) fun own _ => hready.finished (by decide) own _

/-! ## All productions -/

theorem meets_operator {left place : Nat} (hleft : left ≠ Place.type) :
    duties.Meets { left, right := [terminal place], closing := some .operator } := by
  refine meets_closing (by simp [Plain]) rfl hleft rfl rfl fun a own pool seen children hfit => ?_
  obtain ⟨token, -, rfl⟩ := hfit.terminal
  exact answers_operator (s := a.site own [leafAttributes token] pool) rfl

theorem meets_duties (f : Form) : duties.Meets f.production := by
  cases f with
  | define =>
    exact meets_declarator (by decide) (fun _ _ hnamed hty => ⟨hnamed, hty⟩) (fun _ _ h => h)
      fun _ _ _ h _ => h
  | localVariable =>
    refine meets_declarator (by decide) (fun _ _ hnamed hty => ⟨hnamed, hty⟩)
      (fun _ _ h => h.anywhere) ?_
    rintro function? pool pool' ⟨f, hf, -⟩ h
    exact ⟨f, hf, h f hf⟩
  | variableDefine =>
    refine meets_inherited (fun _ _ hnamed hty => ⟨hnamed, hty⟩) ?_
    rintro pool f ⟨⟩
  | functionDefine => exact meets_inherited (fun _ _ hnamed hty => ⟨hnamed, hty⟩) fun _ => rfl
  | scalar => exact meets_scalar
  | array => exact meets_array
  | type ty => exact meets_type ty
  | function => exact meets_function
  | parameter => exact meets_parameter
  | named => exact meets_behindName rfl rfl (by decide) (by decide) fun _ _ h => h
  | name => exact meets_behindName rfl rfl (by decide) (by decide) fun _ _ h => h
  | invoke => exact meets_invoke
  | call => exact meets_call
  | callFactor => exact meets_callFactor
  | giveBack => exact meets_giveBack
  | leave =>
    refine meets_opening (by decide) rfl (by decide) rfl rfl fun a s hpool hready => ?_
    obtain ⟨keyword, function, entry, hkeyword, hline, hf, hentry⟩ := hready.exists_return hpool
    exact answers_returnNothing hkeyword hline hf hentry
  | value =>
    refine meets_opening (by decide) rfl (by decide) rfl rfl fun a s hpool hready => ?_
    obtain ⟨keyword, function, entry, hkeyword, hline, hf, hentry⟩ := hready.exists_return hpool
    exact answers_returnValue hkeyword hline hf hentry
  | assign =>
    exact meets_opening (by decide) rfl (by decide) rfl rfl fun a _ _ hready =>
      hready.handed.answers_resolve a
  | element =>
    exact meets_opening (by decide) rfl (by decide) rfl rfl fun a _ _ hready =>
      hready.handed.answers_resolve a
  | var =>
    exact meets_opening (by decide) rfl (by decide) rfl rfl fun a _ _ hready =>
      hready.handed.answers_resolve a
  | subscript =>
    exact meets_closing (by decide) rfl (by decide) rfl rfl fun _ _ _ _ _ _ => ⟨rfl, rfl⟩
  | noSubscript =>
    exact meets_closing (by decide) rfl (by decide) rfl rfl fun _ _ _ _ _ _ => ⟨rfl, rfl⟩
  | noArguments =>
    exact meets_closing (by decide) rfl (by decide) rfl rfl fun _ _ _ _ _ _ => ⟨rfl, rfl⟩
  | lastArgument =>
    exact meets_closing (by decide) rfl (by decide) rfl rfl fun _ _ _ _ _ _ => ⟨rfl, rfl⟩
  | someArguments =>
    refine meets_closing (by decide) rfl (by decide) rfl rfl fun a own pool _ children hfit => ?_
    obtain ⟨child, hchild⟩ := hfit.exists_child (i := 0) (by decide)
    exact answers_argsFrom (s := a.site own children pool) hchild
  | argumentList =>
    refine meets_closing (by decide) rfl (by decide) rfl rfl fun a own pool _ children hfit => ?_
    obtain ⟨child, hchild⟩ := hfit.exists_child (i := 1) (by decide)
    exact answers_argsPrepend (s := a.site own children pool) hchild
  | moreArguments =>
    refine meets_closing (by decide) rfl (by decide) rfl rfl fun a own pool _ children hfit => ?_
    obtain ⟨child, hchild⟩ := hfit.exists_child (i := 2) (by decide)
    exact answers_argsPrepend (s := a.site own children pool) hchild
  | number =>
    refine meets_closing (by decide) rfl (by decide) rfl rfl fun a own pool _ children hfit => ?_
    obtain ⟨token, htoken, rfl⟩ := hfit.terminal
    exact answers_literalValue (s := a.site own [leafAttributes token] pool) htoken rfl
  | relOp op => exact meets_operator (by decide)
  | addOp op => exact meets_operator (by decide)
  | mulOp op => exact meets_operator (by decide)
  | program | moreDefinitions | noDefinitions | someParameters | noParameters | parameterList
  | moreParameters | lastParameter | block | moreLocals | noLocals | moreCode | noCode | normal
  | selection | iteration | returning | skip | choose | otherwise | noElse | loop | loopBlock
  | loopOne | index | noIndex | expression | compare | noComparison | sum | add | sumEnd | term
  | multiply | termEnd | group => exact meets_bare (by decide) rfl (by decide) rfl rfl

end PredictiveParsing.Cminus
