-- SUMMARY: A separator ends a statement as the end of the text does.
import Abacus.Proofs.LineBreaks
import Abacus.Read.Program

/-!
# Separators

No construct has a `;` in it, and none asks which token it stopped at but for one that
repeats a parameter. So a `;` completes what was being read exactly as the end of the
text would, with the same item or for the same cause, and what follows starts afresh.
Only where an error stands is different.
-/

namespace Abacus

/-! ## Readers -/

section Readers

open ExprReader (operator?)

variable {table : PrecedenceTable}

theorem ExprReader.absorb?_separator (h : operator? table ';' = none) (state : ExprReader.State) :
    ExprReader.absorb? table state (.char ';') = none := by
  have hvalue (e : Expr) (stack : List Frame) : absorbValue? table e stack (.char ';') = none := by
    simp only [absorbValue?, h, close?]
    split <;> simp
  obtain ⟨phase, stack⟩ := state
  cases phase with
  | operand => simp [ExprReader.absorb?, absorbOperand?]
  | argument callee => simp [ExprReader.absorb?, absorbOperand?]
  | name x => simp [ExprReader.absorb?, hvalue]
  | value e => exact hvalue e stack

theorem PrototypeReader.absorb?_separator (state : PrototypeReader.State) :
    PrototypeReader.absorb? state (.char ';') = none := by
  cases state <;> simp [PrototypeReader.absorb?]

theorem DefinitionReader.absorb?_separator (h : operator? table ';' = none)
    (state : DefinitionReader.State) : DefinitionReader.absorb? table state (.char ';') = none := by
  cases state with
  | start => simp [DefinitionReader.absorb?]
  | heading heading =>
    cases heading with
    | complete proto => simp [DefinitionReader.absorb?, ExprReader.absorb?_separator h]
    | _ => simp [DefinitionReader.absorb?, PrototypeReader.absorb?_separator]
  | body proto state => simp [DefinitionReader.absorb?, ExprReader.absorb?_separator h]

theorem ExternalReader.absorb?_separator (state : ExternalReader.State) :
    ExternalReader.absorb? state (.char ';') = none := by
  cases state <;> simp [ExternalReader.absorb?, PrototypeReader.absorb?_separator]

theorem ItemReader.absorb?_separator (h : operator? table ';' = none) (state : ItemReader.State) :
    ItemReader.absorb? table state (.char ';') = none := by
  cases state with
  | start => simp [ItemReader.absorb?, ExprReader.absorb?_separator h]
  | definition state => simp [ItemReader.absorb?, DefinitionReader.absorb?_separator h]
  | external state => simp [ItemReader.absorb?, ExternalReader.absorb?_separator]
  | expression state => simp [ItemReader.absorb?, ExprReader.absorb?_separator h]

/-- Only a name that is repeated is told from other tokens. -/
theorem PrototypeReader.conclude_separator (state : PrototypeReader.State) :
    PrototypeReader.conclude state (some (.char ';')) = PrototypeReader.conclude state none := by
  cases state <;> rfl

theorem ItemReader.conclude_separator (state : ItemReader.State) :
    ItemReader.conclude state (some (.char ';')) = ItemReader.conclude state none := by
  cases state with
  | start => rfl
  | definition state =>
    cases state <;>
      simp only [ItemReader.conclude, DefinitionReader.conclude, PrototypeReader.conclude_separator]
  | external state =>
    cases state <;>
      simp only [ItemReader.conclude, ExternalReader.conclude, PrototypeReader.conclude_separator]
  | expression state => rfl

end Readers

namespace Program

variable {table : PrecedenceTable}

/-! ## What statements say -/

/-- What a statement says, wherever it stands. -/
def Statement.content : Statement → Except Cause Item
  | .item i => .ok i.value
  | .fault e => .error e.cause

/-- What is left of a draft and of completed statements without their places. -/
def unplaced (p : Option Draft × List Statement) :
    Option ItemReader.State × List (Except Cause Item) :=
  (p.1.map (·.state), p.2.map Statement.content)

/-- What the end of the text makes of a draft does not depend on where that is. -/
theorem content_finish_congr {d₁ d₂ : Option Draft} (h : d₁.map (·.state) = d₂.map (·.state))
    (stop₁ stop₂ : Nat) :
    (finish stop₁ d₁).map Statement.content = (finish stop₂ d₂).map Statement.content := by
  cases d₁ <;> cases d₂ <;>
    simp only [Option.map_some, Option.map_none, reduceCtorEq, Option.some.injEq] at h
  case none.none => rfl
  case some.some d₁ d₂ =>
    simp only [finish, h]
    split <;> rfl

theorem unplaced_enter {l₁ l₂ : Lexeme} (h : l₁.value = l₂.value) :
    unplaced (enter table l₁) = unplaced (enter table l₂) := by
  by_cases hsep : l₂.value = .char ';'
  · simp [enter, Stream.isSeparator, h, hsep, unplaced]
  · cases hstart : ItemReader.absorb? table .start l₂.value <;>
      simp [enter, Stream.isSeparator, h, hsep, hstart, unplaced, Statement.content]

theorem unplaced_step {d₁ d₂ : Option Draft} {l₁ l₂ : Lexeme}
    (h : d₁.map (·.state) = d₂.map (·.state)) (hl : l₁.value = l₂.value) :
    unplaced (step table d₁ l₁) = unplaced (step table d₂ l₂) := by
  have henter : unplaced (enter table l₁) = unplaced (enter table l₂) := unplaced_enter hl
  cases d₁ <;> cases d₂ <;>
    simp only [Option.map_some, Option.map_none, reduceCtorEq, Option.some.injEq] at h
  case none.none => exact henter
  case some.some d₁ d₂ =>
    obtain ⟨hdraft, hcontents⟩ := Prod.mk.inj henter
    simp only [step, h, hl]
    cases ItemReader.absorb? table d₂.state l₂.value with
    | some state => rfl
    | none =>
      cases ItemReader.conclude d₂.state (some l₂.value) with
      | ok item => simp [unplaced, Statement.content, hdraft, hcontents]
      | error cause => rfl

theorem content_statementsFrom_congr {ls₁ ls₂ : List Lexeme} {d₁ d₂ : Option Draft}
    (h : d₁.map (·.state) = d₂.map (·.state)) (hls : tokens ls₁ = tokens ls₂) (stop₁ stop₂ : Nat) :
    (statementsFrom table stop₁ d₁ ls₁).map Statement.content =
      (statementsFrom table stop₂ d₂ ls₂).map Statement.content := by
  induction ls₁ generalizing ls₂ d₁ d₂ with
  | nil =>
    cases ls₂ with
    | nil => exact content_finish_congr h stop₁ stop₂
    | cons l₂ ls₂ => cases hls
  | cons l₁ ls₁ ih =>
    cases ls₂ with
    | nil => cases hls
    | cons l₂ ls₂ =>
      obtain ⟨hl, hls⟩ := List.cons.inj hls
      have hstep : unplaced (step table d₁ l₁) = unplaced (step table d₂ l₂) := unplaced_step h hl
      obtain ⟨hdraft, hcontents⟩ := Prod.mk.inj hstep
      simp only [statementsFrom, List.map_append, hcontents, ih hdraft hls]

/-- What the statements of tokens say. -/
def contents (table : PrecedenceTable) (ts : List Token) : List (Except Cause Item) :=
  (statementsFrom table 0 none (ts.map (⟨·, ⟨0, 0⟩⟩))).map Statement.content

theorem content_statements (text : String) :
    (statements table text).map Statement.content = contents table (tokens (lexemes text)) := by
  apply content_statementsFrom_congr rfl
  simp [tokens]

/-! ## Separators -/

/-- A separator completes what the end of the text would complete. -/
theorem step_separator (h : ExprReader.operator? table ';' = none) (stop : Nat)
    (draft : Option Draft) {l : Lexeme} (hl : l.value = .char ';') :
    (step table draft l).1 = none ∧
    (step table draft l).2.map Statement.content = (finish stop draft).map Statement.content := by
  have henter : enter table l = (none, []) := by simp [enter, Stream.isSeparator, hl]
  cases draft with
  | none => simp [step, henter, finish]
  | some d =>
    simp only [step, finish, hl, ItemReader.absorb?_separator h, ItemReader.conclude_separator,
      henter]
    split <;> exact ⟨rfl, rfl⟩

theorem content_statementsFrom_separated (h : ExprReader.operator? table ';' = none) (stop : Nat)
    (draft : Option Draft) (ls ms : List Lexeme) {l : Lexeme} (hl : l.value = .char ';') :
    (statementsFrom table stop draft (ls ++ l :: ms)).map Statement.content =
      (statementsFrom table stop draft ls).map Statement.content ++
        (statementsFrom table stop none ms).map Statement.content := by
  induction ls generalizing draft with
  | nil =>
    obtain ⟨hdraft, hcontent⟩ := step_separator h stop draft hl
    simp only [List.nil_append, statementsFrom, List.map_append, hdraft, hcontent]
  | cons k ls ih => simp only [List.cons_append, statementsFrom, List.map_append, ih,
      List.append_assoc]

/-- Tokens on both sides of a separator are read on their own. -/
theorem contents_separated (h : ExprReader.operator? table ';' = none) (ts us : List Token) :
    contents table (ts ++ .char ';' :: us) = contents table ts ++ contents table us := by
  simp only [contents, List.map_append, List.map_cons]
  exact content_statementsFrom_separated h 0 none _ _ rfl

/-- Tokens that end with a separator are read on their own, whatever follows. -/
theorem contents_append (h : ExprReader.operator? table ';' = none) {ts : List Token}
    (hts : ts.getLast? = some (.char ';')) (us : List Token) :
    contents table (ts ++ us) = contents table ts ++ contents table us := by
  obtain ⟨init, rfl⟩ := List.getLast?_eq_some_iff.mp hts
  have hnil : contents table [] = [] := rfl
  rw [List.append_assoc, List.singleton_append, contents_separated h, contents_separated h, hnil,
    List.append_nil]

/-- Blocks of tokens are read on their own if all but the last one that has any end with a
    separator. -/
theorem contents_flatten (h : ExprReader.operator? table ';' = none) {tss : List (List Token)}
    (hends : ∀ ts ∈ (tss.filter (· ≠ [])).dropLast, ts.getLast? = some (.char ';')) :
    contents table tss.flatten = tss.flatMap (contents table) := by
  induction tss with
  | nil => rfl
  | cons ts tss ih =>
    rw [List.flatten_cons, List.flatMap_cons]
    by_cases hts : ts = []
    · have hrest := ih (by simpa [hts] using hends)
      rw [hts, List.nil_append, hrest]
      rfl
    · have hfilter : (ts :: tss).filter (· ≠ []) = ts :: tss.filter (· ≠ []) := by simp [hts]
      rw [hfilter] at hends
      by_cases hlast : tss.filter (· ≠ []) = []
      · -- Nothing comes behind `ts`.
        have hnil : ∀ us ∈ tss, us = [] := by simpa using hlast
        have hflatten : tss.flatten = [] := List.flatten_eq_nil_iff.mpr hnil
        have hcontents : tss.flatMap (contents table) = [] := by
          apply List.flatMap_eq_nil_iff.mpr
          intro us hus
          rw [hnil us hus]
          rfl
        rw [hflatten, hcontents, List.append_nil, List.append_nil]
      · rw [List.dropLast_cons_of_ne_nil hlast] at hends
        obtain ⟨hhead, htail⟩ := List.forall_mem_cons.mp hends
        rw [contents_append h hhead, ih htail]

end Program

end Abacus
