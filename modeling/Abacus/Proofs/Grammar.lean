-- SUMMARY: The grammar of expressions, and that the reader reads exactly it.
import Abacus.Proofs.Chains
import Abacus.Read.Stream

/-!
# The grammar of expressions

`Derives table form ts rest` says that a part of an expression stands at the
front of the tokens `ts` and that `rest` comes after it. An expression is a chain
that goes as far as it can: the token after it is no operator.

The reader agrees with the grammar in both directions. A derivation drives the
machine from token to token (`Derives.reads`). In the other direction, every
state the machine reaches says which derivations are complete and which are
still open (`Holds`), and this is kept by each token it absorbs (`Holds.step`).
-/

namespace Abacus

open ExprReader Chain

/-- The parts of an expression. -/
inductive Form where
  | primary (e : Expr)
  | segments (ss : List Segment)
  | expression (e : Expr)
  /-- The arguments of a call up to its closing parenthesis, at least one. -/
  | arguments (args : List Expr)

/-- The next token, if there is one, is not an operator. -/
def Stops (table : PrecedenceTable) (ts : List Token) : Prop :=
  ∀ c, ts.head? = some (.char c) → operator? table c = none

inductive Derives (table : PrecedenceTable) : Form → List Token → List Token → Prop where
  | number (x : Float) (rest : List Token) :
      Derives table (.primary (.number x)) (.number x :: rest) rest
  | var (x : String) {rest : List Token} (hnext : rest.head? ≠ some (.char '(')) :
      Derives table (.primary (.var x)) (.ident x :: rest) rest
  | group {e : Expr} {ts rest : List Token}
      (h : Derives table (.expression e) ts (.char ')' :: rest)) :
      Derives table (.primary e) (.char '(' :: ts) rest
  | callNone (callee : String) (rest : List Token) :
      Derives table (.primary (.call callee []))
        (.ident callee :: .char '(' :: .char ')' :: rest) rest
  | call (callee : String) {args : List Expr} {ts rest : List Token}
      (h : Derives table (.arguments args) ts rest) :
      Derives table (.primary (.call callee args)) (.ident callee :: .char '(' :: ts) rest
  | done (rest : List Token) : Derives table (.segments []) rest rest
  | segment {c : Char} {p : Int} {operand : Expr} {ss : List Segment} {ts mid rest : List Token}
      (hop : operator? table c = some p)
      (hoperand : Derives table (.primary operand) ts mid)
      (hss : Derives table (.segments ss) mid rest) :
      Derives table (.segments (⟨c, p, operand⟩ :: ss)) (.char c :: ts) rest
  | chain {first : Expr} {ss : List Segment} {ts mid rest : List Token}
      (hfirst : Derives table (.primary first) ts mid)
      (hss : Derives table (.segments ss) mid rest)
      (hstops : Stops table rest) :
      Derives table (.expression (build first ss)) ts rest
  | last {e : Expr} {ts rest : List Token}
      (h : Derives table (.expression e) ts (.char ')' :: rest)) :
      Derives table (.arguments [e]) ts rest
  | more {e : Expr} {args : List Expr} {ts mid rest : List Token}
      (h : Derives table (.expression e) ts (.char ',' :: mid))
      (hargs : Derives table (.arguments args) mid rest) :
      Derives table (.arguments (e :: args)) ts rest

variable {table : PrecedenceTable}

theorem Derives.stops {e : Expr} {ts rest : List Token}
    (h : Derives table (.expression e) ts rest) : Stops table rest := by
  cases h with
  | chain _ _ hstops => exact hstops

theorem Derives.expression_iff {e : Expr} {ts rest : List Token} :
    Derives table (.expression e) ts rest ↔
      ∃ first mid ss, Derives table (.primary first) ts mid ∧
        Derives table (.segments ss) mid rest ∧ Stops table rest ∧ e = build first ss := by
  constructor
  · intro h
    cases h with
    | chain hfirst hss hstops => exact ⟨_, _, _, hfirst, hss, hstops, rfl⟩
  · rintro ⟨first, mid, ss, hfirst, hss, hstops, rfl⟩
    exact .chain hfirst hss hstops

/-- The segments of two parts of a chain that stand one behind the other. -/
theorem Derives.segments_append {left right : List Segment} {ts rest : List Token} :
    Derives table (.segments (left ++ right)) ts rest ↔
      ∃ mid, Derives table (.segments left) ts mid ∧ Derives table (.segments right) mid rest := by
  induction left generalizing ts with
  | nil =>
    constructor
    · intro h
      exact ⟨ts, .done ts, h⟩
    · rintro ⟨mid, hleft, hright⟩
      cases hleft with
      | done => exact hright
  | cons s left ih =>
    constructor
    · intro h
      cases h with
      | segment hop hoperand hss =>
        obtain ⟨mid, hleft, hright⟩ := ih.mp hss
        exact ⟨mid, .segment hop hoperand hleft, hright⟩
    · rintro ⟨mid, hleft, hright⟩
      cases hleft with
      | segment hop hoperand hss => exact .segment hop hoperand (ih.mpr ⟨mid, hss, hright⟩)

theorem Derives.length_le {form : Form} {ts rest : List Token}
    (h : Derives table form ts rest) : rest.length ≤ ts.length := by
  induction h <;> grind

/-- A primary has a token of its own. -/
theorem Derives.length_lt {e : Expr} {ts rest : List Token}
    (h : Derives table (.primary e) ts rest) : rest.length < ts.length := by
  cases h with
  | number x => simp
  | var x hnext => simp
  | group h =>
    have hle := h.length_le
    simp only [List.length_cons] at hle ⊢
    omega
  | callNone callee =>
    simp only [List.length_cons]
    omega
  | call callee h =>
    have hle := h.length_le
    simp only [List.length_cons]
    omega

/-! ## Driving the machine -/

/-- The machine goes from one state to another by absorbing the tokens before `rest`. -/
inductive Reads (table : PrecedenceTable) : State → List Token → State → List Token → Prop where
  | refl (s : State) (ts : List Token) : Reads table s ts s ts
  | step {s next final : State} {t : Token} {ts rest : List Token}
      (h : absorb? table s t = some next) (hrest : Reads table next ts final rest) :
      Reads table s (t :: ts) final rest

namespace Reads

variable {s next final : State} {t : Token} {ts mid rest : List Token}

theorem trans (h : Reads table s ts next mid) (hrest : Reads table next mid final rest) :
    Reads table s ts final rest := by
  induction h with
  | refl => exact hrest
  | step hstep _ ih => exact .step hstep (ih hrest)

theorem one (h : absorb? table s t = some next) : Reads table s (t :: rest) next rest :=
  .step h (.refl next rest)

/-- A first argument is read like any other: it does not start with `)`. -/
theorem argument {callee : String} {stack stack' : List Frame} {e : Expr}
    (h : Reads table ⟨.operand, .call callee [] :: stack⟩ ts ⟨.value e, stack'⟩ rest) :
    Reads table ⟨.argument callee, stack⟩ ts ⟨.value e, stack'⟩ rest := by
  cases h with
  | step hstep hrest =>
    rename_i t ts
    refine .step ?_ hrest
    have hne : t ≠ .char ')' := by
      rintro rfl
      simp [absorb?, absorbOperand?] at hstep
    rw [absorb?, if_neg hne]
    exact hstep

end Reads

/-- The state stands behind the operand `e`, with `stack` around it. After an
    identifier this depends on the token that comes next. -/
inductive Ready : State → Expr → List Frame → List Token → Prop where
  | value (e : Expr) (stack : List Frame) (rest : List Token) :
      Ready ⟨.value e, stack⟩ e stack rest
  | name (x : String) (stack : List Frame) {rest : List Token}
      (hnext : rest.head? ≠ some (.char '(')) :
      Ready ⟨.name x, stack⟩ (.var x) stack rest

namespace Ready

variable {s : State} {e : Expr} {stack : List Frame} {c : Char} {ts rest : List Token}

theorem absorb {t : Token} (h : Ready s e stack (t :: rest)) :
    absorb? table s t = absorbValue? table e stack t := by
  cases h with
  | value => rfl
  | name x stack hnext =>
    have hne : t ≠ .char '(' := fun heq => hnext (by rw [heq]; rfl)
    rw [absorb?, if_neg hne]

theorem conclude (h : Ready s e stack rest) : conclude s = concludeValue e stack := by
  cases h <;> rfl

theorem operator {p : Int} (h : Ready s e stack (.char c :: rest))
    (hop : operator? table c = some p) :
    absorb? table s (.char c) = some ⟨.operand, push c p e stack⟩ := by
  rw [h.absorb, absorbValue?, hop]
  rfl

theorem closing (h : Ready s e stack (.char c :: rest)) (hop : operator? table c = none) :
    absorb? table s (.char c) = close? e stack c := by
  rw [h.absorb, absorbValue?, hop]

end Ready

/-- What deriving a part means for the machine. -/
def Drives (table : PrecedenceTable) : Form → List Token → List Token → Prop
  | .primary e, ts, rest =>
    ∀ stack, ∃ s, Reads table ⟨.operand, stack⟩ ts s rest ∧ Ready s e stack rest
  | .segments ss, ts, rest =>
    ∀ s e stack, Ready s e stack ts →
      ∃ s', Reads table s ts s' rest ∧ Ready s' (shift ss e stack).1 (shift ss e stack).2 rest
  | .expression e, ts, rest =>
    ∀ stack, Closed stack →
      ∃ s e' stack', Reads table ⟨.operand, stack⟩ ts s rest ∧ Ready s e' stack' rest ∧
        reduceAll e' stack' = (e, stack)
  | .arguments args, ts, rest =>
    ∀ callee done stack,
      Reads table ⟨.operand, .call callee done :: stack⟩ ts
        ⟨.value (.call callee (done ++ args)), stack⟩ rest

/-- Behind an expression the machine closes what encloses it. -/
theorem Drives.close {e : Expr} {c : Char} {ts rest : List Token} {next : State}
    (h : Drives table (.expression e) ts (.char c :: rest)) (hc : operator? table c = none)
    (stack : List Frame) (hclosed : Closed stack) (hnext : close? e stack c = some next) :
    Reads table ⟨.operand, stack⟩ ts next rest := by
  obtain ⟨s, e', stack', hreads, hready, hreduce⟩ := h stack hclosed
  refine hreads.trans (.one ?_)
  rw [hready.closing hc, ← hnext, close?, close?, hreduce, reduceAll_closed e hclosed]

theorem Derives.drives {form : Form} {ts rest : List Token} (h : Derives table form ts rest) :
    Drives table form ts rest := by
  induction h with
  | number x rest =>
    intro stack
    exact ⟨_, .one rfl, .value (.number x) stack rest⟩
  | var x hnext =>
    intro stack
    exact ⟨_, .one rfl, .name x stack hnext⟩
  | @group e ts rest h ih =>
    intro stack
    have hopen : absorb? table ⟨.operand, stack⟩ (.char '(') = some ⟨.operand, .group :: stack⟩ :=
      rfl
    have hclose := ih.close (h.stops ')' rfl) (.group :: stack) trivial rfl
    exact ⟨_, .step hopen hclose, .value e stack rest⟩
  | callNone callee rest =>
    intro stack
    exact ⟨_, .step rfl (.step rfl (.one rfl)), .value (.call callee []) stack rest⟩
  | @call callee args ts rest h ih =>
    intro stack
    exact ⟨_, .step rfl (.step rfl (ih callee [] stack).argument),
      .value (.call callee args) stack rest⟩
  | done rest =>
    intro s e stack hready
    exact ⟨s, .refl s rest, hready⟩
  | @segment c p operand ss ts mid rest hop hoperand hss iho ihs =>
    intro s e stack hready
    obtain ⟨s₁, hreads₁, hready₁⟩ := iho (push c p e stack)
    obtain ⟨s₂, hreads₂, hready₂⟩ := ihs s₁ operand (push c p e stack) hready₁
    exact ⟨s₂, .step (hready.operator hop) (hreads₁.trans hreads₂), hready₂⟩
  | @chain first ss ts mid rest hfirst hss hstops ihf ihs =>
    intro stack hclosed
    obtain ⟨s₁, hreads₁, hready₁⟩ := ihf stack
    obtain ⟨s₂, hreads₂, hready₂⟩ := ihs s₁ first stack hready₁
    exact ⟨s₂, _, _, hreads₁.trans hreads₂, hready₂, reduceAll_shift first ss hclosed⟩
  | @last e ts rest h ih =>
    intro callee done stack
    exact ih.close (h.stops ')' rfl) (.call callee done :: stack) trivial rfl
  | @more e args ts mid rest h hargs ih ihs =>
    intro callee done stack
    have hcomma := ih.close (h.stops ',' rfl) (.call callee done :: stack) trivial rfl
    have hargs := ihs callee (done ++ [e]) stack
    rw [List.append_assoc] at hargs
    exact hcomma.trans hargs

/-! ## What a state says -/

inductive Place where
  /-- An expression starts. -/
  | expression
  /-- An operand starts. -/
  | operand

/-- The places of the tokens `source` the machine can be at, with what is on the
    stack there and the tokens from there on. -/
inductive Reached (table : PrecedenceTable) (source : List Token) :
    Place → List Frame → List Token → Prop where
  | start : Reached table source .expression [] source
  | first {stack : List Frame} {ts : List Token} (h : Reached table source .expression stack ts) :
      Reached table source .operand stack ts
  | next {stack : List Frame} {ts mid rest : List Token} {first : Expr} {ss : List Segment}
      {c : Char} {p : Int} (h : Reached table source .expression stack ts)
      (hfirst : Derives table (.primary first) ts mid)
      (hss : Derives table (.segments ss) mid (.char c :: rest))
      (hop : operator? table c = some p) :
      Reached table source .operand (push c p (shift ss first stack).1 (shift ss first stack).2) rest
  | group {stack : List Frame} {ts : List Token}
      (h : Reached table source .operand stack (.char '(' :: ts)) :
      Reached table source .expression (.group :: stack) ts
  /-- The arguments `done` go before those that are still to come. -/
  | argument {callee : String} {done : List Expr} {stack : List Frame} {ts mid : List Token}
      (h : Reached table source .operand stack (.ident callee :: .char '(' :: ts))
      (hargs : ∀ args rest, Derives table (.arguments args) mid rest →
        Derives table (.arguments (done ++ args)) ts rest) :
      Reached table source .expression (.call callee done :: stack) mid

/-- The operand `e` was read, and ends a chain. -/
inductive Valued (table : PrecedenceTable) (source : List Token) :
    Expr → List Frame → List Token → Prop where
  | intro {stack : List Frame} {ts mid rest : List Token} {first : Expr} {ss : List Segment}
      (h : Reached table source .expression stack ts)
      (hfirst : Derives table (.primary first) ts mid)
      (hss : Derives table (.segments ss) mid rest) :
      Valued table source (shift ss first stack).1 (shift ss first stack).2 rest

variable {source : List Token}

theorem Reached.closed {stack : List Frame} {ts : List Token}
    (h : Reached table source .expression stack ts) : Closed stack := by
  cases h <;> trivial

/-- Where an operand starts, a primary can be read. -/
theorem Reached.valued {stack : List Frame} {ts rest : List Token} {e : Expr}
    (h : Reached table source .operand stack ts) (he : Derives table (.primary e) ts rest) :
    Valued table source e stack rest := by
  cases h with
  | first h => exact .intro h he (.done rest)
  | @next stack _ _ _ first ss c p h hfirst hss hop =>
    have hss := Derives.segments_append.mpr ⟨_, hss, .segment hop he (.done rest)⟩
    have hvalued := Valued.intro h hfirst hss
    rw [shift_concat] at hvalued
    exact hvalued

namespace Valued

variable {e : Expr} {stack : List Frame} {ts rest : List Token}

theorem operator {c : Char} {p : Int} (h : Valued table source e stack (.char c :: rest))
    (hop : operator? table c = some p) :
    Reached table source .operand (push c p e stack) rest := by
  cases h with
  | intro h hfirst hss => exact .next h hfirst hss hop

/-- Behind an operand that no operator follows, an expression ends. -/
theorem expression (h : Valued table source e stack rest) (hstops : Stops table rest) :
    ∃ ts base e', Reached table source .expression base ts ∧
      Derives table (.expression e') ts rest ∧ reduceAll e stack = (e', base) := by
  cases h with
  | @intro base ts _ _ first ss h hfirst hss =>
    exact ⟨ts, base, build first ss, h, .chain hfirst hss hstops,
      reduceAll_shift first ss h.closed⟩

end Valued

/-- What the machine's state says about the tokens before `rest`. -/
def Holds (table : PrecedenceTable) (source : List Token) : State → List Token → Prop
  | ⟨.operand, stack⟩, rest => Reached table source .operand stack rest
  | ⟨.argument callee, stack⟩, rest =>
    Reached table source .operand stack (.ident callee :: .char '(' :: rest)
  | ⟨.name x, stack⟩, rest => Reached table source .operand stack (.ident x :: rest)
  | ⟨.value e, stack⟩, rest => Valued table source e stack rest

namespace Holds

variable {s next : State} {t : Token} {rest : List Token} {e : Expr} {stack : List Frame}

theorem operand (h : Reached table source .operand stack (t :: rest))
    (hstep : absorbOperand? stack t = some next) : Holds table source next rest := by
  cases t with
  | keyword word => cases hstep
  | ident x =>
    cases hstep
    exact h
  | number x =>
    cases hstep
    exact h.valued (.number x rest)
  | char c =>
    rw [absorbOperand?] at hstep
    split at hstep
    case isTrue hc =>
      cases hstep
      subst hc
      exact .first (.group h)
    case isFalse => cases hstep

theorem close {c : Char} (h : Valued table source e stack (.char c :: rest))
    (hc : operator? table c = none) (hstep : close? e stack c = some next) :
    Holds table source next rest := by
  have hstops : Stops table (.char c :: rest) := by
    intro d hd
    cases hd
    exact hc
  obtain ⟨ts, base, e', hreached, he', hreduce⟩ := h.expression hstops
  rw [close?, hreduce] at hstep
  cases hreached with
  | start => cases hstep
  | group hopen =>
    dsimp only at hstep
    split at hstep
    case isTrue hc =>
      cases hstep
      subst hc
      exact hopen.valued (.group he')
    case isFalse => cases hstep
  | @argument callee done stack ts mid hopen hargs =>
    dsimp only at hstep
    split at hstep
    case isTrue hc =>
      cases hstep
      subst hc
      exact hopen.valued (.call callee (hargs _ _ (.last he')))
    case isFalse =>
      split at hstep
      case isTrue hc =>
        cases hstep
        subst hc
        refine .first (.argument hopen fun args rest hmore => ?_)
        rw [List.append_assoc]
        exact hargs _ _ (.more he' hmore)
      case isFalse => cases hstep

theorem value (h : Valued table source e stack (t :: rest))
    (hstep : absorbValue? table e stack t = some next) : Holds table source next rest := by
  cases t with
  | keyword word => cases hstep
  | ident x => cases hstep
  | number x => cases hstep
  | char c =>
    rw [absorbValue?] at hstep
    cases hop : operator? table c with
    | none =>
      rw [hop] at hstep
      exact close h hop hstep
    | some p =>
      rw [hop] at hstep
      cases hstep
      exact h.operator hop

/-- Every token that is absorbed keeps what the state says true. -/
theorem step (h : Holds table source s (t :: rest)) (hstep : absorb? table s t = some next) :
    Holds table source next rest := by
  obtain ⟨phase, stack⟩ := s
  cases phase with
  | operand => exact operand h hstep
  | argument callee =>
    rw [absorb?] at hstep
    split at hstep
    case isTrue ht =>
      cases hstep
      subst ht
      exact h.valued (.callNone callee rest)
    case isFalse ht =>
      have hopen : Reached table source .expression (.call callee [] :: stack) (t :: rest) :=
        .argument h fun _ _ hargs => hargs
      exact operand (.first hopen) hstep
  | name x =>
    rw [absorb?] at hstep
    split at hstep
    case isTrue ht =>
      cases hstep
      subst ht
      exact h
    case isFalse ht =>
      refine value (h.valued (.var x ?_)) hstep
      simpa using ht
  | value e => exact value h hstep

theorem concludeValue {result : Expr} (h : Valued table source e stack rest)
    (hstop : ∀ t, rest.head? = some t → absorbValue? table e stack t = none)
    (hconclude : concludeValue e stack = .ok result) :
    Derives table (.expression result) source rest := by
  have hstops : Stops table rest := by
    intro c hc
    cases hop : operator? table c with
    | none => rfl
    | some p =>
      have hnone := hstop _ hc
      rw [absorbValue?, hop] at hnone
      cases hnone
  obtain ⟨ts, base, e', hreached, he', hreduce⟩ := h.expression hstops
  rw [ExprReader.concludeValue, hreduce] at hconclude
  cases hreached with
  | start =>
    cases hconclude
    exact he'
  | group => cases hconclude
  | argument => cases hconclude

/-- A machine that is stopped by the next token and has an expression to show
    read one from the source. -/
theorem conclude (h : Holds table source s rest)
    (hstop : ∀ t, rest.head? = some t → absorb? table s t = none)
    (hconclude : conclude s = .ok e) : Derives table (.expression e) source rest := by
  obtain ⟨phase, stack⟩ := s
  cases phase with
  | operand => cases hconclude
  | argument callee => cases hconclude
  | name x =>
    have hnext : rest.head? ≠ some (.char '(') := by
      intro heq
      cases hstop _ heq
    refine concludeValue (h.valued (.var x hnext)) (fun t ht => ?_) hconclude
    have hnone := hstop t ht
    have hne : t ≠ .char '(' := fun heq => hnext (heq ▸ ht)
    rw [absorb?, if_neg hne] at hnone
    exact hnone
  | value e => exact concludeValue h hstop hconclude

end Holds

/-! ## Streams -/

/-- The tokens of lexemes. -/
def tokens (ls : List Lexeme) : List Token :=
  ls.map (·.value)

@[simp] theorem tokens_nil : tokens [] = [] := rfl

@[simp] theorem tokens_cons (l : Lexeme) (ls : List Lexeme) :
    tokens (l :: ls) = l.value :: tokens ls := rfl

@[simp] theorem tokens_append (ls ms : List Lexeme) :
    tokens (ls ++ ms) = tokens ls ++ tokens ms :=
  List.map_append

/-- A whole run keeps what the state says true, and ends where no token is absorbed. -/
theorem Holds.advance {s : State} {ls : List Lexeme} (h : Holds table source s (tokens ls)) :
    Holds table source ((Expr.reader table).advance s ls).state
        (tokens ((Expr.reader table).advance s ls).rest) ∧
      ∀ t, (tokens ((Expr.reader table).advance s ls).rest).head? = some t →
        absorb? table ((Expr.reader table).advance s ls).state t = none := by
  induction ls generalizing s with
  | nil => exact ⟨h, by rintro t ⟨⟩⟩
  | cons l ls ih =>
    rw [Reader.advance]
    cases hstep : (Expr.reader table).absorb? s l.value with
    | none =>
      refine ⟨h, ?_⟩
      rintro t ⟨⟩
      exact hstep
    | some next => exact ih (h.step hstep)

/-- The reader goes at least as far as a run it can make. -/
theorem Reads.advance {s final : State} {ls : List Lexeme} {rest : List Token}
    (h : Reads table s (tokens ls) final rest) :
    ∃ left, tokens left = rest ∧
      ((Expr.reader table).advance s ls).state = ((Expr.reader table).advance final left).state ∧
      ((Expr.reader table).advance s ls).rest = ((Expr.reader table).advance final left).rest := by
  induction ls generalizing s with
  | nil =>
    cases h with
    | refl => exact ⟨[], rfl, rfl, rfl⟩
  | cons l ls ih =>
    cases h with
    | refl => exact ⟨l :: ls, rfl, rfl, rfl⟩
    | step hstep hrest =>
      obtain ⟨left, hleft, hstate, hrest⟩ := ih hrest
      refine ⟨left, hleft, ?_⟩
      have hstep : (Expr.reader table).absorb? s l.value = some _ := hstep
      rw [Reader.advance, hstep]
      exact ⟨hstate, hrest⟩

/-- Behind an expression that no operator follows, the outermost machine stops. -/
theorem Ready.absorb_eq_none {s : State} {e e' : Expr} {stack : List Frame} {t : Token}
    {rest : List Token} (h : Ready s e stack (t :: rest)) (hstops : Stops table (t :: rest))
    (hreduce : reduceAll e stack = (e', [])) : absorb? table s t = none := by
  rw [h.absorb]
  cases t with
  | char c =>
    have hop : operator? table c = none := hstops c rfl
    rw [absorbValue?, hop]
    dsimp only
    rw [close?, hreduce]
  | _ => rfl

theorem Ready.advance {s : State} {e e' : Expr} {stack : List Frame} {ls : List Lexeme}
    (h : Ready s e stack (tokens ls)) (hstops : Stops table (tokens ls))
    (hreduce : reduceAll e stack = (e', [])) :
    (Expr.reader table).advance s ls = ⟨[], s, ls⟩ := by
  cases ls with
  | nil => rfl
  | cons l ls =>
    have hnone : (Expr.reader table).absorb? s l.value = none := h.absorb_eq_none hstops hreduce
    rw [Reader.advance, hnone]

/-- The reader reads the grammar: an expression, and no more. -/
theorem Stream.read_eq_ok_iff (table : PrecedenceTable) (s : Stream) (e : Expr)
    (rest : List Token) :
    (s.read (Expr.reader table) = .ok e ∧ tokens (s.after (Expr.reader table)).pending = rest) ↔
      Derives table (.expression e) (tokens s.pending) rest := by
  constructor
  · rintro ⟨hread, rfl⟩
    have hstart : Holds table (tokens s.pending) start (tokens s.pending) := .first .start
    obtain ⟨hholds, hstop⟩ := hstart.advance
    refine hholds.conclude hstop ?_
    rw [Stream.read] at hread
    cases hc : (Expr.reader table).conclude
        ((Expr.reader table).advance (Expr.reader table).start s.pending).state
        (s.after (Expr.reader table)).peek.value with
    | error cause =>
      rw [hc] at hread
      cases hread
    | ok e' =>
      rw [hc] at hread
      cases hread
      exact hc
  · intro h
    obtain ⟨final, e', stack, hreads, hready, hreduce⟩ := h.drives [] trivial
    obtain ⟨left, rfl, hstate, hrest⟩ := hreads.advance
    rw [hready.advance h.stops hreduce] at hstate hrest
    refine ⟨?_, congrArg tokens hrest⟩
    have hconclude : conclude final = .ok e := by
      rw [hready.conclude, ExprReader.concludeValue, hreduce]
    have hconclude : (Expr.reader table).conclude
        ((Expr.reader table).advance (Expr.reader table).start s.pending).state
        (s.after (Expr.reader table)).peek.value = .ok e := by
      refine Eq.trans ?_ hconclude
      exact congrArg conclude hstate
    rw [Stream.read, hconclude]
    rfl

end Abacus
