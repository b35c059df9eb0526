-- SUMMARY: The language of programs, and that parsing accepts exactly it.
import Abacus.Proofs.Climbing
import Abacus.Proofs.Programs

/-!
# The language of programs

    program    ::= (';' | item)*
    item       ::= 'def' prototype expression | 'extern' prototype | expression
    prototype  ::= ident '(' ident* ')'
    expression ::= primary (op primary)*
    primary    ::= number | ident | ident '(' arguments? ')' | '(' expression ')'
    arguments  ::= expression (',' expression)*

Items stand next to each other without a mark between them, so this grammar is
ambiguous: `f (1)` is a call, or a variable and a group. Parsing always takes
the longer reading and never goes back on it. Nothing is lost by that. The only
place where an item can swallow the start of the next one is an identifier
before a group; the group then becomes the argument list of a call, and what
stood behind the group continues that call.
-/

namespace Abacus

open ExprReader Program

inductive Category where
  | program
  | item
  | expression
  | primary
  | arguments

/-- The grammar above, as the sequences of tokens that each of its names stands
    for. The parameters of a prototype are distinct. -/
inductive Phrase : Category → List Token → Prop where
  | empty : Phrase .program []
  | separator {ts : List Token} (h : Phrase .program ts) : Phrase .program (.char ';' :: ts)
  | cons {ts us : List Token} (h : Phrase .item ts) (hs : Phrase .program us) :
      Phrase .program (ts ++ us)
  | definition {proto : Prototype} {ts : List Token} (hparams : proto.params.Nodup)
      (h : Phrase .expression ts) : Phrase .item (.keyword .define :: (proto.tokens ++ ts))
  | external {proto : Prototype} (hparams : proto.params.Nodup) :
      Phrase .item (.keyword .declare :: proto.tokens)
  | bare {ts : List Token} (h : Phrase .expression ts) : Phrase .item ts
  | single {ts : List Token} (h : Phrase .primary ts) : Phrase .expression ts
  | chain {ts us : List Token} {c : Char} (h : Phrase .primary ts) (hc : c ∈ ['<', '+', '-', '*'])
      (hs : Phrase .expression us) : Phrase .expression (ts ++ .char c :: us)
  | number (x : Float) : Phrase .primary [.number x]
  | var (x : String) : Phrase .primary [.ident x]
  | callNone (callee : String) : Phrase .primary [.ident callee, .char '(', .char ')']
  | call (callee : String) {ts : List Token} (h : Phrase .arguments ts) :
      Phrase .primary (.ident callee :: .char '(' :: (ts ++ [.char ')']))
  | group {ts : List Token} (h : Phrase .expression ts) :
      Phrase .primary (.char '(' :: (ts ++ [.char ')']))
  | last {ts : List Token} (h : Phrase .expression ts) : Phrase .arguments ts
  | more {ts us : List Token} (h : Phrase .expression ts) (hs : Phrase .arguments us) :
      Phrase .arguments (ts ++ .char ',' :: us)

/-- The operators of the standard table. -/
theorem operator?_standard {c : Char} :
    (∃ p, operator? .standard c = some p) ↔ c ∈ ['<', '+', '-', '*'] := by
  constructor
  · intro h
    simp only [operator?_eq_some, PrecedenceTable.standard, PrecedenceTable.get?_install,
      PrecedenceTable.get?_empty] at h
    grind
  · intro h
    simp only [List.mem_cons, List.not_mem_nil, or_false] at h
    rcases h with rfl | rfl | rfl | rfl
    · exact ⟨10, rfl⟩
    · exact ⟨20, rfl⟩
    · exact ⟨30, rfl⟩
    · exact ⟨40, rfl⟩

/-! ## What is read is in the language -/

/-- What the tokens of a part of an expression are. -/
def Form.Spelled : Form → List Token → Prop
  | .primary _, ts => Phrase .primary ts
  | .segments _, ts => ∀ us, Phrase .primary us → Phrase .expression (us ++ ts)
  | .expression _, ts => Phrase .expression ts
  | .arguments _, ts => ∃ us, ts = us ++ [.char ')'] ∧ Phrase .arguments us

theorem Derives.spelled {form : Form} {source rest : List Token}
    (h : Derives .standard form source rest) : ∃ ts, source = ts ++ rest ∧ form.Spelled ts := by
  induction h with
  | number x rest => exact ⟨[.number x], rfl, .number x⟩
  | @var x rest hnext => exact ⟨[.ident x], rfl, .var x⟩
  | group h ih =>
    obtain ⟨ts, rfl, hts⟩ := ih
    exact ⟨_, by simp, .group hts⟩
  | callNone callee rest => exact ⟨_, rfl, .callNone callee⟩
  | call callee h ih =>
    obtain ⟨_, rfl, ts, rfl, hts⟩ := ih
    exact ⟨_, rfl, .call callee hts⟩
  | done rest =>
    refine ⟨[], rfl, fun us hus => ?_⟩
    rw [List.append_nil]
    exact .single hus
  | @segment c _ _ _ _ _ _ hop hoperand hss iho ihs =>
    obtain ⟨ts, rfl, hts⟩ := iho
    obtain ⟨us, rfl, hus⟩ := ihs
    refine ⟨.char c :: (ts ++ us), by simp, fun vs hvs => ?_⟩
    exact .chain hvs (operator?_standard.mp ⟨_, hop⟩) (hus ts hts)
  | chain hfirst hss hstops ihf ihs =>
    obtain ⟨ts, rfl, hts⟩ := ihf
    obtain ⟨us, rfl, hus⟩ := ihs
    exact ⟨ts ++ us, by simp, hus ts hts⟩
  | last h ih =>
    obtain ⟨ts, rfl, hts⟩ := ih
    exact ⟨ts ++ [.char ')'], by simp, ts, rfl, .last hts⟩
  | more h hargs ih ihs =>
    obtain ⟨ts, rfl, hts⟩ := ih
    obtain ⟨_, rfl, us, rfl, hus⟩ := ihs
    exact ⟨ts ++ .char ',' :: us ++ [.char ')'], by simp, _, rfl, .more hts hus⟩

theorem Item.Derives.spelled {item : Item} {source rest : List Token}
    (h : Item.Derives .standard item source rest) :
    ∃ ts, source = ts ++ rest ∧ Phrase .item ts := by
  cases h with
  | definition hparams hbody =>
    obtain ⟨ts, rfl, hts⟩ := hbody.spelled
    exact ⟨_, by simp, .definition hparams hts⟩
  | external rest hparams => exact ⟨_, rfl, .external hparams⟩
  | expression h =>
    obtain ⟨ts, rfl, hts⟩ := h.spelled
    exact ⟨ts, rfl, .bare hts⟩

theorem Program.Sentence.phrase {ts : List Token} (h : Sentence .standard ts) :
    Phrase .program ts := by
  induction h with
  | done => exact .empty
  | separator _ ih => exact .separator ih
  | item hitem _ ih =>
    obtain ⟨ts, rfl, hts⟩ := hitem.spelled
    exact .cons hts ih

/-! ## What is in the language is read -/

/-- An identifier at the end of the tokens `ts` is no callee. -/
def Clear (ts rest : List Token) : Prop :=
  ∀ x, ts.getLast? = some (.ident x) → rest.head? ≠ some (.char '(')

theorem clear_of_head {c : Char} (hc : c ≠ '(') (ts rest : List Token) :
    Clear ts (.char c :: rest) := by
  intro x _ hhead
  cases hhead
  exact hc rfl

/-- A primary that ends with an identifier is that identifier. -/
theorem Phrase.eq_of_getLast? {ts : List Token} {x : String} (h : Phrase .primary ts)
    (hlast : ts.getLast? = some (.ident x)) : ts = [.ident x] := by
  cases h with
  | number y => cases hlast
  | var y =>
    cases hlast
    rfl
  | callNone callee => cases hlast
  | @call callee ts h =>
    have hclose := List.getLast?_concat (l := .ident callee :: .char '(' :: ts) (a := .char ')')
    cases hclose.symm.trans hlast
  | @group ts h =>
    have hclose := List.getLast?_concat (l := .char '(' :: ts) (a := .char ')')
    cases hclose.symm.trans hlast

/-- No operator stands where an item starts. -/
theorem Program.Sentence.stops {ts : List Token} (h : Sentence .standard ts) :
    Stops .standard ts := by
  intro c hc
  cases h with
  | done => cases hc
  | separator h =>
    cases hc
    rfl
  | item hitem h =>
    obtain ⟨t, ts, s, rfl, habsorb⟩ := hitem.exists_first
    cases hc
    cases ItemReader.eq_of_absorb?_char habsorb
    rfl

/-- A sentence that starts with a parenthesis starts with a group, and the rest of
    a chain. -/
theorem Program.Sentence.group {ts : List Token} (h : Sentence .standard (.char '(' :: ts)) :
    ∃ e mid ss rest, Derives .standard (.expression e) ts (.char ')' :: mid) ∧
      Derives .standard (.segments ss) mid rest ∧ Sentence .standard rest := by
  cases h with
  | item hitem h =>
    cases hitem with
    | expression hbody =>
      cases hbody with
      | chain hfirst hss hstops =>
        cases hfirst with
        | group hgroup => exact ⟨_, _, _, _, hgroup, hss, h⟩

/-- What being a phrase means for reading. -/
def Category.Completes : Category → List Token → Prop
  | .program, ts => Sentence .standard ts
  | .item, ts => ∀ rest, Sentence .standard rest → Sentence .standard (ts ++ rest)
  | .expression, ts =>
    (∀ rest, Clear ts rest → Stops .standard rest →
      ∃ e, Derives .standard (.expression e) (ts ++ rest) rest) ∧
    (∀ rest, Sentence .standard rest →
      ∃ e rest', Derives .standard (.expression e) (ts ++ rest) rest' ∧ Sentence .standard rest')
  | .primary, ts =>
    ∀ rest, Clear ts rest → ∃ e, Derives .standard (.primary e) (ts ++ rest) rest
  | .arguments, ts =>
    ∀ rest, ∃ args, Derives .standard (.arguments args) (ts ++ .char ')' :: rest) rest

theorem stops_of_punctuation {c : Char} (hc : c ∈ [')', ',']) (rest : List Token) :
    Stops .standard (.char c :: rest) := by
  intro c' hhead
  cases hhead
  simp only [List.mem_cons, List.not_mem_nil, or_false] at hc
  rcases hc with rfl | rfl <;> rfl

/-- An operand and an operator before an expression make a longer one. -/
theorem Derives.extend {operand e : Expr} {c : Char} {us ts rest : List Token}
    (hc : c ∈ ['<', '+', '-', '*'])
    (hoperand : Derives .standard (.primary operand) us (.char c :: ts))
    (h : Derives .standard (.expression e) ts rest) :
    ∃ e', Derives .standard (.expression e') us rest := by
  obtain ⟨p, hop⟩ := operator?_standard.mpr hc
  cases h with
  | chain hfirst hss hstops => exact ⟨_, .chain hoperand (.segment hop hfirst hss) hstops⟩

/-- A primary on its own is an expression. Where it is an identifier and the next item
    starts with a group, the two are read as one call. -/
theorem completes_single {ts : List Token} (h : Phrase .primary ts)
    (hprimary : Category.primary.Completes ts) : Category.expression.Completes ts := by
  have hclear (rest : List Token) (hclear : Clear ts rest) (hstops : Stops .standard rest) :
      ∃ e, Derives .standard (.expression e) (ts ++ rest) rest := by
    obtain ⟨e, he⟩ := hprimary rest hclear
    exact ⟨_, .chain he (.done rest) hstops⟩
  refine ⟨hclear, ?_⟩
  intro rest hrest
  by_cases hcall : Clear ts rest
  · obtain ⟨e, he⟩ := hclear rest hcall hrest.stops
    exact ⟨e, rest, he, hrest⟩
  · obtain ⟨x, hx⟩ := Classical.not_forall.mp hcall
    obtain ⟨hlast, hopen⟩ := Classical.not_imp.mp hx
    cases h.eq_of_getLast? hlast
    cases rest with
    | nil => exact absurd nofun hopen
    | cons t rest =>
      cases Option.some.inj (Classical.not_not.mp hopen)
      obtain ⟨e, mid, ss, rest', he, hss, hrest'⟩ := hrest.group
      exact ⟨_, rest', .chain (.call x (.last he)) hss hrest'.stops, hrest'⟩

/-- An operand before an operator never meets the next item. -/
theorem completes_chain {us vs : List Token} {c : Char} (hc : c ∈ ['<', '+', '-', '*'])
    (hprimary : Category.primary.Completes us) (hexpression : Category.expression.Completes vs) :
    Category.expression.Completes (us ++ .char c :: vs) := by
  have hopen : c ≠ '(' := by
    intro hopen
    subst hopen
    exact absurd hc (by decide)
  have hextend {e : Expr} {rest rest' : List Token}
      (h : Derives .standard (.expression e) (vs ++ rest) rest') :
      ∃ e', Derives .standard (.expression e') (us ++ .char c :: vs ++ rest) rest' := by
    obtain ⟨operand, hoperand⟩ := hprimary _ (clear_of_head hopen us (vs ++ rest))
    rw [List.append_assoc]
    exact Derives.extend hc hoperand h
  constructor
  · intro rest hclear hstops
    have hclear : Clear vs rest := by
      intro x hlast
      apply hclear x
      rw [List.getLast?_append, List.getLast?_cons, hlast]
      rfl
    obtain ⟨e, he⟩ := hexpression.1 rest hclear hstops
    exact hextend he
  · intro rest hrest
    obtain ⟨e, rest', he, hrest'⟩ := hexpression.2 rest hrest
    obtain ⟨e', he'⟩ := hextend he
    exact ⟨e', rest', he', hrest'⟩

theorem Phrase.completes {category : Category} {ts : List Token} (h : Phrase category ts) :
    category.Completes ts := by
  induction h with
  | empty => exact .done
  | separator _ ih => exact .separator ih
  | cons _ _ ih ihs => exact ih _ ihs
  | definition hparams _ ih =>
    intro rest hrest
    obtain ⟨e, rest', he, hrest'⟩ := ih.2 rest hrest
    have hitem := Item.Derives.definition hparams he
    rw [List.cons_append, List.append_assoc]
    exact .item hitem hrest'
  | external hparams =>
    intro rest hrest
    exact .item (.external rest hparams) hrest
  | bare _ ih =>
    intro rest hrest
    obtain ⟨e, rest', he, hrest'⟩ := ih.2 rest hrest
    exact .item (.expression he) hrest'
  | single h ih => exact completes_single h ih
  | chain _ hc _ ih ihs => exact completes_chain hc ih ihs
  | number x =>
    intro rest _
    exact ⟨_, .number x rest⟩
  | var x =>
    intro rest hclear
    exact ⟨_, .var x (hclear x rfl)⟩
  | callNone callee =>
    intro rest _
    exact ⟨_, .callNone callee rest⟩
  | call callee _ ih =>
    intro rest _
    obtain ⟨args, hargs⟩ := ih rest
    exact ⟨_, by simpa using .call callee hargs⟩
  | @group ts _ ih =>
    intro rest _
    obtain ⟨e, he⟩ := ih.1 (.char ')' :: rest) (clear_of_head (by decide) ts rest)
      (stops_of_punctuation (by decide) rest)
    exact ⟨_, by simpa using .group he⟩
  | @last ts _ ih =>
    intro rest
    obtain ⟨e, he⟩ := ih.1 (.char ')' :: rest) (clear_of_head (by decide) ts rest)
      (stops_of_punctuation (by decide) rest)
    exact ⟨_, .last he⟩
  | @more ts us _ _ ih ihs =>
    intro rest
    obtain ⟨args, hargs⟩ := ihs rest
    obtain ⟨e, he⟩ := ih.1 (.char ',' :: (us ++ .char ')' :: rest))
      (clear_of_head (by decide) ts _) (stops_of_punctuation (by decide) _)
    rw [List.append_assoc]
    exact ⟨_, .more he hargs⟩

/-- The tokens of a sentence are those that the grammar allows. -/
theorem sentence_iff_phrase {ts : List Token} : Sentence .standard ts ↔ Phrase .program ts :=
  ⟨Sentence.phrase, Phrase.completes⟩

/-- Parsing accepts the texts whose tokens are a program, and no others. The items
    it finds are the cut of the text in which an identifier before a parenthesis
    is a callee and every expression goes as far as it can. -/
theorem Program.parse_accepts_language (text : String) :
    (∀ is, parse text = .ok is ↔ Cuts .standard is (lexemes text)) ∧
      ((∃ is, parse text = .ok is) ↔ Phrase .program (tokens (lexemes text))) := by
  refine ⟨fun is => items_eq_ok_iff, ?_⟩
  rw [← sentence_iff_phrase]
  exact exists_items_iff

end Abacus
