-- SUMMARY: Reading the text of an expression gives the expression back.
import Abacus.Expr.Printer
import Abacus.Proofs.Checking
import Abacus.Proofs.Layout
import Abacus.Proofs.Names
import Abacus.Proofs.ReadBack

/-!
# Round trip

The text of an expression has parentheses around every operation. So each operation is
read as a group with one operator in it, and how tightly operators bind never matters.

The parts of the text come apart where they should because of what stands between them:
behind a name or a number comes a blank, a comma, a parenthesis or the end.
-/

namespace Abacus

/-! ## Lexing parts of a text -/

namespace Lexer

/-- The tokens of characters that start a text. -/
def tokensOf (cs : List Char) : List Token :=
  tokens (scan 0 .between cs)

/-- Tokens do not depend on where they stand. -/
theorem tokens_scan (pos : Nat) (cs : List Char) : tokens (scan pos .between cs) = tokensOf cs := by
  have hshift := scan_shift pos 0 .between cs
  rw [Nat.zero_add] at hshift
  exact (congrArg tokens hshift).trans (tokens_shift pos _)

/-- The next character, if there is one, continues neither a word nor a numeral. -/
def Apart (rest : List Char) : Prop :=
  ∀ c, rest.head? = some c → c.isAlphanum = false ∧ Numeral.isPart c = false

/-- The characters spell some tokens, if what follows does not continue them. -/
def Spells (cs : List Char) (ts : List Token) : Prop :=
  ∀ rest, Apart rest → tokensOf (cs ++ rest) = ts ++ tokensOf rest

theorem apart_nil : Apart [] := by
  intro c hc
  cases hc

theorem apart_cons {c : Char} (halpha : c.isAlphanum = false) (hpart : Numeral.isPart c = false)
    (rest : List Char) : Apart (c :: rest) := by
  intro d hd
  cases hd
  exact ⟨halpha, hpart⟩

theorem tokensOf_spelled {t : Token} {cs rest : List Char} (h : Spelled t cs rest) :
    tokensOf (cs ++ rest) = t :: tokensOf rest := by
  rw [tokensOf, scan_spelled h, tokens_cons, tokens_scan]

theorem tokensOf_mark {c : Char} (h : IsMark c) (rest : List Char) :
    tokensOf (c :: rest) = .char c :: tokensOf rest :=
  tokensOf_spelled (.mark h rest)

theorem tokensOf_space (rest : List Char) : tokensOf (' ' :: rest) = tokensOf rest :=
  tokens_scan _ rest

theorem Spells.eq {cs : List Char} {ts : List Token} (h : Spells cs ts) : tokensOf cs = ts := by
  have hnil := h [] apart_nil
  rw [List.append_nil] at hnil
  rw [hnil]
  exact List.append_nil ts

theorem spells_word {name : String} (h : Symbol.IsWord name) :
    Spells name.toList [Token.ofWord name] := by
  intro rest hrest
  unfold Symbol.IsWord at h
  cases hname : name.toList with
  | nil =>
    rw [hname] at h
    cases h
  | cons c cs =>
    rw [hname] at h
    have hspelled : Spelled (Token.ofWord name) (c :: cs) rest := by
      rw [← String.ofList_toList (s := name), hname]
      exact .word h.1 h.2 fun d hd => (hrest d hd).1
    exact tokensOf_spelled hspelled

theorem spells_numeral {run : List Char} (hne : run ≠ [])
    (hrun : ∀ c ∈ run, Numeral.isPart c = true) :
    Spells run [.number (Numeral.value run)] := by
  intro rest hrest
  cases run with
  | nil => exact absurd rfl hne
  | cons c cs =>
    obtain ⟨hc, hcs⟩ := List.forall_mem_cons.mp hrun
    exact tokensOf_spelled (.numeral hc hcs fun d hd => (hrest d hd).2)

end Lexer

/-! ## Expressions with a text of their own -/

/-- A name that is read as an identifier. -/
structure Symbol.IsName (name : String) : Prop where
  word    : IsWord name
  keyword : ∀ word : Keyword, name ≠ word.text

theorem Symbol.IsName.ofWord_eq {name : String} (h : IsName name) :
    Token.ofWord name = .ident name := by
  rw [Token.ofWord, if_neg (h.keyword .define), if_neg (h.keyword .declare)]

/-- An operator that is read as one. -/
structure PrecedenceTable.Reads (table : PrecedenceTable) (op : Char) : Prop where
  mark      : Lexer.IsMark op
  installed : ∃ p, table.get? op = some p ∧ 0 ≤ p

/-- An expression whose names, operators and numbers can be written as tokens. -/
inductive Expr.Writable (table : PrecedenceTable) : Expr → Prop where
  | number {x : Float} (finite : x.isFinite = true) (sign : Binary64.isNegative x = false) :
      Writable table (.number x)
  | var {name : String} (legal : Symbol.IsName name) : Writable table (.var name)
  | binary {op : Char} {lhs rhs : Expr} (operator : table.Reads op)
      (left : Writable table lhs) (right : Writable table rhs) :
      Writable table (.binary op lhs rhs)
  | call {callee : String} {args : List Expr} (legal : Symbol.IsName callee)
      (arguments : ∀ arg ∈ args, Writable table arg) : Writable table (.call callee args)

theorem Lexer.spells_value {x : Float} (finite : x.isFinite = true)
    (sign : Binary64.isNegative x = false) :
    Spells (Decimal.valueText x).toList [.number x] := by
  obtain ⟨n, j, hnumeral, hvalue⟩ := Decimal.value_valueText finite sign
  have hspells := spells_numeral hnumeral.ne_nil hnumeral.isPart
  rwa [hvalue] at hspells

mutual

/-- The tokens that show an expression. -/
def Expr.shown : Expr → List Token
  | .number x => [.number x]
  | .var name => [.ident name]
  | .binary op lhs rhs => .char '(' :: (lhs.shown ++ .char op :: (rhs.shown ++ [.char ')']))
  | .call callee args => .ident callee :: .char '(' :: (Expr.argsShown args ++ [.char ')'])

def Expr.argsShown : List Expr → List Token
  | [] => []
  | [arg] => arg.shown
  | arg :: next :: args => arg.shown ++ .char ',' :: Expr.argsShown (next :: args)

end

section Text

open Lexer

variable {table : PrecedenceTable}

theorem isMark_open : IsMark '(' := by decide

theorem isMark_close : IsMark ')' := by decide

theorem isMark_comma : IsMark ',' := by decide

theorem apart_space (rest : List Char) : Apart (' ' :: rest) :=
  apart_cons (by decide) (by decide) rest

theorem Expr.spells_args {args : List Expr}
    (h : ∀ arg ∈ args, Lexer.Spells arg.text.toList arg.shown) :
    Lexer.Spells (Expr.argsText args).toList (Expr.argsShown args) := by
  induction args with
  | nil =>
    intro rest _
    rfl
  | cons arg args ih =>
    obtain ⟨harg, hargs⟩ := List.forall_mem_cons.mp h
    cases args with
    | nil =>
      rw [argsText, argsShown]
      exact harg
    | cons next args =>
      intro rest hrest
      have hcomma : Apart (',' :: ' ' :: ((argsText (next :: args)).toList ++ rest)) :=
        apart_cons (by decide) (by decide) _
      rw [argsText, argsShown, String.toList_append, String.toList_append, List.append_assoc,
        List.append_assoc]
      calc tokensOf (arg.text.toList ++ ',' :: ' ' :: ((argsText (next :: args)).toList ++ rest))
          = arg.shown ++ tokensOf (',' :: ' ' :: ((argsText (next :: args)).toList ++ rest)) :=
            harg _ hcomma
        _ = arg.shown ++ .char ',' :: (argsShown (next :: args) ++ tokensOf rest) := by
            rw [tokensOf_mark isMark_comma, tokensOf_space, ih hargs rest hrest]
        _ = (arg.shown ++ .char ',' :: argsShown (next :: args)) ++ tokensOf rest := by simp

/-- The text of an expression is lexed as the tokens that show it. -/
theorem Expr.Writable.spells {e : Expr} (h : e.Writable table) :
    Lexer.Spells e.text.toList e.shown := by
  induction h with
  | number finite sign =>
    rw [Expr.text, Expr.shown]
    exact spells_value finite sign
  | @var name legal =>
    rw [Expr.text, Expr.shown, ← legal.ofWord_eq]
    exact spells_word legal.word
  | @binary op lhs rhs operator _ _ ihl ihr =>
    intro rest hrest
    have htext : (Expr.binary op lhs rhs).text.toList ++ rest =
        '(' :: (lhs.text.toList ++ ' ' :: op :: ' ' :: (rhs.text.toList ++ ')' :: rest)) := by
      simp [Expr.text]
    have hclose : Apart (')' :: rest) := apart_cons (by decide) (by decide) rest
    rw [htext, tokensOf_mark isMark_open, ihl _ (apart_space _), tokensOf_space,
      tokensOf_mark operator.mark, tokensOf_space, ihr _ hclose, tokensOf_mark isMark_close,
      Expr.shown]
    simp
  | @call callee args legal _ ih =>
    intro rest hrest
    have htext : (Expr.call callee args).text.toList ++ rest =
        callee.toList ++ '(' :: ((Expr.argsText args).toList ++ ')' :: rest) := by
      simp [Expr.text]
    have hopen : Apart ('(' :: ((Expr.argsText args).toList ++ ')' :: rest)) :=
      apart_cons (by decide) (by decide) _
    have hclose : Apart (')' :: rest) := apart_cons (by decide) (by decide) rest
    rw [htext, spells_word legal.word _ hopen, tokensOf_mark isMark_open,
      Expr.spells_args ih _ hclose, tokensOf_mark isMark_close, legal.ofWord_eq, Expr.shown]
    simp

end Text

/-! ## Parsing the tokens -/

section Grammar

open ExprReader Chain

variable {table : PrecedenceTable}

/-- The table leaves the punctuation of groups and calls alone. -/
def PrecedenceTable.SparesPunctuation (table : PrecedenceTable) : Prop :=
  ∀ c ∈ ['(', ')', ','], table.get? c = none

theorem PrecedenceTable.SparesPunctuation.stops (h : table.SparesPunctuation) {c : Char}
    (hc : c ∈ ['(', ')', ',']) (rest : List Token) : Stops table (.char c :: rest) := by
  intro d hd
  cases hd
  rw [operator?, h c hc]
  rfl

theorem PrecedenceTable.Reads.operator?_eq {op : Char} (h : table.Reads op) :
    ∃ p, operator? table op = some p := by
  obtain ⟨p, hp, hpos⟩ := h.installed
  exact ⟨p, by simp [operator?, hp, hpos]⟩

theorem PrecedenceTable.Reads.ne_open {op : Char} (h : table.Reads op)
    (htable : table.SparesPunctuation) : op ≠ '(' := by
  rintro rfl
  obtain ⟨p, hp, -⟩ := h.installed
  rw [htable '(' (by simp)] at hp
  cases hp

/-- One operand on its own. -/
theorem Derives.single {e : Expr} {ts rest : List Token}
    (h : Derives table (.primary e) ts rest) (hstops : Stops table rest) :
    Derives table (.expression e) ts rest := by
  rw [← build_nil e]
  exact .chain h (.done rest) hstops

/-- Two operands and an operator between them. -/
theorem Derives.pair {op : Char} {p : Int} {lhs rhs : Expr} {ts mid rest : List Token}
    (hop : operator? table op = some p) (hlhs : Derives table (.primary lhs) ts (.char op :: mid))
    (hrhs : Derives table (.primary rhs) mid rest) (hstops : Stops table rest) :
    Derives table (.expression (.binary op lhs rhs)) ts rest := by
  have hsplits : Splits [] ⟨op, p, rhs⟩ [] := ⟨by simp, by simp⟩
  have hbuild := build_of_splits lhs hsplits
  simp only [build_nil, List.nil_append] at hbuild
  rw [← hbuild]
  exact .chain hlhs (.segment hop hrhs (.done rest)) hstops

theorem Expr.derives_args (htable : table.SparesPunctuation) {args : List Expr} (hne : args ≠ [])
    (h : ∀ arg ∈ args, ∀ rest, rest.head? ≠ some (.char '(') →
      Derives table (.primary arg) (arg.shown ++ rest) rest) (rest : List Token) :
    Derives table (.arguments args) (Expr.argsShown args ++ .char ')' :: rest) rest := by
  induction args with
  | nil => exact absurd rfl hne
  | cons arg args ih =>
    obtain ⟨harg, hargs⟩ := List.forall_mem_cons.mp h
    cases args with
    | nil =>
      rw [argsShown]
      exact .last ((harg _ (by simp)).single (htable.stops (by simp) rest))
    | cons next args =>
      have hrest := ih (List.cons_ne_nil next args) hargs
      rw [argsShown, List.append_assoc, List.cons_append]
      exact .more ((harg _ (by simp)).single (htable.stops (by simp) _)) hrest

/-- What shows an expression is an operand, whatever the table and whatever comes next
    but an open parenthesis. -/
theorem Expr.Writable.derives {e : Expr} (h : e.Writable table)
    (htable : table.SparesPunctuation) {rest : List Token}
    (hrest : rest.head? ≠ some (.char '(')) :
    Derives table (.primary e) (e.shown ++ rest) rest := by
  induction h generalizing rest with
  | number finite sign => exact .number _ rest
  | var legal => exact .var _ hrest
  | @binary op lhs rhs operator _ _ ihl ihr =>
    obtain ⟨p, hop⟩ := operator.operator?_eq
    have hnext : (Token.char op :: (rhs.shown ++ .char ')' :: rest)).head? ≠ some (.char '(') := by
      simpa using operator.ne_open htable
    rw [Expr.shown, List.cons_append, List.append_assoc, List.cons_append, List.append_assoc,
      List.singleton_append]
    exact .group (.pair hop (ihl hnext) (ihr (by simp)) (htable.stops (by simp) rest))
  | @call callee args legal _ ih =>
    rw [Expr.shown, List.cons_append, List.cons_append, List.append_assoc, List.singleton_append]
    cases args with
    | nil => exact .callNone callee rest
    | cons arg args =>
      exact .call callee (Expr.derives_args htable (List.cons_ne_nil arg args)
        (fun a ha rest hrest => ih a ha hrest) rest)

end Grammar

/-- The text of an expression whose names, operators and numbers can be written as tokens
    is read as that expression, to its end. How the operators rank does not matter, as
    long as parentheses and commas are none. -/
theorem Stream.read_text (table : PrecedenceTable) (htable : table.SparesPunctuation) (e : Expr)
    (h : e.Writable table) :
    (Stream.ofText e.text).read (Expr.reader table) = .ok e ∧
      ((Stream.ofText e.text).after (Expr.reader table)).atEnd = true := by
  have hlex : tokens (Stream.ofText e.text).pending = e.shown := h.spells.eq
  have hderives : Derives table (.expression e) (tokens (Stream.ofText e.text).pending) [] := by
    have hprimary : Derives table (.primary e) (e.shown ++ []) [] := h.derives htable (by simp)
    rw [List.append_nil] at hprimary
    rw [hlex]
    exact hprimary.single fun c hc => nomatch hc
  obtain ⟨hread, hrest⟩ := (Stream.read_eq_ok_iff table _ e []).mpr hderives
  exact ⟨hread, by simpa [Stream.atEnd, tokens] using hrest⟩

/-- A loose operation below a tight one, and operations among arguments. -/
theorem Stream.read_text_at_mixed_precedences :
    let table := PrecedenceTable.standard.install '|' 0
    let e : Expr := .binary '*' (.binary '|' (.number 0.1) (.var "defs"))
      (.call "f" [.binary '+' (.var "x1") (.number 2), .call "g" []])
    e.text = "((0.1 | defs) * f((x1 + 2), g()))" ∧
      (Stream.ofText e.text).read (Expr.reader table) = .ok e ∧
      ((Stream.ofText e.text).after (Expr.reader table)).atEnd = true := by
  intro table e
  have htable : table.SparesPunctuation := by
    simp [PrecedenceTable.SparesPunctuation, table, PrecedenceTable.standard,
      PrecedenceTable.get?_install]
  have hname : ∀ name ∈ ["defs", "f", "x1", "g"], Symbol.IsName name := by
    intro name hname
    refine ⟨?_, fun word => ?_⟩
    · fin_cases hname <;> simp [Symbol.IsWord, Symbol.Spells]
    · fin_cases hname <;> cases word <;> decide
  have hop : ∀ op ∈ ['*', '|', '+'], table.Reads op := by
    intro op hop
    fin_cases hop
    · exact ⟨by decide, 40, rfl, by decide⟩
    · exact ⟨by decide, 0, rfl, by decide⟩
    · exact ⟨by decide, 20, rfl, by decide⟩
  have hsum : Expr.Writable table (.binary '+' (.var "x1") (.number 2)) :=
    .binary (hop _ (by simp)) (.var (hname _ (by simp))) (.number (by decide) (by decide))
  have hchoice : Expr.Writable table (.binary '|' (.number 0.1) (.var "defs")) :=
    .binary (hop _ (by simp)) (.number (by decide) (by decide)) (.var (hname _ (by simp)))
  have hcall : Expr.Writable table (.call "g" []) := .call (hname _ (by simp)) (by simp)
  have hwritable : e.Writable table :=
    .binary (hop _ (by simp)) hchoice (.call (hname _ (by simp)) (by simp [hsum, hcall]))
  exact ⟨by decide, read_text table htable e hwritable⟩

end Abacus
