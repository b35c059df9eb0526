-- SUMMARY: Distinct names are spelled as distinct symbols, and anonymous functions get others.
import Abacus.Proofs.Names
import Abacus.Proofs.Programs
import Mathlib.Algebra.Group.Even
import Mathlib.Algebra.Ring.Parity

/-!
# Spelling

Spellings of characters other than `_` form a prefix code: a character that is kept is
not an underscore, and an escape goes from one underscore to the next. So a spelled
text can be taken apart from the left in one way only.

The underscore before a leading digit is no escape. Escapes have two underscores each,
so a text that starts with a digit is spelled with an odd number of them, any other
with an even number.

Symbols of anonymous functions have an underscore with a letter behind it, where an
escape would have a digit.
-/

namespace Abacus

/-- A text is cut at the first of its marks in one way only. -/
theorem Text.split_at_mark {mark : Char} {cs ds rest rest' : List Char} (hcs : mark ∉ cs)
    (hds : mark ∉ ds) (h : cs ++ mark :: rest = ds ++ mark :: rest') :
    cs = ds ∧ rest = rest' := by
  induction cs generalizing ds with
  | nil =>
    cases ds with
    | nil => exact ⟨rfl, (List.cons_eq_cons.mp h).2⟩
    | cons d ds =>
      exact absurd (List.cons_eq_cons.mp h).1 (List.ne_and_not_mem_of_not_mem_cons hds).1
  | cons c cs ih =>
    obtain ⟨hc, hcs⟩ := List.ne_and_not_mem_of_not_mem_cons hcs
    cases ds with
    | nil => exact absurd (List.cons_eq_cons.mp h).1.symm hc
    | cons d ds =>
      obtain ⟨rfl, htail⟩ := List.cons_eq_cons.mp h
      obtain ⟨rfl, hrest⟩ := ih hcs (List.ne_and_not_mem_of_not_mem_cons hds).2 htail
      exact ⟨rfl, hrest⟩

namespace Symbol

/-! ## A prefix code -/

section Code

variable {c d : Char} {cs ds rest rest' : List Char}

theorem spell_of_isPlain (h : isPlain c = true) : spell c = [c] :=
  if_pos h

theorem spell_of_not_isPlain (h : isPlain c = false) :
    spell c = '_' :: (Nat.toDigits 10 c.toNat ++ ['_']) := by
  simp [spell, h]

theorem isDigit_of_mem_toDigits {n : Nat} (h : c ∈ Nat.toDigits 10 n) : c.isDigit = true :=
  Nat.isDigit_of_mem_toDigits (by decide) (by decide) h

theorem toDigits_injective {m n : Nat} (h : Nat.toDigits 10 m = Nat.toDigits 10 n) : m = n := by
  have hvalue := congrArg (fun ds => Nat.ofDigitChars 10 ds 0) h
  simpa using hvalue

theorem ne_underscore_of_isAlphanum (h : c.isAlphanum = true) : c ≠ '_' := by
  rintro rfl
  revert h
  decide

theorem spell_ne_nil (c : Char) : spell c ≠ [] := by
  unfold spell
  split <;> simp

theorem flatMap_spell_ne_nil (c : Char) (cs : List Char) : (c :: cs).flatMap spell ≠ [] := by
  simp [spell_ne_nil]

/-- No spelling is the start of another one. -/
theorem spell_append_inj (hc : c ≠ '_') (hd : d ≠ '_')
    (h : spell c ++ rest = spell d ++ rest') : c = d ∧ rest = rest' := by
  cases hpc : isPlain c with
  | true =>
    cases hpd : isPlain d with
    | true =>
      rw [spell_of_isPlain hpc, spell_of_isPlain hpd] at h
      exact List.cons_eq_cons.mp h
    | false =>
      rw [spell_of_isPlain hpc, spell_of_not_isPlain hpd] at h
      exact absurd (List.cons_eq_cons.mp h).1 hc
  | false =>
    cases hpd : isPlain d with
    | true =>
      rw [spell_of_not_isPlain hpc, spell_of_isPlain hpd] at h
      exact absurd (List.cons_eq_cons.mp h).1.symm hd
    | false =>
      rw [spell_of_not_isPlain hpc, spell_of_not_isPlain hpd] at h
      simp only [List.cons_append, List.append_assoc, List.nil_append, List.cons.injEq,
        true_and] at h
      obtain ⟨hdigits, hrest⟩ := Text.split_at_mark Nat.underscore_not_in_toDigits
        Nat.underscore_not_in_toDigits h
      exact ⟨Char.toNat_inj.mp (toDigits_injective hdigits), hrest⟩

/-- Texts without underscores are spelled apart, whatever comes first. -/
theorem flatMap_spell_inj (hcs : '_' ∉ cs) (hds : '_' ∉ ds)
    (h : cs.flatMap spell = ds.flatMap spell) : cs = ds := by
  induction cs generalizing ds with
  | nil =>
    cases ds with
    | nil => rfl
    | cons d ds => exact absurd h.symm (flatMap_spell_ne_nil d ds)
  | cons c cs ih =>
    cases ds with
    | nil => exact absurd h (flatMap_spell_ne_nil c cs)
    | cons d ds =>
      obtain ⟨hc, hcs'⟩ := List.ne_and_not_mem_of_not_mem_cons hcs
      obtain ⟨hd, hds'⟩ := List.ne_and_not_mem_of_not_mem_cons hds
      obtain ⟨rfl, hrest⟩ := spell_append_inj hc.symm hd.symm h
      rw [ih hcs' hds' hrest]

/-- Letters and digits in front of a spelling are characters of the text. -/
theorem exists_of_flatMap_spell (hds : ∀ d ∈ ds, d.isAlphanum = true) (hcs : '_' ∉ cs)
    (h : cs.flatMap spell = ds ++ rest) :
    ∃ cs', cs = ds ++ cs' ∧ '_' ∉ cs' ∧ cs'.flatMap spell = rest := by
  induction ds generalizing cs with
  | nil => exact ⟨cs, rfl, hcs, h⟩
  | cons d ds ih =>
    obtain ⟨hd, hds'⟩ := List.forall_mem_cons.mp hds
    cases cs with
    | nil => cases h
    | cons c cs =>
      obtain ⟨hc, hcs⟩ := List.ne_and_not_mem_of_not_mem_cons hcs
      have hspell : spell c ++ cs.flatMap spell = spell d ++ (ds ++ rest) := by
        rw [spell_of_isAlphanum hd]
        exact h
      obtain ⟨rfl, hrest⟩ := spell_append_inj hc.symm (ne_underscore_of_isAlphanum hd) hspell
      obtain ⟨cs', rfl, hcs', hrest'⟩ := ih hds' hcs hrest
      exact ⟨cs', rfl, hcs', hrest'⟩

/-- Behind an underscore that starts an escape stands a digit. -/
theorem isDigit_of_flatMap_spell (hcs : '_' ∉ cs) (h : cs.flatMap spell = '_' :: d :: rest) :
    d.isDigit = true := by
  cases cs with
  | nil => cases h
  | cons c cs =>
    obtain ⟨hc, -⟩ := List.ne_and_not_mem_of_not_mem_cons hcs
    rw [List.flatMap_cons] at h
    cases hpc : isPlain c with
    | true =>
      rw [spell_of_isPlain hpc] at h
      exact absurd (List.cons_eq_cons.mp h).1.symm hc
    | false =>
      rw [spell_of_not_isPlain hpc] at h
      cases hdigits : Nat.toDigits 10 c.toNat with
      | nil => exact absurd hdigits Nat.toDigits_ne_nil
      | cons e es =>
        rw [hdigits] at h
        obtain ⟨-, h⟩ := List.cons_eq_cons.mp h
        obtain ⟨rfl, -⟩ := List.cons_eq_cons.mp h
        exact isDigit_of_mem_toDigits (n := c.toNat) (by rw [hdigits]; exact List.mem_cons_self)

/-- Escapes have two underscores each. -/
theorem even_count_underscore (h : '_' ∉ cs) : Even ((cs.flatMap spell).count '_') := by
  induction cs with
  | nil => exact ⟨0, rfl⟩
  | cons c cs ih =>
    obtain ⟨hc, hcs⟩ := List.ne_and_not_mem_of_not_mem_cons h
    rw [List.flatMap_cons, List.count_append]
    refine Even.add ?_ (ih hcs)
    cases hpc : isPlain c with
    | true =>
      rw [spell_of_isPlain hpc, List.count_singleton, if_neg (by simpa using hc.symm)]
      exact Even.zero
    | false =>
      have hdigits := List.count_eq_zero.mpr (Nat.underscore_not_in_toDigits (n := c.toNat))
      rw [spell_of_not_isPlain hpc, List.count_cons_self, List.count_append, hdigits]
      exact even_two

/-! ## Leading digits -/

theorem spellAll_of_isDigit (hc : c.isDigit = true) :
    spellAll (c :: cs) = '_' :: (c :: cs).flatMap spell := by
  have hplain : c.isAlphanum = true := by simp [Char.isAlphanum, hc]
  rw [spellAll, spellFirst, if_pos hc, List.flatMap_cons, spell_of_isAlphanum hplain]
  rfl

theorem spellAll_of_not_isDigit (hc : c.isDigit = false) :
    spellAll (c :: cs) = (c :: cs).flatMap spell := by
  rw [spellAll, spellFirst, hc, List.flatMap_cons]
  rfl

theorem spellAll_cases (cs : List Char) :
    spellAll cs = cs.flatMap spell ∨ spellAll cs = '_' :: cs.flatMap spell := by
  cases cs with
  | nil => exact .inl rfl
  | cons c cs =>
    cases hc : c.isDigit with
    | false => exact .inl (spellAll_of_not_isDigit hc)
    | true => exact .inr (spellAll_of_isDigit hc)

/-- With an underscore in front, a text is not spelled like one without. -/
theorem flatMap_spell_ne_underscore (hcs : '_' ∉ cs) (hds : '_' ∉ ds) :
    cs.flatMap spell ≠ '_' :: ds.flatMap spell := by
  intro h
  have heven := even_count_underscore hcs
  rw [h, List.count_cons_self] at heven
  exact Nat.even_add_one.mp heven (even_count_underscore hds)

theorem spellAll_inj (hcs : '_' ∉ cs) (hds : '_' ∉ ds) (h : spellAll cs = spellAll ds) :
    cs = ds := by
  rcases spellAll_cases cs with hc | hc <;> rcases spellAll_cases ds with hd | hd <;>
    rw [hc, hd] at h
  · exact flatMap_spell_inj hcs hds h
  · exact absurd h (flatMap_spell_ne_underscore hcs hds)
  · exact absurd h.symm (flatMap_spell_ne_underscore hds hcs)
  · exact flatMap_spell_inj hcs hds (List.cons_eq_cons.mp h).2

end Code

section Symbols

variable {name name' : String}

theorem legalize_inj (h : '_' ∉ name.toList) (h' : '_' ∉ name'.toList)
    (heq : legalize name = legalize name') : name = name' :=
  String.toList_inj.mp (spellAll_inj h h' (String.ofList_injective heq))

/-- Between the first underscore of an anonymous symbol and the next one stands a word,
    and no code. -/
theorem anonymous_ne_legalize (n : Nat) (h : '_' ∉ name.toList) : anonymous n ≠ legalize name := by
  intro heq
  have hlist : "anon".toList ++ '_' :: 'f' :: ("unc_".toList ++ (toString n).toList) =
      spellAll name.toList := by
    simpa [anonymous, legalize] using congrArg String.toList heq
  have hword : ∀ d ∈ "anon".toList, d.isAlphanum = true := by simp
  rcases spellAll_cases name.toList with hcs | hcs
  · rw [hcs] at hlist
    obtain ⟨cs', -, hcs', hrest⟩ := exists_of_flatMap_spell hword h hlist.symm
    exact absurd (isDigit_of_flatMap_spell hcs' hrest) (by decide)
  · rw [hcs] at hlist
    cases hlist

/-! ## Legal symbols -/

/-- What can be the symbol of a function: letters, digits and underscores, at least
    one of them, and no digit in front. -/
structure Legal (symbol : String) : Prop where
  plain : ∀ c ∈ symbol.toList, isPlain c = true
  first : ∃ c, symbol.toList.head? = some c ∧ c.isDigit = false

theorem isPlain_of_mem_spell {c d : Char} (h : d ∈ spell c) : isPlain d = true := by
  cases hc : isPlain c with
  | true =>
    rw [spell_of_isPlain hc] at h
    exact List.mem_singleton.mp h ▸ hc
  | false =>
    rw [spell_of_not_isPlain hc] at h
    simp only [List.mem_cons, List.mem_append, List.not_mem_nil, or_false] at h
    rcases h with rfl | h | rfl
    · rfl
    · simp [isPlain, Char.isAlphanum, isDigit_of_mem_toDigits h]
    · rfl

theorem head?_spell {c : Char} (h : c.isDigit = false) :
    ∃ d, (spell c).head? = some d ∧ d.isDigit = false := by
  cases hc : isPlain c with
  | true => exact ⟨c, by rw [spell_of_isPlain hc]; rfl, h⟩
  | false => exact ⟨'_', by rw [spell_of_not_isPlain hc]; rfl, rfl⟩

theorem legal_legalize (h : name ≠ "") : Legal (legalize name) := by
  have hplain : ∀ cs : List Char, ∀ c ∈ cs.flatMap spell, isPlain c = true := by
    intro cs c hc
    obtain ⟨d, -, hd⟩ := List.mem_flatMap.mp hc
    exact isPlain_of_mem_spell hd
  refine ⟨fun c hc => ?_, ?_⟩
  · rw [legalize, String.toList_ofList] at hc
    rcases spellAll_cases name.toList with hcs | hcs <;> rw [hcs] at hc
    · exact hplain _ c hc
    · rcases List.mem_cons.mp hc with rfl | hc
      · rfl
      · exact hplain _ c hc
  · rw [legalize, String.toList_ofList]
    cases hcs : name.toList with
    | nil => exact absurd (String.toList_eq_nil_iff.mp hcs) h
    | cons c cs =>
      cases hc : c.isDigit with
      | true => exact ⟨'_', by rw [spellAll_of_isDigit hc]; rfl, rfl⟩
      | false =>
        obtain ⟨d, hd, hdigit⟩ := head?_spell hc
        refine ⟨d, ?_, hdigit⟩
        rw [spellAll_of_not_isDigit hc, List.flatMap_cons, List.head?_append, hd]
        rfl

end Symbols

/-! ## Supplies

A supply is asked for symbols one after another: for the symbol of a name, or for a
fresh one. -/

inductive Request where
  | symbolFor (name : String)
  | fresh
deriving DecidableEq, Repr

/-- The name that a symbol is asked for; none stands for an anonymous function. -/
def Request.name? : Request → Option String
  | .symbolFor name => if name.isEmpty then none else some name
  | .fresh => none

namespace Supply

def answer (supply : Supply) : Request → String × Supply
  | .symbolFor name => supply.symbolFor name
  | .fresh => supply.fresh

/-- The requests, each with the symbol that it gets. -/
def answers : Supply → List Request → List (Request × String)
  | _, [] => []
  | supply, r :: rs => (r, (supply.answer r).1) :: (supply.answer r).2.answers rs

variable {supply : Supply} {r : Request} {rs : List Request} {name : String}

theorem answer_of_name (h : r.name? = some name) : supply.answer r = (legalize name, supply) := by
  cases r with
  | fresh => cases h
  | symbolFor name' =>
    simp only [Request.name?] at h
    split at h
    · cases h
    case isFalse hempty =>
      cases h
      exact if_neg hempty

theorem answer_of_anonymous (h : r.name? = none) :
    supply.answer r = (anonymous supply.next, ⟨supply.next + 1⟩) := by
  cases r with
  | fresh => rfl
  | symbolFor name =>
    simp only [Request.name?] at h
    split at h
    case isTrue hempty => exact if_pos hempty
    · cases h

/-- What a request can get: the symbol of its name, or an anonymous one that was not
    handed out yet. -/
def Grants (supply : Supply) (p : Request × String) : Prop :=
  match p.1.name? with
  | some name => p.2 = legalize name
  | none => ∃ n, supply.next ≤ n ∧ p.2 = anonymous n

theorem Grants.of_name {p : Request × String} (h : supply.Grants p) (hname : p.1.name? = some name) :
    p.2 = legalize name := by
  simpa only [Grants, hname] using h

theorem Grants.of_anonymous {p : Request × String} (h : supply.Grants p) (hname : p.1.name? = none) :
    ∃ n, supply.next ≤ n ∧ p.2 = Symbol.anonymous n := by
  simpa only [Grants, hname] using h

theorem Grants.of_le {supply' : Supply} {p : Request × String} (h : supply'.Grants p)
    (hle : supply.next ≤ supply'.next) : supply.Grants p := by
  unfold Grants at h ⊢
  split at h
  · exact h
  · obtain ⟨n, hn, hp⟩ := h
    exact ⟨n, hle.trans hn, hp⟩

theorem next_le_answer (supply : Supply) (r : Request) :
    supply.next ≤ (supply.answer r).2.next := by
  cases hr : r.name? with
  | some name => rw [answer_of_name hr]
  | none =>
    rw [answer_of_anonymous hr]
    exact Nat.le_succ _

theorem grants_answer (supply : Supply) (r : Request) : supply.Grants (r, (supply.answer r).1) := by
  cases hr : r.name? with
  | some name =>
    simp only [Grants, hr]
    rw [answer_of_name hr]
  | none =>
    simp only [Grants, hr]
    exact ⟨supply.next, Nat.le_refl _, by rw [answer_of_anonymous hr]⟩

theorem grants_answers {p : Request × String} (h : p ∈ supply.answers rs) : supply.Grants p := by
  induction rs generalizing supply with
  | nil => cases h
  | cons r rs ih =>
    rcases List.mem_cons.mp h with rfl | h
    · exact grants_answer supply r
    · exact (ih h).of_le (next_le_answer supply r)

theorem request_of_mem_answers {p : Request × String} (h : p ∈ supply.answers rs) : p.1 ∈ rs := by
  induction rs generalizing supply with
  | nil => cases h
  | cons r rs ih =>
    rcases List.mem_cons.mp h with rfl | h
    · exact List.mem_cons_self
    · exact List.mem_cons_of_mem _ (ih h)

/-- No anonymous function gets the symbol of an earlier one. -/
theorem pairwise_answers (supply : Supply) (rs : List Request) :
    (supply.answers rs).Pairwise fun p q =>
      p.1.name? = none → q.1.name? = none → p.2 ≠ q.2 := by
  induction rs generalizing supply with
  | nil => exact .nil
  | cons r rs ih =>
    refine .cons (fun q hq hr hname heq => ?_) (ih _)
    have hgrants := grants_answers hq
    rw [answer_of_anonymous hr] at hgrants heq
    obtain ⟨n, hn, hq⟩ := hgrants.of_anonymous hname
    have hnext := anonymous_injective (heq.trans hq)
    simp only at hn
    omega

theorem anonymous_ne {p : Request × String} (h : p ∈ supply.answers rs) (hp : p.1.name? = none)
    (hname : '_' ∉ name.toList) : p.2 ≠ legalize name := by
  obtain ⟨n, -, hn⟩ := (grants_answers h).of_anonymous hp
  rw [hn]
  exact anonymous_ne_legalize n hname

/-- Two requests get one symbol only if they are for one name. -/
theorem pairwise_answers_of_names
    (h : ∀ r ∈ rs, ∀ name, r.name? = some name → '_' ∉ name.toList) :
    (supply.answers rs).Pairwise fun p q =>
      p.2 = q.2 → ∃ name, p.1.name? = some name ∧ q.1.name? = some name := by
  refine (supply.pairwise_answers rs).imp_of_mem fun {p q} hp hq hne heq => ?_
  have hnames : ∀ p ∈ supply.answers rs, ∀ name, p.1.name? = some name → '_' ∉ name.toList :=
    fun p hp => h p.1 (request_of_mem_answers hp)
  cases hpn : p.1.name? with
  | none =>
    cases hqn : q.1.name? with
    | none => exact absurd heq (hne hpn hqn)
    | some name =>
      exact absurd (heq.trans ((grants_answers hq).of_name hqn))
        (anonymous_ne hp hpn (hnames q hq name hqn))
  | some name =>
    cases hqn : q.1.name? with
    | none =>
      exact absurd (heq.symm.trans ((grants_answers hp).of_name hpn))
        (anonymous_ne hq hqn (hnames p hp name hpn))
    | some name' =>
      have hlegal : legalize name = legalize name' :=
        ((grants_answers hp).of_name hpn).symm.trans (heq.trans ((grants_answers hq).of_name hqn))
      exact ⟨name, rfl, congrArg some
        (legalize_inj (hnames p hp name hpn) (hnames q hq name' hqn) hlegal).symm⟩

end Supply

end Symbol

/-! ## Names of a program -/

mutual

/-- The names in an expression, of variables and of the functions it calls. -/
def Expr.names : Expr → List String
  | .number _ => []
  | .var name => [name]
  | .binary _ lhs rhs => lhs.names ++ rhs.names
  | .call callee args => callee :: Expr.namesAll args

def Expr.namesAll : List Expr → List String
  | [] => []
  | arg :: args => arg.names ++ Expr.namesAll args

end

def Item.names : Item → List String
  | .definition f => f.proto.name :: (f.proto.params ++ f.body.names)
  | .external proto => proto.name :: proto.params
  | .expression f => f.proto.params ++ f.body.names

def Form.names : Form → List String
  | .primary e | .expression e => e.names
  | .segments ss => ss.flatMap (·.operand.names)
  | .arguments args => Expr.namesAll args

open Chain in
theorem Chain.mem_of_names_build {name : String} (first : Expr) (ss : List Segment)
    (h : name ∈ (build first ss).names) :
    name ∈ first.names ∨ name ∈ (Form.segments ss).names := by
  fun_induction build first ss with
  | case1 first ss hp => exact .inl h
  | case2 first ss before p after hp ihb iha =>
    obtain ⟨rfl, -⟩ := pivot_eq_some hp
    simp only [Form.names, List.flatMap_append, List.flatMap_cons, List.mem_append] at ihb iha ⊢
    rcases List.mem_append.mp h with h | h
    · rcases ihb h with h | h
      · exact .inl h
      · exact .inr (.inl h)
    · exact .inr (.inr (iha h))

/-- The names in a part of an expression are identifiers of its text. -/
theorem Derives.ident_mem {table : PrecedenceTable} {form : Form} {source rest : List Token}
    (h : Derives table form source rest) :
    ∃ ts, source = ts ++ rest ∧ ∀ name ∈ form.names, Token.ident name ∈ ts := by
  induction h with
  | number x rest => exact ⟨[.number x], rfl, by simp [Form.names, Expr.names]⟩
  | @var x rest hnext => exact ⟨[.ident x], rfl, by simp [Form.names, Expr.names]⟩
  | group h ih =>
    obtain ⟨ts, rfl, hts⟩ := ih
    refine ⟨.char '(' :: (ts ++ [.char ')']), by simp, fun name hname => ?_⟩
    exact List.mem_cons_of_mem _ (List.mem_append_left _ (hts name hname))
  | callNone callee rest =>
    refine ⟨[.ident callee, .char '(', .char ')'], rfl, ?_⟩
    simp [Form.names, Expr.names, Expr.namesAll]
  | call callee h ih =>
    obtain ⟨ts, rfl, hts⟩ := ih
    refine ⟨.ident callee :: .char '(' :: ts, rfl, fun name hname => ?_⟩
    rcases List.mem_cons.mp hname with rfl | hname
    · exact List.mem_cons_self
    · exact List.mem_cons_of_mem _ (List.mem_cons_of_mem _ (hts name hname))
  | done rest => exact ⟨[], rfl, by simp [Form.names]⟩
  | @segment c _ _ _ _ _ _ hop hoperand hss iho ihs =>
    obtain ⟨ts, rfl, hts⟩ := iho
    obtain ⟨us, rfl, hus⟩ := ihs
    refine ⟨.char c :: (ts ++ us), by simp, fun name hname => ?_⟩
    rcases List.mem_append.mp hname with hname | hname
    · exact List.mem_cons_of_mem _ (List.mem_append_left _ (hts name hname))
    · exact List.mem_cons_of_mem _ (List.mem_append_right _ (hus name hname))
  | @chain first ss _ _ _ hfirst hss hstops ihf ihs =>
    obtain ⟨ts, rfl, hts⟩ := ihf
    obtain ⟨us, rfl, hus⟩ := ihs
    refine ⟨ts ++ us, by simp, fun name hname => ?_⟩
    rcases Chain.mem_of_names_build first ss hname with hname | hname
    · exact List.mem_append_left _ (hts name hname)
    · exact List.mem_append_right _ (hus name hname)
  | last h ih =>
    obtain ⟨ts, rfl, hts⟩ := ih
    refine ⟨ts ++ [.char ')'], by simp, fun name hname => List.mem_append_left _ (hts name ?_)⟩
    simpa [Form.names, Expr.namesAll] using hname
  | more h hargs ih ihs =>
    obtain ⟨ts, rfl, hts⟩ := ih
    obtain ⟨us, rfl, hus⟩ := ihs
    refine ⟨ts ++ .char ',' :: us, by simp, fun name hname => ?_⟩
    rcases List.mem_append.mp hname with hname | hname
    · exact List.mem_append_left _ (hts name hname)
    · exact List.mem_append_right _ (List.mem_cons_of_mem _ (hus name hname))

theorem Prototype.ident_mem_tokens {proto : Prototype} {name : String}
    (h : name ∈ proto.name :: proto.params) : Token.ident name ∈ proto.tokens := by
  simp only [Prototype.tokens, List.mem_cons, List.mem_append, List.mem_map] at h ⊢
  rcases h with rfl | h
  · exact .inl rfl
  · exact .inr (.inr (.inl ⟨name, h, rfl⟩))

theorem Item.Derives.ident_mem {table : PrecedenceTable} {item : Item} {source rest : List Token}
    (h : Item.Derives table item source rest) {name : String} (hname : name ∈ item.names) :
    Token.ident name ∈ source := by
  cases h with
  | definition hparams hbody =>
    obtain ⟨ts, rfl, hts⟩ := hbody.ident_mem
    rw [Item.names, ← List.cons_append] at hname
    refine List.mem_cons_of_mem _ (List.mem_append.mpr ?_)
    rcases List.mem_append.mp hname with hname | hname
    · exact .inl (Prototype.ident_mem_tokens hname)
    · exact .inr (List.mem_append_left _ (hts name hname))
  | external rest hparams =>
    exact List.mem_cons_of_mem _ (List.mem_append_left _ (Prototype.ident_mem_tokens hname))
  | expression h =>
    obtain ⟨ts, rfl, hts⟩ := h.ident_mem
    exact List.mem_append_left _ (hts name hname)

/-- All names in an item that was read are words. -/
theorem Item.Parsed.isWord {item : Item} (h : item.Parsed) {name : String}
    (hname : name ∈ item.names) : Symbol.IsWord name := by
  obtain ⟨table, text, s, span, hpending, hitem⟩ := h
  obtain ⟨piece, hpiece, hderives, -⟩ := Stream.item_eq_ok_iff.mp ⟨hitem, rfl⟩
  have hmem := hderives.ident_mem hname
  rw [← tokens_append, ← hpiece] at hmem
  obtain ⟨l, hl, hvalue⟩ := List.mem_map.mp hmem
  exact plain_lexemes text l (hpending.subset hl) name hvalue

theorem Symbol.IsWord.underscore_notMem {name : String} (h : IsWord name) : '_' ∉ name.toList :=
  fun hmem => ne_underscore_of_isAlphanum (Spells.isAlphanum h _ hmem) rfl

namespace Symbol

/-- Names without underscores are spelled as distinct symbols, and every name is spelled
    as a legal one. Of the symbols that a supply hands out, those for anonymous functions
    are distinct, and none is the spelling of such a name. All names in an item that was
    read are made of letters and digits, so where the names asked for come from such
    items, one symbol is handed out twice only for one name. -/
theorem symbols_never_collide :
    (∀ name name' : String, '_' ∉ name.toList → '_' ∉ name'.toList →
      legalize name = legalize name' → name = name') ∧
    (∀ name : String, name ≠ "" → Legal (legalize name)) ∧
    (∀ (supply : Supply) (rs : List Request),
      ((supply.answers rs).Pairwise fun p q =>
        p.1.name? = none → q.1.name? = none → p.2 ≠ q.2) ∧
      ∀ p ∈ supply.answers rs, p.1.name? = none →
        ∀ name : String, '_' ∉ name.toList → p.2 ≠ legalize name) ∧
    (∀ item : Item, item.Parsed → ∀ name ∈ item.names,
      name ≠ "" ∧ ∀ c ∈ name.toList, c.isAlphanum = true) ∧
    (∀ (supply : Supply) (rs : List Request),
      (∀ r ∈ rs, ∀ name, r.name? = some name → ∃ item : Item, item.Parsed ∧ name ∈ item.names) →
      (supply.answers rs).Pairwise fun p q =>
        p.2 = q.2 → ∃ name, p.1.name? = some name ∧ q.1.name? = some name) := by
  refine ⟨fun name name' => legalize_inj, fun name => legal_legalize,
    fun supply rs => ⟨supply.pairwise_answers rs, fun p hp hanonymous name => ?_⟩,
    fun item hitem name hname => ?_, fun supply rs h => ?_⟩
  · exact Supply.anonymous_ne hp hanonymous
  · have hword := hitem.isWord hname
    exact ⟨fun hempty => by simp [hempty, IsWord, Spells] at hword, hword.isAlphanum⟩
  · refine Supply.pairwise_answers_of_names fun r hr name hname => ?_
    obtain ⟨item, hitem, hmem⟩ := h r hr name hname
    exact (hitem.isWord hmem).underscore_notMem

/-- A digit in front of an escape, and one behind it; then the names of `def f(x) g(x)`
    asked for between two anonymous functions, one of them twice. -/
theorem symbols_never_collide_at_definition :
    legalize "2λ" ≠ legalize "λ2" ∧ Legal (legalize "2λ") ∧
    (Supply.answers {} [.symbolFor "f", .fresh, .symbolFor "g", .symbolFor "", .symbolFor "f",
      .symbolFor "x"]).Pairwise fun p q =>
        p.2 = q.2 → ∃ name, p.1.name? = some name ∧ q.1.name? = some name := by
  have hparsed : (Item.definition ⟨⟨"f", ["x"]⟩, .call "g" [.var "x"]⟩).Parsed :=
    ⟨.standard, "def f(x) g(x)", .ofText "def f(x) g(x)", _, List.suffix_rfl, rfl⟩
  obtain ⟨hinj, hlegal, -, -, hsupply⟩ := symbols_never_collide
  refine ⟨fun h => ?_, hlegal "2λ" (by decide), hsupply {} _ fun r hr name hname => ?_⟩
  · exact absurd (hinj "2λ" "λ2" (by decide) (by decide) h) (by decide)
  · refine ⟨_, hparsed, ?_⟩
    simp only [List.mem_cons, List.not_mem_nil, or_false] at hr
    rcases hr with rfl | rfl | rfl | rfl | rfl | rfl <;> cases hname <;> decide

end Symbol

end Abacus
