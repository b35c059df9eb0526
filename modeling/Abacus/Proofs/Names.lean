-- SUMMARY: Names read from a text are words, and words are symbols of their own.
import Abacus.Proofs.Checking
import Abacus.Read.Stream
import Abacus.Symbol
import Mathlib.Data.List.Infix

/-!
# Names

The lexer makes identifiers of letters and digits only, and the reader puts
nothing else into an item. Such a word is spelled as it is, and is never taken
for the symbol of an anonymous function.
-/

namespace Abacus

/-! ## Words -/

/-- Characters of a word: a letter, then letters and digits. -/
def Symbol.Spells : List Char → Prop
  | [] => False
  | c :: cs => c.isAlpha = true ∧ ∀ d ∈ cs, d.isAlphanum = true

/-- A name that the lexer makes an identifier of. -/
def Symbol.IsWord (name : String) : Prop :=
  Spells name.toList

namespace Symbol

theorem Spells.isAlphanum {cs : List Char} (h : Spells cs) : ∀ c ∈ cs, c.isAlphanum = true := by
  cases cs with
  | nil => cases h
  | cons d ds =>
    intro c hc
    rcases List.mem_cons.mp hc with rfl | hc
    · simp [Char.isAlphanum, h.1]
    · exact h.2 c hc

theorem Spells.append {cs : List Char} (h : Spells cs) {c : Char} (hc : c.isAlphanum = true) :
    Spells (cs ++ [c]) := by
  cases cs with
  | nil => cases h
  | cons d ds =>
    refine ⟨h.1, fun e he => ?_⟩
    rcases List.mem_append.mp he with he | he
    · exact h.2 e he
    · exact List.mem_singleton.mp he ▸ hc

theorem spell_of_isAlphanum {c : Char} (h : c.isAlphanum = true) : spell c = [c] := by
  simp [spell, isPlain, h]

theorem spellFirst_of_isAlpha {c : Char} (h : c.isAlpha = true) : spellFirst c = [c] := by
  have hdigit : c.isDigit = false := by
    rw [Bool.eq_false_iff]
    intro hdigit
    have hletter : 'A'.val ≤ c.val ∨ 'a'.val ≤ c.val := by
      cases Bool.or_eq_true_iff.mp h with
      | inl hupper => exact .inl (of_decide_eq_true hupper).1
      | inr hlower => exact .inr (of_decide_eq_true (Bool.and_eq_true_iff.mp hlower).1)
    have hnine : c.val ≤ '9'.val := of_decide_eq_true (Bool.and_eq_true_iff.mp hdigit).2
    simp only [UInt32.le_iff_toNat_le] at hletter hnine
    simp at hletter hnine
    omega
  have hplain : c.isAlphanum = true := by simp [Char.isAlphanum, h]
  rw [spellFirst, hdigit, spell_of_isAlphanum hplain]
  rfl

/-- A word is spelled as it is. -/
theorem IsWord.legalize_eq {name : String} (h : IsWord name) : legalize name = name := by
  unfold IsWord at h
  unfold legalize
  have hspell : spellAll name.toList = name.toList := by
    cases hn : name.toList with
    | nil => rw [hn] at h; cases h
    | cons c cs =>
      rw [hn] at h
      have hcs : cs.flatMap spell = cs := by
        rw [List.flatMap_congr fun d hd => spell_of_isAlphanum (h.2 d hd)]
        exact List.flatMap_singleton' cs
      rw [spellAll, spellFirst_of_isAlpha h.1, hcs]
      rfl
  rw [hspell, String.ofList_toList]

theorem IsWord.isEmpty_eq {name : String} (h : IsWord name) : name.isEmpty = false := by
  rw [Bool.eq_false_iff]
  intro hempty
  rw [String.isEmpty_iff] at hempty
  subst hempty
  exact h

/-- No word is the symbol of an anonymous function. -/
theorem IsWord.ne_anonymous {name : String} (h : IsWord name) (n : Nat) : name ≠ anonymous n := by
  rintro rfl
  have hmem : '_' ∈ (anonymous n).toList := by simp [anonymous]
  have hplain := Spells.isAlphanum h '_' hmem
  revert hplain
  decide

theorem anonymous_injective {m n : Nat} (h : anonymous m = anonymous n) : m = n := by
  have hlist := congrArg String.toList h
  simp only [anonymous, String.toList_append, List.append_cancel_left_eq] at hlist
  have hdigits := congrArg (fun ds => Nat.ofDigitChars 10 ds 0) hlist
  simpa [Nat.toString_eq_repr, Nat.toList_repr] using hdigits

end Symbol

/-! ## Lexemes -/

/-- An identifier is a word; other tokens are as they may be. -/
def Token.Plain (t : Token) : Prop :=
  ∀ name, t = .ident name → Symbol.IsWord name

namespace Lexer

/-- A word under way starts with a letter. -/
def Mode.Spells : Mode → Prop
  | .word _ text => Symbol.Spells text.reverse
  | _ => True

theorem plain_close {mode : Mode} (hm : mode.Spells) (pos : Nat) :
    ∀ l ∈ mode.close pos, l.value.Plain := by
  intro l hl name hname
  cases mode with
  | between => cases hl
  | comment => cases hl
  | word start text =>
    obtain rfl := List.mem_singleton.mp hl
    dsimp only [Token.ofWord] at hname
    split at hname
    · cases hname
    · split at hname
      · cases hname
      · cases hname
        unfold Symbol.IsWord
        rw [String.toList_ofList]
        exact hm
  | numeral start text =>
    obtain rfl := List.mem_singleton.mp hl
    cases hname

theorem plain_enter (pos : Nat) (c : Char) :
    (enter pos c).1.Spells ∧ ∀ l ∈ (enter pos c).2, l.value.Plain := by
  unfold enter
  split
  · exact ⟨trivial, by simp⟩
  · split
    · exact ⟨trivial, by simp⟩
    · split
      case isTrue halpha => exact ⟨⟨halpha, by simp⟩, by simp⟩
      case isFalse =>
        split
        · exact ⟨trivial, by simp⟩
        · refine ⟨trivial, fun l hl name hname => ?_⟩
          obtain rfl := List.mem_singleton.mp hl
          cases hname

theorem plain_step {mode : Mode} (hm : mode.Spells) (pos : Nat) (c : Char) :
    (step pos mode c).1.Spells ∧ ∀ l ∈ (step pos mode c).2, l.value.Plain := by
  have henter := plain_enter pos c
  have hclose : ∀ l ∈ mode.close pos ++ (enter pos c).2, l.value.Plain := by
    intro l hl
    rcases List.mem_append.mp hl with hl | hl
    · exact plain_close hm pos l hl
    · exact henter.2 l hl
  unfold step
  cases mode with
  | between => exact henter
  | comment =>
    dsimp only
    split <;> exact ⟨trivial, by simp⟩
  | word start text =>
    dsimp only
    split
    case isTrue hc =>
      refine ⟨?_, by simp⟩
      change Symbol.Spells (c :: text).reverse
      rw [List.reverse_cons]
      exact Symbol.Spells.append hm hc
    case isFalse => exact ⟨henter.1, hclose⟩
  | numeral start text =>
    dsimp only
    split
    · exact ⟨trivial, by simp⟩
    · exact ⟨henter.1, hclose⟩

theorem plain_scan {mode : Mode} (hm : mode.Spells) (pos : Nat) (cs : List Char) :
    ∀ l ∈ scan pos mode cs, l.value.Plain := by
  induction cs generalizing pos mode with
  | nil => exact plain_close hm pos
  | cons c cs ih =>
    have hstep := plain_step hm pos c
    intro l hl
    rw [scan] at hl
    rcases List.mem_append.mp hl with hl | hl
    · exact hstep.2 l hl
    · exact ih hstep.1 _ l hl

end Lexer

/-- The identifiers of a text are words. -/
theorem plain_lexemes (text : String) : ∀ l ∈ lexemes text, l.value.Plain :=
  have hstart : Lexer.Mode.between.Spells := trivial
  Lexer.plain_scan hstart 0 text.toList

/-! ## Expressions -/

/-- All functions that an expression calls have words for names. -/
def Expr.Plain (e : Expr) : Prop :=
  ∀ c ∈ e.callees, Symbol.IsWord c

namespace Expr

@[simp] theorem plain_number (x : Float) : (Expr.number x).Plain := by
  simp [Plain, callees]

@[simp] theorem plain_var (x : String) : (Expr.var x).Plain := by
  simp [Plain, callees]

@[simp] theorem plain_binary {op : Char} {lhs rhs : Expr} :
    (Expr.binary op lhs rhs).Plain ↔ lhs.Plain ∧ rhs.Plain := by
  simp only [Plain, callees, List.mem_append]
  constructor
  · exact fun h => ⟨fun c hc => h c (.inl hc), fun c hc => h c (.inr hc)⟩
  · rintro ⟨hl, hr⟩ c (hc | hc)
    · exact hl c hc
    · exact hr c hc

@[simp] theorem plain_call {callee : String} {args : List Expr} :
    (Expr.call callee args).Plain ↔ Symbol.IsWord callee ∧ ∀ arg ∈ args, arg.Plain := by
  simp only [Plain, callees, List.mem_cons, mem_calleesAll]
  constructor
  · exact fun h => ⟨h callee (.inl rfl), fun arg harg c hc => h c (.inr ⟨arg, harg, hc⟩)⟩
  · rintro ⟨hcallee, hargs⟩ c (rfl | ⟨arg, harg, hc⟩)
    · exact hcallee
    · exact hargs arg harg c hc

end Expr

namespace ExprReader

def Frame.Plain : Frame → Prop
  | .group => True
  | .call callee args => Symbol.IsWord callee ∧ ∀ arg ∈ args, arg.Plain
  | .binary lhs _ _ => lhs.Plain

def Phase.Plain : Phase → Prop
  | .operand => True
  | .argument callee => Symbol.IsWord callee
  | .name x => Symbol.IsWord x
  | .value e => e.Plain

/-- Nothing but words was read as the name of a function. -/
structure State.Plain (s : State) : Prop where
  phase : s.phase.Plain
  stack : ∀ f ∈ s.stack, f.Plain

variable {stack : List Frame} {e : Expr} {t : Token} {s s' : State}

theorem plain_reduce (precedence : Int) (he : e.Plain) (hs : ∀ f ∈ stack, f.Plain) :
    (reduce precedence e stack).1.Plain ∧ ∀ f ∈ (reduce precedence e stack).2, f.Plain := by
  induction stack generalizing e with
  | nil => exact ⟨he, hs⟩
  | cons f stack ih =>
    obtain ⟨hf, hstack⟩ := List.forall_mem_cons.mp hs
    cases f with
    | group => exact ⟨he, hs⟩
    | call callee args => exact ⟨he, hs⟩
    | binary lhs op q =>
      rw [reduce]
      split
      · exact ih (Expr.plain_binary.mpr ⟨hf, he⟩) hstack
      · exact ⟨he, hs⟩

theorem plain_reduceAll (he : e.Plain) (hs : ∀ f ∈ stack, f.Plain) :
    (reduceAll e stack).1.Plain ∧ ∀ f ∈ (reduceAll e stack).2, f.Plain := by
  induction stack generalizing e with
  | nil => exact ⟨he, hs⟩
  | cons f stack ih =>
    obtain ⟨hf, hstack⟩ := List.forall_mem_cons.mp hs
    cases f with
    | group => exact ⟨he, hs⟩
    | call callee args => exact ⟨he, hs⟩
    | binary lhs op q => exact ih (Expr.plain_binary.mpr ⟨hf, he⟩) hstack

theorem plain_absorbOperand? (ht : t.Plain) (hs : ∀ f ∈ stack, f.Plain)
    (h : absorbOperand? stack t = some s') : s'.Plain := by
  cases t with
  | number x => cases h; exact ⟨Expr.plain_number x, hs⟩
  | ident x => cases h; exact ⟨ht x rfl, hs⟩
  | char c =>
    simp only [absorbOperand?] at h
    split at h
    · cases h; exact ⟨trivial, List.forall_mem_cons.mpr ⟨trivial, hs⟩⟩
    · cases h
  | keyword word => cases h

theorem plain_close? {c : Char} (he : e.Plain) (hs : ∀ f ∈ stack, f.Plain)
    (h : close? e stack c = some s') : s'.Plain := by
  have hall := plain_reduceAll he hs
  unfold close? at h
  split at h
  case h_1 e' stack' heq =>
    rw [heq] at hall
    obtain ⟨he', hstack⟩ := hall
    split at h
    · cases h; exact ⟨he', (List.forall_mem_cons.mp hstack).2⟩
    · cases h
  case h_2 e' callee args stack' heq =>
    rw [heq] at hall
    obtain ⟨he', hstack⟩ := hall
    obtain ⟨⟨hcallee, hargs⟩, hstack'⟩ := List.forall_mem_cons.mp hstack
    have hargs' : ∀ arg ∈ args ++ [e'], arg.Plain := by
      intro arg harg
      rcases List.mem_append.mp harg with harg | harg
      · exact hargs arg harg
      · exact List.mem_singleton.mp harg ▸ he'
    split at h
    · cases h; exact ⟨Expr.plain_call.mpr ⟨hcallee, hargs'⟩, hstack'⟩
    · split at h
      · cases h; exact ⟨trivial, List.forall_mem_cons.mpr ⟨⟨hcallee, hargs'⟩, hstack'⟩⟩
      · cases h
  case h_3 => cases h

theorem plain_absorbValue? {table : PrecedenceTable} (he : e.Plain) (hs : ∀ f ∈ stack, f.Plain)
    (h : absorbValue? table e stack t = some s') : s'.Plain := by
  cases t with
  | char c =>
    simp only [absorbValue?] at h
    split at h
    case h_1 precedence heq =>
      cases h
      obtain ⟨hl, hstack⟩ := plain_reduce precedence he hs
      exact ⟨trivial, List.forall_mem_cons.mpr ⟨hl, hstack⟩⟩
    case h_2 => exact plain_close? he hs h
  | number x => cases h
  | ident x => cases h
  | keyword word => cases h

theorem State.Plain.absorb? {table : PrecedenceTable} (hs : s.Plain) (ht : t.Plain)
    (h : ExprReader.absorb? table s t = some s') : s'.Plain := by
  obtain ⟨phase, stack⟩ := s
  obtain ⟨hphase, hstack⟩ := hs
  cases phase with
  | operand => exact plain_absorbOperand? ht hstack h
  | argument callee =>
    simp only [ExprReader.absorb?] at h
    split at h
    · cases h; exact ⟨Expr.plain_call.mpr ⟨hphase, by simp⟩, hstack⟩
    · have hframe : (Frame.call callee []).Plain := ⟨hphase, by simp⟩
      exact plain_absorbOperand? ht (List.forall_mem_cons.mpr ⟨hframe, hstack⟩) h
  | name x =>
    simp only [ExprReader.absorb?] at h
    split at h
    · cases h; exact ⟨hphase, hstack⟩
    · exact plain_absorbValue? (Expr.plain_var x) hstack h
  | value e => exact plain_absorbValue? hphase hstack h

theorem plain_concludeValue (he : e.Plain) (hs : ∀ f ∈ stack, f.Plain) {e' : Expr}
    (h : concludeValue e stack = .ok e') : e'.Plain := by
  have hall := plain_reduceAll he hs
  unfold concludeValue at h
  split at h
  case h_1 e₁ heq =>
    rw [heq] at hall
    cases h
    exact hall.1
  · cases h
  · cases h

theorem State.Plain.conclude (hs : s.Plain) (h : ExprReader.conclude s = .ok e) : e.Plain := by
  obtain ⟨phase, stack⟩ := s
  obtain ⟨hphase, hstack⟩ := hs
  cases phase with
  | operand => cases h
  | argument callee => cases h
  | name x => exact plain_concludeValue (Expr.plain_var x) hstack h
  | value e => exact plain_concludeValue hphase hstack h

theorem plain_start : start.Plain :=
  ⟨trivial, by simp [start]⟩

end ExprReader

/-! ## Items -/

/-- The names of an item are words; a bare expression has none of its own. -/
def Item.Plain : Item → Prop
  | .definition f => Symbol.IsWord f.proto.name ∧ f.body.Plain
  | .external proto => Symbol.IsWord proto.name
  | .expression f => f.proto = Prototype.anonymous ∧ f.body.Plain

namespace PrototypeReader

def State.Plain : State → Prop
  | .start => True
  | .named x => Symbol.IsWord x
  | .inside x _ => Symbol.IsWord x
  | .complete proto => Symbol.IsWord proto.name

theorem State.Plain.absorb? {s s' : State} {t : Token} (hs : s.Plain) (ht : t.Plain)
    (h : PrototypeReader.absorb? s t = some s') : s'.Plain := by
  unfold PrototypeReader.absorb? at h
  split at h
  case h_1 x => cases h; exact ht x rfl
  case h_2 x c => split at h <;> cases h; exact hs
  case h_3 x params param => split at h <;> cases h; exact hs
  case h_4 x params c => split at h <;> cases h; exact hs
  case h_5 => cases h

theorem State.Plain.conclude {s : State} {lookahead : Option Token} {proto : Prototype}
    (hs : s.Plain) (h : PrototypeReader.conclude s lookahead = .ok proto) :
    Symbol.IsWord proto.name := by
  cases s with
  | complete proto' => cases h; exact hs
  | _ => cases h

end PrototypeReader

namespace DefinitionReader

def State.Plain : State → Prop
  | .start => True
  | .heading s => s.Plain
  | .body proto s => Symbol.IsWord proto.name ∧ s.Plain

theorem State.Plain.absorb? {table : PrecedenceTable} {s s' : State} {t : Token} (hs : s.Plain)
    (ht : t.Plain) (h : DefinitionReader.absorb? table s t = some s') : s'.Plain := by
  unfold DefinitionReader.absorb? at h
  split at h
  case h_1 => split at h <;> cases h; trivial
  case h_2 proto =>
    obtain ⟨s₁, h₁, rfl⟩ := Option.map_eq_some_iff.mp h
    exact ⟨hs, ExprReader.plain_start.absorb? ht h₁⟩
  case h_3 s₀ _ =>
    obtain ⟨s₁, h₁, rfl⟩ := Option.map_eq_some_iff.mp h
    exact PrototypeReader.State.Plain.absorb? hs ht h₁
  case h_4 proto s₀ =>
    obtain ⟨s₁, h₁, rfl⟩ := Option.map_eq_some_iff.mp h
    exact ⟨hs.1, hs.2.absorb? ht h₁⟩

theorem State.Plain.conclude {s : State} {lookahead : Option Token} {f : Function} (hs : s.Plain)
    (h : DefinitionReader.conclude s lookahead = .ok f) :
    Symbol.IsWord f.proto.name ∧ f.body.Plain := by
  cases s with
  | start => cases h
  | heading s =>
    -- A definition without a body is not complete.
    simp only [DefinitionReader.conclude, bind, Except.bind] at h
    split at h
    · cases h
    · cases h
  | body proto s =>
    simp only [DefinitionReader.conclude, bind, Except.bind] at h
    split at h
    · cases h
    case h_2 body hbody =>
      cases h
      exact ⟨hs.1, hs.2.conclude hbody⟩

end DefinitionReader

namespace ItemReader

def State.Plain : State → Prop
  | .start => True
  | .definition s => s.Plain
  | .external (.heading s) => s.Plain
  | .external .start => True
  | .expression s => s.Plain

theorem State.Plain.absorb? {table : PrecedenceTable} {s s' : State} {t : Token} (hs : s.Plain)
    (ht : t.Plain) (h : ItemReader.absorb? table s t = some s') : s'.Plain := by
  unfold ItemReader.absorb? at h
  split at h
  case h_1 =>
    obtain ⟨s₁, h₁, rfl⟩ := Option.map_eq_some_iff.mp h
    exact DefinitionReader.State.Plain.absorb? (s := .start) trivial ht h₁
  case h_2 => cases h; trivial
  case h_3 =>
    obtain ⟨s₁, h₁, rfl⟩ := Option.map_eq_some_iff.mp h
    exact ExprReader.plain_start.absorb? ht h₁
  case h_4 s₀ =>
    obtain ⟨s₁, h₁, rfl⟩ := Option.map_eq_some_iff.mp h
    exact DefinitionReader.State.Plain.absorb? hs ht h₁
  case h_5 s₀ =>
    obtain ⟨s₁, h₁, rfl⟩ := Option.map_eq_some_iff.mp h
    cases s₀ with
    | start =>
      simp only [ExternalReader.absorb?] at h₁
      split at h₁ <;> cases h₁
      trivial
    | heading s₀ =>
      obtain ⟨s₂, h₂, rfl⟩ := Option.map_eq_some_iff.mp h₁
      exact PrototypeReader.State.Plain.absorb? hs ht h₂
  case h_6 s₀ =>
    obtain ⟨s₁, h₁, rfl⟩ := Option.map_eq_some_iff.mp h
    exact ExprReader.State.Plain.absorb? hs ht h₁

theorem State.Plain.conclude {s : State} {lookahead : Option Token} {item : Item} (hs : s.Plain)
    (h : ItemReader.conclude s lookahead = .ok item) : item.Plain := by
  cases s with
  | start => cases h
  | definition s =>
    cases hf : DefinitionReader.conclude s lookahead with
    | error cause => simp [ItemReader.conclude, hf, Except.map] at h
    | ok f =>
      simp only [ItemReader.conclude, hf, Except.map, Except.ok.injEq] at h
      subst h
      exact DefinitionReader.State.Plain.conclude hs hf
  | external s =>
    cases s with
    | start => cases h
    | heading s =>
      cases hp : PrototypeReader.conclude s lookahead with
      | error cause => simp [ItemReader.conclude, ExternalReader.conclude, hp, Except.map] at h
      | ok proto =>
        simp only [ItemReader.conclude, ExternalReader.conclude, hp, Except.map,
          Except.ok.injEq] at h
        subst h
        exact PrototypeReader.State.Plain.conclude hs hp
  | expression s =>
    cases he : ExprReader.conclude s with
    | error cause => simp [ItemReader.conclude, he, Except.map] at h
    | ok e =>
      simp only [ItemReader.conclude, he, Except.map, Except.ok.injEq] at h
      subst h
      exact ⟨rfl, ExprReader.State.Plain.conclude hs he⟩

end ItemReader

/-- What every step of a reader keeps holds where it stops. -/
theorem Reader.state_advance {σ α : Type} {r : Reader σ α} {P : σ → Prop} {Q : Token → Prop}
    (step : ∀ s t s', P s → Q t → r.absorb? s t = some s' → P s') {s : σ} {ls : List Lexeme}
    (hs : P s) (hls : ∀ l ∈ ls, Q l.value) : P (r.advance s ls).state := by
  induction ls generalizing s with
  | nil => exact hs
  | cons l ls ih =>
    obtain ⟨hl, hls⟩ := List.forall_mem_cons.mp hls
    unfold Reader.advance
    split
    · exact hs
    case h_2 s' habsorb => exact ih (step s l.value s' hs hl habsorb) hls

/-- The item was read off what was left of some text, with some table. -/
def Item.Parsed (item : Item) : Prop :=
  ∃ (table : PrecedenceTable) (text : String) (s : Stream) (span : Span),
    s.pending <:+ lexemes text ∧ s.item table = .ok ⟨item, span⟩

/-- The names of an item that was read are words. -/
theorem Item.Parsed.plain {item : Item} (h : item.Parsed) : item.Plain := by
  obtain ⟨table, text, s, span, hpending, hitem⟩ := h
  have hstate : ((Item.reader table).advance (Item.reader table).start s.pending).state.Plain :=
    Reader.state_advance (P := ItemReader.State.Plain) (Q := Token.Plain)
      (fun _ _ _ hs ht h => hs.absorb? ht h) trivial
      fun l hl => plain_lexemes text l (hpending.subset hl)
  unfold Stream.item Stream.read at hitem
  cases hc : (Item.reader table).conclude
      ((Item.reader table).advance (Item.reader table).start s.pending).state
      (s.after (Item.reader table)).peek.value with
  | error cause => rw [hc] at hitem; cases hitem
  | ok value =>
    rw [hc] at hitem
    cases hitem
    exact hstate.conclude hc

end Abacus
