-- SUMMARY: The grammar of items, and that the reader reads exactly it.
import Abacus.Proofs.Grammar

/-!
# The grammar of items

`Item.Derives table item ts rest` says that an item stands at the front of the
tokens `ts` and that `rest` comes after it. The parameters of a prototype are
distinct; the body of a definition and a bare expression go as far as they can.

A reader that absorbs tokens is a partial function on its states
(`Reader.run?`), and it stops at the first token it does not absorb. What this
says about the reader of items is put together from the same facts about the
readers of prototypes and expressions.
-/

namespace Abacus

/-! ## Runs of a reader -/

namespace Reader

variable {σ σ' α β : Type} {r : Reader σ α}

/-- The state after absorbing all of some tokens. -/
def run? (r : Reader σ α) (s : σ) (ts : List Token) : Option σ :=
  ts.foldlM r.absorb? s

/-- The reader does not absorb the next token, if there is one. -/
def Halts (r : Reader σ α) (s : σ) (rest : List Token) : Prop :=
  ∀ t, rest.head? = some t → r.absorb? s t = none

@[simp] theorem run?_nil (r : Reader σ α) (s : σ) : r.run? s [] = some s := rfl

@[simp] theorem run?_cons (r : Reader σ α) (s : σ) (t : Token) (ts : List Token) :
    r.run? s (t :: ts) = (r.absorb? s t).bind (r.run? · ts) := rfl

theorem run?_append (r : Reader σ α) (s : σ) (ts us : List Token) :
    r.run? s (ts ++ us) = (r.run? s ts).bind (r.run? · us) :=
  List.foldlM_append

theorem run?_cons_eq_some {s s' : σ} {t : Token} {ts : List Token} :
    r.run? s (t :: ts) = some s' ↔ ∃ next, r.absorb? s t = some next ∧ r.run? next ts = some s' :=
  Option.bind_eq_some_iff

theorem halts_nil (r : Reader σ α) (s : σ) : r.Halts s [] := by
  intro t ht
  cases ht

theorem halts_cons {s : σ} {t : Token} {rest : List Token} :
    r.Halts s (t :: rest) ↔ r.absorb? s t = none := by
  constructor
  · intro h
    exact h t rfl
  · intro h t' ht
    cases ht
    exact h

/-- Advancing is a run, -/
theorem run?_advance (r : Reader σ α) (s : σ) (ls : List Lexeme) :
    r.run? s (tokens (r.advance s ls).taken) = some (r.advance s ls).state := by
  induction ls generalizing s with
  | nil => rfl
  | cons l ls ih =>
    unfold advance
    split
    · rfl
    case h_2 next habsorb => exact run?_cons_eq_some.mpr ⟨next, habsorb, ih next⟩

/-- and it ends where no token is absorbed. -/
theorem halts_advance (r : Reader σ α) (s : σ) (ls : List Lexeme) :
    r.Halts (r.advance s ls).state (tokens (r.advance s ls).rest) := by
  induction ls generalizing s with
  | nil => exact r.halts_nil s
  | cons l ls ih =>
    unfold advance
    split
    case h_1 habsorb => exact halts_cons.mpr habsorb
    case h_2 next habsorb => exact ih next

/-- From every state the reader runs as far as it can. -/
theorem exists_run? (r : Reader σ α) (s : σ) (ts : List Token) :
    ∃ us s' rest, ts = us ++ rest ∧ r.run? s us = some s' ∧ r.Halts s' rest := by
  induction ts generalizing s with
  | nil => exact ⟨[], s, [], rfl, rfl, r.halts_nil s⟩
  | cons t ts ih =>
    cases habsorb : r.absorb? s t with
    | none => exact ⟨[], s, t :: ts, rfl, rfl, halts_cons.mpr habsorb⟩
    | some next =>
      obtain ⟨us, s', rest, rfl, hrun, hhalts⟩ := ih next
      exact ⟨t :: us, s', rest, rfl, run?_cons_eq_some.mpr ⟨next, habsorb, hrun⟩, hhalts⟩

theorem advance_of_halts {s : σ} {ls : List Lexeme} (h : r.Halts s (tokens ls)) :
    r.advance s ls = ⟨[], s, ls⟩ := by
  cases ls with
  | nil => rfl
  | cons l ls =>
    have habsorb : r.absorb? s l.value = none := halts_cons.mp h
    simp only [advance, habsorb]

/-- Behind a run, the reader advances from where the run ended. -/
theorem advance_append {s s' : σ} {ls : List Lexeme} (h : r.run? s (tokens ls) = some s')
    (ms : List Lexeme) :
    r.advance s (ls ++ ms) =
      ⟨ls ++ (r.advance s' ms).taken, (r.advance s' ms).state, (r.advance s' ms).rest⟩ := by
  induction ls generalizing s with
  | nil =>
    cases h
    rfl
  | cons l ls ih =>
    obtain ⟨next, habsorb, hrun⟩ := run?_cons_eq_some.mp h
    simp only [List.cons_append, advance, habsorb, ih hrun]

/-- Advancing is the one run that ends where no token is absorbed. -/
theorem advance_eq_iff {s s' : σ} {ls taken rest : List Lexeme} :
    r.advance s ls = ⟨taken, s', rest⟩ ↔
      ls = taken ++ rest ∧ r.run? s (tokens taken) = some s' ∧ r.Halts s' (tokens rest) := by
  constructor
  · intro h
    have hall := r.taken_append_rest s ls
    have hrun := r.run?_advance s ls
    have hhalts := r.halts_advance s ls
    simp only [h] at hall hrun hhalts
    exact ⟨hall.symm, hrun, hhalts⟩
  · intro h
    obtain ⟨rfl, hrun, hhalts⟩ := h
    simp only [advance_append hrun, advance_of_halts hhalts, List.append_nil]

section Inside

variable {r' : Reader σ' β} {ρ : σ → σ'}

/-- A reader that absorbs as another one does inside it runs as the other does. -/
theorem run?_map (h : ∀ s t, r'.absorb? (ρ s) t = (r.absorb? s t).map ρ) (s : σ)
    (ts : List Token) : r'.run? (ρ s) ts = (r.run? s ts).map ρ := by
  induction ts generalizing s with
  | nil => rfl
  | cons t ts ih =>
    simp only [run?_cons, h]
    cases r.absorb? s t with
    | none => rfl
    | some next => exact ih next

theorem halts_map (h : ∀ s t, r'.absorb? (ρ s) t = (r.absorb? s t).map ρ) (s : σ)
    (rest : List Token) : r'.Halts (ρ s) rest ↔ r.Halts s rest := by
  simp only [Halts, h, Option.map_eq_none_iff]

end Inside

end Reader

variable {table : PrecedenceTable}

/-! ## Expressions -/

open ExprReader in
theorem Reads.run? {s s' : ExprReader.State} {ts rest : List Token}
    (h : Reads table s ts s' rest) :
    ∃ us, ts = us ++ rest ∧ (Expr.reader table).run? s us = some s' := by
  induction h with
  | refl s ts => exact ⟨[], rfl, rfl⟩
  | @step s next _ t _ _ hstep _ ih =>
    obtain ⟨us, rfl, hrun⟩ := ih
    exact ⟨t :: us, rfl, Reader.run?_cons_eq_some.mpr ⟨next, hstep, hrun⟩⟩

open ExprReader in
theorem Holds.run? {source us rest : List Token} {s s' : ExprReader.State}
    (h : Holds table source s (us ++ rest)) (hrun : (Expr.reader table).run? s us = some s') :
    Holds table source s' rest := by
  induction us generalizing s with
  | nil =>
    cases hrun
    exact h
  | cons t us ih =>
    obtain ⟨next, hstep, hrun⟩ := Reader.run?_cons_eq_some.mp hrun
    exact ih (h.step hstep) hrun

/-- An expression is what a run that has one to show, and must stop, went over. -/
theorem Derives.expression_iff_run? {e : Expr} {source rest : List Token} :
    Derives table (.expression e) source rest ↔
      ∃ ts s, source = ts ++ rest ∧ (Expr.reader table).run? ExprReader.start ts = some s ∧
        ExprReader.conclude s = .ok e ∧ (Expr.reader table).Halts s rest := by
  constructor
  · intro h
    obtain ⟨s, e', stack, hreads, hready, hreduce⟩ := h.drives [] trivial
    obtain ⟨ts, hsource, hrun⟩ := hreads.run?
    refine ⟨ts, s, hsource, hrun, ?_, ?_⟩
    · rw [hready.conclude, ExprReader.concludeValue, hreduce]
    · cases rest with
      | nil => exact Reader.halts_nil _ s
      | cons t rest => exact Reader.halts_cons.mpr (hready.absorb_eq_none h.stops hreduce)
  · intro h
    obtain ⟨ts, s, rfl, hrun, hconclude, hhalts⟩ := h
    have hstart : Holds table (ts ++ rest) ExprReader.start (ts ++ rest) := .first .start
    exact (hstart.run? hrun).conclude hhalts hconclude

/-! ## Prototypes -/

/-- The tokens of a prototype. -/
def Prototype.tokens (proto : Prototype) : List Token :=
  .ident proto.name :: .char '(' :: (proto.params.map .ident ++ [.char ')'])

namespace PrototypeReader

/-- The tokens that lead to a state. -/
def State.tokens : State → List Token
  | .start => []
  | .named name => [.ident name]
  | .inside name params => .ident name :: .char '(' :: params.map .ident
  | .complete proto => proto.tokens

/-- The parameters read so far. -/
def State.params : State → List String
  | .inside _ params => params
  | .complete proto => proto.params
  | _ => []

theorem absorb?_eq_some {s s' : State} {t : Token} (h : absorb? s t = some s') :
    s'.tokens = s.tokens ++ [t] ∧ (s.params.Nodup → s'.params.Nodup) := by
  unfold absorb? at h
  split at h
  case h_1 name =>
    cases h
    exact ⟨rfl, id⟩
  case h_2 name c =>
    split at h
    case isTrue hc =>
      cases h
      subst hc
      exact ⟨rfl, id⟩
    case isFalse => cases h
  case h_3 name params param =>
    split at h
    case isTrue => cases h
    case isFalse hparam =>
      cases h
      refine ⟨by simp [State.tokens], ?_⟩
      intro hnodup
      simp only [State.params] at hnodup ⊢
      exact List.nodup_append.mpr ⟨hnodup, by simp, by grind⟩
  case h_4 name params c =>
    split at h
    case isTrue hc =>
      cases h
      subst hc
      exact ⟨rfl, id⟩
    case isFalse => cases h
  case h_5 => cases h

/-- A prototype that is complete stays as it is. -/
theorem absorb?_complete (proto : Prototype) (t : Token) : absorb? (.complete proto) t = none := by
  cases t <;> rfl

theorem run?_params {name : String} {done params : List String} (h : (done ++ params).Nodup) :
    Prototype.reader.run? (.inside name done) (params.map .ident) =
      some (.inside name (done ++ params)) := by
  induction params generalizing done with
  | nil => simp
  | cons param params ih =>
    have hfresh : param ∉ done := by grind
    have habsorb : Prototype.reader.absorb? (.inside name done) (.ident param) =
        some (.inside name (done ++ [param])) := if_neg hfresh
    have hnodup : ((done ++ [param]) ++ params).Nodup := by simpa using h
    simp only [List.map_cons, Reader.run?_cons, habsorb, Option.bind_some, ih hnodup,
      List.append_assoc, List.singleton_append]

/-- A run spells the state it leads to. -/
theorem tokens_of_run? {s s' : State} {ts : List Token}
    (h : Prototype.reader.run? s ts = some s') :
    s'.tokens = s.tokens ++ ts ∧ (s.params.Nodup → s'.params.Nodup) := by
  induction ts generalizing s with
  | nil =>
    cases h
    exact ⟨(List.append_nil _).symm, id⟩
  | cons t ts ih =>
    obtain ⟨next, habsorb, hrun⟩ := Reader.run?_cons_eq_some.mp h
    have hnext := absorb?_eq_some habsorb
    have hih := ih hrun
    refine ⟨?_, hih.2 ∘ hnext.2⟩
    rw [hih.1, hnext.1, List.append_assoc, List.singleton_append]

/-- A state is reached by the tokens that it stands for, and by no others. -/
theorem run?_start_iff {ts : List Token} {s : State} :
    Prototype.reader.run? .start ts = some s ↔ ts = s.tokens ∧ s.params.Nodup := by
  constructor
  · intro hrun
    have h := tokens_of_run? hrun
    exact ⟨h.1.symm, h.2 List.nodup_nil⟩
  · intro h
    obtain ⟨rfl, hnodup⟩ := h
    cases s with
    | start => rfl
    | named name => rfl
    | inside name params => exact run?_params hnodup
    | complete proto =>
      have hparams : Prototype.reader.run? (.inside proto.name []) (proto.params.map .ident) =
          some (.inside proto.name proto.params) := run?_params hnodup
      have hclose : Prototype.reader.run? (.inside proto.name [])
          (proto.params.map .ident ++ [.char ')']) = some (.complete proto) := by
        simp only [Reader.run?_append, hparams]
        rfl
      exact hclose

end PrototypeReader

/-! ## Items -/

inductive Item.Derives (table : PrecedenceTable) : Item → List Token → List Token → Prop where
  | definition {proto : Prototype} {body : Expr} {ts rest : List Token}
      (hparams : proto.params.Nodup) (hbody : Abacus.Derives table (.expression body) ts rest) :
      Item.Derives table (.definition ⟨proto, body⟩)
        (.keyword .define :: (proto.tokens ++ ts)) rest
  | external {proto : Prototype} (rest : List Token) (hparams : proto.params.Nodup) :
      Item.Derives table (.external proto) (.keyword .declare :: (proto.tokens ++ rest)) rest
  | expression {body : Expr} {ts rest : List Token}
      (h : Abacus.Derives table (.expression body) ts rest) :
      Item.Derives table (.expression (.ofExpr body)) ts rest

namespace ItemReader

/-- The state has a complete item to show. -/
inductive Finished : State → Item → Prop where
  | definition (proto : Prototype) {s : ExprReader.State} {body : Expr}
      (h : ExprReader.conclude s = .ok body) :
      Finished (.definition (.body proto s)) (.definition ⟨proto, body⟩)
  | external (proto : Prototype) :
      Finished (.external (.heading (.complete proto))) (.external proto)
  | expression {s : ExprReader.State} {body : Expr} (h : ExprReader.conclude s = .ok body) :
      Finished (.expression s) (.expression (.ofExpr body))

/-- Whether an item is complete does not depend on what comes next. -/
theorem conclude_eq_ok_iff {s : State} {item : Item} (lookahead : Option Token) :
    conclude s lookahead = .ok item ↔ Finished s item := by
  constructor
  · intro h
    cases s with
    | start => cases h
    | definition s =>
      cases s with
      | start => cases h
      | heading p => cases p <;> cases h
      | body proto s =>
        simp only [conclude, DefinitionReader.conclude] at h
        cases hbody : ExprReader.conclude s with
        | error cause =>
          rw [hbody] at h
          cases h
        | ok body =>
          rw [hbody] at h
          cases h
          exact .definition proto hbody
    | external s =>
      cases s with
      | start => cases h
      | heading p =>
        cases p with
        | complete proto =>
          cases h
          exact .external proto
        | _ => cases h
    | expression s =>
      simp only [conclude] at h
      cases hbody : ExprReader.conclude s with
      | error cause =>
        rw [hbody] at h
        cases h
      | ok body =>
        rw [hbody] at h
        cases h
        exact .expression hbody
  · intro h
    cases h with
    | definition proto hbody =>
      simp only [conclude, DefinitionReader.conclude, hbody]
      rfl
    | external proto => rfl
    | expression hbody =>
      simp only [conclude, hbody]
      rfl

/-! ### Runs

Inside an item the reader runs as the reader of the part it is in. -/

theorem run?_expression (table : PrecedenceTable) (s : ExprReader.State) (ts : List Token) :
    (Item.reader table).run? (.expression s) ts =
      ((Expr.reader table).run? s ts).map .expression :=
  Reader.run?_map (fun _ _ => rfl) s ts

theorem run?_external (table : PrecedenceTable) (s : PrototypeReader.State) (ts : List Token) :
    (Item.reader table).run? (.external (.heading s)) ts =
      (Prototype.reader.run? s ts).map fun s => .external (.heading s) := by
  apply Reader.run?_map (ρ := fun s => State.external (.heading s))
  intro s t
  exact Option.map_map ..

theorem absorb?_body (table : PrecedenceTable) (proto : Prototype) (s : ExprReader.State)
    (t : Token) :
    (Item.reader table).absorb? (.definition (.body proto s)) t =
      ((Expr.reader table).absorb? s t).map fun s => .definition (.body proto s) :=
  Option.map_map ..

theorem run?_body (table : PrecedenceTable) (proto : Prototype) (s : ExprReader.State)
    (ts : List Token) :
    (Item.reader table).run? (.definition (.body proto s)) ts =
      ((Expr.reader table).run? s ts).map fun s => .definition (.body proto s) :=
  Reader.run?_map (ρ := fun s => State.definition (.body proto s)) (absorb?_body table proto) s ts

theorem absorb?_heading {p : PrototypeReader.State} (h : ∀ proto, p ≠ .complete proto)
    (t : Token) :
    (Item.reader table).absorb? (.definition (.heading p)) t =
      (Prototype.reader.absorb? p t).map fun p => .definition (.heading p) := by
  cases p with
  | complete proto => exact absurd rfl (h proto)
  | _ => exact Option.map_map ..

/-- The prototype of a definition is read as a prototype is, -/
theorem run?_heading {p p' : PrototypeReader.State} {ts : List Token}
    (h : Prototype.reader.run? p ts = some p') :
    (Item.reader table).run? (.definition (.heading p)) ts = some (.definition (.heading p')) := by
  induction ts generalizing p with
  | nil =>
    cases h
    rfl
  | cons t ts ih =>
    obtain ⟨next, habsorb, hrun⟩ := Reader.run?_cons_eq_some.mp h
    have hp : ∀ proto, p ≠ .complete proto := by
      intro proto hp
      subst hp
      cases (PrototypeReader.absorb?_complete proto t).symm.trans habsorb
    apply Reader.run?_cons_eq_some.mpr
    refine ⟨.definition (.heading next), ?_, ih hrun⟩
    simp only [absorb?_heading hp, habsorb, Option.map_some]

/-- and its body, from where the prototype is complete, as an expression. -/
theorem run?_heading_cases {p : PrototypeReader.State} {ts : List Token} {s : State}
    (h : (Item.reader table).run? (.definition (.heading p)) ts = some s) :
    (∃ p', Prototype.reader.run? p ts = some p' ∧ s = .definition (.heading p')) ∨
    (∃ us vs proto es, ts = us ++ vs ∧ Prototype.reader.run? p us = some (.complete proto) ∧
      (Expr.reader table).run? ExprReader.start vs = some es ∧ s = .definition (.body proto es)) := by
  induction ts generalizing p with
  | nil =>
    cases h
    exact .inl ⟨p, rfl, rfl⟩
  | cons t ts ih =>
    by_cases hp : ∀ proto, p ≠ .complete proto
    · obtain ⟨next, habsorb, hrun⟩ := Reader.run?_cons_eq_some.mp h
      rw [absorb?_heading hp] at habsorb
      obtain ⟨p₁, hp₁, rfl⟩ := Option.map_eq_some_iff.mp habsorb
      cases ih hrun with
      | inl h =>
        obtain ⟨p', hrun', hs⟩ := h
        exact .inl ⟨p', Reader.run?_cons_eq_some.mpr ⟨p₁, hp₁, hrun'⟩, hs⟩
      | inr h =>
        obtain ⟨us, vs, proto, es, rfl, hproto, hbody, hs⟩ := h
        exact .inr ⟨t :: us, vs, proto, es, rfl,
          Reader.run?_cons_eq_some.mpr ⟨p₁, hp₁, hproto⟩, hbody, hs⟩
    · obtain ⟨proto, hproto⟩ := Classical.not_forall.mp hp
      cases Classical.not_not.mp hproto
      have hbody : (Item.reader table).run? (.definition (.body proto ExprReader.start)) (t :: ts) =
          some s := h
      rw [run?_body] at hbody
      obtain ⟨es, hrun, rfl⟩ := Option.map_eq_some_iff.mp hbody
      exact .inr ⟨[], t :: ts, proto, es, rfl, rfl, hrun, rfl⟩

theorem run?_definition {proto : Prototype} (hparams : proto.params.Nodup)
    {ts : List Token} {es : ExprReader.State} (hts : ts ≠ [])
    (h : (Expr.reader table).run? ExprReader.start ts = some es) :
    (Item.reader table).run? .start (.keyword .define :: (proto.tokens ++ ts)) =
      some (.definition (.body proto es)) := by
  have hproto : Prototype.reader.run? .start proto.tokens = some (.complete proto) :=
    PrototypeReader.run?_start_iff.mpr ⟨rfl, hparams⟩
  -- A heading that is complete goes on as an empty body does, but is not one yet.
  have hbody : (Item.reader table).run? (.definition (.heading (.complete proto))) ts =
      (Item.reader table).run? (.definition (.body proto ExprReader.start)) ts := by
    cases ts with
    | nil => exact absurd rfl hts
    | cons t ts => rfl
  apply Reader.run?_cons_eq_some.mpr
  refine ⟨.definition (.heading .start), rfl, ?_⟩
  simp only [Reader.run?_append, run?_heading hproto, Option.bind_some, hbody, run?_body, h,
    Option.map_some]

/-- A first token that is no keyword starts a bare expression. -/
theorem run?_start {t : Token} (h : ∀ word, t ≠ .keyword word) (ts : List Token) :
    (Item.reader table).run? .start (t :: ts) =
      ((Expr.reader table).run? ExprReader.start (t :: ts)).map .expression := by
  cases t with
  | keyword word => exact absurd rfl (h word)
  | _ => exact run?_expression table ExprReader.start (_ :: ts)

/-- The only character that starts an item is an open parenthesis. -/
theorem eq_of_absorb?_char {c : Char} {s : State}
    (h : absorb? table .start (.char c) = some s) : c = '(' := by
  simp only [absorb?, ExprReader.absorb?, ExprReader.start, ExprReader.absorbOperand?] at h
  split at h
  case isTrue hc => exact hc
  case isFalse => cases h

end ItemReader

/-- A run of the expression reader that ends in an expression has a first token,
    which is no keyword. -/
theorem Expr.run?_cases {ts : List Token} {s : ExprReader.State} {e : Expr}
    (hrun : (Expr.reader table).run? ExprReader.start ts = some s)
    (he : ExprReader.conclude s = .ok e) :
    ∃ t us, ts = t :: us ∧ ∀ word, t ≠ .keyword word := by
  cases ts with
  | nil =>
    cases hrun
    cases he
  | cons t us =>
    refine ⟨t, us, rfl, ?_⟩
    intro word ht
    subst ht
    cases hrun

namespace Item

/-- A run over an item, and the end of it. -/
theorem Derives.exists_run? {item : Item} {source rest : List Token}
    (h : Item.Derives table item source rest) :
    ∃ ts s, source = ts ++ rest ∧ (Item.reader table).run? .start ts = some s ∧
      ItemReader.Finished s item ∧ (Item.reader table).Halts s rest := by
  cases h with
  | @definition proto body source _ hparams hbody =>
    obtain ⟨ts, s, rfl, hrun, he, hhalts⟩ := Abacus.Derives.expression_iff_run?.mp hbody
    have hts : ts ≠ [] := by
      obtain ⟨t, us, rfl, -⟩ := Expr.run?_cases hrun he
      exact List.cons_ne_nil t us
    refine ⟨.keyword .define :: (proto.tokens ++ ts), .definition (.body proto s), ?_,
      ItemReader.run?_definition hparams hts hrun, .definition proto he, ?_⟩
    · simp only [List.cons_append, List.append_assoc]
    · exact (Reader.halts_map (ItemReader.absorb?_body table proto) s rest).mpr hhalts
  | @external proto _ hparams =>
    have hproto : Prototype.reader.run? .start proto.tokens = some (.complete proto) :=
      PrototypeReader.run?_start_iff.mpr ⟨rfl, hparams⟩
    refine ⟨.keyword .declare :: proto.tokens, .external (.heading (.complete proto)), rfl, ?_,
      .external proto, ?_⟩
    · apply Reader.run?_cons_eq_some.mpr
      refine ⟨.external (.heading .start), rfl, ?_⟩
      simp only [ItemReader.run?_external, hproto, Option.map_some]
    · intro t _
      cases t <;> rfl
  | @expression body _ _ h =>
    obtain ⟨ts, s, rfl, hrun, he, hhalts⟩ := Abacus.Derives.expression_iff_run?.mp h
    obtain ⟨t, us, rfl, ht⟩ := Expr.run?_cases hrun he
    refine ⟨t :: us, .expression s, rfl, ?_, .expression he, ?_⟩
    · simp only [ItemReader.run?_start ht, hrun, Option.map_some]
    · exact (Reader.halts_map (fun _ _ => rfl) s rest).mpr hhalts

/-- A run that has an item to show, and must stop, went over that item. -/
theorem Derives.of_run? {item : Item} {ts rest : List Token} {s : ItemReader.State}
    (hrun : (Item.reader table).run? .start ts = some s) (hitem : ItemReader.Finished s item)
    (hhalts : (Item.reader table).Halts s rest) : Item.Derives table item (ts ++ rest) rest := by
  cases ts with
  | nil =>
    cases hrun
    cases hitem
  | cons t ts =>
    by_cases ht : ∀ word, t ≠ .keyword word
    · rw [ItemReader.run?_start ht] at hrun
      obtain ⟨es, hes, rfl⟩ := Option.map_eq_some_iff.mp hrun
      cases hitem with
      | expression he =>
        refine .expression (Abacus.Derives.expression_iff_run?.mpr ⟨_, es, rfl, hes, he, ?_⟩)
        exact (Reader.halts_map (fun _ _ => rfl) es rest).mp hhalts
    · obtain ⟨word, hword⟩ := Classical.not_forall.mp ht
      cases Classical.not_not.mp hword
      cases word with
      | define =>
        have hrun : (Item.reader table).run? (.definition (.heading .start)) ts = some s := hrun
        cases ItemReader.run?_heading_cases hrun with
        | inl h =>
          obtain ⟨p, -, rfl⟩ := h
          cases hitem
        | inr h =>
          obtain ⟨us, vs, proto, es, rfl, hproto, hbody, rfl⟩ := h
          obtain ⟨rfl, hparams⟩ := PrototypeReader.run?_start_iff.mp hproto
          cases hitem with
          | definition proto he =>
            have hhalts : (Expr.reader table).Halts es rest :=
              (Reader.halts_map (ItemReader.absorb?_body table proto) es rest).mp hhalts
            have hderives := Abacus.Derives.expression_iff_run?.mpr ⟨vs, es, rfl, hbody, he, hhalts⟩
            rw [List.cons_append, List.append_assoc]
            exact .definition hparams hderives
      | declare =>
        have hrun : (Item.reader table).run? (.external (.heading .start)) ts = some s := hrun
        rw [ItemReader.run?_external] at hrun
        obtain ⟨p, hproto, rfl⟩ := Option.map_eq_some_iff.mp hrun
        obtain ⟨rfl, hparams⟩ := PrototypeReader.run?_start_iff.mp hproto
        cases hitem with
        | external proto => exact .external rest hparams

end Item

end Abacus
