-- SUMMARY: What the first pass of generating a function accepts, the second emits.
import Abacus.Proofs.Names
import Abacus.Proofs.Resolving
import Mathlib.Data.List.Forall2

/-!
# Two passes

A function is resolved by symbols and emitted by source names. The passes agree: once
the function may be defined and its body is resolved, it is declared and its code
emitted, unless it calls its own symbol by another name. Each call in the code then
refers to the declaration that the open unit has for the symbol of the callee, and
passes as many arguments as that has parameters.
-/

namespace Abacus

/-! ## Calls of a body -/

namespace Expr

mutual

/-- The calls of an expression in the order they are made: the callee, and how many
    arguments it gets. -/
def sites : Expr → List (String × Nat)
  | .number _ => []
  | .var _ => []
  | .binary _ lhs rhs => lhs.sites ++ rhs.sites
  | .call callee args => sitesAll args ++ [(callee, args.length)]

def sitesAll : List Expr → List (String × Nat)
  | [] => []
  | arg :: args => arg.sites ++ sitesAll args

end

variable {params : List String} {calls : String → Nat → Prop}

theorem mem_sitesAll {args : List Expr} {site : String × Nat} :
    site ∈ sitesAll args ↔ ∃ arg ∈ args, site ∈ arg.sites := by
  induction args with
  | nil => simp [sitesAll]
  | cons arg args ih => simp [sitesAll, ih]

theorem exists_site {e : Expr} {c : String} (h : c ∈ e.callees) : ∃ n, (c, n) ∈ e.sites := by
  induction e with
  | number x => cases h
  | var name => cases h
  | binary op lhs rhs ihl ihr =>
    rw [callees, List.mem_append] at h
    rcases h with h | h
    · obtain ⟨n, hn⟩ := ihl h
      exact ⟨n, List.mem_append_left _ hn⟩
    · obtain ⟨n, hn⟩ := ihr h
      exact ⟨n, List.mem_append_right _ hn⟩
  | call callee args ih =>
    rw [callees, List.mem_cons, mem_calleesAll] at h
    rcases h with rfl | ⟨arg, harg, h⟩
    · exact ⟨args.length, List.mem_append_right _ (List.mem_singleton_self _)⟩
    · obtain ⟨n, hn⟩ := ih arg harg h
      exact ⟨n, List.mem_append_left _ (mem_sitesAll.mpr ⟨arg, harg, hn⟩)⟩

/-- The calls of an expression that stays within its scope are allowed. -/
theorem Scoped.allowed {e : Expr} (h : e.Scoped params calls) :
    ∀ site ∈ e.sites, calls site.1 site.2 := by
  induction h with
  | number x => simp [sites]
  | var param => simp [sites]
  | binary operator left right ihl ihr =>
    intro site hsite
    rcases List.mem_append.mp hsite with hsite | hsite
    · exact ihl site hsite
    · exact ihr site hsite
  | call allowed arguments ih =>
    intro site hsite
    rcases List.mem_append.mp hsite with hsite | hsite
    · obtain ⟨arg, harg, hsite⟩ := mem_sitesAll.mp hsite
      exact ih arg harg site hsite
    · obtain rfl := List.mem_singleton.mp hsite
      exact allowed

/-- There is no objection to an expression that stays within its scope. -/
theorem objection?_of_scoped {arity? : String → Option Nat} {e : Expr}
    (h : e.Scoped params fun callee n => arity? callee = some n) :
    e.objection? params arity? = none := by
  induction h with
  | number x => rfl
  | var param => rw [objection?, if_pos param]
  | binary operator left right ihl ihr => rw [objection?, ihl, ihr, if_pos operator]; rfl
  | call allowed arguments ih =>
    rw [objection?_call_of_some allowed, if_pos rfl]
    exact objectionAll?_eq_none.mpr ih

end Expr

namespace Code

/-! ## Calls of code -/

/-- What is called and with which operands. -/
def Instr.call? {κ : Type} : Instr κ → Option (κ × List Nat)
  | .call callee args => some (callee, args)
  | _ => none

/-- The calls of code, in order. -/
def sites (code : List (Instr FuncRef)) : List (FuncRef × List Nat) :=
  code.filterMap Instr.call?

@[simp] theorem sites_append (code code' : List (Instr FuncRef)) :
    sites (code ++ code') = sites code ++ sites code' :=
  List.filterMap_append

variable {scope : Scope} {draft draft' : Draft} {made : List (String × Nat)}

/-- A call in code refers to the callee of a call in a body, and has as many
    arguments. -/
def Scope.Renders (scope : Scope) (site : String × Nat) (call : FuncRef × List Nat) : Prop :=
  call.2.length = site.2 ∧ ∃ index d, scope.callee? site.1 = some d ∧ call.1 = .to index d

theorem sites_emitOperator {op : Char} {a b v : Nat}
    (h : emitOperator scope op a b draft = .ok (v, draft')) :
    sites draft'.code = sites draft.code := by
  rcases emitOperator_ok h with ⟨-, h⟩ | ⟨-, h⟩ | ⟨-, h⟩ | ⟨-, i, -, -, rfl⟩
  case inr.inr.inr => simp [sites, Instr.call?]
  all_goals
    cases h
    simp [sites, Instr.call?]

theorem renders_emitAll {args : List Expr} {values : List Nat}
    (ih : ∀ arg ∈ args, ∀ {draft draft' v made}, emit scope arg draft = .ok (v, draft') →
      List.Forall₂ scope.Renders made (sites draft.code) →
      List.Forall₂ scope.Renders (made ++ arg.sites) (sites draft'.code))
    (h : emitAll scope args draft = .ok (values, draft'))
    (hmade : List.Forall₂ scope.Renders made (sites draft.code)) :
    List.Forall₂ scope.Renders (made ++ Expr.sitesAll args) (sites draft'.code) ∧
      values.length = args.length := by
  induction args generalizing draft values made with
  | nil =>
    cases h
    simpa [Expr.sitesAll] using hmade
  | cons arg args ihargs =>
    obtain ⟨a, d, as, ha, has, rfl⟩ := emitAll_cons.mp h
    have harg := ih arg List.mem_cons_self ha hmade
    obtain ⟨hargs, hlen⟩ := ihargs (fun arg harg => ih arg (List.mem_cons_of_mem _ harg)) has harg
    rw [Expr.sitesAll, ← List.append_assoc]
    exact ⟨hargs, congrArg Nat.succ hlen⟩

/-- Emission adds the calls of an expression, one for one and in their order. -/
theorem renders_emit {e : Expr} {v : Nat} (h : emit scope e draft = .ok (v, draft'))
    (hmade : List.Forall₂ scope.Renders made (sites draft.code)) :
    List.Forall₂ scope.Renders (made ++ e.sites) (sites draft'.code) := by
  induction e generalizing draft draft' v made with
  | number x =>
    cases h
    have hnone : sites [Instr.const x] = [] := rfl
    simpa [hnone, Expr.sites] using hmade
  | var name =>
    obtain ⟨-, rfl⟩ := emit_var.mp h
    simpa [Expr.sites] using hmade
  | binary op lhs rhs ihl ihr =>
    obtain ⟨a, d₁, b, d₂, ha, hb, hop⟩ := emit_binary.mp h
    rw [sites_emitOperator hop, Expr.sites, ← List.append_assoc]
    exact ihr hb (ihl ha hmade)
  | call callee args ih =>
    obtain ⟨decl, values, d, hdecl, hvalues, hpush⟩ := emit_call.mp h
    obtain ⟨hargs, hlen⟩ := renders_emitAll (fun arg harg => ih arg harg) hvalues hmade
    cases hpush
    rw [sites_append, Expr.sites, ← List.append_assoc]
    exact List.rel_append hargs (.cons ⟨hlen, _, decl, hdecl, rfl⟩ .nil)

theorem renders_ofExpr {decl : Declaration} {body : Expr} {r : Routine FuncRef}
    (h : Routine.ofExpr decl scope body = .ok r) :
    List.Forall₂ scope.Renders body.sites (sites r.code) := by
  obtain ⟨v, d, hemit, rfl⟩ := ofExpr_ok.mp h
  exact renders_emit hemit .nil

/-- Code is emitted for a body that calls what is in scope, with as many arguments as
    it has parameters. -/
theorem exists_ofExpr (decl : Declaration) {body : Expr}
    (h : body.Scoped scope.params fun c n => ∃ d, scope.callee? c = some d ∧ d.arity = n) :
    ∃ r, Routine.ofExpr decl scope body = .ok r := by
  have hscoped : body.Scoped scope.params fun c n =>
      (scope.callee? c).map (·.arity) = some n :=
    h.imp fun c _ n hc => Option.map_eq_some_iff.mpr hc
  have hcallees : ∀ c ∈ body.callees, ∃ d, scope.callee? c = some d := by
    intro c hc
    obtain ⟨n, hsite⟩ := Expr.exists_site hc
    obtain ⟨d, hd, -⟩ := h.allowed _ hsite
    exact ⟨d, hd⟩
  obtain ⟨v, d, hemit⟩ := exists_emit (Expr.objection?_of_scoped hscoped) hcallees {}
  exact ⟨_, ofExpr_ok.mpr ⟨v, d, hemit, rfl⟩⟩

end Code

namespace Build

open Workspace

variable {s s₁ s₂ s₃ : World} {f : Function} {symbol : String} {callees : Callees}

/-! ## The second pass -/

/-- A symbol that may be defined has no body and the right number of parameters where the
    open unit lists it. -/
theorem checkDefinition_ok {name : String} {arity : Nat}
    (h : checkDefinition name symbol arity s = .ok () s₁) :
    s₁ = s ∧ ∀ d, s.workspace.unit.find? symbol = some d →
      d.hasBody = false ∧ d.arity = arity := by
  rw [checkDefinition_apply] at h
  cases hobj : objection? name arity (s.workspace.declarations symbol) with
  | some e => rw [hobj] at h; cases h
  | none =>
    rw [hobj] at h
    cases h
    refine ⟨rfl, fun d hd => objection?_eq_none.mp hobj d ?_⟩
    rw [← currentDeclaration?_eq] at hd
    simp [declarations, hd]

/-- The callees in scope are those that the unit lists under the symbols of their
    names, the function itself included. -/
theorem find?_of_scope {u : CodeUnit} {decl : Declaration}
    (hsymbol : f.proto.isAnonymous = false → symbol = Symbol.legalize f.proto.name)
    (hdecl : u.find? symbol = some decl) (hl : Lists symbol u callees) {c : String} {d : Declaration}
    (h : Code.Scope.callee? ⟨f.proto.params, withOwn f.proto decl callees⟩ c = some d) :
    u.find? (Symbol.legalize c) = some d := by
  rcases callee?_withOwn h with ⟨hnamed, rfl, rfl⟩ | hmem
  · rwa [← hsymbol hnamed]
  · exact (hl c d hmem).2

/-- What a body may call has as many parameters as it is called with, where the unit lists
    it. -/
theorem arity_of_callable {decl d : Declaration} {u : CodeUnit} {c : String} {n : Nat}
    (hdecl : u.find? symbol = some decl) (harity : decl.arity = f.proto.arity)
    (hl : Lists symbol u callees) (h : Callable f.proto symbol callees c n)
    (hd : u.find? (Symbol.legalize c) = some d) : d.arity = n := by
  unfold Callable at h
  split at h
  case isTrue hs =>
    rw [hs, hdecl] at hd
    cases hd
    exact harity.trans h
  case isFalse hs =>
    obtain ⟨e, he, ha⟩ := h
    rw [(hl c e he).2] at hd
    cases hd
    exact ha

/-- A body that was resolved calls what is in scope once its function is declared. -/
theorem scoped_of_callable {decl : Declaration} {u : CodeUnit}
    (hsymbol : f.proto.isAnonymous = false → symbol = Symbol.legalize f.proto.name)
    (hdecl : u.find? symbol = some decl) (harity : decl.arity = f.proto.arity)
    (hl : Lists symbol u callees) (hown : ¬ CallsItselfByAnotherName f symbol)
    (h : f.body.Scoped f.proto.params (Callable f.proto symbol callees)) :
    f.body.Scoped f.proto.params fun c n => ∃ d,
      Code.Scope.callee? ⟨f.proto.params, withOwn f.proto decl callees⟩ c = some d ∧ d.arity = n := by
  refine h.imp fun c hc n hcall => ?_
  have hknown : (f.proto.isAnonymous = false ∧ c = f.proto.name) ∨ ∃ d, (c, d) ∈ callees := by
    by_cases hs : Symbol.legalize c = symbol
    · left
      by_contra hne
      exact hown ⟨c, hc, hs, hne⟩
    · rw [Callable, if_neg hs] at hcall
      obtain ⟨e, he, -⟩ := hcall
      exact .inr ⟨e, he⟩
  obtain ⟨d, hd⟩ := exists_callee?_withOwn hknown
  have hfind := find?_of_scope hsymbol hdecl hl hd
  exact ⟨d, hd, arity_of_callable hdecl harity hl hcall hfind⟩

/-- Recording a body for a symbol keeps all that callers go by. -/
theorem find?_define {u : CodeUnit} {r : Code.Routine Code.FuncRef} {t : String} {d : Declaration}
    (h : u.find? t = some d) :
    ∃ e, (u.define r).find? t = some e ∧ e.id = d.id ∧ e.arity = d.arity := by
  rw [CodeUnit.find?_define, h]
  split
  · exact ⟨_, rfl, rfl, rfl⟩
  · exact ⟨d, rfl, rfl, rfl⟩

theorem symbol_of_symbolFor (h : symbolFor f.proto.name s = .ok symbol s₁) :
    f.proto.isAnonymous = false → symbol = Symbol.legalize f.proto.name := by
  intro hnamed
  rw [symbolFor_apply, symbolFor_of_named _ hnamed] at h
  cases h
  rfl

/-- Once the body of a function is resolved and the function declared, the open unit
    lists the function and all that its body calls. -/
theorem listed_of_declare {decl : Declaration} {s₄ : World}
    (hresolve : resolve f.proto symbol [] f.body s₂ = .ok callees s₃)
    (hdeclare : declare f.proto.name symbol f.proto.arity .exported s₃ = .ok decl s₄) :
    s₄.workspace.unit.find? symbol = some decl ∧ decl.arity = f.proto.arity ∧
      Lists symbol s₄.workspace.unit callees ∧
      f.body.Scoped f.proto.params (Callable f.proto symbol callees) := by
  have hnil : Lists symbol s₂.workspace.unit [] := by simp [Lists]
  obtain ⟨looked, hscoped⟩ := resolve_ok hresolve hnil
  obtain ⟨hok, hws⟩ := declare_ok hdeclare
  have hfind : ∀ t, s₄.workspace.unit.find? t =
      if t = symbol then some decl else s₃.workspace.unit.find? t := by
    rw [hws]
    exact CodeUnit.find?_declare hok
  refine ⟨(hfind symbol).trans (if_pos rfl), CodeUnit.arity_of_declare hok, fun c d hcd => ?_,
    hscoped⟩
  obtain ⟨hne, hd⟩ := looked.lists c d hcd
  exact ⟨hne, by rw [hfind, if_neg hne, hd]⟩

/-- A function that may be defined, and whose body is resolved, is declared. Nothing
    has changed by then but declarations of the open unit. -/
theorem declare_of_resolve
    (hcheck : checkDefinition f.proto.name symbol f.proto.arity s₁ = .ok () s₂)
    (hresolve : resolve f.proto symbol [] f.body s₂ = .ok callees s₃) :
    ∃ decl s₄, declare f.proto.name symbol f.proto.arity .exported s₃ = .ok decl s₄ ∧
      s₄.workspace.current = some s₄.workspace.unit ∧
      s₄.workspace.closed = s₁.workspace.closed ∧
      s₄.workspace.unit.routines = s₁.workspace.unit.routines ∧
      ∀ t, t ≠ symbol → s₄.workspace.unit.defines t = s₁.workspace.unit.defines t := by
  obtain ⟨rfl, hlisted⟩ := checkDefinition_ok hcheck
  have hnil : Lists symbol s₂.workspace.unit [] := by simp [Lists]
  obtain ⟨⟨supplement, -, -⟩, -⟩ := resolve_ok hresolve hnil
  have harity : ∀ d, s₃.workspace.unit.find? symbol = some d → d.arity = f.proto.arity := by
    intro d hd
    rw [supplement.own_eq] at hd
    exact (hlisted d hd).2
  obtain ⟨decl, hdecl⟩ := CodeUnit.exists_declare f.proto.name .exported harity
  obtain ⟨s₄, hws, hdeclare⟩ := declare_cases f.proto.name symbol f.proto.arity .exported s₃
  rw [hdecl] at hdeclare
  refine ⟨decl, s₄, hdeclare, ?_⟩
  rw [hws]
  refine ⟨rfl, opened_closed.trans supplement.closed, ?_, fun t ht => ?_⟩
  · exact CodeUnit.routines_declare.trans supplement.routines
  · exact (CodeUnit.defines_declare_of_ne ht).trans (supplement.defines t)

/-- A function that was read from a text calls itself by its own name only. -/
theorem not_callsItself_of_parsed (supply : Symbol.Supply)
    (h : (Item.definition f).Parsed ∨ (Item.expression f).Parsed) :
    ¬ CallsItselfByAnotherName f (supply.symbolFor f.proto.name).1 := by
  rintro ⟨c, hc, hs, hne⟩
  rcases h with h | h
  · obtain ⟨hname, hbody⟩ := h.plain
    rw [symbolFor_of_named supply hname.isEmpty_eq, hname.legalize_eq,
      (hbody c hc).legalize_eq] at hs
    exact hne ⟨hname.isEmpty_eq, hs⟩
  · obtain ⟨hproto, hbody⟩ := h.plain
    rw [hproto, (hbody c hc).legalize_eq] at hs
    exact (hbody c hc).ne_anonymous supply.next hs

/-- The two passes of generating a function agree, in every world. Once the function
    may be defined and its body is resolved, it is declared, its code is emitted, and
    generating it succeeds, unless it calls its own symbol by another name. The open
    unit then has one more routine and its symbol for one more body; and each call of
    the code, in the order in which the body makes them, has the id of the declaration
    that the unit finds under the symbol of the callee, and as many arguments as that
    has parameters. No function that was read from a text calls its own symbol by
    another name. -/
theorem passes_agree :
    (∀ (f : Function) (symbol : String) (callees : Callees) (s s₁ s₂ s₃ : World),
      symbolFor f.proto.name s = .ok symbol s₁ →
      checkDefinition f.proto.name symbol f.proto.arity s₁ = .ok () s₂ →
      resolve f.proto symbol [] f.body s₂ = .ok callees s₃ →
      ¬ CallsItselfByAnotherName f symbol →
      ∃ decl s₄ r u s',
        declare f.proto.name symbol f.proto.arity .exported s₃ = .ok decl s₄ ∧
        Code.Routine.ofExpr decl ⟨f.proto.params, withOwn f.proto decl callees⟩ f.body = .ok r ∧
        generate f s = .ok ⟨f.proto.name, symbol, f.proto.arity⟩ s' ∧
        s'.workspace.closed = s.workspace.closed ∧ s'.workspace.current = some u ∧
        u.routines = s.workspace.unit.routines ++ [r] ∧
        (∀ t, u.defines t = true ↔ t = symbol ∨ s.workspace.unit.defines t = true) ∧
        List.Forall₂ (fun site call => ∃ d, u.find? (Symbol.legalize site.1) = some d ∧
          d.id = call.1.id ∧ d.arity = site.2 ∧ call.2.length = site.2)
          f.body.sites (Code.sites r.code)) ∧
    (∀ (f : Function) (supply : Symbol.Supply),
      (Item.definition f).Parsed ∨ (Item.expression f).Parsed →
      ¬ CallsItselfByAnotherName f (supply.symbolFor f.proto.name).1) := by
  refine ⟨?_, fun f supply h => not_callsItself_of_parsed supply h⟩
  intro f symbol callees s s₁ s₂ s₃ hsupply hcheck hresolve hself
  obtain ⟨decl, s₄, hdeclare, hcurrent, hclosed, hroutines, hdefines⟩ :=
    declare_of_resolve hcheck hresolve
  obtain ⟨hdecl, harity, hl, hscoped⟩ := listed_of_declare hresolve hdeclare
  have hsymbol := symbol_of_symbolFor hsupply
  have hscope := scoped_of_callable hsymbol hdecl harity hl hself hscoped
  have hemit : ∃ r, Code.Routine.ofExpr decl ⟨f.proto.params, withOwn f.proto decl callees⟩
      f.body = .ok r := Code.exists_ofExpr decl hscope
  obtain ⟨r, hr⟩ := hemit
  have hrs : r.symbol = symbol := by
    obtain ⟨v, d, -, rfl⟩ := Code.ofExpr_ok.mp hr
    exact CodeUnit.symbol_of_find? hdecl
  obtain ⟨s', hdefine, hws, -⟩ := define_apply f.proto r
    (⟨f.proto.name, symbol, f.proto.arity⟩ : Handle) hcurrent
  rw [symbolFor_apply] at hsupply
  cases hsupply
  refine ⟨decl, s₄, r, s₄.workspace.unit.define r, s', hdeclare, hr, ?_, ?_, ?_, ?_, fun t => ?_, ?_⟩
  · unfold generate
    rw [bind_ok (symbolFor_apply _ _), bind_ok hcheck, bind_ok hresolve, bind_ok hdeclare, hr]
    exact hdefine
  · rw [hws]
    exact hclosed
  · rw [hws]
  · rw [CodeUnit.routines_define, hroutines]
    rfl
  · rw [CodeUnit.defines_define, hrs]
    by_cases ht : t = (s.workspace.supply.symbolFor f.proto.name).1
    · have hmem := CodeUnit.mem_of_find? hdecl
      simp only [ht, true_and, true_or, iff_true]
      exact .inr ⟨decl, hmem, CodeUnit.symbol_of_find? hdecl⟩
    · rw [hdefines t ht]
      simp [ht]
      rfl
  · refine ((List.forall₂_and_left _ _).mpr ⟨hscope.allowed, Code.renders_ofExpr hr⟩).imp ?_
    rintro site call ⟨⟨d, hd, ha⟩, hlen, index, d', hd', hcall⟩
    rw [hd] at hd'
    cases hd'
    obtain ⟨e, he, hid, hea⟩ := find?_define (find?_of_scope hsymbol hdecl hl hd)
    exact ⟨e, he, by rw [hid, hcall]; rfl, hea.trans ha, hlen⟩

/-- `bar` calls `foo`, which a closed unit defines, then itself, then `foo` again. The
    new unit declares both but has a body for `bar` only. -/
theorem passes_agree_at_forwarded : ∃ s u s' r, Reachable s ∧ s.workspace.current = none ∧
    generate ⟨⟨"bar", ["y"]⟩, .call "foo" [.call "bar" [.call "foo" [.var "y"]]]⟩ s =
      .ok ⟨"bar", "bar", 1⟩ s' ∧
    s'.workspace.current = some u ∧ u.routines = [r] ∧
    (∀ t, u.defines t = true ↔ t = "bar") ∧
    List.Forall₂ (fun site call => ∃ d, u.find? (Symbol.legalize site.1) = some d ∧
      d.id = call.1.id ∧ d.arity = site.2 ∧ call.2.length = site.2)
      [("foo", 1), ("bar", 1), ("foo", 1)] (Code.sites r.code) := by
  have h₁ := Reachable.perform (.generate ⟨⟨"foo", ["x"]⟩, .var "x"⟩) (.start {})
  have h₂ := Reachable.perform .finalize h₁
  have hself : ¬ CallsItselfByAnotherName
      ⟨⟨"bar", ["y"]⟩, .call "foo" [.call "bar" [.call "foo" [.var "y"]]]⟩ "bar" := by
    rintro ⟨c, hc, hs, hne⟩
    simp only [Expr.callees, Expr.calleesAll, List.append_nil, List.mem_cons, List.not_mem_nil,
      or_false] at hc
    rcases hc with rfl | rfl | rfl
    · revert hs; decide
    · exact hne ⟨by decide, rfl⟩
    · revert hs; decide
  obtain ⟨decl, s₄, r, u, s', -, -, hgenerate, -, hcurrent, hroutines, hdefines, hcalls⟩ :=
    passes_agree.1 _ "bar" _ (left Op.finalize.perform
      (left (Op.generate ⟨⟨"foo", ["x"]⟩, .var "x"⟩).perform {})) _ _ _ rfl rfl rfl hself
  refine ⟨_, u, s', r, h₂, rfl, hgenerate, hcurrent, hroutines, fun t => ?_, hcalls⟩
  rw [hdefines t]
  exact or_iff_left Bool.false_ne_true

end Build

end Abacus
