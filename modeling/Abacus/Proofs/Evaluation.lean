-- SUMMARY: Expressions evaluated directly, and why emitted code does the same.
import Abacus.Code.Exec
import Abacus.Proofs.Emission

/-!
# Evaluation

An expression is evaluated by recursion, with no code in between: operands and
arguments from left to right, then the operation or call. What a call does is a
parameter here as it is for code, but callees go by name.

The code emitted for an expression adds the values of its parts, in the order in
which they are evaluated, to those it starts with (`Code.Yields`). A routine
therefore does what evaluating the body of its function does.
-/

namespace Abacus

/-- What an operator makes of two values. -/
def operate (op : Char) (x y : Float) : Code.Exec Float :=
  match op with
  | '+' => return x + y
  | '-' => return x - y
  | '*' => return x * y
  | '<' => return if x < y then 1 else 0
  | _ => throw .stuck

namespace Expr

mutual

/-- The value of an expression, given what calls do and the values of variables. -/
def eval (call : Code.Meaning String) (env : List (String × Float)) : Expr → Code.Exec Float
  | .number x => return x
  | .var name =>
    match env.lookup name with
    | some x => return x
    | none => throw .stuck
  | .binary op lhs rhs => do
    let x ← lhs.eval call env
    let y ← rhs.eval call env
    operate op x y
  | .call callee args => do
    let xs ← evalAll call env args
    call callee xs

/-- The values of arguments, from left to right. -/
def evalAll (call : Code.Meaning String) (env : List (String × Float)) :
    List Expr → Code.Exec (List Float)
  | [] => return []
  | arg :: args => do
    let x ← arg.eval call env
    let xs ← evalAll call env args
    return x :: xs

end

end Expr

/-- The value of a function at as many arguments as it has parameters. Of
    parameters with the same name the last one counts. -/
def Function.eval (call : Code.Meaning String) (f : Function) (args : List Float) :
    Code.Exec Float :=
  if args.length = f.proto.arity then f.body.eval call (f.proto.params.zip args).reverse
  else throw .stuck

namespace Code

variable {α β κ : Type} {call : Meaning κ} {env : List Value} {out : List UInt8}

/-! ## Runs in order -/

theorem exec_bind_ok {x : Exec α} {f : α → Exec β} {a : α} {out' : List UInt8}
    (h : x out = .ok (a, out')) : (x >>= f) out = f a out' := by
  simp only [bind, StateT.bind, Except.bind, h]

theorem exec_bind_error {x : Exec α} {f : α → Exec β} {reason : Halt}
    (h : x out = .error reason) : (x >>= f) out = .error reason := by
  simp only [bind, StateT.bind, Except.bind, h]

theorem execAll_append (is is' : List (Instr κ)) (env : List Value) :
    execAll call env (is ++ is') = execAll call env is >>= fun env => execAll call env is' := by
  induction is generalizing env with
  | nil => simp [execAll]
  | cons i is ih => simp only [List.cons_append, execAll, ih, bind_assoc]

/-- Running code after the values in `env` does what `run` does: it halts for the
    same reason, or it adds one value per instruction, after which `holds` says
    where the result is. -/
def Yields (call : Meaning κ) (env : List Value) (code : List (Instr κ)) (run : Exec α)
    (holds : List Value → α → Prop) : Prop :=
  ∀ out, match run out with
    | .error reason => execAll call env code out = .error reason
    | .ok (a, out') => ∃ new, execAll call env code out = .ok (env ++ new, out') ∧
        new.length = code.length ∧ holds (env ++ new) a

theorem yields_pure {holds : List Value → α → Prop} {a : α} (h : holds env a) :
    Yields call env [] (pure a) holds := by
  intro out
  refine ⟨[], ?_, rfl, ?_⟩
  · rw [List.append_nil]; rfl
  · rw [List.append_nil]; exact h

/-- One piece of code after another does one run after another. -/
theorem Yields.bind {code code' : List (Instr κ)} {run : Exec α} {next : α → Exec β}
    {holds : List Value → α → Prop} {holds' : List Value → β → Prop}
    (h : Yields call env code run holds)
    (h' : ∀ a new, new.length = code.length → holds (env ++ new) a →
      Yields call (env ++ new) code' (next a) holds') :
    Yields call env (code ++ code') (run >>= next) holds' := by
  intro out
  have hout := h out
  rw [execAll_append]
  cases hrun : run out with
  | error reason =>
    rw [hrun] at hout
    rw [exec_bind_error hrun]
    exact exec_bind_error hout
  | ok result =>
    obtain ⟨a, out'⟩ := result
    rw [hrun] at hout
    obtain ⟨new, hexec, hlen, ha⟩ := hout
    have hnext := h' a new hlen ha out'
    rw [exec_bind_ok hrun, exec_bind_ok hexec]
    cases hrun' : next a out' with
    | error reason => rw [hrun'] at hnext; exact hnext
    | ok result =>
      obtain ⟨b, out''⟩ := result
      rw [hrun'] at hnext
      obtain ⟨new', hexec', hlen', hb⟩ := hnext
      refine ⟨new ++ new', ?_, ?_, ?_⟩
      · rw [← List.append_assoc]; exact hexec'
      · rw [List.length_append, List.length_append, hlen, hlen']
      · rw [← List.append_assoc]; exact hb

/-- An instruction whose value is what a run gives. -/
theorem yields_instr {i : Instr κ} {run : Exec Float}
    (h : i.exec call env = run >>= fun x => pure (.float x)) :
    Yields call env [i] run fun env' x => env'[env.length]? = some (.float x) := by
  intro out
  simp only [execAll, h]
  cases hrun : run out with
  | error reason =>
    dsimp only
    rw [exec_bind_error (exec_bind_error hrun)]
  | ok result =>
    refine ⟨[.float result.1], ?_, rfl, by simp⟩
    have hinstr : (run >>= fun x => pure (Value.float x)) out = .ok (.float result.1, result.2) :=
      exec_bind_ok hrun
    rw [exec_bind_ok hinstr]
    rfl

/-! ## Operands -/

theorem float_eq {a : Nat} {x : Float} (h : env[a]? = some (.float x)) : float env a = pure x := by
  unfold float; rw [h]

theorem word_eq {a n : Nat} (h : env[a]? = some (.word n)) : word env a = pure n := by
  unfold word; rw [h]

theorem getElem?_append_of_some {new : List Value} {a : Nat} {v : Value} (h : env[a]? = some v) :
    (env ++ new)[a]? = some v := by
  obtain ⟨ha, -⟩ := List.getElem?_eq_some_iff.mp h
  rw [List.getElem?_append_left ha, h]

/-- The operands `as` stand for the values `xs`. -/
def Holds (as : List Nat) (env : List Value) (xs : List Float) : Prop :=
  as.map (env[·]?) = xs.map fun x => some (.float x)

theorem floats_eq {as : List Nat} {xs : List Float} (h : Holds as env xs) :
    floats env as = pure xs := by
  unfold Holds at h
  induction as generalizing xs with
  | nil =>
    obtain rfl : xs = [] := by simpa using h.symm
    rfl
  | cons a as ih =>
    cases xs with
    | nil => simp at h
    | cons x xs =>
      simp only [List.map_cons, List.cons.injEq] at h
      simp only [floats, float_eq h.1, ih h.2, pure_bind]

/-! ## Variables -/

theorem lookup_zip {names : List String} {xs : List Float} {name : String} {i : Nat}
    (hlen : names.length = xs.length) (h : names.idxOf? name = some i) :
    (names.zip xs).lookup name = xs[i]? := by
  induction names generalizing xs i with
  | nil => cases h
  | cons n names ih =>
    cases xs with
    | nil => cases hlen
    | cons x xs =>
      rw [List.idxOf?_cons] at h
      rw [List.zip_cons_cons, List.lookup_cons]
      by_cases hn : n = name
      · subst hn
        simp only [BEq.rfl, if_true, Option.some.injEq] at h ⊢
        subst h
        rfl
      · have hne : (n == name) = false := by simpa using hn
        have hne' : (name == n) = false := by simpa using Ne.symm hn
        rw [hne] at h
        obtain ⟨j, hj, rfl⟩ := Option.map_eq_some_iff.mp h
        rw [hne', List.getElem?_cons_succ]
        exact ih (Nat.succ.inj hlen) hj

/-- The number of a variable is that of the argument it is bound to. -/
theorem lookup_of_value? {scope : Scope} {args : List Float} {name : String} {v : Nat}
    (hargs : args.length = scope.params.length) (h : scope.value? name = some v) :
    ∃ x, args[v]? = some x ∧ (scope.params.zip args).reverse.lookup name = some x := by
  obtain ⟨i, hi, rfl⟩ := Option.map_eq_some_iff.mp h
  have hlt : i < scope.params.length := by
    have hsome := (List.findIdx?_eq_some_iff_getElem.mp hi).1
    simpa using hsome
  have hrev : scope.params.reverse.length = args.reverse.length := by simp [hargs]
  have hget : args.reverse[i]? = args[scope.params.length - 1 - i]? := by
    rw [List.getElem?_reverse (by omega), hargs]
  have hx : ∃ x, args[scope.params.length - 1 - i]? = some x :=
    ⟨_, List.getElem?_eq_getElem (by omega)⟩
  obtain ⟨x, hx⟩ := hx
  have hzip : (scope.params.zip args).reverse = scope.params.reverse.zip args.reverse :=
    List.reverse_zipWith hargs.symm
  exact ⟨x, hx, by rw [hzip, lookup_zip hrev hi, hget, hx]⟩

/-! ## Emitted code -/

section Emit

variable {scope : Scope} {call : Meaning FuncRef} {named : Meaning String} {args : List Float}
  {draft draft' : Draft}

/-- Values that the next instruction of a draft finds: the arguments, and one
    value per instruction. -/
structure Fits (scope : Scope) (args : List Float) (draft : Draft) (env : List Value) : Prop where
  length_eq : env.length = scope.params.length + draft.code.length
  arg : ∀ (i : Nat) (x : Float), args[i]? = some x → env[i]? = some (.float x)

theorem Fits.append (h : Fits scope args draft env) {code : List (Instr FuncRef)}
    (hcode : draft'.code = draft.code ++ code) {new : List Value} (hnew : new.length = code.length) :
    Fits scope args draft' (env ++ new) where
  length_eq := by rw [hcode, List.length_append, List.length_append, h.length_eq, hnew, Nat.add_assoc]
  arg i x hx := getElem?_append_of_some (h.arg i x hx)

/-- The result of a run is the operand `v`. -/
abbrev Stands (v : Nat) (env : List Value) (x : Float) : Prop :=
  env[v]? = some (.float x)

theorem yields_push {i : Instr FuncRef} {run : Exec Float} (hfits : Fits scope args draft env)
    (hi : i.exec call env = run >>= fun x => pure (.float x)) :
    Yields call env [i] run (Stands (scope.params.length + draft.code.length)) := by
  rw [← hfits.length_eq]
  exact yields_instr hi

/-- A comparison takes three instructions, and its value is the last one's. -/
theorem yields_less {a b : Nat} {x y : Float} (hfits : Fits scope args draft env)
    (ha : env[a]? = some (.float x)) (hb : env[b]? = some (.float y)) :
    Yields call env
      [.less a b, .extend (scope.params.length + draft.code.length),
        .convert (scope.params.length + draft.code.length + 1)]
      (operate '<' x y) (Stands (scope.params.length + draft.code.length + 2)) := by
  rw [← hfits.length_eq]
  intro out
  generalize hn : (if x < y then 1 else 0 : Nat) = n
  have hone : (env ++ [Value.word n])[env.length]? = some (.word n) := by simp
  have htwo : (env ++ [Value.word n, Value.word n])[env.length + 1]? = some (.word n) := by simp
  refine ⟨[.word n, .word n, .float (Float.ofNat n)], ?_, rfl, ?_⟩
  · simp only [execAll, Instr.exec, float_eq ha, float_eq hb, pure_bind, hn, word_eq hone,
      word_eq htwo, List.append_assoc, List.cons_append, List.nil_append]
    rfl
  · have hvalue : Float.ofNat n = if x < y then 1 else 0 := by
      subst hn
      split <;> rfl
    simp [Stands, hvalue]

theorem yields_arith {op : Arith} {a b : Nat} {x y : Float} (hfits : Fits scope args draft env)
    (ha : env[a]? = some (.float x)) (hb : env[b]? = some (.float y)) :
    Yields call env [.arith op a b] (pure (op.apply x y))
      (Stands (scope.params.length + draft.code.length)) := by
  refine yields_push hfits ?_
  simp only [Instr.exec, float_eq ha, float_eq hb, pure_bind]

/-- The code of an operator does what the operator does. -/
theorem yields_emitOperator {op : Char} {a b v : Nat}
    (h : emitOperator scope op a b draft = .ok (v, draft')) :
    ∃ code, draft'.code = draft.code ++ code ∧ ∀ env x y, Fits scope args draft env →
      env[a]? = some (.float x) → env[b]? = some (.float y) →
      Yields call env code (operate op x y) (Stands v) := by
  rcases emitOperator_ok h with ⟨rfl, h⟩ | ⟨rfl, h⟩ | ⟨rfl, h⟩ | ⟨rfl, i, rfl, rfl, rfl⟩
  · cases h
    exact ⟨_, rfl, fun env x y hfits ha hb => yields_arith hfits ha hb⟩
  · cases h
    exact ⟨_, rfl, fun env x y hfits ha hb => yields_arith hfits ha hb⟩
  · cases h
    exact ⟨_, rfl, fun env x y hfits ha hb => yields_arith hfits ha hb⟩
  · exact ⟨_, rfl, fun env x y hfits ha hb => yields_less hfits ha hb⟩

theorem yields_emitAll {exprs : List Expr} {bindings : List (String × Float)} {values : List Nat}
    (ih : ∀ e ∈ exprs, ∀ {draft draft' v}, emit scope e draft = .ok (v, draft') →
      ∃ code, draft'.code = draft.code ++ code ∧ ∀ env, Fits scope args draft env →
        Yields call env code (e.eval named bindings) (Stands v))
    (h : emitAll scope exprs draft = .ok (values, draft')) :
    ∃ code, draft'.code = draft.code ++ code ∧ ∀ env, Fits scope args draft env →
      Yields call env code (Expr.evalAll named bindings exprs) (Holds values) := by
  induction exprs generalizing draft values with
  | nil =>
    cases h
    exact ⟨[], (List.append_nil _).symm, fun env _ => yields_pure rfl⟩
  | cons e exprs ihes =>
    obtain ⟨a, d, as, ha, has, rfl⟩ := emitAll_cons.mp h
    obtain ⟨code₁, hcode₁, hyields₁⟩ := ih e List.mem_cons_self ha
    obtain ⟨code₂, hcode₂, hyields₂⟩ :=
      ihes (fun e he => ih e (List.mem_cons_of_mem _ he)) has
    refine ⟨code₁ ++ code₂, by rw [hcode₂, hcode₁, List.append_assoc], fun env hfits => ?_⟩
    rw [Expr.evalAll]
    refine (hyields₁ env hfits).bind fun x new hnew hx => ?_
    rw [← List.append_nil code₂]
    refine (hyields₂ _ (hfits.append hcode₁ hnew)).bind fun xs new' hnew' hxs => ?_
    refine yields_pure ?_
    unfold Holds at hxs ⊢
    rw [List.map_cons, List.map_cons, hxs, getElem?_append_of_some hx]

/-- The code of an expression does what evaluating the expression does. -/
theorem yields_emit {e : Expr} {v : Nat} (hargs : args.length = scope.params.length)
    (hcall : ∀ c ∈ e.callees, ∀ d index, scope.callee? c = some d → call (.to index d) = named c)
    (h : emit scope e draft = .ok (v, draft')) :
    ∃ code, draft'.code = draft.code ++ code ∧ ∀ env, Fits scope args draft env →
      Yields call env code (e.eval named (scope.params.zip args).reverse) (Stands v) := by
  induction e generalizing draft draft' v with
  | number x =>
    rw [emit_number] at h
    cases h
    refine ⟨[.const x], rfl, fun env hfits => ?_⟩
    rw [Expr.eval]
    exact yields_push hfits rfl
  | var name =>
    obtain ⟨hv, rfl⟩ := emit_var.mp h
    obtain ⟨x, hx, hlookup⟩ := lookup_of_value? hargs hv
    refine ⟨[], (List.append_nil _).symm, fun env hfits => ?_⟩
    rw [Expr.eval, hlookup]
    exact yields_pure (hfits.arg v x hx)
  | binary op lhs rhs ihl ihr =>
    obtain ⟨a, d₁, b, d₂, ha, hb, hop⟩ := emit_binary.mp h
    simp only [Expr.callees, List.mem_append] at hcall
    obtain ⟨code₁, hcode₁, hyields₁⟩ := ihl (fun c hc => hcall c (.inl hc)) ha
    obtain ⟨code₂, hcode₂, hyields₂⟩ := ihr (fun c hc => hcall c (.inr hc)) hb
    obtain ⟨code₃, hcode₃, hyields₃⟩ := yields_emitOperator hop
    refine ⟨code₁ ++ (code₂ ++ code₃), by simp [hcode₃, hcode₂, hcode₁], fun env hfits => ?_⟩
    rw [Expr.eval]
    refine (hyields₁ env hfits).bind fun x new hnew hx => ?_
    have hfits₁ := hfits.append hcode₁ hnew
    refine (hyields₂ _ hfits₁).bind fun y new' hnew' hy => ?_
    exact hyields₃ _ x y (hfits₁.append hcode₂ hnew') (getElem?_append_of_some hx) hy
  | call callee es ih =>
    simp only [Expr.callees, List.mem_cons, Expr.mem_calleesAll] at hcall
    obtain ⟨decl, values, d, hdecl, hvalues, hpush⟩ := emit_call.mp h
    have hall : ∃ code, d.code = draft.code ++ code ∧ ∀ env, Fits scope args draft env →
        Yields call env code (Expr.evalAll named (scope.params.zip args).reverse es)
          (Holds values) := by
      have hstart : ∀ env, Fits scope args { draft with refs := draft.refs + 1 } env ↔
          Fits scope args draft env :=
        fun env => ⟨fun h => ⟨h.length_eq, h.arg⟩, fun h => ⟨h.length_eq, h.arg⟩⟩
      obtain ⟨code, hcode, hyields⟩ :=
        yields_emitAll (fun e he => ih e he fun c hc => hcall c (.inr ⟨e, he, hc⟩)) hvalues
      exact ⟨code, hcode, fun env hfits => hyields env ((hstart env).mpr hfits)⟩
    obtain ⟨code, hcode, hyields⟩ := hall
    cases hpush
    refine ⟨code ++ [.call (.to draft.refs decl) values], by simp [hcode], fun env hfits => ?_⟩
    rw [Expr.eval]
    refine (hyields env hfits).bind fun xs new hnew hxs => ?_
    refine yields_push (hfits.append hcode hnew) ?_
    simp only [Instr.exec, floats_eq hxs, pure_bind, hcall callee (.inl rfl) decl draft.refs hdecl]

/-- Running the routine of a function is evaluating the function. -/
theorem exec_ofExpr {decl : Declaration} {f : Function} {r : Routine FuncRef}
    (h : Routine.ofExpr decl scope f.body = .ok r) (hparams : scope.params = f.proto.params)
    (hcall : ∀ c ∈ f.body.callees, ∀ d index, scope.callee? c = some d →
      call (.to index d) = named c)
    (args : List Float) : r.exec call args = f.eval named args := by
  obtain ⟨v, d, hemit, rfl⟩ := ofExpr_ok.mp h
  unfold Routine.exec Function.eval Prototype.arity
  rw [hparams]
  dsimp only
  by_cases hlen : args.length = f.proto.params.length
  · have hargs : args.length = scope.params.length := hparams ▸ hlen
    obtain ⟨code, hcode, hyields⟩ := yields_emit hargs hcall hemit
    have hfits : Fits scope args {} (args.map .float) := by
      refine ⟨by simp [hargs], fun i x hx => ?_⟩
      rw [List.getElem?_map, hx]
      rfl
    have hrun := hyields _ hfits
    rw [hparams] at hrun
    rw [if_pos hlen, if_pos hlen]
    funext out
    have hout := hrun out
    rw [List.nil_append] at hcode
    rw [hcode]
    cases heval : f.body.eval named (f.proto.params.zip args).reverse out with
    | error reason =>
      rw [heval] at hout
      exact exec_bind_error hout
    | ok result =>
      rw [heval] at hout
      obtain ⟨new, hexec, -, hv⟩ := hout
      rw [exec_bind_ok hexec, float_eq hv]
      rfl
  · rw [if_neg hlen, if_neg hlen]

end Emit

end Code

end Abacus
