-- SUMMARY: Emitted code assigns every value once, and means what its function means.
import Abacus.Proofs.Passes

/-!
# Single assignment

A routine defines its parameters, then one value per instruction, each under a number
of its own. In emitted code an instruction uses only what was defined before it, and
the result is one of the values.

For any meaning of the functions that are called, told as a value and the bytes
written, the code then comes to the value of the body and writes what evaluating the
body writes.
-/

namespace Abacus

namespace Code

/-! ## Numbers of values -/

section Defined

variable {κ : Type}

/-- The numbers that a routine defines, in order: those of its parameters, then
    that of the value of each instruction. -/
def Routine.defined (r : Routine κ) : List Nat :=
  List.range r.arity ++ r.code.mapIdx fun k _ => r.arity + k

/-- No number is defined twice, and what is used was defined before. -/
structure Routine.SingleAssignment (r : Routine κ) : Prop where
  once    : r.defined.Nodup
  operand : ∀ (k : Nat) (i : Instr κ), r.code[k]? = some i →
    ∀ a ∈ i.operands, a ∈ r.defined.take (r.arity + k)
  result  : r.result ∈ r.defined

theorem Routine.defined_eq_range (r : Routine κ) :
    r.defined = List.range (r.arity + r.code.length) := by
  rw [Routine.defined, List.range_add, List.mapIdx_eq_zipIdx_map]
  congr 1
  induction r.code using List.reverseRecOn with
  | nil => rfl
  | append_singleton code i ih => simp [List.zipIdx_append, List.range_succ, ih]

/-- Each operand is among the parameters and the values of the instructions before. -/
def Orders (params : Nat) (code : List (Instr κ)) : Prop :=
  ∀ (k : Nat) (i : Instr κ), code[k]? = some i → ∀ a ∈ i.operands, a < params + k

theorem Routine.singleAssignment_of_orders {r : Routine κ} (h : Orders r.arity r.code)
    (hresult : r.result < r.arity + r.code.length) : r.SingleAssignment := by
  refine ⟨?_, fun k i hi a ha => ?_, ?_⟩
  · rw [r.defined_eq_range]
    exact List.nodup_range
  · have hk : k < r.code.length := (List.getElem?_eq_some_iff.mp hi).1
    rw [r.defined_eq_range, List.take_range, List.mem_range]
    exact lt_min (h k i hi a ha) (Nat.lt_of_lt_of_le (h k i hi a ha) (by omega))
  · rw [r.defined_eq_range]
    exact List.mem_range.mpr hresult

theorem Orders.concat {params : Nat} {code : List (Instr κ)} {i : Instr κ} (h : Orders params code)
    (hi : ∀ a ∈ i.operands, a < params + code.length) : Orders params (code ++ [i]) := by
  intro k j hj a ha
  rw [List.getElem?_append] at hj
  split at hj
  · exact h k j hj a ha
  case isFalse hk =>
    obtain ⟨hlt, rfl⟩ := List.getElem?_eq_some_iff.mp hj
    have hlast : k = code.length := by
      simp only [List.length_singleton] at hlt
      omega
    subst hlast
    simp only [Nat.sub_self, List.getElem_cons_zero] at ha
    exact hi a ha

end Defined

section Emission

variable {scope : Scope} {draft draft' : Draft}

theorem value?_lt {name : String} {v : Nat} (h : scope.value? name = some v) :
    v < scope.params.length := by
  obtain ⟨i, hi, rfl⟩ := Option.map_eq_some_iff.mp h
  have hlt : i < scope.params.reverse.length := (List.findIdx?_eq_some_iff_getElem.mp hi).1
  rw [List.length_reverse] at hlt
  omega

/-- A draft whose operands are in order, with its last values. -/
structure Draft.Ordered (scope : Scope) (draft : Draft) (values : List Nat) : Prop where
  code   : Orders scope.params.length draft.code
  values : ∀ v ∈ values, v < scope.params.length + draft.code.length

/-- One more instruction, on values that are there, gives one more value. -/
theorem Draft.Ordered.push {i : Instr FuncRef} {v : Nat} {values : List Nat}
    (h : draft.Ordered scope values) (hpush : push scope i draft = .ok (v, draft'))
    (hi : ∀ a ∈ i.operands, a ∈ values) : draft'.Ordered scope (v :: values) := by
  cases hpush
  refine ⟨h.code.concat fun a ha => h.values a (hi a ha), fun a ha => ?_⟩
  simp only [List.length_append, List.length_singleton]
  rcases List.mem_cons.mp ha with rfl | ha
  · omega
  · have hlt := h.values a ha
    omega

theorem Draft.Ordered.emitOperator {op : Char} {a b v : Nat} {values : List Nat}
    (h : draft.Ordered scope values) (ha : a ∈ values) (hb : b ∈ values)
    (hop : Code.emitOperator scope op a b draft = .ok (v, draft')) :
    draft'.Ordered scope (v :: values) := by
  have hab : ∀ c ∈ [a, b], c ∈ values := by simp [ha, hb]
  unfold Code.emitOperator at hop
  split at hop
  · exact h.push hop hab
  · exact h.push hop hab
  · exact h.push hop hab
  · obtain ⟨flag, d₁, h₁, hop⟩ := emit_bind_ok.mp hop
    obtain ⟨wide, d₂, h₂, h₃⟩ := emit_bind_ok.mp hop
    have hflag := h.push h₁ hab
    have hwide := hflag.push h₂ (by simp [Instr.operands])
    have hlast := hwide.push h₃ (by simp [Instr.operands])
    refine ⟨hlast.code, fun c hc => hlast.values c ?_⟩
    rcases List.mem_cons.mp hc with rfl | hc
    · exact List.mem_cons_self
    · simp [hc]
  · cases hop

theorem Draft.Ordered.emitAll {args : List Expr} {values new : List Nat}
    (ih : ∀ arg ∈ args, ∀ {draft draft' v values}, draft.Ordered scope values →
      emit scope arg draft = .ok (v, draft') → draft'.Ordered scope (v :: values))
    (h : draft.Ordered scope values) (hemit : Code.emitAll scope args draft = .ok (new, draft')) :
    draft'.Ordered scope (new ++ values) := by
  induction args generalizing draft values new with
  | nil =>
    cases hemit
    exact h
  | cons arg args ihargs =>
    obtain ⟨a, d, as, ha, has, rfl⟩ := emitAll_cons.mp hemit
    have hall := ihargs (fun arg harg => ih arg (List.mem_cons_of_mem _ harg))
      (ih arg List.mem_cons_self h ha) has
    refine ⟨hall.code, fun v hv => hall.values v ?_⟩
    simp only [List.cons_append, List.mem_cons, List.mem_append] at hv ⊢
    tauto

/-- Emitting an expression keeps operands in order, and what was there stays. -/
theorem Draft.Ordered.emit {e : Expr} {v : Nat} {values : List Nat}
    (h : draft.Ordered scope values) (hemit : Code.emit scope e draft = .ok (v, draft')) :
    draft'.Ordered scope (v :: values) := by
  induction e generalizing draft draft' v values with
  | number x =>
    rw [emit_number] at hemit
    exact h.push hemit (by simp [Instr.operands])
  | var name =>
    obtain ⟨hv, rfl⟩ := emit_var.mp hemit
    refine ⟨h.code, List.forall_mem_cons.mpr ⟨?_, h.values⟩⟩
    exact Nat.lt_of_lt_of_le (value?_lt hv) (Nat.le_add_right _ _)
  | binary op lhs rhs ihl ihr =>
    obtain ⟨a, d₁, b, d₂, ha, hb, hop⟩ := emit_binary.mp hemit
    have hall := (ihr (ihl h ha) hb).emitOperator (by simp) (by simp) hop
    refine ⟨hall.code, fun c hc => hall.values c ?_⟩
    simp only [List.mem_cons] at hc ⊢
    tauto
  | call callee args ih =>
    obtain ⟨decl, new, d, -, hnew, hpush⟩ := emit_call.mp hemit
    have hstart : Draft.Ordered scope { draft with refs := draft.refs + 1 } values :=
      ⟨h.code, h.values⟩
    have hall := (hstart.emitAll (fun arg harg => ih arg harg) hnew).push hpush
      (by simp [Instr.operands]; tauto)
    refine ⟨hall.code, fun c hc => hall.values c ?_⟩
    simp only [List.mem_cons, List.mem_append] at hc ⊢
    tauto

theorem singleAssignment_ofExpr {decl : Declaration} {body : Expr} {r : Routine FuncRef}
    (h : Routine.ofExpr decl scope body = .ok r) : r.SingleAssignment := by
  obtain ⟨v, d, hemit, rfl⟩ := ofExpr_ok.mp h
  have hempty : Draft.Ordered scope {} [] := ⟨by simp [Orders], by simp⟩
  have hall := hempty.emit hemit
  exact Routine.singleAssignment_of_orders hall.code (hall.values v List.mem_cons_self)

end Emission

end Code

/-! ## Evaluation that returns -/

section Returning

open Code

/-- What calls do, told without running anything: the value and the bytes written. -/
abbrev Behaviour := String → List Float → Float × List UInt8

/-- A call writes its bytes and comes to its value. -/
def Behaviour.meaning (behaviour : Behaviour) : Meaning String := fun callee args => do
  Exec.write (behaviour callee args).2
  return (behaviour callee args).1

/-- A function in order comes to a value, if all calls do. -/
theorem Function.returns {f : Function} {calls : String → Nat → Prop}
    (h : f.body.Scoped f.proto.params calls) (behaviour : Behaviour) {args : List Float}
    (hargs : args.length = f.proto.arity) (out : List UInt8) :
    ∃ x out', f.eval behaviour.meaning args out = .ok (x, out') := by
  have hreturns : (f.eval behaviour.meaning args).Only (fun _ => False) fun _ => True :=
    Function.only_eval h (fun callee n _ xs _ _ => trivial) hargs
  exact hreturns.returns out

end Returning

namespace Build

variable {s s₁ s₂ s₃ s₄ : World} {f : Function} {symbol : String} {callees : Callees}
  {decl : Declaration}

/-- Once the names of a function are resolved and it is declared, its code is emitted
    unless it calls its own symbol by another name. The code assigns each value once;
    and for any behaviour of the functions called, given by their symbols, running it on
    as many arguments as there are parameters returns the value and writes the bytes
    that evaluating the body does. The same goes for calls that halt, or that depend on
    what was written before. -/
theorem emitted_code_means_body (hsymbol : symbolFor f.proto.name s = .ok symbol s₁)
    (hresolve : resolve f.proto symbol [] f.body s₂ = .ok callees s₃)
    (hdeclare : declare f.proto.name symbol f.proto.arity .exported s₃ = .ok decl s₄) :
    match Code.Routine.ofExpr decl ⟨f.proto.params, withOwn f.proto decl callees⟩ f.body with
    | .error _ => CallsItselfByAnotherName f symbol
    | .ok r => r.SingleAssignment ∧
      (∀ (behaviour : Behaviour) (args : List Float), args.length = f.proto.arity →
        ∃ x bytes,
          f.eval (fun c => behaviour.meaning (Symbol.legalize c)) args [] = .ok (x, bytes) ∧
          r.exec (fun ref => behaviour.meaning ref.symbol) args [] = .ok (x, bytes)) ∧
      (∀ (meaning : Code.Meaning String) (args : List Float),
        r.exec (fun ref => meaning ref.symbol) args =
          f.eval (fun c => meaning (Symbol.legalize c)) args) := by
  obtain ⟨hdecl, harity, hl, hscoped⟩ := listed_of_declare hresolve hdeclare
  have hnamed := symbol_of_symbolFor hsymbol
  split
  case h_1 e herror =>
    by_contra hself
    have hscope := scoped_of_callable hnamed hdecl harity hl hself hscoped
    have hemit : ∃ r, Code.Routine.ofExpr decl ⟨f.proto.params, withOwn f.proto decl callees⟩
        f.body = .ok r := Code.exists_ofExpr decl hscope
    obtain ⟨r, hr⟩ := hemit
    rw [hr] at herror
    cases herror
  case h_2 r hr =>
    have hexec : ∀ (meaning : Code.Meaning String) (args : List Float),
        r.exec (fun ref => meaning ref.symbol) args =
          f.eval (fun c => meaning (Symbol.legalize c)) args := by
      intro meaning args
      refine Code.exec_ofExpr hr rfl (fun c _ d index hd => ?_) args
      have hsym := CodeUnit.symbol_of_find? (find?_of_scope hnamed hdecl hl hd)
      rw [← hsym]
      rfl
    refine ⟨Code.singleAssignment_ofExpr hr, fun behaviour args hargs => ?_, hexec⟩
    obtain ⟨x, bytes, heval⟩ :=
      Function.returns hscoped (fun c => behaviour (Symbol.legalize c)) hargs []
    exact ⟨x, bytes, heval, (congrFun (hexec behaviour.meaning args) []).trans heval⟩

/-- Of two parameters of one name the last is meant. Here `h` is called inside its own
    arguments and the result compared; whatever `h` does, the five instructions do it as
    often and in the same order as the body says. -/
theorem emitted_code_means_body_at_repeated : ∃ r : Code.Routine Code.FuncRef,
    r.code.length = 5 ∧ r.SingleAssignment ∧
    ∀ (behaviour : Behaviour) (x y : Float), ∃ z bytes,
      Function.eval (fun c => behaviour.meaning (Symbol.legalize c)) ⟨⟨"h", ["x", "x"]⟩,
        .binary '<' (.call "h" [.call "h" [.var "x", .var "x"], .var "x"]) (.var "x")⟩
        [x, y] [] = .ok (z, bytes) ∧
      r.exec (fun ref => behaviour.meaning ref.symbol) [x, y] [] = .ok (z, bytes) := by
  have hsymbol : symbolFor "h" {} = .ok "h" {} := rfl
  have hresolve : resolve ⟨"h", ["x", "x"]⟩ "h" []
      (.binary '<' (.call "h" [.call "h" [.var "x", .var "x"], .var "x"]) (.var "x")) {} =
      .ok [] {} := rfl
  have h := emitted_code_means_body (f := ⟨⟨"h", ["x", "x"]⟩, _⟩) hsymbol hresolve rfl
  exact ⟨_, rfl, h.1, fun behaviour x y => h.2.1 behaviour [x, y] rfl⟩

end Build

end Abacus
