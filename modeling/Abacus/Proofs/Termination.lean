-- SUMMARY: In a session, linked code ends exactly if its calls lead into no cycle.
import Abacus.Proofs.CallGraph
import Abacus.Proofs.Safety

/-!
# Termination

A routine of an engine never gets stuck and makes every call that it has, so the only
thing that can keep it from ending is a cycle of calls. A cycle stays within one engine,
since calls into other engines go to older ones.

What an intrinsic does with a number of arguments other than one is not for the calculator
to say: an extern may give it any number. The host is therefore a parameter here. All that
matters is that it returns when it is called as the externs say.
-/

namespace Abacus

open Relation

/-- The host returns from an intrinsic at as many arguments as an extern has parameters. -/
def Ledger.Served (ledger : Ledger) (host : Code.Meaning Intrinsic) : Prop :=
  ∀ i args, ledger.Imports i.symbol args.length → ∀ out, ∃ result, host i args out = .ok result

/-- The intrinsics themselves are such a host. -/
theorem Ledger.served (ledger : Ledger) : ledger.Served Intrinsic.exec := by
  intro i args _ out
  obtain ⟨x, out', hexec⟩ := (i.only_exec args).returns out
  exact ⟨(x, out'), hexec⟩

namespace Engine

variable {engines : List Engine} {host : Code.Meaning Intrinsic} {a : Address}

/-- Running the routine at an address comes to an end. -/
def Terminates (host : Code.Meaning Intrinsic) (engines : List Engine) (a : Address)
    (args : List Float) (out : List UInt8) : Prop :=
  ∃ depth result, runWith host engines depth (.code a) args out = .ok result

/-- What a call with `n` arguments goes to: code with `n` parameters, or an intrinsic from
    which the host returns. -/
inductive Serves (host : Code.Meaning Intrinsic) (engines : List Engine) (n : Nat) :
    Link Address → Prop where
  | code {a : Address} {r : Code.Routine (Link Address)} (body : fetch? engines a = some r)
      (arity : r.arity = n) : Serves host engines n (.code a)
  | host {i : Intrinsic}
      (returns : ∀ args, args.length = n → ∀ out, ∃ result, host i args out = .ok result) :
      Serves host engines n (.host i)

/-- A routine does what a function does whose body is in order, and whose calls are all
    served. -/
structure Performs (host : Code.Meaning Intrinsic) (engines : List Engine) (f : Function)
    (target : String → Link Address) (r : Code.Routine (Link Address)) : Prop where
  arity_eq : r.arity = f.proto.arity
  exec_eq : ∀ call args, r.exec call args = f.eval (fun callee => call (target callee)) args
  inScope : f.body.Scoped f.proto.params fun callee n =>
    target callee ∈ r.callees ∧ Serves host engines n (target callee)

/-- If all calls are served, a run halts only for want of levels. -/
theorem only_runWith
    (h : ∀ a r, fetch? engines a = some r → ∃ f target, Performs host engines f target r)
    (depth : Nat) {r : Code.Routine (Link Address)} (hr : fetch? engines a = some r)
    {args : List Float} (hargs : args.length = r.arity) :
    (runWith host engines depth (.code a) args).Only
      (fun reason => reason = .tooDeep ∧ ¬ Within engines depth (.code a)) fun _ => True := by
  induction depth generalizing a r args with
  | zero => exact fun _ => ⟨rfl, id⟩
  | succ depth ih =>
    obtain ⟨f, target, hperforms⟩ := h a r hr
    rw [runWith, hr]
    dsimp only
    rw [hperforms.exec_eq]
    refine Function.only_eval hperforms.inScope ?_ (hargs.trans hperforms.arity_eq)
    rintro callee n ⟨hmem, hserves⟩ xs hxs
    generalize target callee = link at hmem hserves
    cases hserves with
    | code body arity =>
      -- A callee that needs more levels makes its caller need more.
      refine (ih body (hxs.trans arity.symm)).imp fun reason hreason => ⟨hreason.1, ?_⟩
      rintro ⟨r', hr', hcallees⟩
      rw [hr] at hr'
      cases hr'
      exact hreason.2 (hcallees _ hmem)
    | @host i returns =>
      intro out
      obtain ⟨result, hresult⟩ := returns xs hxs out
      have hrun : runWith host engines depth (.host i) xs out = .ok result := by
        cases depth <;> exact hresult
      rw [hrun]
      trivial

/-- If all calls are served, a run ends exactly if its calls lead into no cycle. Else it
    exceeds every depth. -/
theorem terminates_iff
    (h : ∀ a r, fetch? engines a = some r → ∃ f target, Performs host engines f target r)
    (hcomplete : Complete engines) {r : Code.Routine (Link Address)}
    (hr : fetch? engines a = some r) {args : List Float} (hargs : args.length = r.arity)
    (out : List UInt8) :
    (Terminates host engines a args out ↔ ¬ ReachesCycle engines a) ∧
    (ReachesCycle engines a → ∀ depth,
      runWith host engines depth (.code a) args out = .error .tooDeep) := by
  refine ⟨⟨?_, ?_⟩, ?_⟩
  · rintro ⟨depth, result, hrun⟩
    exact not_reachesCycle_of_within (within_of_runWith hrun)
  · intro hcycle
    obtain ⟨depth, hdepth⟩ := (exists_within_iff hcomplete hr).mpr hcycle
    have honly := (only_runWith h depth hr hargs).imp fun _ hreason => hreason.2 hdepth
    obtain ⟨x, out', hrun⟩ := honly.returns out
    exact ⟨depth, (x, out'), hrun⟩
  · intro hcycle depth
    have honly := only_runWith h depth hr hargs out
    cases hrun : runWith host engines depth (.code a) args out with
    | ok result => exact absurd hcycle (not_reachesCycle_of_within (within_of_runWith hrun))
    | error reason =>
      rw [hrun] at honly
      rw [honly.1]

end Engine

namespace Session

open Workspace Engine

variable {s : World} {w : Workspace} {ledger : Ledger}

theorem complete_of_linked (hw : w.Coherent) (hl : w.Linked) : Complete w.engines := by
  rintro a b ⟨r, hr, hmem⟩
  obtain ⟨e, he, hcode, -⟩ := fetch?_eq_some hr
  obtain ⟨u, q, hu, hq, hlink⟩ := hl.exists_routine he hcode
  obtain ⟨ref, href, hbind⟩ := (Code.Routine.mem_callees_of_link hlink).mp hmem
  have hdeclares := (wellFormed_of_closed hw hu).callee_declared q hq ref href
  obtain ⟨r', -, hr', -⟩ := body_of_bind hw hl hu hdeclares hbind
  exact ⟨r', hr'⟩

theorem engine_le_of_calls (hl : w.Linked) {a b : Address} (h : Calls w.engines a b) :
    b.engine ≤ a.engine := by
  obtain ⟨r, hr, hmem⟩ := h
  obtain ⟨e, he, hcode, -⟩ := fetch?_eq_some hr
  exact hl.callee_engine_le he hcode hmem

/-- However many calls are made, they never get to a younger engine. -/
theorem engine_le_of_reach (hl : w.Linked) {a b : Address} (h : TransGen (Calls w.engines) a b) :
    b.engine ≤ a.engine := by
  induction h with
  | single hcall => exact engine_le_of_calls hl hcall
  | tail _ hcall ih => exact (engine_le_of_calls hl hcall).trans ih

/-- A call that was bound to the host has as many arguments as an extern has parameters. -/
theorem Vouched.imports_of_bind (h : Vouched ledger w) (hl : w.Linked) {k : Nat} {u : CodeUnit}
    (hu : w.closed[k]? = some u) {ref : Code.FuncRef} {n : Nat} {i : Intrinsic}
    (hdeclares : u.Declares ref.symbol ref.id n)
    (hbind : u.bind k ⟨(w.engines.take k).map (·.symbols)⟩ ref = .ok (.host i)) :
    ledger.Imports i.symbol n := by
  obtain ⟨hintrinsic, hnone⟩ := bodiless_of_bind hl hu hbind
  obtain ⟨d, hd, hds, -, rfl⟩ := hdeclares
  rw [Intrinsic.symbol_of_ofSymbol? hintrinsic, ← hds]
  cases h.backed k u hu d hd with
  | inl himports => exact himports
  | inr hbody =>
    obtain ⟨j, v, hj, hv, hdef⟩ := hbody
    rw [hds, hnone j hj v hv] at hdef
    cases hdef

/-- A call that was bound is served. -/
theorem Vouched.serves_of_bind (h : Vouched ledger w) (hw : w.Coherent) (hl : w.Linked)
    {host : Code.Meaning Intrinsic} (hhost : ledger.Served host) {k : Nat} {u : CodeUnit}
    (hu : w.closed[k]? = some u) {ref : Code.FuncRef} {n : Nat} {link : Link Address}
    (hdeclares : u.Declares ref.symbol ref.id n)
    (hbind : u.bind k ⟨(w.engines.take k).map (·.symbols)⟩ ref = .ok link) :
    Serves host w.engines n link := by
  cases link with
  | code a =>
    obtain ⟨r, -, hr, -, harity⟩ := body_of_bind hw hl hu hdeclares hbind
    exact .code hr harity
  | host i =>
    refine .host fun args hargs out => hhost i args ?_ out
    rw [hargs]
    exact h.imports_of_bind hl hu hdeclares hbind

/-- Every routine does what a function does whose calls are served. -/
theorem Vouched.exists_performs (h : Vouched ledger w) (hw : w.Coherent) (hl : w.Linked)
    {host : Code.Meaning Intrinsic} (hhost : ledger.Served host) {a : Address}
    {r : Code.Routine (Link Address)} (hr : fetch? w.engines a = some r) :
    ∃ f target, Performs host w.engines f target r := by
  obtain ⟨e, he, hcode, -⟩ := fetch?_eq_some hr
  obtain ⟨item, -, f, u, target, -, hu, hbound⟩ := exists_bound hw hl h.checked he hcode
  refine ⟨f, target, hbound.arity_eq, hbound.exec_eq, ?_⟩
  refine hbound.inScope.imp fun callee hcallee n hcall => ⟨hbound.target_mem callee hcallee, ?_⟩
  obtain ⟨ref, rfl, hdeclares, hbind⟩ := hcall
  exact h.serves_of_bind hw hl hhost hu hdeclares hbind

/-- In every engine of a session, running a routine at as many arguments as it has
    parameters ends exactly if no cycle can be reached from it in the graph of linked
    calls; else it exceeds every depth. This holds whatever the host does, as long as it
    returns, and so for the intrinsics themselves, where a run that ends does so within the
    depth bound. So whether it ends does not depend on
    the arguments. Calls that leave an engine go to older ones, and all addresses on a
    cycle are in one engine. -/
theorem terminates_iff_no_cycle (h : Attained ledger s) (k : Nat) (e : Engine)
    (he : s.workspace.engines[k]? = some e) (r : Code.Routine (Link Address)) (hr : r ∈ e.code) :
    fetch? s.workspace.engines ⟨k, r.id⟩ = some r ∧
    (∀ host, ledger.Served host → ∀ args, args.length = r.arity → ∀ out,
      (Terminates host s.workspace.engines ⟨k, r.id⟩ args out ↔
        ¬ ReachesCycle s.workspace.engines ⟨k, r.id⟩) ∧
      (ReachesCycle s.workspace.engines ⟨k, r.id⟩ → ∀ depth,
        runWith host s.workspace.engines depth (.code ⟨k, r.id⟩) args out = .error .tooDeep)) ∧
    (∀ args, args.length = r.arity → ∀ out,
      ((∃ result, Engine.run s.workspace.engines (depthBound s.workspace.engines)
        (.code ⟨k, r.id⟩) args out = .ok result) ↔
        ¬ ReachesCycle s.workspace.engines ⟨k, r.id⟩)) ∧
    (∀ host, ledger.Served host → ∀ args args', args.length = r.arity → args'.length = r.arity →
      ∀ out out', Terminates host s.workspace.engines ⟨k, r.id⟩ args out ↔
        Terminates host s.workspace.engines ⟨k, r.id⟩ args' out') ∧
    (∀ a b, Calls s.workspace.engines a b → b.engine = a.engine ∨ b.engine < a.engine) ∧
    (∀ a b, TransGen (Calls s.workspace.engines) a b → TransGen (Calls s.workspace.engines) b a →
      a.engine = b.engine) := by
  obtain ⟨hw, hl, hvouched⟩ := h.vouched
  have hfetch := fetch?_of_mem hw hl he hr
  have hiff : ∀ host, ledger.Served host → ∀ args, args.length = r.arity → ∀ out,
      (Terminates host s.workspace.engines ⟨k, r.id⟩ args out ↔
        ¬ ReachesCycle s.workspace.engines ⟨k, r.id⟩) ∧
      (ReachesCycle s.workspace.engines ⟨k, r.id⟩ → ∀ depth,
        runWith host s.workspace.engines depth (.code ⟨k, r.id⟩) args out = .error .tooDeep) := by
    intro host hhost args hargs out
    exact terminates_iff (fun a r hr => hvouched.exists_performs hw hl hhost hr)
      (complete_of_linked hw hl) hfetch hargs out
  refine ⟨hfetch, hiff, ?_, ?_, ?_, ?_⟩
  · intro args hargs out
    rw [← (hiff _ ledger.served args hargs out).1]
    constructor
    · rintro ⟨result, hrun⟩
      rw [run_eq_runWith] at hrun
      exact ⟨_, result, hrun⟩
    · rintro ⟨depth, result, hrun⟩
      rw [← run_eq_runWith] at hrun
      exact ⟨result, run_depthBound hrun⟩
  · intro host hhost args args' hargs hargs' out out'
    rw [(hiff host hhost args hargs out).1, (hiff host hhost args' hargs' out').1]
  · intro a b hcall
    exact Nat.eq_or_lt_of_le (engine_le_of_calls hl hcall)
  · intro a b hab hba
    exact Nat.le_antisymm (engine_le_of_reach hl hba) (engine_le_of_reach hl hab)

/-- After `def f(x) f(x)` and the expression `1`, the code of the expression ends, and `f`
    does not. -/
theorem terminates_iff_no_cycle_at_self_call : ∃ ledger s, Attained ledger s ∧
    ledger.Served Intrinsic.exec ∧
    Terminates Intrinsic.exec s.workspace.engines ⟨0, 1⟩ [] [] ∧
    ∀ x, ¬ Terminates Intrinsic.exec s.workspace.engines ⟨0, 0⟩ [x] [] := by
  have p₁ : (Item.definition ⟨⟨"f", ["x"]⟩, .call "f" [.var "x"]⟩).Parsed :=
    ⟨.standard, "def f(x) f(x)", .ofText "def f(x) f(x)", _, List.suffix_rfl, rfl⟩
  have p₂ : (Item.expression ⟨.anonymous, .number (Numeral.value ['1'])⟩).Parsed :=
    ⟨.standard, "1", .ofText "1", _, List.suffix_rfl, rfl⟩
  have h₁ : Trace _ _ { workspace := {
      current := some {
        name := "unit_0"
        declarations := [
          { name := "f", symbol := "f", arity := 1, id := 0, linkage := .exported, hasBody := true }]
        routines := [⟨0, "f", 1, [.call ⟨0, 0, "f", 1, true⟩ [0]], 1⟩] }
      nextUnit := 1 } } :=
    (Trace.start {}).accepted p₁ rfl
  have h₂ : Trace _ _ { workspace := {
      supply := ⟨1⟩
      closed := [{
        name := "unit_0"
        declarations := [
          { name := "f", symbol := "f", arity := 1, id := 0, linkage := .exported, hasBody := true },
          { name := "", symbol := "anon_func_0", arity := 0, id := 1, linkage := .exported,
            hasBody := true }]
        routines := [
          ⟨0, "f", 1, [.call ⟨0, 0, "f", 1, true⟩ [0]], 1⟩,
          ⟨1, "anon_func_0", 0, [.const (Numeral.value ['1'])], 0⟩] }]
      engines := [{
        unit := "unit_0"
        symbols := [("f", ⟨0, 0⟩), ("anon_func_0", ⟨0, 1⟩)]
        code := [
          ⟨0, "f", 1, [.call (.code ⟨0, 0⟩) [0]], 1⟩,
          ⟨1, "anon_func_0", 0, [.const (Numeral.value ['1'])], 0⟩] }]
      registry := ⟨[[("f", ⟨0, 0⟩), ("anon_func_0", ⟨0, 1⟩)]]⟩
      nextUnit := 1 } } :=
    h₁.accepted p₂ rfl
  have h := Attained.settled h₂
  obtain ⟨-, hloops, -⟩ := terminates_iff_no_cycle h 0 _ rfl _ List.mem_cons_self
  obtain ⟨-, hends, -⟩ := terminates_iff_no_cycle h 0 _ rfl _
    (List.mem_cons_of_mem _ List.mem_cons_self)
  refine ⟨_, _, h, Ledger.served _, ?_, fun x hterminates => ?_⟩
  · rw [(hends _ (Ledger.served _) [] rfl []).1]
    exact not_reachesCycle_of_within (d := 1) ⟨_, rfl, fun callee hcallee => nomatch hcallee⟩
  · rw [(hloops _ (Ledger.served _) [x] rfl []).1] at hterminates
    exact hterminates ⟨⟨0, 0⟩, .refl, .single ⟨_, rfl, by decide⟩⟩

end Session

end Abacus
