-- SUMMARY: Linked code never gets stuck.
import Abacus.Proofs.Calls
import Abacus.Proofs.Reference
import Abacus.Proofs.Vetting
import Mathlib.Tactic.Choose

/-!
# Safety of linked code

Every routine of an engine realizes a function whose body is in order: its
variables are parameters, its operators have a meaning, and each call goes to a
body with as many parameters as the call has arguments, in the same engine or an
older one, or else to an intrinsic with one argument.

From that alone, running is never stuck, at any depth of calls. The induction is
on the depth; a call costs one level and lands on a routine of an engine again.
-/

namespace Abacus

/-- A unit declares a symbol once. -/
theorem CodeUnit.Declares.unique {u : CodeUnit} (hu : u.WellFormed) {symbol : String}
    {id id' n n' : Nat} (h : u.Declares symbol id n) (h' : u.Declares symbol id' n') :
    id = id' ∧ n = n' := by
  obtain ⟨d, hd, hds, rfl, rfl⟩ := h
  obtain ⟨d', hd', hds', rfl, rfl⟩ := h'
  obtain rfl := hu.eq_of_symbol_eq hd hd' (hds.trans hds'.symm)
  exact ⟨rfl, rfl⟩

namespace Engine

/-- What a call by name with `n` arguments goes to in the `k`-th engine: a body of
    that name with `n` parameters, there or in an older engine, or, if there is
    none, the intrinsic of that name. -/
inductive Reaches (engines : List Engine) (k : Nat) (name : String) (n : Nat) :
    Link Address → Prop where
  | code {a : Address} {r : Code.Routine (Link Address)} (engine : a.engine ≤ k)
      (body : fetch? engines a = some r) (symbol : r.symbol = name) (arity : r.arity = n) :
      Reaches engines k name n (.code a)
  | host {i : Intrinsic} (symbol : i.symbol = name) (arity : n = 1)
      (bodiless : ∀ j ≤ k, ∀ e, engines[j]? = some e → e.defines name = false) :
      Reaches engines k name n (.host i)

/-- A routine of the `k`-th engine does what a function does whose body is in order,
    with every call going to its target. -/
structure Realizes (engines : List Engine) (k : Nat) (f : Function)
    (target : String → Link Address) (r : Code.Routine (Link Address)) : Prop where
  arity_eq : r.arity = f.proto.arity
  exec_eq : ∀ call args, r.exec call args = f.eval (fun callee => call (target callee)) args
  target_mem : ∀ callee ∈ f.body.callees, target callee ∈ r.callees
  inScope : f.body.Scoped f.proto.params fun callee n =>
    Reaches engines k callee n (target callee)

variable {engines : List Engine}

/-- A call that reaches something is not stuck, if code is not one level deeper. -/
theorem Reaches.safe_run {depth k n : Nat} {name : String} {link : Link Address}
    (h : Reaches engines k name n link)
    (hcode : ∀ {a : Address} {r : Code.Routine (Link Address)}, fetch? engines a = some r →
      ∀ {args : List Float}, args.length = r.arity →
        (run engines depth (.code a) args).Safe fun _ => True)
    {args : List Float} (hargs : args.length = n) :
    (run engines depth link args).Safe fun _ => True := by
  cases h with
  | code engine body symbol arity => exact hcode body (hargs.trans arity.symm)
  | @host i symbol arity bodiless =>
    have hrun : run engines depth (.host i) args = i.exec args := by cases depth <;> rfl
    rw [hrun]
    exact i.only_exec args

/-- If every routine realizes a function, no routine is ever stuck. -/
theorem safe_run
    (h : ∀ k e, engines[k]? = some e → ∀ r ∈ e.code, ∃ f target, Realizes engines k f target r)
    (depth : Nat) {a : Address} {r : Code.Routine (Link Address)}
    (hfetch : fetch? engines a = some r) {args : List Float} (hargs : args.length = r.arity) :
    (run engines depth (.code a) args).Safe fun _ => True := by
  induction depth generalizing a r args with
  | zero =>
    intro out hstuck
    cases hstuck
  | succ depth ih =>
    obtain ⟨e, he, hr, -⟩ := fetch?_eq_some hfetch
    obtain ⟨f, target, hrealizes⟩ := h a.engine e he r hr
    rw [run, hfetch]
    dsimp only
    rw [hrealizes.exec_eq]
    refine Function.only_eval hrealizes.inScope ?_ (hargs.trans hrealizes.arity_eq)
    intro callee n hreaches xs hxs
    exact hreaches.safe_run ih hxs

end Engine

namespace Session

open Build Workspace Engine

variable {s s' : World} {w : Workspace} {f : Function} {ledger : Ledger} {k : Nat} {u : CodeUnit}

/-! ## Bodies -/

/-- The routines of a closed unit are found under their numbers. -/
theorem fetch?_of_routine (hw : w.Coherent) (hl : w.Linked) (hu : w.closed[k]? = some u)
    {r : Code.Routine Code.FuncRef} (hr : r ∈ u.routines) :
    ∃ r', fetch? w.engines ⟨k, r.id⟩ = some r' ∧
      r.link (u.bind k ⟨(w.engines.take k).map (·.symbols)⟩) = .ok r' := by
  obtain ⟨e, he⟩ := hl.exists_engine hu
  obtain ⟨r', hr', hlink⟩ :=
    CodeUnit.routine?_of_mem (wellFormed_of_closed hw hu) (hl.link_eq k u e hu he) hr
  refine ⟨r', ?_, hlink⟩
  rw [fetch?, he]
  exact hr'

/-- A routine of an engine is what its number stands for. -/
theorem fetch?_of_mem (hw : w.Coherent) (hl : w.Linked) {e : Engine}
    (he : w.engines[k]? = some e) {r : Code.Routine (Link Address)} (hr : r ∈ e.code) :
    fetch? w.engines ⟨k, r.id⟩ = some r := by
  obtain ⟨u, q, hu, hq, hlink⟩ := hl.exists_routine he hr
  obtain ⟨r', hfetch, hlink'⟩ := fetch?_of_routine hw hl hu hq
  rw [hlink] at hlink'
  cases hlink'
  rw [Code.Routine.id_of_link hlink]
  exact hfetch

/-- What a closed unit defines has a routine, with the symbol and the number of
    parameters that were declared. -/
theorem body_of_declaration (hw : w.Coherent) (hl : w.Linked) (hu : w.closed[k]? = some u)
    {d : Declaration} (hd : d ∈ u.declarations) (hb : d.hasBody = true) :
    ∃ r, fetch? w.engines ⟨k, d.id⟩ = some r ∧ r.symbol = d.symbol ∧ r.arity = d.arity := by
  have hwf := wellFormed_of_closed hw hu
  obtain ⟨q, hq, hqs⟩ := hwf.routine_of_declaration d hd hb
  obtain ⟨d', hd', -, hds, hdi, hda⟩ := hwf.declaration_of_routine q hq
  obtain rfl := hwf.eq_of_symbol_eq hd' hd (hds.trans hqs)
  obtain ⟨r, hfetch, hlink⟩ := fetch?_of_routine hw hl hu hq
  obtain ⟨code, -, rfl⟩ := Code.Routine.link_ok.mp hlink
  exact ⟨_, hdi ▸ hfetch, hqs, hda.symm⟩

/-! ## Calls -/

/-- A symbol that a unit found neither in itself nor in older engines has no body in
    any of them. -/
theorem bodiless_of_unresolved (hl : w.Linked) (hu : w.closed[k]? = some u) {symbol : String}
    (hdef : u.defines symbol = false)
    (haddress : (⟨(w.engines.take k).map (·.symbols)⟩ : Registry Address).address? symbol = none)
    {j : Nat} (hj : j ≤ k) {v : CodeUnit} (hv : w.closed[j]? = some v) :
    v.defines symbol = false := by
  cases Nat.lt_or_eq_of_le hj with
  | inl hlt => exact hl.address?_take_eq_none haddress hlt hv
  | inr heq =>
    rw [heq, hu] at hv
    cases hv
    exact hdef

/-- A call that was bound to code goes to a body with as many parameters as were
    declared, in the unit itself or in an older one. -/
theorem body_of_bind (hw : w.Coherent) (hl : w.Linked) (hu : w.closed[k]? = some u)
    {ref : Code.FuncRef} {n : Nat} {a : Address} (hdeclares : u.Declares ref.symbol ref.id n)
    (hbind : u.bind k ⟨(w.engines.take k).map (·.symbols)⟩ ref = .ok (.code a)) :
    ∃ r, a.engine ≤ k ∧ fetch? w.engines a = some r ∧ r.symbol = ref.symbol ∧ r.arity = n := by
  have hwf := wellFormed_of_closed hw hu
  obtain ⟨d, hd, hds, hdi, rfl⟩ := hdeclares
  cases CodeUnit.bind_eq_code hbind with
  | inl hown =>
    -- The body is in the unit itself, under the number that was declared.
    obtain ⟨hdef, rfl⟩ := hown
    obtain ⟨b, hb, hbs, hbody⟩ := CodeUnit.defines_iff.mp hdef
    obtain rfl := hwf.eq_of_symbol_eq hb hd (hbs.trans hds.symm)
    obtain ⟨r, hfetch, hrs, hra⟩ := body_of_declaration hw hl hu hb hbody
    exact ⟨r, Nat.le_refl k, hdi ▸ hfetch, hrs.trans hds, hra⟩
  | inr holder =>
    -- The body is in an older unit, which agrees on the number of parameters.
    obtain ⟨j, v, hj, hv, hlookup⟩ := hl.address?_take holder.2
    obtain ⟨b, hb, hbody, hbs, rfl⟩ := CodeUnit.lookup_addresses hlookup
    obtain ⟨r, hfetch, hrs, hra⟩ := body_of_declaration hw hl hv hb hbody
    have harity : b.arity = d.arity :=
      hw.arity_eq v (List.mem_append_left _ (List.mem_of_getElem? hv)) u
        (List.mem_append_left _ (List.mem_of_getElem? hu)) b hb d hd (hbs.trans hds.symm)
    exact ⟨r, Nat.le_of_lt hj, hfetch, hrs.trans hbs, hra.trans harity⟩

/-- A call that was bound to the host found no body in the unit or an older one. -/
theorem bodiless_of_bind (hl : w.Linked) (hu : w.closed[k]? = some u) {ref : Code.FuncRef}
    {i : Intrinsic}
    (hbind : u.bind k ⟨(w.engines.take k).map (·.symbols)⟩ ref = .ok (.host i)) :
    Intrinsic.ofSymbol? ref.symbol = some i ∧ ∀ j ≤ k, ∀ v, w.closed[j]? = some v →
      v.defines ref.symbol = false := by
  obtain ⟨hdef, haddress, hintrinsic⟩ := CodeUnit.bind_eq_host hbind
  exact ⟨hintrinsic, fun j hj v hv => bodiless_of_unresolved hl hu hdef haddress hj hv⟩

/-- A call that was bound reaches what it was declared as. -/
theorem reaches_of_bind (hw : w.Coherent) (hl : w.Linked) (h : Vetted ledger w)
    (hu : w.closed[k]? = some u) {ref : Code.FuncRef} {n : Nat} {link : Link Address}
    (hdeclares : u.Declares ref.symbol ref.id n)
    (hbind : u.bind k ⟨(w.engines.take k).map (·.symbols)⟩ ref = .ok link) :
    Reaches w.engines k ref.symbol n link := by
  cases link with
  | code a =>
    obtain ⟨r, hengine, hfetch, hrs, hra⟩ := body_of_bind hw hl hu hdeclares hbind
    exact .code hengine hfetch hrs hra
  | host i =>
    obtain ⟨hintrinsic, hnone⟩ := bodiless_of_bind hl hu hbind
    refine .host (Intrinsic.symbol_of_ofSymbol? hintrinsic) ?_ fun j hj e he => ?_
    · obtain ⟨d, hd, hds, -, rfl⟩ := hdeclares
      have hhost : (Intrinsic.ofSymbol? d.symbol).isSome = true := by
        rw [hds, hintrinsic]
        rfl
      cases h.backed k u hu d hd hhost with
      | inl harity => exact harity
      | inr hbody =>
        obtain ⟨j, v, hj, hv, hv'⟩ := hbody
        rw [hds, hnone j hj v hv] at hv'
        cases hv'
    · obtain ⟨v, hv⟩ := hl.exists_unit he
      rw [hl.defines_iff hv he]
      exact hnone j hj v hv

/-! ## Functions -/

/-- A routine of the `k`-th engine does what a function does whose calls agree with what
    the unit declares, with every call going to what it was bound to. -/
structure Bound (w : Workspace) (k : Nat) (u : CodeUnit) (f : Function)
    (target : String → Link Address) (r : Code.Routine (Link Address)) : Prop where
  arity_eq : r.arity = f.proto.arity
  exec_eq : ∀ call args, r.exec call args = f.eval (fun callee => call (target callee)) args
  target_mem : ∀ callee ∈ f.body.callees, target callee ∈ r.callees
  inScope : f.body.Scoped f.proto.params fun callee n => ∃ ref : Code.FuncRef,
    ref.symbol = callee ∧ u.Declares ref.symbol ref.id n ∧
      u.bind k ⟨(w.engines.take k).map (·.symbols)⟩ ref = .ok (target callee)

/-- A routine that was checked and then linked does what its function does. -/
theorem bound_of_checks (hw : w.Coherent) (hu : w.closed[k]? = some u)
    {r : Code.Routine Code.FuncRef} (hchecks : u.Checks f r)
    {r' : Code.Routine (Link Address)}
    (hlink : r.link (u.bind k ⟨(w.engines.take k).map (·.symbols)⟩) = .ok r') :
    ∃ target, Bound w k u f target r' := by
  have hwf := wellFormed_of_closed hw hu
  have harity := hchecks.compiles.arity_eq
  obtain ⟨decl, scope, hparams, -, -, hcode, hscope⟩ := hchecks.compiles
  -- Where a call goes depends on the name of the callee alone.
  have hbound : ∀ c ∈ f.body.callees, ∃ link, ∀ index d, scope.callee? c = some d →
      u.bind k ⟨(w.engines.take k).map (·.symbols)⟩ (.to index d) = .ok link := by
    intro c hc
    obtain ⟨index, d, hd, href⟩ := Code.exists_ref_of_callee hcode hc
    obtain ⟨link, hbind⟩ := Code.Routine.bound_of_link hlink href
    refine ⟨link, fun index' d' hd' => ?_⟩
    rw [hd] at hd'
    cases hd'
    exact hbind
  have : Nonempty (Link Address) := ⟨.host .sin⟩
  choose! target htarget using hbound
  refine ⟨target, ?_, fun call args => ?_, fun c hc => ?_, ?_⟩
  · obtain ⟨code, -, rfl⟩ := Code.Routine.link_ok.mp hlink
    exact harity
  · rw [Code.Routine.exec_link hlink]
    refine Code.exec_ofExpr hcode hparams (fun c hc d index hd => ?_) args
    exact Code.Meaning.via_of_ok (htarget c hc index d hd)
  · obtain ⟨index, d, hd, href⟩ := Code.exists_ref_of_callee hcode hc
    exact (Code.Routine.mem_callees_of_link hlink).mpr ⟨_, href, htarget c hc index d hd⟩
  · refine hchecks.inScope.imp fun c hc n ⟨id, hdeclares⟩ => ?_
    obtain ⟨index, d, hd, -⟩ := Code.exists_ref_of_callee hcode hc
    obtain ⟨hds, hdeclared⟩ := hscope c d hd
    rw [(hchecks.plain c hc).legalize_eq] at hds
    subst hds
    obtain ⟨rfl, rfl⟩ := hdeclares.unique hwf hdeclared
    exact ⟨.to index d, rfl, hdeclared, htarget d.symbol hc index d hd⟩

/-- Every routine of an engine does what a function of the ledger does. -/
theorem exists_bound (hw : w.Coherent) (hl : w.Linked)
    (hchecked : ∀ (k : Nat) (u : CodeUnit), (shelf w)[k]? = some u → ∀ r ∈ u.routines,
      ∃ item ∈ ledger, ∃ f, item.function? = some f ∧ u.Checks f r) {e : Engine}
    (he : w.engines[k]? = some e) {r : Code.Routine (Link Address)} (hr : r ∈ e.code) :
    ∃ item ∈ ledger, ∃ f u target, item.function? = some f ∧ w.closed[k]? = some u ∧
      Bound w k u f target r := by
  obtain ⟨u, q, hu, hq, hlink⟩ := hl.exists_routine he hr
  have hshelf : (shelf w)[k]? = some u := getElem?_concat_eq_some.mpr (.inl hu)
  obtain ⟨item, hitem, f, hf, hchecks⟩ := hchecked k u hshelf q hq
  obtain ⟨target, hbound⟩ := bound_of_checks hw hu hchecks hlink
  exact ⟨item, hitem, f, u, target, hf, hu, hbound⟩

/-- Every routine of an engine realizes a function of the ledger. -/
theorem Vetted.exists_realizes (h : Vetted ledger w) (hw : w.Coherent) (hl : w.Linked) {e : Engine}
    (he : w.engines[k]? = some e) {r : Code.Routine (Link Address)} (hr : r ∈ e.code) :
    ∃ item ∈ ledger, ∃ f target, item.function? = some f ∧ Realizes w.engines k f target r := by
  obtain ⟨item, hitem, f, u, target, hf, hu, hbound⟩ := exists_bound hw hl h.checked he hr
  refine ⟨item, hitem, f, target, hf, hbound.arity_eq, hbound.exec_eq, hbound.target_mem, ?_⟩
  refine hbound.inScope.imp fun c _ n hcall => ?_
  obtain ⟨ref, rfl, hdeclares, hbind⟩ := hcall
  exact reaches_of_bind hw hl h hu hdeclares hbind

/-! ## Sessions -/

/-- The worlds of a session that was not ended by a call that cannot be linked:
    those between two items, and that of an expression which was linked and came to
    no end. -/
inductive Attained : Ledger → World → Prop where
  | settled {items ledger : List Item} {s : World} (h : Trace items ledger s) : Attained ledger s
  | halted {items ledger : List Item} {s s' : World} {f : Function} {reason : Code.Halt}
      (h : Trace items ledger s) (parsed : (Item.expression f).Parsed)
      (error : handle (.expression f) s = .error (.halted reason) s') :
      Attained (ledger ++ [.expression f]) s'

/-- Whatever comes of running an expression, its unit was vouched for before. -/
theorem Attained.vouched (h : Attained ledger s) :
    s.workspace.Coherent ∧ s.workspace.Linked ∧ Vouched ledger s.workspace := by
  cases h with
  | settled h => exact ⟨h.sound.coherent, h.sound.linked, h.vouched⟩
  | halted h parsed error =>
    have hs := h.sound
    have hh := handled_handle hs.coherent hs.linked hs.fresh parsed.plain
    rw [error] at hh
    cases hh with
    | halted accepts placed run =>
      exact ⟨hs.coherent.steps placed.steps, hs.linked.steps placed.steps,
        h.vouched.placed hs.coherent parsed.plain accepts placed⟩

theorem Attained.vetted (h : Attained ledger s) (hfits : ledger.FitsHost) :
    s.workspace.Coherent ∧ s.workspace.Linked ∧ Vetted ledger s.workspace := by
  obtain ⟨hw, hl, hvouched⟩ := h.vouched
  exact ⟨hw, hl, hvouched.vetted hfits⟩

/-- In every engine of a session, every routine realizes a function that the session
    accepted: its variables are parameters, its operators have a meaning, and each of
    its calls goes to a body with as many parameters as the call has arguments, in
    the engine itself or an older one, or else to an intrinsic with one argument.
    Running it at as many arguments as it has parameters is never stuck. -/
theorem linked_code_never_stuck (h : Attained ledger s) (hfits : ledger.FitsHost) (k : Nat)
    (e : Engine) (he : s.workspace.engines[k]? = some e) (r : Code.Routine (Link Address))
    (hr : r ∈ e.code) :
    (∃ item ∈ ledger, ∃ f target, item.function? = some f ∧
      Realizes s.workspace.engines k f target r) ∧
    fetch? s.workspace.engines ⟨k, r.id⟩ = some r ∧
    ∀ (depth : Nat) (args : List Float), args.length = r.arity → ∀ out,
      Engine.run s.workspace.engines depth (.code ⟨k, r.id⟩) args out ≠ .error .stuck := by
  obtain ⟨hw, hl, hvetted⟩ := h.vetted hfits
  have hfetch := fetch?_of_mem hw hl he hr
  refine ⟨hvetted.exists_realizes hw hl he hr, hfetch, fun depth args hargs => ?_⟩
  refine (Engine.safe_run (fun k e he r hr => ?_) depth hfetch hargs).ne_stuck
  obtain ⟨item, -, f, target, -, htarget⟩ := hvetted.exists_realizes hw hl he hr
  exact ⟨f, target, htarget⟩

/-- After `extern sin(x)`, `def g(x) sin(x)` and the expression `g(2)` twice, the code
    of the second expression calls the first engine, which calls the host. -/
theorem linked_code_never_stuck_at_older_engine : ∃ ledger s, Attained ledger s ∧
    ledger.FitsHost ∧ ∃ e r, s.workspace.engines[1]? = some e ∧ r ∈ e.code ∧
      r.callees = [.code ⟨0, 1⟩] ∧
      (∃ item ∈ ledger, ∃ f target, item.function? = some f ∧
        Realizes s.workspace.engines 1 f target r) ∧
      ∀ depth out, Engine.run s.workspace.engines depth (.code ⟨1, r.id⟩) [] out ≠ .error .stuck := by
  have p₁ : (Item.external ⟨"sin", ["x"]⟩).Parsed :=
    ⟨.standard, "extern sin(x)", .ofText "extern sin(x)", _, List.suffix_rfl, rfl⟩
  have p₂ : (Item.definition ⟨⟨"g", ["x"]⟩, .call "sin" [.var "x"]⟩).Parsed :=
    ⟨.standard, "def g(x) sin(x)", .ofText "def g(x) sin(x)", _, List.suffix_rfl, rfl⟩
  have p₃ : (Item.expression ⟨.anonymous, .call "g" [.number (Numeral.value ['2'])]⟩).Parsed :=
    ⟨.standard, "g(2)", .ofText "g(2)", _, List.suffix_rfl, rfl⟩
  -- The worlds are written out so that each step starts from a value.
  have h₁ : Trace _ _ { workspace := {
      current := some {
        name := "unit_0"
        declarations := [
          { name := "sin", symbol := "sin", arity := 1, id := 0, linkage := .imported }] }
      nextUnit := 1 } } :=
    (Trace.start {}).accepted p₁ rfl
  have h₂ : Trace _ _ { workspace := {
      current := some {
        name := "unit_0"
        declarations := [
          { name := "sin", symbol := "sin", arity := 1, id := 0, linkage := .imported },
          { name := "g", symbol := "g", arity := 1, id := 1, linkage := .exported, hasBody := true }]
        routines := [⟨1, "g", 1, [.call ⟨0, 0, "sin", 1, false⟩ [0]], 1⟩] }
      nextUnit := 1 } } :=
    h₁.accepted p₂ rfl
  have h₃ : Trace _ _ { workspace := {
      supply := ⟨1⟩
      closed := [{
        name := "unit_0"
        declarations := [
          { name := "sin", symbol := "sin", arity := 1, id := 0, linkage := .imported },
          { name := "g", symbol := "g", arity := 1, id := 1, linkage := .exported, hasBody := true },
          { name := "", symbol := "anon_func_0", arity := 0, id := 2, linkage := .exported,
            hasBody := true }]
        routines := [
          ⟨1, "g", 1, [.call ⟨0, 0, "sin", 1, false⟩ [0]], 1⟩,
          ⟨2, "anon_func_0", 0,
            [.const (Numeral.value ['2']), .call ⟨0, 1, "g", 1, true⟩ [0]], 1⟩] }]
      engines := [{
        unit := "unit_0"
        symbols := [("g", ⟨0, 1⟩), ("anon_func_0", ⟨0, 2⟩)]
        code := [
          ⟨1, "g", 1, [.call (.host .sin) [0]], 1⟩,
          ⟨2, "anon_func_0", 0,
            [.const (Numeral.value ['2']), .call (.code ⟨0, 1⟩) [0]], 1⟩] }]
      registry := ⟨[[("g", ⟨0, 1⟩), ("anon_func_0", ⟨0, 2⟩)]]⟩
      nextUnit := 1 } } :=
    h₂.accepted p₃ rfl
  have hattained : ∃ ledger s, Attained ledger s ∧ ledger.FitsHost ∧ ∃ e r,
      s.workspace.engines[1]? = some e ∧ r ∈ e.code ∧ r.arity = 0 ∧
        r.callees = [.code ⟨0, 1⟩] := by
    refine ⟨_, _, .settled (h₃.accepted p₃ rfl), ?_, _, _, rfl, List.mem_cons_self, rfl, rfl⟩
    intro proto hproto _
    obtain rfl : proto = ⟨"sin", ["x"]⟩ := by simpa using hproto
    rfl
  obtain ⟨ledger, s, h, hfits, e, r, he, hr, harity, hcallees⟩ := hattained
  have hsafe := linked_code_never_stuck h hfits 1 e he r hr
  exact ⟨ledger, s, h, hfits, e, r, he, hr, hcallees, hsafe.1,
    fun depth => hsafe.2.2 depth [] harity.symm⟩

end Session

end Abacus
