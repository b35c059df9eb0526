-- SUMMARY: When finalizing the open unit aborts, and which symbol is reported.
import Abacus.Proofs.AddedCode

/-!
# Unresolved symbols

Finalizing aborts exactly if a function that was generated into the open unit
calls a symbol that dangles, and reports the first such symbol. Externs add
nothing to that: to declare a symbol is not to call it.

The operations may come in any order here, and symbols may be declared and marked
without any check, so the units need not agree with each other. All that matters
is that no operation but generating a function adds code to the open unit.
-/

namespace Abacus

/-- A symbol without a body in the open unit or in an engine, and not that of an
    intrinsic. -/
def Workspace.dangles (w : Workspace) (symbol : String) : Bool :=
  !w.current.any (·.defines symbol) && !w.engines.any (·.defines symbol) &&
    (Intrinsic.ofSymbol? symbol).isNone

namespace Build

open Workspace

variable {s s' : World} {w w' : Workspace} {bodies : List Function}

/-! ## Commands -/

/-- The operations of a workspace, and the declaring and marking of symbols without
    any check. -/
inductive Command where
  | checked (op : Op)
  | declare (name symbol : String) (arity : Nat) (linkage : Linkage)
  | markDefined (symbol : String)

def Command.perform : Command → Build Unit
  | .checked op => op.perform
  | .declare name symbol arity linkage => discard (Build.declare name symbol arity linkage)
  | .markDefined symbol => Build.markDefined symbol

/-- The worlds that commands can lead to, each with the functions that were
    generated into its open unit, in order. -/
inductive Assembled : List Function → World → Prop where
  | start (config : Config) : Assembled [] { workspace := { config } }
  | generated {bodies : List Function} {s s' : World} {f : Function} {handle : Handle}
      (h : Assembled bodies s) (ok : generate f s = .ok handle s') : Assembled (bodies ++ [f]) s'
  /-- Any other command, also one that fails. If it closes the unit, the next one
      starts without functions. -/
  | performed {bodies : List Function} {s : World} (h : Assembled bodies s) (command : Command)
      (other : ∀ f handle s', command = .checked (.generate f) → generate f s ≠ .ok handle s') :
      Assembled (if (left command.perform s).workspace.current.isSome then bodies else [])
        (left command.perform s)

theorem settled_perform (command : Command) (s : World)
    (other : ∀ f handle s', command = .checked (.generate f) → generate f s ≠ .ok handle s') :
    Settled s.workspace (left command.perform s).workspace := by
  cases command with
  | declare name symbol arity linkage =>
    simpa [Command.perform] using (inert_declare name symbol arity linkage).settles s
  | markDefined symbol => exact (inert_markDefined symbol).settles s
  | checked op =>
    cases op with
    | generate f =>
      have hcoded := coded_generate f s
      rw [Command.perform, Op.perform, left_discard]
      generalize hr : generate f s = r at hcoded
      cases hcoded with
      | ok => exact absurd hr (other f _ _ rfl)
      | error same => exact left_of_error hr ▸ .same same
    | symbolFor name =>
      simpa [Command.perform, Op.perform] using (inert_symbolFor name).settles s
    | declareExternal proto =>
      simpa [Command.perform, Op.perform] using (inert_declareExternal proto).settles s
    | findDeclaration symbol =>
      simpa [Command.perform, Op.perform] using (inert_findDeclaration symbol).settles s
    | checkDefinition name symbol arity => exact (inert_checkDefinition name symbol arity).settles s
    | openUnit => simpa [Command.perform, Op.perform] using inert_openUnit.settles s
    | finalize => simpa [Command.perform, Op.perform] using settles_finalize s
    | address symbol => simpa [Command.perform, Op.perform] using settles_address symbol s
    | evaluate handle => simpa [Command.perform, Op.perform] using settles_evaluate handle s

/-! ## The open unit -/

/-- The open unit makes the calls of some functions, and what the engines define is
    published. -/
structure Holds (bodies : List Function) (w : Workspace) : Prop where
  calls : w.unit.calls = bodies.flatMap (·.calls)
  published : w.registry.published = w.engines.map (·.symbols)

theorem Holds.same (h : Holds bodies w) (same : SameCode w w') : Holds bodies w' where
  calls := by rw [CodeUnit.calls, same.routines, ← h.calls, CodeUnit.calls]
  published := by rw [same.registry, same.engines, h.published]

/-- Without an open unit there is no code in it. -/
theorem Holds.nil (h : Holds bodies w) (hnone : w.current = none) : Holds [] w where
  calls := by simp [Workspace.unit, hnone, CodeUnit.numbered, CodeUnit.calls]
  published := h.published

theorem Holds.close (h : Holds bodies w) (u : CodeUnit) (e : Engine) : Holds [] (w.close u e) where
  calls := rfl
  published := by simp [Workspace.close, Registry.publish, h.published]

theorem Holds.settled (h : Holds bodies w) (hw : Settled w w') :
    Holds (if w'.current.isSome then bodies else []) w' := by
  cases hw with
  | closed => exact h.close _ _
  | same same =>
    cases hnone : w'.current with
    | some u => exact h.same same
    | none => exact (h.same same).nil hnone

theorem Holds.generated (h : Holds bodies s.workspace) {f : Function} {handle : Handle}
    (ok : generate f s = .ok handle s') : Holds (bodies ++ [f]) s'.workspace := by
  have hcoded := coded_generate f s
  rw [ok] at hcoded
  cases hcoded with
  | ok current routines calls engines registry =>
    have hunit : s.workspace.unit.routines.flatMap (·.calls) = bodies.flatMap (·.calls) := h.calls
    refine ⟨?_, ?_⟩
    · simp [unit_of_some current, CodeUnit.calls, routines, calls, hunit]
    · rw [registry, engines, h.published]

theorem Assembled.holds (h : Assembled bodies s) : Holds bodies s.workspace := by
  induction h with
  | start config => exact ⟨rfl, rfl⟩
  | generated _ ok ih => exact ih.generated ok
  | performed _ command other ih => exact ih.settled (settled_perform command _ other)

/-! ## Finalizing -/

theorem resolve_eq_none (hp : w.registry.published = w.engines.map (·.symbols)) (symbol : String) :
    (w.registry.resolve symbol).isNone =
      (!w.engines.any (·.defines symbol) && (Intrinsic.ofSymbol? symbol).isNone) := by
  have haddress : (w.registry.address? symbol).isNone = !w.engines.any (·.defines symbol) := by
    rw [Bool.eq_iff_iff, Option.isNone_iff_eq_none, Registry.address?,
      List.findSome?_eq_none_iff, hp]
    simp only [List.forall_mem_map, Bool.not_eq_true', List.any_eq_false, Engine.defines,
      Engine.address?, Bool.not_eq_true, Option.isSome_eq_false_iff, Option.isNone_iff_eq_none]
  rw [← haddress, Registry.resolve]
  cases w.registry.address? symbol <;> simp

theorem dangles_of_current {u : CodeUnit} (hu : w.current = some u)
    (hp : w.registry.published = w.engines.map (·.symbols)) :
    u.dangles w.registry = w.dangles := by
  funext symbol
  rw [CodeUnit.dangles, resolve_eq_none hp, Workspace.dangles, hu, Bool.and_assoc]
  rfl

/-- The world after a symbol was reported. -/
def reported (s : World) (symbol : String) : World :=
  { s with transcript.err := s.transcript.err ++ unresolvedText symbol }

theorem finalize_of_error {u : CodeUnit} {symbol : String} (hu : s.workspace.current = some u)
    (hl : u.link s.workspace.engines.length s.workspace.registry = .error symbol) :
    finalize s = .error (.unresolved symbol) (reported s symbol) := by
  unfold finalize
  rw [bind_ok (workspace_apply s), hu]
  dsimp only
  rw [hl]
  rfl

/-- The first symbol that dangles is reported. -/
theorem Holds.finalize_of_dangling (h : Holds bodies s.workspace) {symbol : String}
    (hfind : (bodies.flatMap (·.calls)).find? s.workspace.dangles = some symbol) :
    finalize s = .error (.unresolved symbol) (reported s symbol) := by
  cases hu : s.workspace.current with
  | none =>
    have hnil : bodies.flatMap (·.calls) = [] := h.calls.symm.trans (h.nil hu).calls
    rw [hnil] at hfind
    cases hfind
  | some u =>
    rw [← h.calls, unit_of_some hu, ← dangles_of_current hu h.published] at hfind
    exact finalize_of_error hu (u.link_eq_error_iff _ _ |>.mpr hfind)

/-- Without a symbol that dangles the unit is linked and closed. -/
theorem Holds.finalize_of_bound (h : Holds bodies s.workspace)
    (hfind : (bodies.flatMap (·.calls)).find? s.workspace.dangles = none) :
    ∃ s', finalize s = .ok (s.workspace.current.map fun _ => s.workspace.engines.length) s' ∧
      ∀ u, s.workspace.current = some u → ∃ e,
        u.link s.workspace.engines.length s.workspace.registry = .ok e ∧
        s'.workspace = s.workspace.close u e ∧ Quiet s s' := by
  have hfinal := finalized_finalize s
  generalize finalize s = r at hfinal
  cases hfinal with
  | idle current =>
    refine ⟨s, by rw [current]; rfl, fun u hu => ?_⟩
    rw [current] at hu
    cases hu
  | @closed u e s' current link workspace quiet =>
    refine ⟨s', by rw [current]; rfl, fun v hv => ?_⟩
    rw [current] at hv
    cases hv
    exact ⟨e, link, workspace, quiet⟩
  | @unresolved u symbol s' current link workspace quiet =>
    rw [← h.calls, unit_of_some current, ← dangles_of_current current h.published,
      (u.link_eq_error_iff _ _).mp link] at hfind
    cases hfind

theorem Holds.find?_of_error (h : Holds bodies s.workspace) {fault : Fault}
    (herror : finalize s = .error fault s') :
    ∃ symbol, fault = .unresolved symbol ∧ s' = reported s symbol ∧
      (bodies.flatMap (·.calls)).find? s.workspace.dangles = some symbol := by
  cases hfind : (bodies.flatMap (·.calls)).find? s.workspace.dangles with
  | none =>
    obtain ⟨s₁, hok, -⟩ := h.finalize_of_bound hfind
    rw [hok] at herror
    cases herror
  | some symbol =>
    rw [h.finalize_of_dangling hfind] at herror
    cases herror
    exact ⟨symbol, rfl, rfl, rfl⟩

theorem Holds.finalize_error_iff (h : Holds bodies s.workspace) (symbol : String) :
    (∃ s', finalize s = .error (.unresolved symbol) s') ↔
      (bodies.flatMap (·.calls)).find? s.workspace.dangles = some symbol := by
  constructor
  · rintro ⟨s', herror⟩
    obtain ⟨_, ⟨⟩, -, hfind⟩ := h.find?_of_error herror
    exact hfind
  · exact fun hfind => ⟨_, h.finalize_of_dangling hfind⟩

theorem find?_calls_isSome {p : String → Bool} :
    ((bodies.flatMap (·.calls)).find? p).isSome = true ↔
      ∃ f ∈ bodies, ∃ c ∈ f.body.callees, p (Symbol.legalize c) = true := by
  simp [Function.calls, Expr.mem_called]

/-! ## Externs -/

/-- The world after externs were declared, or refused, one after another. -/
def declareAll (protos : List Prototype) (s : World) : World :=
  protos.foldl (fun s proto => left (declareExternal proto) s) s

/-- A new symbol has no body. -/
theorem defines_declare_of_none {u : CodeUnit} {name symbol : String} {arity : Nat}
    {linkage : Linkage} (h : u.find? symbol = none) (t : String) :
    (u.declare name symbol arity linkage).2.defines t = u.defines t := by
  simp [CodeUnit.declare_of_none h, CodeUnit.defines, CodeUnit.fresh]

theorem find?_unit_eq_none {symbol : String} (h : w.currentDeclaration? symbol = none) :
    w.unit.find? symbol = none := by
  cases hu : w.current with
  | none => simp [Workspace.unit, hu, CodeUnit.numbered, CodeUnit.find?]
  | some u => simpa [Workspace.unit, Workspace.currentDeclaration?, hu] using h

theorem dangles_declare_of_none {name symbol : String} {arity : Nat} {linkage : Linkage}
    (h : w.currentDeclaration? symbol = none) :
    (w.declare name symbol arity linkage).dangles = w.dangles := by
  have hunit (t : String) : w.current.any (·.defines t) = w.unit.defines t := by
    cases hu : w.current with
    | none => simp [Workspace.unit, hu, CodeUnit.numbered, CodeUnit.defines]
    | some u => simp [Workspace.unit, hu]
  funext t
  simp [Workspace.dangles, Workspace.declare, hunit, defines_declare_of_none (find?_unit_eq_none h)]

/-- An extern changes nothing about which symbols dangle. -/
theorem dangles_declareExternal (proto : Prototype) (s : World) :
    (left (declareExternal proto) s).workspace.dangles = s.workspace.dangles := by
  unfold declareExternal left
  rw [bind_ok (workspace_apply s)]
  cases hd : s.workspace.declaration? (Symbol.legalize proto.name) with
  | some d => by_cases ha : d.arity = proto.arity <;> simp [ha]
  | none =>
    obtain ⟨s', hws, hdeclare⟩ :=
      declare_cases proto.name (Symbol.legalize proto.name) proto.arity .imported s
    have hopen := (Option.or_eq_none_iff.mp hd).1
    dsimp only
    rw [hdeclare]
    cases (s.workspace.unit.declare proto.name (Symbol.legalize proto.name) proto.arity .imported).1
    all_goals exact hws ▸ dangles_declare_of_none hopen

theorem declareAll_cons (proto : Prototype) (protos : List Prototype) (s : World) :
    declareAll (proto :: protos) s = declareAll protos (left (declareExternal proto) s) := rfl

theorem dangles_declareAll (protos : List Prototype) (s : World) :
    (declareAll protos s).workspace.dangles = s.workspace.dangles := by
  induction protos generalizing s with
  | nil => rfl
  | cons proto protos ih => rw [declareAll_cons, ih, dangles_declareExternal]

theorem Holds.declareAll (h : Holds bodies s.workspace) (protos : List Prototype) :
    Holds bodies (declareAll protos s).workspace := by
  induction protos generalizing s with
  | nil => exact h
  | cons proto protos ih => exact ih (h.same ((inert_declareExternal proto).left s))

/-! ## Main result -/

/-- Finalizing a unit aborts exactly if one of the functions generated into it
    calls a symbol that dangles. It then reports the first one, functions taken in
    the order they were generated and calls in the order of evaluation, and changes
    nothing else. Otherwise the unit is closed, its engine is built next to the others and
    its symbols are published, and nothing is written to standard output. Declaring externs
    before makes no difference. -/
theorem finalize_aborts_iff {u : CodeUnit} (h : Assembled bodies s)
    (current : s.workspace.current = some u) :
    ((∃ fault s', finalize s = .error fault s') ↔
      ∃ f ∈ bodies, ∃ c ∈ f.body.callees, s.workspace.dangles (Symbol.legalize c) = true) ∧
    (∀ fault s', finalize s = .error fault s' → ∃ symbol, fault = .unresolved symbol ∧
      (bodies.flatMap (·.calls)).find? s.workspace.dangles = some symbol ∧
      s' = { s with transcript.err := s.transcript.err ++ unresolvedText symbol }) ∧
    ((∀ f ∈ bodies, ∀ c ∈ f.body.callees, s.workspace.dangles (Symbol.legalize c) = false) →
      ∃ e s', finalize s = .ok (some s.workspace.engines.length) s' ∧
        u.link s.workspace.engines.length s.workspace.registry = .ok e ∧
        s'.workspace = s.workspace.close u e ∧ Quiet s s') ∧
    (∀ protos symbol, (∃ s', finalize (declareAll protos s) = .error (.unresolved symbol) s') ↔
      ∃ s', finalize s = .error (.unresolved symbol) s') := by
  have hs := h.holds
  refine ⟨?_, ?_, ?_, ?_⟩
  · rw [← find?_calls_isSome, Option.isSome_iff_exists]
    constructor
    · rintro ⟨fault, s', herror⟩
      obtain ⟨symbol, -, -, hfind⟩ := hs.find?_of_error herror
      exact ⟨symbol, hfind⟩
    · rintro ⟨symbol, hfind⟩
      exact ⟨_, _, hs.finalize_of_dangling hfind⟩
  · intro fault s' herror
    obtain ⟨symbol, hfault, hs', hfind⟩ := hs.find?_of_error herror
    exact ⟨symbol, hfault, hfind, hs'⟩
  · intro hbound
    have hnone : (bodies.flatMap (·.calls)).find? s.workspace.dangles = none := by
      simpa [Function.calls, Expr.mem_called] using hbound
    obtain ⟨s', hok, hclosed⟩ := hs.finalize_of_bound hnone
    obtain ⟨e, hlink, hworkspace, hquiet⟩ := hclosed u current
    rw [current] at hok
    exact ⟨e, s', hok, hlink, hworkspace, hquiet⟩
  · intro protos symbol
    rw [(hs.declareAll protos).finalize_error_iff, dangles_declareAll, hs.finalize_error_iff]

/-- The function `g` calls `h`, which is generated after it, and `h` calls `two` on
    the value of `one`: the argument comes first. -/
theorem finalize_aborts_iff_at_argument : ∃ bodies s u, Assembled bodies s ∧
    s.workspace.current = some u ∧ bodies.map (·.proto.name) = ["g", "h"] ∧
    ∃ s', finalize s = .error (.unresolved "one") s' ∧
      (bodies.flatMap (·.calls)).find? s.workspace.dangles = some "one" := by
  -- The worlds are written out so that each step starts from a value.
  have h₁ : Assembled [] { workspace := {
      current := some {
        name := "unit_0"
        declarations := [
          { name := "two", symbol := "two", arity := 1, id := 0, linkage := .imported }] }
      nextUnit := 1 } } :=
    (Assembled.start {}).performed (.checked (.declareExternal ⟨"two", ["x"]⟩)) (by simp)
  have h₂ : Assembled [] { workspace := {
      current := some {
        name := "unit_0"
        declarations := [
          { name := "two", symbol := "two", arity := 1, id := 0, linkage := .imported },
          { name := "one", symbol := "one", arity := 1, id := 1, linkage := .imported }] }
      nextUnit := 1 } } :=
    h₁.performed (.checked (.declareExternal ⟨"one", ["x"]⟩)) (by simp)
  have h₃ : Assembled [] { workspace := {
      current := some {
        name := "unit_0"
        declarations := [
          { name := "two", symbol := "two", arity := 1, id := 0, linkage := .imported },
          { name := "one", symbol := "one", arity := 1, id := 1, linkage := .imported },
          { name := "h", symbol := "h", arity := 1, id := 2, linkage := .imported }] }
      nextUnit := 1 } } :=
    h₂.performed (.declare "h" "h" 1 .imported) (by simp)
  have h₄ : Assembled _ { workspace := {
      current := some {
        name := "unit_0"
        declarations := [
          { name := "two", symbol := "two", arity := 1, id := 0, linkage := .imported },
          { name := "one", symbol := "one", arity := 1, id := 1, linkage := .imported },
          { name := "h", symbol := "h", arity := 1, id := 2, linkage := .imported },
          { name := "g", symbol := "g", arity := 1, id := 3, linkage := .exported,
            hasBody := true }]
        routines := [⟨3, "g", 1, [.call ⟨0, 2, "h", 1, false⟩ [0]], 1⟩] }
      nextUnit := 1 } } :=
    h₃.generated (f := ⟨⟨"g", ["x"]⟩, .call "h" [.var "x"]⟩) rfl
  have h₅ : Assembled _ { workspace := {
      current := some {
        name := "unit_0"
        declarations := [
          { name := "two", symbol := "two", arity := 1, id := 0, linkage := .imported },
          { name := "one", symbol := "one", arity := 1, id := 1, linkage := .imported },
          { name := "h", symbol := "h", arity := 1, id := 2, linkage := .exported,
            hasBody := true },
          { name := "g", symbol := "g", arity := 1, id := 3, linkage := .exported,
            hasBody := true }]
        routines := [
          ⟨3, "g", 1, [.call ⟨0, 2, "h", 1, false⟩ [0]], 1⟩,
          ⟨2, "h", 1, [.call ⟨1, 1, "one", 1, false⟩ [0], .call ⟨0, 0, "two", 1, false⟩ [1]], 2⟩] }
      nextUnit := 1 } } :=
    h₄.generated (f := ⟨⟨"h", ["x"]⟩, .call "two" [.call "one" [.var "x"]]⟩) rfl
  obtain ⟨_, ⟨⟩, hfind, -⟩ := (finalize_aborts_iff h₅ rfl).2.1 (.unresolved "one") _ rfl
  exact ⟨_, _, _, h₅, rfl, by decide +kernel, _, rfl, hfind⟩

end Build

end Abacus
