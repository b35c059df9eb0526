-- SUMMARY: What an expression is linked with, and when that cannot be done.
import Abacus.Proofs.Recording
import Abacus.Proofs.Unresolved
import Mathlib.Data.List.Find

/-!
# Pending definitions

A session links an expression together with the definitions accepted since the
expression before, whether they are called or not. Linking therefore fails if one
of these calls a name that has no definition and is not that of an intrinsic.
Which units there are does not matter: the ledger tells.
-/

namespace Abacus

namespace Ledger

/-- The definitions waiting to be linked after one more item. -/
def enqueue (waiting : List Function) : Item → List Function
  | .definition f => waiting ++ [f]
  | .external _ => waiting
  | .expression _ => []

/-- The definitions since the last expression, oldest first. -/
def pending (ledger : Ledger) : List Function :=
  ledger.foldl enqueue []

/-- A name without a definition, and not that of an intrinsic. -/
def dangles (ledger : Ledger) (name : String) : Bool :=
  !ledger.any (Item.defines name) && (Intrinsic.ofSymbol? name).isNone

/-- The first name that dangles among those called in an expression and in the
    definitions that are linked with it, in the order of linking. -/
def dangling? (ledger : Ledger) (f : Function) : Option String :=
  ((ledger.pending ++ [f]).flatMap (·.body.called)).find? ledger.dangles

variable {ledger : Ledger} {f : Function}

@[simp] theorem pending_append (ledger : Ledger) (item : Item) :
    pending (ledger ++ [item]) = enqueue ledger.pending item := by
  simp [pending]

theorem mem_of_mem_pending (h : f ∈ ledger.pending) : .definition f ∈ ledger := by
  induction ledger using List.reverseRecOn with
  | nil => cases h
  | append_singleton ledger item ih =>
    rw [pending_append] at h
    cases item with
    | definition g =>
      rcases List.mem_append.mp h with h | h
      · exact List.mem_append_left _ (ih h)
      · simp [List.mem_singleton.mp h]
    | external proto => exact List.mem_append_left _ (ih h)
    | expression g => cases h

theorem dangling?_isSome :
    (ledger.dangling? f).isSome = true ↔
      ∃ g ∈ ledger.pending ++ [f], ∃ c ∈ g.body.callees, ledger.dangles c = true := by
  simp only [dangling?, List.find?_isSome, List.mem_flatMap, Expr.mem_called]
  grind

theorem any_defines {name : String} :
    ledger.any (Item.defines name) = true ↔ ∃ f, .definition f ∈ ledger ∧ f.proto.name = name := by
  rw [List.any_eq_true]
  constructor
  · rintro ⟨item, hitem, hdef⟩
    cases item with
    | definition f => exact ⟨f, hitem, by simpa [Item.defines] using hdef⟩
    | external proto => cases hdef
    | expression f => cases hdef
  · rintro ⟨f, hf, rfl⟩
    exact ⟨_, hf, by simp [Item.defines]⟩

end Ledger

namespace Session

open Build Workspace

variable {s s' : World} {w w' w₁ : Workspace} {f : Function} {ledger : Ledger} {items : List Item}

/-! ## Calls of the open unit -/

/-- The open unit makes the calls of the pending definitions. -/
def Pends (ledger : Ledger) (w : Workspace) : Prop :=
  w.unit.calls = ledger.pending.flatMap (·.calls)

theorem Pends.grown (h : Pends ledger w) (hg : Grown w w') : Pends ledger w' := by
  unfold Pends CodeUnit.calls at h ⊢
  rw [hg.routines, h]

theorem calls_of_extension {symbol : String} (h : Pends ledger w) (hext : Extension f symbol w w') :
    w'.unit.calls = (ledger.pending ++ [f]).flatMap (·.calls) := by
  obtain ⟨r, hr, hcompiles, -⟩ := unit_of_extension hext
  have hw : w.unit.routines.flatMap (·.calls) = ledger.pending.flatMap (·.calls) := h
  simp [CodeUnit.calls, hr, hw, hcompiles.calls_eq]

theorem Pends.rejected {item : Item} {e : CompileError} (h : Pends ledger s.workspace)
    (hh : Handled s item (.error (.rejected e) s')) : Pends ledger s'.workspace := by
  cases hh with
  | rejected objects kept quiet =>
    have hnumbered : Pends ledger (numbered s.workspace item) := by cases item <;> exact h
    exact hnumbered.grown kept.toGrown

theorem Pends.accepted {item : Item} {reply : Reply} (h : Pends ledger s.workspace)
    (hh : Handled s item (.ok reply s')) : Pends (ledger ++ [item]) s'.workspace := by
  unfold Pends
  rw [Ledger.pending_append]
  cases hh with
  | declared accepts grown signature? quiet => exact h.grown grown
  | defined accepts extension quiet => exact calls_of_extension h extension
  | evaluated accepts placed run out =>
    obtain @⟨w₁, u, e, extension, current, link, address, workspace⟩ := placed
    rw [workspace]
    rfl

theorem Trace.pends (h : Trace items ledger s) : Pends ledger s.workspace := by
  refine h.keeps (P := fun _ ledger w => Pends ledger w) (fun _ => rfl) ?_ ?_
  · exact fun _ _ hh ih => ih.accepted hh
  · exact fun _ _ hh ih => ih.rejected hh

/-! ## Bodies -/

/-- Engines define what closed units have bodies for. -/
theorem any_defines_engines (hl : w.Linked) {name : String} :
    w.engines.any (·.defines name) = true ↔ ∃ u ∈ w.closed, u.defines name = true := by
  rw [List.any_eq_true]
  constructor
  · rintro ⟨e, he, hdef⟩
    obtain ⟨k, hk⟩ := List.getElem?_of_mem he
    obtain ⟨u, hu⟩ := hl.exists_unit hk
    exact ⟨u, List.mem_of_getElem? hu, hl.defines_iff hu hk name ▸ hdef⟩
  · rintro ⟨u, hu, hdef⟩
    obtain ⟨k, hk⟩ := List.getElem?_of_mem hu
    obtain ⟨e, he⟩ := hl.exists_engine hk
    exact ⟨e, List.mem_of_getElem? he, (hl.defines_iff hk he name).symm ▸ hdef⟩

/-- A name has a body in the open unit or in an engine exactly if its signature
    says so. -/
theorem any_defines_iff (hw : w.Coherent) (hl : w.Linked) (name : String) :
    (w.current.any (·.defines name) || w.engines.any (·.defines name)) = true ↔
      ∃ sig, w.signature? name = some sig ∧ sig.hasBody = true := by
  have hunits : (∃ u ∈ w.units, u.defines name = true) ↔
      (w.current.any (·.defines name) || w.engines.any (·.defines name)) = true := by
    rw [Bool.or_eq_true, any_defines_engines hl]
    cases hu : w.current <;> simp [units, hu, or_comm]
  have hsig : (∃ d ∈ w.declarations name, d.hasBody = true) ↔
      ∃ sig, w.signature? name = some sig ∧ sig.hasBody = true := by
    constructor
    · rintro ⟨d, hd, hb⟩
      obtain ⟨sig, hs⟩ := exists_signature? hd
      exact ⟨sig, hs, (hasBody_of_signature? hs).mpr ⟨d, hd, hb⟩⟩
    · rintro ⟨sig, hs, hb⟩
      exact (hasBody_of_signature? hs).mp hb
  rw [← hunits, ← hsig]
  simp only [CodeUnit.defines_iff, mem_declarations hw]
  grind

theorem mem_shelf_of_mem_units {u : CodeUnit} (h : u ∈ w.units) : u ∈ shelf w := by
  rw [shelf]
  cases hu : w.current <;> simp_all [units, Workspace.unit]

/-- A name has a body in the workspace exactly if the ledger defines it. -/
theorem Records.hasBody_iff (hw : w.Coherent) (h : Records ledger w) {name : String}
    (hname : Named name) :
    (∃ sig, w.signature? name = some sig ∧ sig.hasBody = true) ↔
      ledger.any (Item.defines name) = true := by
  rw [Ledger.any_defines]
  constructor
  · rintro ⟨sig, hsig, hsb⟩
    obtain ⟨d, hd, hb⟩ := (hasBody_of_signature? hsig).mp hsb
    obtain ⟨u, hu, hdu, rfl⟩ := (mem_declarations hw).mp hd
    obtain ⟨r, hr, hrs⟩ := (hw.wellFormed u hu).routine_of_declaration d hdu hb
    obtain ⟨k, hk⟩ := List.getElem?_of_mem (mem_shelf_of_mem_units hu)
    obtain ⟨i, g, hi, hg, -⟩ := h.recorded k u hk r hr (hrs ▸ hname)
    exact ⟨g, List.mem_of_getElem? hi, hg.trans hrs⟩
  · rintro ⟨f, hf, rfl⟩
    obtain ⟨i, hi⟩ := List.getElem?_of_mem hf
    exact h.hasBody hw hi

/-- Once an expression is compiled, the names that dangle are those that dangle in
    the ledger. -/
theorem dangles_of_extension (hs : Sound w) (h : Records ledger w)
    (hext : Extension f (Symbol.anonymous w.supply.next) (numbered w (.expression f)) w₁)
    {name : String} (hname : Named name) : w₁.dangles name = ledger.dangles name := by
  have hsteps := (step_numbered w (.expression f)).trans hext.steps
  have hbody := any_defines_iff (hs.coherent.steps hsteps) (hs.linked.steps hsteps) name
  obtain ⟨-, -, -, -, -, hsig⟩ := hext
  rw [hsig, if_neg (hname _), signature?_numbered, h.hasBody_iff hs.coherent hname,
    ← Bool.eq_iff_iff] at hbody
  rw [Workspace.dangles, Ledger.dangles, ← hbody, Bool.not_or]

/-! ## Linking an expression -/

theorem calls_eq_called (hf : f.body.Plain) : f.calls = f.body.called := by
  have hmap : ∀ c ∈ f.body.called, Symbol.legalize c = c :=
    fun c hc => (hf c (Expr.mem_called.mp hc)).legalize_eq
  exact (List.map_congr_left hmap).trans (List.map_id' _)

/-- The functions that an expression is linked with were read from texts. -/
theorem plain_of_mem_pending (h : Records ledger w) (hf : f.body.Plain) {g : Function}
    (hg : g ∈ ledger.pending ++ [f]) : g.body.Plain := by
  rcases List.mem_append.mp hg with hg | hg
  · exact (h.plain _ (Ledger.mem_of_mem_pending hg)).2
  · exact List.mem_singleton.mp hg ▸ hf

/-- An expression cannot be linked because of the first name that dangles among
    those that it and the pending definitions call. -/
theorem refusal?_of_extension {u : CodeUnit} (h : Trace items ledger s) (hf : f.body.Plain)
    (hext : Extension f (Symbol.anonymous s.workspace.supply.next)
      (numbered s.workspace (.expression f)) w₁) (hu : w₁.current = some u) :
    refusal? (u.link w₁.engines.length w₁.registry) = ledger.dangling? f := by
  have hs := h.sound
  have hplain : ∀ g ∈ ledger.pending ++ [f], g.body.Plain :=
    fun g => plain_of_mem_pending h.records hf
  have hsteps := (step_numbered s.workspace (.expression f)).trans hext.steps
  have hpublished := (hs.linked.steps hsteps).published
  have hcalls : u.calls = (ledger.pending ++ [f]).flatMap (·.body.called) := by
    have hpends : Pends ledger (numbered s.workspace (.expression f)) := h.pends
    rw [← unit_of_some hu, calls_of_extension hpends hext]
    exact List.flatMap_congr fun g hg => calls_eq_called (hplain g hg)
  rw [CodeUnit.refusal?_link, hcalls, dangles_of_current hu hpublished]
  refine List.find?_congr fun name hname => ?_
  obtain ⟨g, hg, hc⟩ := List.mem_flatMap.mp hname
  have hword := hplain g hg name (Expr.mem_called.mp hc)
  exact dangles_of_extension hs h.records hext hword.ne_anonymous

/-- Handling an accepted expression fails with the first name that dangles. -/
theorem Trace.unresolved_iff (h : Trace items ledger s) (hitem : (Item.expression f).Plain)
    (accepted : ∀ e s', handle (.expression f) s ≠ .error (.rejected e) s') (name : String) :
    (∃ s', handle (.expression f) s = .error (.unresolved name) s') ↔
      ledger.dangling? f = some name := by
  have hs := h.sound
  have hh := hs.handled hitem
  generalize handle (.expression f) s = r at hh accepted
  cases hh with
  | rejected objects kept quiet => exact absurd rfl (accepted _ _)
  | unresolved accepts extension current link =>
    rw [← refusal?_of_extension h hitem.2 extension current, link]
    simp [refusal?]
  | halted accepts placed run =>
    obtain ⟨extension, current, link, -, -⟩ := placed
    rw [← refusal?_of_extension h hitem.2 extension current, link]
    simp [refusal?]
  | evaluated accepts placed run out =>
    obtain ⟨extension, current, link, -, -⟩ := placed
    rw [← refusal?_of_extension h hitem.2 extension current, link]
    simp [refusal?]

/-- Handling an accepted expression aborts exactly if the expression, or a
    definition accepted since the expression before, calls a name without a
    definition that is not that of an intrinsic. The first such name is reported. -/
theorem unresolved_iff_pending (h : Trace items ledger s) (parsed : (Item.expression f).Parsed)
    (accepted : ∀ e s', handle (.expression f) s ≠ .error (.rejected e) s') :
    ((∃ name s', handle (.expression f) s = .error (.unresolved name) s') ↔
      ∃ g ∈ ledger.pending ++ [f], ∃ c ∈ g.body.callees, ledger.dangles c = true) ∧
    ∀ name s', handle (.expression f) s = .error (.unresolved name) s' →
      ledger.dangling? f = some name := by
  have hiff := h.unresolved_iff parsed.plain accepted
  refine ⟨?_, fun name s' hr => (hiff name).mp ⟨s', hr⟩⟩
  rw [← Ledger.dangling?_isSome, Option.isSome_iff_exists]
  exact exists_congr hiff

/-- A session that has accepted an extern `foo` and a function `bar` that calls it. -/
theorem trace_caller : Trace
    [.external ⟨"foo", ["x"]⟩, .definition ⟨⟨"bar", ["y"]⟩, .call "foo" [.var "y"]⟩]
    [.external ⟨"foo", ["x"]⟩, .definition ⟨⟨"bar", ["y"]⟩, .call "foo" [.var "y"]⟩]
    { workspace := {
      current := some {
        name := "unit_0"
        declarations := [
          { name := "foo", symbol := "foo", arity := 1, id := 0, linkage := .imported },
          { name := "bar", symbol := "bar", arity := 1, id := 1, linkage := .exported,
            hasBody := true }]
        routines := [⟨1, "bar", 1, [.call ⟨0, 0, "foo", 1, false⟩ [0]], 1⟩] }
      nextUnit := 1 } } := by
  have p₁ : (Item.external ⟨"foo", ["x"]⟩).Parsed :=
    ⟨.standard, "extern foo(x)", .ofText "extern foo(x)", _, List.suffix_rfl, rfl⟩
  have p₂ : (Item.definition ⟨⟨"bar", ["y"]⟩, .call "foo" [.var "y"]⟩).Parsed :=
    ⟨.standard, "def bar(y) foo(y)", .ofText "def bar(y) foo(y)", _, List.suffix_rfl, rfl⟩
  have h : Trace _ _ { workspace := {
      current := some {
        name := "unit_0"
        declarations := [
          { name := "foo", symbol := "foo", arity := 1, id := 0, linkage := .imported }] }
      nextUnit := 1 } } :=
    (Trace.start {}).accepted p₁ rfl
  exact h.accepted p₂ rfl

theorem parsed_sum : (Item.expression ⟨.anonymous,
    .binary '+' (.number (Numeral.value ['1'])) (.number (Numeral.value ['2']))⟩).Parsed :=
  ⟨.standard, "1 + 2", .ofText "1 + 2", _, List.suffix_rfl, rfl⟩

/-- The expression `1 + 2` is linked with `bar`, and `foo` is reported. -/
theorem unresolved_iff_pending_at_uncalled : ∃ (items : List Item) (ledger : Ledger) (s : World)
    (f : Function) (s' : World), Trace items ledger s ∧ (Item.expression f).Parsed ∧
    f.body.callees = [] ∧ handle (.expression f) s = .error (.unresolved "foo") s' ∧
    ∃ g ∈ ledger.pending ++ [f], ∃ c ∈ g.body.callees, ledger.dangles c = true := by
  refine ⟨_, _, _, _, _, trace_caller, parsed_sum, rfl, rfl, ?_⟩
  have haborts := unresolved_iff_pending trace_caller parsed_sum fun e s' herror => by cases herror
  exact haborts.1.mp ⟨_, _, rfl⟩

/-! ## What is needed -/

/-- The functions that an expression needs: itself, and the definitions of what it
    calls, and of what these call. -/
inductive Needed (ledger : Ledger) (f : Function) : Function → Prop where
  | self : Needed ledger f f
  | callee {g g' : Function} (h : Needed ledger f g) (calls : g'.proto.name ∈ g.body.callees)
      (defined : .definition g' ∈ ledger) : Needed ledger f g'

theorem Needed.eq_of_callees_nil {g : Function} (hf : f.body.callees = [])
    (h : Needed ledger f g) : g = f := by
  induction h with
  | self => rfl
  | callee h calls defined ih =>
    rw [ih, hf] at calls
    cases calls

/-- An expression may fail to be linked though nothing that it needs calls a name
    that dangles. -/
theorem unresolved_without_need : ¬ ∀ (items : List Item) (ledger : Ledger) (s : World)
    (f : Function) (name : String) (s' : World), Trace items ledger s →
    (Item.expression f).Parsed → handle (.expression f) s = .error (.unresolved name) s' →
    ∃ g, Needed ledger f g ∧ ∃ c ∈ g.body.callees, ledger.dangles c = true := by
  intro hneed
  obtain ⟨g, hg, c, hc, -⟩ := hneed _ _ _ _ _ _ trace_caller parsed_sum rfl
  rw [hg.eq_of_callees_nil rfl] at hc
  cases hc

end Session

end Abacus
