-- SUMMARY: What a rejected item leaves behind, and that it never matters.
import Abacus.Proofs.Answers

/-!
# Rejected items

An item may be rejected after some of the functions it calls were declared again
in the open unit, which may have been opened for that, and after an anonymous
symbol was handed out. None of this is taken back. What is left behind repeats
declarations of closed units and so makes no difference to any later item: a
session that never saw the rejected items gives the same answers.
-/

namespace Abacus.Session

open Build Workspace

variable {s s' s₁ s₂ : World} {w w₁ w₂ : Workspace} {ledger : Ledger}
  {items items₁ items₂ : List Item} {item : Item}

/-! ## What is left behind -/

/-- A declaration without a body that repeats one of a closed unit. -/
def Repeats (w : Workspace) (d : Declaration) : Prop :=
  d.hasBody = false ∧
    ∃ u ∈ w.closed, ∃ e ∈ u.declarations, e.symbol = d.symbol ∧ e.arity = d.arity

/-- Nothing has changed but the number of the next anonymous function and the open
    unit, which may be new and has only gained declarations that repeat others. -/
structure Residue (w w' : Workspace) : Prop where
  config   : w'.config = w.config
  closed   : w'.closed = w.closed
  engines  : w'.engines = w.engines
  registry : w'.registry = w.registry
  supply   : w'.supply = w.supply ∨ w'.supply = w.supply.fresh.2
  current  : (w'.current = w.current ∧ w'.nextUnit = w.nextUnit) ∨
    ∃ new, w'.current = some { w.unit with declarations := w.unit.declarations ++ new } ∧
      w'.nextUnit = w.opened.nextUnit ∧ ∀ d ∈ new, Repeats w d

theorem residue_numbered (w : Workspace) (item : Item) : Residue w (numbered w item) := by
  cases item with
  | expression f => exact ⟨rfl, rfl, rfl, rfl, .inr rfl, .inl ⟨rfl, rfl⟩⟩
  | definition f => exact ⟨rfl, rfl, rfl, rfl, .inl rfl, .inl ⟨rfl, rfl⟩⟩
  | external proto => exact ⟨rfl, rfl, rfl, rfl, .inl rfl, .inl ⟨rfl, rfl⟩⟩

/-- The open unit and its number depend on no other field. -/
theorem opened_congr (hc : w₁.current = w.current) (hn : w₁.nextUnit = w.nextUnit) :
    w₁.unit = w.unit ∧ w₁.opened.nextUnit = w.opened.nextUnit := by
  unfold Workspace.opened Workspace.unit
  rw [hc, hn]
  cases w.current <;> exact ⟨rfl, by simp [hn]⟩

theorem opened_config : w.opened.config = w.config := by
  unfold Workspace.opened; split <;> rfl

/-- Declaring a symbol once more leaves a little more behind. -/
theorem Residue.forward (h : Residue w w₁) (hf : Forward w₁ w₂) : Residue w w₂ := by
  obtain @⟨found, hopen, hclosed⟩ := hf
  have hcurrent : (w₁.declare found.name found.symbol found.arity .imported).current =
      some { w₁.unit with declarations := w₁.unit.declarations ++
        [w₁.unit.fresh found.name found.symbol found.arity .imported] } := by
    simp only [Workspace.declare, CodeUnit.declare_of_none (find?_unit_eq_none hopen)]
  have hrepeats : Repeats w (w₁.unit.fresh found.name found.symbol found.arity .imported) := by
    obtain ⟨u, hu, hd⟩ := List.exists_of_findSome?_eq_some hclosed
    exact ⟨rfl, u, h.closed ▸ hu, found, CodeUnit.mem_of_find? hd, rfl, rfl⟩
  refine ⟨opened_config.trans h.config, opened_closed.trans h.closed,
    opened_engines.trans h.engines, opened_registry.trans h.registry, ?_, .inr ?_⟩
  · have hsupply : (w₁.declare found.name found.symbol found.arity .imported).supply = w₁.supply :=
      opened_supply
    exact hsupply ▸ h.supply
  · rcases h.current with ⟨hc, hn⟩ | ⟨new, hc, hn, hnew⟩
    · obtain ⟨hunit, hnext⟩ := opened_congr hc hn
      rw [hunit] at hcurrent hrepeats
      exact ⟨_, hcurrent, hnext, by simpa using hrepeats⟩
    · rw [unit_of_some hc] at hcurrent hrepeats
      refine ⟨new ++ _, by simpa using hcurrent, ?_, ?_⟩
      · exact (congrArg Workspace.nextUnit (opened_of_some hc)).trans hn
      · intro d hd
        rcases List.mem_append.mp hd with hd | hd
        · exact hnew d hd
        · exact List.mem_singleton.mp hd ▸ hrepeats

theorem Residue.forwards (h : Residue w w₁) (hf : Forwards w₁ w₂) : Residue w w₂ := by
  induction hf with
  | refl => exact h
  | tail _ hf ih => exact ih.forward hf

theorem Handled.residue {e : CompileError} (h : Handled s item (.error (.rejected e) s')) :
    Residue s.workspace s'.workspace := by
  cases h with
  | rejected objects kept quiet forwards => exact (residue_numbered _ item).forwards forwards

/-! ## Sessions without the rejected items -/

/-- What is seen of an item: the answer, and all that is on standard output by then. -/
structure Entry where
  item : Item
  answer : Answer × List UInt8

/-- What is seen of items that are handled one after another. A session goes on
    after a rejection, and after no other failure. -/
def log : List Item → World → List Entry
  | [], _ => []
  | item :: items, s =>
    ⟨item, answer (handle item s)⟩ ::
      match handle item s with
      | .ok _ s' => log items s'
      | .error (.rejected _) s' => log items s'
      | .error _ _ => []

/-- The items that are left when those that are rejected are taken out. -/
def remaining : List Item → World → List Item
  | [], _ => []
  | item :: items, s =>
    match handle item s with
    | .ok _ s' => item :: remaining items s'
    | .error (.rejected _) s' => remaining items s'
    | .error _ _ => item :: items

def Entry.isRejected (entry : Entry) : Bool :=
  entry.answer.1 == .rejected

/-- Two sessions that have accepted the same items and written the same. -/
def Alike (s₁ s₂ : World) : Prop :=
  ∃ items₁ items₂ ledger, Trace items₁ ledger s₁ ∧ Trace items₂ ledger s₂ ∧
    s₁.transcript.out = s₂.transcript.out

theorem Alike.answer_eq (h : Alike s₁ s₂) (hitem : item.Plain) :
    answer (handle item s₁) = answer (handle item s₂) := by
  obtain ⟨items₁, items₂, ledger, h₁, h₂, hout⟩ := h
  obtain ⟨a₁, bytes₁, ha₁, heq₁⟩ := h₁.answers hitem
  obtain ⟨a₂, bytes₂, ha₂, heq₂⟩ := h₂.answers hitem
  obtain ⟨rfl, rfl⟩ := ha₁.unique ha₂
  rw [heq₁, heq₂, hout]

/-- Results that give the same answer. -/
inductive Matched : EStateM.Result Fault World Reply → EStateM.Result Fault World Reply → Prop where
  | accepted {reply : Reply} {s₁ s₂ : World} (out : s₁.transcript.out = s₂.transcript.out) :
      Matched (.ok reply s₁) (.ok reply s₂)
  | rejected {e₁ e₂ : CompileError} {s₁ s₂ : World} :
      Matched (.error (.rejected e₁) s₁) (.error (.rejected e₂) s₂)
  | unresolved {name : String} {s₁ s₂ : World} (out : s₁.transcript.out = s₂.transcript.out) :
      Matched (.error (.unresolved name) s₁) (.error (.unresolved name) s₂)
  | halted {reason₁ reason₂ : Code.Halt} {s₁ s₂ : World}
      (out : s₁.transcript.out = s₂.transcript.out) :
      Matched (.error (.halted reason₁) s₁) (.error (.halted reason₂) s₂)

theorem matched_of_answer_eq {r₁ r₂ : EStateM.Result Fault World Reply}
    (h : answer r₁ = answer r₂) : Matched r₁ r₂ := by
  rcases r₁ with ⟨reply₁, s₁⟩ | ⟨_ | _ | _, s₁⟩ <;>
    rcases r₂ with ⟨reply₂, s₂⟩ | ⟨_ | _ | _, s₂⟩ <;>
    simp only [answer, Prod.mk.injEq, reduceCtorEq, false_and, Answer.accepted.injEq,
      Answer.unresolved.injEq] at h
  · obtain ⟨rfl, hout⟩ := h
    exact .accepted hout
  · exact .rejected
  · obtain ⟨rfl, hout⟩ := h
    exact .unresolved hout
  · exact .halted h.2

theorem Alike.accepted {reply₁ reply₂ : Reply} {s₁' s₂' : World} (h : Alike s₁ s₂)
    (parsed : item.Parsed) (h₁ : handle item s₁ = .ok reply₁ s₁')
    (h₂ : handle item s₂ = .ok reply₂ s₂') (out : s₁'.transcript.out = s₂'.transcript.out) :
    Alike s₁' s₂' := by
  obtain ⟨_, _, _, t₁, t₂, -⟩ := h
  exact ⟨_, _, _, t₁.accepted parsed h₁, t₂.accepted parsed h₂, out⟩

theorem quiet_of_rejected {e : CompileError} (h : Trace items ledger s) (hitem : item.Plain)
    (hr : handle item s = .error (.rejected e) s') : Quiet s s' := by
  have hs := h.sound
  have hh := hs.handled hitem
  rw [hr] at hh
  cases hh with
  | rejected objects kept quiet => exact quiet

theorem Alike.rejected {e : CompileError} {s₁' : World} (h : Alike s₁ s₂) (parsed : item.Parsed)
    (h₁ : handle item s₁ = .error (.rejected e) s₁') : Alike s₁' s₂ := by
  obtain ⟨_, _, _, t₁, t₂, out⟩ := h
  exact ⟨_, _, _, t₁.rejected parsed h₁, t₂, Eq.trans (quiet_of_rejected t₁ parsed.plain h₁) out⟩

/-- A session that never sees the items another one rejects answers as that one. -/
theorem log_remaining (h : Alike s₁ s₂) (parsed : ∀ item ∈ items, item.Parsed) :
    log (remaining items s₁) s₂ = (log items s₁).filter (!·.isRejected) := by
  induction items generalizing s₁ s₂ with
  | nil => rfl
  | cons item items ih =>
    have hitem := parsed item List.mem_cons_self
    have hrest : ∀ item ∈ items, item.Parsed := fun i hi => parsed i (List.mem_cons_of_mem _ hi)
    have hmatched := matched_of_answer_eq (h.answer_eq hitem.plain)
    generalize hr₁ : handle item s₁ = r₁ at hmatched
    generalize hr₂ : handle item s₂ = r₂ at hmatched
    cases hmatched with
    | accepted out =>
      have hih := ih (h.accepted hitem hr₁ hr₂ out) hrest
      simp [remaining, log, hr₁, hr₂, hih, answer, Entry.isRejected, out]
    | rejected =>
      have hih := ih (h.rejected hitem hr₁) hrest
      simp [remaining, log, hr₁, hih, answer, Entry.isRejected]
    | unresolved out => simp [remaining, log, hr₁, hr₂, answer, Entry.isRejected, out]
    | halted out => simp [remaining, log, hr₁, hr₂, answer, Entry.isRejected, out]

/-- A rejected item is inert. It leaves behind a `Residue` only and writes nothing to
    standard output, and when all rejected items are taken out of a sequence, every
    other item is answered as before. -/
theorem rejected_inert (h : Trace items ledger s) :
    (∀ item e s', item.Parsed → handle item s = .error (.rejected e) s' →
      Residue s.workspace s'.workspace ∧ s'.transcript.out = s.transcript.out) ∧
    (∀ more, (∀ item ∈ more, item.Parsed) →
      log (remaining more s) s = (log more s).filter (!·.isRejected)) := by
  refine ⟨fun item e s' parsed hr => ?_, fun more parsed => ?_⟩
  · have hs := h.sound
    have hh := hs.handled parsed.plain
    rw [hr] at hh
    exact ⟨hh.residue, quiet_of_rejected h parsed.plain hr⟩
  · exact log_remaining ⟨_, _, _, h, h, rfl⟩ parsed

/-- After `foo(1)` has closed the unit of `foo`, the expression `foo(1) + baz(2)` is
    rejected because of `baz`, and `foo` stays behind in a new unit. The extern of
    `baz` that follows is answered as if the expression had never been there. -/
theorem rejected_inert_at_forwarded : ∃ (items : List Item) (ledger : Ledger) (s : World)
    (item more : Item) (e : CompileError) (s' : World), Trace items ledger s ∧ item.Parsed ∧
    more.Parsed ∧ handle item s = .error (.rejected e) s' ∧ s.workspace.current = none ∧
    (s'.workspace.current.map fun u => u.declarations.map fun d => (d.symbol, d.arity, d.hasBody)) =
      some [("foo", 1, false)] ∧
    Residue s.workspace s'.workspace ∧
    log [more] s = (log [item, more] s).filter (!·.isRejected) := by
  have p₁ : (Item.definition ⟨⟨"foo", ["x"]⟩, .var "x"⟩).Parsed :=
    ⟨.standard, "def foo(x) x", .ofText "def foo(x) x", _, List.suffix_rfl, rfl⟩
  have p₂ : (Item.expression ⟨.anonymous, .call "foo" [.number (Numeral.value ['1'])]⟩).Parsed :=
    ⟨.standard, "foo(1)", .ofText "foo(1)", _, List.suffix_rfl, rfl⟩
  have p₃ : (Item.expression ⟨.anonymous, .binary '+'
      (.call "foo" [.number (Numeral.value ['1'])])
      (.call "baz" [.number (Numeral.value ['2'])])⟩).Parsed :=
    ⟨.standard, "foo(1) + baz(2)", .ofText "foo(1) + baz(2)", _, List.suffix_rfl, rfl⟩
  have p₄ : (Item.external ⟨"baz", ["x"]⟩).Parsed :=
    ⟨.standard, "extern baz(x)", .ofText "extern baz(x)", _, List.suffix_rfl, rfl⟩
  -- The worlds are written out so that each step starts from a value.
  have h₁ : Trace _ _ { workspace := {
      current := some {
        name := "unit_0"
        declarations := [
          { name := "foo", symbol := "foo", arity := 1, id := 0, linkage := .exported,
            hasBody := true }]
        routines := [⟨0, "foo", 1, [], 0⟩] }
      nextUnit := 1 } } :=
    (Trace.start {}).accepted p₁ rfl
  have h₂ : Trace _ _ { workspace := {
      supply := ⟨1⟩
      closed := [{
        name := "unit_0"
        declarations := [
          { name := "foo", symbol := "foo", arity := 1, id := 0, linkage := .exported,
            hasBody := true },
          { name := "", symbol := "anon_func_0", arity := 0, id := 1, linkage := .exported,
            hasBody := true }]
        routines := [⟨0, "foo", 1, [], 0⟩,
          ⟨1, "anon_func_0", 0,
            [.const (Numeral.value ['1']), .call ⟨0, 0, "foo", 1, true⟩ [0]], 1⟩] }]
      engines := [{
        unit := "unit_0"
        symbols := [("foo", ⟨0, 0⟩), ("anon_func_0", ⟨0, 1⟩)]
        code := [⟨0, "foo", 1, [], 0⟩,
          ⟨1, "anon_func_0", 0,
            [.const (Numeral.value ['1']), .call (.code ⟨0, 0⟩) [0]], 1⟩] }]
      registry := ⟨[[("foo", ⟨0, 0⟩), ("anon_func_0", ⟨0, 1⟩)]]⟩
      nextUnit := 1 } } :=
    h₁.accepted p₂ rfl
  obtain ⟨hresidue, hlog⟩ := rejected_inert h₂
  have hparsed := List.forall_mem_cons.mpr ⟨p₃, List.forall_mem_singleton.mpr p₄⟩
  exact ⟨_, _, _, _, _, _, _, h₂, p₃, p₄, rfl, rfl, rfl, (hresidue _ _ _ p₃ rfl).1, hlog _ hparsed⟩

end Abacus.Session
