-- SUMMARY: What handling an item comes to, told by signatures alone.
import Abacus.Proofs.Finalizing
import Abacus.Proofs.Tables
import Abacus.Session

/-!
# Handling items

The signatures of a workspace form a table. An item that was read from a text is
rejected for a reason that this table gives, and is accepted otherwise; which
units hold the declarations never matters. An accepted expression goes into the
open unit, which is then closed and run.
-/

namespace Abacus.Session

open Build Workspace

variable {s s' : World} {f : Function}

/-- The anonymous functions still to come are not declared. -/
def Fresh (w : Workspace) : Prop :=
  ∀ k, w.supply.next ≤ k → w.signature? (Symbol.anonymous k) = none

/-- The workspace once an item has its symbol. -/
def numbered (w : Workspace) : Item → Workspace
  | .expression _ => { w with supply := w.supply.fresh.2 }
  | _ => w

/-- An expression was compiled, and its unit closed and linked: its code is at
    the given address. -/
inductive Placed (f : Function) (w w' : Workspace) (a : Address) : Prop where
  | mk {w₁ : Workspace} {u : CodeUnit} {e : Engine}
      (extension : Extension f (Symbol.anonymous w.supply.next) (numbered w (.expression f)) w₁)
      (current : w₁.current = some u) (link : u.link w₁.engines.length w₁.registry = .ok e)
      (address : (u.addresses w₁.engines.length).lookup (Symbol.anonymous w.supply.next) = some a)
      (workspace : w' = w₁.close u e)

/-- Runs the code at an address. -/
def runAt (engines : List Engine) (a : Address) : Code.Exec Float :=
  Engine.run engines (Engine.depthBound engines) (.code a) []

/-- The endings of handling an item. -/
inductive Handled (s : World) : Item → EStateM.Result Fault World Reply → Prop where
  | rejected {item : Item} {e : CompileError} {s' : World}
      (objects : Table.Objects s.workspace.signature? item e)
      (kept : Kept (numbered s.workspace item) s'.workspace) (quiet : Quiet s s')
      (forwards : Forwards (numbered s.workspace item) s'.workspace) :
      Handled s item (.error (.rejected e) s')
  | declared {proto : Prototype} {s' : World}
      (accepts : Table.Accepts s.workspace.signature? (.external proto))
      (grown : Grown s.workspace s'.workspace)
      (signature? : s'.workspace.signature? =
        Table.after s.workspace.signature? (.external proto)) (quiet : Quiet s s') :
      Handled s (.external proto) (.ok (.declared proto.name) s')
  | defined {f : Function} {s' : World}
      (accepts : Table.Accepts s.workspace.signature? (.definition f))
      (extension : Extension f f.proto.name s.workspace s'.workspace) (quiet : Quiet s s') :
      Handled s (.definition f) (.ok (.defined f.proto.name) s')
  /-- An expression is accepted, but its unit cannot be linked. -/
  | unresolved {f : Function} {symbol : String} {s' : World} {w₁ : Workspace} {u : CodeUnit}
      (accepts : Table.Accepts s.workspace.signature? (.expression f))
      (extension : Extension f (Symbol.anonymous s.workspace.supply.next)
        (numbered s.workspace (.expression f)) w₁)
      (current : w₁.current = some u) (link : u.link w₁.engines.length w₁.registry = .error symbol)
      (quiet : Quiet s s') : Handled s (.expression f) (.error (.unresolved symbol) s')
  /-- An expression is accepted and linked, and runs for ever. -/
  | halted {f : Function} {a : Address} {reason : Code.Halt} {s' : World}
      (accepts : Table.Accepts s.workspace.signature? (.expression f))
      (placed : Placed f s.workspace s'.workspace a)
      (run : (runAt s'.workspace.engines a).run [] = .error reason) (quiet : Quiet s s') :
      Handled s (.expression f) (.error (.halted reason) s')
  | evaluated {f : Function} {a : Address} {x : Float} {bytes : List UInt8} {s' : World}
      (accepts : Table.Accepts s.workspace.signature? (.expression f))
      (placed : Placed f s.workspace s'.workspace a)
      (run : (runAt s'.workspace.engines a).run [] = .ok (x, bytes))
      (out : s'.transcript.out = s.transcript.out ++ bytes) :
      Handled s (.expression f) (.ok (.evaluated x) s')

/-! ## Externs -/

theorem handled_external (hw : s.workspace.Coherent) {proto : Prototype}
    (hitem : (Item.external proto).Plain) :
    Handled s (.external proto) (handle (.external proto) s) := by
  have hname : Symbol.legalize proto.name = proto.name := Symbol.IsWord.legalize_eq hitem
  have hdecl := declared_declareExternal hw proto
  rw [handle]
  generalize hr : declareExternal proto s = r at hdecl
  cases hdecl with
  | new unknown workspace quiet =>
    rw [hname] at unknown workspace
    have ha : ∀ d ∈ s.workspace.declarations proto.name, d.arity = proto.arity := by
      rw [signature?_eq_none.mp unknown]
      simp
    rw [bind_ok hr]
    refine .declared ?_ ?_ ?_ quiet
    · intro sig hsig
      rw [unknown] at hsig
      cases hsig
    · rw [workspace]
      exact grown_declare hw ha _ _
    · funext t
      rw [workspace, signature?_declare hw ha, unknown]
      simp only [Table.after, unknown, Table.insert, Option.getD_none]
  | known signature? arity =>
    rw [hname] at signature?
    rw [bind_ok hr]
    refine .declared ?_ (.refl _) ?_ rfl
    · intro sig hsig
      rw [signature?] at hsig
      cases hsig
      exact arity
    · simp only [Table.after, signature?]
  | clash signature? arity =>
    rw [hname] at signature?
    rw [bind_error hr]
    exact .rejected (.external signature? arity) (.refl _) rfl .refl

/-! ## Definitions -/

/-- A body sees the signatures of the workspace, and its own function's. -/
theorem objection?_within (w : Workspace) (hbody : f.body.Plain) :
    f.body.objection? f.proto.params (arityWithin? w f.proto f.proto.name) =
      Table.bodyObjection? w.signature? f := by
  refine Expr.objection?_congr fun c hc => ?_
  unfold arityWithin? Table.arity? Table.insert
  rw [(hbody c hc).legalize_eq]
  split <;> rfl

theorem objects_of_objection? {name symbol : String} {arity : Nat} {e : CompileError}
    {w : Workspace} (hw : w.Coherent)
    (h : objection? name arity (w.declarations symbol) = some e) :
    ∃ sig, w.signature? symbol = some sig ∧
      ((sig.hasBody = true ∧ e = .duplicateDefinition name) ∨
        (sig.arity ≠ arity ∧ e = .arityMismatch name sig.arity arity)) := by
  rcases objection?_eq_some h with ⟨d, hd, hb, rfl⟩ | ⟨d, hd, ha, rfl⟩
  · obtain ⟨sig, hs⟩ := exists_signature? hd
    exact ⟨sig, hs, .inl ⟨(hasBody_of_signature? hs).mpr ⟨d, hd, hb⟩, rfl⟩⟩
  · obtain ⟨sig, hs⟩ := exists_signature? hd
    have harity := arity_of_signature? hw hs hd
    rw [harity] at ha ⊢
    exact ⟨sig, hs, .inr ⟨ha, rfl⟩⟩

theorem handled_definition (hw : s.workspace.Coherent) (hitem : (Item.definition f).Plain) :
    Handled s (.definition f) (handle (.definition f) s) := by
  obtain ⟨hname, hbody⟩ := hitem
  have hnamed := symbolFor_of_named s.workspace.supply hname.isEmpty_eq
  have hsupplied : supplied s.workspace f.proto.name = s.workspace := by
    unfold supplied
    rw [hnamed]
  have hgen := generated_generate hw f
  rw [hnamed, hname.legalize_eq] at hgen
  rw [handle]
  generalize hr : generate f s = r at hgen
  cases hgen with
  | clash admits objection workspace quiet =>
    rw [hsupplied] at workspace
    rw [bind_error hr]
    obtain ⟨sig, hs, ⟨hb, rfl⟩ | ⟨ha, rfl⟩⟩ := objects_of_objection? hw objection
    · exact .rejected (.duplicate hs hb) (workspace ▸ .refl _) quiet (workspace ▸ .refl)
    · exact .rejected (.arity hs ha) (workspace ▸ .refl _) quiet (workspace ▸ .refl)
  | refused admits objection forwards quiet =>
    rw [hsupplied] at forwards
    rw [objection?_within _ hbody] at objection
    rw [bind_error hr]
    exact .rejected (.body admits objection) (forwards.kept hw) quiet forwards
  | unemitted admits other ne_backend forwards workspace quiet =>
    obtain ⟨c, hc, hsymbol, hne⟩ := other
    rw [(hbody c hc).legalize_eq] at hsymbol
    exact absurd ⟨hname.isEmpty_eq, hsymbol⟩ hne
  | compiled admits objection extension quiet =>
    rw [hsupplied] at extension
    rw [objection?_within _ hbody] at objection
    rw [bind_ok hr]
    exact .defined ⟨admits, objection⟩ extension quiet

/-! ## Expressions -/

theorem objection?_within_anonymous (w : Workspace) (k : Nat) (hbody : f.body.Plain) :
    f.body.objection? f.proto.params (arityWithin? w f.proto (Symbol.anonymous k)) =
      f.body.objection? f.proto.params (Table.arity? w.signature?) := by
  refine Expr.objection?_congr fun c hc => ?_
  unfold arityWithin? Table.arity?
  rw [(hbody c hc).legalize_eq, if_neg ((hbody c hc).ne_anonymous k)]

/-- A function that was just compiled has its address once its unit is linked. -/
theorem addressed_extension {w : Workspace} {symbol : String} {a : Address}
    (hl : w.Linked) (hfresh : w.signature? symbol = none)
    (hext : Extension f symbol w s.workspace) (h : Addressed symbol s (.ok a s')) :
    ∃ u e, s.workspace.current = some u ∧
      u.link s.workspace.engines.length s.workspace.registry = .ok e ∧
      (u.addresses s.workspace.engines.length).lookup symbol = some a ∧
      s'.workspace = s.workspace.close u e ∧ Quiet s s' := by
  cases h with
  | known address? =>
    have hclosed : ∀ u ∈ w.closed, u.find? symbol = none := by
      have hnil := List.append_eq_nil_iff.mp (signature?_eq_none.mp hfresh)
      exact List.filterMap_eq_nil_iff.mp hnil.2
    have hnone := hl.address?_eq_none hclosed
    unfold Workspace.address? at hnone address?
    rw [hext.frame.2.1, hnone] at address?
    cases address?
  | linked address? current link workspace address quiet =>
    exact ⟨_, _, current, link, address, workspace, quiet⟩

/-- An expression that was compiled is linked and run. -/
theorem handled_evaluate {s₁ : World} (hw : s.workspace.Coherent) (hl : s.workspace.Linked)
    (hfresh : s.workspace.signature? (Symbol.anonymous s.workspace.supply.next) = none)
    (harity : f.proto.arity = 0) (accepts : Table.Accepts s.workspace.signature? (.expression f))
    (extension : Extension f (Symbol.anonymous s.workspace.supply.next)
      (numbered s.workspace (.expression f)) s₁.workspace) (quiet : Quiet s s₁) :
    Handled s (.expression f) ((do
      let x ← evaluate
        ⟨f.proto.name, Symbol.anonymous s.workspace.supply.next, f.proto.arity⟩
      return .evaluated x : Build Reply) s₁) := by
  have hw₀ : (numbered s.workspace (.expression f)).Coherent := hw.step (.supplied _)
  have hl₀ : (numbered s.workspace (.expression f)).Linked := hl.step (.supplied _)
  have hw₁ := hw₀.steps extension.steps
  have heval := evaluated_evaluate hw₁
    ⟨f.proto.name, Symbol.anonymous s.workspace.supply.next, f.proto.arity⟩
  generalize hv : evaluate _ s₁ = r at heval
  cases heval with
  | arity ne => exact absurd harity ne
  | unaddressed arity addressed =>
    rw [bind_error hv]
    cases addressed with
    | unknown address? bodiless =>
      obtain ⟨-, -, -, -, u, hu, hdef⟩ := extension.frame
      rw [bodiless u hu] at hdef
      cases hdef
    | unresolved workspace quiet' current link =>
      exact .unresolved accepts extension current link (quiet.trans quiet')
  | halted arity addressed run =>
    obtain ⟨u, e, hu, hlink, ha, hws, quiet'⟩ :=
      addressed_extension hl₀ hfresh extension addressed
    rw [bind_error hv]
    exact .halted accepts (.mk extension hu hlink ha hws) run (quiet.trans quiet')
  | value arity addressed run =>
    obtain ⟨u, e, hu, hlink, ha, hws, quiet'⟩ :=
      addressed_extension hl₀ hfresh extension addressed
    rw [bind_ok hv]
    refine .evaluated accepts (.mk extension hu hlink ha hws) run ?_
    exact congrArg (· ++ _) (quiet.trans quiet')

theorem handled_expression (hw : s.workspace.Coherent) (hl : s.workspace.Linked)
    (hfresh : Fresh s.workspace) (hitem : (Item.expression f).Plain) :
    Handled s (.expression f) (handle (.expression f) s) := by
  obtain ⟨hproto, hbody⟩ := hitem
  have hgen := generated_generate hw f
  have hnone : s.workspace.signature? (Symbol.anonymous s.workspace.supply.next) = none :=
    hfresh _ (Nat.le_refl _)
  have hsupplied : supplied s.workspace f.proto.name = numbered s.workspace (.expression f) := by
    rw [hproto]; rfl
  have hsymbol : (s.workspace.supply.symbolFor f.proto.name).1 =
      Symbol.anonymous s.workspace.supply.next := by
    rw [hproto]; rfl
  have harity : f.proto.arity = 0 := by rw [hproto]; rfl
  rw [hsymbol] at hgen
  rw [handle]
  generalize hr : generate f s = r at hgen
  cases hgen with
  | clash admits objection workspace quiet =>
    refine absurd (fun sig hs => ?_) admits
    rw [hnone] at hs
    cases hs
  | refused admits objection forwards quiet =>
    rw [hsupplied] at forwards
    rw [objection?_within_anonymous _ _ hbody] at objection
    have hw₀ : (numbered s.workspace (.expression f)).Coherent := hw.step (.supplied _)
    rw [bind_error hr]
    exact .rejected (.expression objection) (forwards.kept hw₀) quiet forwards
  | unemitted admits other ne_backend forwards workspace quiet =>
    obtain ⟨c, hc, hown, -⟩ := other
    rw [(hbody c hc).legalize_eq] at hown
    exact absurd hown ((hbody c hc).ne_anonymous _)
  | compiled admits objection extension quiet =>
    rw [hsupplied] at extension
    rw [objection?_within_anonymous _ _ hbody] at objection
    rw [bind_ok hr]
    exact handled_evaluate hw hl hnone harity objection extension quiet

/-- Handling an item that was read from a text ends in one of the ways of
    `Handled`. -/
theorem handled_handle (hw : s.workspace.Coherent) (hl : s.workspace.Linked)
    (hfresh : Fresh s.workspace) {item : Item} (hitem : item.Plain) :
    Handled s item (handle item s) := by
  cases item with
  | definition f => exact handled_definition hw hitem
  | external proto => exact handled_external hw hitem
  | expression f => exact handled_expression hw hl hfresh hitem

/-! ## One item -/

/-- What a session needs of its workspace to go on. -/
structure Sound (w : Workspace) : Prop where
  coherent : w.Coherent
  linked   : w.Linked
  fresh    : Fresh w

/-- A name that is not the symbol of an anonymous function. -/
def Named (name : String) : Prop :=
  ∀ k, name ≠ Symbol.anonymous k

theorem sound_start (config : Config) : Sound { config } where
  coherent := coherent_start config
  linked := linked_start config
  fresh _ _ := rfl

theorem Sound.handled (hs : Sound s.workspace) {item : Item} (hitem : item.Plain) :
    Handled s item (handle item s) :=
  handled_handle hs.coherent hs.linked hs.fresh hitem

theorem step_numbered (w : Workspace) (item : Item) : Steps w (numbered w item) := by
  cases item with
  | expression f => exact .single (.supplied _)
  | definition f => exact .refl
  | external proto => exact .refl

theorem Placed.steps {w w' : Workspace} {a : Address} (h : Placed f w w' a) : Steps w w' := by
  obtain ⟨extension, current, link, -, rfl⟩ := h
  exact ((step_numbered w (.expression f)).trans extension.steps).tail (.closed current link)

/-- The only signature that an expression adds is its own. -/
theorem Placed.signature? {w w' : Workspace} {a : Address} (hw : w.Coherent)
    (h : Placed f w w' a) (t : String) :
    w'.signature? t =
      if t = Symbol.anonymous w.supply.next then some ⟨f.proto.arity, true⟩ else w.signature? t := by
  obtain @⟨w₁, u, e, extension, current, link, -, rfl⟩ := h
  have hw₁ := hw.steps ((step_numbered w (.expression f)).trans extension.steps)
  obtain ⟨-, -, -, -, -, hsig⟩ := extension
  rw [signature?_close hw₁ current link, hsig]
  rfl

theorem Placed.supply {w w' : Workspace} {a : Address} (h : Placed f w w' a) :
    w'.supply.next = w.supply.next + 1 := by
  obtain ⟨extension, -, -, -, rfl⟩ := h
  exact congrArg Symbol.Supply.next extension.frame.2.2.2.1

theorem Fresh.congr {w w' : Workspace} (hw : Fresh w) (hs : w.supply.next ≤ w'.supply.next)
    (h : ∀ k, w'.supply.next ≤ k → w'.signature? (Symbol.anonymous k) =
      w.signature? (Symbol.anonymous k)) : Fresh w' := by
  intro k hk
  rw [h k hk]
  exact hw k (Nat.le_trans hs hk)

theorem next_le_numbered (w : Workspace) (item : Item) :
    w.supply.next ≤ (numbered w item).supply.next := by
  cases item with
  | expression f => exact Nat.le_succ _
  | definition f => exact Nat.le_refl _
  | external proto => exact Nat.le_refl _

theorem signature?_numbered (w : Workspace) (item : Item) (t : String) :
    (numbered w item).signature? t = w.signature? t := by
  cases item <;> rfl

/-- A rejected item leaves a sound workspace, and every signature as it was. -/
theorem Sound.rejected {item : Item} {e : CompileError} (hs : Sound s.workspace)
    (h : Handled s item (.error (.rejected e) s')) :
    Sound s'.workspace ∧ s'.workspace.signature? = s.workspace.signature? := by
  cases h with
  | rejected objects kept quiet =>
    have hsteps := (step_numbered s.workspace item).trans kept.steps
    have hsig : ∀ t, s'.workspace.signature? t = s.workspace.signature? t := fun t =>
      (kept.signature? t).trans (signature?_numbered s.workspace item t)
    refine ⟨⟨hs.coherent.steps hsteps, hs.linked.steps hsteps, ?_⟩, funext hsig⟩
    refine hs.fresh.congr ?_ fun k _ => hsig _
    rw [kept.supply]
    exact next_le_numbered s.workspace item

/-- An accepted item leaves a sound workspace, and the table it should. -/
theorem Sound.accepted {item : Item} {reply : Reply} (hs : Sound s.workspace)
    (hitem : item.Plain) (h : Handled s item (.ok reply s')) :
    Sound s'.workspace ∧ ∀ t, Named t →
      s'.workspace.signature? t = Table.after s.workspace.signature? item t := by
  cases h with
  | @declared proto _ accepts grown signature? quiet =>
    refine ⟨⟨hs.coherent.steps grown.steps, hs.linked.steps grown.steps, ?_⟩, ?_⟩
    · refine hs.fresh.congr (by rw [grown.supply]) fun k _ => ?_
      rw [signature?, Table.after_anonymous hitem]
    · intro t _
      rw [signature?]
  | @defined f _ accepts extension quiet =>
    obtain ⟨-, -, -, hsupply, -⟩ := extension.frame
    have hsteps := extension.steps
    obtain ⟨-, -, -, -, -, hsig⟩ := extension
    refine ⟨⟨hs.coherent.steps hsteps, hs.linked.steps hsteps, ?_⟩, ?_⟩
    · refine hs.fresh.congr (by rw [hsupply]) fun k _ => ?_
      rw [hsig, if_neg (hitem.1.ne_anonymous k).symm]
    · intro t _
      exact hsig t
  | @evaluated f a x bytes _ accepts placed run out =>
    have hsig := placed.signature? hs.coherent
    have hsupply := placed.supply
    refine ⟨⟨hs.coherent.steps placed.steps, hs.linked.steps placed.steps, ?_⟩, ?_⟩
    · refine hs.fresh.congr (by omega) fun k hk => ?_
      rw [hsig, if_neg]
      intro heq
      have := Symbol.anonymous_injective heq
      omega
    · intro t ht
      rw [hsig, if_neg (ht _)]
      rfl

/-! ## Any number of items -/

/-- Items handled one after another, with those that were accepted. A session
    goes on after a rejection, and after no other failure; what it writes between
    items does not matter. -/
inductive Trace : List Item → List Item → World → Prop where
  | start (config : Config) : Trace [] [] { workspace := { config } }
  | accepted {items ledger : List Item} {s s' : World} {item : Item} {reply : Reply}
      (h : Trace items ledger s) (parsed : item.Parsed) (ok : handle item s = .ok reply s') :
      Trace (items ++ [item]) (ledger ++ [item]) s'
  | rejected {items ledger : List Item} {s s' : World} {item : Item} {e : CompileError}
      (h : Trace items ledger s) (parsed : item.Parsed)
      (error : handle item s = .error (.rejected e) s') : Trace (items ++ [item]) ledger s'
  | reported {items ledger : List Item} {s : World} (h : Trace items ledger s)
      (transcript : Transcript) : Trace items ledger { s with transcript }

theorem Trace.sound {items ledger : List Item} (h : Trace items ledger s) : Sound s.workspace := by
  induction h with
  | start config => exact sound_start config
  | accepted _ parsed ok ih =>
    have hh := ih.handled parsed.plain
    rw [ok] at hh
    exact (ih.accepted parsed.plain hh).1
  | rejected _ parsed error ih =>
    have hh := ih.handled parsed.plain
    rw [error] at hh
    exact (ih.rejected hh).1
  | reported _ _ ih => exact ih

/-- What holds of an empty workspace and is kept by every item holds in every session. -/
theorem Trace.keeps {P : List Item → List Item → Workspace → Prop}
    (start : ∀ config, P [] [] { config })
    (accepted : ∀ {items ledger s s' item reply}, Sound s.workspace → item.Plain →
      Handled s item (.ok reply s') → P items ledger s.workspace →
      P (items ++ [item]) (ledger ++ [item]) s'.workspace)
    (rejected : ∀ {items ledger s s' item e}, Sound s.workspace → item.Plain →
      Handled s item (.error (.rejected e) s') → P items ledger s.workspace →
      P (items ++ [item]) ledger s'.workspace)
    {items ledger : List Item} (h : Trace items ledger s) : P items ledger s.workspace := by
  induction h with
  | start config => exact start config
  | accepted h parsed ok ih =>
    have hs := h.sound
    exact accepted hs parsed.plain (ok ▸ hs.handled parsed.plain) ih
  | rejected h parsed error ih =>
    have hs := h.sound
    exact rejected hs parsed.plain (error ▸ hs.handled parsed.plain) ih
  | reported _ _ ih => exact ih

end Abacus.Session
