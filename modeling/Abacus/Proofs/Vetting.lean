-- SUMMARY: What a session has checked about the functions in its units.
import Abacus.Proofs.Recording
import Abacus.Proofs.Scopes

/-!
# Vetted units

A call is checked against a declaration when its function is generated, and bound
to a body only when the unit is linked, perhaps to one that was accepted after
the caller. What holds in between is said here: the routines of a unit belong to
functions whose calls agree with what the unit declares, and what a unit declares
is an extern that was accepted, or has a body by the time the unit is closed. So a
declaration that could end up with an intrinsic has one parameter, if the externs
of intrinsics have.
-/

namespace Abacus

open Workspace

/-- Every extern of an intrinsic's name has one parameter. -/
def Ledger.FitsHost (ledger : Ledger) : Prop :=
  ∀ proto, Item.external proto ∈ ledger → (Intrinsic.ofSymbol? proto.name).isSome = true →
    proto.arity = 1

/-- An extern of that name and number of parameters was accepted. -/
def Ledger.Imports (ledger : Ledger) (name : String) (n : Nat) : Prop :=
  ∃ proto, Item.external proto ∈ ledger ∧ proto.name = name ∧ proto.arity = n

theorem Ledger.Imports.append {ledger : Ledger} {name : String} {n : Nat}
    (h : ledger.Imports name n) (item : Item) : Ledger.Imports (ledger ++ [item]) name n := by
  obtain ⟨proto, hproto, hname, harity⟩ := h
  exact ⟨proto, List.mem_append_left _ hproto, hname, harity⟩

theorem Ledger.Imports.arity_eq {ledger : Ledger} {name : String} {n : Nat}
    (h : ledger.Imports name n) (hfits : ledger.FitsHost)
    (hhost : (Intrinsic.ofSymbol? name).isSome = true) : n = 1 := by
  obtain ⟨proto, hproto, rfl, rfl⟩ := h
  exact hfits proto hproto hhost

/-- A routine is that of a function whose body agrees with what the unit declares. -/
structure CodeUnit.Checks (u : CodeUnit) (f : Function) (r : Code.Routine Code.FuncRef) :
    Prop where
  plain : f.body.Plain
  compiles : u.Compiles f r.symbol r
  inScope : f.body.Scoped f.proto.params fun callee n => ∃ id, u.Declares callee id n

theorem CodeUnit.Checks.mono {u u' : CodeUnit} {f : Function} {r : Code.Routine Code.FuncRef}
    (h : u.Checks f r) (hu : ∀ symbol id arity, u.Declares symbol id arity →
      u'.Declares symbol id arity) : u'.Checks f r where
  plain := h.plain
  compiles := h.compiles.mono hu
  inScope := h.inScope.imp fun callee _ n ⟨id, hid⟩ => ⟨id, hu callee id n hid⟩

namespace Session

open Build

variable {s s' : World} {w w' : Workspace} {f : Function} {ledger : Ledger} {item : Item}

/-- A name of an intrinsic that is declared has a body, or one parameter as the
    intrinsic has. -/
def Hosted (w : Workspace) : Prop :=
  ∀ name sig, w.signature? name = some sig → (Intrinsic.ofSymbol? name).isSome = true →
    sig.hasBody = true ∨ sig.arity = 1

/-- What is known about the units of a workspace before any of them is linked, if the
    externs of intrinsics have one parameter. -/
structure Vetted (ledger : Ledger) (w : Workspace) : Prop where
  hosted : Hosted w
  /-- What a closed unit could not find a body for fits the intrinsic. -/
  backed : ∀ (k : Nat) (u : CodeUnit), w.closed[k]? = some u → ∀ d ∈ u.declarations,
    (Intrinsic.ofSymbol? d.symbol).isSome = true →
    d.arity = 1 ∨ ∃ (j : Nat) (v : CodeUnit), j ≤ k ∧ w.closed[j]? = some v ∧
      v.defines d.symbol = true
  checked : ∀ (k : Nat) (u : CodeUnit), (shelf w)[k]? = some u → ∀ r ∈ u.routines,
    ∃ item ∈ ledger, ∃ f, item.function? = some f ∧ u.Checks f r

/-- What is declared has a body, or is an extern. -/
def Promised (ledger : Ledger) (w : Workspace) : Prop :=
  ∀ name sig, w.signature? name = some sig →
    sig.hasBody = true ∨ ledger.Imports name sig.arity

/-- What is known about the units of a workspace whatever was declared. -/
structure Vouched (ledger : Ledger) (w : Workspace) : Prop where
  promised : Promised ledger w
  /-- What a closed unit could not find a body for is an extern. -/
  backed : ∀ (k : Nat) (u : CodeUnit), w.closed[k]? = some u → ∀ d ∈ u.declarations,
    ledger.Imports d.symbol d.arity ∨ ∃ (j : Nat) (v : CodeUnit), j ≤ k ∧
      w.closed[j]? = some v ∧ v.defines d.symbol = true
  checked : ∀ (k : Nat) (u : CodeUnit), (shelf w)[k]? = some u → ∀ r ∈ u.routines,
    ∃ item ∈ ledger, ∃ f, item.function? = some f ∧ u.Checks f r

theorem vouched_start (config : Config) : Vouched [] { config } where
  promised _ _ hsig := by cases hsig
  backed _ _ hu := by cases hu
  checked k u hu r hr := by
    cases getElem?_concat_eq_some.mp hu with
    | inl hu => cases hu
    | inr hu =>
      rw [← hu.2] at hr
      cases hr

/-! ## Signatures -/

theorem Promised.congr (h : Promised ledger w) (hsig : ∀ t, w'.signature? t = w.signature? t) :
    Promised ledger w' := by
  intro name sig hname
  rw [hsig] at hname
  exact h name sig hname

theorem Promised.append (h : Promised ledger w) (item : Item) :
    Promised (ledger ++ [item]) w := by
  intro name sig hname
  cases h name sig hname with
  | inl hbody => exact .inl hbody
  | inr himports => exact .inr (himports.append item)

/-- A function that is compiled gets a body. -/
theorem Promised.extension {symbol : String} (h : Promised ledger w)
    (hext : Extension f symbol w w') : Promised ledger w' := by
  obtain ⟨-, -, -, -, -, hsig⟩ := hext
  intro name sig hname
  rw [hsig] at hname
  split at hname
  case isTrue =>
    cases hname
    exact .inl rfl
  case isFalse => exact h name sig hname

theorem Promised.external {proto : Prototype} (h : Promised ledger w)
    (hsig : w'.signature? = Table.after w.signature? (.external proto)) :
    Promised (ledger ++ [.external proto]) w' := by
  intro name sig hname
  rw [hsig] at hname
  cases hknown : w.signature? proto.name with
  | some known =>
    simp only [Table.after, hknown] at hname
    exact h.append _ name sig hname
  | none =>
    simp only [Table.after, hknown, Table.insert] at hname
    split at hname
    case isTrue heq =>
      cases hname
      exact .inr ⟨proto, List.mem_append_right _ (List.mem_singleton_self _), heq.symm, rfl⟩
    case isFalse => exact h.append _ name sig hname

/-! ## Bodies -/

/-- What the open unit declares has the number of parameters of its signature. -/
theorem arity_of_declares (hw : w.Coherent) {symbol : String} {id n m : Nat}
    (hd : w.unit.Declares symbol id n) (hm : Table.arity? w.signature? symbol = some m) :
    n = m := by
  obtain ⟨d, hd, rfl, -, rfl⟩ := hd
  obtain ⟨sig, hsig, rfl⟩ := Option.map_eq_some_iff.mp hm
  exact arity_of_signature? hw hsig (mem_declarations_of_unit hw hd)

/-- A body without objections agrees with what the open unit declares. -/
theorem checks_of_compiles (hw : w.Coherent) {symbol : String} {r : Code.Routine Code.FuncRef}
    (hcompiles : w.unit.Compiles f symbol r) (plain : f.body.Plain)
    (hbody : f.body.objection? f.proto.params (Table.arity? w.signature?) = none) :
    w.unit.Checks f r where
  plain := plain
  compiles := hcompiles.symbol_eq ▸ hcompiles
  inScope := by
    obtain ⟨decl, scope, -, -, -, hcode, hscope⟩ := hcompiles
    refine (Expr.scoped_of_objection? hbody).imp fun c hc n hn => ?_
    obtain ⟨index, d, hd, -⟩ := Code.exists_ref_of_callee hcode hc
    obtain ⟨hds, hdeclares⟩ := hscope c d hd
    rw [hds, (plain c hc).legalize_eq] at hdeclares
    have harity := arity_of_declares hw hdeclares hn
    exact ⟨d.id, harity ▸ hdeclares⟩

theorem arity?_of_extension {symbol : String} (hext : Extension f symbol w w') (c : String) :
    Table.arity? w'.signature? c =
      if c = symbol then some f.proto.arity else Table.arity? w.signature? c := by
  obtain ⟨-, -, -, -, -, hsig⟩ := hext
  unfold Table.arity?
  rw [hsig]
  split <;> rfl

/-- The objections to the body of a definition are the same once it is compiled. -/
theorem objection?_of_defined (hext : Extension f f.proto.name w w') :
    f.body.objection? f.proto.params (Table.arity? w'.signature?) =
      Table.bodyObjection? w.signature? f := by
  refine Expr.objection?_congr fun c _ => ?_
  rw [arity?_of_extension hext]
  unfold Table.arity? Table.insert
  split <;> rfl

/-- An expression does not call itself. -/
theorem objection?_of_anonymous {k : Nat} (hext : Extension f (Symbol.anonymous k) w w')
    (plain : f.body.Plain) :
    f.body.objection? f.proto.params (Table.arity? w'.signature?) =
      f.body.objection? f.proto.params (Table.arity? w.signature?) := by
  refine Expr.objection?_congr fun c hc => ?_
  rw [arity?_of_extension hext, if_neg ((plain c hc).ne_anonymous k)]

/-! ## Steps -/

namespace Vouched

theorem append (h : Vouched ledger w) (item : Item) : Vouched (ledger ++ [item]) w where
  promised := h.promised.append item
  backed k u hu d hd := (h.backed k u hu d hd).imp_left fun himports => himports.append item
  checked k u hu r hr := by
    obtain ⟨x, hx, f, hf, hchecks⟩ := h.checked k u hu r hr
    exact ⟨x, List.mem_append_left _ hx, f, hf, hchecks⟩

/-- A routine that was there stays checked while its unit grows. -/
theorem checked_of_carries (h : Vouched ledger w) (hcarries : Carries (shelf w) (shelf w'))
    {k : Nat} {u v : CodeUnit} {r : Code.Routine Code.FuncRef} (hv : (shelf w)[k]? = some v)
    (hr : r ∈ v.routines) (hu : (shelf w')[k]? = some u) :
    ∃ item ∈ ledger, ∃ f, item.function? = some f ∧ u.Checks f r := by
  obtain ⟨item, hitem, f, hf, hchecks⟩ := h.checked k v hv r hr
  obtain ⟨u', hu', -, hdeclares⟩ := hcarries k v hv
  rw [hu] at hu'
  cases hu'
  exact ⟨item, hitem, f, hf, hchecks.mono hdeclares⟩

theorem grown (h : Vouched ledger w) (hg : Grown w w') (promised : Promised ledger w') :
    Vouched ledger w' where
  promised := promised
  backed := by
    rw [hg.closed]
    exact h.backed
  checked k u hu r hr := by
    cases confined_grown hg k u hu r hr with
    | inl hold =>
      obtain ⟨v, hv, hrv⟩ := hold
      exact h.checked_of_carries (carries_grown hg) hv hrv hu
    | inr hfalse => cases hfalse

/-- A function that is compiled joins its unit. -/
theorem extension {symbol : String} (h : Vouched ledger w) (hw' : w'.Coherent)
    (hext : Extension f symbol w w') (hitem : item.function? = some f) (plain : f.body.Plain)
    (hbody : f.body.objection? f.proto.params (Table.arity? w'.signature?) = none) :
    Vouched (ledger ++ [item]) w' where
  promised := (h.append item).promised.extension hext
  backed := by
    rw [hext.frame.1]
    exact (h.append item).backed
  checked k u hu r hr := by
    have hcarries := carries_extension hext
    obtain ⟨new, hroutines, hcompiles, -⟩ := unit_of_extension hext
    have hold : ∀ v, (shelf w)[k]? = some v → r ∈ v.routines →
        ∃ x ∈ ledger ++ [item], ∃ g, x.function? = some g ∧ u.Checks g r :=
      fun v hv hrv => (h.append item).checked_of_carries hcarries hv hrv hu
    cases getElem?_concat_eq_some.mp hu with
    | inl hclosed =>
      rw [hext.frame.1] at hclosed
      exact hold u (getElem?_concat_eq_some.mpr (.inl hclosed)) hr
    | inr hunit =>
      obtain ⟨hk, rfl⟩ := hunit
      rw [hext.frame.1] at hk
      rw [hroutines, List.mem_append, List.mem_singleton] at hr
      cases hr with
      | inl hr => exact hold w.unit (getElem?_concat_eq_some.mpr (.inr ⟨hk, rfl⟩)) hr
      | inr hr =>
        have hmem : item ∈ ledger ++ [item] := List.mem_append_right _ (List.mem_singleton_self _)
        exact ⟨item, hmem, f, hitem, hr ▸ checks_of_compiles hw' hcompiles plain hbody⟩

/-- A unit is closed only after everything it could be bound to. -/
theorem close (h : Vouched ledger w) (hw : w.Coherent) {u : CodeUnit} {e : Engine}
    (hu : w.current = some u) (he : u.link w.engines.length w.registry = .ok e) :
    Vouched ledger (w.close u e) where
  promised := h.promised.congr fun _ => signature?_close hw hu he
  backed k v hv d hd := by
    have hmono : ∀ {j : Nat} {x : CodeUnit}, w.closed[j]? = some x →
        (w.close u e).closed[j]? = some x :=
      fun hx => getElem?_concat_eq_some.mpr (.inl hx)
    cases getElem?_concat_eq_some.mp hv with
    | inl hv =>
      cases h.backed k v hv d hd with
      | inl himports => exact .inl himports
      | inr hbody =>
        obtain ⟨j, x, hj, hx, hdef⟩ := hbody
        exact .inr ⟨j, x, hj, hmono hx, hdef⟩
    | inr hv =>
      obtain ⟨rfl, rfl⟩ := hv
      have hdecl : d ∈ w.declarations d.symbol :=
        (mem_declarations hw).mpr ⟨u, by simp [units_of_some hu], hd, rfl⟩
      obtain ⟨sig, hsig⟩ := exists_signature? hdecl
      cases h.promised d.symbol sig hsig with
      | inr himports => exact .inl (arity_of_signature? hw hsig hdecl ▸ himports)
      | inl hbody =>
        obtain ⟨b, hb, hbbody⟩ := (hasBody_of_signature? hsig).mp hbody
        obtain ⟨x, hx, hbx, hbs⟩ := (mem_declarations hw).mp hb
        rw [units_of_some hu] at hx
        obtain ⟨j, hj⟩ := List.getElem?_of_mem hx
        obtain ⟨hlt, -⟩ := List.getElem?_eq_some_iff.mp hj
        rw [List.length_append, List.length_singleton] at hlt
        exact .inr ⟨j, x, Nat.le_of_lt_succ hlt, hj, CodeUnit.defines_iff.mpr ⟨b, hbx, hbs, hbbody⟩⟩
  checked k v hv r hr := by
    rw [shelf_close hu] at hv
    cases getElem?_concat_eq_some.mp hv with
    | inl hv => exact h.checked k v hv r hr
    | inr hv =>
      rw [← hv.2] at hr
      cases hr

theorem numbered (h : Vouched ledger w) (item : Item) : Vouched ledger (numbered w item) := by
  cases item <;> exact ⟨h.promised, h.backed, h.checked⟩

/-! ## Items -/

theorem rejected {e : CompileError} (h : Vouched ledger s.workspace)
    (hh : Handled s item (.error (.rejected e) s')) : Vouched ledger s'.workspace := by
  cases hh with
  | rejected objects kept quiet =>
    have hnumbered := h.numbered item
    exact hnumbered.grown kept.toGrown (hnumbered.promised.congr kept.signature?)

theorem placed {a : Address} (h : Vouched ledger w) (hw : w.Coherent)
    (hitem : (Item.expression f).Plain) (accepts : Table.Accepts w.signature? (.expression f))
    (placed : Placed f w w' a) : Vouched (ledger ++ [.expression f]) w' := by
  obtain @⟨w₁, u, e, extension, current, link, -, rfl⟩ := placed
  have hw₁ : w₁.Coherent := (hw.steps (step_numbered w (.expression f))).steps extension.steps
  have hfunction : (Item.expression f).function? = some f := rfl
  have hbody := objection?_of_anonymous extension hitem.2
  have hvouched := (h.numbered (.expression f)).extension hw₁ extension hfunction hitem.2
    (hbody.trans accepts)
  exact hvouched.close hw₁ current link

theorem accepted {reply : Reply} (h : Vouched ledger s.workspace) (hs : Sound s.workspace)
    (hitem : item.Plain) (hh : Handled s item (.ok reply s')) :
    Vouched (ledger ++ [item]) s'.workspace := by
  have hw' := (hs.accepted hitem hh).1.coherent
  cases hh with
  | @declared proto _ accepts grown signature? quiet =>
    exact (h.append (.external proto)).grown grown (h.promised.external signature?)
  | defined accepts extension quiet =>
    have hbody := objection?_of_defined extension
    exact h.extension hw' extension rfl hitem.2 (hbody.trans accepts.2)
  | evaluated accepts placed run out => exact h.placed hs.coherent hitem accepts placed

end Vouched

theorem Trace.vouched {items : List Item} (h : Trace items ledger s) :
    Vouched ledger s.workspace := by
  refine h.keeps (P := fun _ ledger w => Vouched ledger w) ?_ ?_ ?_
  · exact fun config => vouched_start config
  · exact fun hs hitem hh ih => ih.accepted hs hitem hh
  · exact fun _ _ hh ih => ih.rejected hh

/-! ## Intrinsics -/

theorem Vouched.vetted (h : Vouched ledger w) (hfits : ledger.FitsHost) : Vetted ledger w where
  hosted name sig hsig hhost :=
    (h.promised name sig hsig).imp_right fun himports => himports.arity_eq hfits hhost
  backed k u hu d hd hhost :=
    (h.backed k u hu d hd).imp_left fun himports => himports.arity_eq hfits hhost
  checked := h.checked

end Session

end Abacus
