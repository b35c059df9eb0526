-- SUMMARY: What each building operation does to a coherent workspace.
import Abacus.Build.Generate
import Abacus.Proofs.Emission
import Abacus.Proofs.Signatures

/-!
# Building

One statement for each operation says everything that it can come to: the
result or the error, and the workspace it leaves. Resolving the names of an
expression agrees with `Expr.objection?` and only forwards declarations;
generating a function has four endings, listed by `Build.Generated`.
-/

namespace Abacus.Build

open Workspace

variable {s s' : World} {name symbol : String} {arity : Nat} {linkage : Linkage}

/-- Nothing was written to standard output. -/
def Quiet (s s' : World) : Prop :=
  s'.transcript.out = s.transcript.out

theorem Quiet.refl (s : World) : Quiet s s := rfl

theorem Quiet.trans {s₁ s₂ s₃ : World} (h : Quiet s₁ s₂) (h' : Quiet s₂ s₃) : Quiet s₁ s₃ :=
  Eq.trans h' h

/-! ## Declaring -/

theorem openUnit_apply (s : World) :
    ∃ s', openUnit s = .ok s.workspace.unit s' ∧ s'.workspace = s.workspace.opened ∧
      Quiet s s' := by
  unfold openUnit
  rw [bind_ok (workspace_apply s)]
  cases h : s.workspace.current with
  | some u =>
    refine ⟨s, ?_, (opened_of_some h).symm, rfl⟩
    rw [unit_of_some h]
    rfl
  | none =>
    have hunit : s.workspace.unit = .numbered s.workspace.nextUnit := by
      unfold Workspace.unit; rw [h]; rfl
    have hopened : s.workspace.opened =
        { s.workspace with current := some (.numbered s.workspace.nextUnit),
                           nextUnit := s.workspace.nextUnit + 1 } := by
      unfold Workspace.opened; rw [h, hunit]
    rw [hunit, hopened]
    dsimp only
    rw [bind_ok (setWorkspace_apply _ _)]
    obtain ⟨t, hnote, hout⟩ := note_apply
      ("[jit] opened " ++ (CodeUnit.numbered s.workspace.nextUnit).name)
      { s with workspace := { s.workspace with
        current := some (.numbered s.workspace.nextUnit), nextUnit := s.workspace.nextUnit + 1 } }
    rw [bind_ok hnote]
    exact ⟨_, rfl, rfl, hout⟩

/-- Declaring with the number of parameters that a symbol has succeeds. -/
theorem declare_apply (hw : s.workspace.Coherent) (name : String) (linkage : Linkage)
    (ha : ∀ d ∈ s.workspace.declarations symbol, d.arity = arity) :
    ∃ d s', declare name symbol arity linkage s = .ok d s' ∧
      s'.workspace = s.workspace.declare name symbol arity linkage ∧ Quiet s s' ∧
      d ∈ s'.workspace.unit.declarations ∧ d.symbol = symbol ∧ d.arity = arity := by
  obtain ⟨s₁, hopen, hws, hquiet⟩ := openUnit_apply s
  obtain ⟨d, hd, hmem, hds, hda⟩ := CodeUnit.declare_ok (wellFormed_unit hw) name linkage
    (arity_of_mem_unit hw ha)
  have hset : setCurrent (s.workspace.unit.declare name symbol arity linkage).2 s₁ =
      .ok () { s₁ with workspace := s.workspace.declare name symbol arity linkage } := by
    unfold setCurrent
    rw [bind_ok (workspace_apply s₁), setWorkspace_apply, hws]
    rfl
  refine ⟨d, { s₁ with workspace := s.workspace.declare name symbol arity linkage }, ?_, rfl,
    hquiet, hmem, hds, hda⟩
  unfold declare
  rw [bind_ok hopen]
  dsimp only
  rw [bind_ok hset, hd]
  rfl

/-- A declaration is found if the symbol has a signature, and then it is one of
    the open unit. -/
theorem findDeclaration_apply (hw : s.workspace.Coherent) (symbol : String) :
    ∃ found s', findDeclaration symbol s = .ok found s' ∧
      Forwards s.workspace s'.workspace ∧ Quiet s s' ∧
      found.map (·.arity) = (s.workspace.signature? symbol).map (·.arity) ∧
      ∀ d, found = some d → d.symbol = symbol ∧ d ∈ s'.workspace.unit.declarations := by
  unfold findDeclaration
  rw [bind_ok (workspace_apply s)]
  cases hopen : s.workspace.currentDeclaration? symbol with
  | some d =>
    obtain ⟨u, hu, hd⟩ := Option.bind_eq_some_iff.mp hopen
    have hmem : d ∈ s.workspace.declarations symbol := by simp [declarations, hopen]
    obtain ⟨sig, hs⟩ := exists_signature? hmem
    refine ⟨some d, s, rfl, .refl, rfl, ?_, ?_⟩
    · rw [hs]
      simp [arity_of_signature? hw hs hmem]
    · rintro d' ⟨⟩
      rw [unit_of_some hu]
      exact ⟨CodeUnit.symbol_of_find? hd, CodeUnit.mem_of_find? hd⟩
  | none =>
    cases hclosed : s.workspace.closedDeclaration? symbol with
    | none =>
      refine ⟨none, s, rfl, .refl, rfl, ?_, by simp⟩
      have hnil : s.workspace.declarations symbol = [] := by
        refine List.eq_nil_iff_forall_not_mem.mpr fun d hd => ?_
        simp only [declarations, hopen, Option.toList_none, List.nil_append,
          List.mem_filterMap] at hd
        obtain ⟨u, hu, hd⟩ := hd
        rw [List.findSome?_eq_none_iff.mp hclosed u hu] at hd
        cases hd
      rw [signature?_eq_none.mpr hnil]
      rfl
    | some found =>
      have hmem := mem_of_closedDeclaration? hclosed
      obtain ⟨sig, hs⟩ := exists_signature? hmem
      have hsymbol : found.symbol = symbol := by
        obtain ⟨u, hu, hd⟩ := List.exists_of_findSome?_eq_some hclosed
        exact CodeUnit.symbol_of_find? hd
      subst hsymbol
      obtain ⟨d, s₁, hdecl, hws, hquiet, hd, hds, hda⟩ :=
        declare_apply hw found.name .imported fun d hd => hw.arity_eq_of_mem hd hmem
      refine ⟨some d, s₁, ?_, ?_, hquiet, ?_, ?_⟩
      · dsimp only
        rw [bind_ok hdecl]
        rfl
      · rw [hws]
        exact .single (.mk hopen hclosed)
      · rw [hs]
        simp [hda, arity_of_signature? hw hs hmem]
      · rintro d' ⟨⟩
        exact ⟨hds, hd⟩

/-! ## Resolving names -/

/-- The number of parameters of a callee, seen from the body of a function that
    is about to be declared. -/
def arityWithin? (w : Workspace) (proto : Prototype) (own callee : String) : Option Nat :=
  if Symbol.legalize callee = own then some proto.arity
  else (w.signature? (Symbol.legalize callee)).map (·.arity)

/-- Callees that were found are declared in the open unit. -/
def FoundIn (w : Workspace) (own : String) (callees : Callees) : Prop :=
  ∀ c d, (c, d) ∈ callees →
    d.symbol = Symbol.legalize c ∧ d.symbol ≠ own ∧ w.unit.Declares d.symbol d.id d.arity

/-- The endings of resolving names: all functions called were found, or the
    given objection was raised. -/
inductive Resolution (own : String) (names : List String) (callees : Callees) (s : World) :
    Option CompileError → EStateM.Result Fault World Callees → Prop where
  | found {new : Callees} {s' : World} (forwards : Forwards s.workspace s'.workspace)
      (quiet : Quiet s s') (declared : FoundIn s'.workspace own new)
      (all : ∀ c ∈ names, Symbol.legalize c ≠ own → ∃ d, (c, d) ∈ new) :
      Resolution own names callees s none (.ok (new ++ callees) s')
  | refused {e : CompileError} {s' : World} (forwards : Forwards s.workspace s'.workspace)
      (quiet : Quiet s s') : Resolution own names callees s (some e) (.error (.rejected e) s')

variable {own : String} {proto : Prototype} {callees : Callees}

theorem FoundIn.mono {w w' : Workspace} (h : FoundIn w own callees) (grown : Grown w w') :
    FoundIn w' own callees := by
  intro c d hcd
  obtain ⟨hs, hne, hd⟩ := h c d hcd
  exact ⟨hs, hne, grown.declares _ _ _ hd⟩

theorem FoundIn.append {w : Workspace} {new : Callees} (h : FoundIn w own new)
    (h' : FoundIn w own callees) : FoundIn w own (new ++ callees) := by
  intro c d hcd
  rcases List.mem_append.mp hcd with hcd | hcd
  · exact h c d hcd
  · exact h' c d hcd

theorem resolution_pure (callees : Callees) (s : World) :
    Resolution own [] callees s none ((pure callees : Build Callees) s) := by
  change Resolution own [] callees s none (.ok ([] ++ callees) s)
  refine .found .refl rfl ?_ ?_
  · intro c d h; cases h
  · intro c h; cases h

/-- One expression after another: the first objection counts. -/
theorem Resolution.bind {names names' : List String} {o o' : Option CompileError}
    {x : Build Callees} {f : Callees → Build Callees} (hw : s.workspace.Coherent)
    (hx : Resolution own names callees s o (x s))
    (hf : ∀ new s', Forwards s.workspace s'.workspace →
      Resolution own names' (new ++ callees) s' o' (f (new ++ callees) s')) :
    Resolution own (names ++ names') callees s (o.or o') ((x >>= f) s) := by
  generalize hr : x s = r at hx
  cases hx with
  | refused forwards quiet =>
    rw [bind_error hr]
    exact .refused forwards quiet
  | @found new s₁ forwards quiet declared all =>
    rw [bind_ok hr, Option.none_or]
    have hw₁ := hw.steps (forwards.kept hw).steps
    have hy := hf new s₁ forwards
    generalize f (new ++ callees) s₁ = r' at hy
    cases hy with
    | refused forwards' quiet' => exact .refused (forwards.trans forwards') (quiet.trans quiet')
    | @found new' s₂ forwards' quiet' declared' all' =>
      rw [← List.append_assoc]
      refine .found (forwards.trans forwards') (quiet.trans quiet') ?_ ?_
      · exact declared'.append (declared.mono (forwards'.kept hw₁).toGrown)
      · intro c hc hne
        rcases List.mem_append.mp hc with hc | hc
        · obtain ⟨d, hd⟩ := all c hc hne
          exact ⟨d, List.mem_append_right _ hd⟩
        · obtain ⟨d, hd⟩ := all' c hc hne
          exact ⟨d, List.mem_append_left _ hd⟩

theorem arityWithin?_of_kept {w w' : Workspace} (hk : Kept w w') :
    arityWithin? w' proto own = arityWithin? w proto own := by
  funext c
  unfold arityWithin?
  rw [hk.signature?]

theorem isOperator_iff {op : Char} : isOperator op = true ↔ op ∈ ['+', '-', '*', '<'] := by
  simp [isOperator, or_assoc]

theorem resolution_operator (op : Char) (callees : Callees) (s : World) :
    Resolution own [] callees s
      (if op ∈ ['+', '-', '*', '<'] then none else some (.invalidOperator op))
      ((if isOperator op then pure callees else reject (.invalidOperator op) : Build Callees) s) := by
  by_cases h : op ∈ ['+', '-', '*', '<']
  · rw [if_pos h, if_pos (isOperator_iff.mpr h)]
    exact resolution_pure callees s
  · rw [if_neg h, if_neg (fun hop => h (isOperator_iff.mp hop))]
    exact .refused .refl rfl

theorem resolution_resolveAll {args : List Expr} (hw : s.workspace.Coherent)
    (ih : ∀ arg ∈ args, ∀ {callees s}, s.workspace.Coherent →
      Resolution own arg.callees callees s
        (arg.objection? proto.params (arityWithin? s.workspace proto own))
        (resolve proto own callees arg s)) :
    Resolution own (Expr.calleesAll args) callees s
      (Expr.objectionAll? proto.params (arityWithin? s.workspace proto own) args)
      (resolveAll proto own callees args s) := by
  induction args generalizing callees s with
  | nil =>
    rw [resolveAll]
    exact resolution_pure callees s
  | cons arg args ihargs =>
    rw [resolveAll, Expr.calleesAll, Expr.objectionAll?]
    refine Resolution.bind hw (ih arg List.mem_cons_self hw) fun new s' forwards => ?_
    have hk := forwards.kept hw
    rw [← arityWithin?_of_kept hk]
    exact ihargs (hw.steps hk.steps) fun arg harg => ih arg (List.mem_cons_of_mem _ harg)

/-- A call of the function itself needs no declaration. -/
theorem Resolution.own_cons {names : List String} {o : Option CompileError} {callee : String}
    {r : EStateM.Result Fault World Callees} (hown : Symbol.legalize callee = own)
    (h : Resolution own names callees s o r) : Resolution own (callee :: names) callees s o r := by
  cases h with
  | refused forwards quiet => exact .refused forwards quiet
  | found forwards quiet declared all =>
    refine .found forwards quiet declared fun c hc hne => ?_
    rcases List.mem_cons.mp hc with rfl | hc
    · exact absurd hown hne
    · exact all c hc hne

/-- A callee that was found goes before those found after it. -/
theorem Resolution.found_cons {names : List String} {o : Option CompileError} {callee : String}
    {decl : Declaration} {s₁ : World} {r : EStateM.Result Fault World Callees}
    (hw : s₁.workspace.Coherent) (forwards : Forwards s.workspace s₁.workspace) (quiet : Quiet s s₁)
    (declared : FoundIn s₁.workspace own [(callee, decl)])
    (h : Resolution own names ((callee, decl) :: callees) s₁ o r) :
    Resolution own (callee :: names) callees s o r := by
  cases h with
  | refused forwards' quiet' => exact .refused (forwards.trans forwards') (quiet.trans quiet')
  | @found new s₂ forwards' quiet' declared' all =>
    rw [List.append_cons]
    refine .found (forwards.trans forwards') (quiet.trans quiet') ?_ ?_
    · exact declared'.append (declared.mono (forwards'.kept hw).toGrown)
    · intro c hc hne
      rcases List.mem_cons.mp hc with rfl | hc
      · exact ⟨decl, List.mem_append_right _ (List.mem_singleton_self _)⟩
      · obtain ⟨d, hd⟩ := all c hc hne
        exact ⟨d, List.mem_append_left _ hd⟩

/-- A call: its callee is found or refused, then its arguments follow. -/
theorem resolution_call {callee : String} {args : List Expr} (hw : s.workspace.Coherent)
    (ih : ∀ callees s, s.workspace.Coherent →
      Resolution own (Expr.calleesAll args) callees s
        (Expr.objectionAll? proto.params (arityWithin? s.workspace proto own) args)
        (resolveAll proto own callees args s)) :
    Resolution own (callee :: Expr.calleesAll args) callees s
      ((Expr.call callee args).objection? proto.params (arityWithin? s.workspace proto own))
      (resolve proto own callees (.call callee args) s) := by
  rw [resolve]
  by_cases hown : Symbol.legalize callee = own
  · have harity : arityWithin? s.workspace proto own callee = some proto.arity := by
      unfold arityWithin?; rw [if_pos hown]
    rw [Expr.objection?_call_of_some harity, if_pos hown]
    by_cases hlen : proto.arity = args.length
    · rw [if_pos hlen, if_pos hlen]
      exact (ih callees s hw).own_cons hown
    · rw [if_neg hlen, if_neg hlen]
      exact .refused .refl rfl
  · have harity : arityWithin? s.workspace proto own callee =
        (s.workspace.signature? (Symbol.legalize callee)).map (·.arity) := by
      unfold arityWithin?; rw [if_neg hown]
    obtain ⟨found, s₁, hfind, forwards, quiet, hmap, hfound⟩ :=
      findDeclaration_apply hw (Symbol.legalize callee)
    rw [← hmap] at harity
    rw [if_neg hown, bind_ok hfind]
    cases found with
    | none =>
      rw [Expr.objection?_call_of_none harity]
      exact .refused forwards quiet
    | some decl =>
      obtain ⟨hds, hdmem⟩ := hfound decl rfl
      rw [Expr.objection?_call_of_some harity]
      dsimp only
      by_cases hlen : decl.arity = args.length
      · rw [if_pos hlen, if_pos hlen]
        have hk := forwards.kept hw
        have hw₁ := hw.steps hk.steps
        have hdecl : FoundIn s₁.workspace own [(callee, decl)] := by
          intro c d hcd
          obtain ⟨rfl, rfl⟩ := Prod.mk.inj (List.mem_singleton.mp hcd)
          exact ⟨hds, hds ▸ hown, d, hdmem, rfl, rfl, rfl⟩
        rw [← arityWithin?_of_kept hk]
        exact (ih ((callee, decl) :: callees) s₁ hw₁).found_cons hw₁ forwards quiet hdecl
      · rw [if_neg hlen, if_neg hlen]
        exact .refused forwards quiet

/-- Resolving the names of an expression raises the objection that the signatures
    of the workspace call for, and otherwise finds every function called. -/
theorem resolution_resolve {e : Expr} (hw : s.workspace.Coherent) :
    Resolution own e.callees callees s
      (e.objection? proto.params (arityWithin? s.workspace proto own))
      (resolve proto own callees e s) := by
  induction e generalizing callees s with
  | number value =>
    rw [resolve]
    exact resolution_pure callees s
  | var name =>
    rw [resolve, Expr.objection?]
    by_cases h : name ∈ proto.params
    · rw [if_pos h, if_pos h]
      exact resolution_pure callees s
    · rw [if_neg h, if_neg h]
      exact .refused .refl rfl
  | binary op lhs rhs ihl ihr =>
    rw [resolve, Expr.objection?, Expr.callees, Option.or_assoc, ← List.append_nil rhs.callees]
    refine Resolution.bind hw (ihl hw) fun new s₁ forwards => ?_
    have hk := forwards.kept hw
    have hw₁ := hw.steps hk.steps
    rw [← arityWithin?_of_kept hk]
    exact Resolution.bind hw₁ (ihr hw₁) fun new' s₂ _ => resolution_operator op _ s₂
  | call callee args ih =>
    refine resolution_call hw fun callees s hw => resolution_resolveAll hw ?_
    intro arg harg callees s
    exact ih arg harg

/-! ## Checking definitions -/

theorem objection?_eq_none {ds : List Declaration} :
    objection? name arity ds = none ↔ ∀ d ∈ ds, d.hasBody = false ∧ d.arity = arity := by
  induction ds with
  | nil => simp [objection?]
  | cons d ds ih =>
    unfold objection?
    by_cases hb : d.hasBody = true
    · simp [hb]
    · by_cases ha : d.arity = arity
      · simp [hb, ha, ih]
      · simp [hb, ha]

/-- A definition is objected to because of a body or of a number of parameters. -/
theorem objection?_eq_some {ds : List Declaration} {e : CompileError}
    (h : objection? name arity ds = some e) :
    (∃ d ∈ ds, d.hasBody = true ∧ e = .duplicateDefinition name) ∨
      ∃ d ∈ ds, d.arity ≠ arity ∧ e = .arityMismatch name d.arity arity := by
  induction ds with
  | nil => cases h
  | cons d ds ih =>
    unfold objection? at h
    split at h
    case isTrue hb => cases h; exact .inl ⟨d, List.mem_cons_self, hb, rfl⟩
    case isFalse =>
      split at h
      case isTrue ha => cases h; exact .inr ⟨d, List.mem_cons_self, ha, rfl⟩
      case isFalse =>
        rcases ih h with ⟨d', hd', hb, he⟩ | ⟨d', hd', ha, he⟩
        · exact .inl ⟨d', List.mem_cons_of_mem _ hd', hb, he⟩
        · exact .inr ⟨d', List.mem_cons_of_mem _ hd', ha, he⟩

/-- A symbol may be given a body: it has none, and no other number of parameters. -/
def Admits (w : Workspace) (symbol : String) (arity : Nat) : Prop :=
  ∀ sig, w.signature? symbol = some sig → sig.hasBody = false ∧ sig.arity = arity

theorem admits_iff {w : Workspace} (hw : w.Coherent) (name symbol : String) (arity : Nat) :
    Admits w symbol arity ↔ objection? name arity (w.declarations symbol) = none := by
  rw [objection?_eq_none]
  constructor
  · intro h d hd
    obtain ⟨sig, hs⟩ := exists_signature? hd
    obtain ⟨hb, ha⟩ := h sig hs
    refine ⟨?_, (arity_of_signature? hw hs hd).trans ha⟩
    rw [Bool.eq_false_iff]
    intro hbody
    rw [(hasBody_of_signature? hs).mpr ⟨d, hd, hbody⟩] at hb
    cases hb
  · intro h sig hs
    obtain ⟨d, hd⟩ := exists_of_signature? hs
    refine ⟨?_, (arity_of_signature? hw hs hd).symm.trans (h d hd).2⟩
    rw [Bool.eq_false_iff]
    intro hbody
    obtain ⟨d', hd', hb'⟩ := (hasBody_of_signature? hs).mp hbody
    rw [(h d' hd').1] at hb'
    cases hb'

theorem Admits.arity_eq {w : Workspace} (h : Admits w symbol arity) (hw : w.Coherent) :
    ∀ d ∈ w.declarations symbol, d.arity = arity := by
  intro d hd
  obtain ⟨sig, hs⟩ := exists_signature? hd
  exact (arity_of_signature? hw hs hd).trans (h sig hs).2

/-- A function that may be defined has no body yet when it has been declared. -/
theorem Admits.signature?_declare {w : Workspace} (h : Admits w symbol arity) (hw : w.Coherent)
    (name : String) (linkage : Linkage) (t : String) :
    (w.declare name symbol arity linkage).signature? t =
      if t = symbol then some ⟨arity, false⟩ else w.signature? t := by
  rw [Workspace.signature?_declare hw (h.arity_eq hw)]
  split
  case isTrue =>
    cases hs : w.signature? symbol with
    | none => rfl
    | some sig =>
      obtain ⟨hbody, harity⟩ := h sig hs
      cases sig
      cases hbody
      cases harity
      rfl
  case isFalse => rfl

theorem Admits.of_kept {w w' : Workspace} (h : Admits w symbol arity) (hk : Kept w w') :
    Admits w' symbol arity := by
  intro sig hs
  rw [hk.signature?] at hs
  exact h sig hs

end Abacus.Build
