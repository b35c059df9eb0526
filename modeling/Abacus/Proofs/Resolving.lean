-- SUMMARY: What resolving the names of a body settles, whatever the workspace.
import Abacus.Proofs.AddedCode
import Abacus.Proofs.Scopes

/-!
# Resolving names

Resolving goes by symbols. Each callee it accepts is looked up, and declared in the
open unit if it was not; the function itself is not looked up. So the open unit
lists every callee afterwards, knows as much as before about all other symbols, and
its own symbol is as it was.

Nothing is assumed about the workspace: its units need not agree with each other.
-/

namespace Abacus

namespace CodeUnit

variable {u : CodeUnit} {name symbol t : String} {arity : Nat} {linkage : Linkage}

/-! ## Declarations by symbol -/

theorem find?_update {f : Declaration → Declaration}
    (hf : ∀ d, d.symbol = symbol → (f d).symbol = symbol) (t : String) :
    (u.update symbol f).find? t = if t = symbol then (u.find? t).map f else u.find? t := by
  unfold update find?
  dsimp only
  induction u.declarations with
  | nil => simp
  | cons d ds ih =>
    rw [List.map_cons, List.find?_cons, List.find?_cons, ih]
    by_cases hd : d.symbol = symbol
    · by_cases ht : t = symbol
      · simp [hd, ht, hf d hd]
      · have hne : (symbol == t) = false := by simpa using Ne.symm ht
        simp [hd, ht, hf d hd, hne]
    · have hne : (d.symbol == symbol) = false := by simpa using hd
      by_cases ht : t = symbol
      · simp [ht, hne]
      · simp [ht, hne]

theorem find?_define (r : Code.Routine Code.FuncRef) (t : String) :
    (u.define r).find? t =
      if t = r.symbol then (u.find? t).map fun d => { d with hasBody := true } else u.find? t :=
  find?_update (f := fun d => { d with hasBody := true }) (fun _ h => h) t

theorem defines_update_of_ne {f : Declaration → Declaration}
    (hf : ∀ d, d.symbol = symbol → (f d).symbol = symbol) (ht : t ≠ symbol) :
    (u.update symbol f).defines t = u.defines t := by
  rw [Bool.eq_iff_iff, defines_iff, defines_iff]
  simp only [mem_update]
  constructor
  · rintro ⟨e, ⟨d, hd, rfl⟩, hs, hbody⟩
    split at hs
    case isTrue h => exact absurd (hs.symm.trans (hf d h)) ht
    case isFalse h =>
      rw [if_neg h] at hbody
      exact ⟨d, hd, hs, hbody⟩
  · rintro ⟨d, hd, rfl, hbody⟩
    exact ⟨d, ⟨d, hd, if_neg ht⟩, rfl, hbody⟩

/-- The declaration that declaring gives is the one found from then on; those of
    other symbols are found as before. -/
theorem find?_declare {d : Declaration} (h : (u.declare name symbol arity linkage).1 = .ok d)
    (t : String) :
    (u.declare name symbol arity linkage).2.find? t = if t = symbol then some d else u.find? t := by
  cases hu : u.find? symbol with
  | none =>
    rw [declare_of_none hu] at h ⊢
    cases h
    have happend : find? { u with declarations := u.declarations ++
        [u.fresh name symbol arity linkage] } t =
        (u.find? t).or (if symbol = t then some (u.fresh name symbol arity linkage) else none) := by
      simp only [find?, List.find?_append]
      by_cases hs : symbol = t <;> simp [fresh, hs]
    rw [happend]
    by_cases ht : t = symbol
    · subst ht
      simp [hu]
    · simp [ht, Ne.symm ht]
  | some e =>
    have hs := symbol_of_find? hu
    simp only [declare, hu] at h ⊢
    split at h
    case isTrue ha =>
      cases h
      rw [if_pos ha]
      refine (find?_update (fun _ _ => ?_) t).trans ?_
      · exact hs
      · by_cases ht : t = symbol
        · subst ht
          simp [hu]
        · simp [ht]
    case isFalse => cases h

/-- A symbol is declared with the number of parameters it is found with. -/
theorem exists_declare (name : String) (linkage : Linkage)
    (ha : ∀ d, u.find? symbol = some d → d.arity = arity) :
    ∃ d, (u.declare name symbol arity linkage).1 = .ok d := by
  cases hu : u.find? symbol with
  | none =>
    rw [declare_of_none hu]
    exact ⟨_, rfl⟩
  | some e => exact ⟨{ e with linkage := e.linkage.merge linkage }, by simp [declare, hu, ha e hu]⟩

theorem arity_of_declare {d : Declaration} (h : (u.declare name symbol arity linkage).1 = .ok d) :
    d.arity = arity := by
  cases hu : u.find? symbol with
  | none =>
    rw [declare_of_none hu] at h
    cases h
    rfl
  | some e =>
    simp only [declare, hu] at h
    split at h
    case isTrue ha =>
      cases h
      exact ha
    case isFalse => cases h

theorem defines_declare_of_ne (ht : t ≠ symbol) :
    (u.declare name symbol arity linkage).2.defines t = u.defines t := by
  cases hu : u.find? symbol with
  | none =>
    rw [declare_of_none hu]
    simp [defines, fresh]
  | some e =>
    have hs := symbol_of_find? hu
    unfold declare
    rw [hu]
    dsimp only
    split <;> exact defines_update_of_ne (fun _ _ => hs) ht

end CodeUnit

namespace Build

open Workspace

variable {α β : Type} {s s' s'' : World} {w w' w'' : Workspace} {t own : String}

/-- Where declaring succeeds, the unit did. -/
theorem declare_ok {name symbol : String} {arity : Nat} {linkage : Linkage} {d : Declaration}
    (h : declare name symbol arity linkage s = .ok d s') :
    (s.workspace.unit.declare name symbol arity linkage).1 = .ok d ∧
      s'.workspace = s.workspace.declare name symbol arity linkage := by
  obtain ⟨s₁, hws, hdeclare⟩ := declare_cases name symbol arity linkage s
  rw [hdeclare] at h
  cases hd : (s.workspace.unit.declare name symbol arity linkage).1 with
  | error e => rw [hd] at h; cases h
  | ok d' =>
    rw [hd] at h
    cases h
    exact ⟨rfl, hws⟩

/-! ## Looking up -/

theorem currentDeclaration?_eq (w : Workspace) (t : String) :
    w.currentDeclaration? t = w.unit.find? t := by
  unfold Workspace.currentDeclaration? Workspace.unit
  cases w.current <;> rfl

/-- The open unit declares more symbols than before, without bodies and none of
    them `own`. -/
structure Supplement (own : String) (w w' : Workspace) : Prop where
  found    : ∀ t d, w.unit.find? t = some d → w'.unit.find? t = some d
  own_eq   : w'.unit.find? own = w.unit.find? own
  defines  : ∀ t, w'.unit.defines t = w.unit.defines t
  closed   : w'.closed = w.closed
  routines : w'.unit.routines = w.unit.routines

theorem Supplement.refl (own : String) (w : Workspace) : Supplement own w w :=
  ⟨fun _ _ h => h, rfl, fun _ => rfl, rfl, rfl⟩

theorem Supplement.trans (h : Supplement own w w') (h' : Supplement own w' w'') :
    Supplement own w w'' where
  found t d hd := h'.found t d (h.found t d hd)
  own_eq := h'.own_eq.trans h.own_eq
  defines t := (h'.defines t).trans (h.defines t)
  closed := h'.closed.trans h.closed
  routines := h'.routines.trans h.routines

/-- Declaring a new symbol adds its declaration and nothing else. -/
theorem supplement_declare {name : String} {arity : Nat} {linkage : Linkage}
    (hnone : w.unit.find? t = none) (hne : t ≠ own) :
    Supplement own w (w.declare name t arity linkage) := by
  have hunit : (w.declare name t arity linkage).unit = (w.unit.declare name t arity linkage).2 := rfl
  have hok : (w.unit.declare name t arity linkage).1 = .ok (w.unit.fresh name t arity linkage) := by
    rw [CodeUnit.declare_of_none hnone]
  refine ⟨fun t' d hd => ?_, ?_, fun t' => ?_, opened_closed, CodeUnit.routines_declare⟩
  · rw [hunit, CodeUnit.find?_declare hok, if_neg, hd]
    rintro rfl
    rw [hnone] at hd
    cases hd
  · rw [hunit, CodeUnit.find?_declare hok, if_neg hne.symm]
  · rw [hunit, CodeUnit.declare_of_none hnone]
    simp [CodeUnit.defines, CodeUnit.fresh]

/-- Looking a symbol up gives the declaration of the open unit, which may be new. -/
theorem findDeclaration_ok {found : Option Declaration}
    (h : findDeclaration t s = .ok found s') (hne : t ≠ own) :
    Supplement own s.workspace s'.workspace ∧
      ∀ d, found = some d → s'.workspace.unit.find? t = some d := by
  unfold findDeclaration at h
  rw [bind_ok (workspace_apply s), currentDeclaration?_eq] at h
  cases hopen : s.workspace.unit.find? t with
  | some d =>
    rw [hopen] at h
    cases h
    exact ⟨.refl _ _, fun d' hd => by cases hd; exact hopen⟩
  | none =>
    rw [hopen] at h
    dsimp only at h
    cases hclosed : s.workspace.closedDeclaration? t with
    | none =>
      rw [hclosed] at h
      cases h
      exact ⟨.refl _ _, by simp⟩
    | some decl =>
      rw [hclosed] at h
      obtain ⟨d, s₁, hdeclare, hpure⟩ := bind_eq_ok.mp h
      cases hpure
      obtain ⟨hok, hws⟩ := declare_ok hdeclare
      rw [hws]
      refine ⟨supplement_declare hopen hne, ?_⟩
      rintro d' ⟨⟩
      exact (CodeUnit.find?_declare hok t).trans (if_pos rfl)

/-! ## Resolving -/

/-- Callees that were found are those that the unit lists under their symbols, and
    the function itself is not among them. -/
def Lists (own : String) (u : CodeUnit) (callees : Callees) : Prop :=
  ∀ c d, (c, d) ∈ callees → Symbol.legalize c ≠ own ∧ u.find? (Symbol.legalize c) = some d

/-- What a body may call: itself, and the callees that were found. -/
def Callable (proto : Prototype) (own : String) (callees : Callees) (c : String) (n : Nat) : Prop :=
  if Symbol.legalize c = own then proto.arity = n else ∃ d, (c, d) ∈ callees ∧ d.arity = n

variable {proto : Prototype} {callees callees' callees'' : Callees}

theorem Callable.mono {c : String} {n : Nat} (h : Callable proto own callees c n)
    (hsub : callees ⊆ callees') : Callable proto own callees' c n := by
  unfold Callable at h ⊢
  split
  case isTrue hown => rwa [if_pos hown] at h
  case isFalse hown =>
    rw [if_neg hown] at h
    obtain ⟨d, hd, ha⟩ := h
    exact ⟨d, hsub hd, ha⟩

/-- What resolving leaves: more declarations, and more callees. -/
structure Looked (own : String) (s : World) (callees : Callees) (s' : World) (callees' : Callees) :
    Prop where
  supplement : Supplement own s.workspace s'.workspace
  subset     : callees ⊆ callees'
  lists      : Lists own s'.workspace.unit callees'

theorem Looked.refl (hl : Lists own s.workspace.unit callees) : Looked own s callees s callees :=
  ⟨.refl _ _, List.Subset.refl _, hl⟩

theorem Looked.trans (h : Looked own s callees s' callees')
    (h' : Looked own s' callees' s'' callees'') : Looked own s callees s'' callees'' :=
  ⟨h.supplement.trans h'.supplement, List.Subset.trans h.subset h'.subset, h'.lists⟩

theorem resolveAll_ok {args : List Expr}
    (ih : ∀ arg ∈ args, ∀ {s s' callees callees'},
      resolve proto own callees arg s = .ok callees' s' → Lists own s.workspace.unit callees →
      Looked own s callees s' callees' ∧ arg.Scoped proto.params (Callable proto own callees'))
    (h : resolveAll proto own callees args s = .ok callees' s')
    (hl : Lists own s.workspace.unit callees) :
    Looked own s callees s' callees' ∧
      ∀ arg ∈ args, arg.Scoped proto.params (Callable proto own callees') := by
  induction args generalizing s callees with
  | nil =>
    cases h
    exact ⟨.refl hl, by simp⟩
  | cons arg args ihargs =>
    rw [resolveAll] at h
    obtain ⟨callees₁, s₁, harg, hargs⟩ := bind_eq_ok.mp h
    obtain ⟨looked, hscoped⟩ := ih arg List.mem_cons_self harg hl
    obtain ⟨looked', hscoped'⟩ :=
      ihargs (fun arg harg => ih arg (List.mem_cons_of_mem _ harg)) hargs looked.lists
    refine ⟨looked.trans looked', List.forall_mem_cons.mpr ⟨?_, hscoped'⟩⟩
    exact hscoped.imp fun c _ n hc => hc.mono looked'.subset

/-- Where resolving succeeds, every variable, operator and call of the expression is
    in order, and every callee but the function itself is listed. -/
theorem resolve_ok {e : Expr} (h : resolve proto own callees e s = .ok callees' s')
    (hl : Lists own s.workspace.unit callees) :
    Looked own s callees s' callees' ∧ e.Scoped proto.params (Callable proto own callees') := by
  induction e generalizing s s' callees callees' with
  | number x =>
    cases h
    exact ⟨.refl hl, .number x⟩
  | var name =>
    rw [resolve] at h
    split at h
    case isTrue hparam =>
      cases h
      exact ⟨.refl hl, .var hparam⟩
    case isFalse => cases h
  | binary op lhs rhs ihl ihr =>
    rw [resolve] at h
    obtain ⟨callees₁, s₁, hlhs, h⟩ := bind_eq_ok.mp h
    obtain ⟨callees₂, s₂, hrhs, h⟩ := bind_eq_ok.mp h
    split at h
    case isTrue hop =>
      cases h
      obtain ⟨looked, hscoped⟩ := ihl hlhs hl
      obtain ⟨looked', hscoped'⟩ := ihr hrhs looked.lists
      refine ⟨looked.trans looked', .binary (isOperator_iff.mp hop) ?_ hscoped'⟩
      exact hscoped.imp fun c _ n hc => hc.mono looked'.subset
    case isFalse => cases h
  | call callee args ih =>
    have hargs {s s' : World} {callees callees' : Callees}
        (h : resolveAll proto own callees args s = .ok callees' s')
        (hl : Lists own s.workspace.unit callees) := resolveAll_ok (fun arg harg => ih arg harg) h hl
    rw [resolve] at h
    split at h
    case isTrue hown =>
      split at h
      case isTrue hlen =>
        obtain ⟨looked, hscoped⟩ := hargs h hl
        exact ⟨looked, .call (by rwa [Callable, if_pos hown]) hscoped⟩
      case isFalse => cases h
    case isFalse hown =>
      obtain ⟨found, s₁, hfind, h⟩ := bind_eq_ok.mp h
      obtain ⟨supplement, hfound⟩ := findDeclaration_ok hfind hown
      cases found with
      | none => cases h
      | some decl =>
        dsimp only at h
        split at h
        case isTrue hlen =>
          have hl₁ : Lists own s₁.workspace.unit ((callee, decl) :: callees) := by
            intro c d hcd
            rcases List.mem_cons.mp hcd with heq | hcd
            · cases heq
              exact ⟨hown, hfound decl rfl⟩
            · exact ⟨(hl c d hcd).1, supplement.found _ d (hl c d hcd).2⟩
          obtain ⟨looked, hscoped⟩ := hargs h hl₁
          refine ⟨⟨supplement.trans looked.supplement, ?_, looked.lists⟩, .call ?_ hscoped⟩
          · exact List.Subset.trans (List.subset_cons_self _ _) looked.subset
          · rw [Callable, if_neg hown]
            exact ⟨decl, looked.subset List.mem_cons_self, hlen⟩
        case isFalse => cases h

end Build

end Abacus
