-- SUMMARY: The endings of declaring externs, finalizing units and running functions.
import Abacus.Proofs.Generating
import Abacus.Proofs.Linking

/-!
# Externs, engines and addresses

An extern is declared if its symbol has no signature. A unit is finalized if all
its calls can be linked. The address of a symbol is there as soon as some unit
has a body for it: in an engine, or, after finalizing, in the newest one.
-/

namespace Abacus.Build

open Workspace

variable {s s' : World} {symbol : String}

/-! ## Externs -/

theorem mem_of_declaration? {w : Workspace} {d : Declaration}
    (h : w.declaration? symbol = some d) : d ∈ w.declarations symbol := by
  unfold Workspace.declaration? at h
  rcases Option.or_eq_some_iff.mp h with h | ⟨-, h⟩
  · simp [declarations, h]
  · exact mem_of_closedDeclaration? h

theorem signature?_of_declaration?_none {w : Workspace} (h : w.declaration? symbol = none) :
    w.signature? symbol = none := by
  obtain ⟨hopen, hclosed⟩ := Option.or_eq_none_iff.mp h
  rw [signature?_eq_none, declarations, hopen, Option.toList_none, List.nil_append]
  exact List.filterMap_eq_nil_iff.mpr (List.findSome?_eq_none_iff.mp hclosed)

/-- The endings of declaring an extern. -/
inductive Declared (proto : Prototype) (s : World) :
    EStateM.Result Fault World Declaration → Prop where
  | new {d : Declaration} {s' : World}
      (unknown : s.workspace.signature? (Symbol.legalize proto.name) = none)
      (workspace : s'.workspace =
        s.workspace.declare proto.name (Symbol.legalize proto.name) proto.arity .imported)
      (quiet : Quiet s s') : Declared proto s (.ok d s')
  | known {d : Declaration} {sig : Signature}
      (signature? : s.workspace.signature? (Symbol.legalize proto.name) = some sig)
      (arity : sig.arity = proto.arity) : Declared proto s (.ok d s)
  | clash {sig : Signature}
      (signature? : s.workspace.signature? (Symbol.legalize proto.name) = some sig)
      (arity : sig.arity ≠ proto.arity) :
      Declared proto s (.error (.rejected (.arityMismatch proto.name sig.arity proto.arity)) s)

theorem declared_declareExternal (hw : s.workspace.Coherent) (proto : Prototype) :
    Declared proto s (declareExternal proto s) := by
  unfold declareExternal
  rw [bind_ok (workspace_apply s)]
  cases h : s.workspace.declaration? (Symbol.legalize proto.name) with
  | none =>
    have hnone := signature?_of_declaration?_none h
    have ha : ∀ d ∈ s.workspace.declarations (Symbol.legalize proto.name),
        d.arity = proto.arity := by
      rw [signature?_eq_none.mp hnone]
      simp
    obtain ⟨d, s', hd, hws, quiet, -⟩ := declare_apply hw proto.name .imported ha
    dsimp only
    rw [hd]
    exact .new hnone hws quiet
  | some d =>
    have hmem := mem_of_declaration? h
    obtain ⟨sig, hs⟩ := exists_signature? hmem
    have ha := arity_of_signature? hw hs hmem
    dsimp only
    split
    case isTrue heq => exact .known hs (ha.symm.trans heq)
    case isFalse hne =>
      rw [ha]
      exact .clash hs (ha ▸ hne)

/-! ## Finalizing -/

/-- The endings of finalizing the open unit. -/
inductive Finalized (s : World) : EStateM.Result Fault World (Option Nat) → Prop where
  | idle (current : s.workspace.current = none) : Finalized s (.ok none s)
  | unresolved {u : CodeUnit} {symbol : String} {s' : World} (current : s.workspace.current = some u)
      (link : u.link s.workspace.engines.length s.workspace.registry = .error symbol)
      (workspace : s'.workspace = s.workspace) (quiet : Quiet s s') :
      Finalized s (.error (.unresolved symbol) s')
  | closed {u : CodeUnit} {e : Engine} {s' : World} (current : s.workspace.current = some u)
      (link : u.link s.workspace.engines.length s.workspace.registry = .ok e)
      (workspace : s'.workspace = s.workspace.close u e) (quiet : Quiet s s') :
      Finalized s (.ok (some s.workspace.engines.length) s')

theorem finalized_finalize (s : World) : Finalized s (finalize s) := by
  unfold finalize
  rw [bind_ok (workspace_apply s)]
  cases hu : s.workspace.current with
  | none => exact .idle hu
  | some u =>
    dsimp only
    cases hl : u.link s.workspace.engines.length s.workspace.registry with
    | error symbol => exact .unresolved hu hl rfl rfl
    | ok e =>
      dsimp only
      rw [bind_ok (setWorkspace_apply _ _)]
      obtain ⟨t, hnote, hout⟩ := note_apply _ _
      rw [bind_ok hnote]
      exact .closed hu hl rfl hout

/-! ## Addresses -/

/-- The endings of asking for the address of a symbol. -/
inductive Addressed (symbol : String) (s : World) : EStateM.Result Fault World Address → Prop where
  | known {a : Address} (address? : s.workspace.address? symbol = some a) :
      Addressed symbol s (.ok a s)
  | unknown (address? : s.workspace.address? symbol = none)
      (bodiless : ∀ u, s.workspace.current = some u → u.defines symbol = false) :
      Addressed symbol s (.error (.rejected (.unknownSymbol symbol)) s)
  | unresolved {t : String} {u : CodeUnit} {s' : World} (workspace : s'.workspace = s.workspace)
      (quiet : Quiet s s') (current : s.workspace.current = some u)
      (link : u.link s.workspace.engines.length s.workspace.registry = .error t) :
      Addressed symbol s (.error (.unresolved t) s')
  | linked {u : CodeUnit} {e : Engine} {a : Address} {s' : World}
      (address? : s.workspace.address? symbol = none) (current : s.workspace.current = some u)
      (link : u.link s.workspace.engines.length s.workspace.registry = .ok e)
      (workspace : s'.workspace = s.workspace.close u e)
      (address : (u.addresses s.workspace.engines.length).lookup symbol = some a)
      (quiet : Quiet s s') : Addressed symbol s (.ok a s')

theorem any_currentDeclaration? {w : Workspace} (hw : w.Coherent) :
    (w.currentDeclaration? symbol).any (·.hasBody) = true ↔
      ∃ u, w.current = some u ∧ u.defines symbol = true := by
  simp only [currentDeclaration?, Option.any_eq_true, Option.bind_eq_some_iff]
  constructor
  · rintro ⟨d, ⟨u, hu, hd⟩, hbody⟩
    refine ⟨u, hu, CodeUnit.defines_iff.mpr ⟨d, ?_, ?_, hbody⟩⟩
    · exact CodeUnit.mem_of_find? hd
    · exact CodeUnit.symbol_of_find? hd
  · rintro ⟨u, hu, hdef⟩
    obtain ⟨d, hd, hs, hbody⟩ := CodeUnit.defines_iff.mp hdef
    have hwf : u.WellFormed := hw.wellFormed u (by rw [units_of_some hu]; simp)
    exact ⟨d, ⟨u, hu, hwf.find?_eq_some.mpr ⟨hd, hs⟩⟩, hbody⟩

theorem address?_close {w : Workspace} {u : CodeUnit} {e : Engine}
    (h : w.address? symbol = none) (he : u.link w.engines.length w.registry = .ok e) :
    (w.close u e).address? symbol = (u.addresses w.engines.length).lookup symbol := by
  unfold Workspace.address? at h ⊢
  simp only [close, List.findSome?_append]
  rw [h, Option.none_or, List.findSome?_singleton, Engine.address?, CodeUnit.symbols_of_link he]

theorem addressed_address (hw : s.workspace.Coherent) (symbol : String) :
    Addressed symbol s (address symbol s) := by
  unfold address
  rw [bind_ok (workspace_apply s)]
  cases h : s.workspace.address? symbol with
  | some a => exact .known h
  | none =>
    dsimp only
    split
    case isFalse hbody =>
      refine .unknown h fun u hu => ?_
      rw [Bool.eq_false_iff]
      exact fun hdef => hbody ((any_currentDeclaration? hw).mpr ⟨u, hu, hdef⟩)
    case isTrue hbody =>
      obtain ⟨u, hu, hdef⟩ := (any_currentDeclaration? hw).mp hbody
      have hfinal := finalized_finalize s
      generalize hr : finalize s = r at hfinal
      cases hfinal with
      | idle current => rw [hu] at current; cases current
      | unresolved current link workspace quiet =>
        rw [bind_error hr]
        exact .unresolved workspace quiet current link
      | @closed v e s' current link workspace quiet =>
        rw [hu] at current
        cases current
        rw [bind_ok hr, bind_ok (workspace_apply s'), workspace, address?_close h link]
        cases ha : (u.addresses s.workspace.engines.length).lookup symbol with
        | some a => exact .linked h hu link workspace ha quiet
        | none =>
          rw [CodeUnit.lookup_addresses_eq_none.mp ha] at hdef
          cases hdef

/-! ## Evaluation -/

/-- The endings of running a function without parameters. -/
inductive Evaluated (handle : Handle) (s : World) : EStateM.Result Fault World Float → Prop where
  | arity (ne : handle.arity ≠ 0) :
      Evaluated handle s (.error (.rejected (.arityMismatch handle.name handle.arity 0)) s)
  | unaddressed {fault : Fault} {s' : World} (arity : handle.arity = 0)
      (addressed : Addressed handle.symbol s (.error fault s')) :
      Evaluated handle s (.error fault s')
  | halted {a : Address} {s' : World} {reason : Code.Halt} (arity : handle.arity = 0)
      (addressed : Addressed handle.symbol s (.ok a s'))
      (run : (Engine.run s'.workspace.engines (Engine.depthBound s'.workspace.engines) (.code a) []).run
        [] = .error reason) :
      Evaluated handle s (.error (.halted reason) s')
  | value {a : Address} {s' : World} {x : Float} {bytes : List UInt8} (arity : handle.arity = 0)
      (addressed : Addressed handle.symbol s (.ok a s'))
      (run : (Engine.run s'.workspace.engines (Engine.depthBound s'.workspace.engines) (.code a) []).run
        [] = .ok (x, bytes)) :
      Evaluated handle s
        (.ok x { s' with transcript.out := s'.transcript.out ++ bytes })

theorem evaluated_evaluate (hw : s.workspace.Coherent) (handle : Handle) :
    Evaluated handle s (evaluate handle s) := by
  unfold evaluate
  split
  case isTrue hne => exact .arity hne
  case isFalse heq =>
    have harity : handle.arity = 0 := Decidable.not_not.mp heq
    have haddr := addressed_address hw handle.symbol
    cases hr : address handle.symbol s with
    | error fault s' =>
      rw [hr] at haddr
      rw [bind_error hr]
      exact .unaddressed harity haddr
    | ok a s' =>
      rw [hr] at haddr
      rw [bind_ok hr, bind_ok (workspace_apply s')]
      unfold exec
      cases hrun : (Engine.run s'.workspace.engines (Engine.depthBound s'.workspace.engines)
        (.code a) []).run [] with
      | error reason => exact .halted harity haddr hrun
      | ok result => exact .value harity haddr hrun

end Abacus.Build
