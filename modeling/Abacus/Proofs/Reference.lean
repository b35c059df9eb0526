-- SUMMARY: A session evaluates expressions as the reference interpreter does.
import Abacus.Proofs.Depth
import Abacus.Proofs.Recording

/-!
# Agreement with the reference interpreter

The functions of a ledger have addresses in the engines, and running the code at
an address is running the function of the ledger, at every depth. The induction
is on the depth; what carries it is that a call is bound to the address of the
function that the reference interpreter would run.
-/

namespace Abacus.Session

open Build Workspace

variable {s s' : World} {w w' : Workspace} {f : Function} {ledger : Ledger} {a : Address}

/-! ## Addresses of functions -/

/-- The code of a function is at an address. -/
inductive Houses (w : Workspace) (a : Address) (f : Function) : Prop where
  | mk {u : CodeUnit} {r : Code.Routine Code.FuncRef} {symbol : String} (plain : f.body.Plain)
      (unit : w.closed[a.engine]? = some u) (routine : r ∈ u.routines) (id : r.id = a.function)
      (compiles : u.Compiles f symbol r)

/-- The code of the function at a position is at an address. -/
inductive Resides (ledger : Ledger) (w : Workspace) (i : Nat) (a : Address) : Prop where
  | mk {f : Function} {u : CodeUnit} {r : Code.Routine Code.FuncRef} {symbol : String}
      (function? : ledger.function? i = some f) (plain : f.body.Plain)
      (unit : w.closed[a.engine]? = some u) (routine : r ∈ u.routines) (id : r.id = a.function)
      (compiles : u.Compiles f symbol r) (generation : ledger.generation i = a.engine)

theorem wellFormed_of_closed (hw : w.Coherent) {k : Nat} {u : CodeUnit}
    (hu : w.closed[k]? = some u) : u.WellFormed :=
  hw.wellFormed u (List.mem_append_left _ (List.mem_of_getElem? hu))

/-- A routine has the number of the declaration of its symbol. -/
theorem id_eq_of_symbol_eq {u : CodeUnit} (hu : u.WellFormed) {r : Code.Routine Code.FuncRef}
    {d : Declaration} (hr : r ∈ u.routines) (hd : d ∈ u.declarations)
    (hs : r.symbol = d.symbol) : r.id = d.id := by
  obtain ⟨e, he, -, hes, hei, -⟩ := hu.declaration_of_routine r hr
  rw [← hei, hu.eq_of_symbol_eq he hd (hes.trans hs)]

/-- A body in a closed unit is that of a definition, of the unit's generation. -/
theorem Records.resides (hw : w.Coherent) (h : Records ledger w) {k : Nat} {u : CodeUnit}
    {d : Declaration} (hu : w.closed[k]? = some u) (hd : d ∈ u.declarations)
    (hb : d.hasBody = true) (hname : Named d.symbol) :
    ∃ j, ledger.definition? d.symbol = some j ∧ ledger.generation j = k ∧
      Resides ledger w j ⟨k, d.id⟩ := by
  have hwf := wellFormed_of_closed hw hu
  have hshelf : (shelf w)[k]? = some u := getElem?_concat_eq_some.mpr (.inl hu)
  obtain ⟨r, hr, hrs⟩ := hwf.routine_of_declaration d hd hb
  obtain ⟨j, g, hj, hg, hgen⟩ := h.recorded k u hshelf r hr (hrs ▸ hname)
  obtain ⟨v, q, hv, hq, hcompiles⟩ := h.compiled j g hj
  rw [hgen, hshelf] at hv
  cases hv
  have hgs : g.proto.name = d.symbol := hg.trans hrs
  have hdef : ledger.definition? g.proto.name = some j :=
    Ledger.definition?_eq_some hj fun i f hi hf => h.unique i j f g hi hj hf
  have hplain : (Item.definition g).Plain := h.plain _ (List.mem_of_getElem? hj)
  refine ⟨j, hgs ▸ hdef, hgen, .mk ?_ hplain.2 hu hq ?_ hcompiles hgen⟩
  · rw [Ledger.function?, hj]; rfl
  · exact id_eq_of_symbol_eq hwf hq hd (hcompiles.symbol_eq.trans hgs)

/-- A definition of an earlier generation has its body in a closed unit. -/
theorem Records.defines (hw : w.Coherent) (h : Records ledger w) {c : String} {j : Nat}
    {u : CodeUnit} (hj : ledger.definition? c = some j)
    (hu : w.closed[ledger.generation j]? = some u) : u.defines c = true := by
  obtain ⟨g, hg, rfl⟩ := Ledger.definition_of_definition? hj
  obtain ⟨v, r, hv, hr, hcompiles⟩ := h.compiled j g hg
  have hshelf : (shelf w)[ledger.generation j]? = some u := getElem?_concat_eq_some.mpr (.inl hu)
  rw [hshelf] at hv
  cases hv
  obtain ⟨d, hd, hb, hs, -⟩ := (wellFormed_of_closed hw hu).declaration_of_routine r hr
  exact CodeUnit.defines_iff.mpr ⟨d, hd, hs.trans hcompiles.symbol_eq, hb⟩

/-! ## Calls -/

/-- What a call does in the reference interpreter. -/
def refer (ledger : Ledger) (depth i : Nat) : Code.Meaning String := fun callee args =>
  match ledger.callee? i callee with
  | some link => ledger.run depth link args
  | none => throw .stuck

theorem refer_of_some {depth i : Nat} {callee : String} {link : Link Nat}
    (h : ledger.callee? i callee = some link) :
    refer ledger depth i callee = ledger.run depth link := by
  unfold refer; rw [h]

/-- Intrinsics are the same on both sides, and so is what is no function at all. -/
theorem via_intrinsic {depth i : Nat} {c : String} {engines : List Engine}
    {bind : Code.FuncRef → Except String (Link Address)} {ref : Code.FuncRef}
    (hbind : bind ref = ((Intrinsic.ofSymbol? c).map Link.host).elim (.error c) .ok)
    (hcallee : ledger.callee? i c = (Intrinsic.ofSymbol? c).map .host) :
    Code.Meaning.via bind (Engine.run engines depth) ref = refer ledger depth i c := by
  cases hi : Intrinsic.ofSymbol? c with
  | none =>
    rw [hi] at hbind hcallee
    rw [Code.Meaning.via_of_error hbind]
    unfold refer
    rw [hcallee]
    rfl
  | some intrinsic =>
    rw [hi] at hbind hcallee
    rw [Code.Meaning.via_of_ok hbind, refer_of_some hcallee]
    funext args
    cases depth <;> rfl

/-- A symbol that neither a unit nor an earlier one defines has no definition that
    the unit's functions could call. -/
theorem Records.not_generation_le (hw : w.Coherent) (hl : w.Linked) (h : Records ledger w)
    {i j k : Nat} {u : CodeUnit} {c : String} (hu : w.closed[k]? = some u)
    (hgen : ledger.generation i = k) (hdef : u.defines c = false)
    (haddr : (⟨(w.engines.take k).map (·.symbols)⟩ : Registry Address).address? c = none)
    (hj : ledger.definition? c = some j) : ¬ ledger.generation j ≤ ledger.generation i := by
  intro hle
  rcases Nat.lt_or_eq_of_le hle with hlt | heq
  · obtain ⟨hk, -⟩ := List.getElem?_eq_some_iff.mp hu
    have hv : w.closed[ledger.generation j]? = some (w.closed[ledger.generation j]) :=
      List.getElem?_eq_getElem (by omega)
    have hfalse := hl.address?_take_eq_none haddr (hgen ▸ hlt) hv
    rw [h.defines hw hj hv] at hfalse
    cases hfalse
  · have htrue := h.defines hw hj (by rw [heq, hgen]; exact hu)
    rw [hdef] at htrue
    cases htrue

/-- A call is bound to the function that the reference interpreter would run. -/
theorem via_bind (hw : w.Coherent) (hl : w.Linked) (h : Records ledger w) {depth i k : Nat}
    (ih : ∀ j a, Resides ledger w j a →
      Engine.run w.engines depth (.code a) = ledger.run depth (.code j))
    {u : CodeUnit} (hu : w.closed[k]? = some u) (hgen : ledger.generation i = k)
    {ref : Code.FuncRef} (hc : Named ref.symbol)
    (hdeclares : u.Declares ref.symbol ref.id ref.arity) :
    Code.Meaning.via (u.bind k ⟨(w.engines.take k).map (·.symbols)⟩) (Engine.run w.engines depth)
      ref = refer ledger depth i ref.symbol := by
  cases hdef : u.defines ref.symbol with
  | true =>
    -- The callee has its body in the unit of the caller.
    obtain ⟨e, he, hes, heb⟩ := CodeUnit.defines_iff.mp hdef
    obtain ⟨e', he', hes', hei', -⟩ := hdeclares
    have heq : e = e' := (wellFormed_of_closed hw hu).eq_of_symbol_eq he he' (hes.trans hes'.symm)
    obtain ⟨j, hj, hgenj, hres⟩ := h.resides hw hu he heb (hes ▸ hc)
    rw [hes] at hj
    rw [heq, hei'] at hres
    have hcallee := Ledger.callee?_of_definition (i := i) hj (by omega)
    rw [Code.Meaning.via_of_ok (CodeUnit.bind_of_defines hdef), refer_of_some hcallee]
    exact ih j _ hres
  | false =>
    have hbind := CodeUnit.bind_of_resolve k ⟨(w.engines.take k).map (·.symbols)⟩ hdef
    unfold Registry.resolve at hbind
    cases haddr : (⟨(w.engines.take k).map (·.symbols)⟩ : Registry Address).address? ref.symbol with
    | some a =>
      -- The callee has its body in an earlier unit.
      obtain ⟨k', v, hlt, hv, hlookup⟩ := hl.address?_take haddr
      obtain ⟨e, he, heb, hes, rfl⟩ := CodeUnit.lookup_addresses hlookup
      obtain ⟨j, hj, hgenj, hres⟩ := h.resides hw hv he heb (hes ▸ hc)
      rw [hes] at hj
      rw [haddr] at hbind
      have hcallee := Ledger.callee?_of_definition (i := i) hj (by omega)
      rw [Code.Meaning.via_of_ok hbind, refer_of_some hcallee]
      exact ih j _ hres
    | none =>
      -- No body was there when the unit was linked, so the intrinsic is meant.
      have hnone j (hj : ledger.definition? ref.symbol = some j) :
          ¬ ledger.generation j ≤ ledger.generation i :=
        h.not_generation_le hw hl hu hgen hdef haddr hj
      rw [haddr] at hbind
      exact via_intrinsic hbind (Ledger.callee?_of_no_definition hnone)

/-- One level of running the code at an address is evaluating the function, with
    every call going where it was bound to. -/
theorem run_of_compiles (hw : w.Coherent) (hl : w.Linked) {u : CodeUnit}
    {r : Code.Routine Code.FuncRef} {symbol : String} {depth : Nat} {named : Code.Meaning String}
    (plain : f.body.Plain) (unit : w.closed[a.engine]? = some u) (routine : r ∈ u.routines)
    (id : r.id = a.function) (compiles : u.Compiles f symbol r)
    (hcall : ∀ ref : Code.FuncRef, ref.symbol ∈ f.body.callees →
      u.Declares ref.symbol ref.id ref.arity →
      Code.Meaning.via (u.bind a.engine ⟨(w.engines.take a.engine).map (·.symbols)⟩)
        (Engine.run w.engines depth) ref = named ref.symbol) :
    Engine.run w.engines (depth + 1) (.code a) = f.eval named := by
  obtain ⟨e, he⟩ := hl.exists_engine unit
  have hlink := hl.link_eq a.engine u e unit he
  obtain ⟨r', hr', hbound⟩ := CodeUnit.routine?_of_mem (wellFormed_of_closed hw unit) hlink routine
  have hfetch : Engine.fetch? w.engines a = some r' := by
    rw [Engine.fetch?, he, ← id]
    exact hr'
  funext args
  rw [Engine.run, hfetch]
  dsimp only
  rw [Code.Routine.exec_link hbound]
  obtain ⟨decl, scope, hparams, -, -, hcode, hscope⟩ := compiles
  refine Code.exec_ofExpr hcode hparams (fun c hc d index hd => ?_) args
  obtain ⟨hds, hdeclares⟩ := hscope c d hd
  rw [(plain c hc).legalize_eq] at hds
  subst hds
  exact hcall (.to index d) hc hdeclares

/-- Running the code at an address is running the function of the ledger. -/
theorem run_eq (hw : w.Coherent) (hl : w.Linked) (h : Records ledger w) (depth : Nat) {i : Nat}
    (hres : Resides ledger w i a) :
    Engine.run w.engines depth (.code a) = ledger.run depth (.code i) := by
  induction depth generalizing i a with
  | zero => rfl
  | succ depth ih =>
    obtain @⟨f, u, r, symbol, function?, plain, unit, routine, id, compiles, generation⟩ := hres
    have hrun : ledger.run (depth + 1) (.code i) = f.eval (refer ledger depth i) := by
      funext args
      rw [Ledger.run, function?]
      rfl
    rw [hrun]
    refine run_of_compiles hw hl plain unit routine id compiles fun ref hc hdeclares => ?_
    exact via_bind hw hl h (fun j a hres => ih hres) unit generation (plain _ hc).ne_anonymous
      hdeclares

/-! ## Expressions -/

/-- The code of an expression is where it was placed. -/
theorem houses_of_placed (hw : w.Coherent) (hl : w.Linked) (hbody : f.body.Plain)
    (placed : Placed f w w' a) : Houses w' a f ∧ a.engine = w.closed.length := by
  obtain @⟨w₁, u, e, extension, current, link, address, rfl⟩ := placed
  obtain ⟨r, hr, hcompiles, -⟩ := unit_of_extension extension
  rw [unit_of_some current] at hr hcompiles
  have hw₁ : w₁.Coherent :=
    (hw.steps (step_numbered w (.expression f))).steps extension.steps
  have hwf : u.WellFormed := hw₁.wellFormed u (by rw [units_of_some current]; simp)
  have hclosed : w₁.closed = w.closed := extension.frame.1
  have hengines : w₁.engines.length = w.closed.length := by
    rw [extension.frame.2.1]
    exact hl.length_eq
  obtain ⟨d, hd, -, hds, rfl⟩ := CodeUnit.lookup_addresses address
  have hroutine : r ∈ u.routines := by rw [hr]; simp
  refine ⟨.mk hbody ?_ hroutine ?_ hcompiles, hengines⟩
  · change (w₁.closed ++ [u])[w₁.engines.length]? = some u
    rw [hengines, hclosed]
    simp
  · exact id_eq_of_symbol_eq hwf hroutine hd (hcompiles.symbol_eq.trans hds.symm)

theorem resides_of_placed (hw : w.Coherent) (hl : w.Linked) (h : Records ledger w)
    (hbody : f.body.Plain) (placed : Placed f w w' a) :
    Resides (ledger ++ [.expression f]) w' ledger.length a := by
  obtain ⟨⟨plain, unit, routine, id, compiles⟩, hengine⟩ := houses_of_placed hw hl hbody placed
  refine .mk ?_ plain unit routine id compiles ?_
  · simp [Ledger.function?, Item.function?]
  · rw [Ledger.generation_append (Nat.le_refl _), Ledger.generation_length, h.generations, hengine]

/-- Running the code at an address ends as it does at some depth. -/
theorem runAt_eq_ok_iff {engines : List Engine} {result : Float × List UInt8} :
    (runAt engines a).run [] = .ok result ↔
      ∃ depth, (Engine.run engines depth (.code a) []).run [] = .ok result :=
  ⟨fun h => ⟨_, h⟩, fun ⟨_, h⟩ => Engine.run_depthBound h⟩

/-- Running an expression where it was placed is evaluating it by the ledger. -/
theorem runAt_iff_evaluates (hs : Sound w) (h : Records ledger w)
    (hitem : (Item.expression f).Plain) (placed : Placed f w w' a) (x : Float)
    (bytes : List UInt8) :
    (runAt w'.engines a).run [] = .ok (x, bytes) ↔
      Ledger.Evaluates (ledger ++ [.expression f]) ledger.length x bytes := by
  have hw' := hs.coherent.steps placed.steps
  have hl' := hs.linked.steps placed.steps
  have hrecords := h.placed hitem placed
  have hres := resides_of_placed hs.coherent hs.linked h hitem.2 placed
  rw [runAt_eq_ok_iff]
  exact exists_congr fun depth => by rw [run_eq hw' hl' hrecords depth hres]

/-- An expression that is accepted and can be linked has a value, and writes, what
    the reference interpreter says; where that does not end, neither does the
    session. -/
theorem evaluated_iff_evaluates {items : List Item} (h : Trace items ledger s)
    (parsed : (Item.expression f).Parsed)
    (accepted : ∀ e s', handle (.expression f) s ≠ .error (.rejected e) s')
    (linked : ∀ symbol s', handle (.expression f) s ≠ .error (.unresolved symbol) s')
    (x : Float) (bytes : List UInt8) :
    (∃ s', handle (.expression f) s = .ok (.evaluated x) s' ∧
      s'.transcript.out = s.transcript.out ++ bytes) ↔
    Ledger.Evaluates (ledger ++ [.expression f]) ledger.length x bytes := by
  have hs := h.sound
  have hrecords := h.records
  have hitem := parsed.plain
  have hh := handled_handle hs.coherent hs.linked hs.fresh hitem
  generalize handle (.expression f) s = r at hh accepted linked ⊢
  cases hh with
  | rejected objects kept quiet => exact absurd rfl (accepted _ _)
  | unresolved accepts => exact absurd rfl (linked _ _)
  | halted accepts placed run =>
    have hiff := runAt_iff_evaluates hs hrecords hitem placed x bytes
    rw [run] at hiff
    rw [← hiff]
    simp
  | @evaluated _ a y written s' accepts placed run out =>
    have hiff := runAt_iff_evaluates hs hrecords hitem placed x bytes
    rw [run] at hiff
    rw [← hiff]
    constructor
    · rintro ⟨s'', heq, hout⟩
      cases heq
      rw [out] at hout
      rw [List.append_cancel_left hout]
    · intro heq
      cases heq
      exact ⟨s', rfl, out⟩

/-- The expression `f(2)`, where `f` calls an intrinsic that was declared before. -/
theorem evaluated_iff_evaluates_at_intrinsic : ∃ items ledger s, Trace items ledger s ∧
    (∃ s', handle (.expression ⟨.anonymous, .call "f" [.number (Numeral.value ['2'])]⟩) s =
      .ok (.evaluated (Numeral.value ['2']).sin) s') ∧
    Ledger.Evaluates
      (ledger ++ [.expression ⟨.anonymous, .call "f" [.number (Numeral.value ['2'])]⟩])
      ledger.length (Numeral.value ['2']).sin [] := by
  have p₁ : (Item.external ⟨"sin", ["x"]⟩).Parsed :=
    ⟨.standard, "extern sin(x)", .ofText "extern sin(x)", _, List.suffix_rfl, rfl⟩
  have p₂ : (Item.definition ⟨⟨"f", ["x"]⟩, .call "sin" [.var "x"]⟩).Parsed :=
    ⟨.standard, "def f(x) sin(x)", .ofText "def f(x) sin(x)", _, List.suffix_rfl, rfl⟩
  have p₃ : (Item.expression ⟨.anonymous, .call "f" [.number (Numeral.value ['2'])]⟩).Parsed :=
    ⟨.standard, "f(2)", .ofText "f(2)", _, List.suffix_rfl, rfl⟩
  -- The worlds are written out so that each step starts from a value.
  have h₁ : Trace _ _ { workspace := {
      current := some {
        name := "unit_0"
        declarations := [
          { name := "sin", symbol := "sin", arity := 1, id := 0, linkage := .imported }] }
      nextUnit := 1 } } :=
    (Trace.start {}).accepted p₁ rfl
  have h₂ : Trace _ _ { workspace := {
      current := some {
        name := "unit_0"
        declarations := [
          { name := "sin", symbol := "sin", arity := 1, id := 0, linkage := .imported },
          { name := "f", symbol := "f", arity := 1, id := 1, linkage := .exported, hasBody := true }]
        routines := [
          ⟨1, "f", 1, [.call ⟨0, 0, "sin", 1, false⟩ [0]], 1⟩] }
      nextUnit := 1 } } :=
    h₁.accepted p₂ rfl
  have hrun : ∃ s s', Trace _ _ s ∧
      handle (.expression ⟨.anonymous, .call "f" [.number (Numeral.value ['2'])]⟩) s =
        .ok (.evaluated (Numeral.value ['2']).sin) s' ∧
      s'.transcript.out = s.transcript.out ++ [] :=
    ⟨_, _, h₂, rfl, rfl⟩
  obtain ⟨s, s', h, hok, hout⟩ := hrun
  have hiff := evaluated_iff_evaluates h p₃ (fun e t herror => by rw [hok] at herror; cases herror)
    (fun symbol t herror => by rw [hok] at herror; cases herror) (Numeral.value ['2']).sin []
  exact ⟨_, _, s, h, ⟨s', hok⟩, hiff.mp ⟨s', hok, hout⟩⟩

end Abacus.Session
