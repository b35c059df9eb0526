-- SUMMARY: A reference interpreter over definitions, with no order and no units in it.
import Abacus.Proofs.Calls
import Abacus.Proofs.Dangling
import Abacus.Proofs.Reference

/-!
# Dictionaries

A dictionary lists the definitions that were accepted. Its interpreter looks a
callee up by name at the time of the call, among the definitions first and then
among the intrinsics, so it does not matter when a definition was made or in which
unit it is.

Linked code agrees with it as long as no definition has the name of an intrinsic:
every call was bound when its unit was linked, and what it was bound to is what
the name still stands for.
-/

namespace Abacus

/-- Definitions, each with a name of its own. -/
abbrev Dictionary := List Function

namespace Dictionary

/-- What a name stands for. -/
def callee? (fs : Dictionary) (name : String) : Option (Link Function) :=
  ((fs.find? (·.proto.name == name)).map .code).or ((Intrinsic.ofSymbol? name).map .host)

/-- Runs a function, with calls nested at most `depth` deep. -/
def run (fs : Dictionary) : Nat → Link Function → List Float → Code.Exec Float
  | _, .host intrinsic, args => intrinsic.exec args
  | 0, .code _, _ => throw .tooDeep
  | depth + 1, .code f, args =>
    f.eval (fun callee args =>
      match fs.callee? callee with
      | some link => run fs depth link args
      | none => throw .stuck) args

/-- A function, run without arguments, ends with a value after writing some bytes. -/
def Evaluates (fs : Dictionary) (f : Function) (x : Float) (bytes : List UInt8) : Prop :=
  ∃ depth, (fs.run depth (.code f) []).run [] = .ok (x, bytes)

/-- The definitions have names of their own, which have bodies in a table and are
    not those of intrinsics. -/
structure Fits (fs : Dictionary) (T : Table) : Prop where
  plain : ∀ f ∈ fs, (Item.definition f).Plain
  unique : ∀ f ∈ fs, ∀ g ∈ fs, f.proto.name = g.proto.name → f = g
  bodied : ∀ f ∈ fs, ∃ sig, T f.proto.name = some sig ∧ sig.hasBody = true
  unshadowed : ∀ f ∈ fs, Intrinsic.ofSymbol? f.proto.name = none

variable {fs : Dictionary} {T : Table} {f : Function} {item : Item}

theorem fits_nil (T : Table) : Fits [] T where
  plain := by simp
  unique := by simp
  bodied := by simp
  unshadowed := by simp

/-- A body in a table stays there. -/
theorem bodied_step {name : String} {sig : Signature} (h : T name = some sig)
    (hbody : sig.hasBody = true) : ∃ sig, T.step item name = some sig ∧ sig.hasBody = true := by
  unfold Table.step
  split
  case isFalse => exact ⟨sig, h, hbody⟩
  case isTrue =>
    cases item with
    | expression f => exact ⟨sig, h, hbody⟩
    | external proto =>
      cases hproto : T proto.name with
      | some sig' => exact ⟨sig, by simpa [Table.after, hproto] using h, hbody⟩
      | none =>
        have hne : name ≠ proto.name := by
          rintro rfl
          simp [h] at hproto
        exact ⟨sig, by simpa [Table.after, hproto, Table.insert_of_ne hne] using h, hbody⟩
    | definition f =>
      by_cases hname : name = f.proto.name
      · exact ⟨⟨f.proto.arity, true⟩, by simp [Table.after, Table.insert, hname], rfl⟩
      · exact ⟨sig, by simpa [Table.after, Table.insert_of_ne hname] using h, hbody⟩

theorem Fits.step (h : fs.Fits T) (item : Item) : fs.Fits (T.step item) where
  plain := h.plain
  unique := h.unique
  bodied f hf := by
    obtain ⟨sig, hsig, hbody⟩ := h.bodied f hf
    exact bodied_step hsig hbody
  unshadowed := h.unshadowed

/-- A definition that is accepted is new. -/
theorem Fits.define (h : fs.Fits T) (hitem : (Item.definition f).Plain)
    (accepts : T.Accepts (.definition f)) (unshadowed : Intrinsic.ofSymbol? f.proto.name = none) :
    Fits (fs ++ [f]) (T.step (.definition f)) := by
  have hnew : ∀ g ∈ fs, g.proto.name ≠ f.proto.name := by
    intro g hg hname
    obtain ⟨sig, hsig, hbody⟩ := h.bodied g hg
    simp [(accepts.1 sig (hname ▸ hsig)).1] at hbody
  have hstep := h.step (.definition f)
  refine ⟨?_, ?_, ?_, ?_⟩ <;> simp only [List.forall_mem_append, List.forall_mem_singleton]
  · exact ⟨h.plain, hitem⟩
  · exact ⟨fun g hg => ⟨h.unique g hg, fun hname => absurd hname (hnew g hg)⟩,
      fun g hg hname => absurd hname.symm (hnew g hg), fun _ => trivial⟩
  · refine ⟨hstep.bodied, ⟨f.proto.arity, true⟩, ?_, rfl⟩
    simp [Table.step, accepts, Table.after, Table.insert]
  · exact ⟨h.unshadowed, unshadowed⟩

/-! ## Callees -/

theorem run_host (fs : Dictionary) (depth : Nat) (i : Intrinsic) :
    fs.run depth (.host i) = i.exec := by
  funext args
  cases depth <;> rfl

theorem callee?_of_mem (h : fs.Fits T) (hf : f ∈ fs) :
    fs.callee? f.proto.name = some (.code f) := by
  have hfind : fs.find? (·.proto.name == f.proto.name) = some f := by
    cases hg : fs.find? (·.proto.name == f.proto.name) with
    | none => simpa using List.find?_eq_none.mp hg f hf
    | some g =>
      have hname : g.proto.name = f.proto.name := by simpa using List.find?_some hg
      rw [h.unique g (List.mem_of_find?_eq_some hg) f hf hname]
  simp [callee?, hfind]

theorem callee?_of_intrinsic (h : fs.Fits T) {name : String} {i : Intrinsic}
    (hi : Intrinsic.ofSymbol? name = some i) : fs.callee? name = some (.host i) := by
  have hnone : fs.find? (·.proto.name == name) = none := by
    refine List.find?_eq_none.mpr fun f hf hname => ?_
    have hshadow := h.unshadowed f hf
    simp_all
  simp [callee?, hnone, hi]

end Dictionary

/-! ## Units -/

namespace CodeUnit

variable {u : CodeUnit} {k : Nat} {registry : Registry Address}

/-- A unit calls what the functions call that were compiled into it. -/
theorem Compiles.mem_calls {f : Function} {symbol c : String} {r : Code.Routine Code.FuncRef}
    (h : u.Compiles f symbol r) (hr : r ∈ u.routines) (plain : f.body.Plain)
    (hc : c ∈ f.body.callees) : c ∈ u.calls := by
  refine List.mem_flatMap.mpr ⟨r, hr, ?_⟩
  rw [h.calls_eq]
  exact List.mem_map.mpr ⟨c, Expr.mem_called.mpr hc, (plain c hc).legalize_eq⟩

/-- Every call of a unit that was linked is bound. -/
theorem bound_of_link {e : Engine} (h : u.link k registry = .ok e) {ref : Code.FuncRef}
    (hcall : ref.symbol ∈ u.calls) : ∃ link, u.bind k registry ref = .ok link := by
  have hnone : u.calls.find? (u.dangles registry) = none := by
    rw [← refusal?_link u k registry, h]
    rfl
  have hdangles : u.dangles registry ref.symbol = false := by
    simpa using List.find?_eq_none.mp hnone _ hcall
  exact refusal?_eq_none.mp (by simp [refusal?_bind u k registry, hdangles])

end CodeUnit

namespace Session

open Build Workspace

variable {s s' : World} {w w' : Workspace} {f : Function} {fs fs' : Dictionary} {T : Table}
  {a : Address} {u u' : CodeUnit}

/-- Apart from anonymous functions, a unit holds definitions of a dictionary only. -/
def Stocked (fs : Dictionary) (u : CodeUnit) : Prop :=
  ∀ r ∈ u.routines, Named r.symbol → ∃ f ∈ fs, u.Compiles f f.proto.name r

/-- The units hold definitions of a dictionary only. -/
def Stocks (fs : Dictionary) (w : Workspace) : Prop :=
  ∀ u ∈ shelf w, Stocked fs u

theorem Stocked.mono (h : Stocked fs u) (hfs : fs ⊆ fs') (hroutines : u'.routines = u.routines)
    (hdeclares : ∀ symbol id arity, u.Declares symbol id arity → u'.Declares symbol id arity) :
    Stocked fs' u' := by
  intro r hr hname
  obtain ⟨f, hf, hcompiles⟩ := h r (hroutines ▸ hr) hname
  exact ⟨f, hfs hf, hcompiles.mono hdeclares⟩

theorem stocked_numbered (fs : Dictionary) (n : Nat) : Stocked fs (.numbered n) :=
  fun _ hr => nomatch hr

theorem stocks_start (fs : Dictionary) (config : Config) : Stocks fs { config } := by
  intro u hu
  obtain rfl := List.mem_singleton.mp hu
  exact stocked_numbered fs 0

theorem Stocks.grown (h : Stocks fs w) (hg : Grown w w') : Stocks fs w' := by
  simp only [Stocks, shelf, List.forall_mem_append, List.forall_mem_singleton, hg.closed] at h ⊢
  exact ⟨h.1, h.2.mono (List.Subset.refl _) hg.routines hg.declares⟩

theorem Stocks.extension {symbol : String} (h : Stocks fs w) (hext : Extension f symbol w w')
    (hfs : fs ⊆ fs') (hnew : Named symbol → f ∈ fs' ∧ f.proto.name = symbol) : Stocks fs' w' := by
  obtain ⟨r, hr, hcompiles, hdeclares⟩ := unit_of_extension hext
  simp only [Stocks, shelf, List.forall_mem_append, List.forall_mem_singleton, hext.frame.1] at h ⊢
  refine ⟨fun u hu => (h.1 u hu).mono hfs rfl fun _ _ _ hd => hd, fun q hq hname => ?_⟩
  rw [hr] at hq
  rcases List.mem_append.mp hq with hq | hq
  · obtain ⟨g, hg, hgcompiles⟩ := h.2 q hq hname
    exact ⟨g, hfs hg, hgcompiles.mono hdeclares⟩
  · obtain rfl := List.mem_singleton.mp hq
    obtain ⟨hf, hfname⟩ := hnew (hcompiles.symbol_eq ▸ hname)
    exact ⟨f, hf, hfname ▸ hcompiles⟩

theorem Stocks.close {e : Engine} (h : Stocks fs w) (hu : w.current = some u) :
    Stocks fs (w.close u e) := by
  simp only [Stocks, shelf_close hu, List.forall_mem_append, List.forall_mem_singleton]
  exact ⟨h, stocked_numbered fs _⟩

theorem Stocks.numbered (h : Stocks fs w) (item : Item) : Stocks fs (numbered w item) := by
  cases item <;> exact h

theorem Stocks.placed (h : Stocks fs w) (placed : Placed f w w' a) : Stocks fs w' := by
  obtain ⟨extension, current, -, -, rfl⟩ := placed
  refine Stocks.close ?_ current
  exact (h.numbered (.expression f)).extension extension (List.Subset.refl _)
    fun hname => absurd rfl (hname _)

/-! ## Runs -/

/-- A body in a closed unit is that of a definition. -/
theorem Stocks.houses (hw : w.Coherent) (h : Stocks fs w) (hfits : fs.Fits T) {k : Nat}
    {d : Declaration} (hu : w.closed[k]? = some u) (hd : d ∈ u.declarations)
    (hb : d.hasBody = true) (hname : Named d.symbol) :
    ∃ f ∈ fs, f.proto.name = d.symbol ∧ Houses w ⟨k, d.id⟩ f := by
  have hwf := wellFormed_of_closed hw hu
  obtain ⟨r, hr, hrs⟩ := hwf.routine_of_declaration d hd hb
  have hshelf : u ∈ shelf w := List.mem_append_left _ (List.mem_of_getElem? hu)
  obtain ⟨f, hf, hcompiles⟩ := h u hshelf r hr (hrs ▸ hname)
  refine ⟨f, hf, hcompiles.symbol_eq.symm.trans hrs, ?_⟩
  exact .mk (hfits.plain f hf).2 hu hr (id_eq_of_symbol_eq hwf hr hd hrs) hcompiles

/-- What a call in the dictionary's interpreter does. -/
def consult (fs : Dictionary) (depth : Nat) : Code.Meaning String := fun callee args =>
  match fs.callee? callee with
  | some link => fs.run depth link args
  | none => throw .stuck

theorem consult_of_some {depth : Nat} {callee : String} {link : Link Function}
    (h : fs.callee? callee = some link) : consult fs depth callee = fs.run depth link := by
  unfold consult; rw [h]

/-- A call is bound to what its name stands for. -/
theorem via_bind_consult (hw : w.Coherent) (hl : w.Linked) (h : Stocks fs w) (hfits : fs.Fits T)
    {depth k : Nat}
    (ih : ∀ f a, Houses w a f → Engine.run w.engines depth (.code a) = fs.run depth (.code f))
    (hu : w.closed[k]? = some u) {ref : Code.FuncRef} (hname : Named ref.symbol)
    (hcall : ref.symbol ∈ u.calls) (hdeclares : u.Declares ref.symbol ref.id ref.arity) :
    Code.Meaning.via (u.bind k ⟨(w.engines.take k).map (·.symbols)⟩) (Engine.run w.engines depth)
      ref = consult fs depth ref.symbol := by
  obtain ⟨e, he⟩ := hl.exists_engine hu
  obtain ⟨link, hbind⟩ := CodeUnit.bound_of_link (hl.link_eq k u e hu he) hcall
  rw [Code.Meaning.via_of_ok hbind]
  cases link with
  | host i =>
    obtain ⟨-, -, hi⟩ := CodeUnit.bind_eq_host hbind
    rw [consult_of_some (Dictionary.callee?_of_intrinsic hfits hi), Dictionary.run_host]
    funext args
    exact Engine.run_host _ _ _ _
  | code b =>
    -- The body is in the unit of the caller, or in an older one.
    have hhouses : ∃ g ∈ fs, g.proto.name = ref.symbol ∧ Houses w b g := by
      rcases CodeUnit.bind_eq_code hbind with ⟨hdef, rfl⟩ | ⟨-, haddress⟩
      · obtain ⟨d, hd, hds, hb⟩ := CodeUnit.defines_iff.mp hdef
        obtain ⟨d', hd', hds', hid, -⟩ := hdeclares
        obtain rfl := (wellFormed_of_closed hw hu).eq_of_symbol_eq hd hd' (hds.trans hds'.symm)
        simpa [hds, hid] using h.houses hw hfits hu hd hb (hds ▸ hname)
      · obtain ⟨j, v, -, hv, hlookup⟩ := hl.address?_take haddress
        obtain ⟨d, hd, hb, hds, rfl⟩ := CodeUnit.lookup_addresses hlookup
        simpa [hds] using h.houses hw hfits hv hd hb (hds ▸ hname)
    obtain ⟨g, hg, hgname, hb⟩ := hhouses
    have hcallee := hgname ▸ Dictionary.callee?_of_mem hfits hg
    rw [consult_of_some hcallee]
    exact ih g b hb

/-- Running the code at an address is running the function by the dictionary. -/
theorem Houses.run_eq (hw : w.Coherent) (hl : w.Linked) (h : Stocks fs w) (hfits : fs.Fits T)
    (depth : Nat) (hhouses : Houses w a f) :
    Engine.run w.engines depth (.code a) = fs.run depth (.code f) := by
  induction depth generalizing f a with
  | zero => rfl
  | succ depth ih =>
    obtain ⟨plain, unit, routine, id, compiles⟩ := hhouses
    change _ = f.eval (consult fs depth)
    refine run_of_compiles hw hl plain unit routine id compiles fun ref hc hdeclares => ?_
    have hcall := compiles.mem_calls routine plain hc
    exact via_bind_consult hw hl h hfits (fun f a hb => ih hb) unit (plain _ hc).ne_anonymous hcall
      hdeclares

/-- Running an expression where it was placed is evaluating it by the dictionary. -/
theorem runAt_iff_dictionary (hs : Sound w) (h : Stocks fs w) (hfits : fs.Fits T)
    (hbody : f.body.Plain) (placed : Placed f w w' a) (x : Float) (bytes : List UInt8) :
    (runAt w'.engines a).run [] = .ok (x, bytes) ↔ fs.Evaluates f x bytes := by
  have hw' := hs.coherent.steps placed.steps
  have hl' := hs.linked.steps placed.steps
  obtain ⟨hhouses, -⟩ := houses_of_placed hs.coherent hs.linked hbody placed
  rw [runAt_eq_ok_iff]
  exact exists_congr fun depth => by rw [hhouses.run_eq hw' hl' (h.placed placed) hfits depth]

end Session

end Abacus
