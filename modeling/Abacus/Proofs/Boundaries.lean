-- SUMMARY: Where units end makes no difference to what a session answers.
import Abacus.Proofs.Dictionary
import Abacus.Proofs.Residue

/-!
# Unit boundaries

The open unit may be finalized at any time, and not only by expressions. Where
that is done decides which calls stay within a unit, which are declared again in a
later one, and what is there when a unit is linked. None of it can be seen from
outside, as long as nothing is left undefined, every expression has a value and no
definition has the name of an intrinsic: the answers to the items are those that
one table of signatures and one dictionary of definitions give.
-/

namespace Abacus.Session

open Build Workspace

variable {s s' : World} {item : Item} {T : Table} {fs : Dictionary}

/-! ## Runs with boundaries -/

/-- One thing that is done in a workspace. -/
inductive Action where
  | handle (item : Item)
  | finalize
deriving Repr

def Action.item? : Action → Option Item
  | .handle item => some item
  | .finalize => none

/-- The items among actions, in order. -/
def itemsOf (actions : List Action) : List Item :=
  actions.filterMap Action.item?

/-- What is seen of the items among actions, provided that every unit can be linked
    and every expression has a value. -/
def course : List Action → World → Option (List Entry)
  | [], _ => some []
  | .handle item :: actions, s =>
    match handle item s with
    | .ok reply s' => (course actions s').map (⟨item, answer (.ok reply s')⟩ :: ·)
    | .error (.rejected e) s' =>
      (course actions s').map (⟨item, answer (.error (.rejected e) s')⟩ :: ·)
    | .error _ _ => none
  | .finalize :: actions, s =>
    match finalize s with
    | .ok _ s' => course actions s'
    | .error _ _ => none

/-- The definition that was accepted, if it was one. -/
def Entry.definition? (entry : Entry) : Option Function :=
  match entry.item, entry.answer.1 with
  | .definition f, .accepted _ => some f
  | _, _ => none

/-- The definitions that were accepted. -/
def definitions (log : List Entry) : Dictionary :=
  log.filterMap Entry.definition?

variable {actions : List Action} {log : List Entry}

/-- What a run does first, if that is to handle an item. -/
theorem course_handle (h : course (.handle item :: actions) s = some log) :
    ∃ s' log', log = ⟨item, answer (handle item s)⟩ :: log' ∧ course actions s' = some log' ∧
      ((∃ reply, handle item s = .ok reply s') ∨ ∃ e, handle item s = .error (.rejected e) s') := by
  unfold course at h
  split at h
  case h_1 reply s' hr =>
    obtain ⟨log', hlog', rfl⟩ := Option.map_eq_some_iff.mp h
    exact ⟨s', log', by rw [hr], hlog', .inl ⟨reply, hr⟩⟩
  case h_2 e s' hr =>
    obtain ⟨log', hlog', rfl⟩ := Option.map_eq_some_iff.mp h
    exact ⟨s', log', by rw [hr], hlog', .inr ⟨e, hr⟩⟩
  case h_3 => cases h

theorem course_finalize (h : course (.finalize :: actions) s = some log) :
    ∃ k s', finalize s = .ok k s' ∧ course actions s' = some log := by
  unfold course at h
  split at h
  case h_1 k s' hr => exact ⟨k, s', hr, h⟩
  case h_2 => cases h

theorem course_of_ok {reply : Reply} (h : handle item s = .ok reply s')
    (hlog : course actions s' = some log) :
    course (.handle item :: actions) s =
      some (⟨item, .accepted reply, s'.transcript.out⟩ :: log) := by
  simp [course, h, hlog, answer]

theorem course_of_closed {k : Option Nat} (h : finalize s = .ok k s')
    (hlog : course actions s' = some log) : course (.finalize :: actions) s = some log := by
  simp [course, h, hlog]

/-! ## What a table and a dictionary know -/

/-- A table and a dictionary that know all about a workspace but its units. -/
structure Mirrors (T : Table) (fs : Dictionary) (w : Workspace) : Prop where
  sound  : Sound w
  tracks : Tracks T w
  stocks : Stocks fs w
  fits   : fs.Fits T

theorem mirrors_start (config : Config) : Mirrors .empty [] { config } where
  sound := sound_start config
  tracks := ⟨fun _ _ => rfl, fun _ => rfl⟩
  stocks := stocks_start [] config
  fits := Dictionary.fits_nil _

theorem Mirrors.finalized {k : Option Nat} (h : Mirrors T fs s.workspace)
    (hr : finalize s = .ok k s') : Mirrors T fs s'.workspace ∧ Quiet s s' := by
  have hfinal := finalized_finalize s
  rw [hr] at hfinal
  cases hfinal with
  | idle current => exact ⟨h, rfl⟩
  | closed current link workspace quiet =>
    have hstep := Step.closed current link
    have hsig : ∀ t, (s.workspace.close _ _).signature? t = s.workspace.signature? t :=
      fun t => signature?_close h.sound.coherent current link
    refine ⟨?_, quiet⟩
    rw [workspace]
    refine ⟨⟨h.sound.coherent.step hstep, h.sound.linked.step hstep, ?_⟩, ?_, ?_, h.fits⟩
    · exact h.sound.fresh.congr (Nat.le_refl _) fun k _ => hsig _
    · exact ⟨fun name hname => (h.tracks.named name hname).trans (hsig name).symm,
        h.tracks.anonymous⟩
    · exact h.stocks.close current

theorem Mirrors.rejected {e : CompileError} (h : Mirrors T fs s.workspace) (hitem : item.Plain)
    (hr : handle item s = .error (.rejected e) s') : Mirrors (T.step item) fs s'.workspace := by
  have hh := h.sound.handled hitem
  rw [hr] at hh
  refine ⟨(h.sound.rejected hh).1, h.tracks.rejected h.sound hitem hh, ?_, h.fits.step item⟩
  cases hh with
  | rejected objects kept quiet => exact (h.stocks.numbered item).grown kept.toGrown

theorem Mirrors.accepted {reply : Reply} {bytes : List UInt8} (h : Mirrors T fs s.workspace)
    (hitem : item.Plain) (hr : handle item s = .ok reply s')
    (unshadowed : ∀ f, item = .definition f → Intrinsic.ofSymbol? f.proto.name = none) :
    Mirrors (T.step item) (fs ++ (Entry.definition? ⟨item, .accepted reply, bytes⟩).toList)
      s'.workspace := by
  have hh := h.sound.handled hitem
  rw [hr] at hh
  have hsound := (h.sound.accepted hitem hh).1
  have htracks := h.tracks.accepted h.sound hitem hh
  refine ⟨hsound, htracks, ?_, ?_⟩
  · cases hh with
    | declared accepts grown signature? quiet =>
      simpa [Entry.definition?] using h.stocks.grown grown
    | defined accepts extension quiet =>
      refine h.stocks.extension extension (by simp) fun _ => ?_
      simp [Entry.definition?]
    | evaluated accepts placed run out => simpa [Entry.definition?] using h.stocks.placed placed
  · cases item with
    | external proto => simpa [Entry.definition?] using h.fits.step (.external proto)
    | expression f => simpa [Entry.definition?] using h.fits.step (.expression f)
    | definition f =>
      have haccepts := h.tracks.agrees.symm.accepts hitem (hh.accepts fun _ _ hr => by cases hr)
      simpa [Entry.definition?] using h.fits.define hitem haccepts (unshadowed f rfl)

/-- A run goes on with what the answer adds to the table and the dictionary. -/
theorem Mirrors.step (h : Mirrors T fs s.workspace) (hitem : item.Plain)
    (hr : (∃ reply, handle item s = .ok reply s') ∨ ∃ e, handle item s = .error (.rejected e) s')
    (unshadowed : ∀ f, Entry.definition? ⟨item, answer (handle item s)⟩ = some f →
      Intrinsic.ofSymbol? f.proto.name = none) :
    Mirrors (T.step item) (fs ++ (Entry.definition? ⟨item, answer (handle item s)⟩).toList)
      s'.workspace ∧ (answer (handle item s)).2 = s'.transcript.out := by
  rcases hr with ⟨reply, hr⟩ | ⟨e, hr⟩
  · rw [hr] at unshadowed ⊢
    exact ⟨h.accepted hitem hr fun f hf => unshadowed f (by simp [hf, Entry.definition?, answer]),
      rfl⟩
  · rw [hr]
    refine ⟨?_, rfl⟩
    cases item <;> simpa [Entry.definition?, answer] using h.rejected hitem hr

/-- What a table and a dictionary decide, nothing being undefined. -/
def reference (T : Table) (fs : Dictionary) : Oracle where
  table       := T
  dangling? _ := none
  Evaluates   := fs.Evaluates

theorem Mirrors.answers (h : Mirrors T fs s.workspace) (hitem : item.Plain)
    (linked : ∀ name s', handle item s ≠ .error (.unresolved name) s') :
    ∃ a bytes, (reference T fs).Answers item a bytes ∧
      answer (handle item s) = (a, s.transcript.out ++ bytes) := by
  refine (h.sound.handled hitem).answers hitem h.tracks.agrees ?_ ?_
  · rintro f name rfl -
    simp [reference, linked]
  · rintro f a w' rfl placed
    exact runAt_iff_dictionary h.sound h.stocks h.fits hitem.2 placed

/-! ## Any number of actions -/

/-- What is seen of items, as a table and a dictionary have it. -/
inductive Logs : Table → Dictionary → List UInt8 → List Item → List Entry → Prop where
  | nil {T : Table} {fs : Dictionary} {out : List UInt8} : Logs T fs out [] []
  | cons {T : Table} {fs : Dictionary} {out bytes : List UInt8} {item : Item} {a : Answer}
      {items : List Item} {log : List Entry} (answers : (reference T fs).Answers item a bytes)
      (rest : Logs (T.step item) (fs ++ (Entry.definition? ⟨item, a, out ++ bytes⟩).toList)
        (out ++ bytes) items log) :
      Logs T fs out (item :: items) (⟨item, a, out ++ bytes⟩ :: log)

/-- There is one such log only. -/
theorem Logs.unique {out : List UInt8} {items : List Item} {log₁ log₂ : List Entry}
    (h₁ : Logs T fs out items log₁) (h₂ : Logs T fs out items log₂) : log₁ = log₂ := by
  induction h₁ generalizing log₂ with
  | nil => cases h₂; rfl
  | cons answers rest ih =>
    cases h₂ with
    | cons answers' rest' =>
      obtain ⟨rfl, rfl⟩ := answers.unique answers'
      rw [ih rest']

/-- Wherever the units end, the log is that of the table and the dictionary. -/
theorem logs_of_course (h : Mirrors T fs s.workspace) (hcourse : course actions s = some log)
    (parsed : ∀ item ∈ itemsOf actions, item.Parsed)
    (unshadowed : ∀ f ∈ definitions log, Intrinsic.ofSymbol? f.proto.name = none) :
    Logs T fs s.transcript.out (itemsOf actions) log := by
  -- `Mirrors` is what every action keeps, up to what an answer adds.
  induction actions generalizing T fs s log with
  | nil =>
    cases hcourse
    exact .nil
  | cons action actions ih =>
    cases action with
    | finalize =>
      obtain ⟨k, s', hr, hrest⟩ := course_finalize hcourse
      obtain ⟨hmirrors, hquiet⟩ := h.finalized hr
      have hlogs := ih hmirrors hrest parsed unshadowed
      rwa [hquiet] at hlogs
    | handle item =>
      obtain ⟨hitem, hitems⟩ := List.forall_mem_cons.mp parsed
      obtain ⟨s', log', rfl, hrest, hr⟩ := course_handle hcourse
      have hlinked : ∀ name s', handle item s ≠ .error (.unresolved name) s' := by
        rintro name s'' hu
        rcases hr with ⟨reply, hr⟩ | ⟨e, hr⟩ <;> simp [hr] at hu
      obtain ⟨a, bytes, hanswers, heq⟩ := h.answers hitem.plain hlinked
      obtain ⟨hmirrors, hout⟩ := h.step hitem.plain hr fun f hf =>
        unshadowed f (List.mem_filterMap.mpr ⟨_, List.mem_cons_self, hf⟩)
      have hlogs := ih hmirrors hrest hitems fun f hf =>
        unshadowed f ((List.sublist_cons_self _ log').filterMap _ |>.subset hf)
      rw [heq] at hlogs hout ⊢
      rw [← hout] at hlogs
      exact .cons hanswers hlogs

/-- Where units end cannot be seen: two runs of the same items give the same log. -/
theorem course_eq_of_items_eq {config₁ config₂ : Config} {actions₁ actions₂ : List Action}
    {log₁ log₂ : List Entry} (items_eq : itemsOf actions₁ = itemsOf actions₂)
    (parsed : ∀ item ∈ itemsOf actions₁, item.Parsed)
    (course₁ : course actions₁ { workspace := { config := config₁ } } = some log₁)
    (course₂ : course actions₂ { workspace := { config := config₂ } } = some log₂)
    (unshadowed₁ : ∀ f ∈ definitions log₁, Intrinsic.ofSymbol? f.proto.name = none)
    (unshadowed₂ : ∀ f ∈ definitions log₂, Intrinsic.ofSymbol? f.proto.name = none) :
    log₁ = log₂ := by
  have h₁ := logs_of_course (mirrors_start config₁) course₁ parsed unshadowed₁
  have h₂ := logs_of_course (mirrors_start config₂) course₂ (items_eq ▸ parsed) unshadowed₂
  rw [← items_eq] at h₂
  exact h₁.unique h₂

/-- The function `say` writes a byte. It is called from its own unit in one run and from
    a later one in the other. -/
theorem course_eq_of_items_eq_at_output : ∃ (declare define call : Item) (log₁ log₂ : List Entry),
    course [.handle declare, .handle define, .handle call] {} = some log₁ ∧
    course [.handle declare, .handle define, .finalize, .handle call] {} = some log₂ ∧
    log₁.map (·.answer.2) = [[], [], [(Numeral.value ['6', '5']).toUInt8]] ∧
    definitions log₁ = [⟨⟨"say", ["x"]⟩, .call "putchard" [.var "x"]⟩] ∧ log₁ = log₂ := by
  have p₁ : (Item.external ⟨"putchard", ["c"]⟩).Parsed :=
    ⟨.standard, "extern putchard(c)", .ofText "extern putchard(c)", _, List.suffix_rfl, rfl⟩
  have p₂ : (Item.definition ⟨⟨"say", ["x"]⟩, .call "putchard" [.var "x"]⟩).Parsed :=
    ⟨.standard, "def say(x) putchard(x)", .ofText "def say(x) putchard(x)", _, List.suffix_rfl, rfl⟩
  have p₃ : (Item.expression
      ⟨.anonymous, .call "say" [.number (Numeral.value ['6', '5'])]⟩).Parsed :=
    ⟨.standard, "say(65)", .ofText "say(65)", _, List.suffix_rfl, rfl⟩
  -- The worlds are written out so that each step starts from a value.
  have h₁ : handle (.external ⟨"putchard", ["c"]⟩) {} = .ok (.declared "putchard") { workspace := {
      current := some {
        name := "unit_0"
        declarations := [
          { name := "putchard", symbol := "putchard", arity := 1, id := 0, linkage := .imported }] }
      nextUnit := 1 } } := rfl
  have h₂ : ∀ {actions log}, course actions { workspace := {
        current := some {
          name := "unit_0"
          declarations := [
            { name := "putchard", symbol := "putchard", arity := 1, id := 0, linkage := .imported },
            { name := "say", symbol := "say", arity := 1, id := 1, linkage := .exported,
              hasBody := true }]
          routines := [⟨1, "say", 1, [.call ⟨0, 0, "putchard", 1, false⟩ [0]], 1⟩] }
        nextUnit := 1 } } = some log →
      course (.handle (.external ⟨"putchard", ["c"]⟩) ::
        .handle (.definition ⟨⟨"say", ["x"]⟩, .call "putchard" [.var "x"]⟩) :: actions) {} =
        some (⟨_, .accepted (.declared "putchard"), []⟩ ::
          ⟨_, .accepted (.defined "say"), []⟩ :: log) :=
    fun hlog => course_of_ok h₁ (course_of_ok rfl hlog)
  have h₃ : ∀ {actions log}, course actions { workspace := {
        closed := [{
          name := "unit_0"
          declarations := [
            { name := "putchard", symbol := "putchard", arity := 1, id := 0, linkage := .imported },
            { name := "say", symbol := "say", arity := 1, id := 1, linkage := .exported,
              hasBody := true }]
          routines := [⟨1, "say", 1, [.call ⟨0, 0, "putchard", 1, false⟩ [0]], 1⟩] }]
        engines := [{
          unit := "unit_0"
          symbols := [("say", ⟨0, 1⟩)]
          code := [⟨1, "say", 1, [.call (.host .putchard) [0]], 1⟩] }]
        registry := ⟨[[("say", ⟨0, 1⟩)]]⟩
        nextUnit := 1 } } = some log →
      course (.handle (.external ⟨"putchard", ["c"]⟩) ::
        .handle (.definition ⟨⟨"say", ["x"]⟩, .call "putchard" [.var "x"]⟩) :: .finalize ::
        actions) {} =
        some (⟨_, .accepted (.declared "putchard"), []⟩ ::
          ⟨_, .accepted (.defined "say"), []⟩ :: log) :=
    fun hlog => h₂ (course_of_closed rfl hlog)
  have c₁ := h₂ (rfl : course
    [.handle (.expression ⟨.anonymous, .call "say" [.number (Numeral.value ['6', '5'])]⟩)] _ =
      some [⟨_, .accepted (.evaluated 0), [(Numeral.value ['6', '5']).toUInt8]⟩])
  have c₂ := h₃ (rfl : course
    [.handle (.expression ⟨.anonymous, .call "say" [.number (Numeral.value ['6', '5'])]⟩)] _ =
      some [⟨_, .accepted (.evaluated 0), [(Numeral.value ['6', '5']).toUInt8]⟩])
  refine ⟨_, _, _, _, _, c₁, c₂, rfl, rfl, ?_⟩
  refine course_eq_of_items_eq (by rfl) ?_ c₁ c₂ (by decide) (by decide)
  simpa [itemsOf, Action.item?] using And.intro p₁ (And.intro p₂ p₃)

end Abacus.Session
