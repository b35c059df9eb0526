-- SUMMARY: Where parsing stops at an error: the text before can go on, and that token never can.
import Abacus.Proofs.Completion
import Abacus.Proofs.Layout

/-!
# Faults

Parsing stops at the first token at which the text is refused, or at the end of a text that
is unfinished there (`Program.Blocked`). Up to there the text stands inside an item or
between two, and so it can be completed. The token at fault is refused for good.
-/

namespace Abacus

variable {table : PrecedenceTable}

/-- The tokens left on a stream and the end behind them, as a reader meets them. -/
def Stream.sights (s : Stream) : List (Located (Option Token)) :=
  s.pending.map (fun l => ⟨some l.value, l.span⟩) ++ [⟨none, ⟨s.stop, s.stop⟩⟩]

theorem Stream.peek_mem_sights {s : Stream} {taken rest : List Lexeme}
    (h : s.pending = taken ++ rest) : (Stream.mk rest s.stop).peek ∈ s.sights := by
  cases rest with
  | nil => simp [sights, peek]
  | cons l rest => simp [sights, peek, h]

/-- An item that is refused was read as far as possible. -/
theorem Stream.item_eq_error {s : Stream} {e : ParseError} (h : s.item table = .error e) :
    ∃ taken state rest cause,
      (Item.reader table).advance .start s.pending = ⟨taken, state, rest⟩ ∧
      ItemReader.conclude state (Stream.mk rest s.stop).peek.value = .error cause ∧
      e = (Stream.mk rest s.stop).error cause := by
  unfold item read at h
  cases hconclude : (Item.reader table).conclude
      ((Item.reader table).advance (Item.reader table).start s.pending).state
      (s.after (Item.reader table)).peek.value with
  | ok item =>
    rw [hconclude] at h
    cases h
  | error cause =>
    rw [hconclude] at h
    cases h
    exact ⟨_, _, _, cause, rfl, hconclude, rfl⟩

theorem ItemReader.not_shown {s : ItemReader.State} {lookahead : Option Token} {cause : Cause}
    (h : conclude s lookahead = .error cause) : ¬ Shown s := by
  intro hshown
  obtain ⟨item, hitem⟩ := hshown
  cases h.symm.trans ((conclude_eq_ok_iff lookahead).mpr hitem)

namespace Program

/-- A text that can go on, but not with the tokens `rest`: the first of them is refused, or
    there is none where more is needed. -/
structure Blocked (table : PrecedenceTable) (standing : Standing) (rest : List Token) : Prop where
  viable     : standing ≠ .refused
  refused    : ∀ t, rest.head? = some t → standing.step table t = .refused
  unfinished : rest = [] → standing.isUnfinished = true

/-- An item that is refused blocks the text. -/
theorem blocked_of_item {s : Stream} {l : Lexeme} {ls : List Lexeme} {e : ParseError}
    (hp : s.pending = l :: ls) (hl : ¬ Stream.isSeparator l = true) (h : s.item table = .error e) :
    ∃ taken rest cause, s.pending = taken ++ rest ∧ e = (Stream.mk rest s.stop).error cause ∧
      Blocked table (Standing.between.after table (tokens taken)) (tokens rest) := by
  obtain ⟨taken, state, rest, cause, hadvance, hconclude, he⟩ := Stream.item_eq_error h
  obtain ⟨hpending, hrun, hhalts⟩ := Reader.advance_eq_iff.mp hadvance
  refine ⟨taken, rest, cause, hpending, he, ?_⟩
  cases taken with
  | nil =>
    cases hrun
    rw [List.nil_append, hp] at hpending
    subst hpending
    have ht : l.value ≠ .char ';' := fun ht => hl (beq_iff_eq.mpr ht)
    have hstart : ItemReader.absorb? table .start l.value = none := Reader.halts_cons.mp hhalts
    refine ⟨Standing.noConfusion, ?_, fun hrest => absurd hrest (List.cons_ne_nil _ _)⟩
    intro t ht
    cases ht
    simp only [tokens_nil, Standing.after_nil, Standing.step, Standing.enter, if_neg ht, hstart]
  | cons k taken =>
    have hinside : Standing.between.after table (tokens (k :: taken)) = .inside state :=
      Standing.after_run?_start hrun
    have hnot := ItemReader.not_shown hconclude
    rw [hinside]
    refine ⟨Standing.noConfusion, ?_, fun _ => Standing.isUnfinished_iff.mpr ⟨state, rfl, hnot⟩⟩
    intro t ht
    obtain ⟨back, hback⟩ := List.head?_eq_some_iff.mp ht
    rw [hback] at hhalts
    exact Standing.step_of_unfinished hnot (Reader.halts_cons.mp hhalts)

/-- What blocks a text behind an item blocks it there. -/
theorem Blocked.behind {state : ItemReader.State} {item : Item} {taken rest : List Token}
    (hitem : ItemReader.Finished state item)
    (hhalts : (Item.reader table).Halts state (taken ++ rest))
    (h : Blocked table (Standing.between.after table taken) rest) :
    Blocked table ((Standing.inside state).after table taken) rest := by
  cases taken with
  | nil =>
    refine ⟨nofun, ?_, fun hrest => nomatch h.unfinished hrest⟩
    intro t ht
    rw [Standing.after_nil, Standing.step_of_finished hitem (hhalts t ht)]
    exact h.refused t ht
  | cons t taken =>
    have hstep := Standing.step_of_finished hitem (hhalts t rfl)
    rwa [Standing.after_cons, hstep]

/-- Behind the lexemes of an item, a text stands in that item. -/
theorem standing_of_occupies {i : Located Item} {piece rest : List Lexeme}
    (h : Item.Occupies table i piece rest) :
    ∃ state, Standing.between.after table (tokens piece) = .inside state ∧
      ItemReader.Finished state i.value ∧ (Item.reader table).Halts state (tokens rest) := by
  obtain ⟨ts, state, hts, hrun, hfinished, hhalts⟩ := h.derives.exists_run?
  cases List.append_cancel_right hts
  cases piece with
  | nil => exact absurd rfl h.derives.piece_ne_nil
  | cons l piece => exact ⟨state, Standing.after_run?_start hrun, hfinished, hhalts⟩

/-- Parsing stops with an error where the text is blocked. -/
theorem blocked_of_items {s : Stream} {e : ParseError} (h : items table s = .error e) :
    ∃ taken rest cause, s.pending = taken ++ rest ∧ e = (Stream.mk rest s.stop).error cause ∧
      Blocked table (Standing.between.after table (tokens taken)) (tokens rest) := by
  fun_induction items table s with
  | case1 s hp => cases h
  | case2 s l ls hp hl ih =>
    obtain ⟨taken, rest, cause, hpending, he, hblocked⟩ := ih h
    refine ⟨l :: taken, rest, cause, ?_, he, ?_⟩
    · rw [hp]
      exact congrArg (l :: ·) hpending
    · have hl : l.value = .char ';' := eq_of_beq hl
      rwa [tokens_cons, hl]
  | case3 s l ls hp hl e' hi =>
    cases h
    exact blocked_of_item hp hl hi
  | case4 s l ls hp hl i hi ih =>
    obtain ⟨piece, hpiece, hoccupies⟩ := Stream.item_eq_ok_iff.mp ⟨hi, rfl⟩
    cases htail : items table (s.after (Item.reader table)) with
    | ok is =>
      rw [htail] at h
      cases h
    | error e' =>
      rw [htail] at h
      cases h
      obtain ⟨taken, rest, cause, hpending, he, hblocked⟩ := ih htail
      refine ⟨piece ++ taken, rest, cause, ?_, he, ?_⟩
      · rw [hpiece, hpending, List.append_assoc]
      · obtain ⟨state, hstate, hfinished, hhalts⟩ := standing_of_occupies hoccupies
        rw [hpending, tokens_append] at hhalts
        rw [tokens_append, Standing.after_append, hstate]
        exact hblocked.behind hfinished hhalts

theorem standing_append (ts us : List Token) :
    standing table (ts ++ us) = (Standing.between.after table ts).after table us :=
  Standing.after_append _ _ _

/-- A text is unfinished if parsing stops with an error at its end. -/
theorem isIncomplete_iff_atEnd {text : String} :
    isIncomplete table text = true ↔
      ∃ e, items table (.ofText text) = .error e ∧ e.atEnd = true := by
  have hwhole {taken rest : List Lexeme} (h : lexemes text = taken ++ rest) :
      standing table (tokens (lexemes text)) =
        (Standing.between.after table (tokens taken)).after table (tokens rest) := by
    rw [h, tokens_append, standing_append]
  have hincomplete : isIncomplete table text =
      (standing table (tokens (lexemes text))).isUnfinished := rfl
  constructor
  · intro h
    cases hitems : items table (.ofText text) with
    | ok is =>
      obtain ⟨state, hstate, hnot⟩ := Standing.isUnfinished_iff.mp h
      have hsettled : (standing table (tokens (lexemes text))).Settled :=
        Standing.settled_iff_sentence.mpr (complete_iff.mp ⟨is, hitems⟩)
      have hstate : standing table (tokens (lexemes text)) = .inside state := hstate
      rw [hstate] at hsettled
      exact absurd hsettled hnot
    | error e =>
      obtain ⟨taken, rest, cause, hpending, rfl, hblocked⟩ := blocked_of_items hitems
      cases rest with
      | nil => exact ⟨_, rfl, rfl⟩
      | cons l rest =>
        rw [hincomplete, hwhole hpending, tokens_cons, Standing.after_cons,
          hblocked.refused l.value rfl, Standing.after_refused] at h
        cases h
  · intro h
    obtain ⟨e, hitems, hend⟩ := h
    obtain ⟨taken, rest, cause, hpending, rfl, hblocked⟩ := blocked_of_items hitems
    cases rest with
    | nil =>
      rw [hincomplete, hwhole hpending]
      exact hblocked.unfinished rfl
    | cons l rest => cases hend

/-- An error is at the first token that no text could have in its place, or at the end. Up
    to there the text can be completed on another line. With the token at fault it cannot,
    whatever comes next. -/
theorem error_at_earliest {text : String} {e : ParseError} (h : parse text = .error e) :
    ∃ t ∈ (Stream.ofText text).sights, e.span = t.span ∧ (e.atEnd = true ↔ t.value = none) ∧
      ∃ before part after, text = before ++ part ++ after ∧
        t.span = ⟨before.utf8ByteSize, (before ++ part).utf8ByteSize⟩ ∧
        (∃ more, Complete .standard (before ++ "\n" ++ more)) ∧
        (t.value ≠ none → ∀ more, ¬ Complete .standard (before ++ part ++ "\n" ++ more)) := by
  obtain ⟨taken, rest, cause, hpending, rfl, hblocked⟩ := blocked_of_items h
  refine ⟨_, Stream.peek_mem_sights hpending, rfl, ?_, ?_⟩
  · cases rest <;> simp [Stream.error, Stream.atEnd, Stream.peek]
  have hlexemes : lexemes text = taken ++ rest := hpending
  have hclose : ExprReader.operator? .standard ')' = none := rfl
  cases rest with
  | nil =>
    rw [List.append_nil] at hlexemes
    refine ⟨text, "", "", by simp, by simp [Stream.peek, Stream.ofText], ?_,
      fun hnone => absurd rfl hnone⟩
    simp only [complete_append_iff, hlexemes]
    exact Standing.exists_settled hclose hblocked.viable
  | cons l rest =>
    obtain ⟨before, part, after, htext, hspan, hbefore, hpart⟩ := lexemes_split hlexemes
    refine ⟨before, part, after, htext, hspan, ?_, fun _ more => ?_⟩
    · simp only [complete_append_iff, hbefore]
      exact Standing.exists_settled hclose hblocked.viable
    · have hstanding : standing .standard (tokens (lexemes (before ++ part))) = .refused := by
        rw [hpart, tokens_append, standing_append]
        exact hblocked.refused l.value rfl
      rw [complete_append_iff, hstanding, Standing.after_refused]
      exact id

/-- A parameter that is repeated behind a comment is at fault, not the one before it. -/
theorem error_at_earliest_at_repeated : ∃ before part after,
    parse "def f(x # é\n x) y" = .error ⟨.duplicateParameter "x" "f", ⟨14, 15⟩, false⟩ ∧
    "def f(x # é\n x) y" = before ++ part ++ after ∧ before.utf8ByteSize = 14 ∧
    (∃ more, Complete .standard (before ++ "\n" ++ more)) ∧
    ∀ more, ¬ Complete .standard (before ++ part ++ "\n" ++ more) := by
  have h : parse "def f(x # é\n x) y" =
      .error ⟨.duplicateParameter "x" "f", ⟨14, 15⟩, false⟩ := by with_unfolding_all rfl
  obtain ⟨t, -, hspan, hend, before, part, after, htext, hbefore, hmore, hnone⟩ :=
    error_at_earliest h
  rw [← hspan] at hbefore
  refine ⟨before, part, after, h, htext, (Span.mk.inj hbefore).1.symm, hmore, hnone ?_⟩
  intro ht
  cases hend.mpr ht

end Program

end Abacus
