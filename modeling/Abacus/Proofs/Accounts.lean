-- SUMMARY: What statements came to, also where a session stops; texts run in pieces.
import Abacus.Proofs.Composition
import Abacus.Proofs.Separators

/-!
# Accounts

A run of statements gives the list of its outcomes, but none if it stops. Its account has
them in both cases: what each statement came to until one stopped the session, what they
wrote to standard output, and the world that is left. Accounts are put together one
behind the other, so that of a list of statements is made of those of its parts.

An account depends on what the statements say and on the workspace, not on where the
statements stand in a text nor on what was written before. So a text may be run in pieces
wherever a separator stands.
-/

namespace Abacus.Session

open Build

variable {s s₁ s₂ : World}

/-! ## Outcomes -/

/-- The outcome without the place of an error. -/
def Outcome.plain : Outcome → Except (Cause ⊕ CompileError) Reply
  | .ok reply => .ok reply
  | .error (.parse e) => .error (.inl e.cause)
  | .error (.compile e) => .error (.inr e)

/-- Handles and reports one statement. -/
def turn (statement : Program.Statement) : Build Outcome := do
  let o ← outcome statement
  report o
  return o

/-- A turn depends on what the statement says, and not on what was written before. -/
theorem matches_turn {a b : Program.Statement} (h : a.content = b.content) :
    Matches (fun o o' => Outcome.plain o = Outcome.plain o') (turn a) (turn b) := by
  cases a <;> cases b <;> simp only [Program.Statement.content, Except.ok.injEq,
    Except.error.injEq, reduceCtorEq] at h
  case item.item i j =>
    have hsame : outcome (.item i) = outcome (.item j) := by
      cases i; cases j; cases h
      rfl
    rw [turn, turn, hsame]
    apply Matches.bind (blind_outcome (.item j))
    intro o o' ho
    subst ho
    apply Matches.bind (composed_report o).blind
    intro _ _ _
    exact matches_pure rfl
  case fault.fault e e' =>
    simp only [turn, outcome, pure_bind]
    apply Matches.bind (matches_writeErr _ _)
    intro _ _ _
    exact matches_pure (by simp only [Outcome.plain, h])

theorem outcomes_cons (statement : Program.Statement) (statements : List Program.Statement) :
    outcomes (statement :: statements) = do
      let os ← (do let o ← turn statement; return [o])
      let more ← outcomes statements
      return os ++ more := by
  simp only [outcomes, turn, bind_assoc, pure_bind, List.singleton_append]

/-! ## Accounts -/

/-- What statements came to. -/
structure Account where
  /-- The outcomes, up to a statement that stopped the session. -/
  outcomes : List Outcome
  /-- What the statements wrote to standard output. -/
  written  : List UInt8
  /-- Why the session stopped, if it did. -/
  fault?   : Option Fault
  /-- The world that is left. -/
  world    : World

/-- What was written to standard output since `s`. -/
def since (s s' : World) : List UInt8 :=
  s'.transcript.out.drop s.transcript.out.length

theorem since_eq {s' : World} {bytes : List UInt8}
    (h : s'.transcript.out = s.transcript.out ++ bytes) : since s s' = bytes := by
  rw [since, h, List.drop_left]

namespace Account

/-- The account of no statement. -/
def stay (s : World) : Account :=
  ⟨[], [], none, s⟩

/-- The account of one statement. -/
def single (statement : Program.Statement) (s : World) : Account :=
  match turn statement s with
  | .ok o s' => ⟨[o], since s s', none, s'⟩
  | .error fault s' => ⟨[], since s s', some fault, s'⟩

/-- What comes next is added, unless the session stopped. -/
def andThen (x : Account) (next : World → Account) : Account :=
  match x.fault? with
  | some _ => x
  | none =>
    { next x.world with
      outcomes := x.outcomes ++ (next x.world).outcomes
      written  := x.written ++ (next x.world).written }

variable {x y : Account} {f g : World → Account}

theorem andThen_of_none (h : x.fault? = none) : x.andThen f =
    { f x.world with
      outcomes := x.outcomes ++ (f x.world).outcomes
      written  := x.written ++ (f x.world).written } := by
  simp only [andThen, h]

theorem andThen_of_some {fault : Fault} (h : x.fault? = some fault) : x.andThen f = x := by
  simp only [andThen, h]

@[simp] theorem stay_andThen (s : World) (f : World → Account) : (stay s).andThen f = f s := by
  simp [stay, andThen]

theorem andThen_assoc (x : Account) (f g : World → Account) :
    (x.andThen f).andThen g = x.andThen fun s => (f s).andThen g := by
  cases hx : x.fault? with
  | some fault => simp only [andThen_of_some hx]
  | none =>
    cases hf : (f x.world).fault? <;> simp [andThen, hx, hf]

/-- The result of a run that has this account. -/
def result {α : Type} (x : Account) (value : List Outcome → α) : EStateM.Result Fault World α :=
  match x.fault? with
  | some fault => .error fault x.world
  | none => .ok (value x.outcomes) x.world

section Result

variable {α β : Type} {m : Build α} {value : List Outcome → α}

theorem result_map (h : m s = x.result value) (k : α → β) :
    (m >>= fun a => pure (k a)) s = x.result fun os => k (value os) := by
  cases hx : x.fault? with
  | some fault =>
    simp only [result, hx] at h ⊢
    rw [bind_error h]
  | none =>
    simp only [result, hx] at h ⊢
    rw [bind_ok h, pure_apply]

/-- A run after another one has the accounts of both. -/
theorem result_andThen {next : α → Build β} {total : List Outcome → β} (h : m s = x.result value)
    (hnext : ∀ s', next (value x.outcomes) s' =
      (f s').result fun os => total (x.outcomes ++ os)) :
    (m >>= next) s = (x.andThen f).result total := by
  cases hx : x.fault? with
  | some fault =>
    rw [andThen_of_some hx]
    simp only [result, hx] at h ⊢
    rw [bind_error h]
  | none =>
    rw [andThen_of_none hx]
    simp only [result, hx] at h
    rw [bind_ok h, hnext]
    cases hf : (f x.world).fault? <;> simp only [result, hf]

theorem result_single (a : Program.Statement) (s : World) :
    (do let o ← turn a; return [o]) s = (single a s).result id := by
  unfold single
  cases hturn : turn a s with
  | ok o s' => rw [bind_ok hturn]; rfl
  | error fault s' => rw [bind_error hturn]; rfl

end Result

/-- Two accounts that differ in nothing but the places of errors and what was written
    before. -/
structure Alike (x y : Account) : Prop where
  outcomes  : x.outcomes.map Outcome.plain = y.outcomes.map Outcome.plain
  written   : x.written = y.written
  fault?    : x.fault? = y.fault?
  workspace : x.world.workspace = y.world.workspace

theorem Alike.andThen (h : x.Alike y)
    (hnext : ∀ s₁ s₂, s₁.workspace = s₂.workspace → (f s₁).Alike (g s₂)) :
    (x.andThen f).Alike (y.andThen g) := by
  cases hx : x.fault? with
  | some fault =>
    have hy : y.fault? = some fault := h.fault?.symm.trans hx
    rwa [andThen_of_some hx, andThen_of_some hy]
  | none =>
    have hy : y.fault? = none := h.fault?.symm.trans hx
    obtain ⟨houtcomes, hwritten, hfault, hworkspace⟩ := hnext _ _ h.workspace
    rw [andThen_of_none hx, andThen_of_none hy]
    refine ⟨?_, ?_, hfault, hworkspace⟩
    · simp only [List.map_append, h.outcomes, houtcomes]
    · simp only [h.written, hwritten]

theorem Alike.trans {z : Account} (h : x.Alike y) (h' : y.Alike z) : x.Alike z where
  outcomes := h.outcomes.trans h'.outcomes
  written := h.written.trans h'.written
  fault? := h.fault?.trans h'.fault?
  workspace := h.workspace.trans h'.workspace

theorem stay_alike (h : s₁.workspace = s₂.workspace) : (stay s₁).Alike (stay s₂) :=
  ⟨rfl, rfl, rfl, h⟩

theorem single_alike {a b : Program.Statement} (h : a.content = b.content)
    (hw : s₁.workspace = s₂.workspace) : (single a s₁).Alike (single b s₂) := by
  have hsame := matches_turn h s₁ s₂ hw
  unfold single
  generalize turn a s₁ = r₁ at hsame
  generalize turn b s₂ = r₂ at hsame
  cases hsame with
  | ok value bytes workspace out₁ out₂ =>
    refine ⟨?_, ?_, rfl, workspace⟩
    · simp only [List.map_cons, List.map_nil, value]
    · simp only [since_eq out₁, since_eq out₂]
  | error bytes workspace out₁ out₂ =>
    refine ⟨rfl, ?_, rfl, workspace⟩
    simp only [since_eq out₁, since_eq out₂]

/-- Nothing else was written to standard output since `s`. -/
def Since (s : World) (x : Account) : Prop :=
  x.world.transcript.out = s.transcript.out ++ x.written

theorem Since.andThen (hx : Since s x) (hnext : ∀ s, Since s (f s)) : Since s (x.andThen f) := by
  cases h : x.fault? with
  | some fault => rwa [andThen_of_some h]
  | none =>
    rw [andThen_of_none h]
    have hfirst : x.world.transcript.out = s.transcript.out ++ x.written := hx
    have hrest : (f x.world).world.transcript.out =
        x.world.transcript.out ++ (f x.world).written := hnext x.world
    rw [Since, hrest, hfirst, List.append_assoc]

theorem since_single (a : Program.Statement) (s : World) : Since s (single a s) := by
  have hsame := matches_turn (rfl : a.content = a.content) s s rfl
  unfold single Since
  generalize turn a s = r at hsame
  cases hsame with
  | ok value bytes workspace out₁ out₂ => simp only [since_eq out₁, out₁]
  | error bytes workspace out₁ out₂ => simp only [since_eq out₁, out₁]

end Account

/-! ## Lists of statements -/

/-- The account of statements. -/
def record : List Program.Statement → World → Account
  | [], s => .stay s
  | statement :: statements, s => (Account.single statement s).andThen (record statements)

theorem record_append (as bs : List Program.Statement) (s : World) :
    record (as ++ bs) s = (record as s).andThen (record bs) := by
  induction as generalizing s with
  | nil => simp [record]
  | cons a as ih =>
    have hrest : record (as ++ bs) = fun s => (record as s).andThen (record bs) := funext ih
    simp only [List.cons_append, record, Account.andThen_assoc, hrest]

theorem since_record (statements : List Program.Statement) (s : World) :
    (record statements s).Since s := by
  induction statements generalizing s with
  | nil => simp [record, Account.stay, Account.Since]
  | cons a as ih => exact (Account.since_single a s).andThen ih

/-- Where statements stand and what was written before makes no difference. -/
theorem record_alike {as bs : List Program.Statement}
    (h : as.map Program.Statement.content = bs.map Program.Statement.content)
    (hw : s₁.workspace = s₂.workspace) : (record as s₁).Alike (record bs s₂) := by
  induction as generalizing bs s₁ s₂ with
  | nil =>
    cases bs with
    | nil => exact Account.stay_alike hw
    | cons b bs => cases h
  | cons a as ih =>
    cases bs with
    | nil => cases h
    | cons b bs =>
      obtain ⟨hhead, htail⟩ := List.cons.inj h
      exact (Account.single_alike hhead hw).andThen fun _ _ => ih htail

/-- An account has what a run of the statements comes to. -/
theorem outcomes_eq_record (statements : List Program.Statement) (s : World) :
    outcomes statements s = (record statements s).result id := by
  induction statements generalizing s with
  | nil => rfl
  | cons a as ih =>
    rw [outcomes_cons]
    apply Account.result_andThen (Account.result_single a s)
    intro s'
    exact Account.result_map (ih s') _

/-! ## Texts -/

/-- The statements of a text as a session reads them. -/
def statementsOf (text : String) : List Program.Statement :=
  Program.statements .standard text

theorem run_eq_record (text : String) (s : World) :
    run text s = (record (statementsOf text) s).result Summary.ofOutcomes :=
  Account.result_map (outcomes_eq_record _ s) Summary.ofOutcomes

def Summary.add (x y : Summary) : Summary :=
  ⟨x.statements + y.statements, x.errors + y.errors⟩

theorem Summary.ofOutcomes_append (os more : List Outcome) :
    ofOutcomes (os ++ more) = (ofOutcomes os).add (ofOutcomes more) := by
  simp [ofOutcomes, add]

theorem Outcome.isError_eq (o : Outcome) : Outcome.isError o = !(Outcome.plain o).isOk := by
  rcases o with (e | e) | reply <;> rfl

theorem Summary.ofOutcomes_congr {os os' : List Outcome}
    (h : os.map Outcome.plain = os'.map Outcome.plain) : ofOutcomes os = ofOutcomes os' := by
  have herrors (os : List Outcome) : os.countP Outcome.isError =
      (os.map Outcome.plain).countP (!·.isOk) := by
    rw [List.countP_map]
    exact List.countP_congr fun o _ => by simp [Outcome.isError_eq]
  have hlength := congrArg List.length h
  rw [List.length_map, List.length_map] at hlength
  simp only [ofOutcomes, herrors, h, hlength]

/-- Runs with accounts that are alike come to the same. -/
theorem Account.Alike.same {x y : Account} (h : x.Alike y) (hx : x.Since s₁) (hy : y.Since s₂) :
    Same Eq s₁ s₂ (x.result Summary.ofOutcomes) (y.result Summary.ofOutcomes) := by
  have hout : y.world.transcript.out = s₂.transcript.out ++ x.written := by rw [hy, h.written]
  cases hfault : x.fault? with
  | some fault =>
    simp only [result, ← h.fault?, hfault]
    exact .error x.written h.workspace hx hout
  | none =>
    simp only [result, ← h.fault?, hfault]
    exact .ok (Summary.ofOutcomes_congr h.outcomes) x.written h.workspace hx hout

/-- Two texts that are run one after the other have the accounts of both. -/
theorem run_run_eq_record (a b : String) (s : World) :
    (do let x ← run a; let y ← run b; return x.add y) s =
      ((record (statementsOf a) s).andThen (record (statementsOf b))).result
        Summary.ofOutcomes := by
  apply Account.result_andThen (run_eq_record a s)
  intro s'
  rw [Account.result_map (run_eq_record b s')]
  simp only [Summary.ofOutcomes_append]

theorem content_statementsOf (text : String) :
    (statementsOf text).map Program.Statement.content =
      Program.contents .standard (tokens (lexemes text)) :=
  Program.content_statements text

theorem tokens_separated (a b : String) :
    tokens (lexemes (a ++ "\n;\n" ++ b)) =
      tokens (lexemes a) ++ .char ';' :: tokens (lexemes b) := by
  have htext : a ++ "\n;\n" ++ b = a ++ "\n" ++ (";" ++ "\n" ++ b) := by
    simp only [String.append_assoc]
    rfl
  rw [htext, tokens_append_lineFeed, tokens_append_lineFeed]
  rfl

/-- A text that consists of two with a separator on a line of its own between them is run as
    the two one after the other: it has the statements of both, in order and but for where
    they stand; they come to the same, until the same one stops the session if one does;
    and the run returns the sum of both summaries, leaves the same workspace and writes the
    same to standard output. What statements come to is what running a text returns. -/
theorem run_separated (a b : String) (s : World) :
    (∀ (text : String) (t : World),
      run text t = (record (statementsOf text) t).result Summary.ofOutcomes) ∧
    (statementsOf (a ++ "\n;\n" ++ b)).map Program.Statement.content =
      (statementsOf a).map Program.Statement.content ++
        (statementsOf b).map Program.Statement.content ∧
    (record (statementsOf (a ++ "\n;\n" ++ b)) s).Alike
      ((record (statementsOf a) s).andThen (record (statementsOf b))) ∧
    Same Eq s s (run (a ++ "\n;\n" ++ b) s)
      ((do let x ← run a; let y ← run b; return x.add y) s) := by
  have hcontent : (statementsOf (a ++ "\n;\n" ++ b)).map Program.Statement.content =
      (statementsOf a).map Program.Statement.content ++
        (statementsOf b).map Program.Statement.content := by
    simp only [content_statementsOf, tokens_separated]
    exact Program.contents_separated rfl _ _
  have halike : (record (statementsOf (a ++ "\n;\n" ++ b)) s).Alike
      ((record (statementsOf a) s).andThen (record (statementsOf b))) := by
    rw [← record_append]
    apply record_alike _ rfl
    rw [hcontent, List.map_append]
  refine ⟨run_eq_record, hcontent, halike, ?_⟩
  rw [run_eq_record, run_run_eq_record]
  apply halike.same (since_record _ s)
  exact (since_record _ s).andThen (since_record _)

end Abacus.Session
