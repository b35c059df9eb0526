-- SUMMARY: The depth bound of engines is deep enough for every run that ends.
import Abacus.Engine
import Abacus.Proofs.Evaluation
import Mathlib.Data.Finset.Card
import Mathlib.Order.Monotone.Basic

/-!
# Depth

Code has no conditionals, so how deep calls are nested does not depend on
arguments. A run that ends nests calls no deeper than there are routines: among
the addresses that end within a given depth, each further level adds one more or
none ever.
-/

namespace Abacus

/-! ## Calls of code -/

namespace Code

variable {κ : Type} {call call' : Meaning κ}

theorem Instr.exec_congr {i : Instr κ} (h : ∀ c, i.callee? = some c → call c = call' c)
    (env : List Value) : i.exec call env = i.exec call' env := by
  cases i with
  | call callee args => simp only [Instr.exec, h callee rfl]
  | _ => rfl

theorem execAll_congr {code : List (Instr κ)}
    (h : ∀ i ∈ code, ∀ c, i.callee? = some c → call c = call' c) (env : List Value) :
    execAll call env code = execAll call' env code := by
  induction code generalizing env with
  | nil => rfl
  | cons i code ih =>
    obtain ⟨hi, hcode⟩ := List.forall_mem_cons.mp h
    simp only [execAll, Instr.exec_congr hi, ih hcode]

/-- A routine runs the same if the functions it calls do. -/
theorem Routine.exec_congr {r : Routine κ} (h : ∀ c ∈ r.callees, call c = call' c)
    (args : List Float) : r.exec call args = r.exec call' args := by
  have hcode : ∀ i ∈ r.code, ∀ c, i.callee? = some c → call c = call' c :=
    fun i hi c hc => h c (List.mem_filterMap.mpr ⟨i, hi, hc⟩)
  simp only [Routine.exec, execAll_congr hcode]

theorem exec_bind_inv {α β : Type} {x : Exec α} {f : α → Exec β} {out : List UInt8}
    {result : β × List UInt8} (h : (x >>= f) out = .ok result) :
    ∃ a out', x out = .ok (a, out') ∧ f a out' = .ok result := by
  cases hx : x out with
  | error reason => rw [exec_bind_error hx] at h; cases h
  | ok p => rw [exec_bind_ok hx] at h; exact ⟨p.1, p.2, rfl, h⟩

/-- A call that was run to its end. -/
def Meaning.Ends (call : Meaning κ) (callee : κ) : Prop :=
  ∃ args out result, call callee args out = .ok result

theorem execAll_ends {code : List (Instr κ)} {env : List Value} {out : List UInt8}
    {result : List Value × List UInt8} (h : execAll call env code out = .ok result) :
    ∀ i ∈ code, ∀ c, i.callee? = some c → call.Ends c := by
  induction code generalizing env out with
  | nil => simp
  | cons i code ih =>
    obtain ⟨v, out', hi, hcode⟩ := exec_bind_inv h
    refine List.forall_mem_cons.mpr ⟨fun c hc => ?_, ih hcode⟩
    cases i with
    | call callee as =>
      cases hc
      obtain ⟨xs, out₁, -, hrest⟩ := exec_bind_inv hi
      obtain ⟨y, out₂, hcall, -⟩ := exec_bind_inv hrest
      exact ⟨xs, out₁, _, hcall⟩
    | _ => cases hc

/-- A run that ends has run all its calls to their ends. -/
theorem Routine.exec_ends {r : Routine κ} {args : List Float} {out : List UInt8}
    {result : Float × List UInt8} (h : r.exec call args out = .ok result) :
    ∀ c ∈ r.callees, call.Ends c := by
  unfold Routine.exec at h
  split at h
  · obtain ⟨env, out', hexec, -⟩ := exec_bind_inv h
    intro c hc
    obtain ⟨i, hi, hic⟩ := List.mem_filterMap.mp hc
    exact execAll_ends hexec i hi c hic
  · cases h

end Code

/-! ## Levels -/

namespace Engine

variable {engines : List Engine} {d d' : Nat} {l : Link Address}

/-- Calls from here on are nested at most so deep. -/
def Within (engines : List Engine) : Nat → Link Address → Prop
  | _, .host _ => True
  | 0, .code _ => False
  | depth + 1, .code a =>
    ∃ r, fetch? engines a = some r ∧ ∀ callee ∈ r.callees, Within engines depth callee

theorem within_host (engines : List Engine) (d : Nat) (i : Intrinsic) : Within engines d (.host i) := by
  cases d <;> exact trivial

theorem run_host (engines : List Engine) (d : Nat) (i : Intrinsic) (args : List Float) :
    run engines d (.host i) args = i.exec args := by
  cases d <;> rfl

theorem within_succ (h : Within engines d l) : Within engines (d + 1) l := by
  induction d generalizing l with
  | zero =>
    cases l with
    | host i => exact within_host engines _ i
    | code a => cases h
  | succ d ih =>
    cases l with
    | host i => exact within_host engines _ i
    | code a =>
      obtain ⟨r, hr, hcallees⟩ := h
      exact ⟨r, hr, fun callee hc => ih (hcallees callee hc)⟩

theorem within_mono (h : Within engines d l) (hd : d ≤ d') : Within engines d' l := by
  induction hd with
  | refl => exact h
  | step _ ih => exact within_succ ih

/-- Runs linked code, as `run` does, with a given host behind the intrinsics. -/
def runWith (host : Code.Meaning Intrinsic) (engines : List Engine) :
    Nat → Link Address → List Float → Code.Exec Float
  | _, .host intrinsic, args => host intrinsic args
  | 0, .code _, _ => throw .tooDeep
  | depth + 1, .code address, args =>
    match fetch? engines address with
    | some routine => routine.exec (runWith host engines depth) args
    | none => throw .stuck

theorem run_eq_runWith (engines : List Engine) (d : Nat) :
    run engines d = runWith Intrinsic.exec engines d := by
  induction d with
  | zero =>
    funext l args
    cases l <;> rfl
  | succ d ih =>
    funext l args
    cases l with
    | host i => rfl
    | code a => cases hr : fetch? engines a <;> simp only [run, runWith, hr, ih]

/-- A run that ends stays within its depth, whatever the host does. -/
theorem within_of_runWith {host : Code.Meaning Intrinsic} {args : List Float} {out : List UInt8}
    {result : Float × List UInt8} (h : runWith host engines d l args out = .ok result) :
    Within engines d l := by
  induction d generalizing l args out result with
  | zero =>
    cases l with
    | host i => exact within_host engines _ i
    | code a => cases h
  | succ d ih =>
    cases l with
    | host i => exact within_host engines _ i
    | code a =>
      rw [runWith] at h
      cases hr : fetch? engines a with
      | none => rw [hr] at h; cases h
      | some r =>
        rw [hr] at h
        refine ⟨r, hr, fun callee hc => ?_⟩
        obtain ⟨args', out', result', hcall⟩ := Code.Routine.exec_ends h callee hc
        exact ih hcall

theorem within_of_run {args : List Float} {out : List UInt8} {result : Float × List UInt8}
    (h : run engines d l args out = .ok result) : Within engines d l := by
  rw [run_eq_runWith] at h
  exact within_of_runWith h

/-- Any depth that is deep enough gives the same run. -/
theorem run_eq_of_within (h : Within engines d l) (h' : Within engines d' l) :
    run engines d l = run engines d' l := by
  induction d generalizing d' l with
  | zero =>
    cases l with
    | host i => funext args; rw [run_host, run_host]
    | code a => cases h
  | succ d ih =>
    cases l with
    | host i => funext args; rw [run_host, run_host]
    | code a =>
      cases d' with
      | zero => cases h'
      | succ d' =>
        obtain ⟨r, hr, hcallees⟩ := h
        obtain ⟨r', hr', hcallees'⟩ := h'
        rw [hr] at hr'
        cases hr'
        funext args
        rw [run, run, hr]
        exact Code.Routine.exec_congr (fun c hc => ih (hcallees c hc) (hcallees' c hc)) args

/-! ## The bound -/

/-- The addresses of all routines. -/
def sites (engines : List Engine) : List Address :=
  engines.zipIdx.flatMap fun (e, k) => e.code.map fun r => ⟨k, r.id⟩

theorem length_sites (engines : List Engine) : (sites engines).length = depthBound engines := by
  have hfold : ∀ (es : List Engine) (n k : Nat),
      n + ((es.zipIdx k).flatMap fun (e, k) => e.code.map fun r => (⟨k, r.id⟩ : Address)).length =
        es.foldl (fun n e => n + e.code.length) n := by
    intro es
    induction es with
    | nil => intro n k; rfl
    | cons e es ih =>
      intro n k
      rw [List.foldl_cons, ← ih (n + e.code.length) (k + 1)]
      simp [List.zipIdx_cons, Nat.add_assoc]
  rw [depthBound, ← hfold engines 0 0, Nat.zero_add, sites]

theorem mem_sites {a : Address} {r : Code.Routine (Link Address)}
    (h : fetch? engines a = some r) : a ∈ sites engines := by
  obtain ⟨e, he, hr⟩ := Option.bind_eq_some_iff.mp h
  have hid : r.id = a.function := by simpa using List.find?_some hr
  refine List.mem_flatMap.mpr ⟨(e, a.engine), List.mem_zipIdx_iff_getElem?.mpr he, ?_⟩
  exact List.mem_map.mpr ⟨r, List.mem_of_find?_eq_some hr, by rw [hid]⟩

section Levels

open Classical

/-- The addresses whose calls are nested at most so deep. -/
noncomputable def level (engines : List Engine) (d : Nat) : Finset Address :=
  (sites engines).toFinset.filter fun a => Within engines d (.code a)

theorem mem_level {a : Address} : a ∈ level engines d ↔ Within engines d (.code a) := by
  simp only [level, Finset.mem_filter, List.mem_toFinset, and_iff_right_iff_imp]
  intro h
  cases d with
  | zero => cases h
  | succ d =>
    obtain ⟨r, hr, -⟩ := h
    exact mem_sites hr

theorem level_mono : Monotone (level engines) :=
  fun _ _ hd _ ha => mem_level.mpr (within_mono (mem_level.mp ha) hd)

theorem card_level_le (engines : List Engine) (d : Nat) :
    (level engines d).card ≤ depthBound engines :=
  calc (level engines d).card
    _ ≤ (sites engines).toFinset.card := Finset.card_filter_le _ _
    _ ≤ (sites engines).length := List.toFinset_card_le _
    _ = depthBound engines := length_sites engines

/-- A level that adds nothing is followed by none that does. -/
theorem level_stable (h : level engines d = level engines (d + 1)) :
    level engines (d + 1) = level engines (d + 2) := by
  have hcallee : ∀ l, Within engines (d + 1) l → Within engines d l := by
    intro l hl
    cases l with
    | host i => exact within_host engines d i
    | code a => exact mem_level.mp (h ▸ mem_level.mpr hl)
  refine Finset.Subset.antisymm (level_mono (Nat.le_succ _)) fun a ha => ?_
  obtain ⟨r, hr, hcallees⟩ := mem_level.mp ha
  exact mem_level.mpr ⟨r, hr, fun callee hc => hcallee _ (hcallees callee hc)⟩

theorem card_level_stable (h : (level engines d).card = (level engines (d + 1)).card) :
    (level engines (d + 1)).card = (level engines (d + 2)).card := by
  have heq : level engines d = level engines (d + 1) :=
    Finset.eq_of_subset_of_card_le (level_mono (Nat.le_succ d)) h.ge
  rw [level_stable heq]

/-- What stays within some depth stays within the bound. -/
theorem within_depthBound (h : Within engines d l) : Within engines (depthBound engines) l := by
  rcases Nat.le_total d (depthBound engines) with hd | hd
  · exact within_mono h hd
  · cases l with
    | host i => exact within_host engines _ i
    | code a =>
      have hcard : (level engines d).card = (level engines (depthBound engines)).card :=
        Nat.stabilises_of_monotone (fun _ _ hd => Finset.card_le_card (level_mono hd))
          (card_level_le engines) (fun _ => card_level_stable) hd
      have heq : level engines (depthBound engines) = level engines d :=
        Finset.eq_of_subset_of_card_le (level_mono hd) hcard.le
      exact mem_level.mp (heq ▸ mem_level.mpr h)

end Levels

/-- A run that ends at some depth ends in the same way at the bound. -/
theorem run_depthBound {args : List Float} {out : List UInt8} {result : Float × List UInt8}
    (h : run engines d l args out = .ok result) :
    run engines (depthBound engines) l args out = .ok result := by
  have hd := within_of_run h
  rw [← run_eq_of_within hd (within_depthBound hd)]
  exact h

end Engine

end Abacus
