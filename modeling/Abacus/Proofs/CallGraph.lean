-- SUMMARY: Linked code ends exactly if no cycle of calls can be reached from it.
import Abacus.Proofs.Depth
import Mathlib.Logic.Relation

/-!
# Call graphs

The call sites of linked code are the edges of a graph over addresses. Code has no
conditionals, so a routine that is entered makes all its calls, and what can be reached
in the graph is reached in every run.

A routine nests its calls only so deep exactly if no cycle can be reached from it. Each
level of calls leaves one level less, so that a cycle needs more levels than any number;
and without a cycle each call leaves fewer addresses that can still be reached.
-/

namespace Abacus.Engine

open Relation

variable {engines : List Engine} {a b c : Address} {d : Nat}

/-- A call of the routine at `a` is linked to `b`. -/
def Calls (engines : List Engine) (a b : Address) : Prop :=
  ∃ r, fetch? engines a = some r ∧ Link.code b ∈ r.callees

/-- A cycle of calls can be reached from `a`. -/
def ReachesCycle (engines : List Engine) (a : Address) : Prop :=
  ∃ b, ReflTransGen (Calls engines) a b ∧ TransGen (Calls engines) b b

/-- Every call that is linked to an address finds code there. -/
def Complete (engines : List Engine) : Prop :=
  ∀ a b, Calls engines a b → ∃ r, fetch? engines b = some r

theorem ReachesCycle.head (hcall : Calls engines a b) (h : ReachesCycle engines b) :
    ReachesCycle engines a := by
  obtain ⟨c, hreach, hcycle⟩ := h
  exact ⟨c, .head hcall hreach, hcycle⟩

/-! ## Cycles -/

/-- A call leaves one level less. -/
theorem within_of_calls (h : Within engines (d + 1) (.code a)) (hcall : Calls engines a b) :
    Within engines d (.code b) := by
  obtain ⟨r, hr, hcallees⟩ := h
  obtain ⟨r', hr', hb⟩ := hcall
  rw [hr] at hr'
  cases hr'
  exact hcallees _ hb

theorem within_of_reach (h : Within engines d (.code a))
    (hreach : ReflTransGen (Calls engines) a b) : Within engines d (.code b) := by
  induction hreach with
  | refl => exact h
  | tail _ hcall ih =>
    cases d with
    | zero => cases ih
    | succ d => exact within_succ (within_of_calls ih hcall)

/-- No number of levels is enough for a cycle. -/
theorem not_within_of_cycle (hcycle : TransGen (Calls engines) a a) :
    ¬ Within engines d (.code a) := by
  induction d generalizing a with
  | zero => exact id
  | succ d ih =>
    intro h
    -- The address after `a` is on the cycle too, and has a level less.
    obtain ⟨b, hcall, hback⟩ := TransGen.head'_iff.mp hcycle
    exact ih (.tail' hback hcall) (within_of_calls h hcall)

theorem not_reachesCycle_of_within (h : Within engines d (.code a)) :
    ¬ ReachesCycle engines a := by
  rintro ⟨b, hreach, hcycle⟩
  exact not_within_of_cycle hcycle (within_of_reach h hreach)

/-! ## No cycles -/

section Reach

open Classical

/-- The addresses that can be reached by one call or more. -/
noncomputable def reach (engines : List Engine) (a : Address) : Finset Address :=
  (sites engines).toFinset.filter (TransGen (Calls engines) a)

theorem mem_reach (h : Complete engines) : b ∈ reach engines a ↔ TransGen (Calls engines) a b := by
  simp only [reach, Finset.mem_filter, List.mem_toFinset, and_iff_right_iff_imp]
  intro hreach
  obtain ⟨c, -, hcall⟩ := TransGen.tail'_iff.mp hreach
  obtain ⟨r, hr⟩ := h c b hcall
  exact mem_sites hr

/-- A call that is on no cycle leaves fewer addresses to be reached. -/
theorem card_reach_lt (h : Complete engines) (hcall : Calls engines a b)
    (hcycle : ¬ TransGen (Calls engines) b b) :
    (reach engines b).card < (reach engines a).card := by
  refine Finset.card_lt_card (Finset.ssubset_iff_of_subset ?_ |>.mpr ⟨b, ?_, ?_⟩)
  · intro c hc
    exact (mem_reach h).mpr (.head hcall ((mem_reach h).mp hc))
  · exact (mem_reach h).mpr (.single hcall)
  · exact fun hb => hcycle ((mem_reach h).mp hb)

/-- Without a cycle, calls are nested no deeper than there are addresses to be reached. -/
theorem within_of_acyclic (h : Complete engines) {r : Code.Routine (Link Address)}
    (hr : fetch? engines a = some r) (hcycle : ¬ ReachesCycle engines a) :
    Within engines ((reach engines a).card + 1) (.code a) := by
  induction hn : (reach engines a).card using Nat.strong_induction_on generalizing a r with
  | _ n ih =>
    refine ⟨r, hr, fun callee hcallee => ?_⟩
    cases callee with
    | host i => exact within_host engines _ i
    | code b =>
      have hcall : Calls engines a b := ⟨r, hr, hcallee⟩
      obtain ⟨r', hr'⟩ := h a b hcall
      have hb : ¬ ReachesCycle engines b := fun hb => hcycle (hb.head hcall)
      have hlt := card_reach_lt h hcall fun hloop => hb ⟨b, .refl, hloop⟩
      rw [hn] at hlt
      exact within_mono (ih _ hlt hr' hb rfl) hlt

end Reach

/-- Calls are nested only so deep exactly if they lead into no cycle. -/
theorem exists_within_iff (h : Complete engines) {r : Code.Routine (Link Address)}
    (hr : fetch? engines a = some r) :
    (∃ d, Within engines d (.code a)) ↔ ¬ ReachesCycle engines a := by
  constructor
  · rintro ⟨d, hd⟩
    exact not_reachesCycle_of_within hd
  · intro hcycle
    exact ⟨_, within_of_acyclic h hr hcycle⟩

end Abacus.Engine
