import Parley.Guard
import Mathlib.Tactic.Lemma

/-!
A guard over everything that it can hear. Signals come in any number and in any order, and a
guard is in one of two phases: it keeps watch, with its one listener placed, or it holds an
outcome and has no listener left. The first signal takes it from the one to the other, and no
signal takes it back.
-/

namespace Parley

/-- What a guard settles with if this is the first that it hears. -/
def Signal.verdict : Signal → Outcome
  | ended o => o
  | drained => .error .deadlock

namespace Guard

structure Watches (g : Guard) : Prop where
  run : g.run = none
  due : g.due = []
  listeners : g.listeners = 1
  outcome : g.outcome = none

/-- The guard has settled, and nothing is left to be done about it. -/
structure Holds (g : Guard) (o : Outcome) : Prop where
  due : g.due = []
  listeners : g.listeners = 0
  outcome : g.outcome = some o

variable {g : Guard} {o late : Outcome}

lemma watches_new : Watches {} := ⟨rfl, rfl, rfl, rfl⟩

/-- A reaction leaves no listener, and only the first one leaves an outcome. -/
lemma holds_react (hdue : g.due = []) (hlisteners : g.listeners ≤ 1)
    (houtcome : g.outcome.getD late = o) : (g.react late).Holds o := by
  refine ⟨hdue, Nat.sub_eq_zero_of_le hlisteners, ?_⟩
  subst houtcome
  unfold react settle withdraw
  cases g.outcome <;> rfl

lemma catchUp_of_due (h : g.due = []) : g.catchUp = g := by
  obtain ⟨run, due, listeners, outcome⟩ := g
  subst h
  rfl

lemma Holds.catchUp (h : g.Holds o) : g.catchUp.Holds o := (catchUp_of_due h.due).symm ▸ h

/-- The reaction to the first end of the run has its turn before anything else is heard. -/
lemma hear_ended (hrun : g.run = none) (hdue : g.due = []) (o : Outcome) :
    g.hear (.ended o) = ({ g with run := some o } : Guard).react o := by
  obtain ⟨run, due, listeners, outcome⟩ := g
  subst hrun hdue
  rfl

lemma Watches.hear (h : g.Watches) (s : Signal) : (g.hear s).Holds s.verdict := by
  cases s with
  | drained =>
    have hdrain : g.drain = g.react (.error .deadlock) := by
      rw [drain, h.listeners]
      rfl
    rw [Guard.hear, receive, hdrain]
    exact (holds_react h.due (Nat.le_of_eq h.listeners) (by rw [h.outcome]; rfl)).catchUp
  | ended o =>
    rw [hear_ended h.run h.due]
    exact holds_react h.due (Nat.le_of_eq h.listeners) (by rw [h.outcome]; rfl)

lemma Holds.hear (h : g.Holds o) (s : Signal) : (g.hear s).Holds o := by
  cases s with
  | drained =>
    have hdrain : g.drain = g := by
      rw [drain, h.listeners]
      rfl
    rw [Guard.hear, receive, hdrain]
    exact h.catchUp
  | ended late =>
    cases hrun : g.run with
    | some first =>
      rw [Guard.hear, receive, hrun]
      exact h.catchUp
    | none =>
      -- the run ends after all: there is no listener to take back and nothing to settle
      rw [hear_ended hrun h.due]
      exact holds_react h.due (by simp [h.listeners]) (by simp [h.outcome])

lemma Holds.hearAll (h : g.Holds o) (ss : List Signal) : (g.hearAll ss).Holds o := by
  induction ss generalizing g with
  | nil => exact h
  | cons s ss ih => exact ih (h.hear s)

/-- **A guard settles with the first signal, once and for all.** Before any signal it is
pending with one listener; from the first signal on it holds what that signal says and has no
listener, whatever else comes. -/
theorem settles_with_first_signal (ss : List Signal) :
    (({} : Guard).hearAll ss).outcome = ss.head?.map Signal.verdict ∧
      (({} : Guard).hearAll ss).listeners = if ss = [] then 1 else 0 := by
  cases ss with
  | nil => exact ⟨rfl, rfl⟩
  | cons first later =>
    have hholds : (({} : Guard).hearAll (first :: later)).Holds first.verdict :=
      (watches_new.hear first).hearAll later
    exact ⟨hholds.outcome, hholds.listeners⟩

end Guard

end Parley
