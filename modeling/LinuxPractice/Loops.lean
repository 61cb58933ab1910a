import Mathlib.Logic.Basic

/-!
# Loops that are left by a `break`

A turn of the loop goes on with a new state or leaves the loop. A loop need
not end, so a run is given a number of turns.
-/
namespace Loops

variable {σ ρ : Type}

inductive Turn (σ ρ : Type) where
  | again : σ → Turn σ ρ
  | leave : ρ → Turn σ ρ
  deriving DecidableEq, Repr

variable {turn : σ → Turn σ ρ} {I : σ → Prop} {s t : σ} {r : ρ}

/-- What the loop is left with in at most so many turns. -/
def run (turn : σ → Turn σ ρ) : Nat → σ → Option ρ
  | 0, _ => none
  | n + 1, s =>
    match turn s with
    | .again t => run turn n t
    | .leave r => some r

/-- The state after so many turns, if the loop has not been left. -/
def after (turn : σ → Turn σ ρ) : Nat → σ → Option σ
  | 0, s => some s
  | n + 1, s =>
    match turn s with
    | .again t => after turn n t
    | .leave _ => none

def Returns (turn : σ → Turn σ ρ) (s : σ) (r : ρ) : Prop := ∃ n, run turn n s = some r

def Ends (turn : σ → Turn σ ρ) (s : σ) : Prop := ∃ r, Returns turn s r

theorem run_again (h : turn s = .again t) (n : Nat) : run turn (n + 1) s = run turn n t := by
  rw [run, h]

theorem run_leave (h : turn s = .leave r) (n : Nat) : run turn (n + 1) s = some r := by
  rw [run, h]

theorem after_again (h : turn s = .again t) (n : Nat) : after turn (n + 1) s = after turn n t := by
  rw [after, h]

theorem returns_leave (h : turn s = .leave r) : Returns turn s r := ⟨1, run_leave h 0⟩

theorem returns_again (h : turn s = .again t) : Returns turn s r ↔ Returns turn t r := by
  constructor
  · rintro ⟨n, hn⟩
    cases n with
    | zero => cases hn
    | succ n => exact ⟨n, by rwa [run_again h] at hn⟩
  · rintro ⟨n, hn⟩
    exact ⟨n + 1, by rwa [run_again h]⟩

/-- A loop is left with one result only. -/
theorem Returns.unique {r' : ρ} (h : Returns turn s r) (h' : Returns turn s r') : r = r' := by
  obtain ⟨n, hn⟩ := h
  induction n generalizing s with
  | zero => cases hn
  | succ n ih =>
    cases ht : turn s with
    | again t =>
      rw [run_again ht] at hn
      exact ih ((returns_again ht).mp h') hn
    | leave r₀ =>
      rw [run_leave ht] at hn
      cases hn
      obtain ⟨m, hm⟩ := h'
      cases m with
      | zero => cases hm
      | succ m =>
        rw [run_leave ht] at hm
        exact Option.some.inj hm

theorem ends_leave (h : turn s = .leave r) : Ends turn s := ⟨r, returns_leave h⟩

theorem ends_again (h : turn s = .again t) : Ends turn s ↔ Ends turn t :=
  exists_congr fun _ => returns_again h

/-- A loop that always finds a reason to go on is never left. -/
theorem not_ends (hkeep : ∀ s, I s → ∃ t, turn s = .again t ∧ I t) (hs : I s) : ¬ Ends turn s := by
  rintro ⟨r, n, hn⟩
  induction n generalizing s with
  | zero => cases hn
  | succ n ih =>
    obtain ⟨t, ht, hit⟩ := hkeep s hs
    rw [run_again ht] at hn
    exact ih hit hn

end Loops
