import LinuxPractice.SelectServer
import LinuxPractice.PollServer

/-!
# The connection tables of SelectServer and PollServer

Both keep the same table, at every point of every pass over it.
-/
namespace ServerTables

open Transition Transition.System Passes Sockets Slots Dispatch

/-- The table holds the open connections, and a connection for which it has no room is closed. -/
structure Intact {n : Nat} {σ : Type} (listensock : Int) (table : σ → Table n)
    (accepter : σ → Int → Option σ) (s : σ) : Prop where
  holds : Holds listensock (table s)
  full : (∀ i, i ≠ 0 → (table s).slots i ≠ -1) → ∀ sock t, 0 ≤ sock → accepter s sock = some t →
    table t = table s ∧ (table t).files sock = none

theorem intact_of_holds {n : Nat} {σ : Type} {listensock : Int} {table : σ → Table n}
    {accepter : σ → Int → Option σ} {s : σ}
    (haccepts : ∀ sock t, accepter s sock = some t → Accepts (table s) sock (table t))
    (h : Holds listensock (table s)) : Intact listensock table accepter s := by
  constructor
  · exact h
  · intro hfull sock t hsock hs
    have ha := haccepts sock t hs
    have hsame := ha.unchanged (.inr (free_eq_none_iff.mpr hfull))
    rw [hsame]
    exact ⟨rfl, ha.not_open hsock⟩

/-- In every reachable state and after every part of a pass that follows it. -/
theorem tables_intact (n : Nat) (b : Boot) :
    (∀ s (a : SelectServer.Action n) before t calls, (SelectServer.server n b).Reachable anyStep s →
      before <+: List.finRange (n + 1) →
      scan (SelectServer.visit b.listensock a) s before = some (t, calls) →
      Intact b.listensock SelectServer.State.table SelectServer.accepter t) ∧
    (∀ s (a : PollServer.Action n) before t calls, (PollServer.server n b).Reachable anyStep s →
      before <+: List.finRange (n + 1) →
      scan (PollServer.visit b.listensock a.outcome) (PollServer.poll s a.revents) before =
        some (t, calls) →
      Intact b.listensock PollServer.State.table PollServer.accepter t) := by
  constructor
  · intro s a before t calls h _ hs
    apply intact_of_holds fun _ _ => SelectServer.accepter_accepts
    exact ((SelectServer.serves b.listensock a).holds trivial (SelectServer.holds h) hs).2
  · intro s a before t calls h _ hs
    apply intact_of_holds fun _ _ => PollServer.accepter_accepts
    obtain ⟨hwatches, hholds⟩ := PollServer.holds h
    exact ((PollServer.serves b.listensock a.outcome).holds (x := PollServer.poll s a.revents)
      hwatches hholds hs).2

/-- One client fills the table, and a second one is turned away in the next pass. -/
theorem tables_intact_full :
    (∃ s t calls, (SelectServer.server 1 standard).Reachable anyStep s ∧ s.fdArray 1 = 4 ∧
      scan (SelectServer.visit 3 ⟨{3}, fun _ => ⟨5, 0⟩⟩) s [0] = some (t, calls) ∧
      Intact 3 SelectServer.State.table SelectServer.accepter t) ∧
    (∃ s t calls, (PollServer.server 1 standard).Reachable anyStep s ∧ (s.rds 1).fd = 4 ∧
      scan (PollServer.visit 3 fun _ => ⟨5, 0⟩) (PollServer.poll s fun _ => 1) [0] =
        some (t, calls) ∧
      Intact 3 PollServer.State.table PollServer.accepter t) := by
  constructor
  · let a : SelectServer.Action 1 := ⟨{3}, fun _ => ⟨4, 5⟩⟩
    let s := ((SelectServer.server 1 standard).run (SelectServer.start 1 standard) [a]).get
      (by decide)
    have hrun : (SelectServer.server 1 standard).Reachable anyStep s := reachable_of_run _
    have hsome : (scan (SelectServer.visit 3 ⟨{3}, fun _ => ⟨5, 0⟩⟩) s [0]).isSome := by decide
    obtain ⟨⟨t, calls⟩, hs⟩ := Option.isSome_iff_exists.mp hsome
    exact ⟨s, t, calls, hrun, by decide, hs,
      (tables_intact 1 standard).1 s _ [0] t calls hrun (by decide) hs⟩
  · let a : PollServer.Action 1 := ⟨fun i => if i = 0 then 1 else 0, fun _ => ⟨4, 5⟩⟩
    let s := ((PollServer.server 1 standard).run (PollServer.start 1 standard) [a]).get (by decide)
    have hrun : (PollServer.server 1 standard).Reachable anyStep s := reachable_of_run _
    have hsome : (scan (PollServer.visit 3 fun _ => ⟨5, 0⟩) (PollServer.poll s fun _ => 1)
        [0]).isSome := by decide
    obtain ⟨⟨t, calls⟩, hs⟩ := Option.isSome_iff_exists.mp hsome
    exact ⟨s, t, calls, hrun, by decide, hs, (tables_intact 1 standard).2 s
      ⟨fun _ => 1, fun _ => ⟨5, 0⟩⟩ [0] t calls hrun (by decide) hs⟩

end ServerTables
