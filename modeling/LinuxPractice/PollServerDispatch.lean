import LinuxPractice.PollServer

/-!
# PollServer: which descriptors are served

`Dispatcher` looks at the events an entry asks for, not at those that `poll`
reports. So every round serves everything, also what `accept` has just brought.
-/
namespace PollServer

open Transition Transition.System Passes Sockets Slots Dispatch

variable {n : Nat} {s t : State n} {a : Action n} {b : Boot} {listensock sock : Int}
  {calls : List (Call n)}

/-- Only entries that `poll` has reported as readable are served. -/
structure OnlyReady (s : State n) (revents : Fin (n + 1) → UInt16) (calls : List (Call n)) :
    Prop where
  clients : ∀ fd i, .recver fd i ∈ calls → (s.rds i).fd = fd ∧ revents i &&& pollin ≠ 0
  listening : .accepter ∈ calls → revents 0 &&& pollin ≠ 0

theorem onlyReady_iff {u : Table n} {revents : Fin (n + 1) → UInt16}
    (h : Holds listensock s.table) (ha : Accepts s.table sock u) :
    OnlyReady s revents (allCalls u) ↔
      (∀ i, (s.rds i).fd ≠ -1 → revents i &&& pollin ≠ 0) ∧ (sock < 0 ∨ free s.fds = none) := by
  constructor
  · intro ho
    constructor
    · intro i hi
      by_cases hi0 : i = 0
      · subst hi0
        exact ho.listening List.mem_cons_self
      · have hkept : u.slots i = (s.rds i).fd := ha.slots_kept hi
        exact (ho.clients _ i (mem_allCalls.mpr ⟨hi0, hkept, hi⟩)).2
    · exact ha.nothing_entered fun fd i hcall => (ho.clients fd i hcall).1
  · intro hc
    rw [ha.unchanged hc.2]
    constructor
    · intro fd i hcall
      obtain ⟨_, rfl, hone⟩ := mem_allCalls.mp hcall
      exact ⟨rfl, hc.1 i hone⟩
    · intro _
      have hzero : (s.rds 0).fd = listensock := h.first
      apply hc.1 0
      rw [hzero]
      exact h.listensock_ne

/-- Only ready entries are served where all entries are ready and no connection is accepted
into the table, and nowhere else. -/
theorem dispatches_only_ready_iff (h : (server n b).Reachable anyStep s)
    (hd : dispatcher b.listensock a.outcome (poll s a.revents) = some (t, calls)) :
    OnlyReady s a.revents calls ↔
      (∀ i, (s.rds i).fd ≠ -1 → a.revents i &&& pollin ≠ 0) ∧
        ((a.outcome 0).sock < 0 ∨ free s.fds = none) := by
  obtain ⟨hwatches, hholds⟩ := holds h
  obtain ⟨u, hu, rfl⟩ := (serves b.listensock a.outcome).calls_eq (x := poll s a.revents) trivial
    hwatches hholds hd
  exact onlyReady_iff hholds hu

/-- Two entries: the table is full and both are ready. -/
theorem dispatches_only_ready_full : ∃ s t calls, (server 1 standard).Reachable anyStep s ∧
    (s.rds 1).fd = 4 ∧ dispatcher 3 (fun _ => ⟨5, 0⟩) (poll s fun _ => pollin) = some (t, calls) ∧
    OnlyReady s (fun _ => pollin) calls := by
  let a : Action 1 := ⟨Function.update (fun _ => 0) 0 pollin, fun _ => ⟨4, 5⟩⟩
  let s := ((server 1 standard).run (start 1 standard) [a]).get (by decide)
  have hrun : (server 1 standard).Reachable anyStep s := reachable_of_run _
  have hsome : (dispatcher 3 (fun _ => ⟨5, 0⟩) (poll s fun _ => pollin)).isSome := by decide
  obtain ⟨⟨t, calls⟩, hd⟩ := Option.isSome_iff_exists.mp hsome
  refine ⟨s, t, calls, hrun, by decide, hd, ?_⟩
  exact (dispatches_only_ready_iff (a := ⟨fun _ => pollin, fun _ => ⟨5, 0⟩⟩) hrun hd).mpr
    ⟨by decide, .inr (by decide)⟩

/-- With all 64 entries: the first client connects, and `Dispatcher` reads from it at once. -/
theorem unready_client_read : ∃ revents t calls, Polled (start 63 standard) revents ∧
    dispatcher 3 (fun _ => ⟨4, 5⟩) (poll (start 63 standard) revents) = some (t, calls) ∧
    revents 1 = 0 ∧ .recver 4 1 ∈ calls ∧ ¬ OnlyReady (start 63 standard) revents calls := by
  let revents : Fin 64 → UInt16 := Function.update (fun _ => 0) 0 pollin
  let p := (dispatcher 3 (fun _ => ⟨4, 5⟩) (poll (start 63 standard) revents)).get
    (by decide +kernel)
  have hd : dispatcher 3 (fun _ => ⟨4, 5⟩) (poll (start 63 standard) revents) = some p :=
    (Option.some_get _).symm
  have hcall : .recver 4 1 ∈ p.2 := by decide +kernel
  refine ⟨revents, p.1, p.2, by decide, hd, rfl, hcall, ?_⟩
  intro h
  exact (h.clients 4 1 hcall).2 (by decide)

end PollServer
