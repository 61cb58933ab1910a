import LinuxPractice.SelectServer

/-!
# SelectServer: which descriptors are served

`Dispatcher` asks for every slot whether the listening descriptor is ready. So
either nothing is served, or everything is, also what `accept` has just brought.
-/
namespace SelectServer

open Transition Transition.System Passes Sockets Slots Dispatch

variable {n : Nat} {s t : State n} {a : Action n} {b : Boot} {listensock sock : Int}
  {calls : List (Call n)} {i : Fin (n + 1)}

theorem dispatcher_idle (hout : listensock ∉ a.rfds) (places : List (Fin (n + 1))) :
    scan (visit listensock a) s places = some (s, []) := by
  induction places with
  | nil => rfl
  | cons i is ih =>
    have hvisit : visit listensock a s i = some (s, []) := by
      simp only [visit, hout, if_false, ite_self]
    exact scan_cons.mpr ⟨s, [], [], hvisit, ih, rfl⟩

/-- `Recver` runs for the clients in `rfds` and no other descriptor, `Accepter` if the
listening descriptor is in it. -/
structure Exact (listensock : Int) (s : State n) (rfds : Finset Int) (calls : List (Call n)) :
    Prop where
  clients : ∀ fd, (∃ pos, .recver fd pos ∈ calls) ↔
    (fd ≠ listensock ∧ fd ≠ -1 ∧ ∃ i, s.fdArray i = fd) ∧ fd ∈ rfds
  listening : .accepter ∈ calls ↔ listensock ∈ rfds

/-- Without the listening descriptor some client in `rfds` is left out. -/
theorem not_exact_idle (hsel : Selected s a.rfds) (hout : listensock ∉ a.rfds) :
    ¬ Exact listensock s a.rfds [] := by
  intro h
  obtain ⟨⟨fd, hfd⟩, hreg⟩ := hsel
  have hne : fd ≠ listensock := by
    intro he
    exact hout (he ▸ hfd)
  obtain ⟨pos, hpos⟩ := (h.clients fd).mpr ⟨⟨hne, hreg fd hfd⟩, hfd⟩
  cases hpos

/-- With the listening descriptor in it, the clients served are those there are once
`accept` has returned. -/
theorem exact_busy_iff {u : Table n} (h : Holds listensock s.table) (hin : listensock ∈ a.rfds)
    (ha : Accepts s.table sock u) :
    Exact listensock s a.rfds (allCalls u) ↔
      (∀ i, s.fdArray i ≠ -1 → s.fdArray i ∈ a.rfds) ∧
        (sock < 0 ∨ free s.fdArray = none) := by
  have hready : (∀ i, s.fdArray i ≠ -1 → s.fdArray i ∈ a.rfds) ↔
      ∀ fd, (∃ id, s.kernel.files fd = some (.conn id)) → fd ∈ a.rfds := by
    constructor
    · intro hall fd hfd
      obtain ⟨-, hone, i, rfl⟩ := h.client_iff.mpr hfd
      exact hall i hone
    · intro hall i hone
      by_cases he : s.fdArray i = listensock
      · rwa [he]
      · exact hall _ (h.client_iff.mp ⟨he, hone, i, rfl⟩)
  have hserved : ∀ fd, (∃ pos, .recver fd pos ∈ allCalls u) ↔ ∃ id, u.files fd = some (.conn id) :=
    fun fd => (exists_congr fun _ => mem_allCalls).trans ((ha.holds h).clients fd)
  have hbefore : ∀ fd, (fd ≠ listensock ∧ fd ≠ -1 ∧ ∃ i, s.fdArray i = fd) ↔
      ∃ id, s.kernel.files fd = some (.conn id) := fun fd => h.client_iff
  rw [hready]
  refine Iff.trans ?_ (ha.clients_iff (· ∈ a.rfds))
  constructor
  · intro he fd hfd
    have := (he.clients fd).mp ((hserved fd).mpr hfd)
    rwa [hbefore] at this
  · intro hall
    constructor
    · intro fd
      rw [hserved, hbefore]
      constructor
      · exact hall fd
      · intro hfd
        obtain ⟨⟨id, hid⟩, -⟩ := hfd
        exact ⟨id, ha.files_kept hid⟩
    · simp [hin, allCalls]

/-- The dispatch is exact where everything registered is ready and no connection is
accepted into the array, and nowhere else. -/
theorem dispatches_exactly_iff (h : (server n b).Reachable anyStep s) (hsel : Selected s a.rfds)
    (hd : dispatcher b.listensock a s = some (t, calls)) :
    Exact b.listensock s a.rfds calls ↔
      (∀ i, s.fdArray i ≠ -1 → s.fdArray i ∈ a.rfds) ∧
        ((a.outcome 0).sock < 0 ∨ free s.fdArray = none) := by
  have hholds := holds h
  by_cases hin : b.listensock ∈ a.rfds
  · obtain ⟨u, hu, rfl⟩ := (serves b.listensock a).calls_eq hin trivial hholds hd
    exact exact_busy_iff hholds hin hu
  · rw [dispatcher, dispatcher_idle hin] at hd
    cases hd
    constructor
    · intro he
      exact absurd he (not_exact_idle hsel hin)
    · intro hc
      have hzero : s.fdArray 0 = b.listensock := hholds.first
      have hready := hc.1 0
      rw [hzero] at hready
      exact absurd (hready hholds.listensock_ne) hin

/-- Two slots: the array is full and both descriptors in it are ready. -/
theorem dispatches_exactly_full : ∃ s t calls, (server 1 standard).Reachable anyStep s ∧
    s.fdArray 1 = 4 ∧ dispatcher 3 ⟨{3, 4}, fun _ => ⟨5, 0⟩⟩ s = some (t, calls) ∧
    Exact 3 s {3, 4} calls := by
  let a : Action 1 := ⟨{3}, fun _ => ⟨4, 5⟩⟩
  let s := ((server 1 standard).run (start 1 standard) [a]).get (by decide)
  have hrun : (server 1 standard).Reachable anyStep s := reachable_of_run _
  have hsome : (dispatcher 3 ⟨{3, 4}, fun _ => ⟨5, 0⟩⟩ s).isSome := by decide
  obtain ⟨⟨t, calls⟩, hd⟩ := Option.isSome_iff_exists.mp hsome
  refine ⟨s, t, calls, hrun, by decide, hd, ?_⟩
  exact (dispatches_exactly_iff hrun (by decide) hd).mpr ⟨by decide, .inr (by decide)⟩

/-- With all 1024 slots: a client has connected, its data is ready, and nobody reads it. -/
theorem ready_client_not_served : ∃ s, (server 1023 standard).Reachable anyStep s ∧
    Selected s {4} ∧ ∀ outcome, dispatcher 3 ⟨{4}, outcome⟩ s = some (s, []) ∧
      ¬ Exact 3 s {4} [] := by
  let a : Action 1023 := ⟨{3}, fun _ => ⟨4, 5⟩⟩
  let s := ((server 1023 standard).run (start 1023 standard) [a]).get (by decide +kernel)
  have hrun : (server 1023 standard).Reachable anyStep s := reachable_of_run _
  have hslot : s.fdArray 1 = 4 := by decide +kernel
  have hsel : Selected s {4} := by
    refine ⟨by simp, ?_⟩
    intro fd hfd
    rw [Finset.mem_singleton] at hfd
    exact ⟨by omega, 1, hfd ▸ hslot⟩
  refine ⟨s, hrun, hsel, ?_⟩
  intro outcome
  exact ⟨dispatcher_idle (by simp) _, not_exact_idle (a := ⟨{4}, outcome⟩) hsel (by simp)⟩

end SelectServer
