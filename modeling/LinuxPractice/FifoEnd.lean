import LinuxPractice.Fifo

/-!
# Who waits for whom at a FIFO

The server, on its own, comes to its end or to where it waits for a client that
is there. Where nobody can go on the server has ended, and the only client that
waits for ever is one that opened the FIFO between its `close` and its `unlink`,
or after its death.
-/
namespace Fifo

open Transition Transition.System Pipes

variable {C : Type} [DecidableEq C] [Fintype C] {input : C → CppString.Bytes} {s t : State C}
  {e : Option (Event C)}

/-- The ends that are open, and why an `open` still waits. -/
structure Counted (s : State C) : Prop where
  readers : s.pipe.readers = s.server.readers
  writers : s.pipe.writers = ∑ c, (s.client c).writers
  clientWaits : ∀ c r, s.client c = .opening r →
    r ≤ s.rCounter ∧ (s.server.readers = 1 → r < s.rCounter)
  serverWaits : ∀ w, s.server = .opening w →
    w ≤ s.wCounter ∧ (w = s.wCounter → s.pipe.writers = 0)

omit [DecidableEq C] in
theorem counted_init (input : C → CppString.Bytes) : Counted (init input) where
  readers := rfl
  writers := by simp [init]
  clientWaits := by simp [init]
  serverWaits := by simp [init]

omit [DecidableEq C] in
theorem Counted.le_writers (hi : Counted s) (c : C) : (s.client c).writers ≤ s.pipe.writers := by
  rw [hi.writers]
  exact Finset.single_le_sum (f := fun c => (s.client c).writers) (fun _ _ => Nat.zero_le _)
    (Finset.mem_univ c)

theorem ServerPc.readers_of_ended {k : ServerPc} (h : k.ended = true) : k.readers = 0 := by
  cases k <;> first | rfl | cases h

theorem ClientPc.writers_of_ended {k : ClientPc} (h : k.ended = true) : k.writers = 0 := by
  cases k <;> first | rfl | cases h

theorem ClientPc.writers_le (k : ClientPc) : k.writers ≤ 1 := by cases k <;> simp

/-- A client goes somewhere else. -/
theorem Counted.move {c : C} {k : ClientPc} (hi : Counted s)
    (hclient : t.client = Function.update s.client c k) (hserver : t.server = s.server)
    (hr : t.rCounter = s.rCounter) (hreaders : t.pipe.readers = s.pipe.readers)
    (hwriters : t.pipe.writers + (s.client c).writers = s.pipe.writers + k.writers)
    (hw : s.wCounter < t.wCounter ∨ t.wCounter = s.wCounter ∧ k.writers ≤ (s.client c).writers)
    (hk : ∀ r, k = .opening r → r = s.rCounter ∧ s.pipe.readers = 0) : Counted t where
  readers := by rw [hreaders, hserver, hi.readers]
  writers := by
    have hsum := Threads.sum_update ClientPc.writers (rfl : s.client c = s.client c) k
    rw [hclient]
    have := hi.writers
    omega
  clientWaits := by
    intro d r h
    rw [hclient] at h
    rw [hr, hserver]
    by_cases hd : d = c
    · subst hd
      rw [Function.update_self] at h
      obtain ⟨rfl, hnone⟩ := hk r h
      rw [hi.readers] at hnone
      exact ⟨Nat.le_refl _, by omega⟩
    · rw [Function.update_of_ne hd] at h
      exact hi.clientWaits d r h
  serverWaits := by
    intro w h
    rw [hserver] at h
    obtain ⟨hle, hnone⟩ := hi.serverWaits w h
    rcases hw with hlt | ⟨hsame, hkeep⟩
    · omega
    · refine ⟨by omega, fun heq => ?_⟩
      have := hnone (by omega)
      omega

theorem Counted.client {c : C} (hi : Counted s) (h : ClientStep s c t e) : Counted t := by
  have hle := hi.le_writers c
  cases h with
  | openFifo hpc hlinked =>
    refine hi.move rfl rfl rfl rfl ?_ (.inl (Nat.lt_succ_self _)) ?_
    · rw [hpc]
      split <;> simp
    · split
      · rintro r ⟨⟩
        exact ⟨rfl, ‹_›⟩
      · simp
  | failed hpc => exact hi.move rfl rfl rfl rfl (by rw [hpc]; rfl) (.inr ⟨rfl, by simp⟩) (by simp)
  | woken r hpc =>
    exact hi.move rfl rfl rfl rfl (by rw [hpc]; rfl) (.inr ⟨rfl, by simp [hpc]⟩) (by simp)
  | getline hpc =>
    exact hi.move rfl rfl rfl rfl (by rw [hpc]; rfl) (.inr ⟨rfl, by simp [hpc]⟩) (by simp)
  | finish hpc =>
    exact hi.move rfl rfl rfl rfl (by rw [hpc]; rfl) (.inr ⟨rfl, by simp [hpc]⟩) (by simp)
  | put rest k hpc =>
    exact hi.move rfl rfl rfl rfl (by rw [hpc]; rfl) (.inr ⟨rfl, by simp [hpc]⟩) (by simp)
  | sigpipe rest hpc =>
    refine hi.move rfl rfl rfl rfl ?_ (.inr ⟨rfl, by simp⟩) (by simp)
    rw [hpc] at hle ⊢
    exact Nat.sub_add_cancel hle
  | killed => exact hi.move rfl rfl rfl rfl (Nat.sub_add_cancel hle) (.inr ⟨rfl, by simp⟩) (by simp)

omit [DecidableEq C] in
/-- The server goes somewhere else than into its `open`. -/
theorem Counted.serve (hi : Counted s) (hclient : t.client = s.client)
    (hwriters : t.pipe.writers = s.pipe.writers) (hr : t.rCounter = s.rCounter)
    (hreaders : t.pipe.readers = t.server.readers)
    (hhas : t.server.readers = 1 → s.server.readers = 1) (hno : ∀ w, t.server ≠ .opening w) :
    Counted t where
  readers := hreaders
  writers := by rw [hwriters, hclient, hi.writers]
  clientWaits := by
    intro c r h
    rw [hclient] at h
    rw [hr]
    have hwait := hi.clientWaits c r h
    exact ⟨hwait.1, fun h => hwait.2 (hhas h)⟩
  serverWaits := fun w h => absurd h (hno w)

omit [DecidableEq C] in
theorem Counted.server (hi : Counted s) (h : ServerStep s t e) : Counted t := by
  have hreaders := hi.readers
  cases h with
  | mkfifo hpc => exact hi.serve rfl rfl rfl (by simpa [hpc] using hreaders) (by simp) (by simp)
  | openFifo hpc =>
    rw [hpc] at hreaders
    refine ⟨?_, hi.writers, fun c r h => ?_, fun w h => ?_⟩
    · simp only [hreaders]
      split <;> rfl
    · have := (hi.clientWaits c r h).1
      exact ⟨by simp only; omega, fun _ => by simp only; omega⟩
    · simp only at h
      split at h <;> cases h
      exact ⟨Nat.le_refl _, fun _ => ‹_›⟩
  | woken w hpc =>
    exact hi.serve rfl rfl rfl (by simpa [hpc] using hreaders) (by simp [hpc]) (by simp)
  | eof hpc => exact hi.serve rfl rfl rfl (by simpa [hpc] using hreaders) (by simp [hpc]) (by simp)
  | got data unread hpc =>
    exact hi.serve rfl rfl rfl (by simpa [hpc] using hreaders) (by simp [hpc]) (by simp)
  | print data hpc =>
    exact hi.serve rfl rfl rfl (by simpa [hpc] using hreaders) (by simp [hpc]) (by simp)
  | overrun data hpc => exact hi.serve rfl rfl rfl hreaders id (by simp [hpc])
  | quit hpc => exact hi.serve rfl rfl rfl (by simpa [hpc] using hreaders) (by simp [hpc]) (by simp)
  | close hpc => exact hi.serve rfl rfl rfl (by simp [hpc, hreaders]) (by simp) (by simp)
  | unlink hpc => exact hi.serve rfl rfl rfl (by simpa [hpc] using hreaders) (by simp) (by simp)
  | failed k hk =>
    cases hpc : s.server <;> rw [hpc] at hk hreaders <;> cases hk <;>
      exact hi.serve rfl rfl rfl hreaders (by simp [hpc]) (by simp)
  | killed => exact hi.serve rfl rfl rfl (by simp [hreaders]) (by simp) (by simp)

theorem counted (h : (system input).Reachable anyStep s) : Counted s := by
  refine Reachable.invariant h (counted_init input) fun s a t hi _ hs => ?_
  rcases step_cases hs with hserver | ⟨c, hclient⟩
  · exact hi.server hserver
  · exact hi.client hclient

def ServerPc.rank : ServerPc → Nat
  | .mkfifo => 8
  | .openFifo => 7
  | .opening _ => 6
  | .read => 5
  | .print _ => 6
  | .quit => 4
  | .close => 3
  | .unlink => 2
  | .exit _ | .killed => 0

/-- What a server can still do by itself. -/
def rank (s : State C) : Nat :=
  if s.fault then 0 else 3 * s.pipe.unread.length + s.server.rank

def ofServer (_ : State C) : Action C → Bool
  | .server _ | .serverFails => true
  | _ => false

omit [DecidableEq C] [Fintype C] in
theorem ServerStep.rank_lt (h : ServerStep s t e) (hfault : s.fault = false) :
    rank t < rank s := by
  cases h with
  | openFifo hpc =>
    have hk : (if s.pipe.writers = 0 then ServerPc.opening s.wCounter else .read).rank < 7 := by
      split <;> simp [ServerPc.rank]
    simpa [rank, hfault, hpc, ServerPc.rank] using hk
  | got data unread hpc hpos hlen hunread =>
    simp only [rank, hfault, hpc, ServerPc.rank, hunread, List.length_append]
    simp only [Bool.false_eq_true, if_false]
    omega
  | overrun data hpc => simp [rank, hfault, hpc, ServerPc.rank]
  | failed k hk =>
    cases hpc : s.server <;> rw [hpc] at hk <;> cases hk <;> simp [rank, hfault, hpc, ServerPc.rank]
  | killed hlive =>
    cases hpc : s.server with
    | exit code | killed =>
      rw [hpc] at hlive
      cases hlive
    | _ => simp [rank, hfault, hpc, ServerPc.rank]
  | mkfifo hpc | woken w hpc | eof hpc | print data hpc | quit hpc | close hpc | unlink hpc =>
    simp [rank, hfault, hpc, ServerPc.rank]

omit [Fintype C] in
theorem rank_lt {a : Action C} (h : step s a = some t) (ha : ofServer s a = true) :
    rank t < rank s := by
  obtain ⟨⟨u, e⟩, hact, rfl⟩ := Option.map_eq_some_iff.mp h
  unfold act at hact
  split at hact
  · cases hact
  · have hfault : s.fault = false := eq_false_of_ne_true ‹_›
    cases a with
    | server k => exact (stepServer_cases hact).rank_lt hfault
    | serverFails =>
      obtain ⟨k, hk, he⟩ := Option.map_eq_some_iff.mp hact
      cases he
      exact (ServerStep.failed k hk).rank_lt hfault
    | client | clientFails | kill => cases ha

omit [Fintype C] in
theorem step_server (hfault : s.fault = false) (k : Nat) :
    step s (.server k) = none ↔ stepServer s k = none := by
  simp [step, act, hfault]

omit [Fintype C] in
theorem step_client (hfault : s.fault = false) (c : C) (k : Nat) :
    step s (.client c k) = none ↔ stepClient s c k = none := by
  simp [step, act, hfault]

omit [DecidableEq C] in
/-- The server only waits for clients. -/
theorem Counted.server_waits (hi : Counted s) (h : ∀ k, stepServer s k = none) :
    s.server.ended = true ∨
      (∃ w, s.server = .opening w ∧ ∀ c, (s.client c).writers = 0) ∨
      s.server = .read ∧ s.pipe.unread = [] ∧ ∃ c, (s.client c).writers = 1 := by
  have hstuck := h 1
  cases hpc : s.server with
  | opening w =>
    simp only [stepServer, hpc] at hstuck
    split at hstuck
    · have hnone := (hi.serverWaits w hpc).2 (Eq.symm ‹_›)
      exact .inr (.inl ⟨w, rfl, fun c => Nat.le_zero.mp (hnone ▸ hi.le_writers c)⟩)
    · cases hstuck
  | read =>
    simp only [stepServer, hpc, Option.map_eq_none_iff] at hstuck
    obtain ⟨hunread, hwriters⟩ := Pipe.read_eq_none (by decide) hstuck
    rw [hi.writers] at hwriters
    obtain ⟨c, -, hc⟩ := Finset.exists_ne_zero_of_sum_ne_zero hwriters
    have := (s.client c).writers_le
    exact .inr (.inr ⟨rfl, hunread, c, by omega⟩)
  | print data =>
    simp only [stepServer, hpc] at hstuck
    split at hstuck <;> cases hstuck
  | exit code | killed => exact .inl rfl
  | mkfifo | openFifo | quit | close | unlink =>
    simp only [stepServer, hpc] at hstuck
    cases hstuck

omit [Fintype C] in
/-- A client only waits for a server that has not read what there is, or in its `open`. -/
theorem client_waits {log : List (Event C)} {c : C} (hi : Kept input s log)
    (h : ∀ k, stepClient s c k = none) :
    (s.client c).ended = true ∨ s.client c = .opening s.rCounter ∨
      (s.client c).writers = 1 ∧ s.pipe.readers ≠ 0 ∧ s.pipe.unread ≠ [] := by
  cases hpc : s.client c with
  | openFifo =>
    have hstuck := h 0
    simp only [stepClient, hpc] at hstuck
    split at hstuck <;> cases hstuck
  | opening r =>
    have hstuck := h 0
    simp only [stepClient, hpc] at hstuck
    split at hstuck
    · rename_i hr
      exact .inr (.inl (hr ▸ rfl))
    · cases hstuck
  | getline =>
    have hstuck := h 0
    simp only [stepClient, hpc] at hstuck
    cases hstuck
  | write rest =>
    cases rest with
    | nil =>
      have hstuck := h 0
      simp only [stepClient, hpc] at hstuck
      cases hstuck
    | cons b rest =>
      right; right
      by_cases hshort : (s.line c).length ≤ pipeBuf
      · -- the whole line at once, which is no more than the pipe holds
        have hstuck := h (b :: rest).length
        have hlen : (b :: rest).length ≤ pipeBuf := by
          obtain ⟨-, hsame | hnil | hlong⟩ := hi.writing c _ hpc
          · rw [hsame]
            exact hshort
          · cases hnil
          · omega
        simp only [stepClient, hpc, ne_eq, not_true, and_false, if_false,
          Option.map_eq_none_iff] at hstuck
        obtain ⟨hreaders, hfull⟩ := Pipe.write_eq_none (by simp) (Nat.le_refl _) hstuck
        refine ⟨rfl, hreaders, fun hnil => ?_⟩
        rw [hnil, List.length_nil, Nat.zero_add] at hfull
        exact absurd (hfull.trans_le hlen) (by decide)
      · have hstuck := h 1
        simp only [stepClient, hpc, hshort, false_and, if_false, Option.map_eq_none_iff] at hstuck
        obtain ⟨hreaders, hfull⟩ := Pipe.write_eq_none Nat.one_pos (by simp) hstuck
        refine ⟨rfl, hreaders, fun hnil => ?_⟩
        rw [hnil] at hfull
        exact absurd hfull (by decide)
  | exit | killed => exact .inl rfl

/-- Where neither the server nor a client can go on by itself. -/
theorem Counted.ended {log : List (Event C)} (hc : Counted s) (hi : Kept input s log)
    (hserver : ∀ k, stepServer s k = none) (hclient : ∀ c k, stepClient s c k = none) :
    s.server.ended = true ∧ (∀ c, (s.client c).ended = true ∨ s.client c = .opening s.rCounter) ∨
      (∃ w, s.server = .opening w) ∧ ∀ c, (s.client c).ended = true := by
  have hwait := fun c => client_waits hi (hclient c)
  have hlate : ∀ c, s.server.readers = 1 → s.client c ≠ .opening s.rCounter :=
    fun c hone h => Nat.lt_irrefl _ ((hc.clientWaits c _ h).2 hone)
  rcases hc.server_waits hserver with hended | ⟨w, hpc, hnone⟩ | ⟨hpc, hunread, c, hone⟩
  · refine .inl ⟨hended, fun c => ?_⟩
    rcases hwait c with hend | hopening | ⟨-, hreaders, -⟩
    · exact .inl hend
    · exact .inr hopening
    · exact absurd (hc.readers.trans (ServerPc.readers_of_ended hended)) hreaders
  · refine .inr ⟨⟨w, hpc⟩, fun c => ?_⟩
    rcases hwait c with hend | hopening | ⟨hone, -⟩
    · exact hend
    · exact absurd (hnone c) (by rw [hopening]; exact Nat.one_ne_zero)
    · rw [hnone c] at hone
      cases hone
  · rcases hwait c with hend | hopening | ⟨-, -, hfull⟩
    · rw [ClientPc.writers_of_ended hend] at hone
      cases hone
    · exact absurd hopening (hlate c (by rw [hpc]; rfl))
    · exact absurd hunread hfull

/-- From any state the server, on its own, takes at most `rank` steps, to its end or to where it
waits for a client that has the FIFO open, or for the first one to open it. And where no process
can go on, unless one is killed, all have ended, but for clients that wait in an `open` since which
nobody has opened the FIFO for reading, and a server that waits in its `open` when all clients are
gone. -/
theorem who_waits {as : List (Action C)} (h : (system input).Reachable anyStep s)
    (hrun : ((system input).only ofServer).run s as = some t) :
    as.length + rank t ≤ rank s ∧
      ((∀ k, step t (.server k) = none) → t.fault = true ∨ t.server.ended = true ∨
        (∃ w, t.server = .opening w ∧ ∀ c, (t.client c).writers = 0) ∨
        t.server = .read ∧ t.pipe.unread = [] ∧ ∃ c, (t.client c).writers = 1) ∧
      ((∀ a, (∀ p, a ≠ .kill p) → step t a = none) → t.fault = true ∨
        t.server.ended = true ∧
          (∀ c, (t.client c).ended = true ∨ t.client c = .opening t.rCounter) ∨
        (∃ w, t.server = .opening w) ∧ ∀ c, (t.client c).ended = true) := by
  have hreach : (system input).Reachable anyStep t :=
    h.trans (leads_of_run (fun _ _ _ => trivial) (run_of_only hrun))
  refine ⟨?_, fun hstuck => ?_, fun hstuck => ?_⟩
  · have hlower : ∀ u a v, True → ((system input).only ofServer).step u a = some v →
        True ∧ rank v < rank u := by
      intro u a v _ hstep
      obtain ⟨hserver, hstep⟩ := only_step.mp hstep
      exact ⟨trivial, rank_lt hstep hserver⟩
    exact run_length_le hlower trivial hrun
  · cases hfault : t.fault with
    | true => exact .inl rfl
    | false =>
      exact .inr ((counted hreach).server_waits fun k => (step_server hfault k).mp (hstuck k))
  · cases hfault : t.fault with
    | true => exact .inl rfl
    | false =>
      obtain ⟨log, hlog⟩ := hreach.exists_log event
      exact .inr ((counted hreach).ended (kept hlog)
        (fun k => (step_server hfault k).mp (hstuck _ (by simp)))
        fun c k => (step_client hfault c k).mp (hstuck _ (by simp)))

/-- A client that opens the FIFO when the server has closed it, and will not open it again. -/
def lateRun : List (Action Bool) :=
  [.server 0, .client true 0, .server 0, .kill (some true), .server 0, .server 0, .server 0,
    .client false 0]

def late : State Bool :=
  ((system fun _ => []).run (init fun _ => []) lateRun).get (by decide)

/-- The same behind the `unlink`. -/
def alone : State Bool := (((system fun _ => []).only ofServer).run late [.server 0]).get (by decide)

theorem alone_stuck (a : Action Bool) (ha : ∀ p, a ≠ .kill p) : step alone a = none := by
  cases a with
  | server k => rfl
  | serverFails => rfl
  | client c k => cases c <;> rfl
  | clientFails c => cases c <;> rfl
  | kill p => exact absurd rfl (ha p)

theorem who_waits_late : alone.server = .exit 0 ∧ alone.client false = .opening alone.rCounter ∧
    1 + rank alone ≤ rank late ∧
    ∀ c, (alone.client c).ended = true ∨ alone.client c = .opening alone.rCounter := by
  have hstart : (system fun _ => []).Reachable anyStep late := reachable_of_run _
  have hrun : ((system fun _ => []).only ofServer).run late [.server 0] = some alone :=
    (Option.some_get _).symm
  obtain ⟨hrank, -, hend⟩ := who_waits hstart hrun
  have hserver : alone.server = .exit 0 := by decide
  refine ⟨hserver, by decide, hrank, ?_⟩
  rcases hend alone_stuck with hfault | ⟨-, hall⟩ | ⟨⟨w, hopening⟩, -⟩
  · exact absurd hfault (by decide)
  · exact hall
  · rw [hserver] at hopening
    cases hopening

end Fifo
