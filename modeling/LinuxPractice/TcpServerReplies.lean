import LinuxPractice.TcpServer

/-!
# TcpServer answers every connection for itself

The descriptor in a task stands for one connection until the worker that runs
the task closes it, since nobody else has that descriptor. What happened to the
connection so far can be read off from where this worker stands.
-/
namespace TcpServer

open CppString Dictionary Sockets Threads Transition Transition.System

variable {W : Type} [Fintype W] {dict : Dict} {s u : State W} {log : List Event}

/-- The tasks that were accepted and are not closed. -/
def hands (s : State W) : Multiset Task := (s.link.toList : Multiset Task) + ThreadPool.held s.pool

/-- A step, and what it records. -/
inductive Step [DecidableEq W] (dict : Dict) (s : State W) :
    Action W → State W → Option Event → Prop
  | refuse (o : Accepted) (w : Finset W) (hlink : s.link = none)
      (hidle : s.pool.pusher () = .idle) : Step dict s (.start o w) s none
  | accept (o : Accepted) (w : Finset W) (hlink : s.link = none) (hidle : s.pool.pusher () = .idle)
      (hsock : 0 ≤ o.sock) (hfree : s.kernel.files o.sock = none) :
      Step dict s (.start o w) { s with
        kernel := ⟨Function.update s.kernel.files o.sock (some (.conn s.kernel.accepted)),
          s.kernel.accepted + 1⟩
        link := some ⟨o.sock, o.clientip, o.clientport⟩ } (some (s.kernel.accepted, .accepted))
  | push (o : Accepted) (w : Finset W) (t : Task) (pool : ThreadPool.State Unit W Task)
      (hlink : s.link = some t) (hpool : ThreadPool.step s.pool (.push () t w) = some pool) :
      Step dict s (.start o w) { s with pool := pool, link := none } none
  | pool (a : Action W) (pool : ThreadPool.State Unit W Task)
      (hbegun : ThreadPool.begun s.pool a.inner = 0)
      (hout : ∀ c t, s.pool.worker c = .run t → a.inner ≠ .work c)
      (hlink : ∀ t, s.link = some t → pool.pusher = s.pool.pusher)
      (hpool : ThreadPool.step s.pool a.inner = some pool) :
      Step dict s a { s with pool := pool } none
  | run (c : W) (t : Task) (k : RunPc) (o : Outcome) (d : Did) (hrun : s.pool.worker c = .run t)
      (hopen : s.serving c ≠ .close) (hdid : did (s.serving c) o = some d)
      (hgot : ∀ data, d = .got data → k = .write (translation dict (cstring data)))
      (hdone : (∀ data, d ≠ .got data) → k = .close) :
      Step dict s (.work c o) { s with serving := Function.update s.serving c k }
        (some (s.kernel.conn t.sockfd, d))
  | close (c : W) (o : Outcome) (t : Task) (pool : ThreadPool.State Unit W Task)
      (hrun : s.pool.worker c = .run t) (hpc : s.serving c = .close)
      (hpool : ThreadPool.step s.pool (.work c) = some pool) :
      Step dict s (.work c o) { s with
        kernel := s.kernel.close t.sockfd
        pool := pool
        serving := Function.update s.serving c .read }
        (some (s.kernel.conn t.sockfd, .closed))
  | fault (c : W) (o : Outcome) (e : Ended) :
      Step dict s (.work c o) { s with ended := some e } none

omit [Fintype W] in
theorem not_work_of_push {c : W} {p : Unit} {t : Task} {w : Finset W} :
    (ThreadPool.Action.push p t w : ThreadPool.Action Unit W Task) ≠ .work c := by
  intro h
  cases h

variable [DecidableEq W]

theorem stepStart_cases {o : Accepted} {w : Finset W} (h : stepStart s o w = some u) :
    Step dict s (.start o w) u (event s (.start o w)) := by
  unfold stepStart at h
  cases hlink : s.link with
  | some t =>
    simp only [hlink, stepPool, Option.map_map, Option.map_eq_some_iff] at h
    obtain ⟨pool, hpool, rfl⟩ := h
    simp only [event, hlink]
    exact .push o w t pool hlink hpool
  | none =>
    cases hpc : s.pool.pusher () with
    | idle =>
      simp only [hlink, hpc, TcpServer.accept, Option.map_eq_some_iff] at h
      obtain ⟨kernel, hk, rfl⟩ := h
      obtain ⟨hneg, rfl⟩ | ⟨hsock, hfree, rfl⟩ := Kernel.accept_cases hk
      · simp only [event, hlink, hpc, hneg, if_true]
        exact .refuse o w hlink hpc
      · simp only [event, hlink, hpc, Int.not_lt.mpr hsock, if_false]
        exact .accept o w hlink hpc hsock hfree
    | push | wakeUp | unlock =>
      simp only [hlink, hpc] at h
      simp only [stepPool, Option.map_eq_some_iff] at h
      obtain ⟨pool, hpool, rfl⟩ := h
      have hevent : event s (.start o w) = none := by simp only [event, hlink, hpc]
      rw [hevent]
      exact .pool (.start o w) pool (by simp [Action.inner, ThreadPool.begun, hpc])
        (fun _ _ _ => not_work_of_push) (by simp [hlink]) hpool

theorem stepRun_cases {c : W} {t : Task} {o : Outcome} (hrun : s.pool.worker c = .run t)
    (h : stepRun dict s c t o = some u) :
    Step dict s (.work c o) u (event s (.work c o)) := by
  unfold stepRun at h
  simp only [event, hrun]
  cases hpc : s.serving c with
  | read =>
    simp only [hpc] at h
    cases hdata : o.data with
    | none =>
      simp only [hdata] at h
      cases h
      have hdid : did .read o = some .failed := by simp [did, hdata]
      rw [hdid]
      exact .run c t .close o .failed hrun (by simp [hpc]) (hpc ▸ hdid) (by simp) fun _ => rfl
    | some data =>
      simp only [hdata] at h
      split at h
      · rename_i hnil
        cases h
        simp only [did, hdata, hnil, ne_eq, not_true, false_and, if_false, Option.map_none]
        exact .fault c o .format
      · rename_i hne
        split at h
        · rename_i hlt
          cases h
          have hdid : did .read o = some (.got (data.take size)) := by
            simp only [did, hdata, ne_eq, hne, not_false_eq_true, hlt, and_self, if_true]
          rw [hdid]
          refine .run c t _ o _ hrun (by simp [hpc]) (hpc ▸ hdid) ?_ ?_
          · intro d hd
            cases hd
            rfl
          · intro hno
            exact absurd rfl (hno _)
        · rename_i hlt
          cases h
          simp only [did, hdata, ne_eq, hlt, and_false, if_false, Option.map_none]
          exact .fault c o .overrun
  | write text =>
    simp only [hpc] at h
    split at h
    · rename_i hgone
      cases h
      simp only [did, hgone, if_true, Option.map_none]
      exact .fault c o .sigpipe
    · rename_i hgone
      cases h
      have hdid : did (.write text) o = some (.sent text) := by simp [did, hgone]
      rw [hdid]
      exact .run c t .close o _ hrun (by simp [hpc]) (hpc ▸ hdid) (by simp) fun _ => rfl
  | close =>
    simp only [hpc, stepPool, Option.map_map, Option.map_eq_some_iff] at h
    obtain ⟨pool, hpool, rfl⟩ := h
    exact .close c o t pool hrun hpc hpool

theorem step_cases {a : Action W} (h : step dict s a = some u) :
    s.ended = none ∧ Step dict s a u (event s a) := by
  unfold step at h
  split at h
  · cases h
  · rename_i hended
    refine ⟨by simpa using hended, ?_⟩
    cases a with
    | start o w => exact stepStart_cases h
    | work c o =>
      simp only [stepWork] at h
      cases hk : s.pool.worker c with
      | run t =>
        simp only [hk] at h
        exact stepRun_cases hk h
      | lock | check | waiting | woken | front | pop | unlock =>
        simp only [hk] at h
        simp only [stepPool, Option.map_eq_some_iff] at h
        obtain ⟨pool, hpool, rfl⟩ := h
        simp only [event, hk]
        refine .pool (.work c o) pool rfl ?_ ?_ hpool
        · intro d t hd he
          cases he
          rw [hk] at hd
          cases hd
        · exact fun _ _ => ThreadPool.pusher_step hpool (by simp)
    | spurious c =>
      simp only [stepPool, Option.map_eq_some_iff] at h
      obtain ⟨pool, hpool, rfl⟩ := h
      refine .pool (.spurious c) pool rfl (by simp [Action.inner]) ?_ hpool
      exact fun _ _ => ThreadPool.pusher_step hpool (by simp)

/-- A connection from its acceptance to its end. -/
inductive Life (dict : Dict) : List Did → Prop
  | answered (data : Bytes) (hne : data ≠ []) (hlt : data.length < size) :
      Life dict [.accepted, .got data, .sent (translation dict (cstring data)), .closed]
  | failed : Life dict [.accepted, .failed, .closed]

/-- What has happened to the connection whose worker stands at `k`. -/
def Reached (dict : Dict) : RunPc → List Did → Prop
  | .read, h => h = [.accepted]
  | .write text, h => ∃ data, data ≠ [] ∧ data.length < size ∧
      text = translation dict (cstring data) ∧ h = [.accepted, .got data]
  | .close, h => Life dict (h ++ [.closed])

theorem Reached.unfinished {k : RunPc} {h : List Did} (hk : Reached dict k h) :
    ∃ life, Life dict life ∧ h <+: life ∧ h ≠ life := by
  cases k with
  | read =>
    obtain rfl : h = [.accepted] := hk
    exact ⟨_, .failed, by simp, by simp⟩
  | write text =>
    obtain ⟨data, hne, hlt, -, rfl⟩ := hk
    exact ⟨_, .answered data hne hlt, by simp, by simp⟩
  | close => exact ⟨h ++ [Did.closed], hk, List.prefix_append _ _, by simp⟩

/-- What a worker does brings its connection from one stage to the next. -/
theorem Reached.next {k k' : RunPc} {h : List Did} {o : Outcome} {d : Did} (hk : Reached dict k h)
    (hopen : k ≠ .close) (hdid : did k o = some d)
    (hgot : ∀ data, d = .got data → k' = .write (translation dict (cstring data)))
    (hdone : (∀ data, d ≠ .got data) → k' = .close) : Reached dict k' (h ++ [d]) := by
  cases k with
  | read =>
    obtain rfl : h = [.accepted] := hk
    simp only [did] at hdid
    split at hdid
    · cases hdid
      rw [hdone (by simp)]
      exact .failed
    · split at hdid <;> cases hdid
      rename_i hread
      rw [hgot _ rfl]
      exact ⟨_, hread.1, hread.2, rfl, rfl⟩
  | write text =>
    obtain ⟨data, hne, hlt, rfl, rfl⟩ := hk
    simp only [did] at hdid
    split at hdid <;> cases hdid
    rw [hdone (by simp)]
    exact .answered data hne hlt
  | close => exact absurd rfl hopen

/-- Every connection is where its history says, and every open one is in one pair of hands. -/
structure Serves (dict : Dict) (s : State W) (log : List Event) : Prop where
  locked : ThreadPool.Locked s.pool
  busy : ∀ t, s.link = some t → s.pool.pusher () = .idle
  numbered : s.kernel.Numbered
  held : s.kernel.Held ((hands s).map Task.sockfd)
  known : ∀ e ∈ log, e.1 ≠ none
  running : ∀ c t id, s.pool.worker c = .run t → s.kernel.conn t.sockfd = some id →
    Reached dict (s.serving c) (history log id)
  waiting : ∀ fd id, s.kernel.conn fd = some id →
    (∀ c t, s.pool.worker c = .run t → t.sockfd ≠ fd) → history log id = [.accepted]
  outside : ∀ c, (∀ t, s.pool.worker c ≠ .run t) → s.serving c = .read
  closed : ∀ id < s.kernel.accepted, (∀ fd, s.kernel.conn fd ≠ some id) →
    Life dict (history log id)
  later : ∀ id, s.kernel.accepted ≤ id → history log id = []
  count : log.countP (·.2 = .closed) + (hands s).card = s.kernel.accepted

omit [DecidableEq W] in
theorem serves_boot (dict : Dict) (b : Boot) : Serves dict (boot W b) [] where
  locked := ThreadPool.locked_init
  busy := by simp [boot]
  numbered := b.numbered
  held := by
    have hnone : hands (boot W b) = 0 := by
      simp [hands, boot, ThreadPool.held, ThreadPool.init, ThreadPool.PushPc.carried,
        ThreadPool.WorkPc.carried]
    rw [hnone]
    exact b.held
  known := by simp
  running := by
    intro c t id hc
    cases hc
  waiting := by
    intro fd id hid
    exact absurd (Kernel.conn_eq_some_iff.mp hid) (b.fresh fd id)
  outside := fun _ _ => rfl
  closed := by simp [boot, Boot.kernel]
  later := fun _ _ => rfl
  count := by
    simp [hands, boot, Boot.kernel, ThreadPool.held, ThreadPool.init, ThreadPool.PushPc.carried,
      ThreadPool.WorkPc.carried]

variable {c d : W} {t v : Task}

/-- The task of a worker is for an open connection, and no other worker has its descriptor. -/
theorem Serves.mine (hi : Serves dict s log) (hc : (s.pool.worker c).pending = [t]) :
    (∃ id, s.kernel.conn t.sockfd = some id) ∧
      ∀ d v, d ≠ c → (s.pool.worker d).pending = [v] → v.sockfd ≠ t.sockfd := by
  obtain ⟨rest, hrest, hothers⟩ := ThreadPool.exists_rest hc
  have hheld := hi.held
  rw [hands, hrest, Multiset.add_cons, Multiset.map_cons] at hheld
  refine ⟨(hheld.mem _).mp (Multiset.mem_cons_self _ _), ?_⟩
  intro d v hd hv he
  refine (Multiset.nodup_cons.mp hheld.nodup).1 ?_
  rw [← he]
  exact Multiset.mem_map_of_mem _ (Multiset.mem_add.mpr (.inr (hothers d v hd hv)))

theorem Serves.mine_run (hi : Serves dict s log) (hc : s.pool.worker c = .run t) :
    (∃ id, s.kernel.conn t.sockfd = some id) ∧
      ∀ d v, d ≠ c → s.pool.worker d = .run v → v.sockfd ≠ t.sockfd := by
  obtain ⟨hid, hothers⟩ := hi.mine (c := c) (t := t) (by simp [hc])
  exact ⟨hid, fun d v hd hv => hothers d v hd (by simp [hv])⟩

/-- The pool moves on, and nobody leaves `Task::run`. -/
theorem Serves.pool {a : ThreadPool.Action Unit W Task} {pool : ThreadPool.State Unit W Task}
    {link : Option Task} (hi : Serves dict s log) (hpool : ThreadPool.step s.pool a = some pool)
    (hout : ∀ c t, s.pool.worker c = .run t → a ≠ .work c)
    (hbusy : ∀ t, link = some t → pool.pusher () = .idle)
    (hhands : hands { s with pool := pool, link := link } = hands s) :
    Serves dict { s with pool := pool, link := link } log where
  locked := hi.locked.step hpool
  busy := hbusy
  numbered := hi.numbered
  held := by
    rw [hhands]
    exact hi.held
  known := hi.known
  running := by
    intro c t id hc hid
    rcases ThreadPool.run_of_step hpool hc with hrun | hunlock
    · exact hi.running c t id hrun hid
    · -- the worker has just got hold of the task
      have hread : s.serving c = .read := hi.outside c (by simp [hunlock])
      simp only [hread]
      apply hi.waiting _ _ hid
      intro d v hd he
      have hdc : d ≠ c := by
        rintro rfl
        simp [hunlock] at hd
      exact (hi.mine (c := c) (by simp [hunlock])).2 d v hdc (by simp [hd]) he
  waiting := by
    intro fd id hid hnone
    apply hi.waiting fd id hid
    intro c t hc
    exact hnone c t (ThreadPool.run_step hpool hc (hout c t hc))
  outside := by
    intro c hc
    apply hi.outside c
    intro t ht
    exact hc t (ThreadPool.run_step hpool ht (hout c t ht))
  closed := hi.closed
  later := hi.later
  count := by
    rw [hhands]
    exact hi.count

theorem history_other {id x : Nat} (d : Did) (hx : x ≠ id) :
    history (log ++ [(some id, d)]) x = history log x := by
  simp [Ne.symm hx]

theorem did_ne_closed {k : RunPc} {o : Outcome} {d : Did} (hopen : k ≠ .close)
    (hdid : did k o = some d) : d ≠ .closed := by
  rintro rfl
  cases k with
  | read =>
    simp only [did] at hdid
    split at hdid
    · cases hdid
    · split at hdid <;> cases hdid
  | write text =>
    simp only [did] at hdid
    split at hdid <;> cases hdid
  | close => exact hopen rfl

/-- A worker goes on with its connection. -/
theorem Serves.run {k : RunPc} {o : Outcome} {e : Did} (hi : Serves dict s log)
    (hrun : s.pool.worker c = .run t) (hopen : s.serving c ≠ .close)
    (hdid : did (s.serving c) o = some e)
    (hgot : ∀ data, e = .got data → k = .write (translation dict (cstring data)))
    (hdone : (∀ data, e ≠ .got data) → k = .close) :
    Serves dict { s with serving := Function.update s.serving c k }
      (log ++ [(s.kernel.conn t.sockfd, e)]) := by
  obtain ⟨⟨id, hid⟩, hmine⟩ := hi.mine_run hrun
  have hother : ∀ fd x, fd ≠ t.sockfd → s.kernel.conn fd = some x → x ≠ id := by
    rintro fd x hfd hx rfl
    exact hfd (hi.numbered.conn_inj hx hid)
  rw [hid]
  refine ⟨hi.locked, hi.busy, hi.numbered, hi.held, ?_, ?_, ?_, ?_, ?_, ?_, ?_⟩
  · intro x hx
    rcases List.mem_append.mp hx with hx | hx
    · exact hi.known x hx
    · simp [List.mem_singleton.mp hx]
  · intro d v x hd hx
    by_cases hdc : d = c
    · subst hdc
      rw [hrun] at hd
      cases hd
      rw [hid] at hx
      cases hx
      simpa using (hi.running d t id hrun hid).next hopen hdid hgot hdone
    · have hne := hother v.sockfd x (hmine d v hdc hd) hx
      rw [history_other e hne]
      simpa [hdc] using hi.running d v x hd hx
  · intro fd x hx hnone
    have hne := hother fd x (Ne.symm (hnone c t hrun)) hx
    rw [history_other e hne]
    exact hi.waiting fd x hx hnone
  · intro d hd
    have hdc : d ≠ c := by
      rintro rfl
      exact hd t hrun
    simpa [hdc] using hi.outside d hd
  · intro x hx hnone
    have hne : x ≠ id := by
      rintro rfl
      exact hnone _ hid
    rw [history_other e hne]
    exact hi.closed x hx hnone
  · intro x hx
    have hne : x ≠ id := by
      rintro rfl
      exact absurd (hi.numbered.conn_lt hid) (Nat.not_lt.mpr hx)
    rw [history_other e hne]
    exact hi.later x hx
  · have hsame : (log ++ [(some id, e)]).countP (·.2 = .closed) = log.countP (·.2 = .closed) := by
      simp [did_ne_closed hopen hdid]
    rw [hsame]
    exact hi.count

/-- A worker closes its connection and is done with it. -/
theorem Serves.close {pool : ThreadPool.State Unit W Task} (hi : Serves dict s log)
    (hrun : s.pool.worker c = .run t) (hpc : s.serving c = .close)
    (hpool : ThreadPool.step s.pool (.work c) = some pool) :
    Serves dict { s with
      kernel := s.kernel.close t.sockfd
      pool := pool
      serving := Function.update s.serving c .read }
      (log ++ [(s.kernel.conn t.sockfd, .closed)]) := by
  obtain ⟨⟨id, hid⟩, hmine⟩ := hi.mine_run hrun
  have hother : ∀ fd x, fd ≠ t.sockfd → s.kernel.conn fd = some x → x ≠ id := by
    rintro fd x hfd hx rfl
    exact hfd (hi.numbered.conn_inj hx hid)
  have hconn : ∀ fd x, (s.kernel.close t.sockfd).conn fd = some x →
      fd ≠ t.sockfd ∧ s.kernel.conn fd = some x := by
    intro fd x hx
    rw [Kernel.conn_close] at hx
    split at hx
    · cases hx
    · exact ⟨‹_›, hx⟩
  have hheld := ThreadPool.held_step hi.locked hpool
  have hlocked := hi.locked.step hpool
  obtain rfl := ThreadPool.step_run hrun hpool
  simp only [ThreadPool.done, hrun, ThreadPool.begun, add_zero] at hheld
  have hhands : hands s = t ::ₘ hands { s with
      kernel := s.kernel.close t.sockfd
      pool := { s.pool with worker := Function.update s.pool.worker c .lock }
      serving := Function.update s.serving c .read } := by
    simp only [hands, ← hheld, ← Multiset.singleton_add]
    abel
  have hrunning : ∀ d v, Function.update s.pool.worker c .lock d = .run v →
      d ≠ c ∧ s.pool.worker d = .run v := by
    intro d v hd
    by_cases hdc : d = c
    · simp [hdc] at hd
    · exact ⟨hdc, by simpa [hdc] using hd⟩
  rw [hid]
  refine ⟨hlocked, hi.busy, hi.numbered.close _, ?_, ?_, ?_, ?_, ?_, ?_, ?_, ?_⟩
  · apply Kernel.Held.close
    rw [← Multiset.map_cons, ← hhands]
    exact hi.held
  · intro x hx
    rcases List.mem_append.mp hx with hx | hx
    · exact hi.known x hx
    · simp [List.mem_singleton.mp hx]
  · intro d v x hd hx
    obtain ⟨hdc, hd⟩ := hrunning d v hd
    obtain ⟨hfd, hx⟩ := hconn _ x hx
    rw [history_other _ (hother _ x hfd hx)]
    simpa [hdc] using hi.running d v x hd hx
  · intro fd x hx hnone
    obtain ⟨hfd, hx⟩ := hconn _ x hx
    rw [history_other _ (hother _ x hfd hx)]
    apply hi.waiting fd x hx
    intro d v hd
    by_cases hdc : d = c
    · subst hdc
      rw [hrun] at hd
      cases hd
      exact Ne.symm hfd
    · exact hnone d v (by simpa [hdc] using hd)
  · intro d hd
    by_cases hdc : d = c
    · simp [hdc]
    · simpa [hdc] using hi.outside d (by simpa [hdc] using hd)
  · intro x hx hnone
    by_cases he : x = id
    · subst he
      have hreached := hi.running c t x hrun hid
      rw [hpc] at hreached
      simpa [Reached] using hreached
    · rw [history_other _ he]
      apply hi.closed x hx
      intro fd hfd
      refine hnone fd ?_
      rw [Kernel.conn_close, if_neg]
      · exact hfd
      · rintro rfl
        rw [hid] at hfd
        exact he (Option.some.inj hfd).symm
  · intro x hx
    have hne : x ≠ id := by
      rintro rfl
      exact absurd (hi.numbered.conn_lt hid) (Nat.not_lt.mpr hx)
    rw [history_other _ hne]
    exact hi.later x hx
  · have hcount := hi.count
    rw [hhands, Multiset.card_cons] at hcount
    have hmore : (log ++ [(some id, Did.closed)]).countP (·.2 = .closed) =
        log.countP (·.2 = .closed) + 1 := by
      simp
    rw [hmore, Nat.add_assoc, Nat.add_comm 1]
    exact hcount

/-- A connection comes in. -/
theorem Serves.accept {o : Accepted} (hi : Serves dict s log) (hlink : s.link = none)
    (hidle : s.pool.pusher () = .idle) (hfree : s.kernel.files o.sock = none) :
    Serves dict { s with
      kernel := ⟨Function.update s.kernel.files o.sock (some (.conn s.kernel.accepted)),
        s.kernel.accepted + 1⟩
      link := some ⟨o.sock, o.clientip, o.clientport⟩ }
      (log ++ [(some s.kernel.accepted, .accepted)]) := by
  have hconn : ∀ fd x, Kernel.conn ⟨Function.update s.kernel.files o.sock
      (some (.conn s.kernel.accepted)), s.kernel.accepted + 1⟩ fd = some x →
      fd = o.sock ∧ x = s.kernel.accepted ∨
        fd ≠ o.sock ∧ s.kernel.conn fd = some x ∧ x ≠ s.kernel.accepted := by
    intro fd x hx
    by_cases hfd : fd = o.sock
    · left
      simp only [Kernel.conn, hfd, Function.update_self, Option.some.injEq] at hx
      exact ⟨hfd, hx.symm⟩
    · right
      have hold : s.kernel.conn fd = some x := by simpa [Kernel.conn, hfd] using hx
      exact ⟨hfd, hold, Nat.ne_of_lt (hi.numbered.conn_lt hold)⟩
  have hhands : hands { s with
      kernel := ⟨Function.update s.kernel.files o.sock (some (.conn s.kernel.accepted)),
        s.kernel.accepted + 1⟩
      link := some ⟨o.sock, o.clientip, o.clientport⟩ } =
        ⟨o.sock, o.clientip, o.clientport⟩ ::ₘ hands s := by
    simp [hands, hlink]
  refine ⟨hi.locked, fun _ _ => hidle, hi.numbered.accepted _, ?_, ?_, ?_, ?_, hi.outside, ?_, ?_,
    ?_⟩
  · rw [hhands, Multiset.map_cons]
    exact hi.held.accepted hfree
  · intro x hx
    rcases List.mem_append.mp hx with hx | hx
    · exact hi.known x hx
    · simp [List.mem_singleton.mp hx]
  · intro c t x hc hx
    rcases hconn _ x hx with ⟨hsock, -⟩ | ⟨-, hx, hne⟩
    · obtain ⟨⟨id, hid⟩, -⟩ := hi.mine_run hc
      rw [hsock] at hid
      simp [Kernel.conn, hfree] at hid
    · rw [history_other _ hne]
      exact hi.running c t x hc hx
  · intro fd x hx hnone
    rcases hconn _ x hx with ⟨-, rfl⟩ | ⟨-, hx, hne⟩
    · simp [hi.later s.kernel.accepted (le_refl _)]
    · rw [history_other _ hne]
      exact hi.waiting fd x hx hnone
  · intro x hx hnone
    have hsock : Kernel.conn ⟨Function.update s.kernel.files o.sock
        (some (.conn s.kernel.accepted)), s.kernel.accepted + 1⟩ o.sock =
          some s.kernel.accepted := by
      simp [Kernel.conn]
    have hne : x ≠ s.kernel.accepted := by
      rintro rfl
      exact hnone _ hsock
    rw [history_other _ hne]
    refine hi.closed x (by simp only at hx; omega) ?_
    intro fd hfd
    refine hnone fd ?_
    have hold : fd ≠ o.sock := by
      rintro rfl
      simp [Kernel.conn, hfree] at hfd
    simpa [Kernel.conn, hold] using hfd
  · intro x hx
    simp only at hx
    rw [history_other _ (by omega)]
    exact hi.later x (by omega)
  · rw [hhands, Multiset.card_cons, ← Nat.add_assoc, hi.count.symm]
    simp [Nat.add_assoc]

theorem Serves.step {a : Action W} {e : Option Event} (hi : Serves dict s log)
    (h : Step dict s a u e) : Serves dict u (log ++ e.toList) := by
  cases h with
  | refuse => simpa using hi
  | accept o w hlink hidle hsock hfree => exact hi.accept hlink hidle hfree
  | push o w t pool hlink hpool =>
    rw [Option.toList_none, List.append_nil]
    refine hi.pool hpool (fun _ _ _ => not_work_of_push) (by simp) ?_
    have hheld := ThreadPool.held_step hi.locked hpool
    simp only [ThreadPool.done, ThreadPool.begun, hi.busy t hlink, add_zero] at hheld
    simp only [hands, hlink, hheld, Option.toList_none, Option.toList_some, Multiset.coe_nil,
      Multiset.coe_singleton, zero_add]
    exact add_comm _ _
  | pool _ pool hbegun hout hlink hpool =>
    rw [Option.toList_none, List.append_nil]
    refine hi.pool hpool hout ?_ ?_
    · intro t ht
      rw [hlink t ht]
      exact hi.busy t ht
    · have hheld := ThreadPool.held_step hi.locked hpool
      rw [ThreadPool.done_eq_zero hout, hbegun, add_zero, add_zero] at hheld
      simp only [hands, hheld]
  | run c t k o d hrun hopen hdid hgot hdone => exact hi.run hrun hopen hdid hgot hdone
  | close c o t pool hrun hpc hpool => exact hi.close hrun hpc hpool
  | fault c o e =>
    rw [Option.toList_none, List.append_nil]
    exact { hi with }

theorem serves {b : Boot}
    (h : ((system W dict b).logged event).Reachable anyStep (s, log)) : Serves dict s log :=
  logged_invariant h (serves_boot dict b) fun _ _ _ _ hi hs => hi.step (step_cases hs).2

/-- Any number of workers, any interleaving, any reuse of descriptors: a connection is read once,
answered with the translation of what was read from it, and closed once. -/
theorem answered_once {b : Boot}
    (h : ((system W dict b).logged event).Reachable anyStep (s, log)) :
    (∀ e ∈ log, e.1 ≠ none) ∧ (∀ id, s.kernel.accepted ≤ id → history log id = []) ∧
      ∀ id < s.kernel.accepted, ∃ life, Life dict life ∧ history log id <+: life ∧
        (history log id = life ↔ ∀ fd, s.kernel.conn fd ≠ some id) := by
  have hi := serves h
  refine ⟨hi.known, hi.later, ?_⟩
  intro id hid
  by_cases hopen : ∃ fd, s.kernel.conn fd = some id
  · obtain ⟨fd, hfd⟩ := hopen
    have hreached : ∃ k, Reached dict k (history log id) := by
      by_cases hrun : ∃ c t, s.pool.worker c = .run t ∧ t.sockfd = fd
      · obtain ⟨c, t, hc, rfl⟩ := hrun
        exact ⟨_, hi.running c t id hc hfd⟩
      · exact ⟨.read, hi.waiting fd id hfd fun c t hc he => hrun ⟨c, t, hc, he⟩⟩
    obtain ⟨k, hk⟩ := hreached
    obtain ⟨life, hlife, hpre, hne⟩ := hk.unfinished
    exact ⟨life, hlife, hpre, iff_of_false hne fun hall => hall fd hfd⟩
  · have hnone : ∀ fd, s.kernel.conn fd ≠ some id := fun fd hfd => hopen ⟨fd, hfd⟩
    exact ⟨_, hi.closed id hid hnone, List.prefix_rfl, iff_of_true rfl hnone⟩

/-- "hi" is "HI". -/
def oneWord : Dict := [([104, 105], [72, 73])]

/-- A client that sends "hi" is accepted on descriptor 4 and served by the only worker. -/
def oneClient : List (Action Unit) :=
  List.replicate 5 (.start ⟨4, [], 1000⟩ ∅) ++ List.replicate 8 (.work () ⟨some [104, 105], false⟩)

/-- Two clients, one after the other, on the same descriptor. -/
def twoClientsEnd : State Unit × List Event :=
  (((system Unit oneWord standard).logged event).run (boot Unit standard, [])
    (oneClient ++ oneClient)).get (by decide)

theorem twoClientsEnd_reachable :
    ((system Unit oneWord standard).logged event).Reachable anyStep twoClientsEnd :=
  reachable_of_run _

theorem answered_once_two :
    history twoClientsEnd.2 1 = [.accepted, .got [104, 105], .sent [72, 73], .closed] ∧
      ∃ life, Life oneWord life ∧ history twoClientsEnd.2 1 <+: life ∧
        (history twoClientsEnd.2 1 = life ↔ ∀ fd, twoClientsEnd.1.kernel.conn fd ≠ some 1) :=
  ⟨by decide, (answered_once twoClientsEnd_reachable).2.2 1 (by decide)⟩

/-- No connection leaks and no two workers share one: what was accepted is closed or in exactly
one pair of hands. -/
theorem in_one_hand {b : Boot}
    (h : ((system W dict b).logged event).Reachable anyStep (s, log)) :
    s.kernel.Held ((hands s).map Task.sockfd) ∧
      log.countP (·.2 = .closed) + (hands s).card = s.kernel.accepted := by
  have hi := serves h
  exact ⟨hi.held, hi.count⟩

theorem in_one_hand_two : twoClientsEnd.2.countP (·.2 = .closed) = 2 ∧
    twoClientsEnd.2.countP (·.2 = .closed) + (hands twoClientsEnd.1).card =
      twoClientsEnd.1.kernel.accepted :=
  ⟨by decide, (in_one_hand twoClientsEnd_reachable).2⟩

end TcpServer
