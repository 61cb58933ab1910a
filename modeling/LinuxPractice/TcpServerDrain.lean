import LinuxPractice.TcpServerReplies
import LinuxPractice.ThreadPoolProgress

/-!
# TcpServer serves whoever it has accepted

With nobody new at the listening socket, every step brings the server closer to
the end of its work, and it does not stop before every connection is closed.
-/
namespace TcpServer

open CppString Dictionary Sockets Threads Transition Transition.System

variable {W : Type} [Fintype W] {dict : Dict} {s u : State W} {log : List Event}

/-- Anything but a call of `accept` or a wake-up for no reason. -/
def quiet (s : State W) : Action W → Bool
  | .start _ _ =>
    match s.link, s.pool.pusher () with
    | none, .idle => false
    | _, _ => true
  | .work _ _ => true
  | .spurious _ => false

def workRank : ThreadPool.WorkPc Task → RunPc → Nat
  | .waiting, _ | .pop _, _ => 0
  | .front, _ => 1
  | .check, _ => 2
  | .lock, _ | .woken, _ => 3
  | .run _, .close => 4
  | .run _, .write _ => 5
  | .run _, .read => 6
  | .unlock _, _ => 7

/-- A signal may wake all `n` workers. -/
def pushRank (n : Nat) : ThreadPool.PushPc Task → Nat
  | .idle => 0
  | .unlock => 1
  | .wakeUp => 3 * n + 2
  | .push _ => 3 * n + 11

def poolRank (pool : ThreadPool.State Unit W Task) (serving : W → RunPc) : Nat :=
  pushRank (Fintype.card W) (pool.pusher ()) + 8 * pool.tasks.length +
    ∑ c, workRank (pool.worker c) (serving c)

def linkRank (n : Nat) (link : Option Task) : Nat :=
  match link with
  | none => 0
  | some _ => 3 * n + 12

/-- The steps that are left, at most. -/
def rank (s : State W) : Nat :=
  (if s.ended.isSome then 0 else 1) + linkRank (Fintype.card W) s.link + poolRank s.pool s.serving

theorem workRank_wake (k : ThreadPool.WorkPc Task) (r : RunPc) :
    workRank k.wake r ≤ workRank k r + 3 := by
  cases k <;> simp [workRank]

variable [DecidableEq W] {c : W} {pool pool' : ThreadPool.State Unit W Task}

theorem sum_workRank {worker : W → ThreadPool.WorkPc Task} {k : ThreadPool.WorkPc Task}
    (h : worker c = k) (serving : W → RunPc) (k' : ThreadPool.WorkPc Task) :
    ∑ d, workRank (Function.update worker c k' d) (serving d) + workRank k (serving c) =
      ∑ d, workRank (worker d) (serving d) + workRank k' (serving c) := by
  subst h
  have hsum := sum_eq_of_ne (t := c)
    (f := fun d => workRank (Function.update worker c k' d) (serving d))
    (g := fun d => workRank (worker d) (serving d)) fun d hd => by simp [hd]
  simpa using hsum

omit [Fintype W] [DecidableEq W] in
theorem ne_of_begun {p : Unit} {t : Task} {w : Finset W}
    (h : ThreadPool.begun pool (.push p t w) = 0) : pool.pusher p ≠ .idle := by
  intro hidle
  simp [ThreadPool.begun, hidle] at h

/-- The pool gets closer to its end while nobody leaves `Task::run`. -/
theorem poolRank_step (serving : W → RunPc) {a : ThreadPool.Action Unit W Task}
    (hi : ThreadPool.Locked pool) (h : ThreadPool.step pool a = some pool')
    (hspurious : ∀ c, a ≠ .spurious c) (hbegun : ThreadPool.begun pool a = 0)
    (hout : ∀ c t, pool.worker c = .run t → a ≠ .work c) :
    poolRank pool' serving < poolRank pool serving := by
  rcases ThreadPool.step_cases h with ⟨p, t, w, rfl, hp⟩ | ⟨c, rfl, hc⟩ | ⟨c, rfl, -⟩
  · cases hp with
    | lock v hpc hfree => exact absurd hpc (ne_of_begun hbegun)
    | push v hpc =>
      simp only [poolRank, hpc, Function.update_self, pushRank, List.length_append,
        List.length_singleton]
      omega
    | wakeUp w hpc hw =>
      have hwoken : ∑ c, workRank (wakeAll ThreadPool.WorkPc.wake w pool.worker c) (serving c) ≤
          ∑ c, (workRank (pool.worker c) (serving c) + 3) := by
        apply Finset.sum_le_sum
        intro c _
        unfold wakeAll
        split
        · exact workRank_wake _ _
        · omega
      rw [Finset.sum_add_distrib, Finset.sum_const, Finset.card_univ, smul_eq_mul] at hwoken
      simp only [poolRank, hpc, Function.update_self, pushRank]
      omega
    | unlock hpc =>
      simp only [poolRank, hpc, Function.update_self, pushRank]
      omega
  · cases hc with
    | lock hpc hfree =>
      have hthree : workRank (pool.worker c) (serving c) = 3 := by
        cases hpc with
        | inl hpc => rw [hpc]; rfl
        | inr hpc => rw [hpc]; rfl
      have hsum := sum_workRank (rfl : pool.worker c = _) serving .check
      rw [hthree] at hsum
      have htwo : workRank .check (serving c) = 2 := rfl
      simp only [poolRank]
      omega
    | sleep hpc hempty =>
      have hsum : _ + 2 = _ + 0 := sum_workRank hpc serving .waiting
      simp only [poolRank]
      omega
    | pass hpc htask =>
      have hsum : _ + 2 = _ + 1 := sum_workRank hpc serving .front
      simp only [poolRank]
      omega
    | front t rest hpc hq =>
      have hsum : _ + 1 = _ + 0 := sum_workRank hpc serving (.pop t)
      simp only [poolRank]
      omega
    | pop t first rest hpc hq =>
      have hsum : _ + 0 = _ + 7 := sum_workRank hpc serving (.unlock t)
      simp only [poolRank, hq, List.length_cons]
      omega
    | undefine hpc hq => exact absurd hq ((hi.front c).1 hpc)
    | unlock t hpc =>
      have hsum : _ + 7 = _ + workRank (.run t) (serving c) := sum_workRank hpc serving (.run t)
      have hrun : workRank (.run t) (serving c) ≤ 6 := by
        cases hs : serving c <;> simp [workRank]
      simp only [poolRank]
      omega
    | run t hpc => exact absurd rfl (hout c t hpc)
  · exact absurd rfl (hspurious c)

/-- What a worker does to a connection gets it closer to the end. -/
theorem workRank_run {t : Task} {k k' : RunPc} {o : Outcome} {d : Did} (hopen : k ≠ .close)
    (hdid : did k o = some d) (hgot : ∀ data, d = .got data → ∃ text, k' = .write text)
    (hdone : (∀ data, d ≠ .got data) → k' = .close) :
    workRank (.run t) k' < workRank (.run t) k := by
  cases k with
  | read =>
    by_cases hd : ∃ data, d = .got data
    · obtain ⟨data, hd⟩ := hd
      obtain ⟨text, rfl⟩ := hgot data hd
      simp [workRank]
    · rw [hdone fun data he => hd ⟨data, he⟩]
      simp [workRank]
  | write text =>
    simp only [did] at hdid
    split at hdid <;> cases hdid
    rw [hdone (by simp)]
    simp [workRank]
  | close => exact absurd rfl hopen

theorem rank_step {a : Action W} (hi : Serves dict s log) (hq : quiet s a = true)
    (h : step dict s a = some u) : rank u < rank s := by
  obtain ⟨hended, h⟩ := step_cases h
  have hlive : (if s.ended.isSome then 0 else 1) = 1 := by simp [hended]
  generalize event s a = e at h
  cases h with
  | refuse o w hlink hidle => simp [quiet, hlink, hidle] at hq
  | accept o w hlink hidle hsock hfree => simp [quiet, hlink, hidle] at hq
  | push o w t pool hlink hpool =>
    have hidle := hi.busy t hlink
    have hpush : ThreadPool.stepPush s.pool () t w = some pool := by
      simpa [ThreadPool.step, hi.locked.defined] using hpool
    simp only [ThreadPool.stepPush, hidle] at hpush
    split at hpush <;> cases hpush
    simp only [rank, hlive, hlink, linkRank, poolRank, hidle, Function.update_self, pushRank]
    omega
  | pool _ pool hbegun hout hlink hpool =>
    have hspurious : ∀ c, a.inner ≠ .spurious c := by
      cases a with
      | start o w => simp [Action.inner]
      | work c o => simp [Action.inner]
      | spurious c => simp [quiet] at hq
    have hlt := poolRank_step s.serving hi.locked hpool hspurious hbegun hout
    simp only [rank]
    omega
  | run c t k o d hrun hopen hdid hgot hdone =>
    have hsum := sum_eq_of_ne (t := c)
      (f := fun d => workRank (s.pool.worker d) (Function.update s.serving c k d))
      (g := fun d => workRank (s.pool.worker d) (s.serving d)) fun d hd => by simp [hd]
    have hlt : workRank (.run t) k < workRank (.run t) (s.serving c) :=
      workRank_run hopen hdid (fun data hd => ⟨_, hgot data hd⟩) hdone
    simp only [Function.update_self, hrun] at hsum
    simp only [rank, poolRank]
    omega
  | close c o t pool hrun hpc hpool =>
    obtain rfl := ThreadPool.step_run hrun hpool
    have hsum := sum_eq_of_ne (t := c)
      (f := fun d => workRank (Function.update s.pool.worker c .lock d)
        (Function.update s.serving c .read d))
      (g := fun d => workRank (s.pool.worker d) (s.serving d)) fun d hd => by simp [hd]
    simp only [Function.update_self, hrun, hpc] at hsum
    have hclose : workRank (.run t) .close = 4 := rfl
    have hlock : workRank .lock .read = 3 := rfl
    simp only [rank, poolRank]
    omega
  | fault c o e =>
    simp only [rank, hlive, Option.isSome_some, if_true]
    exact Nat.lt_of_lt_of_le (Nat.lt_succ_self _) (by omega)

/-- A worker with a task can always go on with it. -/
theorem stepRun_some {t : Task} (hi : ThreadPool.Locked s.pool) (hrun : s.pool.worker c = .run t)
    (o : Outcome) : ∃ u, stepRun dict s c t o = some u := by
  have hpool : ∃ pool, ThreadPool.step s.pool (.work c) = some pool :=
    hi.step_pending (by simp [hrun])
  unfold stepRun
  cases s.serving c with
  | read =>
    cases o.data with
    | none => exact ⟨_, rfl⟩
    | some data =>
      simp only
      split
      · exact ⟨_, rfl⟩
      · split <;> exact ⟨_, rfl⟩
  | write text =>
    simp only
    split <;> exact ⟨_, rfl⟩
  | close =>
    obtain ⟨pool, hpool⟩ := hpool
    exact ⟨_, by simp [stepPool, hpool]; rfl⟩

/-- Whoever can go on in the pool can go on in the server. -/
theorem quiet_of_moves (hi : Serves dict s log) (hended : s.ended = none)
    (h : ThreadPool.Moves s.pool) : ∃ a u, quiet s a = true ∧ step dict s a = some u := by
  rcases h with ⟨p, input, w, pool, hholds, hpool⟩ | ⟨c, pool, hpool⟩
  · have hlink : s.link = none := by
      by_contra hsome
      obtain ⟨t, ht⟩ := Option.ne_none_iff_exists'.mp hsome
      simp [hi.busy t ht] at hholds
    refine ⟨.start ⟨input.sockfd, input.clientip, input.clientport⟩ w, { s with pool := pool }, ?_⟩
    cases hpc : s.pool.pusher () with
    | idle => simp [hpc] at hholds
    | push | wakeUp | unlock =>
      refine ⟨by simp only [quiet, hlink, hpc], ?_⟩
      simp only [step, hended, Option.isSome_none, Bool.false_eq_true, if_false, stepStart, hlink,
        hpc, stepPool, Action.inner, hpool, Option.map_some]
  · refine ⟨.work c ⟨none, false⟩, ?_⟩
    simp only [quiet, true_and, step, hended, Option.isSome_none, Bool.false_eq_true, if_false,
      stepWork]
    cases hpc : s.pool.worker c with
    | run t => exact stepRun_some hi.locked hpc _
    | lock | check | waiting | woken | front | pop | unlock =>
      exact ⟨{ s with pool := pool }, by simp only [stepPool, hpool, Option.map_some]⟩

theorem pool_reachable {b : Boot} (h : (system W dict b).Reachable anyStep s) :
    (ThreadPool.system Unit W Task).Reachable anyStep s.pool := by
  refine h.simulate State.pool rfl ?_
  intro s a t _ hs
  have hstep := (step_cases hs).2
  generalize event s a = e at hstep
  cases hstep with
  | refuse | accept | run | fault => exact .refl
  | push o w t pool hlink hpool =>
    exact Leads.single (a := ThreadPool.Action.push () t w) trivial hpool
  | pool _ pool hbegun hout hlink hpool => exact Leads.single trivial hpool
  | close c o t pool hrun hpc hpool =>
    exact Leads.single (a := ThreadPool.Action.work c) trivial hpool

/-- Whoever is stuck has nothing left to do. -/
theorem hands_of_stuck [Inhabited W] {b : Boot} (h : (system W dict b).Reachable anyStep s)
    (hended : s.ended = none) (hstuck : ∀ a, ((system W dict b).only quiet).step s a = none) :
    hands s = 0 := by
  obtain ⟨log, hlog⟩ := h.exists_log event
  have hi := serves hlog
  have hno : ∀ a u, quiet s a = true → step dict s a ≠ some u := by
    intro a u hq hs
    have hnone := hstuck a
    rw [only_step.mpr ⟨hq, hs⟩] at hnone
    cases hnone
  have hquiet : ¬ ThreadPool.Moves s.pool := by
    intro hmoves
    obtain ⟨a, u, hq, hs⟩ := quiet_of_moves hi hended hmoves
    exact hno a u hq hs
  have input : Task := ⟨0, [], 0⟩
  have hmutex : s.pool.mutex = none := by
    by_contra hheld
    exact hquiet (hi.locked.owner_moves hheld input)
  have hasleep : ∀ c, (s.pool.worker c).asleep = true := by
    intro c
    by_contra hawake
    exact hquiet (hi.locked.awake_moves (by simpa using hawake) input)
  have hwaiting : ∀ c, s.pool.worker c = .waiting := by
    intro c
    have hc := hasleep c
    cases hpc : s.pool.worker c <;> simp [hpc] at hc ⊢
  have hidle : s.pool.pusher () = .idle := by
    have hout := (hmutex ▸ hi.locked.mutex.left).not_mem_of_none ()
    cases hpc : s.pool.pusher () <;> simp [hpc] at hout ⊢
  have htasks : s.pool.tasks = [] := by
    by_contra hne
    exact hquiet (ThreadPool.moves_of_task (pool_reachable h) hne)
  have hlink : s.link = none := by
    by_contra hsome
    obtain ⟨t, ht⟩ := Option.ne_none_iff_exists'.mp hsome
    have hpush : ∃ u, step dict s (.start ⟨0, [], 0⟩ ∅) = some u := by
      simp [step, hended, stepStart, ht, stepPool, ThreadPool.step, hi.locked.defined,
        ThreadPool.stepPush, hidle, hmutex]
    obtain ⟨u, hu⟩ := hpush
    exact hno _ u (by simp only [quiet, ht]) hu
  simp [hands, ThreadPool.held, hlink, hidle, htasks, hwaiting, ThreadPool.PushPc.carried,
    ThreadPool.WorkPc.carried]

/-- With nobody new and no wake-up for no reason the server comes to rest after at most `rank`
steps, and unless the process has ended no connection is open then. -/
theorem drains [Inhabited W] {b : Boot} (h : (system W dict b).Reachable anyStep s)
    {as : List (Action W)} {t : State W}
    (hrun : ((system W dict b).only quiet).run s as = some t) :
    as.length + rank t ≤ rank s ∧
      ((∀ a, ((system W dict b).only quiet).step t a = none) → t.ended = none →
        ∀ fd id, t.kernel.conn fd ≠ some id) := by
  have hreach : (system W dict b).Reachable anyStep t :=
    h.trans (leads_of_run (fun _ _ _ => trivial) (run_of_only hrun))
  constructor
  · refine run_length_le (J := (system W dict b).Reachable anyStep) ?_ h hrun
    intro s a t hs hstep
    obtain ⟨hq, hstep⟩ := only_step.mp hstep
    obtain ⟨log, hlog⟩ := hs.exists_log event
    exact ⟨hs.tail ⟨a, trivial, hstep⟩, rank_step (serves hlog) hq hstep⟩
  · intro hstuck hended fd id hid
    obtain ⟨log, hlog⟩ := hreach.exists_log event
    have hheld := (serves hlog).held
    rw [hands_of_stuck hreach hended hstuck, Multiset.map_zero] at hheld
    exact Multiset.notMem_zero fd ((hheld.mem fd).mpr ⟨id, hid⟩)

/-- The client of `oneClient` is accepted and pushed. -/
def pushedEnd : State Unit :=
  ((system Unit oneWord standard).run (boot Unit standard) (oneClient.take 5)).get (by decide)

/-- The worker answers the client, and goes to sleep. -/
def restRun : List (Action Unit) := List.replicate 10 (.work () ⟨some [104, 105], false⟩)

theorem served :
    (((system Unit oneWord standard).only quiet).run pushedEnd restRun).isSome := by decide

def atRest : State Unit :=
  (((system Unit oneWord standard).only quiet).run pushedEnd restRun).get served

theorem drains_one : restRun.length + rank atRest ≤ rank pushedEnd ∧
    ∀ fd id, atRest.kernel.conn fd ≠ some id := by
  have hstuck : ∀ a, ((system Unit oneWord standard).only quiet).step atRest a = none := by
    intro a
    cases a with
    | start o w => rfl
    | work c o => rfl
    | spurious c => rfl
  obtain ⟨hrank, hclosed⟩ :=
    drains (s := pushedEnd) (reachable_of_run _) (Option.some_get served).symm
  exact ⟨hrank, hclosed hstuck rfl⟩

end TcpServer
