import LinuxPractice.BlockQueueOrder

/-!
# BlockQueue: when the water marks keep it alive

A full queue is left only with a consumer awake or about to be signalled, an
empty one only with a producer awake or about to be signalled. Both sides can
fall asleep only at a full or an empty queue, so never all of them do, as long
as the marks lie strictly between empty and full.
-/
namespace BlockQueue

open Transition Transition.System Threads

variable {P C T : Type} {cfg : Config} {s t : State P C T}

/-- Every thread sleeps and none was signalled. -/
def AllAsleep (s : State P C T) : Prop :=
  (∀ p, (s.producer p).asleep = true) ∧ ∀ c, (s.consumer c).asleep = true

structure Alert (cfg : Config) (s : State P C T) : Prop extends Locked s where
  length_le : s.q.length ≤ cfg.maxcap
  room : ∀ p, (s.producer p).enqueues = true → s.q.length < cfg.maxcap
  full : s.q.length = cfg.maxcap →
    (∃ c, (s.consumer c).asleep = false) ∨ ∃ p, (s.producer p).signals = true
  empty : s.q.length = 0 →
    (∃ p, (s.producer p).asleep = false) ∨ ∃ c, (s.consumer c).signals = true
  ends : AllAsleep s → s.q.length = 0 ∨ s.q.length = cfg.maxcap

theorem alert_init [Inhabited P] [Inhabited C] (cfg : Config) : Alert cfg (init P C T) where
  toLocked := locked_init
  length_le := by simp [init]
  room := by simp [init]
  full := fun _ => .inl ⟨default, rfl⟩
  empty := fun _ => .inl ⟨default, rfl⟩
  ends := fun _ => .inl rfl

theorem Alert.bounded (hi : Alert cfg s) : Bounded cfg s := { hi with }

section Push

variable [DecidableEq P] {p : P}

variable [Fintype C] [DecidableEq C]

/-- A producer falls asleep only at a full queue. -/
theorem PushStep.awake (h : PushStep cfg s p t) :
    (t.producer p).asleep = false ∨ t.q.length = cfg.maxcap := by
  cases h with
  | sleep v hpc hfull => exact .inr hfull
  | lock | pass | relock | enqueue | wake | quiet | unlock => exact .inl (by simp)

theorem Alert.push_full [Inhabited C] (hi : Alert cfg s) (hhigh : cfg.highWater < cfg.maxcap)
    (h : PushStep cfg s p t) : t.q.length = cfg.maxcap →
    (∃ c, (t.consumer c).asleep = false) ∨ ∃ u, (t.producer u).signals = true := by
  have hmove : ∀ k, (s.producer p).signals = false → s.q.length = cfg.maxcap →
      (∃ c, (s.consumer c).asleep = false) ∨
        ∃ u, (Function.update s.producer p k u).signals = true := by
    intro k hpc hq
    cases hi.full hq with
    | inl hc => exact .inl hc
    | inr hp => exact .inr (exists_update hp hpc k)
  cases h with
  | lock v hpc hfree => exact hmove _ (by simp [hpc])
  | sleep v hpc hfull => exact hmove _ (by simp [hpc])
  | pass v hpc hroom => exact hmove _ (by simp [hpc])
  | relock v hpc hfree => exact hmove _ (by simp [hpc])
  | enqueue v hpc => exact fun _ => .inr ⟨p, by simp⟩
  | wake w hpc hq hw => exact fun _ => .inl (exists_awake PopPc.asleep_wake hw)
  | quiet hpc hq =>
    intro hfull
    exact absurd (hfull ▸ hhigh) hq
  | unlock hpc => exact hmove _ (by simp [hpc])

theorem Alert.push [Inhabited C] (hi : Alert cfg s) (hhigh : cfg.highWater < cfg.maxcap)
    (h : PushStep cfg s p t) : Alert cfg t where
  toLocked := hi.toLocked.push h
  length_le := (hi.bounded.push h).length_le
  room := (hi.bounded.push h).room
  full := hi.push_full hhigh h
  empty := by
    intro hq
    cases h.awake with
    | inl hp => exact .inl ⟨p, hp⟩
    | inr hfull => omega
  ends := by
    intro hall
    cases h.awake with
    | inl hp =>
      rw [hall.1 p] at hp
      cases hp
    | inr hfull => exact .inr hfull

/-- A thread inside the critical section is never blocked. -/
theorem stepPush_of_holds (hp : (s.producer p).holds = true) (input : T) :
    ∃ w, (stepPush cfg s p input w).isSome = true := by
  cases hpc : s.producer p with
  | check v =>
    by_cases hfull : s.q.length = cfg.maxcap
    · exact ⟨∅, by simp [stepPush, hpc, hfull]⟩
    · exact ⟨∅, by simp [stepPush, hpc, hfull]⟩
  | enqueue v => exact ⟨∅, by simp [stepPush, hpc]⟩
  | signal =>
    obtain ⟨w, hw⟩ : ∃ w, Wakes (fun c => (s.consumer c).asleep) w := ⟨_, wakes_all _⟩
    by_cases hhigh : cfg.highWater < s.q.length
    · exact ⟨w, by simp only [stepPush, hpc, hhigh, hw, if_true, Option.isSome_some]⟩
    · exact ⟨∅, by simp [stepPush, hpc, hhigh]⟩
  | unlock => exact ⟨∅, by simp [stepPush, hpc]⟩
  | idle | waiting v | woken v => simp [hpc] at hp

/-- A thread awake outside gets the mutex when nobody has it. -/
theorem stepPush_of_free (hi : Locked s) (hfree : s.mutex = none)
    (hp : (s.producer p).asleep = false) (input : T) :
    ∃ w, (stepPush cfg s p input w).isSome = true := by
  have hown := hi.producers
  rw [hfree] at hown
  have hout := hown.not_mem_of_none p
  cases hpc : s.producer p with
  | idle => exact ⟨∅, by simp [stepPush, hpc, hfree]⟩
  | woken v => exact ⟨∅, by simp [stepPush, hpc, hfree]⟩
  | waiting v => simp [hpc] at hp
  | check v | enqueue v | signal | unlock => simp [hpc] at hout

end Push

section Pop

variable [DecidableEq C] [Fintype P] [DecidableEq P] {c : C}

/-- A consumer falls asleep only at an empty queue. -/
theorem PopStep.awake (h : PopStep cfg s c t) :
    (t.consumer c).asleep = false ∨ t.q.length = 0 := by
  cases h with
  | sleep hpc hempty => exact .inr (by simp [hempty])
  | undefine hpc hq => exact .inl (PopPc.not_asleep_of_takes hpc)
  | lock | pass | relock | front | drop | wake | quiet | unlock => exact .inl (by simp)

theorem Alert.pop_empty [Inhabited P] (hi : Alert cfg s) (hlow : 0 < cfg.lowWater)
    (h : PopStep cfg s c t) : t.q.length = 0 →
    (∃ p, (t.producer p).asleep = false) ∨ ∃ u, (t.consumer u).signals = true := by
  have hmove : ∀ k, (s.consumer c).signals = false → s.q.length = 0 →
      (∃ p, (s.producer p).asleep = false) ∨
        ∃ u, (Function.update s.consumer c k u).signals = true := by
    intro k hpc hq
    cases hi.empty hq with
    | inl hp => exact .inl hp
    | inr hc => exact .inr (exists_update hc hpc k)
  cases h with
  | lock hpc hfree => exact hmove _ (by simp [hpc])
  | sleep hpc hempty => exact hmove _ (by simp [hpc])
  | pass hpc hitem => exact hmove _ (by simp [hpc])
  | relock hpc hfree => exact hmove _ (by simp [hpc])
  | front out rest hpc hq => exact hmove _ (by simp [hpc])
  | drop out first rest hpc hq => exact fun _ => .inr ⟨c, by simp⟩
  | undefine hpc hq => exact hi.empty
  | wake out w hpc hq hw => exact fun _ => .inl (exists_awake PushPc.asleep_wake hw)
  | quiet out hpc hq =>
    intro hempty
    exact absurd (hempty ▸ hlow) hq
  | unlock out hpc => exact hmove _ (by simp [hpc])

theorem Alert.pop [Inhabited P] (hi : Alert cfg s) (hlow : 0 < cfg.lowWater)
    (hpos : 0 < cfg.maxcap) (h : PopStep cfg s c t) : Alert cfg t where
  toLocked := hi.toLocked.pop h
  length_le := (hi.bounded.pop h).length_le
  room := (hi.bounded.pop h).room
  full := by
    intro hq
    cases h.awake with
    | inl hc => exact .inl ⟨c, hc⟩
    | inr hempty => omega
  empty := hi.pop_empty hlow h
  ends := by
    intro hall
    cases h.awake with
    | inl hc =>
      rw [hall.2 c] at hc
      cases hc
    | inr hempty => exact .inl hempty

theorem stepPop_of_holds (hc : (s.consumer c).holds = true) :
    ∃ w, (stepPop cfg s c w).isSome = true := by
  cases hpc : s.consumer c with
  | check =>
    by_cases hempty : s.q.length = 0
    · exact ⟨∅, by simp [stepPop, hpc, hempty]⟩
    · exact ⟨∅, by simp [stepPop, hpc, hempty]⟩
  | front =>
    cases hq : s.q with
    | nil => exact ⟨∅, by simp [stepPop, hpc, hq]⟩
    | cons out rest => exact ⟨∅, by simp [stepPop, hpc, hq]⟩
  | drop out =>
    cases hq : s.q with
    | nil => exact ⟨∅, by simp [stepPop, hpc, hq]⟩
    | cons first rest => exact ⟨∅, by simp [stepPop, hpc, hq]⟩
  | signal out =>
    obtain ⟨w, hw⟩ : ∃ w, Wakes (fun p => (s.producer p).asleep) w := ⟨_, wakes_all _⟩
    by_cases hlow : s.q.length < cfg.lowWater
    · exact ⟨w, by simp only [stepPop, hpc, hlow, hw, if_true, Option.isSome_some]⟩
    · exact ⟨∅, by simp [stepPop, hpc, hlow]⟩
  | unlock out => exact ⟨∅, by simp [stepPop, hpc]⟩
  | idle | waiting | woken => simp [hpc] at hc

theorem stepPop_of_free (hi : Locked s) (hfree : s.mutex = none)
    (hc : (s.consumer c).asleep = false) : ∃ w, (stepPop cfg s c w).isSome = true := by
  have hown := hi.consumers
  rw [hfree] at hown
  have hout := hown.not_mem_of_none c
  cases hpc : s.consumer c with
  | idle => exact ⟨∅, by simp [stepPop, hpc, hfree]⟩
  | woken => exact ⟨∅, by simp [stepPop, hpc, hfree]⟩
  | waiting => simp [hpc] at hc
  | check | front | drop v | signal v | unlock v => simp [hpc] at hout

end Pop

theorem Alert.not_allAsleep (hi : Alert cfg s) : ¬ AllAsleep s := by
  intro hall
  cases hi.ends hall with
  | inl hempty =>
    cases hi.empty hempty with
    | inl hp =>
      obtain ⟨p, hp⟩ := hp
      rw [hall.1 p] at hp
      cases hp
    | inr hc =>
      obtain ⟨c, hc⟩ := hc
      rw [PopPc.not_signals_of_asleep (hall.2 c)] at hc
      cases hc
  | inr hfull =>
    cases hi.full hfull with
    | inl hc =>
      obtain ⟨c, hc⟩ := hc
      rw [hall.2 c] at hc
      cases hc
    | inr hp =>
      obtain ⟨p, hp⟩ := hp
      rw [PushPc.not_signals_of_asleep (hall.1 p)] at hp
      cases hp

section Progress

variable [Fintype P] [DecidableEq P] [Fintype C] [DecidableEq C]

theorem alert_of_reachable [Inhabited P] [Inhabited C] (hlow : 0 < cfg.lowWater)
    (hhigh : cfg.highWater < cfg.maxcap)
    (h : (system P C T cfg).Reachable regularStep s) : Alert cfg s := by
  apply h.invariant (alert_init cfg)
  intro s a t hi hregular hs
  rcases step_cases hs with ⟨p, _, _, -, hp⟩ | ⟨c, _, -, hc⟩ | ⟨p, rfl, -⟩ | ⟨c, rfl, -⟩
  · exact hi.push hhigh hp
  · exact hi.pop hlow (by omega) hc
  · cases hregular
  · cases hregular

/-- Unless all threads sleep, one of them has a step. -/
theorem Locked.progress [Inhabited T] (cfg : Config) (hi : Locked s) (hdef : s.undefined = false)
    (hawake : ¬ AllAsleep s) :
    ∃ a : Action P C T, a.regular = true ∧ (BlockQueue.step cfg s a).isSome = true := by
  have hpush : ∀ p, (∃ w, (stepPush cfg s p default w).isSome = true) →
      ∃ a : Action P C T, a.regular = true ∧ (BlockQueue.step cfg s a).isSome = true := by
    intro p h
    obtain ⟨w, h⟩ := h
    exact ⟨.push p default w, rfl, by simp [BlockQueue.step, hdef, h]⟩
  have hpop : ∀ c, (∃ w, (stepPop cfg s c w).isSome = true) →
      ∃ a : Action P C T, a.regular = true ∧ (BlockQueue.step cfg s a).isSome = true := by
    intro c h
    obtain ⟨w, h⟩ := h
    exact ⟨.pop c w, rfl, by simp [BlockQueue.step, hdef, h]⟩
  cases hm : s.mutex with
  | some owner =>
    cases owner with
    | inl p => exact hpush p (stepPush_of_holds ((hi.producers p).mpr hm) default)
    | inr c => exact hpop c (stepPop_of_holds ((hi.consumers c).mpr hm))
  | none =>
    simp only [AllAsleep, not_and_or, not_forall, Bool.not_eq_true] at hawake
    cases hawake with
    | inl hp =>
      obtain ⟨p, hp⟩ := hp
      exact hpush p (stepPush_of_free hi hm hp default)
    | inr hc =>
      obtain ⟨c, hc⟩ := hc
      exact hpop c (stepPop_of_free hi hm hc)

end Progress

end BlockQueue
