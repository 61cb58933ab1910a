import LinuxPractice.Transition
import Mathlib.Logic.Function.Basic

/-!
# GetInstance: double-checked locking without an unlock

The static `GetInstance` of the pool in `NetWork/TCP`, called by any number of
threads any number of times. `lock_` is taken between the two checks of `tp_`
and never given back, so the first caller that constructs keeps it for ever.
-/
namespace GetInstance

open Transition Transition.System

/-- Where a thread stands in `GetInstance`. -/
inductive Pc where
  | idle | check | lock | recheck | construct | ret
  deriving DecidableEq, Repr

/-- Behind `pthread_mutex_lock`, or on the way around it. -/
@[simp] def Pc.inside : Pc → Bool
  | .recheck | .construct | .ret => true
  | .idle | .check | .lock => false

/-- Instances are numbered in the order of their construction; `returned` lists what the
finished calls returned. -/
structure State (A : Type) where
  tp : Option Nat
  lock : Option A
  constructed : Nat
  returned : List (Option Nat)
  pc : A → Pc

section Model

variable {A : Type} [DecidableEq A]

def init (A : Type) : State A where
  tp := none
  lock := none
  constructed := 0
  returned := []
  pc := fun _ => .idle

def State.goto (s : State A) (a : A) (k : Pc) : State A := { s with pc := Function.update s.pc a k }

@[simp] theorem State.goto_tp (s : State A) (a : A) (k : Pc) : (s.goto a k).tp = s.tp := rfl
@[simp] theorem State.goto_lock (s : State A) (a : A) (k : Pc) : (s.goto a k).lock = s.lock := rfl
@[simp] theorem State.goto_constructed (s : State A) (a : A) (k : Pc) :
    (s.goto a k).constructed = s.constructed := rfl
@[simp] theorem State.goto_returned (s : State A) (a : A) (k : Pc) :
    (s.goto a k).returned = s.returned := rfl
@[simp] theorem State.goto_pc_self (s : State A) (a : A) (k : Pc) : (s.goto a k).pc a = k := by
  simp [goto]
@[simp] theorem State.goto_pc_of_ne (s : State A) {a b : A} (h : b ≠ a) (k : Pc) :
    (s.goto a k).pc b = s.pc b := by
  simp [goto, h]

/-- One step of the thread `a`; at `idle` it starts another call. -/
def step (s : State A) (a : A) : Option (State A) :=
  match s.pc a with
  | .idle => some (s.goto a .check)
  | .check =>
    match s.tp with
    | none => some (s.goto a .lock)
    | some _ => some (s.goto a .ret)
  | .lock =>
    match s.lock with
    | none => some ({ s with lock := some a }.goto a .recheck)
    | some _ => none
  | .recheck =>
    match s.tp with
    | none => some (s.goto a .construct)
    | some _ => some (s.goto a .ret)
  | .construct =>
    some ({ s with tp := some s.constructed, constructed := s.constructed + 1 }.goto a .ret)
  | .ret => some ({ s with returned := s.returned ++ [s.tp] }.goto a .idle)

def system (A : Type) [DecidableEq A] : System (State A) A where
  init := init A
  step := step

/-- The steps of `GetInstance`. -/
inductive Step (s : State A) (a : A) : State A → Prop
  | call (hpc : s.pc a = .idle) : Step s a (s.goto a .check)
  | absent (hpc : s.pc a = .check) (htp : s.tp = none) : Step s a (s.goto a .lock)
  | present (hpc : s.pc a = .check ∨ s.pc a = .recheck) (htp : s.tp ≠ none) :
      Step s a (s.goto a .ret)
  | lock (hpc : s.pc a = .lock) (hfree : s.lock = none) :
      Step s a ({ s with lock := some a }.goto a .recheck)
  | confirm (hpc : s.pc a = .recheck) (htp : s.tp = none) : Step s a (s.goto a .construct)
  | construct (hpc : s.pc a = .construct) :
      Step s a ({ s with tp := some s.constructed, constructed := s.constructed + 1 }.goto a .ret)
  | ret (hpc : s.pc a = .ret) :
      Step s a ({ s with returned := s.returned ++ [s.tp] }.goto a .idle)

variable {s t : State A} {a : A}

theorem step_cases (h : step s a = some t) : Step s a t := by
  unfold step at h
  cases hpc : s.pc a with
  | idle =>
    simp only [hpc] at h
    cases h
    exact .call hpc
  | check =>
    simp only [hpc] at h
    split at h <;> cases h
    · exact .absent hpc ‹_›
    · exact .present (.inl hpc) (by simp [*])
  | lock =>
    simp only [hpc] at h
    split at h <;> cases h
    exact .lock hpc ‹_›
  | recheck =>
    simp only [hpc] at h
    split at h <;> cases h
    · exact .confirm hpc ‹_›
    · exact .present (.inr hpc) (by simp [*])
  | construct =>
    simp only [hpc] at h
    cases h
    exact .construct hpc
  | ret =>
    simp only [hpc] at h
    cases h
    exact .ret hpc

end Model

variable {A : Type} [DecidableEq A] {s t : State A} {a b : A}

/-- The instance is constructed at most once, by the thread behind the lock, and every call
returns it. -/
structure Single (s : State A) : Prop where
  constructed : s.constructed = if s.tp = none then 0 else 1
  owner : ∀ a, s.pc a = .recheck ∨ s.pc a = .construct → s.lock = some a
  absent : ∀ a, s.pc a = .construct → s.tp = none
  present : ∀ a, s.pc a = .ret → s.tp ≠ none
  returned : ∀ r ∈ s.returned, s.tp ≠ none ∧ r = s.tp

omit [DecidableEq A] in
theorem single_init : Single (init A) where
  constructed := rfl
  owner := by simp [init]
  absent := by simp [init]
  present := by simp [init]
  returned := by simp [init]

/-- A thread moves and everything else stays. -/
theorem Single.goto (hi : Single s) {k : Pc}
    (howner : k = .recheck ∨ k = .construct → s.lock = some a) (habsent : k = .construct → s.tp = none)
    (hpresent : k = .ret → s.tp ≠ none) : Single (s.goto a k) where
  constructed := hi.constructed
  owner := by
    intro b hb
    by_cases hba : b = a
    · subst hba
      exact howner (by simpa using hb)
    · exact hi.owner b (by simpa [hba] using hb)
  absent := by
    intro b hb
    by_cases hba : b = a
    · subst hba
      exact habsent (by simpa using hb)
    · exact hi.absent b (by simpa [hba] using hb)
  present := by
    intro b hb
    by_cases hba : b = a
    · subst hba
      exact hpresent (by simpa using hb)
    · exact hi.present b (by simpa [hba] using hb)
  returned := hi.returned

omit [DecidableEq A] in
theorem Single.take (hi : Single s) (hfree : s.lock = none) (a : A) :
    Single { s with lock := some a } where
  constructed := hi.constructed
  owner := by
    intro b hb
    have := hi.owner b hb
    rw [hfree] at this
    cases this
  absent := hi.absent
  present := hi.present
  returned := hi.returned

theorem Single.construct (hi : Single s) (hpc : s.pc a = .construct) :
    Single ({ s with tp := some s.constructed, constructed := s.constructed + 1 }.goto a .ret) where
  constructed := by simp [hi.constructed, hi.absent a hpc]
  owner := by
    intro b hb
    by_cases hba : b = a
    · subst hba
      simp at hb
    · exact hi.owner b (by simpa [hba] using hb)
  absent := by
    intro b hb
    by_cases hba : b = a
    · subst hba
      simp at hb
    · -- another thread there would hold the same lock
      have hb := hi.owner b (.inr (by simpa [hba] using hb))
      rw [hi.owner a (.inr hpc)] at hb
      exact absurd (Option.some.inj hb).symm hba
  present := by simp
  returned := by
    intro r hr
    exact absurd (hi.absent a hpc) (hi.returned r hr).1

omit [DecidableEq A] in
theorem Single.answer (hi : Single s) (hpc : s.pc a = .ret) :
    Single { s with returned := s.returned ++ [s.tp] } where
  constructed := hi.constructed
  owner := hi.owner
  absent := hi.absent
  present := hi.present
  returned := by
    intro r hr
    simp only [List.mem_append, List.mem_singleton] at hr
    cases hr with
    | inl hr => exact hi.returned r hr
    | inr hr => exact ⟨hi.present a hpc, hr⟩

theorem Single.step (hi : Single s) (h : step s a = some t) : Single t := by
  cases step_cases h with
  | call hpc => exact hi.goto (by simp) (by simp) (by simp)
  | absent hpc htp => exact hi.goto (by simp) (by simp) (by simp)
  | present hpc htp => exact hi.goto (by simp) (by simp) fun _ => htp
  | lock hpc hfree => exact (hi.take hfree a).goto (fun _ => rfl) (by simp) (by simp)
  | confirm hpc htp => exact hi.goto (fun _ => hi.owner a (.inl hpc)) (fun _ => htp) (by simp)
  | construct hpc => exact hi.construct hpc
  | ret hpc => exact (hi.answer hpc).goto (by simp) (by simp) (by simp)

theorem lock_kept (h : step s a = some t) (hl : s.lock ≠ none) : t.lock = s.lock := by
  cases step_cases h with
  | lock hpc hfree => exact absurd hfree hl
  | call | absent | present | confirm | construct | ret => rfl

theorem pc_of_ne (h : step s b = some t) (hab : a ≠ b) : t.pc a = s.pc a := by
  cases step_cases h with
  | call | absent | present | lock | confirm | construct | ret =>
    exact State.goto_pc_of_ne _ hab _

/-- Waiting at a lock that is taken. -/
theorem waiting_kept (h : step s b = some t) (hpc : s.pc a = .lock) (hl : s.lock ≠ none) :
    t.pc a = .lock := by
  by_cases hab : a = b
  · subst hab
    cases hlock : s.lock with
    | none => exact absurd hlock hl
    | some c => simp [step, hpc, hlock] at h
  · exact (pc_of_ne h hab).trans hpc

/-- A caller that no run from here ever gets past the lock. -/
def BlockedForever (s : State A) (a : A) : Prop :=
  ∀ t, (system A).Leads anyStep s t → t.pc a = .lock

theorem blockedForever_iff : BlockedForever s a ↔ s.pc a = .lock ∧ s.lock ≠ none := by
  constructor
  · intro h
    have hpc := h s .refl
    refine ⟨hpc, fun hfree => ?_⟩
    have hs : step s a = some ({ s with lock := some a }.goto a .recheck) := by
      simp only [step, hpc, hfree]
    have := h _ (Leads.single trivial hs)
    simp at this
  · intro h t ht
    have hkept : t.pc a = .lock ∧ t.lock ≠ none := by
      induction ht with
      | refl => exact h
      | tail _ hn ih =>
        obtain ⟨b, -, hs⟩ := hn
        exact ⟨waiting_kept hs ih.1 ih.2, lock_kept hs ih.2 ▸ ih.2⟩
    exact hkept.1

structure Safe (s : State A) : Prop where
  constructed : s.constructed ≤ 1
  returned : ∀ r ∈ s.returned, s.tp ≠ none ∧ r = s.tp
  released : ∀ a, s.lock = some a → (s.pc a).inside = true
  live : ∀ a, ¬ BlockedForever s a

/-- The step is not the return of the call that took the lock, does not send a caller to a
lock that is taken, and does not take the lock from another caller that waits for it. -/
def Spares (s : State A) (a : A) : Prop :=
  match s.pc a with
  | .ret => s.lock ≠ some a
  | .check => s.tp = none → s.lock = none
  | .lock => ∀ b, b ≠ a → s.pc b ≠ .lock
  | _ => True

theorem safe_init : Safe (init A) where
  constructed := Nat.zero_le 1
  returned := by simp [init]
  released := by simp [init]
  live := by simp [blockedForever_iff, init]

omit [DecidableEq A] in
theorem Single.constructed_le (hi : Single s) : s.constructed ≤ 1 := by
  rw [hi.constructed]
  split <;> omega

/-- The part of `Safe` that is about the lock. -/
structure Spared (s : State A) : Prop where
  released : ∀ a, s.lock = some a → (s.pc a).inside = true
  live : ∀ a, s.pc a = .lock → s.lock = none

theorem Single.safe_iff (hi : Single s) : Safe s ↔ Spared s := by
  constructor
  · intro h
    refine ⟨h.released, fun a ha => ?_⟩
    by_contra hl
    exact h.live a (blockedForever_iff.mpr ⟨ha, hl⟩)
  · intro h
    refine ⟨hi.constructed_le, hi.returned, h.released, fun a ha => ?_⟩
    obtain ⟨hpc, hl⟩ := blockedForever_iff.mp ha
    exact hl (h.live a hpc)

theorem Spared.goto (hi : Spared s) {k : Pc} (hreleased : s.lock = some a → k.inside = true)
    (hlive : k = .lock → s.lock = none) : Spared (s.goto a k) where
  released := by
    intro b hb
    by_cases hba : b = a
    · subst hba
      simpa using hreleased hb
    · simpa [hba] using hi.released b hb
  live := by
    intro b hb
    by_cases hba : b = a
    · subst hba
      exact hlive (by simpa using hb)
    · exact hi.live b (by simpa [hba] using hb)

theorem spared_take (halone : ∀ b, b ≠ a → s.pc b ≠ .lock) :
    Spared ({ s with lock := some a }.goto a .recheck) where
  released := by
    intro b hb
    obtain rfl := Option.some.inj hb
    simp
  live := by
    intro b hb
    by_cases hba : b = a
    · subst hba
      simp at hb
    · exact absurd (by simpa [hba] using hb) (halone b hba)

theorem Spared.step (hi : Spared s) (h : GetInstance.step s a = some t) (hok : Spares s a) :
    Spared t := by
  unfold Spares at hok
  cases step_cases h with
  | call hpc =>
    refine hi.goto (fun hl => ?_) (by simp)
    have := hi.released a hl
    simp [hpc] at this
  | absent hpc htp =>
    simp only [hpc] at hok
    exact hi.goto (by simp [hok htp]) fun _ => hok htp
  | present hpc htp => exact hi.goto (by simp) (by simp)
  | lock hpc hfree =>
    simp only [hpc] at hok
    exact spared_take hok
  | confirm hpc htp => exact hi.goto (by simp) (by simp)
  | construct hpc =>
    have hstored : Spared { s with tp := some s.constructed, constructed := s.constructed + 1 } :=
      ⟨hi.released, hi.live⟩
    exact hstored.goto (by simp) (by simp)
  | ret hpc =>
    simp only [hpc] at hok
    have hstored : Spared { s with returned := s.returned ++ [s.tp] } := ⟨hi.released, hi.live⟩
    exact hstored.goto (fun hl => absurd hl hok) (by simp)

theorem Spared.spares (ht : Spared t) (h : GetInstance.step s a = some t) : Spares s a := by
  unfold Spares
  cases step_cases h with
  | call hpc => simp only [hpc]
  | absent hpc htp =>
    simp only [hpc]
    exact fun _ => ht.live a (by simp)
  | present hpc htp =>
    cases hpc with
    | inl hpc => simp [hpc, htp]
    | inr hpc => simp only [hpc]
  | lock hpc hfree =>
    simp only [hpc]
    intro b hba hb
    have := ht.live b (by simpa [hba] using hb)
    cases this
  | confirm hpc htp => simp only [hpc]
  | construct hpc => simp only [hpc]
  | ret hpc =>
    simp only [hpc]
    intro hl
    have := ht.released a hl
    simp at this

/-- Any number of threads, calling any number of times, in any interleaving. -/
theorem safe_throughout_iff (as : List A) :
    (system A).Throughout Safe (init A) as ↔ (system A).Admits Spares (init A) as := by
  apply throughout_iff_admits (J := Single)
  · intro s a t hi hs
    exact hi.step hs
  · intro s a t hi hsafe hs
    rw [(hi.step hs).safe_iff]
    constructor
    · exact fun ht => ht.spares hs
    · exact fun hok => (hi.safe_iff.mp hsafe).step hs hok
  · exact single_init
  · exact safe_init

/-- Two threads see no instance; the first one returns with it, the second one waits. -/
def bothCallRun : List Bool := [false, false, true, true, false, false, false, false]

def bothCallEnd : State Bool := ((system Bool).run (init Bool) bothCallRun).get (by decide)

/-- The lock stays with a thread whose call has returned, and the other caller never gets it. -/
theorem lock_outlives_call :
    (system Bool).Reachable anyStep bothCallEnd ∧ bothCallEnd.returned = [some 0] ∧
      (bothCallEnd.lock = some false ∧ bothCallEnd.pc false = .idle) ∧
      BlockedForever bothCallEnd true := by
  refine ⟨?_, by decide, by decide, blockedForever_iff.mpr (by decide)⟩
  exact reachable_of_run _

end GetInstance
