import Mathlib

/-!
# Runs of a system whose steps are partial functions

A run is any sequence of actions, one at a time: every interleaving of every
number of parties is a run. `ok` restricts the steps a run may take, and
`logged` records what the actions do without changing what they can do.
-/
namespace Transition

variable {σ α ε : Type}

structure System (σ α : Type) where
  init : σ
  step : σ → α → Option σ

namespace System

/-- One step of a run that `ok` admits. -/
def Next (M : System σ α) (ok : σ → α → Prop) (s t : σ) : Prop :=
  ∃ a, ok s a ∧ M.step s a = some t

/-- `t` can follow `s` in a run. -/
def Leads (M : System σ α) (ok : σ → α → Prop) : σ → σ → Prop := Relation.ReflTransGen (M.Next ok)

def Reachable (M : System σ α) (ok : σ → α → Prop) (s : σ) : Prop := M.Leads ok M.init s

/-- Every step is admitted. -/
def anyStep : σ → α → Prop := fun _ _ => True

/-- The invariant rule: what holds initially and is kept by every step. -/
theorem Reachable.invariant {M : System σ α} {ok : σ → α → Prop} {I : σ → Prop} {s : σ}
    (h : M.Reachable ok s) (hinit : I M.init)
    (hstep : ∀ s a t, I s → ok s a → M.step s a = some t → I t) : I s := by
  induction h with
  | refl => exact hinit
  | tail _ hn ih =>
    obtain ⟨a, ha, hs⟩ := hn
    exact hstep _ a _ ih ha hs

theorem Leads.single {M : System σ α} {ok : σ → α → Prop} {s t : σ} {a : α} (ha : ok s a)
    (hs : M.step s a = some t) : M.Leads ok s t :=
  Relation.ReflTransGen.single ⟨a, ha, hs⟩

/-- What a run of `M` looks like through `f` is a run of `N`. -/
theorem Reachable.simulate {τ β : Type} {M : System σ α} {N : System τ β} {ok : σ → α → Prop}
    {ok' : τ → β → Prop} (f : σ → τ) {s : σ} (h : M.Reachable ok s) (hinit : f M.init = N.init)
    (hstep : ∀ s a t, ok s a → M.step s a = some t → N.Leads ok' (f s) (f t)) :
    N.Reachable ok' (f s) := by
  induction h with
  | refl =>
    rw [hinit]
    exact .refl
  | tail _ hn ih =>
    obtain ⟨a, ha, hs⟩ := hn
    exact ih.trans (hstep _ a _ ha hs)

/-- A run written out as its actions. -/
def run (M : System σ α) : σ → List α → Option σ
  | s, [] => some s
  | s, a :: as => (M.step s a).bind fun t => M.run t as

theorem run_append {M : System σ α} {s t u : σ} {as bs : List α} (h : M.run s as = some t)
    (h' : M.run t bs = some u) : M.run s (as ++ bs) = some u := by
  induction as generalizing s with
  | nil =>
    cases h
    exact h'
  | cons a as ih =>
    obtain ⟨v, hv, hrest⟩ := Option.bind_eq_some_iff.mp h
    exact Option.bind_eq_some_iff.mpr ⟨v, hv, ih hrest⟩

theorem run_concat {M : System σ α} (s : σ) (as : List α) (a : α) :
    M.run s (as ++ [a]) = (M.run s as).bind fun t => M.step t a := by
  induction as generalizing s with
  | nil => simp [run]
  | cons b as ih => simp only [List.cons_append, run, ih, Option.bind_assoc]

theorem leads_of_run {M : System σ α} {ok : σ → α → Prop} {s t : σ} {as : List α}
    (hok : ∀ a ∈ as, ∀ s, ok s a) (h : M.run s as = some t) : M.Leads ok s t := by
  induction as generalizing s with
  | nil =>
    cases h
    exact .refl
  | cons a as ih =>
    obtain ⟨u, hu, ht⟩ := Option.bind_eq_some_iff.mp h
    have htail := ih (fun b hb => hok b (by simp [hb])) ht
    exact (Leads.single (hok a (by simp) s) hu).trans htail

/-- Where a run that is written out ends. -/
theorem reachable_of_run {M : System σ α} {as : List α} (h : (M.run M.init as).isSome) :
    M.Reachable anyStep ((M.run M.init as).get h) :=
  leads_of_run (fun _ _ _ => trivial) (Option.some_get h).symm

/-- Where every step lowers `rank`, no run is longer than the rank it starts with. -/
theorem run_length_le {M : System σ α} {J : σ → Prop} {rank : σ → Nat}
    (hstep : ∀ s a t, J s → M.step s a = some t → J t ∧ rank t < rank s) {s t : σ} {as : List α}
    (hj : J s) (h : M.run s as = some t) : as.length + rank t ≤ rank s := by
  induction as generalizing s with
  | nil =>
    cases h
    simp
  | cons a as ih =>
    obtain ⟨u, hu, ht⟩ := Option.bind_eq_some_iff.mp h
    obtain ⟨hju, hlt⟩ := hstep s a u hj hu
    have := ih hju ht
    simp only [List.length_cons]
    omega

/-- The invariant rule for a run that is written out. -/
theorem run_invariant {M : System σ α} {J : σ → Prop}
    (hkeep : ∀ s a t, J s → M.step s a = some t → J t) {s t : σ} {as : List α} (hj : J s)
    (h : M.run s as = some t) : J t := by
  induction as generalizing s with
  | nil =>
    cases h
    exact hj
  | cons a as ih =>
    obtain ⟨u, hu, ht⟩ := Option.bind_eq_some_iff.mp h
    exact ih (hkeep s a u hj hu) ht

/-- Where the steps in `own` lower `rank` and no other step raises it until `G` holds, as many
of them as the rank lead to `G`, whatever comes in between. -/
theorem goal_of_countP {M : System σ α} {J G : σ → Prop} (rank : σ → Nat) (own : α → Bool)
    (hkeep : ∀ s a t, J s → M.step s a = some t → J t)
    (hlower : ∀ s a t, J s → ¬ G t → M.step s a = some t →
      ¬ G s ∧ rank t + (own a).toNat ≤ rank s)
    (hzero : ∀ s, J s → rank s = 0 → G s) {s t : σ} {as : List α} (hj : J s)
    (h : M.run s as = some t) (hcount : rank s ≤ as.countP own) : G t := by
  by_contra hgoal
  have hrun : J t ∧ ¬ G s ∧ rank t + as.countP own ≤ rank s := by
    clear hcount
    induction as generalizing s with
    | nil =>
      cases h
      exact ⟨hj, hgoal, le_refl _⟩
    | cons a as ih =>
      obtain ⟨u, hu, ht⟩ := Option.bind_eq_some_iff.mp h
      obtain ⟨hjt, hgu, hrest⟩ := ih (hkeep s a u hj hu) ht
      obtain ⟨hgs, hfirst⟩ := hlower s a u hj hgu hu
      refine ⟨hjt, hgs, ?_⟩
      cases hown : own a with
      | false =>
        rw [List.countP_cons_of_neg (by simp [hown])]
        simp only [hown, Bool.toNat_false] at hfirst
        omega
      | true =>
        rw [List.countP_cons_of_pos hown]
        simp only [hown, Bool.toNat_true] at hfirst
        omega
  exact hgoal (hzero t hrun.1 (by omega))

/-- `I` holds in every state of the run along `as`. -/
def Throughout (M : System σ α) (I : σ → Prop) : σ → List α → Prop
  | s, [] => I s
  | s, a :: as => I s ∧ ∀ t, M.step s a = some t → M.Throughout I t as

/-- Every step of the run along `as` is one that `ok` admits. -/
def Admits (M : System σ α) (ok : σ → α → Prop) : σ → List α → Prop
  | _, [] => True
  | s, a :: as => ∀ t, M.step s a = some t → ok s a ∧ M.Admits ok t as

theorem Throughout.head {M : System σ α} {I : σ → Prop} {s : σ} {as : List α}
    (h : M.Throughout I s as) : I s := by
  cases as with
  | nil => exact h
  | cons a as => exact h.1

theorem Throughout.last {M : System σ α} {I : σ → Prop} {s t : σ} {as : List α}
    (h : M.Throughout I s as) (hrun : M.run s as = some t) : I t := by
  induction as generalizing s with
  | nil =>
    cases hrun
    exact h
  | cons a as ih =>
    obtain ⟨u, hu, hrest⟩ := Option.bind_eq_some_iff.mp hrun
    exact ih (h.2 u hu) hrest

/-- A step that can be taken is the only one. -/
theorem throughout_cons {M : System σ α} {I : σ → Prop} {s t : σ} {a : α} {as : List α} (hs : I s)
    (ht : M.step s a = some t) : M.Throughout I s (a :: as) ↔ M.Throughout I t as := by
  simp only [Throughout, hs, true_and]
  constructor
  · intro h
    exact h t ht
  · intro h u hu
    obtain rfl : t = u := Option.some.inj (ht.symm.trans hu)
    exact h

/-- A condition on a state and the actions to come that the steps hand on, and that fails where a
step loses `I`, says exactly which runs keep `I`. -/
theorem throughout_iff_along {M : System σ α} {I J : σ → Prop} {C : σ → List α → Prop}
    (hnil : ∀ s, J s → I s → C s []) (hlive : ∀ s a, J s → I s → ∃ t, M.step s a = some t)
    (hkeep : ∀ s a t, J s → M.step s a = some t → I t → J t ∧ ∀ as, C t as ↔ C s (a :: as))
    (hlose : ∀ s a t as, J s → M.step s a = some t → C s (a :: as) → I t)
    {s : σ} (hj : J s) (hi : I s) (as : List α) : M.Throughout I s as ↔ C s as := by
  induction as generalizing s with
  | nil => exact ⟨fun _ => hnil s hj hi, fun _ => hi⟩
  | cons a as ih =>
    obtain ⟨t, ht⟩ := hlive s a hj hi
    rw [throughout_cons hi ht]
    constructor
    · intro h
      obtain ⟨hjt, hcond⟩ := hkeep s a t hj ht h.head
      exact (hcond as).mp ((ih hjt h.head).mp h)
    · intro h
      have hit := hlose s a t as hj ht h
      obtain ⟨hjt, hcond⟩ := hkeep s a t hj ht hit
      exact (ih hjt hit).mpr ((hcond as).mpr h)

/-- Where `ok` says exactly which steps keep `I`, it says exactly which runs do. -/
theorem throughout_iff_admits {M : System σ α} {I J : σ → Prop} {ok : σ → α → Prop}
    (hkeep : ∀ s a t, J s → M.step s a = some t → J t)
    (hexact : ∀ s a t, J s → I s → M.step s a = some t → (I t ↔ ok s a))
    {s : σ} (hj : J s) (hi : I s) (as : List α) : M.Throughout I s as ↔ M.Admits ok s as := by
  induction as generalizing s with
  | nil => simp [Throughout, Admits, hi]
  | cons a as ih =>
    simp only [Throughout, Admits]
    constructor
    · intro h t ht
      have hrest := h.2 t ht
      have hit : I t := hrest.head
      exact ⟨(hexact s a t hj hi ht).mp hit, (ih (hkeep s a t hj ht) hit).mp hrest⟩
    · intro h
      refine ⟨hi, fun t ht => ?_⟩
      obtain ⟨hok, hrest⟩ := h t ht
      have hit := (hexact s a t hj hi ht).mpr hok
      exact (ih (hkeep s a t hj ht) hit).mpr hrest

/-- Two restrictions that agree wherever the second one leads admit the same runs. -/
theorem admits_congr {M : System σ α} {J : σ → Prop} {ok ok' : σ → α → Prop}
    (hkeep : ∀ s a t, J s → ok' s a → M.step s a = some t → J t)
    (hiff : ∀ s a t, J s → M.step s a = some t → (ok s a ↔ ok' s a)) {s : σ} (hj : J s)
    (as : List α) : M.Admits ok s as ↔ M.Admits ok' s as := by
  induction as generalizing s with
  | nil => rfl
  | cons a as ih =>
    simp only [Admits]
    constructor
    · intro h t ht
      obtain ⟨hok, hrest⟩ := h t ht
      have hok' := (hiff s a t hj ht).mp hok
      exact ⟨hok', (ih (hkeep s a t hj hok' ht)).mp hrest⟩
    · intro h t ht
      obtain ⟨hok', hrest⟩ := h t ht
      exact ⟨(hiff s a t hj ht).mpr hok', (ih (hkeep s a t hj hok' ht)).mpr hrest⟩

/-- The same system without the steps that `ok` refuses. -/
def only (M : System σ α) (ok : σ → α → Bool) : System σ α where
  init := M.init
  step := fun s a => if ok s a then M.step s a else none

theorem only_step {M : System σ α} {ok : σ → α → Bool} {s t : σ} {a : α} :
    (M.only ok).step s a = some t ↔ ok s a = true ∧ M.step s a = some t := by
  by_cases h : ok s a = true <;> simp [only, h]

theorem run_of_only {M : System σ α} {ok : σ → α → Bool} {s t : σ} {as : List α}
    (h : (M.only ok).run s as = some t) : M.run s as = some t := by
  induction as generalizing s with
  | nil => exact h
  | cons a as ih =>
    obtain ⟨u, hu, ht⟩ := Option.bind_eq_some_iff.mp h
    exact Option.bind_eq_some_iff.mpr ⟨u, (only_step.mp hu).2, ih ht⟩

/-- The same system with a record of what its actions did. -/
def logged (M : System σ α) (event : σ → α → Option ε) : System (σ × List ε) α where
  init := (M.init, [])
  step := fun s a => (M.step s.1 a).map fun t => (t, s.2 ++ (event s.1 a).toList)

/-- Every run has a record. -/
theorem Reachable.exists_log {M : System σ α} {s : σ} (h : M.Reachable anyStep s)
    (event : σ → α → Option ε) : ∃ log, (M.logged event).Reachable anyStep (s, log) := by
  induction h with
  | refl => exact ⟨[], .refl⟩
  | tail _ hn ih =>
    obtain ⟨a, -, hs⟩ := hn
    obtain ⟨log, hlog⟩ := ih
    exact ⟨_, hlog.tail ⟨a, trivial, Option.map_eq_some_iff.mpr ⟨_, hs, rfl⟩⟩⟩

/-- The invariant rule with the record. -/
theorem logged_invariant {M : System σ α} {event : σ → α → Option ε} {I : σ → List ε → Prop}
    {s : σ} {log : List ε} (h : (M.logged event).Reachable anyStep (s, log)) (hinit : I M.init [])
    (hstep : ∀ s a t log, I s log → M.step s a = some t → I t (log ++ (event s a).toList)) :
    I s log := by
  refine Reachable.invariant (I := fun p => I p.1 p.2) h hinit ?_
  rintro ⟨s, log⟩ a ⟨t, log'⟩ hi - hs
  obtain ⟨u, hu, he⟩ := Option.map_eq_some_iff.mp hs
  cases he
  exact hstep s a _ log hi hu

end System

end Transition
