import Mathlib

/-!
# Any number of threads and where they stand

Each thread has a program counter. `count` says how many threads stand at a
kind of place, and `Owns` ties the places inside a critical section to the
owner recorded in the mutex.
-/
namespace Threads

variable {τ κ ω : Type}

section Counting

variable [Fintype τ]

/-- The number of threads whose counter satisfies `f`. -/
def count (f : κ → Bool) (pc : τ → κ) : Nat := (Finset.univ.filter fun t => f (pc t) = true).card

theorem count_eq_sum (f : κ → Bool) (pc : τ → κ) : count f pc = ∑ t, (f (pc t)).toNat := by
  rw [count, Finset.card_filter]
  apply Finset.sum_congr rfl
  intro t _
  cases f (pc t) <;> rfl

/-- Moving one thread changes the count by that thread alone. -/
theorem count_update [DecidableEq τ] (f : κ → Bool) (pc : τ → κ) (t : τ) (k : κ) :
    count f (Function.update pc t k) + (f (pc t)).toNat = count f pc + (f k).toNat := by
  have hcomp : (fun u => (f (Function.update pc t k u)).toNat) =
      Function.update (fun u => (f (pc u)).toNat) t (f k).toNat := by
    funext u
    by_cases hu : u = t
    · subst hu; simp
    · simp [hu]
  rw [count_eq_sum, count_eq_sum, hcomp, Finset.sum_update_of_mem (Finset.mem_univ t),
    ← Finset.add_sum_erase _ _ (Finset.mem_univ t), Finset.sdiff_singleton_eq_erase]
  omega

/-- The same for a thread whose place is known. -/
theorem count_move [DecidableEq τ] (f : κ → Bool) {pc : τ → κ} {t : τ} {k : κ} (h : pc t = k)
    (k' : κ) : count f (Function.update pc t k') + (f k).toNat = count f pc + (f k').toNat := by
  simpa [h] using count_update f pc t k'

theorem count_pos {f : κ → Bool} {pc : τ → κ} {t : τ} (h : f (pc t) = true) : 0 < count f pc :=
  Finset.card_pos.mpr ⟨t, by simp [h]⟩

theorem count_eq_zero {f : κ → Bool} {pc : τ → κ} (h : ∀ t, f (pc t) = false) : count f pc = 0 := by
  simp [count, h]

theorem count_le {f g : κ → Bool} (hfg : ∀ k, f k = true → g k = true) (pc : τ → κ) :
    count f pc ≤ count g pc := by
  apply Finset.card_le_card
  intro t ht
  simp only [Finset.mem_filter, Finset.mem_univ, true_and] at ht ⊢
  exact hfg _ ht

/-- Places of two disjoint kinds are counted separately. -/
theorem count_add {f g h : κ → Bool} (hfg : ∀ k, (h k).toNat = (f k).toNat + (g k).toNat)
    (pc : τ → κ) : count h pc = count f pc + count g pc := by
  simp only [count_eq_sum, hfg, Finset.sum_add_distrib]

end Counting

/-- Two sums over the threads that differ in one thread. -/
theorem sum_eq_of_ne {M : Type} [AddCommMonoid M] [Fintype τ] [DecidableEq τ] {f g : τ → M} {t : τ}
    (h : ∀ u, u ≠ t → f u = g u) : ∑ u, f u + g t = ∑ u, g u + f t := by
  have herase : ∑ u ∈ Finset.univ.erase t, f u = ∑ u ∈ Finset.univ.erase t, g u :=
    Finset.sum_congr rfl fun u hu => h u (Finset.ne_of_mem_erase hu)
  rw [← Finset.add_sum_erase Finset.univ f (Finset.mem_univ t),
    ← Finset.add_sum_erase Finset.univ g (Finset.mem_univ t), herase]
  abel

/-- A sum over the threads changes by the thread that moves. -/
theorem sum_update {M : Type} [AddCommMonoid M] [Fintype τ] [DecidableEq τ] (f : κ → M)
    {pc : τ → κ} {t : τ} {k : κ} (h : pc t = k) (k' : κ) :
    ∑ u, f (Function.update pc t k' u) + f k = ∑ u, f (pc u) + f k' := by
  subst h
  have hsum := sum_eq_of_ne (t := t) (f := fun u => f (Function.update pc t k' u))
    (g := fun u => f (pc u)) fun u hu => by simp [hu]
  simpa using hsum

/-- Another thread stays where it is. -/
theorem exists_update [DecidableEq τ] {f : κ → Bool} {pc : τ → κ} {t : τ}
    (h : ∃ u, f (pc u) = true) (ht : f (pc t) = false) (k : κ) :
    ∃ u, f (Function.update pc t k u) = true := by
  obtain ⟨u, hu⟩ := h
  have hne : u ≠ t := by
    intro he
    subst he
    rw [hu] at ht
    cases ht
  exact ⟨u, by simpa [hne] using hu⟩

/-- Threads that can go from `a` to `b` one at a time all get there. -/
theorem move_all [Fintype τ] [DecidableEq τ] {R : (τ → κ) → Prop} {a b : κ} (hinit : R fun _ => a)
    (hmove : ∀ pc t, R pc → pc t = a → R (Function.update pc t b)) : R fun _ => b := by
  have hsome : ∀ S : Finset τ, R fun t => if t ∈ S then b else a := by
    intro S
    induction S using Finset.induction_on with
    | empty => simpa using hinit
    | insert t S ht ih =>
      have hnext := hmove _ t ih (by simp [ht])
      have he : Function.update (fun u => if u ∈ S then b else a) t b =
          fun u => if u ∈ insert t S then b else a := by
        funext u
        by_cases hu : u = t
        · subst hu; simp
        · simp [hu]
      rwa [he] at hnext
  simpa using hsome Finset.univ

/-- The threads at a place of kind `f` are exactly the recorded owner. The owner
may also be a thread of another group, so threads are named through `name`. -/
def Owns (name : τ → ω) (f : κ → Bool) (pc : τ → κ) (owner : Option ω) : Prop :=
  ∀ t, f (pc t) = true ↔ owner = some (name t)

section Ownership

variable {name : τ → ω} {f : κ → Bool} {pc : τ → κ} {owner : Option ω} {t : τ} {k : κ}

theorem Owns.not_mem_of_none (h : Owns name f pc none) (t : τ) : f (pc t) = false := by
  have := h t
  simpa using this

/-- A lock of this group alone is free when nobody is inside. -/
theorem Owns.eq_none {owner : Option τ} (h : Owns id f pc owner) (hout : ∀ t, f (pc t) = false) :
    owner = none := by
  cases howner : owner with
  | none => rfl
  | some t =>
    have hin : f (pc t) = true := (h t).mpr howner
    rw [hout t] at hin
    cases hin

/-- Threads may move freely as long as none enters or leaves. -/
theorem Owns.congr {pc' : τ → κ} (h : Owns name f pc owner) (hpc : ∀ t, f (pc' t) = f (pc t)) :
    Owns name f pc' owner := by
  intro t
  rw [hpc t]
  exact h t

variable [DecidableEq τ]

theorem Owns.acquire (hn : Function.Injective name) (h : Owns name f pc none) (hk : f k = true) :
    Owns name f (Function.update pc t k) (some (name t)) := by
  intro u
  by_cases hu : u = t
  · subst hu; simp [hk]
  · have hne : name t ≠ name u := fun he => hu (hn he).symm
    simp [hu, h.not_mem_of_none u, hne]

theorem Owns.release (hn : Function.Injective name) (h : Owns name f pc owner)
    (ht : f (pc t) = true) (hk : f k = false) : Owns name f (Function.update pc t k) none := by
  have howner := (h t).mp ht
  intro u
  by_cases hu : u = t
  · subst hu; simp [hk]
  · have hne : name t ≠ name u := fun he => hu (hn he).symm
    have := h u
    simp [howner, hne] at this
    simp [hu, this]

/-- A step that neither enters nor leaves the critical section. -/
theorem Owns.stay (h : Owns name f pc owner) (hk : f k = f (pc t)) :
    Owns name f (Function.update pc t k) owner := by
  intro u
  by_cases hu : u = t
  · subst hu; simpa [hk] using h u
  · simpa [hu] using h u

omit [DecidableEq τ] in
/-- The lock passes between threads of another group. -/
theorem Owns.other {owner' : Option ω} (h : Owns name f pc owner) (ho : ∀ t, owner ≠ some (name t))
    (ho' : ∀ t, owner' ≠ some (name t)) : Owns name f pc owner' := by
  intro u
  have := h u
  simp only [ho u, iff_false, Bool.not_eq_true] at this
  simp [this, ho' u]

omit [DecidableEq τ] in
theorem Owns.unique (hn : Function.Injective name) (h : Owns name f pc owner) {u : τ}
    (ht : f (pc t) = true) (hu : f (pc u) = true) : t = u := by
  have := ((h t).mp ht).symm.trans ((h u).mp hu)
  exact hn (Option.some.inj this)

omit [DecidableEq τ] in
/-- While the owner stands elsewhere in its critical section, nobody stands at `g`. -/
theorem Owns.count_eq_zero [Fintype τ] (hn : Function.Injective name) (h : Owns name f pc owner)
    {g : κ → Bool} (hg : ∀ k, g k = true → f k = true) (ht : f (pc t) = true)
    (hgt : g (pc t) = false) : count g pc = 0 := by
  apply Threads.count_eq_zero
  intro u
  by_contra hu
  rw [Bool.not_eq_false] at hu
  obtain rfl := h.unique hn ht (hg _ hu)
  rw [hgt] at hu
  cases hu

omit [DecidableEq τ] in
/-- At most one thread stands at a place that only the owner may be at. -/
theorem Owns.count_le_one [Fintype τ] (hn : Function.Injective name) (h : Owns name f pc owner)
    {g : κ → Bool} (hg : ∀ k, g k = true → f k = true) : count g pc ≤ 1 := by
  apply Finset.card_le_one.mpr
  intro t ht u hu
  simp only [Finset.mem_filter, Finset.mem_univ, true_and] at ht hu
  exact h.unique hn (hg _ ht) (hg _ hu)

end Ownership

section Exclusion

variable {τ' κ' : Type} {f : κ → Bool} {g : κ' → Bool} {pc : τ → κ} {pc' : τ' → κ'}
  {mutex : Option (τ ⊕ τ')}

/-- One mutex shared by two groups of threads. -/
structure Exclusive (f : κ → Bool) (g : κ' → Bool) (pc : τ → κ) (pc' : τ' → κ')
    (mutex : Option (τ ⊕ τ')) : Prop where
  left : Owns Sum.inl f pc mutex
  right : Owns Sum.inr g pc' mutex

theorem Exclusive.acquire_left [DecidableEq τ] (h : Exclusive f g pc pc' none) (t : τ) {k : κ}
    (hk : f k = true) : Exclusive f g (Function.update pc t k) pc' (some (.inl t)) where
  left := h.left.acquire Sum.inl_injective hk
  right := h.right.other (by simp) (by simp)

theorem Exclusive.acquire_right [DecidableEq τ'] (h : Exclusive f g pc pc' none) (t : τ') {k : κ'}
    (hk : g k = true) : Exclusive f g pc (Function.update pc' t k) (some (.inr t)) where
  left := h.left.other (by simp) (by simp)
  right := h.right.acquire Sum.inr_injective hk

theorem Exclusive.stay_left [DecidableEq τ] (h : Exclusive f g pc pc' mutex) {t : τ} {k : κ}
    (hk : f k = f (pc t)) : Exclusive f g (Function.update pc t k) pc' mutex where
  left := h.left.stay hk
  right := h.right

theorem Exclusive.stay_right [DecidableEq τ'] (h : Exclusive f g pc pc' mutex) {t : τ'} {k : κ'}
    (hk : g k = g (pc' t)) : Exclusive f g pc (Function.update pc' t k) mutex where
  left := h.left
  right := h.right.stay hk

theorem Exclusive.release_left [DecidableEq τ] (h : Exclusive f g pc pc' mutex) {t : τ} {k : κ}
    (ht : f (pc t) = true) (hk : f k = false) :
    Exclusive f g (Function.update pc t k) pc' none where
  left := h.left.release Sum.inl_injective ht hk
  right := by
    apply h.right.other
    · simp [(h.left t).mp ht]
    · simp

theorem Exclusive.release_right [DecidableEq τ'] (h : Exclusive f g pc pc' mutex) {t : τ'} {k : κ'}
    (ht : g (pc' t) = true) (hk : g k = false) :
    Exclusive f g pc (Function.update pc' t k) none where
  left := by
    apply h.left.other
    · simp [(h.right t).mp ht]
    · simp
  right := h.right.release Sum.inr_injective ht hk

end Exclusion

/-- A signal wakes only sleepers, and at least one of them if there is one. -/
def Wakes [Fintype τ] (asleep : τ → Bool) (w : Finset τ) : Prop :=
  (∀ t ∈ w, asleep t = true) ∧ ((∃ t, asleep t = true) → ∃ t, t ∈ w)

instance [Fintype τ] [DecidableEq τ] (asleep : τ → Bool) (w : Finset τ) :
    Decidable (Wakes asleep w) :=
  inferInstanceAs (Decidable (_ ∧ _))

/-- A signal that wakes every sleeper is always possible. -/
theorem wakes_all [Fintype τ] (asleep : τ → Bool) :
    Wakes asleep (Finset.univ.filter fun t => asleep t = true) := by
  simp [Wakes]

theorem wakes_empty [Fintype τ] {asleep : τ → Bool} (h : ∀ t, asleep t = false) :
    Wakes asleep ∅ := by
  simp [Wakes, h]

/-- The places after the threads in `w` were woken. -/
def wakeAll [DecidableEq τ] (wake : κ → κ) (w : Finset τ) (pc : τ → κ) : τ → κ :=
  fun t => if t ∈ w then wake (pc t) else pc t

section Waking

variable [DecidableEq τ] {wake : κ → κ} {w : Finset τ} {pc : τ → κ} {f : κ → Bool}

@[simp] theorem wakeAll_empty : wakeAll wake ∅ pc = pc := by
  funext t
  simp [wakeAll]

/-- Waking does not change what it does not change in a single thread. -/
theorem wakeAll_congr (hf : ∀ k, f (wake k) = f k) (t : τ) : f (wakeAll wake w pc t) = f (pc t) := by
  unfold wakeAll
  split
  · exact hf _
  · rfl

theorem wakeAll_keeps {Q : κ → Prop} (hwake : ∀ k, Q k → Q (wake k)) {t : τ} (h : Q (pc t)) :
    Q (wakeAll wake w pc t) := by
  unfold wakeAll
  split
  · exact hwake _ h
  · exact h

/-- After a signal some thread is awake. -/
theorem exists_awake [Fintype τ] [Inhabited τ] {asleep : κ → Bool}
    (hwake : ∀ k, asleep (wake k) = false) (hw : Wakes (fun t => asleep (pc t)) w) :
    ∃ t, asleep (wakeAll wake w pc t) = false := by
  by_cases hsome : ∃ t, asleep (pc t) = true
  · obtain ⟨t, ht⟩ := hw.2 hsome
    exact ⟨t, by simp [wakeAll, ht, hwake]⟩
  · have hawake : asleep (pc default) = false := by
      rw [← Bool.not_eq_true]
      exact fun h => hsome ⟨default, h⟩
    refine ⟨default, ?_⟩
    unfold wakeAll
    split
    · exact hwake _
    · exact hawake

end Waking

end Threads
