import Mathlib

/-!
# Runs on a line

How far a property holds on both sides of a place where it holds decides how
long a run of it through that place can be.
-/
namespace Runs

variable {f : ℤ → Prop} {a b : ℕ}

/-- `f` holds at the first `n` places behind zero and not at the next one. -/
structure Reach (f : ℤ → Prop) (n : ℕ) : Prop where
  holds : ∀ t : ℤ, 0 < t → t ≤ n → f t
  ends : ¬ f (n + 1)

theorem Reach.unique (ha : Reach f a) (hb : Reach f b) : a = b := by
  by_contra hab
  cases Nat.lt_or_gt_of_ne hab with
  | inl h => exact ha.ends (hb.holds _ (by omega) (by omega))
  | inr h => exact hb.ends (ha.holds _ (by omega) (by omega))

/-- `k` places in a row, zero among them. -/
def Through (f : ℤ → Prop) (k : ℕ) : Prop :=
  ∃ s : ℤ, (s ≤ 0 ∧ 0 < s + k) ∧ ∀ t, s ≤ t → t < s + k → f t

theorem through_iff (hzero : f 0) (ha : Reach f a) (hb : Reach (fun t => f (-t)) b) {k : ℕ}
    (hk : 0 < k) : Through f k ↔ k ≤ a + b + 1 := by
  constructor
  · intro h
    obtain ⟨s, ⟨hs, hsk⟩, hf⟩ := h
    have hright : s + k ≤ a + 1 := by
      by_contra hfar
      exact ha.ends (hf _ (by omega) (by omega))
    have hleft : -(b : ℤ) ≤ s := by
      by_contra hfar
      exact hb.ends (hf _ (by omega) (by omega))
    omega
  · intro h
    refine ⟨-(min b (k - 1) : ℕ), ⟨by omega, by omega⟩, ?_⟩
    intro t hst htk
    by_cases hpos : 0 < t
    · exact ha.holds t hpos (by omega)
    · by_cases hneg : 0 < -t
      · simpa using hb.holds (-t) hneg (by omega)
      · have ht : t = 0 := by omega
        rwa [ht]

theorem Reach.isGreatest (ha : Reach f a) :
    IsGreatest {k : ℕ | ∀ t : ℤ, 0 < t → t ≤ k → f t} a := by
  refine ⟨ha.holds, ?_⟩
  intro k hk
  by_contra hfar
  exact ha.ends (hk _ (by omega) (by omega))

theorem isGreatest_through (hzero : f 0) (ha : Reach f a) (hb : Reach (fun t => f (-t)) b) :
    IsGreatest {k | Through f k} (a + b + 1) := by
  refine ⟨(through_iff hzero ha hb (Nat.succ_pos _)).mpr (le_refl _), ?_⟩
  intro k hk
  have hpos : 0 < k := by
    obtain ⟨s, ⟨hs, hsk⟩, -⟩ := hk
    omega
  exact (through_iff hzero ha hb hpos).mp hk

theorem Reach.between (ha : Reach f a) (hzero : f 0) (hb : Reach (fun t => f (-t)) b) {s : ℤ}
    (hlo : -b ≤ s) (hhi : s ≤ a) : f s := by
  by_cases hright : 0 < s
  · exact ha.holds s hright hhi
  · by_cases hleft : 0 < -s
    · simpa using hb.holds (-s) hleft (by omega)
    · have hs : s = 0 := by omega
      rwa [hs]

/-- From another place of the same run. -/
theorem Reach.shift (ha : Reach f a) (hzero : f 0) (hb : Reach (fun t => f (-t)) b) {s : ℤ}
    (hlo : -b ≤ s) (hhi : s ≤ a) : Reach (fun t => f (s + t)) (a - s).toNat where
  holds := fun _ _ _ => ha.between hzero hb (by omega) (by omega)
  ends := by
    have hend : s + ((a - s).toNat + 1) = a + 1 := by omega
    rw [hend]
    exact ha.ends

theorem Reach.shift_back (ha : Reach f a) (hzero : f 0) (hb : Reach (fun t => f (-t)) b) {s : ℤ}
    (hlo : -b ≤ s) (hhi : s ≤ a) : Reach (fun t => f (s + -t)) (b + s).toNat := by
  have hswap : Reach (fun t => f (- -t)) a := by simpa only [neg_neg] using ha
  have hshift := Reach.shift (f := fun t => f (-t)) hb (by simpa using hzero) hswap (s := -s)
    (by omega) (by omega)
  simpa only [neg_add_rev, neg_neg, sub_neg_eq_add, add_comm] using hshift

end Runs
