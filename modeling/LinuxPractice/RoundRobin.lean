import Mathlib

/-!
# Dealing out a list in turn

Entry `k` of a growing list goes to receiver `k % n`. The `j`-th entry of a
receiver's share, its place in the whole list, and the lengths of the shares.
-/
namespace RoundRobin

variable {α : Type} {n i : Nat}

/-- What receiver `i` of `n` gets. -/
def share (n : Nat) (xs : List α) (i : Nat) : List α :=
  (xs.zipIdx.filter fun p => p.2 % n = i).map (·.1)

@[simp] theorem share_nil (n i : Nat) : share n ([] : List α) i = [] := rfl

theorem share_concat (n : Nat) (xs : List α) (x : α) (i : Nat) :
    share n (xs ++ [x]) i = share n xs i ++ if xs.length % n = i then [x] else [] := by
  by_cases hturn : xs.length % n = i
  · simp [share, List.zipIdx_append, hturn]
  · simp [share, List.zipIdx_append, hturn]

/-- The receiver whose turn it is gets the next entry. -/
theorem share_concat_self (n : Nat) (xs : List α) (x : α) :
    share n (xs ++ [x]) (xs.length % n) = share n xs (xs.length % n) ++ [x] := by
  rw [share_concat, if_pos rfl]

theorem share_concat_of_ne (xs : List α) (x : α) (h : i ≠ xs.length % n) :
    share n (xs ++ [x]) i = share n xs i := by
  rw [share_concat, if_neg h.symm, List.append_nil]

theorem share_mono {xs ys : List α} (h : xs <+: ys) (n i : Nat) :
    share n xs i <+: share n ys i := by
  obtain ⟨zs, rfl⟩ := h
  rw [share, share, List.zipIdx_append]
  exact ((List.prefix_append _ _).filter _).map _

/-- A receiver that does not exist gets nothing. -/
theorem share_of_le (hn : 0 < n) (hi : n ≤ i) (xs : List α) : share n xs i = [] := by
  have hnone : ∀ p ∈ xs.zipIdx, ¬ p.2 % n = i := by
    intro p _
    have := Nat.mod_lt p.2 hn
    omega
  simp only [share, List.map_eq_nil_iff, List.filter_eq_nil_iff, decide_eq_true_eq]
  exact hnone

theorem length_share (hi : i < n) (xs : List α) :
    (share n xs i).length = (xs.length + (n - 1 - i)) / n := by
  induction xs using List.reverseRecOn with
  | nil =>
    simp [Nat.div_eq_of_lt (show n - 1 - i < n by omega)]
  | append_singleton xs x ih =>
    have hturn : xs.length % n = i ↔ n ∣ xs.length + (n - 1 - i) + 1 := by
      rw [show xs.length + (n - 1 - i) + 1 = xs.length + (n - i) by omega]
      constructor
      · intro he
        refine ⟨xs.length / n + 1, ?_⟩
        have := Nat.div_add_mod xs.length n
        rw [Nat.mul_add, Nat.mul_one]
        omega
      · intro hdvd
        have hle : i ≤ xs.length + n := by omega
        have hmod : (xs.length + n) % n = i % n := by
          rw [show xs.length + (n - i) = xs.length + n - i by omega] at hdvd
          exact ((Nat.modEq_iff_dvd' hle).mpr hdvd).symm
        rwa [Nat.add_mod_right, Nat.mod_eq_of_lt hi] at hmod
    rw [share_concat, List.length_append, List.length_append, List.length_singleton, ih,
      show xs.length + 1 + (n - 1 - i) = xs.length + (n - 1 - i) + 1 by omega, Nat.succ_div]
    congr 1
    by_cases hdvd : n ∣ xs.length + (n - 1 - i) + 1
    · rw [if_pos (hturn.mpr hdvd), if_pos hdvd, List.length_singleton]
    · rw [if_neg (fun he => hdvd (hturn.mp he)), if_neg hdvd, List.length_nil]

theorem lt_length_share (hi : i < n) (xs : List α) (j : Nat) :
    j < (share n xs i).length ↔ j * n + i < xs.length := by
  rw [length_share hi, Nat.lt_iff_add_one_le, Nat.le_div_iff_mul_le (by omega), Nat.add_mul]
  omega

/-- The `j`-th entry of a share. -/
theorem share_getElem? (hi : i < n) (xs : List α) (j : Nat) :
    (share n xs i)[j]? = xs[j * n + i]? := by
  induction xs using List.reverseRecOn with
  | nil => simp
  | append_singleton xs x ih =>
    have hlt := lt_length_share hi xs j
    by_cases hj : j * n + i < xs.length
    · rw [share_concat, List.getElem?_append_left (hlt.mpr hj), List.getElem?_append_left hj, ih]
    · by_cases hlast : j * n + i = xs.length
      · have hturn : xs.length % n = i := by
          rw [← hlast, Nat.add_comm, Nat.add_mul_mod_self_right, Nat.mod_eq_of_lt hi]
        have hlen : (share n xs i).length = j := by
          rw [length_share hi, ← hlast, show j * n + i + (n - 1 - i) = n - 1 + j * n by omega,
            Nat.add_mul_div_right _ _ (by omega), Nat.div_eq_of_lt (by omega), Nat.zero_add]
        rw [share_concat, if_pos hturn, hlast, List.getElem?_concat_length,
          List.getElem?_append_right (le_of_eq hlen), hlen, Nat.sub_self]
        rfl
      · have hout : ¬ j < (share n (xs ++ [x]) i).length := by
          rw [lt_length_share hi, List.length_append, List.length_singleton]
          omega
        rw [List.getElem?_eq_none (by omega),
          List.getElem?_eq_none (by rw [List.length_append, List.length_singleton]; omega)]

/-- No receiver is more than one entry ahead of another. -/
theorem length_share_le {j : Nat} (hi : i < n) (hj : j < n) (xs : List α) :
    (share n xs i).length ≤ (share n xs j).length + 1 := by
  rw [length_share hi, length_share hj, ← Nat.add_div_right _ (by omega)]
  exact Nat.div_le_div_right (by omega)

/-- Every entry is in one place of one share. -/
theorem share_mod_div (hn : 0 < n) (xs : List α) (k : Nat) :
    (share n xs (k % n))[k / n]? = xs[k]? := by
  rw [share_getElem? (Nat.mod_lt k hn), Nat.div_add_mod']

end RoundRobin
