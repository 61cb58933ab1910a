import Mathlib

/-!
# A history kept in the slots of a ring

The entries of a growing history are written round a list of slots. `Stores`
says that the entries from `r` on are still in their slots; it survives a write
as long as less than one round lies between the write and `r`.
-/
namespace Ring

variable {T : Type}

/-- The entries of `h` from index `r` on are in the ring. -/
def Stores (ring h : List T) (r : Nat) : Prop :=
  ∀ i, r ≤ i → i < h.length → ring[i % ring.length]? = h[i]?

/-- Less than one round apart, two entries have different slots. -/
theorem mod_ne {i j n : Nat} (hlt : i < j) (hj : j < i + n) : i % n ≠ j % n := by
  intro he
  have hdvd : n ∣ j - i := (Nat.modEq_iff_dvd' (Nat.le_of_lt hlt)).mp he
  have hle := Nat.le_of_dvd (by omega) hdvd
  omega

theorem stores_nil (ring : List T) (r : Nat) : Stores ring [] r := by
  intro i _ hi
  simp at hi

theorem Stores.push {ring h : List T} {r : Nat} (hs : Stores ring h r)
    (hroom : h.length < r + ring.length) (v : T) :
    Stores (ring.set (h.length % ring.length) v) (h ++ [v]) r := by
  intro i hr hi
  rw [List.length_append, List.length_singleton] at hi
  rw [List.length_set]
  by_cases hlast : i = h.length
  · have hpos : 0 < ring.length := by omega
    subst hlast
    simp [Nat.mod_lt _ hpos]
  · have hne : h.length % ring.length ≠ i % ring.length :=
      (mod_ne (by omega) (by omega)).symm
    rw [List.getElem?_set_ne hne, hs i hr (by omega), List.getElem?_append_left (by omega)]

theorem Stores.read {ring h : List T} {r : Nat} (hs : Stores ring h r) (hr : r < h.length) :
    ring[r % ring.length]? = some h[r] := by
  rw [hs r (by omega) hr, List.getElem?_eq_getElem hr]

theorem Stores.mono {ring h : List T} {r r' : Nat} (hs : Stores ring h r) (hle : r ≤ r') :
    Stores ring h r' :=
  fun i hr hi => hs i (by omega) hi

end Ring
