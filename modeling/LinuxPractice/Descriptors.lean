import Mathlib

/-!
# Descriptor tables

What a process has open, by number. A new file takes the lowest free number;
numbers behind the end of the list are free.
-/
namespace Descriptors

variable {E : Type}

abbrev Table (E : Type) := List (Option E)

def get (t : Table E) (fd : Nat) : Option E := t[fd]?.join

/-- The entry `fd` becomes `e`, whatever it was. -/
def put (t : Table E) (fd : Nat) (e : E) : Table E :=
  if fd < t.length then t.set fd (some e)
  else t ++ List.replicate (fd - t.length) none ++ [some e]

def close (t : Table E) (fd : Nat) : Table E := t.set fd none

def lowest (t : Table E) : Nat := t.findIdx Option.isNone

/-- Open `e` under the lowest free number. -/
def alloc (t : Table E) (e : E) : Table E × Nat := (put t (lowest t) e, lowest t)

def dup2 (t : Table E) (old new : Nat) : Table E :=
  match get t old with
  | none => t
  | some e => put t new e

variable {t : Table E} {fd k : Nat} {e : E}

theorem get_put (t : Table E) (fd : Nat) (e : E) (k : Nat) :
    get (put t fd e) k = if k = fd then some e else get t k := by
  unfold get put
  split
  · rename_i hfd
    by_cases hk : k = fd
    · subst hk
      simp [hfd]
    · simp [hk, List.getElem?_set_ne (Ne.symm hk)]
  · rename_i hfd
    by_cases hk : k = fd
    · subst hk
      rw [List.getElem?_append_right (by simp; omega)]
      simp [Nat.add_sub_of_le (Nat.le_of_not_lt hfd)]
    · rw [if_neg hk]
      by_cases hin : k < t.length
      · rw [List.append_assoc, List.getElem?_append_left hin]
      · have hnone : t[k]? = none := List.getElem?_eq_none (Nat.le_of_not_lt hin)
        rw [hnone]
        by_cases hpad : k < fd
        · rw [List.getElem?_append_left (by simp; omega),
            List.getElem?_append_right (Nat.le_of_not_lt hin), List.getElem?_replicate]
          rw [if_pos (by omega)]
          rfl
        · rw [List.getElem?_eq_none (by simp; omega)]

theorem get_close (t : Table E) (fd k : Nat) :
    get (close t fd) k = if k = fd then none else get t k := by
  unfold get close
  by_cases hk : k = fd
  · subst hk
    by_cases hin : k < t.length
    · simp [hin]
    · rw [if_pos rfl, List.getElem?_eq_none (by simpa using hin)]
      rfl
  · simp [hk, List.getElem?_set_ne (Ne.symm hk)]

theorem get_lowest (t : Table E) : get t (lowest t) = none := by
  unfold get lowest
  by_cases h : t.findIdx Option.isNone < t.length
  · rw [List.getElem?_eq_getElem h]
    simpa using List.findIdx_getElem (w := h)
  · rw [List.getElem?_eq_none (Nat.le_of_not_lt h)]
    rfl

theorem get_of_lt_lowest (h : fd < lowest t) : get t fd ≠ none := by
  have hin : fd < t.length := Nat.lt_of_lt_of_le h List.findIdx_le_length
  have hopen := List.not_of_lt_findIdx h
  unfold get
  rw [List.getElem?_eq_getElem hin]
  intro hnone
  rw [Option.join_some] at hnone
  simp [hnone] at hopen

theorem lowest_eq (hfree : get t k = none) (hlow : ∀ fd < k, get t fd ≠ none) : lowest t = k := by
  by_contra hne
  cases Nat.lt_or_gt_of_ne hne with
  | inl h => exact hlow _ h (get_lowest t)
  | inr h => exact get_of_lt_lowest h hfree

theorem get_alloc (hfree : get t k = none) (hlow : ∀ fd < k, get t fd ≠ none) (e : E) :
    (alloc t e).2 = k ∧ ∀ fd, get (alloc t e).1 fd = if fd = k then some e else get t fd := by
  unfold alloc
  rw [lowest_eq hfree hlow]
  exact ⟨rfl, get_put t k e⟩

theorem get_alloc_zero (t : Table E) (e : E) : get (alloc t e).1 0 ≠ none := by
  rw [alloc, get_put]
  split
  · simp
  · exact get_of_lt_lowest (by omega)

theorem get_map {F : Type} (f : E → F) (t : Table E) (fd : Nat) :
    get (t.map (Option.map f)) fd = (get t fd).map f := by
  cases h : t[fd]? <;> simp [get, h]

theorem get_dup2 {old new : Nat} (h : get t old = some e) (fd : Nat) :
    get (dup2 t old new) fd = if fd = new then some e else get t fd := by
  unfold dup2
  rw [h]
  exact get_put t new e fd

theorem mem_iff : some e ∈ t ↔ ∃ fd, get t fd = some e := by
  simp only [List.mem_iff_getElem?, get, Option.join_eq_some_iff]

theorem mem_of_close (h : some e ∈ close t fd) : some e ∈ t := by
  obtain ⟨k, hk⟩ := mem_iff.mp h
  rw [get_close] at hk
  split at hk
  · cases hk
  · exact mem_iff.mpr ⟨k, hk⟩

theorem mem_of_dup2 {old new : Nat} (h : some e ∈ dup2 t old new) : some e ∈ t := by
  cases hold : get t old with
  | none => rwa [dup2, hold] at h
  | some e' =>
    obtain ⟨k, hk⟩ := mem_iff.mp h
    rw [get_dup2 hold] at hk
    split at hk
    · exact mem_iff.mpr ⟨old, hold.trans hk⟩
    · exact mem_iff.mpr ⟨k, hk⟩

end Descriptors
