import Mathlib

/-!
# Pipes

What nobody has read of what is in a pipe, and how many descriptors stand for
each of its ends. A `write` puts in as much at a time as there is room for, and
a `read` takes from the front; both block where they could do nothing.
-/
namespace Pipes

structure Pipe (β : Type) where
  unread : List β
  readers : Nat
  writers : Nat
  deriving DecidableEq, Repr

/-- What a `write` comes to; SIGPIPE where nobody can read any more. -/
inductive Wrote (β : Type) where
  | put : Pipe β → Wrote β
  | sigpipe : Wrote β
  deriving DecidableEq, Repr

variable {β : Type}

/-- `k` elements of what a `write` has left, or `none` where it blocks. -/
def Pipe.write (capacity : Nat) (p : Pipe β) (data : List β) (k : Nat) :
    Option (Wrote β) :=
  if p.readers = 0 then some .sigpipe
  else if 0 < k ∧ k ≤ data.length ∧ p.unread.length + k ≤ capacity then
    some (.put { p with unread := p.unread ++ data.take k })
  else none

/-- `k` elements for a `read` of at most `size`, none of them at the end of the file, or `none`
where it blocks. -/
def Pipe.read (p : Pipe β) (size k : Nat) : Option (List β × Pipe β) :=
  if p.unread.isEmpty then if p.writers = 0 then some ([], p) else none
  else if 0 < k ∧ k ≤ size ∧ k ≤ p.unread.length then
    some (p.unread.take k, { p with unread := p.unread.drop k })
  else none

variable {capacity size k : Nat} {p q : Pipe β} {data : List β} {w : Wrote β}

theorem Pipe.write_cases (h : p.write capacity data k = some w) :
    p.readers = 0 ∧ w = .sigpipe ∨
      p.readers ≠ 0 ∧ 0 < k ∧ k ≤ data.length ∧ p.unread.length + k ≤ capacity ∧
        w = .put { p with unread := p.unread ++ data.take k } := by
  unfold write at h
  split at h
  · cases h
    exact .inl ⟨‹_›, rfl⟩
  · split at h <;> cases h
    rename_i hreaders hroom
    exact .inr ⟨hreaders, hroom.1, hroom.2.1, hroom.2.2, rfl⟩

theorem Pipe.read_cases (h : p.read size k = some (data, q)) :
    p.unread = [] ∧ p.writers = 0 ∧ data = [] ∧ q = p ∨
      0 < data.length ∧ data.length ≤ size ∧ p.unread = data ++ q.unread ∧
        q.readers = p.readers ∧ q.writers = p.writers := by
  unfold read at h
  split at h
  · rename_i hempty
    split at h <;> cases h
    exact .inl ⟨List.isEmpty_iff.mp hempty, ‹_›, rfl, rfl⟩
  · split at h <;> cases h
    rename_i hroom
    refine .inr ⟨?_, ?_, (List.take_append_drop k p.unread).symm, rfl, rfl⟩
    · rw [List.length_take]
      omega
    · rw [List.length_take]
      omega

/-- A writer with something left is only kept from it by a pipe without the room. -/
theorem Pipe.write_eq_none (hpos : 0 < k) (hlen : k ≤ data.length)
    (h : p.write capacity data k = none) : p.readers ≠ 0 ∧ capacity < p.unread.length + k := by
  unfold write at h
  split at h
  · cases h
  · split at h <;> cases h
    exact ⟨‹_›, by omega⟩

/-- A reader is only kept waiting by an empty one that somebody can write to. -/
theorem Pipe.read_eq_none (hsize : 0 < size) (h : p.read size 1 = none) :
    p.unread = [] ∧ p.writers ≠ 0 := by
  unfold read at h
  split at h
  · rename_i hempty
    split at h <;> cases h
    exact ⟨List.isEmpty_iff.mp hempty, ‹_›⟩
  · rename_i hempty
    have hlen := List.length_pos_iff.mpr (mt List.isEmpty_iff.mpr hempty)
    rw [if_pos ⟨Nat.one_pos, hsize, hlen⟩] at h
    cases h

end Pipes
