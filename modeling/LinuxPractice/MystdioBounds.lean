import LinuxPractice.Mystdio

/-!
# Mystdio: when the array is large enough

Full buffering, the mode `_fopen` selects, empties the buffer at the one level
`out_pos == SIZE`. A write that steps over it is copied past the array.
-/
namespace Mystdio

open CppString Transition Transition.System

variable {fp : File} {s t : State} {data : Bytes}

/-- Where the next byte goes, and that no call has left the array. -/
def InBuffer (s : State) : Prop := s.outside = false ∧ s.file.outPos ≤ size

/-- The level of a buffer that is emptied when it is exactly full. -/
def level (n : Nat) : Nat := if n = size then 0 else n

/-- No write steps over `size`, counted from the last time the buffer was emptied. -/
def FitsFrom : Nat → List Call → Prop
  | _, [] => True
  | n, .fwrite data :: calls =>
    n + data.length ≤ size ∧ FitsFrom (level (n + data.length)) calls
  | _, .fflush :: calls => FitsFrom 0 calls

instance FitsFrom.decidable : (n : Nat) → (calls : List Call) → Decidable (FitsFrom n calls)
  | _, [] => isTrue trivial
  | n, .fwrite data :: calls =>
    have := FitsFrom.decidable (level (n + data.length)) calls
    inferInstanceAs (Decidable (_ ∧ _))
  | _, .fflush :: calls => FitsFrom.decidable 0 calls

theorem level_le {n : Nat} (h : n ≤ size) : level n ≤ size := by
  unfold level
  split
  · exact Nat.zero_le _
  · exact h

/-- Open for full buffering, and nothing written outside. -/
structure Filled (s : State) (n : Nat) : Prop where
  inside : s.outside = false
  flag : s.file.flag = flushAll
  outPos : s.file.outPos = n
  bound : n ≤ size

theorem Filled.inBuffer {n : Nat} (hi : Filled s n) : InBuffer s :=
  ⟨hi.inside, hi.outPos ▸ hi.bound⟩

theorem Filled.fflush {n : Nat} (hi : Filled s n) (h : step s .fflush = some t) : Filled t 0 := by
  have hin := hi.inside
  simp [step, hin] at h
  subst h
  by_cases hpos : s.file.outPos > 0
  · exact ⟨hin, by simp [State.after, Mystdio.fflush, hpos, File.handOver, hi.flag],
      by simp [State.after, Mystdio.fflush, hpos, File.handOver], Nat.zero_le _⟩
  · exact ⟨hin, by simp [State.after, Mystdio.fflush, hpos, hi.flag],
      by simp [State.after, Mystdio.fflush, hpos]; omega, Nat.zero_le _⟩

/-- A write that fits moves the level on. -/
theorem Filled.fwrite {n : Nat} (hi : Filled s n) (hfit : n + data.length ≤ size)
    (h : step s (.fwrite data) = some t) : Filled t (level (n + data.length)) := by
  have hin := hi.inside
  cases hstore : s.file.store data with
  | none =>
    have hover := store_eq_none.mp hstore
    rw [hi.outPos] at hover
    omega
  | some stored =>
    obtain ⟨hpos, -, -, hflag⟩ := store_eq_some hstore
    rw [hi.outPos] at hpos
    rw [hi.flag] at hflag
    by_cases hfull : n + data.length = size
    · simp [step, hin, fwrite_all hi.flag, hstore, hpos, hfull] at h
      subst h
      exact ⟨hin, hflag, by simp [State.after, File.handOver, level, hfull], level_le hfit⟩
    · simp [step, hin, fwrite_all hi.flag, hstore, hpos, hfull] at h
      subst h
      exact ⟨hin, hflag, by simp [State.after, hpos, level, hfull], level_le hfit⟩

/-- A write stays in the array if and only if it fits. -/
theorem Filled.inBuffer_fwrite {n : Nat} (hi : Filled s n)
    (h : step s (.fwrite data) = some t) : InBuffer t ↔ n + data.length ≤ size := by
  by_cases hfit : n + data.length ≤ size
  · exact iff_of_true (hi.fwrite hfit h).inBuffer hfit
  · have hstore : s.file.store data = none :=
      store_eq_none.mpr (by rw [hi.outPos]; omega)
    simp [step, hi.inside, fwrite_all hi.flag, hstore] at h
    subst h
    simp [InBuffer, hfit]

theorem throughout_iff_fitsFrom {n : Nat} {calls : List Call} (hi : Filled s n) :
    (session fp).Throughout InBuffer s calls ↔ FitsFrom n calls := by
  obtain rfl : s.file.outPos = n := hi.outPos
  apply throughout_iff_along (J := fun s => Filled s s.file.outPos)
    (C := fun s calls => FitsFrom s.file.outPos calls) ?_ ?_ ?_ ?_ hi hi.inBuffer
  · intros
    trivial
  · intro s c hi _
    exact exists_step hi.inside c
  · intro s c t hi ht hin
    cases c with
    | fflush =>
      have hit := hi.fflush ht
      have hpos := hit.outPos
      simp only [hpos]
      exact ⟨hit, fun calls => Iff.rfl⟩
    | fwrite data =>
      have hfit := (hi.inBuffer_fwrite ht).mp hin
      have hit := hi.fwrite hfit ht
      have hpos := hit.outPos
      simp only [hpos]
      exact ⟨hit, fun calls => by simp [FitsFrom, hfit]⟩
  · intro s c t calls hi ht hfits
    cases c with
    | fflush => exact (hi.fflush ht).inBuffer
    | fwrite data => exact (hi.inBuffer_fwrite ht).mpr hfits.1

theorem fopen_eq_some {env : Env} {filename flag : Bytes} (h : fopen env filename flag = some fp) :
    ∃ fd block, fp = File.fresh fd flushAll block := by
  unfold fopen at h
  split at h
  · cases h
  split at h
  · cases h
  split at h <;> cases h
  exact ⟨_, _, rfl⟩

/-- On a file from `_fopen` all stays inside `outbuffer` exactly if the lengths written since the
buffer was last emptied never step over `SIZE`. -/
theorem inBuffer_throughout_iff {env : Env} {filename flag : Bytes}
    (h : fopen env filename flag = some fp) (calls : List Call) :
    (session fp).Throughout InBuffer (start fp) calls ↔ FitsFrom 0 calls := by
  obtain ⟨fd, block, rfl⟩ := fopen_eq_some h
  exact throughout_iff_fitsFrom ⟨rfl, rfl, rfl, Nat.zero_le _⟩

def testEnv : Env := ⟨fun _ _ _ => 3, some zeros⟩

/-- "test.txt" and "w". -/
def testFile : Option File := fopen testEnv [116, 101, 115, 116, 46, 116, 120, 116] [119]

theorem testFile_eq : testFile = some (File.fresh 3 flushAll zeros) := rfl

/-- The ten lines of `main`. -/
theorem inBuffer_throughout_iff_main :
    (session (File.fresh 3 flushAll zeros)).Throughout InBuffer
      (start (File.fresh 3 flushAll zeros)) (List.replicate 10 (.fwrite hello)) := by
  apply (inBuffer_throughout_iff testFile_eq _).mpr
  decide

/-- Two writes of a thousand bytes step over the level at which the buffer would be emptied. -/
theorem thousand_twice_overruns :
    testFile = some (File.fresh 3 flushAll zeros) ∧
    ¬ (session (File.fresh 3 flushAll zeros)).Throughout InBuffer
      (start (File.fresh 3 flushAll zeros))
      [.fwrite (List.replicate 1000 97), .fwrite (List.replicate 1000 97)] := by
  refine ⟨testFile_eq, fun h => ?_⟩
  have hfits := (throughout_iff_fitsFrom (n := 0) ⟨rfl, rfl, rfl, Nat.zero_le _⟩).mp h
  have hsecond := hfits.2.1
  rw [List.length_replicate] at hsecond
  exact absurd hsecond (by decide)

end Mystdio
