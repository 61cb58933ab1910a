import LinuxPractice.Shell

/-!
# One line of the input

What `fgets` reads, and what is in the buffer when `interact` has taken off the
last character of it.
-/
namespace Shell

open CppString CBuffer

variable {input chunk l rest : Bytes}

theorem take_room {size : Nat} (hl : l.length = size ∨ rest = [] ∧ l.length ≤ size) :
    (l ++ rest).take size = l := by
  rcases hl with rfl | ⟨rfl, hl⟩
  · exact List.take_left
  · rw [List.append_nil, List.take_of_length_le hl]

theorem fgets_line {size : Nat} (hl : (10 : UInt8) ∉ l) (hlen : l.length < size - 1) (rest : Bytes) :
    fgets size (l ++ 10 :: rest) = some (l ++ [10], rest) := by
  have hroom : (l ++ 10 :: rest).take (size - 1) =
      l ++ 10 :: rest.take (size - 1 - l.length - 1) := by
    rw [List.take_append, List.take_of_length_le hlen.le]
    obtain ⟨n, hn⟩ : ∃ n, size - 1 - l.length = n + 1 := ⟨size - 1 - l.length - 1, by omega⟩
    rw [hn, List.take_succ_cons, Nat.add_sub_cancel]
  have hne : (l ++ 10 :: rest).isEmpty = false := by simp
  have hcut : (l ++ 10 :: rest.take (size - 1 - l.length - 1)).take (l.length + 1) = l ++ [10] := by
    simp [List.take_append]
  simp only [fgets, hne, hroom, find_append hl, hcut]
  simp

theorem fgets_piece {size : Nat} (hne : l ≠ []) (hl : (10 : UInt8) ∉ l)
    (hlen : l.length = size - 1 ∨ rest = [] ∧ l.length ≤ size - 1) :
    fgets size (l ++ rest) = some (l, rest) := by
  have hin : (l ++ rest).isEmpty = false := by simp [hne]
  simp only [fgets, hin, take_room hlen, find_eq_none_iff.mpr hl]
  simp

/-- What a piece of the input leaves in the buffer. -/
def withoutLast (chunk : Bytes) : Bytes := (chunk.takeWhile (· != 0)).dropLast

theorem nul_takeWhile : (0 : UInt8) ∉ chunk.takeWhile (· != 0) := by
  intro hm
  simpa using List.mem_takeWhile_imp hm

theorem nul_withoutLast : (0 : UInt8) ∉ withoutLast chunk :=
  fun hm => nul_takeWhile (List.mem_of_mem_dropLast hm)

/-- The string in the buffer ends at the first zero of what was read, or behind it. -/
theorem cut_line (chunk tail : Bytes) : ∃ more, chunk ++ 0 :: tail =
    chunk.takeWhile (· != 0) ++ 0 :: more := by
  cases ht : chunk.dropWhile (· != 0) with
  | nil =>
    refine ⟨tail, ?_⟩
    rw [List.takeWhile_eq_self_iff.mpr (by simpa using ht)]
  | cons b more =>
    have hb : b = 0 := by
      simpa using Words.head?_dropWhile (p := fun b : UInt8 => b != 0) (s := chunk) (b := b)
        (by rw [ht]; rfl)
    subst hb
    refine ⟨more ++ 0 :: tail, ?_⟩
    rw [← List.cons_append, ← ht, ← List.append_assoc, List.takeWhile_append_dropWhile]

theorem store_ok (s : State) (hne : chunk.takeWhile (· != 0) ≠ []) : ∃ more,
    store s chunk = .ok { s with commandline := withoutLast chunk ++ 0 :: more } := by
  obtain ⟨more, hmore⟩ := cut_line chunk (s.commandline.drop (chunk.length + 1))
  have hstr : cstr (chunk.takeWhile (· != 0) ++ 0 :: more) 0 = chunk.takeWhile (· != 0) :=
    cstr_append [] nul_takeWhile more
  obtain ⟨b, hb⟩ : ∃ b, chunk.takeWhile (· != 0) = withoutLast chunk ++ [b] :=
    ⟨_, (List.dropLast_append_getLast hne).symm⟩
  refine ⟨0 :: more, ?_⟩
  simp only [store, strlen, hmore, hstr, List.length_eq_zero_iff, hne, if_false]
  rw [hb]
  simp

theorem store_error (s : State) (hnil : chunk.takeWhile (· != 0) = []) :
    store s chunk = .error .lineBounds := by
  obtain ⟨more, hmore⟩ := cut_line chunk (s.commandline.drop (chunk.length + 1))
  have hstr : cstr (chunk ++ 0 :: s.commandline.drop (chunk.length + 1)) 0 = [] := by
    rw [hmore, hnil]
    rfl
  simp [store, strlen, hstr]

theorem readLine_ok (s : State) (h : fgets lineSize input = some (chunk, rest))
    (hne : chunk.takeWhile (· != 0) ≠ []) : ∃ more, readLine s input =
      .ok ({ s with commandline := withoutLast chunk ++ 0 :: more }, rest) := by
  obtain ⟨more, hstore⟩ := store_ok s hne
  refine ⟨more, ?_⟩
  simp only [readLine, h, hstore]
  rfl

/-- The command line that the next call delivers, if it has one. -/
def delivered (input : Bytes) : Option Bytes :=
  match fgets lineSize input with
  | none => none
  | some (chunk, _) =>
    if chunk.takeWhile (· != 0) = [] then none else some (withoutLast chunk)

theorem readLine_some (s : State) {line : Bytes} (h : delivered input = some line) :
    ∃ more rest, (0 : UInt8) ∉ line ∧
      readLine s input = .ok ({ s with commandline := line ++ 0 :: more }, rest) := by
  rw [delivered] at h
  cases hf : fgets lineSize input with
  | none => simp [hf] at h
  | some p =>
    obtain ⟨chunk, rest⟩ := p
    by_cases hne : chunk.takeWhile (· != 0) = []
    · simp [hf, hne] at h
    · obtain ⟨more, hread⟩ := readLine_ok s hf hne
      simp only [hf, hne, if_false, Option.some.injEq] at h
      subst h
      exact ⟨more, rest, nul_withoutLast, hread⟩

theorem readLine_none (s : State) (h : delivered input = none) :
    ∃ e, e ≠ .argvBounds ∧ readLine s input = .error e := by
  rw [delivered] at h
  cases hf : fgets lineSize input with
  | none => exact ⟨.assertion, by decide, by simp only [readLine, hf]⟩
  | some p =>
    obtain ⟨chunk, rest⟩ := p
    by_cases hnil : chunk.takeWhile (· != 0) = []
    · refine ⟨.lineBounds, by decide, ?_⟩
      simp only [readLine, hf, store_error s hnil]
      rfl
    · simp [hf, hnil] at h

end Shell
