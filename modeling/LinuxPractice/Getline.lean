import LinuxPractice.Dictionary

/-!
# `getline` in a loop that never ends

The clients read `cin` line by line and do not look at its state. Behind the
end of the input `getline` leaves the string alone, so that the last line comes
again and again, if no end of line has finished it.
-/
namespace Getline

open CppString Dictionary

/-- `cin`, with its eofbit. -/
structure Stdin where
  text : Bytes
  eof : Bool
  deriving DecidableEq, Repr

/-- `getline`; behind the end of the input the string stays what it was. -/
def getline (line : Bytes) (stdin : Stdin) : Bytes × Stdin :=
  if stdin.eof then (line, stdin)
  else (stdin.text.takeWhile (· != newline),
    ⟨(stdin.text.dropWhile (· != newline)).drop 1, !stdin.text.contains newline⟩)

/-- The next `n` lines of `getline`. -/
def entered : Nat → Bytes → Stdin → List Bytes
  | 0, _, _ => []
  | n + 1, line, stdin =>
    (getline line stdin).1 :: entered n (getline line stdin).1 (getline line stdin).2

/-- What stands behind the last end of line. -/
def unfinished (input : Bytes) : Bytes := (input.splitOn newline).getLastD []

theorem entered_eof (n : Nat) (line text : Bytes) :
    entered n line ⟨text, true⟩ = List.replicate n line := by
  induction n with
  | zero => rfl
  | succ n ih => simp [entered, getline, ih, List.replicate_succ]

theorem take_append_replicate {α : Type} (n : Nat) (xs : List α) (x : α) :
    (xs ++ List.replicate (n + 1) x).take n = (xs ++ List.replicate n x).take n := by
  rw [List.take_append, List.take_append, List.take_replicate, List.take_replicate]
  congr 2
  omega

theorem unfinished_line {l rest : Bytes} (hl : newline ∉ l) :
    unfinished (l ++ newline :: rest) = unfinished rest := by
  obtain ⟨piece, pieces, hpieces⟩ := List.exists_cons_of_ne_nil (List.splitOn_ne_nil newline rest)
  simp [unfinished, List.splitOn_append_cons_self_of_not_mem hl, hpieces]

theorem unfinished_last {l : Bytes} (hl : newline ∉ l) : unfinished l = l := by
  simp [unfinished, List.splitOn_eq_singleton hl]

/-- The lines of the input, and after them for ever what was not finished by an end of line. -/
theorem entered_eq (n : Nat) (line input : Bytes) : entered n line ⟨input, false⟩ =
    (lines input ++ List.replicate n (unfinished input)).take n := by
  induction n generalizing line input with
  | zero => rfl
  | succ n ih =>
    rcases input_cases input with rfl | ⟨l, rest, hl, rfl⟩ | ⟨hl, hne⟩
    · simp [entered, getline, entered_eof, unfinished, lines, List.replicate_succ]
    · have hline : getline line ⟨l ++ newline :: rest, false⟩ = (l, ⟨rest, false⟩) := by
        simp [getline, takeWhile_ne hl, dropWhile_ne hl]
      rw [entered, hline, ih, lines_line hl, unfinished_line hl, List.cons_append,
        List.take_succ_cons, take_append_replicate]
    · have hline : getline line ⟨input, false⟩ = (input, ⟨[], true⟩) := by
        have hall : ∀ b ∈ input, (b != newline) = true := by
          intro b hb
          rw [bne_iff_ne]
          rintro rfl
          exact hl hb
        simp [getline, List.takeWhile_eq_self_iff.mpr hall, List.dropWhile_eq_nil_iff.mpr hall, hl]
      rw [entered, hline, entered_eof, lines_last hl hne, unfinished_last hl, List.singleton_append,
        List.take_succ_cons, List.take_replicate, Nat.min_eq_left (Nat.le_succ n)]

theorem unfinished_mem (input : Bytes) : unfinished input ∈ lines input ∨ unfinished input = [] := by
  simp only [unfinished, lines]
  split
  · rename_i hlast
    simp [List.getLastD_eq_getLast?, hlast]
  · obtain ⟨piece, hlast⟩ := Option.isSome_iff_exists.mp
      (List.getLast?_isSome.mpr (List.splitOn_ne_nil newline input))
    rw [List.getLastD_eq_getLast?, hlast]
    exact .inl (List.mem_of_getLast? hlast)

theorem newline_not_mem_getline {line : Bytes} (h : newline ∉ line) (stdin : Stdin) :
    newline ∉ (getline line stdin).1 := by
  unfold getline
  split
  · exact h
  · intro hmem
    simpa using List.mem_takeWhile_imp hmem

/-- After the lines `done` of the input the string is `line`, and `stdin` is left. -/
def Reads (input : Bytes) (done : List Bytes) (line : Bytes) (stdin : Stdin) : Prop :=
  ∀ n, done ++ entered n line stdin = entered (done.length + n) [] ⟨input, false⟩

variable {input line : Bytes} {done : List Bytes} {stdin : Stdin}

theorem reads_init (input : Bytes) : Reads input [] [] ⟨input, false⟩ := by simp [Reads]

theorem Reads.getline (h : Reads input done line stdin) :
    Reads input (done ++ [(getline line stdin).1]) (getline line stdin).1
      (getline line stdin).2 := by
  intro n
  have hnext := h (n + 1)
  rw [entered] at hnext
  rw [List.append_assoc, List.singleton_append, hnext, List.length_append, List.length_singleton]
  congr 1
  omega

theorem Reads.eq (h : Reads input done line stdin) : done =
    (lines input ++ List.replicate done.length (unfinished input)).take done.length := by
  have hdone := h 0
  rwa [entered, List.append_nil, Nat.add_zero, entered_eq] at hdone

theorem Reads.mem (h : Reads input done line stdin) {l : Bytes} (hl : l ∈ done) :
    l ∈ lines input ∨ l = [] := by
  rw [h.eq] at hl
  rcases List.mem_append.mp (List.mem_of_mem_take hl) with hl | hl
  · exact .inl hl
  · rw [List.eq_of_mem_replicate hl]
    exact unfinished_mem input

theorem Reads.newline_not_mem (h : Reads input done line stdin) {l : Bytes} (hl : l ∈ done) :
    newline ∉ l := by
  have hall : ∀ n line stdin, newline ∉ line → ∀ l ∈ entered n line stdin, newline ∉ l := by
    intro n
    induction n with
    | zero => simp [entered]
    | succ n ih =>
      intro line stdin hline
      have hnext := newline_not_mem_getline hline stdin
      rw [entered, List.forall_mem_cons]
      exact ⟨hnext, ih _ _ hnext⟩
  have hdone := h 0
  rw [entered, List.append_nil] at hdone
  rw [hdone] at hl
  exact hall _ _ _ (by simp) l hl

end Getline
