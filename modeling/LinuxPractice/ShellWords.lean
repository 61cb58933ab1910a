import LinuxPractice.Shell

/-!
# The words of a command line

`splitstring` cuts the line into its words and points `argv` at them, as long as
`argv` has room for them and for the null pointer behind them.
-/
namespace Shell

open CppString CBuffer Words

variable {line rest : Bytes} {ws : List Bytes}

@[simp] theorem text_null (buf : Bytes) : Arg.text buf .null = none := rfl
@[simp] theorem text_word (buf : Bytes) (p : Nat) : Arg.text buf (.word p) = some (cstr buf p) := rfl
@[simp] theorem text_color (buf : Bytes) : Arg.text buf .color = some color := rfl

theorem splitLoop_end {buf : Bytes} {save i : Nat} (argv : Nat → Arg) (hi : i < argcSize)
    (ht : (strtok delim buf save).token = none) : splitLoop buf save i argv =
      .ok (i + 1, (strtok delim buf save).buf, Function.update argv i .null) := by
  rw [splitLoop, if_pos hi, if_pos ht, ht]
  rfl

theorem splitLoop_word {buf : Bytes} {save i p : Nat} (argv : Nat → Arg) (hi : i < argcSize)
    (ht : (strtok delim buf save).token = some p) : splitLoop buf save i argv =
      splitLoop (strtok delim buf save).buf (strtok delim buf save).save (i + 1)
        (Function.update argv i (.word p)) := by
  rw [splitLoop, if_pos hi, if_neg (by simp [ht]), ht]
  rfl

/-- The loop in front of a line that `argv` has room for. -/
theorem splitLoop_ok (rest : Bytes) (ws : List Bytes) (front : Bytes) (i : Nat) (argv : Nat → Arg)
    (hws : words delim line = ws) (hline : (0 : UInt8) ∉ line) (hroom : i + ws.length < argcSize) :
    ∃ line' argv', splitLoop (front ++ (line ++ 0 :: rest)) front.length i argv =
        .ok (i + ws.length + 1, front ++ (line' ++ 0 :: rest), argv') ∧
      line'.length = line.length ∧ (∀ j < i, argv' j = argv j) ∧
      ∀ k ≤ ws.length, (argv' (i + k)).text (front ++ (line' ++ 0 :: rest)) = ws[k]? := by
  induction ws generalizing front line i argv with
  | nil =>
    have ht := strtok_none rfl hws front rest
    refine ⟨line, Function.update argv i .null, ?_, rfl, ?_, ?_⟩
    · rw [splitLoop_end argv (by simpa using hroom) (by rw [ht]), ht]
      rfl
    · intro j hj
      exact Function.update_of_ne (by omega) _ _
    · intro k hk
      obtain rfl : k = 0 := Nat.le_zero.mp hk
      simp
  | cons w ws ih =>
    rw [List.length_cons] at hroom
    obtain ⟨gap, mid, line₁, hws₁, hnul, hline₁, hmid, hlen, ht⟩ :=
      strtok_next hline hws front rest
    obtain ⟨line', argv', hrun, hlen', hkeep, htext⟩ := ih (front ++ gap ++ w ++ mid) (i + 1)
      (Function.update argv i (.word (front ++ gap).length)) hws₁ hline₁ (by omega)
    have hmid' : mid = [0] ∨ mid = [] ∧ line' = [] := by
      refine hmid.imp id fun ⟨hm, hl⟩ => ⟨hm, ?_⟩
      rw [hl] at hlen'
      exact List.eq_nil_of_length_eq_zero hlen'
    have hfront : front ++ (gap ++ w ++ mid ++ line' ++ 0 :: rest) =
        front ++ gap ++ w ++ mid ++ (line' ++ 0 :: rest) := by simp
    refine ⟨gap ++ w ++ mid ++ line', argv', ?_, ?_, ?_, ?_⟩
    · rw [splitLoop_word argv (by omega) (by rw [ht]), ht, hfront, List.length_cons,
        show i + (ws.length + 1) + 1 = i + 1 + ws.length + 1 by omega]
      exact hrun
    · rw [← hlen, List.length_append, hlen', ← List.length_append]
    · intro j hj
      rw [hkeep j (by omega)]
      exact Function.update_of_ne (by omega) _ _
    · intro k hk
      rw [hfront]
      cases k with
      | zero =>
        rw [Nat.add_zero, hkeep i (by omega), Function.update_self, text_word,
          cstr_word hnul hmid' (front ++ gap) rest]
        rfl
      | succ k =>
        rw [← Nat.add_assoc, Nat.add_right_comm, htext k (by simpa using hk),
          List.getElem?_cons_succ]

/-- The loop in front of a line with too many words. -/
theorem splitLoop_error (rest : Bytes) (ws : List Bytes) (front : Bytes) (i : Nat)
    (argv : Nat → Arg) (hws : words delim line = ws) (hline : (0 : UInt8) ∉ line)
    (hroom : argcSize ≤ i + ws.length) :
    splitLoop (front ++ (line ++ 0 :: rest)) front.length i argv = .error .argvBounds := by
  induction ws generalizing front line i argv with
  | nil => rw [splitLoop, if_neg (by simpa using hroom)]
  | cons w ws ih =>
    rw [List.length_cons] at hroom
    obtain ⟨gap, mid, line₁, hws₁, -, hline₁, -, -, ht⟩ := strtok_next hline hws front rest
    by_cases hi : i < argcSize
    · rw [splitLoop_word argv hi (by rw [ht]), ht]
      exact ih _ (i + 1) _ hws₁ hline₁ (by omega)
    · rw [splitLoop, if_neg hi]

/-- `argv` points at the words `ws`, and a null pointer follows them. -/
def Argv (s : State) (ws : List Bytes) : Prop := ∀ k ≤ ws.length, s.arg k = ws[k]?

/-- Behind a first word the two calls of `strtok` are one loop. -/
theorem splitstring_eq_loop {s : State} {p : Nat}
    (ht : (strtok delim s.commandline 0).token = some p) :
    splitstring s = match splitLoop s.commandline 0 0 s.argv with
      | .error e => .error e
      | .ok (i, buf, argv) => .ok (i - 1, { s with commandline := buf, argv := argv }) := by
  have hstep := splitLoop_word s.argv (by decide : 0 < argcSize) ht
  cases hrun : splitLoop s.commandline 0 0 s.argv with
  | error e =>
    rw [hrun] at hstep
    simp only [splitstring, ht, ofToken, ← hstep]
  | ok run =>
    obtain ⟨i, buf, argv⟩ := run
    rw [hrun] at hstep
    simp only [splitstring, ht, ofToken, ← hstep]

/-- There is a first word. -/
theorem strtok_first (rest : Bytes) (hline : (0 : UInt8) ∉ line) (hne : words delim line ≠ []) :
    ∃ p, (strtok delim (line ++ 0 :: rest) 0).token = some p := by
  obtain ⟨w, ws, hws⟩ := List.exists_cons_of_ne_nil hne
  obtain ⟨_, _, _, _, _, _, _, _, ht⟩ := strtok_next hline hws [] rest
  rw [List.nil_append, List.length_nil] at ht
  exact ⟨_, by rw [ht]⟩

/-- Only the front of the line changes. -/
theorem splitstring_ok (s : State) (hs : s.commandline = line ++ 0 :: rest)
    (hline : (0 : UInt8) ∉ line) (hne : words delim line ≠ [])
    (hroom : (words delim line).length < argcSize) :
    ∃ line' argv', splitstring s = .ok ((words delim line).length,
        { s with commandline := line' ++ 0 :: rest, argv := argv' }) ∧
      line'.length = line.length ∧
      Argv { s with commandline := line' ++ 0 :: rest, argv := argv' } (words delim line) := by
  obtain ⟨line', argv', hrun, hlen, -, htext⟩ := splitLoop_ok rest (words delim line) [] 0
    s.argv rfl hline (by simpa using hroom)
  obtain ⟨p, hp⟩ := strtok_first rest hline hne
  rw [← hs] at hp
  rw [List.nil_append, List.nil_append, List.length_nil] at hrun
  refine ⟨line', argv', ?_, hlen, ?_⟩
  · rw [splitstring_eq_loop hp, hs, hrun]
    simp
  · intro k hk
    simpa [State.arg] using htext k hk

/-- A line without words is counted as one word. -/
theorem splitstring_blank (s : State) (hs : s.commandline = line ++ 0 :: rest)
    (hnil : words delim line = []) : ∃ s', splitstring s = .ok (1, s') ∧ s'.argv 0 = .null := by
  have ht := strtok_none rfl hnil [] rest
  obtain ⟨line', argv', hrun, hlen, hkeep, -⟩ := splitLoop_ok rest [] line 1
    (Function.update s.argv 0 .null) words_nil List.not_mem_nil (by decide)
  obtain rfl : line' = [] := List.eq_nil_of_length_eq_zero hlen
  refine ⟨{ s with argv := argv' }, ?_, ?_⟩
  · simp only [List.nil_append, List.length_nil] at ht hrun
    simp [splitstring, hs, ht, ofToken, hrun]
  · have hfirst := hkeep 0 (by omega)
    rwa [Function.update_self] at hfirst

theorem splitstring_error (s : State) (hs : s.commandline = line ++ 0 :: rest)
    (hline : (0 : UInt8) ∉ line) (hroom : argcSize ≤ (words delim line).length) :
    splitstring s = .error .argvBounds := by
  have hne : words delim line ≠ [] := by
    intro he
    rw [he] at hroom
    exact absurd hroom (by decide)
  have hrun := splitLoop_error rest (words delim line) [] 0 s.argv rfl hline
    (by simpa using hroom)
  obtain ⟨p, hp⟩ := strtok_first rest hline hne
  rw [← hs] at hp
  rw [List.nil_append, List.length_nil] at hrun
  rw [splitstring_eq_loop hp, hs, hrun]

end Shell
