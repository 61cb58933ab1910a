import LinuxPractice.GoBangInput
import LinuxPractice.Loops

/-!
# The loop of `PlayerMove`

A conversion that fails leaves its character unread. So the loop meets it
again in every turn, as it meets the end of the input.
-/
namespace GoBangPlayerMove

open Scanf Loops GoBang GoBangInput

section

variable {row col : Nat} (wide : Int → Int32) (board : Board row col) (player : Player)

/-- One turn of the loop; without a result where it would leave the board. -/
def playerMove (p : Prompt) : Turn Prompt (Option (Board row col)) :=
  let p := scanf wide p
  match attempt board p.x p.y player with
  | none => .leave none
  | some .notRight => .again p
  | some .occupied => .again p
  | some (.placed board) => .leave (some board)

/-- The coordinates that the prompts come to: two numbers for each of them, or an old coordinate
where a sign or the end of the tokens stands in place of a number. -/
def targets (x y : Int) : List Token → List (Int × Int)
  | [] => [(x, y)]
  | .sign :: ts => (x, y) :: targets x y ts
  | [.number a] => [(store wide a, y)]
  | .number a :: .sign :: ts => (store wide a, y) :: targets (store wide a) y ts
  | .number a :: .number b :: ts =>
    (store wide a, store wide b) :: targets (store wide a) (store wide b) ts

variable {wide board player} {p : Prompt}

theorem playerMove_free (player : Player) (h : Free board (scanf wide p).x (scanf wide p).y) :
    ∃ board', playerMove wide board player p = .leave (some board') := by
  obtain ⟨hp, hcell⟩ := h
  refine ⟨Function.update board hp.cell (some player), ?_⟩
  simp only [playerMove, attempt_free hp hcell]

theorem playerMove_again (h : ¬ Free board (scanf wide p).x (scanf wide p).y) :
    playerMove wide board player p = .again (scanf wide p) := by
  by_cases hp : OnBoard row col ((scanf wide p).x - 1, (scanf wide p).y - 1)
  · simp only [playerMove, attempt_taken hp (not_exists.mp h hp)]
  · simp only [playerMove, attempt_off hp]

theorem targets_ne_nil (wide : Int → Int32) (x y : Int) (ts : List Token) :
    targets wide x y ts ≠ [] := by
  fun_cases targets wide x y ts with
  | case1 => simp
  | case2 ts => simp
  | case3 a => simp
  | case4 a ts => simp
  | case5 a b ts => simp

/-- A prompt takes the first coordinates off, or they were the last ones. -/
theorem targets_cases (wide : Int → Int32) (p : Prompt) :
    targets wide p.x p.y (tokens p.input) = [((scanf wide p).x, (scanf wide p).y)] ∧
        tokens (scanf wide p).input = [] ∨
      targets wide p.x p.y (tokens p.input) = ((scanf wide p).x, (scanf wide p).y) ::
          targets wide (scanf wide p).x (scanf wide p).y (tokens (scanf wide p).input) ∧
        (scanf wide p).input.length < p.input.length := by
  rcases hfirst : scanInt p.input with ⟨_ | a, rest⟩
  · have hscan : scanf wide p = ⟨p.x, p.y, rest⟩ := by
      simp [scanf, stored, scanPair, hfirst]
    rw [hscan]
    rcases tokens_none hfirst with ⟨hnil, hrest⟩ | ⟨hsign, hlt⟩
    · exact .inl ⟨by rw [hnil, targets], hrest⟩
    · exact .inr ⟨by rw [hsign, targets], hlt⟩
  · have hlt := scanInt_length_lt hfirst
    rw [tokens_number hfirst]
    rcases hsecond : scanInt rest with ⟨_ | b, rest'⟩
    · have hscan : scanf wide p = ⟨store wide a, p.y, rest'⟩ := by
        simp [scanf, stored, scanPair, hfirst, hsecond]
      rw [hscan]
      rcases tokens_none hsecond with ⟨hnil, hrest⟩ | ⟨hsign, hlt'⟩
      · exact .inl ⟨by rw [hnil, targets], hrest⟩
      · exact .inr ⟨by rw [hsign, targets], hlt'.trans hlt⟩
    · have hscan : scanf wide p = ⟨store wide a, store wide b, rest'⟩ := by
        simp [scanf, stored, scanPair, hfirst, hsecond]
      have hlt' := scanInt_length_lt hsecond
      rw [hscan, tokens_number hsecond]
      exact .inr ⟨by rw [targets], hlt'.trans hlt⟩

/-- Without a token the coordinates stay as they are, and so does the input but for white space. -/
theorem scanf_stuck (wide : Int → Int32) (h : tokens p.input = []) :
    (scanf wide p).x = p.x ∧ (scanf wide p).y = p.y ∧ tokens (scanf wide p).input = [] := by
  rcases targets_cases wide p with ⟨htargets, hnil⟩ | ⟨htargets, -⟩
  · rw [h, targets] at htargets
    simp only [List.cons.injEq, Prod.mk.injEq, and_true] at htargets
    exact ⟨htargets.1.symm, htargets.2.symm, hnil⟩
  · rw [h, targets, List.cons.injEq] at htargets
    exact absurd htargets.2.symm (targets_ne_nil _ _ _ _)

theorem stuck_not_ends (h : tokens p.input = []) (hfree : ¬ Free board p.x p.y) :
    ¬ Ends (playerMove wide board player) p := by
  apply not_ends (I := fun p => tokens p.input = [] ∧ ¬ Free board p.x p.y) _ ⟨h, hfree⟩
  rintro q ⟨hq, hnot⟩
  obtain ⟨hx, hy, hnil⟩ := scanf_stuck wide hq
  rw [← hx, ← hy] at hnot
  exact ⟨_, playerMove_again hnot, hnil, hnot⟩

/-- The loop ends exactly if one of the prompts comes to a free cell. -/
theorem ends_iff_free (wide : Int → Int32) (board : Board row col) (player : Player) (p : Prompt) :
    Ends (playerMove wide board player) p ↔
      ∃ t ∈ targets wide p.x p.y (tokens p.input), Free board t.1 t.2 := by
  induction hn : p.input.length using Nat.strong_induction_on generalizing p with
  | h n ih =>
    by_cases hfree : Free board (scanf wide p).x (scanf wide p).y
    · obtain ⟨board', hleave⟩ := playerMove_free player hfree
      refine iff_of_true (ends_leave hleave) ⟨((scanf wide p).x, (scanf wide p).y), ?_, hfree⟩
      rcases targets_cases wide p with ⟨htargets, -⟩ | ⟨htargets, -⟩
      · simp [htargets]
      · simp [htargets]
    · rw [ends_again (playerMove_again hfree)]
      rcases targets_cases wide p with ⟨htargets, hnil⟩ | ⟨htargets, hlt⟩
      · refine iff_of_false (stuck_not_ends hnil hfree) ?_
        rw [htargets]
        rintro ⟨t, ht, hcell⟩
        obtain rfl := List.mem_singleton.mp ht
        exact hfree hcell
      · rw [ih _ (hn ▸ hlt) _ rfl, htargets]
        simp [hfree]

/-- A letter is met again and again, and so is the end of the input. -/
theorem letter_never_ends :
    ¬ Ends (playerMove (fun _ => 0) (fun _ => none : Board 20 20) .player1) ⟨0, 0, [97]⟩ ∧
      ¬ Ends (playerMove (fun _ => 0) (fun _ => none : Board 20 20) .player1) ⟨0, 0, []⟩ := by
  have hcorner : ¬ Free (fun _ => none : Board 20 20) 0 0 := by
    rintro ⟨hp, -⟩
    have hrow : (0 : Int) ≤ 0 - 1 := hp.1.1
    omega
  have hempty : tokens [] = [] := by
    rcases tokens_none (rfl : scanInt [] = (none, [])) with ⟨h, -⟩ | ⟨-, hlt⟩
    · exact h
    · exact absurd hlt (Nat.lt_irrefl _)
  have hletter : tokens [97] = [] := by
    rcases tokens_none (rfl : scanInt [97] = (none, [97])) with ⟨h, -⟩ | ⟨-, hlt⟩
    · exact h
    · exact absurd hlt (Nat.lt_irrefl _)
  exact ⟨stuck_not_ends hletter hcorner, stuck_not_ends hempty hcorner⟩

end

end GoBangPlayerMove
