import LinuxPractice.GoBangRuns
import LinuxPractice.Loops

/-!
# ChessCount measures the run through the last move

The loop of `ChessCount` turn by turn, on a board with cells of any kind. The
two walks of an axis together are as long as the run they start in, and that
does not depend on the cell of the run in which they start.
-/
namespace GoBang

open Runs Loops

variable {α : Type} {row col : Nat} {board : Fin row × Fin col → α} {p q : Int × Int}
  {x y : Int} {d : Dir}

/-- `read`, for cells of any kind. -/
def cellAt (board : Fin row × Fin col → α) (p : Int × Int) : Option α :=
  if h : OnBoard row col p then some (board h.cell) else none

theorem cellAt_of_onBoard (h : OnBoard row col p) : cellAt board p = some (board h.cell) := by
  simp [cellAt, h]

/-- One turn of the loop from `(_x, _y)` with `count` so far. It leaves `none` when it reads
outside the board. -/
def chessCountTurn [DecidableEq α] (board : Fin row × Fin col → α) (x y : Int) (d : Dir)
    (s : (Int × Int) × Nat) : Turn ((Int × Int) × Nat) (Option Nat) :=
  let (x', y') := d.move s.1
  if x' < 0 ∨ x' > row - 1 ∨ y' < 0 ∨ y' > col - 1 then .leave (some s.2)
  else
    match cellAt board (x - 1, y - 1), cellAt board (x', y') with
    | some a, some b => if a = b then .again ((x', y'), s.2 + 1) else .leave (some s.2)
    | _, _ => .leave none

/-- What `ChessCount` returns when the last move is `(x, y)`. -/
def ChessCount [DecidableEq α] (board : Fin row × Fin col → α) (x y : Int) (d : Dir)
    (result : Option Nat) : Prop :=
  Returns (chessCountTurn board x y d) ((x - 1, y - 1), 0) result

/-- `q` is on the board and holds the same value as `p`. -/
def Same (board : Fin row × Fin col → α) (p q : Int × Int) : Prop :=
  OnBoard row col q ∧ cellAt board q = cellAt board p

theorem same_refl (hp : OnBoard row col p) : Same board p p := ⟨hp, rfl⟩

/-- A run is the same run from each of its cells. -/
theorem same_congr (h : Same board p q) : Same board q = Same board p := by
  funext r
  rw [Same, Same, h.2]

section Walk

variable [DecidableEq α]

theorem turn_same {s : (Int × Int) × Nat} (hp : OnBoard row col (x - 1, y - 1))
    (h : Same board (x - 1, y - 1) (d.move s.1)) :
    chessCountTurn board x y d s = .again (d.move s.1, s.2 + 1) := by
  have hvalue := h.2
  rw [cellAt_of_onBoard hp, cellAt_of_onBoard h.1] at hvalue
  simp only [chessCountTurn, cellAt_of_onBoard hp, cellAt_of_onBoard h.1]
  rw [if_neg (off_iff.not.mpr (not_not_intro h.1)), if_pos (Option.some.inj hvalue).symm]

theorem turn_other {s : (Int × Int) × Nat} (hp : OnBoard row col (x - 1, y - 1))
    (h : ¬ Same board (x - 1, y - 1) (d.move s.1)) :
    chessCountTurn board x y d s = .leave (some s.2) := by
  by_cases hon : OnBoard row col (d.move s.1)
  · have hvalue : ¬ board hp.cell = board hon.cell := by
      intro he
      refine h ⟨hon, ?_⟩
      rw [cellAt_of_onBoard hp, cellAt_of_onBoard hon, he]
    simp only [chessCountTurn, cellAt_of_onBoard hp, cellAt_of_onBoard hon]
    rw [if_neg (off_iff.not.mpr (not_not_intro hon)), if_neg hvalue]
  · simp only [chessCountTurn]
    rw [if_pos (off_iff.mpr hon)]

theorem walk_returns (hp : OnBoard row col (x - 1, y - 1)) (board : Fin row × Fin col → α)
    (d : Dir) (m count : Nat)
    (hroom : row + col ≤ m + count) (hplace : OnBoard row col (d.along (x - 1, y - 1) count))
    (hsame : ∀ t : Int, 0 < t → t ≤ count → Same board (x - 1, y - 1) (d.along (x - 1, y - 1) t)) :
    ∃ n, Returns (chessCountTurn board x y d) (d.along (x - 1, y - 1) count, count) (some n) ∧
      Reach (fun t => Same board (x - 1, y - 1) (d.along (x - 1, y - 1) t)) n := by
  induction m generalizing count with
  | zero =>
    have := d.along_lt hp hplace
    omega
  | succ m ih =>
    by_cases hnext : Same board (x - 1, y - 1) (d.along (x - 1, y - 1) (count + 1))
    · have hturn : chessCountTurn board x y d (d.along (x - 1, y - 1) count, count) =
          .again (d.along (x - 1, y - 1) (count + 1), count + 1) := by
        rw [turn_same hp (by rwa [d.move_along]), d.move_along]
      have hlonger : ∀ t : Int, 0 < t → t ≤ (count + 1 : Nat) →
          Same board (x - 1, y - 1) (d.along (x - 1, y - 1) t) := by
        intro t hpos hle
        by_cases hlast : t = count + 1
        · rwa [hlast]
        · exact hsame t hpos (by omega)
      obtain ⟨n, hn, hreach⟩ := ih (count + 1) (by omega) (by simpa using hnext.1) hlonger
      exact ⟨n, (returns_again hturn).mpr (by simpa using hn), hreach⟩
    · refine ⟨count, returns_leave (turn_other hp ?_), hsame, hnext⟩
      rwa [d.move_along]

theorem chessCount_reach (hp : OnBoard row col (x - 1, y - 1)) (board : Fin row × Fin col → α)
    (d : Dir) : ∃ n, ChessCount board x y d (some n) ∧
      Reach (fun t => Same board (x - 1, y - 1) (d.along (x - 1, y - 1) t)) n := by
  have hwalk := walk_returns hp board d (row + col) 0 (le_refl _) (by simpa using hp) (by omega)
  simpa [ChessCount] using hwalk

/-- The two counts of an axis, from the last move and from any other cell of its run. -/
theorem chessCount_shift (hp : OnBoard row col (x - 1, y - 1)) (board : Fin row × Fin col → α)
    (axis : Axis) : ∃ a b, ChessCount board x y axis.back (some a) ∧
      ChessCount board x y axis.dir (some b) ∧
      IsGreatest {k | Through (fun t => Same board (x - 1, y - 1)
        (axis.dir.along (x - 1, y - 1) t)) k} (a + b + 1) ∧
      ∀ x' y' t : Int, -a ≤ t → t ≤ b → (x' - 1, y' - 1) = axis.dir.along (x - 1, y - 1) t →
        ChessCount board x' y' axis.back (some (a + t).toNat) ∧
          ChessCount board x' y' axis.dir (some (b - t).toNat) := by
  obtain ⟨a, ha, hback⟩ := chessCount_reach hp board axis.back
  obtain ⟨b, hb, hdir⟩ := chessCount_reach hp board axis.dir
  simp only [axis.along_back] at hback
  have hzero : Same board (x - 1, y - 1) (axis.dir.along (x - 1, y - 1) 0) := by
    rw [Dir.along_zero]
    exact same_refl hp
  refine ⟨a, b, ha, hb, ?_, ?_⟩
  · rw [Nat.add_comm a b]
    exact isGreatest_through hzero hdir hback
  · intro x' y' t hlo hhi hplace
    have hsame := hdir.between hzero hback hlo hhi
    have hplaced : OnBoard row col (x' - 1, y' - 1) := hplace ▸ hsame.1
    obtain ⟨a', ha', hback'⟩ := chessCount_reach hplaced board axis.back
    obtain ⟨b', hb', hdir'⟩ := chessCount_reach hplaced board axis.dir
    simp only [axis.along_back, hplace, Dir.along_along, same_congr hsame] at hback' hdir'
    rw [← hback'.unique (hdir.shift_back hzero hback hlo hhi),
      ← hdir'.unique (hdir.shift hzero hback hlo hhi)]
    exact ⟨ha', hb'⟩

/-- Whatever the cells of the board are. -/
theorem chessCount_maximal (hx : 1 ≤ x ∧ x ≤ row) (hy : 1 ≤ y ∧ y ≤ col)
    (board : Fin row × Fin col → α) :
    (∀ d : Dir, ∃ n, ChessCount board x y d (some n) ∧
      IsGreatest {k : ℕ | ∀ t : ℤ, 0 < t → t ≤ k →
        Same board (x - 1, y - 1) (d.along (x - 1, y - 1) t)} n) ∧
      ∀ axis : Axis, ∃ a b, ChessCount board x y axis.back (some a) ∧
        ChessCount board x y axis.dir (some b) ∧
        IsGreatest {k | Through (fun t => Same board (x - 1, y - 1)
          (axis.dir.along (x - 1, y - 1) t)) k} (a + b + 1) ∧
        ∀ x' y' t : Int, -a ≤ t → t ≤ b → (x' - 1, y' - 1) = axis.dir.along (x - 1, y - 1) t →
          ∃ a' b', ChessCount board x' y' axis.back (some a') ∧
            ChessCount board x' y' axis.dir (some b') ∧ a' + b' + 1 = a + b + 1 := by
  have hp : OnBoard row col (x - 1, y - 1) := by
    unfold OnBoard
    omega
  constructor
  · intro d
    obtain ⟨n, hn, hreach⟩ := chessCount_reach hp board d
    exact ⟨n, hn, hreach.isGreatest⟩
  · intro axis
    obtain ⟨a, b, ha, hb, hrun, hshift⟩ := chessCount_shift hp board axis
    refine ⟨a, b, ha, hb, hrun, ?_⟩
    intro x' y' t hlo hhi hplace
    obtain ⟨ha', hb'⟩ := hshift x' y' t hlo hhi hplace
    exact ⟨_, _, ha', hb', by omega⟩

end Walk

/-- A diagonal of sevens. -/
def sevens : Fin 3 × Fin 3 → Int := fun cell => if cell.1 = cell.2 then 7 else 0

theorem chessCount_maximal_sevens : ChessCount sevens 2 2 .rightDown (some 1) ∧
    ∃ n, ChessCount sevens 2 2 .rightDown (some n) ∧
      IsGreatest {k : ℕ | ∀ t : ℤ, 0 < t → t ≤ k →
        Same sevens (2 - 1, 2 - 1) (Dir.rightDown.along (2 - 1, 2 - 1) t)} n := by
  refine ⟨⟨2, by decide⟩, ?_⟩
  exact (chessCount_maximal (by decide) (by decide) sevens).1 .rightDown

/-- On a board of the game the loop returns what the game goes on with. -/
theorem chessCount_returns {board : Board row col} (hp : OnBoard row col (x - 1, y - 1)) (d : Dir) :
    ChessCount board x y d (chessCount board x y d) := by
  obtain ⟨n, hn, hreach⟩ := chessCount_reach hp board d
  have hv : read board (x - 1, y - 1) = some (board hp.cell) := read_of_onBoard hp
  obtain ⟨m, hm, hread⟩ := chessCount_spec d hv
  have hsame : ∀ q, Same board (x - 1, y - 1) q ↔ read board q = some (board hp.cell) := by
    intro q
    have hcell : ∀ p, cellAt board p = read board p := fun _ => rfl
    rw [Same, hcell, hcell, read_of_onBoard hp]
    exact and_iff_right_of_imp onBoard_of_read
  simp only [hsame] at hreach
  rw [hm, hread.unique hreach]
  exact hn

/-- Both counts of an axis, and one for the last move, are the length `IsOver` compares with 5. -/
theorem chessCount_run {board : Board row col} (hp : OnBoard row col (x - 1, y - 1))
    (axis : Axis) : ∃ a b, chessCount board x y axis.back = some a ∧
      chessCount board x y axis.dir = some b ∧
      IsGreatest {k | Through (fun t => Same board (x - 1, y - 1)
        (axis.dir.along (x - 1, y - 1) t)) k} (a + b + 1) := by
  obtain ⟨a, b, ha, hb, hrun, -⟩ := chessCount_shift hp board axis
  exact ⟨a, b, (chessCount_returns hp axis.back).unique ha,
    (chessCount_returns hp axis.dir).unique hb, hrun⟩

end GoBang
