import LinuxPractice.GoBang
import LinuxPractice.Runs

/-!
# Five in a row through one cell

What the eight walks of `ChessCount` measure, and why five in a row that a new
stone makes go through that stone.
-/
namespace GoBang

open Runs

variable {row col : Nat} {board : Board row col} {p q : Int × Int} {x y : Int}

def Dir.vec : Dir → Int × Int
  | .left => (0, -1)
  | .right => (0, 1)
  | .up => (-1, 0)
  | .down => (1, 0)
  | .leftUp => (-1, -1)
  | .leftDown => (1, -1)
  | .rightUp => (-1, 1)
  | .rightDown => (1, 1)

/-- The place `t` steps from `p`. -/
def Dir.along (d : Dir) (p : Int × Int) (t : Int) : Int × Int :=
  (p.1 + t * d.vec.1, p.2 + t * d.vec.2)

@[simp] theorem Dir.along_zero (d : Dir) (p : Int × Int) : d.along p 0 = p := by
  simp [along]

theorem Dir.along_along (d : Dir) (p : Int × Int) (s t : Int) :
    d.along (d.along p s) t = d.along p (s + t) := by
  simp only [along, Prod.mk.injEq]
  constructor <;> ring

theorem Dir.move_along (d : Dir) (p : Int × Int) (t : Int) :
    d.move (d.along p t) = d.along p (t + 1) := by
  cases d <;> simp only [move, along, vec, Prod.mk.injEq] <;> omega

/-- A line leaves the board within `row + col` steps. -/
theorem Dir.along_lt (d : Dir) {t : Int} (hp : OnBoard row col p)
    (ht : OnBoard row col (d.along p t)) : t < row + col := by
  unfold OnBoard at hp ht
  cases d <;> simp only [along, vec] at ht <;> omega

theorem off_iff : (p.1 < 0 ∨ p.1 > row - 1 ∨ p.2 < 0 ∨ p.2 > col - 1) ↔ ¬ OnBoard row col p := by
  unfold OnBoard
  omega

theorem chessCountLoop_spec {d : Dir} {v : Option Player} (hv : read board (x - 1, y - 1) = some v)
    (fuel count : Nat) (hfuel : row + col < fuel + count)
    (hplace : OnBoard row col (d.along (x - 1, y - 1) count))
    (hsame : ∀ t : Int, 0 < t → t ≤ count → read board (d.along (x - 1, y - 1) t) = some v) :
    ∃ n, chessCountLoop board x y d fuel (d.along (x - 1, y - 1) count) count = some n ∧
      Reach (fun t => read board (d.along (x - 1, y - 1) t) = some v) n := by
  induction fuel generalizing count with
  | zero =>
    have := d.along_lt (onBoard_of_read hv) hplace
    omega
  | succ fuel ih =>
    simp only [chessCountLoop, d.move_along, off_iff]
    cases hnext : read board (d.along (x - 1, y - 1) (count + 1)) with
    | none =>
      refine ⟨count, if_pos (read_eq_none_iff.mp hnext), hsame, ?_⟩
      simp [hnext]
    | some w =>
      have hon := onBoard_of_read hnext
      rw [if_neg (not_not_intro hon), hv]
      simp only
      split
      · rename_i hvw
        apply ih (count + 1)
        · omega
        · exact hon
        · intro t hpos hle
          by_cases hlast : t = count + 1
          · rw [hlast, hnext, hvw]
          · exact hsame t hpos (by omega)
      · refine ⟨count, rfl, hsame, ?_⟩
        simp only [hnext, Option.some.injEq]
        exact fun he => ‹¬ v = w› he.symm

/-- From any stone in any direction the walk ends, stays on the board and counts the equal
cells in front of the first other one. -/
theorem chessCount_spec (d : Dir) {v : Option Player} (hv : read board (x - 1, y - 1) = some v) :
    ∃ n, chessCount board x y d = some n ∧
      Reach (fun t => read board (d.along (x - 1, y - 1) t) = some v) n := by
  have hstart := chessCountLoop_spec (d := d) hv (row + col + 1) 0 (by omega)
    (by simpa using onBoard_of_read hv) (by omega)
  simpa [chessCount] using hstart

/-- Rows, columns and the two kinds of diagonals. -/
inductive Axis where
  | row | column | diagonal | antidiagonal
  deriving DecidableEq, Repr

def Axis.dir : Axis → Dir
  | .row => .right
  | .column => .down
  | .diagonal => .rightDown
  | .antidiagonal => .leftDown

def Axis.back : Axis → Dir
  | .row => .left
  | .column => .up
  | .diagonal => .leftUp
  | .antidiagonal => .rightUp

theorem Axis.along_back (axis : Axis) (p : Int × Int) (t : Int) :
    axis.back.along p t = axis.dir.along p (-t) := by
  cases axis <;> simp [back, dir, Dir.along, Dir.vec]

/-- Five or more contiguous stones of `k` somewhere on the board. -/
def Five (board : Board row col) (k : Player) : Prop :=
  ∃ (axis : Axis) (p : Int × Int) (n : Nat), 5 ≤ n ∧
    ∀ t : Int, 0 ≤ t → t < n → read board (axis.dir.along p t) = some (some k)

/-- The same with the cell `p` among them. -/
def FiveThrough (board : Board row col) (k : Player) (p : Int × Int) : Prop :=
  ∃ (axis : Axis) (n : Nat), 5 ≤ n ∧
    Through (fun t => read board (axis.dir.along p t) = some (some k)) n

theorem five_of_through {k : Player} (h : FiveThrough board k p) : Five board k := by
  obtain ⟨axis, n, hn, s, -, hrun⟩ := h
  refine ⟨axis, axis.dir.along p s, n, hn, ?_⟩
  intro t hpos hlt
  rw [Dir.along_along]
  exact hrun (s + t) (by omega) (by omega)

/-- Where there was no five, a new stone makes one only for its player and through itself. -/
theorem five_update (hp : OnBoard row col p) (hold : ∀ k, ¬ Five board k) {player k : Player}
    (h : Five (Function.update board hp.cell (some player)) k) :
    k = player ∧ FiveThrough (Function.update board hp.cell (some player)) k p := by
  obtain ⟨axis, q, n, hn, hrun⟩ := h
  by_cases hthrough : ∃ t : Int, (0 ≤ t ∧ t < n) ∧ axis.dir.along q t = p
  · obtain ⟨t, ⟨hpos, hlt⟩, ht⟩ := hthrough
    have hstone := hrun t hpos hlt
    rw [ht, read_update, if_pos rfl] at hstone
    have hk : player = k := by simpa using hstone
    refine ⟨hk.symm, axis, n, hn, -t, ⟨by omega, by omega⟩, ?_⟩
    intro u hu hun
    have hplace : axis.dir.along p u = axis.dir.along q (t + u) := by rw [← ht, Dir.along_along]
    rw [hplace]
    exact hrun (t + u) (by omega) (by omega)
  · -- all five were there before
    refine absurd ⟨axis, q, n, hn, ?_⟩ (hold k)
    intro t hpos hlt
    have hstone := hrun t hpos hlt
    rwa [read_update, if_neg fun he => hthrough ⟨t, ⟨hpos, hlt⟩, he⟩] at hstone

/-- The two walks of one axis find a run of five through the last stone if there is one. -/
theorem chessCount_axis (axis : Axis) {k : Player}
    (hk : read board (x - 1, y - 1) = some (some k)) :
    ∃ a b, chessCount board x y axis.back = some a ∧ chessCount board x y axis.dir = some b ∧
      (5 ≤ a + b + 1 ↔ ∃ n, 5 ≤ n ∧
        Through (fun t => read board (axis.dir.along (x - 1, y - 1) t) = some (some k)) n) := by
  obtain ⟨a, ha, hback⟩ := chessCount_spec axis.back hk
  obtain ⟨b, hb, hdir⟩ := chessCount_spec axis.dir hk
  simp only [axis.along_back] at hback
  refine ⟨a, b, ha, hb, ?_⟩
  have hthrough := fun n hn => through_iff (k := n) (by simpa using hk) hdir hback hn
  constructor
  · intro h
    exact ⟨5, le_refl 5, (hthrough 5 (by omega)).mpr (by omega)⟩
  · intro h
    obtain ⟨n, hn, hrun⟩ := h
    have := (hthrough n (by omega)).mp hrun
    omega

/-- What `IsOver` answers when `k` has just moved to `p`. -/
inductive Verdict (board : Board row col) (k : Player) (p : Int × Int) : Result → Prop
  | win (hfive : FiveThrough board k p) : Verdict board k p (.win k)
  | next (hfive : ¬ FiveThrough board k p) (c : Fin row × Fin col) (hc : board c = none) :
      Verdict board k p .next
  | draw (hfive : ¬ FiveThrough board k p) (hfull : ∀ c, board c ≠ none) : Verdict board k p .draw

theorem scan_iff : (((List.finRange row).any fun i => (List.finRange col).any fun j =>
    board (i, j) = none) = true) ↔ ∃ c, board c = none := by
  simp

theorem isOver_spec {k : Player} (hk : read board (x - 1, y - 1) = some (some k)) :
    ∃ r, isOver board x y = some r ∧ Verdict board k (x - 1, y - 1) r := by
  obtain ⟨a1, b1, ha1, hb1, h1⟩ := chessCount_axis .row hk
  obtain ⟨a2, b2, ha2, hb2, h2⟩ := chessCount_axis .column hk
  obtain ⟨a3, b3, ha3, hb3, h3⟩ := chessCount_axis .diagonal hk
  obtain ⟨b4, a4, hb4, ha4, h4⟩ := chessCount_axis .antidiagonal hk
  simp only [Axis.back, Axis.dir] at ha1 hb1 ha2 hb2 ha3 hb3 ha4 hb4
  have hfive : (a1 + b1 + 1 ≥ 5 ∨ a2 + b2 + 1 ≥ 5 ∨ a3 + b3 + 1 ≥ 5 ∨ a4 + b4 + 1 ≥ 5) ↔
      FiveThrough board k (x - 1, y - 1) := by
    rw [Nat.add_comm a4, ge_iff_le, ge_iff_le, ge_iff_le, ge_iff_le, h1, h2, h3, h4]
    constructor
    · rintro (h | h | h | h)
      · exact ⟨.row, h⟩
      · exact ⟨.column, h⟩
      · exact ⟨.diagonal, h⟩
      · exact ⟨.antidiagonal, h⟩
    · intro h
      obtain ⟨axis, h⟩ := h
      cases axis with
      | row => exact .inl h
      | column => exact .inr (.inl h)
      | diagonal => exact .inr (.inr (.inl h))
      | antidiagonal => exact .inr (.inr (.inr h))
  simp only [isOver, ha1, hb1, ha2, hb2, ha3, hb3, ha4, hb4, hk, Option.bind_eq_bind,
    Option.bind_some]
  by_cases hthrough : FiveThrough board k (x - 1, y - 1)
  · refine ⟨.win k, ?_, .win hthrough⟩
    rw [if_pos (hfive.mpr hthrough)]
    cases k <;> rfl
  · rw [if_neg (hfive.not.mpr hthrough)]
    by_cases hempty : ∃ c, board c = none
    · have hscan := scan_iff.mpr hempty
      obtain ⟨c, hc⟩ := hempty
      exact ⟨.next, if_pos hscan, .next hthrough c hc⟩
    · exact ⟨.draw, if_neg (scan_iff.not.mpr hempty), .draw hthrough fun c hc => hempty ⟨c, hc⟩⟩

end GoBang
