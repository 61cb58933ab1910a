import LinuxPractice.Transition

/-!
# GoBang: five in a row

`game.c` on a board of any size. `x` and `y` are the globals that `PlayerMove`
reads and `IsOver` looks around. A read or write outside the board has no
meaning and makes the function that does it `none`.
-/
namespace GoBang

open Transition

inductive Player where
  | player1 | player2
  deriving DecidableEq, Repr

def Player.other : Player → Player
  | .player1 => .player2
  | .player2 => .player1

inductive Result where
  | next : Result
  | win : Player → Result
  | draw : Result
  deriving DecidableEq, Repr

inductive Dir where
  | left | right | up | down | leftUp | leftDown | rightUp | rightDown
  deriving DecidableEq, Repr

/-- `none` is the 0 of a cell without a stone. -/
abbrev Board (row col : Nat) := Fin row × Fin col → Option Player

section Cells

variable {row col : Nat} (board : Board row col)

/-- The index `[p.1][p.2]` is inside the board. -/
def OnBoard (row col : Nat) (p : Int × Int) : Prop :=
  (0 ≤ p.1 ∧ p.1 < row) ∧ 0 ≤ p.2 ∧ p.2 < col

instance (p : Int × Int) : Decidable (OnBoard row col p) := inferInstanceAs (Decidable (_ ∧ _))

def OnBoard.cell {p : Int × Int} (h : OnBoard row col p) : Fin row × Fin col :=
  (⟨p.1.toNat, by have := h.1; omega⟩, ⟨p.2.toNat, by have := h.2; omega⟩)

def read (p : Int × Int) : Option (Option Player) :=
  if h : OnBoard row col p then some (board h.cell) else none

def write (p : Int × Int) (player : Player) : Option (Board row col) :=
  if h : OnBoard row col p then some (Function.update board h.cell (some player)) else none

variable {board} {p q : Int × Int} {player : Player}

theorem OnBoard.cell_inj {hp : OnBoard row col p} {hq : OnBoard row col q} :
    hp.cell = hq.cell ↔ p = q := by
  have hp' := hp
  have hq' := hq
  unfold OnBoard at hp' hq'
  simp only [OnBoard.cell, Prod.ext_iff, Fin.ext_iff]
  omega

theorem read_of_onBoard (h : OnBoard row col p) : read board p = some (board h.cell) := by
  simp [read, h]

theorem read_eq_none_iff : read board p = none ↔ ¬ OnBoard row col p := by
  simp [read]

theorem onBoard_of_read {v : Option Player} (h : read board p = some v) : OnBoard row col p := by
  by_contra hp
  rw [read_eq_none_iff.mpr hp] at h
  cases h

theorem write_of_onBoard (h : OnBoard row col p) :
    write board p player = some (Function.update board h.cell (some player)) := by
  simp [write, h]

theorem read_update (h : OnBoard row col p) (v : Option Player) (q : Int × Int) :
    read (Function.update board h.cell v) q = if q = p then some v else read board q := by
  by_cases hq : OnBoard row col q
  · rw [read_of_onBoard hq, read_of_onBoard hq, Function.update_apply]
    simp only [OnBoard.cell_inj]
    split <;> rfl
  · have hne : q ≠ p := by
      intro he
      rw [he] at hq
      exact hq h
    rw [if_neg hne, read_eq_none_iff.mpr hq, read_eq_none_iff.mpr hq]

end Cells

section Functions

variable {row col : Nat} (board : Board row col)

/-- The `switch` of `ChessCount` on `(_x, _y)`. -/
def Dir.move : Dir → Int × Int → Int × Int
  | .left, (x, y) => (x, y - 1)
  | .right, (x, y) => (x, y + 1)
  | .up, (x, y) => (x - 1, y)
  | .down, (x, y) => (x + 1, y)
  | .leftUp, (x, y) => (x - 1, y - 1)
  | .leftDown, (x, y) => (x + 1, y - 1)
  | .rightUp, (x, y) => (x - 1, y + 1)
  | .rightDown, (x, y) => (x + 1, y + 1)

/-- The loop of `ChessCount` from the place `at` with `count` so far, for at most `fuel` turns. -/
def chessCountLoop (x y : Int) (d : Dir) : Nat → Int × Int → Nat → Option Nat
  | 0, _, _ => none
  | fuel + 1, place, count =>
    let (x', y') := d.move place
    if x' < 0 ∨ x' > row - 1 ∨ y' < 0 ∨ y' > col - 1 then some count
    else
      match read board (x - 1, y - 1), read board (x', y') with
      | some a, some b =>
        if a = b then chessCountLoop x y d fuel (x', y') (count + 1) else some count
      | _, _ => none

/-- No walk on the board is longer than `row + col`. -/
def chessCount (x y : Int) (d : Dir) : Option Nat :=
  chessCountLoop board x y d (row + col + 1) (x - 1, y - 1) 0

def isOver (x y : Int) : Option Result := do
  let count1 := (← chessCount board x y .left) + (← chessCount board x y .right) + 1
  let count2 := (← chessCount board x y .up) + (← chessCount board x y .down) + 1
  let count3 := (← chessCount board x y .leftUp) + (← chessCount board x y .rightDown) + 1
  let count4 := (← chessCount board x y .leftDown) + (← chessCount board x y .rightUp) + 1
  if count1 ≥ 5 ∨ count2 ≥ 5 ∨ count3 ≥ 5 ∨ count4 ≥ 5 then
    if (← read board (x - 1, y - 1)) = some .player1 then
      return .win .player1
    else
      return .win .player2
  else if (List.finRange row).any fun i => (List.finRange col).any fun j => board (i, j) = none then
    return .next
  else
    return .draw

/-- How one turn of the loop of `PlayerMove` ends. -/
inductive Attempt (row col : Nat) where
  | notRight : Attempt row col
  | occupied : Attempt row col
  | placed : Board row col → Attempt row col

/-- One turn of the loop of `PlayerMove`, behind `scanf`. -/
def attempt (x y : Int) (player : Player) : Option (Attempt row col) :=
  if x < 1 ∨ x > row ∨ y < 1 ∨ y > col then some .notRight
  else do
    if (← read board (x - 1, y - 1)) ≠ none then
      return .occupied
    else
      return .placed (← write board (x - 1, y - 1) player)

end Functions

/-- Where `Game` is: in `PlayerMove` or at `IsOver` of a half-turn, or behind the loop that
was left in a half-turn. -/
inductive Pc where
  | playerMove : Player → Pc
  | isOver : Player → Pc
  | left : Player → Pc
  deriving DecidableEq, Repr

structure State (row col : Nat) where
  board : Board row col
  x : Int
  y : Int
  result : Result
  pc : Pc

/-- `scanf` brings the next two integers of the input. -/
inductive Action where
  | scanf : Int → Int → Action
  | isOver : Action
  deriving DecidableEq, Repr

def init (row col : Nat) : State row col where
  board := fun _ => none
  x := 0
  y := 0
  result := .next
  pc := .playerMove .player1

section Steps

variable {row col : Nat}

def stepMove (s : State row col) (player : Player) (x y : Int) : Option (State row col) := do
  match ← attempt s.board x y player with
  | .notRight | .occupied => return { s with x := x, y := y }
  | .placed board => return { s with board := board, x := x, y := y, pc := .isOver player }

def stepIsOver (s : State row col) (player : Player) : Option (State row col) := do
  let result ← isOver s.board s.x s.y
  if result ≠ .next then
    return { s with result := result, pc := .left player }
  else
    return { s with result := result, pc := .playerMove player.other }

def step (s : State row col) (a : Action) : Option (State row col) :=
  match s.pc, a with
  | .playerMove player, .scanf x y => stepMove s player x y
  | .isOver player, .isOver => stepIsOver s player
  | _, _ => none

def game (row col : Nat) : System (State row col) Action where
  init := init row col
  step := step

/-- What one step of the game can do. -/
inductive Step (s : State row col) : State row col → Prop
  | rejected (player : Player) (x y : Int) (hpc : s.pc = .playerMove player) :
      Step s { s with x := x, y := y }
  | placed (player : Player) (x y : Int) (hpc : s.pc = .playerMove player)
      (hp : OnBoard row col (x - 1, y - 1)) (hfree : s.board hp.cell = none) :
      Step s { s with
        board := Function.update s.board hp.cell (some player)
        x := x, y := y, pc := .isOver player }
  | ended (player : Player) (result : Result) (hpc : s.pc = .isOver player)
      (hresult : isOver s.board s.x s.y = some result) (hnext : result ≠ .next) :
      Step s { s with result := result, pc := .left player }
  | next (player : Player) (hpc : s.pc = .isOver player)
      (hresult : isOver s.board s.x s.y = some .next) :
      Step s { s with result := .next, pc := .playerMove player.other }

variable {s t : State row col} {a : Action} {board : Board row col} {x y : Int} {player : Player}

theorem bounds_iff : (x < 1 ∨ x > row ∨ y < 1 ∨ y > col) ↔ ¬ OnBoard row col (x - 1, y - 1) := by
  simp only [OnBoard]
  omega

theorem attempt_off (h : ¬ OnBoard row col (x - 1, y - 1)) :
    attempt board x y player = some .notRight :=
  if_pos (bounds_iff.mpr h)

theorem attempt_taken (hp : OnBoard row col (x - 1, y - 1)) (h : board hp.cell ≠ none) :
    attempt board x y player = some .occupied := by
  have hon := bounds_iff.not.mpr (not_not_intro hp)
  simp [attempt, hon, read_of_onBoard hp, h]

theorem attempt_free (hp : OnBoard row col (x - 1, y - 1)) (h : board hp.cell = none) :
    attempt board x y player =
      some (.placed (Function.update board hp.cell (some player))) := by
  have hon := bounds_iff.not.mpr (not_not_intro hp)
  simp [attempt, hon, read_of_onBoard hp, write_of_onBoard hp, h]

theorem step_placed (hpc : s.pc = .playerMove player) (hp : OnBoard row col (x - 1, y - 1))
    (hfree : s.board hp.cell = none) :
    step s (.scanf x y) = some { s with
      board := Function.update s.board hp.cell (some player)
      x := x, y := y, pc := .isOver player } := by
  simp only [step, hpc, stepMove, attempt_free hp hfree]
  rfl

theorem step_rejected (hpc : s.pc = .playerMove player)
    (h : ∀ hp : OnBoard row col (x - 1, y - 1), s.board hp.cell ≠ none) :
    step s (.scanf x y) = some { s with x := x, y := y } := by
  simp only [step, hpc, stepMove]
  by_cases hp : OnBoard row col (x - 1, y - 1)
  · rw [attempt_taken hp (h hp)]
    rfl
  · rw [attempt_off hp]
    rfl

theorem step_cases (h : step s a = some t) : Step s t := by
  cases hpc : s.pc with
  | playerMove player =>
    cases a with
    | scanf x y =>
      by_cases hfree : ∃ hp : OnBoard row col (x - 1, y - 1), s.board hp.cell = none
      · obtain ⟨hp, hfree⟩ := hfree
        rw [step_placed hpc hp hfree] at h
        cases h
        exact .placed player x y hpc hp hfree
      · rw [step_rejected hpc (not_exists.mp hfree)] at h
        cases h
        exact .rejected player x y hpc
    | isOver => simp [step, hpc] at h
  | isOver player =>
    cases a with
    | scanf x y => simp [step, hpc] at h
    | isOver =>
      simp only [step, hpc] at h
      obtain ⟨result, hresult, ht⟩ := Option.bind_eq_some_iff.mp h
      split at ht <;> cases ht
      · exact .ended player result hpc hresult ‹_›
      · rename_i hnext
        rw [not_not.mp hnext] at hresult ⊢
        exact .next player hpc hresult
  | left player => simp [step, hpc] at h

end Steps

end GoBang
