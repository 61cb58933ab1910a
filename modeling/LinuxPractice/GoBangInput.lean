import LinuxPractice.GoBang
import LinuxPractice.Scanf

/-!
# GoBang at a terminal

`PlayerMove` does not look at what `scanf` returns. Where a conversion fails,
`x` and `y` are what an earlier prompt has left in them.
-/
namespace GoBangInput

open CppString Scanf GoBang Transition Transition.System

/-- What `%d` stores; `wide` says what becomes of a number that is no `int`. -/
def store (wide : Int → Int32) (v : Int) : Int := if InInt v then v else (wide v).toInt

/-- The values stored by a call of `scanf`. -/
def stored (wide : Int → Int32) (input : Bytes) : Option Int × Option Int :=
  ((scanPair input).first.map (store wide), (scanPair input).second.map (store wide))

/-- The globals, and what is unread of the input. -/
structure Prompt where
  x : Int
  y : Int
  input : Bytes
  deriving DecidableEq, Repr

/-- `scanf("%d %d", &x, &y)`. -/
def scanf (wide : Int → Int32) (p : Prompt) : Prompt where
  x := (stored wide p.input).1.getD p.x
  y := (stored wide p.input).2.getD p.y
  input := (scanPair p.input).rest

/-- `last` is what the last call of `scanf` stored. -/
structure Console (row col : Nat) where
  game : State row col
  input : Bytes
  last : Option Int × Option Int

inductive Action where
  | prompt | isOver
  deriving DecidableEq, Repr

section

variable {row col : Nat} (wide : Int → Int32)

def Console.prompt (c : Console row col) : Prompt := ⟨c.game.x, c.game.y, c.input⟩

def step (c : Console row col) : Action → Option (Console row col)
  | .prompt =>
    let p := scanf wide c.prompt
    (GoBang.step c.game (.scanf p.x p.y)).map fun game => ⟨game, p.input, stored wide c.input⟩
  | .isOver => (GoBang.step c.game .isOver).map fun game => { c with game := game }

/-- There is a cell at the coordinates, without a stone. -/
def Free (board : Board row col) (x y : Int) : Prop :=
  ∃ hp : OnBoard row col (x - 1, y - 1), board hp.cell = none

/-- A stone that has just been placed is at the coordinates that the last `scanf` stored. -/
def Fresh (c : Console row col) : Prop :=
  ∀ player, c.game.pc = .isOver player → c.last = (some c.game.x, some c.game.y)

/-- The prompt does not find a free cell with an old coordinate: neither with the old `y` when it
reads one number only, nor with both when it reads none. -/
def Complete (c : Console row col) : Action → Prop
  | .prompt =>
    (∀ x, stored wide c.input = (some x, none) → ¬ Free c.game.board x c.game.y) ∧
      (stored wide c.input = (none, none) → ¬ Free c.game.board c.game.x c.game.y)
  | .isOver => True

variable {wide} {c d : Console row col} {a : Action}

/-- The second conversion comes after the first. -/
theorem stored_cases (wide : Int → Int32) (input : Bytes) :
    stored wide input = (none, none) ∨ (∃ x, stored wide input = (some x, none)) ∨
      ∃ x y, stored wide input = (some x, some y) := by
  unfold stored scanPair
  rcases scanInt input with ⟨_ | a, rest⟩
  · exact .inl rfl
  · right
    cases hsecond : (scanInt rest).1 with
    | none => exact .inl ⟨store wide a, by simp [hsecond]⟩
    | some b => exact .inr ⟨store wide a, store wide b, by simp [hsecond]⟩

/-- A prompt places a stone at a free cell and otherwise changes the coordinates only. -/
theorem step_prompt (h : step wide c .prompt = some d) : ∃ player, c.game.pc = .playerMove player ∧
    d.game.x = (scanf wide c.prompt).x ∧ d.game.y = (scanf wide c.prompt).y ∧
    d.last = stored wide c.input ∧
    (Free c.game.board d.game.x d.game.y ∧ d.game.pc = .isOver player ∧
        ¬ Free d.game.board d.game.x d.game.y ∨
      ¬ Free c.game.board d.game.x d.game.y ∧ d.game.pc = .playerMove player ∧
        d.game.board = c.game.board) := by
  obtain ⟨g, hg, rfl⟩ := Option.map_eq_some_iff.mp h
  cases hpc : c.game.pc with
  | isOver player => simp [GoBang.step, hpc] at hg
  | left player => simp [GoBang.step, hpc] at hg
  | playerMove player =>
    refine ⟨player, rfl, ?_⟩
    by_cases hfree : Free c.game.board (scanf wide c.prompt).x (scanf wide c.prompt).y
    · obtain ⟨hp, hcell⟩ := hfree
      rw [step_placed hpc hp hcell] at hg
      cases hg
      refine ⟨rfl, rfl, rfl, .inl ⟨⟨hp, hcell⟩, rfl, ?_⟩⟩
      rintro ⟨hp', hcell'⟩
      simp at hcell'
    · rw [step_rejected hpc (not_exists.mp hfree)] at hg
      cases hg
      exact ⟨rfl, rfl, rfl, .inr ⟨hfree, hpc, rfl⟩⟩

/-- `IsOver` leaves the board and the coordinates alone. -/
theorem step_isOver (h : step wide c .isOver = some d) :
    d.game.board = c.game.board ∧ d.game.x = c.game.x ∧ d.game.y = c.game.y ∧
      ∀ player, d.game.pc ≠ .isOver player := by
  obtain ⟨g, hg, rfl⟩ := Option.map_eq_some_iff.mp h
  cases hpc : c.game.pc with
  | playerMove player => simp [GoBang.step, hpc] at hg
  | left player => simp [GoBang.step, hpc] at hg
  | isOver player =>
    simp only [GoBang.step, hpc, stepIsOver] at hg
    obtain ⟨result, -, hresult⟩ := Option.bind_eq_some_iff.mp hg
    split at hresult
    · cases hresult
      simp
    · cases hresult
      simp

/-- The stone of a prompt is fresh exactly if the prompt does not use an old coordinate. -/
theorem fresh_step (h : step wide c a = some d) : Fresh d ↔ Complete wide c a := by
  cases a with
  | isOver =>
    obtain ⟨-, -, -, hpc⟩ := step_isOver h
    exact iff_of_true (fun player hp => absurd hp (hpc player)) trivial
  | prompt =>
    obtain ⟨player, -, hx, hy, hlast, hturn⟩ := step_prompt h
    simp only [scanf, Console.prompt] at hx hy
    constructor
    · intro hfresh
      have hstored : Free c.game.board d.game.x d.game.y →
          stored wide c.input = (some d.game.x, some d.game.y) := by
        intro hfree
        rcases hturn with ⟨-, hpc, -⟩ | ⟨hnot, -, -⟩
        · exact hlast.symm.trans (hfresh player hpc)
        · exact absurd hfree hnot
      constructor
      · intro x hone hfree
        simp only [hone, Option.getD_some, Option.getD_none] at hx hy
        rw [← hx, ← hy] at hfree
        simp [hstored hfree] at hone
      · intro hnone hfree
        simp only [hnone, Option.getD_none] at hx hy
        rw [← hx, ← hy] at hfree
        simp [hstored hfree] at hnone
    · rintro ⟨hone, hnone⟩ player' hpc'
      rcases hturn with ⟨hfree, -, -⟩ | ⟨-, hpc, -⟩
      · rcases stored_cases wide c.input with hread | ⟨x, hread⟩ | ⟨x, y, hboth⟩
        · rw [hread] at hx hy
          rw [hx, hy] at hfree
          exact absurd hfree (hnone hread)
        · rw [hread] at hx hy
          rw [hx, hy] at hfree
          exact absurd hfree (hone x hread)
        · rw [hboth] at hx hy hlast
          rw [hlast, hx, hy]
          rfl
      · rw [hpc] at hpc'
        cases hpc'

end

end GoBangInput
