import LinuxPractice.GoBangGame
import LinuxPractice.GoBangInput

/-!
# GoBang: one game after another

`main.c`: a menu, and a game whenever the number is 1. `select`, `x` and `y`
outlive the games, and nobody looks at what `scanf` returns. The last label of
the `switch` is misspelt, so that any other number is passed over in silence.
-/
namespace GoBangMain

open CppString Scanf GoBang GoBangInput Transition Transition.System

/-- Between two games the console has what is left of the last one. -/
structure State (row col : Nat) where
  console : Console row col
  playing : Bool
  select : Int
  quit : Bool

/-- A turn of the menu, a step of the game, or the end of a game. -/
inductive Action where
  | menu : Action
  | turn : GoBangInput.Action → Action
  | leave : Action
  deriving DecidableEq, Repr

section Model

variable {row col : Nat} (wide : Int → Int32)

/-- `scanf("%d", &select)`. -/
def selected (s : State row col) : Int :=
  ((scanInt s.console.input).1.map (store wide)).getD s.select

def stepMenu (s : State row col) : State row col :=
  let game := s.console.game
  let console := { s.console with input := (scanInt s.console.input).2 }
  if selected wide s = 1 then
    { console := { console with game := { GoBang.init row col with x := game.x, y := game.y } }
      playing := true
      select := 1
      quit := false }
  else ⟨console, false, selected wide s, decide (selected wide s = 0)⟩

def step (s : State row col) (a : Action) : Option (State row col) :=
  if s.quit then none
  else match a with
    | .menu => if s.playing then none else some (stepMenu wide s)
    | .turn a =>
      if s.playing then
        (GoBangInput.step wide s.console a).map fun console => { s with console := console }
      else none
    | .leave =>
      match s.playing, s.console.game.pc with
      | true, .left _ => some { s with playing := false }
      | _, _ => none

def program (row col : Nat) (input : Bytes) : System (State row col) Action where
  init := ⟨⟨GoBang.init row col, input, (none, none)⟩, false, 0, false⟩
  step := step wide

end Model

variable {row col : Nat} {wide : Int → Int32} {input : Bytes} {s t : State row col} {a : Action}

inductive Step (wide : Int → Int32) (s : State row col) : State row col → Prop
  | menu (hplaying : s.playing = false) (hquit : s.quit = false) : Step wide s (stepMenu wide s)
  | turn (a : GoBangInput.Action) (console : Console row col) (hplaying : s.playing = true)
      (hquit : s.quit = false) (hturn : GoBangInput.step wide s.console a = some console) :
      Step wide s { s with console := console }
  | leave (hquit : s.quit = false) : Step wide s { s with playing := false }

theorem step_cases (h : step wide s a = some t) : Step wide s t := by
  unfold step at h
  split at h
  · cases h
  · have hquit : s.quit = false := eq_false_of_ne_true ‹_›
    cases a with
    | menu =>
      simp only at h
      split at h <;> cases h
      exact .menu (eq_false_of_ne_true ‹_›) hquit
    | turn a =>
      simp only at h
      split at h
      · obtain ⟨console, hturn, rfl⟩ := Option.map_eq_some_iff.mp h
        exact .turn a console ‹_› hquit hturn
      · cases h
    | leave =>
      simp only at h
      split at h <;> cases h
      exact .leave hquit

/-- The game is over, and its result is what the board says. -/
def Judged (game : GoBang.State row col) (player : Player) : Prop :=
  game.result = .win player ∧ Five game.board player ∧ (∀ k, Five game.board k → k = player) ∨
    game.result = .draw ∧ (∀ k, ¬ Five game.board k) ∧ ∀ c, game.board c ≠ none

theorem Judged.step {game game' : GoBang.State row col} {player : Player} (hi : GoBang.Inv game)
    (h : GoBang.Step game game') (hpc : game'.pc = .left player) : Judged game' player := by
  unfold GoBang.Inv at hi
  cases h with
  | rejected player' x y hpc' =>
    simp only [hpc'] at hpc
    cases hpc
  | placed => cases hpc
  | next => cases hpc
  | ended player' r hpc' hresult hnext =>
    simp only [hpc'] at hi
    cases hpc
    obtain ⟨r', hr', hverdict⟩ := hi.verdict
    obtain rfl := Option.some.inj (hresult.symm.trans hr')
    cases hverdict with
    | win hfive => exact .inl ⟨rfl, five_of_through hfive, fun k hk => (hi.five k hk).1⟩
    | next hfive c hc => exact absurd rfl hnext
    | draw hfive hfull =>
      exact .inr ⟨rfl, fun k hk => hfive (hi.five_iff.mpr ⟨k, hk⟩), hfull⟩

/-- A step of the console is one of the game. -/
theorem game_step {c d : Console row col} {a : GoBangInput.Action}
    (h : GoBangInput.step wide c a = some d) : GoBang.Step c.game d.game := by
  cases a with
  | prompt =>
    obtain ⟨g, hg, rfl⟩ := Option.map_eq_some_iff.mp h
    exact GoBang.step_cases hg
  | isOver =>
    obtain ⟨g, hg, rfl⟩ := Option.map_eq_some_iff.mp h
    exact GoBang.step_cases hg

/-- Where a game of the program stands. What an earlier game has left in `x` and `y` may name a free
cell up to the first prompt. -/
structure Playing (s : State row col) : Prop where
  inv : GoBang.Inv s.console.game
  select : s.select = 1
  judged : ∀ player, s.console.game.pc = .left player → Judged s.console.game player
  stale : ¬ Free s.console.game.board s.console.game.x s.console.game.y ∨
    s.console.game.board = fun _ => none

theorem inv_game (x y : Int) : GoBang.Inv { GoBang.init row col with x := x, y := y } := by
  have h : AtMove (GoBang.init row col) .player1 := inv_init
  exact ⟨h.balanced, h.quiet, h.room⟩

theorem Playing.step (hi : s.playing = true → Playing s) (h : Step wide s t)
    (hplaying : t.playing = true) : Playing t := by
  cases h with
  | menu =>
    simp only [stepMenu] at hplaying ⊢
    split at hplaying
    · rename_i hone
      simp only [hone, if_true]
      refine ⟨inv_game _ _, rfl, fun player hpc => ?_, .inr rfl⟩
      cases hpc
    · cases hplaying
  | turn a console _ hquit hturn =>
    have hi := hi hplaying
    refine ⟨hi.inv.step (game_step hturn), hi.select,
      fun player hpc => Judged.step hi.inv (game_step hturn) hpc, ?_⟩
    cases a with
    | prompt =>
      obtain ⟨player, -, -, -, -, ⟨-, -, hplaced⟩ | ⟨hnot, -, hboard⟩⟩ := step_prompt hturn
      · exact .inl hplaced
      · exact .inl (by simpa only [hboard] using hnot)
    | isOver =>
      obtain ⟨hboard, hx, hy, -⟩ := step_isOver hturn
      simpa only [hboard, hx, hy] using hi.stale
  | leave => cases hplaying

theorem playing (h : (program wide row col input).Reachable anyStep s) :
    s.playing = true → Playing s := by
  refine Reachable.invariant (I := fun s => s.playing = true → Playing s) h ?_ ?_
  · intro h
    cases h
  · intro s a t hi _ hs
    exact Playing.step hi (step_cases hs)

/-- Nothing more is read, and the program is in a game, or back in the menu after one. -/
structure Spent (s : State row col) : Prop where
  tokens : tokens s.console.input = []
  quit : s.quit = false
  select : s.select ≠ 0

theorem tokens_spent (h : tokens input = []) :
    (scanInt input).1 = none ∧ tokens (scanInt input).2 = [] := by
  rcases hscan : scanInt input with ⟨v, rest⟩
  cases v with
  | some v =>
    rw [tokens_number hscan] at h
    cases h
  | none =>
    rcases tokens_none hscan with ⟨-, hrest⟩ | ⟨hsign, -⟩
    · exact ⟨rfl, hrest⟩
    · rw [hsign] at h
      cases h

theorem scanPair_spent (h : tokens input = []) : tokens (scanPair input).rest = [] := by
  obtain ⟨hnone, hrest⟩ := tokens_spent h
  unfold scanPair
  split
  · rename_i hscan
    rwa [hscan] at hrest
  · rename_i hscan
    rw [hscan] at hnone
    cases hnone

theorem Spent.step (hi : Spent s) (h : Step wide s t) : Spent t := by
  cases h with
  | menu =>
    obtain ⟨hnone, hrest⟩ := tokens_spent hi.tokens
    have hselected : selected wide s = s.select := by
      rw [selected, hnone]
      rfl
    unfold stepMenu
    split
    · exact ⟨hrest, rfl, one_ne_zero⟩
    · refine ⟨hrest, ?_, ?_⟩
      · simpa [hselected] using hi.select
      · simpa [hselected] using hi.select
  | turn a console hplaying hquit hturn =>
    refine ⟨?_, hquit, hi.select⟩
    cases a with
    | prompt =>
      obtain ⟨g, -, rfl⟩ := Option.map_eq_some_iff.mp hturn
      exact scanPair_spent hi.tokens
    | isOver =>
      obtain ⟨g, -, rfl⟩ := Option.map_eq_some_iff.mp hturn
      exact hi.tokens
  | leave => exact ⟨hi.tokens, hi.quit, hi.select⟩

/-- However often the game is played, and whatever is typed: each game that ends is judged by its
whole board. A prompt that reads no number places a stone only as the first one of a game, where an
earlier game has left `x` and `y`. And the program never quits behind the end of the input, unless
nothing was ever selected. -/
theorem session (h : (program wide row col input).Reachable anyStep s) :
    (∀ player, s.playing = true → s.console.game.pc = .left player →
      Judged s.console.game player) ∧
      (∀ t player, step wide s (.turn .prompt) = some t →
        stored wide s.console.input = (none, none) → t.console.game.pc = .isOver player →
        s.console.game.board = fun _ => none) ∧
      (tokens s.console.input = [] → s.quit = false → (s.playing = true ∨ s.select ≠ 0) →
        ∀ t, (program wide row col input).Leads anyStep s t → t.quit = false) := by
  have hi := playing h
  refine ⟨fun player hplaying hpc => (hi hplaying).judged player hpc, ?_, ?_⟩
  · intro t player hstep hnone hpc
    simp only [step] at hstep
    split at hstep
    · cases hstep
    · split at hstep
      · rename_i hplaying
        obtain ⟨console, hturn, rfl⟩ := Option.map_eq_some_iff.mp hstep
        obtain ⟨player', -, hx, hy, -, ⟨hfree, -, -⟩ | ⟨-, hpc', -⟩⟩ := step_prompt hturn
        · -- the coordinates are the old ones
          simp only [scanf, Console.prompt, hnone, Option.getD_none] at hx hy
          rw [hx, hy] at hfree
          exact (hi hplaying).stale.resolve_left (not_not_intro hfree)
        · rw [hpc'] at hpc
          cases hpc
      · cases hstep
  · intro htokens hquit hselect t hleads
    have hspent : Spent s := by
      refine ⟨htokens, hquit, ?_⟩
      rcases hselect with hplaying | hselect
      · rw [(hi hplaying).select]
        exact one_ne_zero
      · exact hselect
    have hall : Spent t := by
      induction hleads with
      | refl => exact hspent
      | tail _ hn ih =>
        obtain ⟨a, -, hs⟩ := hn
        exact ih.step (step_cases hs)
    exact hall.quit

/-- No prompt uses a coordinate that an earlier one has left. -/
def Complete (wide : Int → Int32) (s : State row col) : Action → Prop
  | .turn a => GoBangInput.Complete wide s.console a
  | .menu => True
  | .leave => True

theorem fresh_step (hi : Fresh s.console) (h : step wide s a = some t) :
    Fresh t.console ↔ Complete wide s a := by
  unfold step at h
  split at h
  · cases h
  · cases a with
    | menu =>
      refine iff_of_true ?_ trivial
      simp only at h
      split at h <;> cases h
      unfold stepMenu
      split
      · intro player hpc
        cases hpc
      · exact hi
    | turn a =>
      simp only at h
      split at h
      · obtain ⟨console, hturn, rfl⟩ := Option.map_eq_some_iff.mp h
        exact GoBangInput.fresh_step hturn
      · cases h
    | leave =>
      simp only at h
      split at h <;> cases h
      exact iff_of_true hi trivial

/-- On every input and in every run, however many games it has: all stones are where a single
`scanf` has put them exactly if no prompt finds a free cell with a coordinate that is left over. -/
theorem fresh_throughout_iff (row col : Nat) (wide : Int → Int32) (input : Bytes)
    (as : List Action) :
    (program wide row col input).Throughout (fun s => Fresh s.console)
        (program wide row col input).init as ↔
      (program wide row col input).Admits (Complete wide)
        (program wide row col input).init as := by
  apply throughout_iff_admits (J := fun _ => True)
  · intros
    trivial
  · intro s a t _ hi h
    exact fresh_step hi h
  · trivial
  · intro player hpc
    cases hpc

/-- "1 1 1 2 a". -/
def oneAndAHalf : Bytes := [49, 32, 49, 32, 49, 32, 50, 32, 97]

def halfRead : State 20 20 :=
  ((program (fun _ => 0) 20 20 oneAndAHalf).run (program (fun _ => 0) 20 20 oneAndAHalf).init
    [.menu, .turn .prompt, .turn .isOver, .turn .prompt]).get (by decide)

/-- "1 1 1" on a board with one cell: there is a second game, whose stone nobody has typed. -/
def oneGame : Bytes := [49, 32, 49, 32, 49]

def secondStone : State 1 1 :=
  ((program (fun _ => 0) 1 1 oneGame).run (program (fun _ => 0) 1 1 oneGame).init
    [.menu, .turn .prompt, .turn .isOver, .leave, .menu, .turn .prompt]).get (by decide)

/-- Of the second stone only the row was typed, or nothing at all. -/
theorem old_stones :
    (¬ (program (fun _ => 0) 20 20 oneAndAHalf).Throughout (fun s => Fresh s.console)
      (program (fun _ => 0) 20 20 oneAndAHalf).init
      [.menu, .turn .prompt, .turn .isOver, .turn .prompt]) ∧
    ¬ (program (fun _ => 0) 1 1 oneGame).Throughout (fun s => Fresh s.console)
      (program (fun _ => 0) 1 1 oneGame).init
      [.menu, .turn .prompt, .turn .isOver, .leave, .menu, .turn .prompt] := by
  constructor
  · intro h
    have hrun : (program (fun _ => 0) 20 20 oneAndAHalf).run _ _ = some halfRead :=
      (Option.some_get _).symm
    exact absurd (h.last hrun .player2 (by decide)) (by decide)
  · intro h
    have hrun : (program (fun _ => 0) 1 1 oneGame).run _ _ = some secondStone :=
      (Option.some_get _).symm
    exact absurd (h.last hrun .player1 (by decide)) (by decide)

theorem session_one : secondStone.console.game.pc = .isOver .player1 ∧
    ∀ t, (program (fun _ => 0) 1 1 oneGame).Leads anyStep secondStone t → t.quit = false := by
  have hreach : (program (fun _ => 0) 1 1 oneGame).Reachable anyStep secondStone :=
    reachable_of_run _
  have hspent : tokens secondStone.console.input = [] := by
    have hinput : secondStone.console.input = [] := by decide
    rw [hinput, tokens]
    rfl
  exact ⟨by decide, (session hreach).2.2 hspent (by decide) (.inl (by decide))⟩

end GoBangMain
