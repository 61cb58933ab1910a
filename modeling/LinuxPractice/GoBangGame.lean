import LinuxPractice.GoBangRuns

/-!
# A whole game of GoBang

Before every half-turn nobody has five in a row, so looking around the last
stone is as good as looking at the whole board.
-/
namespace GoBang

open Transition Transition.System

variable {row col : Nat} {board : Board row col} {s t : State row col} {p : Int × Int}
  {player : Player}

def stones (board : Board row col) (k : Player) : Nat :=
  (Finset.univ.filter fun c => board c = some k).card

theorem stones_update_same {c : Fin row × Fin col} (hc : board c = none) (k : Player) :
    stones (Function.update board c (some k)) k = stones board k + 1 := by
  have hinsert : (Finset.univ.filter fun d => Function.update board c (some k) d = some k) =
      insert c (Finset.univ.filter fun d => board d = some k) := by
    ext d
    by_cases hd : d = c
    · simp [hd]
    · simp [hd]
  rw [stones, hinsert, Finset.card_insert_of_notMem (by simp [hc]), stones]

theorem stones_update_other {c : Fin row × Fin col} (hc : board c = none) {k l : Player}
    (hkl : k ≠ l) : stones (Function.update board c (some k)) l = stones board l := by
  unfold stones
  congr 1
  ext d
  by_cases hd : d = c
  · subst hd
    simp [hc, hkl]
  · simp [hd]

theorem stones_le (board : Board row col) :
    stones board .player1 + stones board .player2 ≤ row * col := by
  have hdisjoint : Disjoint (Finset.univ.filter fun c => board c = some .player1)
      (Finset.univ.filter fun c => board c = some .player2) := by
    rw [Finset.disjoint_filter]
    intro c _ h1 h2
    rw [h1] at h2
    cases h2
  rw [stones, stones, ← Finset.card_union_of_disjoint hdisjoint]
  simpa using Finset.card_le_univ ((Finset.univ.filter fun c => board c = some .player1) ∪
    Finset.univ.filter fun c => board c = some .player2)

theorem stones_lt {c : Fin row × Fin col} (hc : board c = none) :
    stones board .player1 + stones board .player2 < row * col := by
  have hnext := stones_le (Function.update board c (some .player1))
  rw [stones_update_same hc, stones_update_other hc (by decide)] at hnext
  omega

/-- How far `player1` is ahead when it is the player's turn. -/
def Player.lead : Player → Nat
  | .player1 => 0
  | .player2 => 1

def Balanced (board : Board row col) (player : Player) : Prop :=
  stones board .player1 = stones board .player2 + player.lead

theorem Balanced.update {c : Fin row × Fin col} (h : Balanced board player) (hc : board c = none) :
    Balanced (Function.update board c (some player)) player.other := by
  unfold Balanced at h ⊢
  cases player with
  | player1 =>
    rw [stones_update_same hc, stones_update_other hc (by decide), h]
    rfl
  | player2 =>
    rw [stones_update_same hc, stones_update_other hc (by decide), h]
    rfl

/-- Before a half-turn. -/
structure AtMove (s : State row col) (player : Player) : Prop where
  balanced : Balanced s.board player
  quiet : ∀ k, ¬ Five s.board k
  room : 0 < row → 0 < col → ∃ c, s.board c = none

/-- The player's stone is at `(x, y)`, and there was no five without it. -/
structure AtIsOver (s : State row col) (player : Player) : Prop where
  balanced : Balanced s.board player.other
  stone : read s.board (s.x - 1, s.y - 1) = some (some player)
  five : ∀ k, Five s.board k → k = player ∧ FiveThrough s.board k (s.x - 1, s.y - 1)

/-- Behind the loop. -/
structure AtEnd (s : State row col) (player : Player) : Prop where
  balanced : Balanced s.board player.other
  result : s.result = .win player ∨ s.result = .draw ∧ ∀ c, s.board c ≠ none

def Inv (s : State row col) : Prop :=
  match s.pc with
  | .playerMove player => AtMove s player
  | .isOver player => AtIsOver s player
  | .left player => AtEnd s player

theorem not_five_empty (k : Player) : ¬ Five (fun _ => none : Board row col) k := by
  intro h
  obtain ⟨axis, p, n, hn, hrun⟩ := h
  have hstone := hrun 0 (by omega) (by omega)
  have hon := onBoard_of_read hstone
  rw [read_of_onBoard hon] at hstone
  cases hstone

theorem inv_init : Inv (init row col) where
  balanced := by simp [Balanced, stones, init, Player.lead]
  quiet := not_five_empty
  room := fun hrow hcol => ⟨(⟨0, hrow⟩, ⟨0, hcol⟩), rfl⟩

theorem AtMove.placed {x y : Int} (hi : AtMove s player) (hp : OnBoard row col (x - 1, y - 1))
    (hfree : s.board hp.cell = none) :
    AtIsOver { s with
      board := Function.update s.board hp.cell (some player)
      x := x, y := y, pc := .isOver player } player where
  balanced := hi.balanced.update hfree
  stone := by simp [read_update hp]
  five := fun _ h => five_update hp hi.quiet h

/-- Five around the last stone is five anywhere. -/
theorem AtIsOver.five_iff (hi : AtIsOver s player) :
    FiveThrough s.board player (s.x - 1, s.y - 1) ↔ ∃ k, Five s.board k := by
  constructor
  · intro h
    exact ⟨player, five_of_through h⟩
  · intro h
    obtain ⟨k, hk⟩ := h
    obtain ⟨rfl, hthrough⟩ := hi.five k hk
    exact hthrough

theorem AtIsOver.verdict (hi : AtIsOver s player) :
    ∃ r, isOver s.board s.x s.y = some r ∧ Verdict s.board player (s.x - 1, s.y - 1) r :=
  isOver_spec hi.stone

theorem Inv.step (hi : Inv s) (h : Step s t) : Inv t := by
  unfold Inv at hi
  cases h with
  | rejected player x y hpc =>
    simp only [hpc] at hi
    simp only [Inv, hpc]
    exact ⟨hi.balanced, hi.quiet, hi.room⟩
  | placed player x y hpc hp hfree =>
    simp only [hpc] at hi
    exact hi.placed hp hfree
  | ended player r hpc hresult hnext =>
    simp only [hpc] at hi
    obtain ⟨r', hr', hverdict⟩ := hi.verdict
    obtain rfl := Option.some.inj (hresult.symm.trans hr')
    cases hverdict with
    | win hfive => exact ⟨hi.balanced, .inl rfl⟩
    | next hfive c hc => exact absurd rfl hnext
    | draw hfive hfull => exact ⟨hi.balanced, .inr ⟨rfl, hfull⟩⟩
  | next player hpc hresult =>
    simp only [hpc] at hi
    obtain ⟨r', hr', hverdict⟩ := hi.verdict
    rw [hresult] at hr'
    cases hr'
    cases hverdict with
    | next hfive c hc =>
      refine ⟨hi.balanced, fun k hk => hfive ?_, fun _ _ => ⟨c, hc⟩⟩
      exact hi.five_iff.mpr ⟨k, hk⟩

theorem inv (h : (game row col).Reachable anyStep s) : Inv s :=
  h.invariant inv_init fun _ _ _ hi _ hs => hi.step (step_cases hs)

/-- At every `IsOver` of every game on a board of any size. -/
theorem isOver_whole_board (h : (game row col).Reachable anyStep s) (hpc : s.pc = .isOver player) :
    ∃ r, isOver s.board s.x s.y = some r ∧
      (∀ k, r = .win k ↔ Five s.board k) ∧ (∀ k, Five s.board k → k = player) ∧
      (r = .draw ↔ (∀ k, ¬ Five s.board k) ∧ ∀ c, s.board c ≠ none) ∧
      (r = .next ↔ (∀ k, ¬ Five s.board k) ∧ ∃ c, s.board c = none) := by
  have hi : AtIsOver s player := by
    have := inv h
    rwa [Inv, hpc] at this
  obtain ⟨r, hr, hverdict⟩ := hi.verdict
  have hmover : ∀ k, Five s.board k → k = player := fun k hk => (hi.five k hk).1
  have hnobody : ¬ FiveThrough s.board player (s.x - 1, s.y - 1) → ∀ k, ¬ Five s.board k :=
    fun h k hk => h (hi.five_iff.mpr ⟨k, hk⟩)
  refine ⟨r, hr, ?_, hmover, ?_, ?_⟩
  · intro k
    cases hverdict with
    | win hfive =>
      constructor
      · intro h
        cases h
        exact five_of_through hfive
      · intro h
        rw [hmover k h]
    | next hfive c hc => simp [hnobody hfive k]
    | draw hfive hfull => simp [hnobody hfive k]
  · cases hverdict with
    | win hfive => simpa using fun h => absurd (five_of_through hfive) (h player)
    | next hfive c hc => simpa using fun _ => ⟨c.1, c.2, hc⟩
    | draw hfive hfull => simpa using ⟨hnobody hfive, fun i j => hfull (i, j)⟩
  · cases hverdict with
    | win hfive => simpa using fun h => absurd (five_of_through hfive) (h player)
    | next hfive c hc => simpa using ⟨hnobody hfive, c.1, c.2, hc⟩
    | draw hfive hfull => simpa using fun _ i j => hfull (i, j)

/-- `player1` fills the first row of a 5 x 5 board, `player2` the third one. -/
def rowOfFive : List Action :=
  [.scanf 1 1, .isOver, .scanf 3 1, .isOver, .scanf 1 2, .isOver, .scanf 3 2, .isOver,
    .scanf 1 3, .isOver, .scanf 3 3, .isOver, .scanf 1 5, .isOver, .scanf 3 4, .isOver, .scanf 1 4]

def rowOfFiveEnd : State 5 5 := ((game 5 5).run (init 5 5) rowOfFive).get (by decide)

theorem isOver_whole_board_row : isOver rowOfFiveEnd.board 1 4 = some (.win .player1) ∧
    ∃ r, isOver rowOfFiveEnd.board rowOfFiveEnd.x rowOfFiveEnd.y = some r ∧
      ∀ k, r = .win k ↔ Five rowOfFiveEnd.board k := by
  refine ⟨by decide, ?_⟩
  have hrun : (game 5 5).Reachable anyStep rowOfFiveEnd := reachable_of_run _
  have hpc : rowOfFiveEnd.pc = .isOver .player1 := by decide
  obtain ⟨r, hr, hwin, -⟩ := isOver_whole_board hrun hpc
  exact ⟨r, hr, hwin⟩

theorem Step.board_kept (h : Step s t) {c : Fin row × Fin col} {k : Player}
    (hc : s.board c = some k) : t.board c = some k := by
  cases h with
  | placed player x y hpc hp hfree =>
    have hne : c ≠ hp.cell := by
      intro he
      rw [he, hfree] at hc
      cases hc
    simpa [hne] using hc
  | rejected | ended | next => exact hc

theorem board_kept (h : (game row col).Leads anyStep s t) {c : Fin row × Fin col} {k : Player}
    (hc : s.board c = some k) : t.board c = some k := by
  induction h with
  | refl => exact hc
  | tail _ hn ih =>
    obtain ⟨a, -, hs⟩ := hn
    exact (step_cases hs).board_kept ih

/-- `PlayerMove` takes any two integers, and some of them are accepted. -/
structure CanMove (s : State row col) (player : Player) : Prop where
  room : ∃ c, s.board c = none
  few : stones s.board .player1 + stones s.board .player2 < row * col
  reads : ∀ x y, ∃ t, step s (.scanf x y) = some t
  accepts : ∃ x y t, step s (.scanf x y) = some t ∧ t.pc = .isOver player

theorem reads (hpc : s.pc = .playerMove player) (x y : Int) :
    ∃ t, step s (.scanf x y) = some t := by
  by_cases hfree : ∃ hp : OnBoard row col (x - 1, y - 1), s.board hp.cell = none
  · obtain ⟨hp, hfree⟩ := hfree
    exact ⟨_, step_placed hpc hp hfree⟩
  · exact ⟨_, step_rejected hpc (not_exists.mp hfree)⟩

theorem AtMove.canMove (hi : AtMove s player) (hpc : s.pc = .playerMove player) (hrow : 0 < row)
    (hcol : 0 < col) : CanMove s player where
  room := hi.room hrow hcol
  few := by
    obtain ⟨c, hc⟩ := hi.room hrow hcol
    exact stones_lt hc
  reads := reads hpc
  accepts := by
    obtain ⟨c, hc⟩ := hi.room hrow hcol
    have hp : OnBoard row col ((c.1 + 1 : Int) - 1, (c.2 + 1 : Int) - 1) := by
      unfold OnBoard
      omega
    have hcell : hp.cell = c := by
      simp [OnBoard.cell]
    exact ⟨c.1 + 1, c.2 + 1, _, step_placed hpc hp (by rw [hcell]; exact hc), rfl⟩

/-- `IsOver` always answers, and on a full board it ends the game. -/
theorem AtIsOver.answers (hi : AtIsOver s player) (hpc : s.pc = .isOver player) :
    ∃ t, step s .isOver = some t ∧
      (stones s.board .player1 + stones s.board .player2 = row * col → t.pc = .left player) := by
  obtain ⟨r, hr, hverdict⟩ := hi.verdict
  simp only [step, hpc, stepIsOver, hr]
  cases hverdict with
  | win hfive => exact ⟨_, rfl, fun _ => rfl⟩
  | draw hfive hfull => exact ⟨_, rfl, fun _ => rfl⟩
  | next hfive c hc =>
    refine ⟨_, rfl, fun hfull => ?_⟩
    have := stones_lt hc
    omega

theorem Balanced.cases (h : Balanced board player) : stones board .player1 = stones board .player2 ∨
    stones board .player1 = stones board .player2 + 1 := by
  cases player with
  | player1 => exact .inl h
  | player2 => exact .inr h

theorem Inv.balanced (hi : Inv s) : ∃ player, Balanced s.board player := by
  unfold Inv at hi
  split at hi
  · exact ⟨_, hi.balanced⟩
  · exact ⟨_, hi.balanced⟩
  · exact ⟨_, hi.balanced⟩

/-- Every game on every board, whatever integers are typed. -/
theorem game_ends_in_time (hrow : 0 < row) (hcol : 0 < col)
    (h : (game row col).Reachable anyStep s) :
    (stones s.board .player1 = stones s.board .player2 ∨
        stones s.board .player1 = stones s.board .player2 + 1) ∧
      (∀ t c k, (game row col).Leads anyStep s t → s.board c = some k → t.board c = some k) ∧
      (∀ player, s.pc = .playerMove player → CanMove s player) ∧
      (∀ player, s.pc = .isOver player → ∃ t, step s .isOver = some t ∧
        (stones s.board .player1 + stones s.board .player2 = row * col → t.pc = .left player)) ∧
      ∀ player, s.pc = .left player →
        s.result = .win player ∨ s.result = .draw ∧ ∀ c, s.board c ≠ none := by
  have hi := inv h
  obtain ⟨turn, hturn⟩ := hi.balanced
  refine ⟨hturn.cases, fun t c k ht hc => board_kept ht hc, ?_, ?_, ?_⟩
  · intro player hpc
    rw [Inv, hpc] at hi
    exact hi.canMove hpc hrow hcol
  · intro player hpc
    rw [Inv, hpc] at hi
    exact hi.answers hpc
  · intro player hpc
    rw [Inv, hpc] at hi
    exact hi.result

/-- A board of one cell is full after one stone. -/
def oneCellEnd : State 1 1 :=
  ((game 1 1).run (init 1 1) [.scanf 7 1, .scanf 1 1, .isOver]).get (by decide)

theorem game_ends_in_time_one : oneCellEnd.pc = .left .player1 ∧ (oneCellEnd.result = .win .player1 ∨
    oneCellEnd.result = .draw ∧ ∀ c, oneCellEnd.board c ≠ none) := by
  have hrun : (game 1 1).Reachable anyStep oneCellEnd := reachable_of_run _
  have hend := game_ends_in_time (by decide) (by decide) hrun
  exact ⟨by decide, hend.2.2.2.2 .player1 (by decide)⟩

end GoBang
