import LinuxPractice.ReadAhead
import LinuxPractice.ShellCommands

/-!
# The lines of the input

`interact` takes off the last character of what `fgets` has read. That is the
newline only if the line has one and fits into the buffer with it. Standard
input is read ahead, and a child that finds no program gives back, as it leaves,
what the shell still has in its buffer. Programs that are found are taken not to
read what is meant for the shell.
-/
namespace Shell

open CppString CBuffer Decimal ReadAhead Words

/-- A call of `interact`: what `fgets` has read, and the string for `check_redir`. -/
structure Call where
  read : Bytes
  command : Bytes
  deriving DecidableEq, Repr

section

variable (src : Source UInt8)

/-- `fgets` of standard input. -/
def fgetsStdin (size : Nat) (r : Reader UInt8) : Option (Bytes × Reader UInt8) :=
  if (src.upTo 10 (size - 1) r).1.isEmpty then none else some (src.upTo 10 (size - 1) r)

/-- `readLine`, from standard input. -/
def readStdin (s : State) (r : Reader UInt8) : Except Fault (Call × State × Reader UInt8) :=
  match fgetsStdin src lineSize r with
  | none => .error .assertion
  | some (line, r) => (store s line).map fun s => (⟨line, cstr s.commandline 0⟩, s, r)

/-- Standard input behind a command. -/
def behind (effects : List Effect) (r : Reader UInt8) : Reader UInt8 :=
  if .syncStdin ∈ effects then src.setBack r else r

/-- The first calls of `interact`, as far as `main` gets, and how they end. The system answers each
command as it likes; a program that it finds takes nothing of the standard input. -/
def calls : (Nat → World) → Nat → State → Reader UInt8 → List (Except Fault Call)
  | _, 0, _, _ => []
  | world, n + 1, s, r =>
    match readStdin src { s with rdirfilename := none, rdir := .none } r with
    | .error e => [.error e]
    | .ok (call, s, r) =>
      .ok call ::
        match execute (world 0) (checkRedir s) with
        | .error _ => []
        | .ok (s, effects) => calls (fun k => world (k + 1)) n s (behind src effects r)

end

/-- The lines of a text. A newline at its end begins no further line. -/
def lines : Bytes → List Bytes
  | [] => []
  | b :: s => if b = 10 then [] :: lines s else (b :: (lines s).headD []) :: (lines s).tail

/-- A call that takes off the newline of its line, and nothing else. -/
def whole (l : Bytes) : Except Fault Call := .ok ⟨l ++ [10], l⟩

/-- A call for every line of a text, and one that finds the end of the input. -/
def expected (text : Bytes) : List (Except Fault Call) :=
  (lines text).map whole ++ [.error .assertion]

/-- The strings for `check_redir`. -/
def commands (cs : List (Except Fault Call)) : List Bytes :=
  cs.filterMap fun
    | .ok call => some call.command
    | .error _ => none

/-- The calls take the lines of the input, each with its newline, up to the end. -/
def Exact (src : Source UInt8) (world : Nat → World) (s : State) : Prop :=
  ∀ n, calls src world n s fresh = (expected src.file).take n

/-- The command of a line does not end the shell. -/
def Runs (w : World) (ws : List Bytes) : Prop :=
  Fits ws ∧ ws ≠ [] ∧ (ws.length = 2 → ws.head? = some cd → w.getenv pwd ≠ none ∧ w.fits w.cwd)

instance (w : World) (ws : List Bytes) : Decidable (Runs w ws) :=
  inferInstanceAs (Decidable (_ ∧ _ ∧ _))

/-- A child finds no program for the words, and has the shell's input as its own. -/
def Leaves (w : World) (r : Rdir × Option Bytes) (ws : List Bytes) : Prop :=
  (ws.length = 2 → ws.head? ≠ some cd ∧ ws.head? ≠ some export' ∧ ws.head? ≠ some echo) ∧
    w.fork ∧ w.execvp (programArgs ws) none = none ∧ childInput w r.1 r.2 = none

/-- The command of a line does not end the shell, and gives nothing back that the shell has. -/
def Quiet (src : Source UInt8) (w : World) (line : Bytes) (r : Reader UInt8) : Prop :=
  Runs w (words delim (command line)) ∧
    (Leaves w (redirection line) (words delim (command line)) → src.seekable → r.buffer = [])

/-- The first commands are quiet, as far as `main` gets. -/
def Smooth (src : Source UInt8) : (Nat → World) → Nat → State → Reader UInt8 → Prop
  | _, 0, _, _ => True
  | world, n + 1, s, r =>
    match readStdin src { s with rdirfilename := none, rdir := .none } r with
    | .error _ => True
    | .ok (call, s, r) => Quiet src (world 0) call.command r ∧
      ∀ s' effects, execute (world 0) (checkRedir s) = .ok (s', effects) →
        Smooth src (fun k => world (k + 1)) n s' (behind src effects r)

variable {src : Source UInt8} {world : Nat → World} {w : World} {s : State} {r r' : Reader UInt8}
variable {l chunk line : Bytes} {ws : List Bytes} {n : Nat}

theorem lines_line (hl : (10 : UInt8) ∉ l) (rest : Bytes) :
    lines (l ++ 10 :: rest) = l :: lines rest := by
  induction l with
  | nil => rfl
  | cons b l ih =>
    rw [List.mem_cons, not_or] at hl
    rw [List.cons_append, lines, if_neg (Ne.symm hl.1), ih hl.2]
    rfl

/-- A text that ends with a newline consists of its lines. -/
theorem flatMap_lines {text : Bytes} (h : ∀ b ∈ text.getLast?, b = 10) :
    (lines text).flatMap (· ++ [10]) = text := by
  induction hn : text.length using Nat.strong_induction_on generalizing text with
  | _ n ih =>
    subst hn
    by_cases hne : text = []
    · subst hne
      rfl
    · have hlast : (10 : UInt8) ∈ text := by
        rw [← h _ (List.getLast?_eq_some_getLast hne)]
        exact List.getLast_mem hne
      obtain ⟨l, rest, rfl, hl⟩ := List.eq_append_cons_of_mem hlast
      have hrest : ∀ b ∈ rest.getLast?, b = 10 := by
        intro b hb
        exact h b (by simp [List.getLast?_cons, Option.mem_def.mp hb])
      rw [lines_line hl, List.flatMap_cons, ih rest.length (by simp; omega) hrest rfl]
      simp

theorem getLast_lines (ls : List Bytes) : ∀ b ∈ (ls.flatMap (· ++ [10])).getLast?, b = 10 := by
  intro b hb
  rcases List.eq_nil_or_concat ls with rfl | ⟨front, l, rfl⟩
  · cases hb
  · simpa [eq_comm] using hb

/-- What stdio delivers is what `fgets` delivers of the unread input. -/
theorem fgetsStdin_some {size : Nat} (h : fgetsStdin src size r = some (chunk, r')) :
    (∃ data, Advances src r chunk data r') ∧ chunk ≠ [] ∧ chunk.length ≤ size - 1 ∧
      fgets size (src.unread r) = some (chunk, src.unread r') := by
  obtain ⟨⟨data, hadv⟩, hstop⟩ := upTo_spec src 10 (size - 1) r
  rw [fgetsStdin] at h
  split at h
  · cases h
  · rename_i hne
    rw [Option.some.injEq] at h
    rw [h] at hadv hstop hne
    simp only at hadv hstop hne
    have hne : chunk ≠ [] := by simpa using hne
    rw [hadv.unread]
    rcases hstop with ⟨l, rfl, hl, hlen⟩ | ⟨hl, hlen⟩
    · refine ⟨⟨data, hadv⟩, hne, by simpa using hlen, ?_⟩
      rw [List.append_assoc]
      exact fgets_line hl hlen _
    · exact ⟨⟨data, hadv⟩, hne, by omega, fgets_piece hne hl hlen⟩

theorem fgetsStdin_none (h : fgetsStdin src lineSize r = none) : src.unread r = [] := by
  obtain ⟨⟨data, hadv⟩, hstop⟩ := upTo_spec src 10 (lineSize - 1) r
  rw [fgetsStdin] at h
  split at h
  · rename_i hnil
    rw [List.isEmpty_iff] at hnil
    rw [hadv.unread]
    rw [hnil] at hstop ⊢
    rcases hstop with ⟨l, hl, -⟩ | ⟨-, hlen | hend⟩
    · simp at hl
    · exact absurd hlen (by decide)
    · exact hend.1
  · cases h

theorem interpret_runs (code : Int) (q : Rdir × Option Bytes) (h : Runs w ws) :
    ∃ code' effects, interpret w code q ws = .ok (code', effects) ∧
      (.syncStdin ∈ effects ↔ Leaves w q ws) := by
  obtain ⟨hfits, hne, hcd⟩ := h
  have hchild : ∀ ws, .syncStdin ∈ (child w code (programArgs ws) q.1 q.2).2 ↔
      w.fork ∧ w.execvp (programArgs ws) none = none ∧ childInput w q.1 q.2 = none := by
    intro ws
    rw [child]
    by_cases hfork : w.fork
    · cases hin : childInput w q.1 q.2 with
      | none => cases hexec : w.execvp (programArgs ws) none <;> simp [hfork, exitChild, hin]
      | some name =>
        cases hexec : w.execvp (programArgs ws) (some name) <;> simp [hfork, exitChild, hin]
    · simp [hfork]
  have hecho : ∀ text, .syncStdin ∉ (runEcho w code text).2 := by
    intro text hin
    obtain ⟨_, ⟨⟩⟩ := mem_runEcho hin
  have hok : ∀ p : Int × List Effect, (.syncStdin ∈ p.2 ↔ Leaves w q ws) →
      ∃ code' effects, (.ok p : Except Fault _) = .ok (code', effects) ∧
        (.syncStdin ∈ effects ↔ Leaves w q ws) := fun p hp => ⟨p.1, p.2, rfl, hp⟩
  unfold interpret
  rw [if_pos hfits]
  rcases ws with _ | ⟨cmd, _ | ⟨text, _ | ⟨text', ws⟩⟩⟩
  · exact absurd rfl hne
  · exact hok _ (by simp [hchild, Leaves])
  · dsimp only
    split_ifs with hcmd hpwd hroom hexport hecho'
    · exact absurd hpwd (hcd rfl (by rw [hcmd]; rfl)).1
    · have hfit := (hcd rfl (by rw [hcmd]; rfl)).2
      simp [hfit] at hroom
    · exact hok _ (by simp [Leaves, hcmd])
    · exact hok _ (by simp [Leaves, hexport])
    · exact hok _ (by simp [Leaves, hecho', hecho])
    · exact hok _ (by simp [hchild, Leaves, hcmd, hexport, hecho'])
  · exact hok _ (by simp [hchild, Leaves])

theorem interpret_not_runs (code : Int) (q : Rdir × Option Bytes) (h : ¬ Runs w ws) :
    ∃ e, interpret w code q ws = .error e := by
  by_cases hfits : Fits ws
  · unfold interpret
    rw [if_pos hfits]
    rcases ws with _ | ⟨cmd, _ | ⟨text, _ | ⟨text', ws⟩⟩⟩
    · exact ⟨_, rfl⟩
    · exact absurd ⟨hfits, List.cons_ne_nil _ _, by simp⟩ h
    · dsimp only
      split_ifs with hcmd hpwd hroom
      · exact ⟨_, rfl⟩
      · exact ⟨_, rfl⟩
      · exact absurd ⟨hfits, List.cons_ne_nil _ _, fun _ _ => ⟨hpwd, by simpa using hroom⟩⟩ h
      all_goals
        refine absurd ⟨hfits, List.cons_ne_nil _ _, fun _ hhead => ?_⟩ h
        exact absurd (Option.some.inj hhead) hcmd
    · exact absurd ⟨hfits, List.cons_ne_nil _ _, by simp⟩ h
  · exact ⟨_, interpret_error w code q hfits⟩

/-- What `interact` hands on is interpreted by its words. -/
theorem execute_typed (w : World) (s : State) (hline : (0 : UInt8) ∉ line) (more : Bytes) :
    (Runs w (words delim (command line)) →
      ∃ s' effects, execute w (checkRedir (s.typed line more)) = .ok (s', effects) ∧
        (.syncStdin ∈ effects ↔ Leaves w (redirection line) (words delim (command line)))) ∧
      (¬ Runs w (words delim (command line)) →
        ∃ e, execute w (checkRedir (s.typed line more)) = .error e) := by
  have hmeans := execute_line w s hline more
  constructor
  · intro hruns
    obtain ⟨code, effects, hok, hsync⟩ := interpret_runs s.lastcode (redirection line) hruns
    rw [hok] at hmeans
    cases hexec : execute w (checkRedir (s.typed line more)) with
    | error e =>
      rw [hexec] at hmeans
      cases hmeans
    | ok p =>
      rw [hexec] at hmeans
      cases hmeans
      exact ⟨p.1, p.2, rfl, hsync⟩
  · intro hruns
    obtain ⟨e, herror⟩ := interpret_not_runs s.lastcode (redirection line) hruns
    rw [herror, map_eq_error_iff] at hmeans
    exact ⟨e, hmeans⟩

theorem readStdin_some (s : State) (h : fgetsStdin src lineSize r = some (chunk, r'))
    (hnul : (0 : UInt8) ∉ chunk) : ∃ more,
      readStdin src { s with rdirfilename := none, rdir := .none } r =
        .ok (⟨chunk, chunk.dropLast⟩, s.typed chunk.dropLast more, r') := by
  have hself : chunk.takeWhile (· != 0) = chunk := takeWhile_eq_self.mpr hnul
  obtain ⟨-, hne, -⟩ := fgetsStdin_some h
  obtain ⟨more, hstore⟩ := store_ok { s with rdirfilename := none, rdir := .none }
    (show chunk.takeWhile (· != 0) ≠ [] by rwa [hself])
  rw [withoutLast, hself] at hstore
  have hstr : cstr (chunk.dropLast ++ 0 :: more) 0 = chunk.dropLast :=
    cstr_append [] (fun hm => hnul (List.mem_of_mem_dropLast hm)) more
  refine ⟨more, ?_⟩
  simp only [readStdin, h, hstore, Except.map, hstr]
  rfl

/-- Where a call finds something, and its command runs, the calls go on behind the command. -/
theorem calls_runs (world : Nat → World) (s : State)
    (h : fgetsStdin src lineSize r = some (chunk, r'))
    (hnul : (0 : UInt8) ∉ chunk) (hruns : Runs (world 0) (words delim (command chunk.dropLast))) :
    ∃ s' r'',
      (Leaves (world 0) (redirection chunk.dropLast) (words delim (command chunk.dropLast)) →
        r'' = src.setBack r') ∧
      (¬ Leaves (world 0) (redirection chunk.dropLast) (words delim (command chunk.dropLast)) →
        r'' = r') ∧
      ∀ n, calls src world (n + 1) s r =
          .ok ⟨chunk, chunk.dropLast⟩ :: calls src (fun k => world (k + 1)) n s' r'' ∧
        (Smooth src world (n + 1) s r ↔ Quiet src (world 0) chunk.dropLast r' ∧
          Smooth src (fun k => world (k + 1)) n s' r'') := by
  obtain ⟨more, hread⟩ := readStdin_some s h hnul
  obtain ⟨s', effects, hexec, hsync⟩ := (execute_typed (world 0) s
    (fun hm => hnul (List.mem_of_mem_dropLast hm)) more).1 hruns
  refine ⟨s', behind src effects r', fun hleaves => ?_, fun hleaves => ?_, fun n => ⟨?_, ?_⟩⟩
  · rw [behind, if_pos (hsync.mpr hleaves)]
  · rw [behind, if_neg (mt hsync.mp hleaves)]
  · simp only [calls, hread, hexec]
  · simp only [Smooth, hread, hexec]
    refine and_congr_right fun _ => ⟨fun hrest => hrest s' effects rfl, ?_⟩
    rintro hrest _ _ ⟨⟩
    exact hrest

theorem calls_faults (world : Nat → World) (s : State)
    (h : fgetsStdin src lineSize r = some (chunk, r'))
    (hnul : (0 : UInt8) ∉ chunk) (n : Nat)
    (hruns : ¬ Runs (world 0) (words delim (command chunk.dropLast))) :
    calls src world (n + 1) s r = [.ok ⟨chunk, chunk.dropLast⟩] ∧
      ¬ Smooth src world (n + 1) s r := by
  obtain ⟨more, hread⟩ := readStdin_some s h hnul
  obtain ⟨e, hexec⟩ := (execute_typed (world 0) s
    (fun hm => hnul (List.mem_of_mem_dropLast hm)) more).2 hruns
  constructor
  · simp only [calls, hread, hexec]
  · simp only [Smooth, hread]
    exact fun hsmooth => hruns hsmooth.1.1

theorem calls_end (world : Nat → World) (s : State) (h : fgetsStdin src lineSize r = none)
    (n : Nat) : calls src world (n + 1) s r = [.error .assertion] ∧
      Smooth src world (n + 1) s r := by
  simp [calls, Smooth, readStdin, h]

theorem Smooth.mono {m : Nat} (hle : n ≤ m) (h : Smooth src world m s r) :
    Smooth src world n s r := by
  induction n generalizing m world s r with
  | zero => trivial
  | succ n ih =>
    obtain ⟨m, rfl⟩ : ∃ k, m = k + 1 := ⟨m - 1, by omega⟩
    simp only [Smooth] at h ⊢
    split
    · trivial
    · rename_i hread
      rw [hread] at h
      exact ⟨h.1, fun s' effects hexec => ih (by omega) (h.2 s' effects hexec)⟩

theorem readStdin_length {call : Call} {s' : State} (h : readStdin src s r = .ok (call, s', r')) :
    call.read.length ≤ lineSize - 1 := by
  rw [readStdin] at h
  cases hget : fgetsStdin src lineSize r with
  | none => simp [hget] at h
  | some p =>
    have hlen := (fgetsStdin_some hget).2.2.1
    simp only [hget] at h
    cases hstore : store s p.1 with
    | error e => simp [hstore, Except.map] at h
    | ok t =>
      rw [hstore] at h
      cases h
      exact hlen

/-- No call reads more than the buffer holds. -/
theorem length_read {call : Call} (h : .ok call ∈ calls src world n s r) :
    call.read.length ≤ lineSize - 1 := by
  induction n generalizing world s r with
  | zero => cases h
  | succ n ih =>
    rw [calls] at h
    split at h
    · simp at h
    · rename_i hread
      rcases List.mem_cons.mp h with hfirst | hrest
      · rw [Except.ok.injEq] at hfirst
        rw [hfirst]
        exact readStdin_length hread
      · split at hrest
        · cases hrest
        · exact ih hrest

/-- All that the calls have read. -/
def taken (cs : List (Except Fault Call)) : Bytes :=
  cs.flatMap fun
    | .ok call => call.read
    | .error _ => []

variable {given : Bytes}

/-- Behind the end of the input: something was read twice, or every command was quiet. -/
theorem taken_of_end (hnul : (0 : UInt8) ∉ src.file) (hfeeds : Feeds src given r)
    (hend : .error .assertion ∈ calls src world n s r) :
    (given ++ taken (calls src world n s r)).getLast? = src.file.getLast? ∧
      (Twice given r → src.file.length < (given ++ taken (calls src world n s r)).length) ∧
      (Straight src given r →
        Smooth src world n s r ∧ given ++ taken (calls src world n s r) = src.file ∨
        src.file.length < (given ++ taken (calls src world n s r)).length) := by
  induction n generalizing world s r given with
  | zero => cases hend
  | succ n ih =>
    cases hget : fgetsStdin src lineSize r with
    | none =>
      obtain ⟨hcalls, hsmooth⟩ := calls_end world s hget n
      obtain ⟨hlast, htwice, hstraight⟩ := hfeeds.at_end (fgetsStdin_none hget)
      simp only [hcalls, taken, List.flatMap_cons, List.flatMap_nil, List.append_nil]
      exact ⟨hlast, htwice, fun h => .inl ⟨hsmooth, hstraight h⟩⟩
    | some p =>
      obtain ⟨chunk, r'⟩ := p
      obtain ⟨⟨data, hadv⟩, -⟩ := fgetsStdin_some hget
      have hfeeds' := hfeeds.advance hadv
      have hchunk : (0 : UInt8) ∉ chunk := fun hm => hnul (hfeeds.taken_subset hadv hm)
      by_cases hruns : Runs (world 0) (words delim (command chunk.dropLast))
      · obtain ⟨s', r'', hleaves, hstays, hnext⟩ := calls_runs world s hget hchunk hruns
        obtain ⟨hcalls, hsmooth⟩ := hnext n
        rw [hcalls] at hend ⊢
        have hend' : .error .assertion ∈ calls src (fun k => world (k + 1)) n s' r'' := by
          simpa using hend
        have htaken : given ++ taken (.ok ⟨chunk, chunk.dropLast⟩ ::
            calls src (fun k => world (k + 1)) n s' r'') =
              given ++ chunk ++ taken (calls src (fun k => world (k + 1)) n s' r'') := by
          simp [taken]
        rw [htaken, hsmooth]
        by_cases hleave : Leaves (world 0) (redirection chunk.dropLast)
            (words delim (command chunk.dropLast))
        · obtain rfl := hleaves hleave
          obtain ⟨hlast, htwice, hstraight⟩ := ih hfeeds'.setBack hend'
          refine ⟨hlast, fun h => htwice ((h.advance hadv).setBack src), fun h => ?_⟩
          have h' := h.advance hadv
          by_cases hquiet : src.seekable → r'.buffer = []
          · rw [← setBack_eq_self hquiet] at h'
            refine (hstraight h').imp_left fun hrest => ?_
            exact ⟨⟨⟨hruns, fun _ => hquiet⟩, hrest.1⟩, hrest.2⟩
          · rw [Classical.not_imp] at hquiet
            exact .inr (htwice (h'.setBack hfeeds'.le hquiet.1 hquiet.2))
        · obtain rfl := hstays hleave
          obtain ⟨hlast, htwice, hstraight⟩ := ih hfeeds' hend'
          refine ⟨hlast, fun h => htwice (h.advance hadv), fun h => ?_⟩
          refine (hstraight (h.advance hadv)).imp_left fun hrest => ?_
          exact ⟨⟨⟨hruns, fun h => absurd h hleave⟩, hrest.1⟩, hrest.2⟩
      · rw [(calls_faults world s hget hchunk n hruns).1] at hend
        simp at hend

theorem Exact.calls_all (h : Exact src world s) (n : Nat) :
    calls src world (n + (expected src.file).length) s fresh = expected src.file := by
  rw [h, List.take_of_length_le (by omega)]

theorem taken_expected (text : Bytes) :
    taken (expected text) = (lines text).flatMap (· ++ [10]) := by
  simp [taken, expected, whole, List.flatMap_append, List.flatMap_map]

theorem Exact.fits (h : Exact src world s) (hl : l ∈ lines src.file) : l.length + 2 ≤ lineSize := by
  have hmem : whole l ∈ calls src world (0 + (expected src.file).length) s fresh := by
    rw [h.calls_all, expected]
    exact List.mem_append_left _ (List.mem_map_of_mem hl)
  have hlen := length_read hmem
  have hsize : lineSize = 1024 := rfl
  rw [List.length_append, List.length_singleton] at hlen
  omega

/-- All that was read are the lines, each with a newline. -/
theorem Exact.ends (h : Exact src world s) (hnul : (0 : UInt8) ∉ src.file) :
    (∀ b ∈ src.file.getLast?, b = 10) ∧ ∀ n, Smooth src world n s fresh := by
  have hin : ∀ n, .error .assertion ∈
      calls src world (n + (expected src.file).length) s fresh := by
    intro n
    rw [h.calls_all, expected]
    exact List.mem_append_right _ List.mem_cons_self
  have hend := fun n => taken_of_end hnul (feeds_fresh src) (hin n)
  simp only [h.calls_all, List.nil_append, taken_expected] at hend
  have hlast : ∀ b ∈ src.file.getLast?, b = 10 := by
    intro b hb
    rw [← (hend 0).1] at hb
    exact getLast_lines _ b hb
  refine ⟨hlast, fun n => ?_⟩
  rcases (hend n).2.2 (straight_fresh src) with ⟨hsmooth, -⟩ | hlong
  · exact hsmooth.mono (Nat.le_add_right _ _)
  · rw [flatMap_lines hlast] at hlong
    exact absurd hlong (Nat.lt_irrefl _)

/-- A file on a disk. -/
def regular (file : Bytes) : Source UInt8 := ⟨file, true, fun _ => 4096, fun _ => by decide⟩

end Shell
