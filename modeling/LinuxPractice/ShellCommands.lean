import LinuxPractice.ShellInput
import LinuxPractice.ShellRedir

/-!
# What a command line does

A line is interpreted by its words and its redirection alone, and the shell,
which works in the buffer, does what the line means.
-/
namespace Shell

open CppString CBuffer Words

variable {line rest : Bytes} {ws args : List Bytes} {cmd : Bytes} {s : State}

/-- `argv` has room for the words, "--color" and the null pointer. -/
def Fits (ws : List Bytes) : Prop :=
  ws.length < argcSize ∧ (ws.head? = some ls → ws.length + 1 < argcSize)

instance (ws : List Bytes) : Decidable (Fits ws) := inferInstanceAs (Decidable (_ ∧ _))

/-- What a program is called with. -/
def programArgs (ws : List Bytes) : List Bytes := if ws.head? = some ls then ws ++ [color] else ws

/-- What the words of a line mean. -/
def interpret (w : World) (code : Int) (r : Rdir × Option Bytes) (ws : List Bytes) :
    Except Fault (Int × List Effect) :=
  if Fits ws then
    match ws with
    | [] => .error .nullPointer
    | [cmd, text] =>
      if cmd = cd then
        if w.getenv pwd = none then .error .nullPointer
        else if !w.fits w.cwd then .error .pwdBounds
        else .ok (code, [.chdir text, .setPwd])
      else if cmd = export' then .ok (code, [.putenv text])
      else if cmd = echo then .ok (runEcho w code text)
      else .ok (child w code (programArgs [cmd, text]) r.1 r.2)
    | ws => .ok (child w code (programArgs ws) r.1 r.2)
  else .error .argvBounds

theorem Argv.arg_zero (h : Argv s (cmd :: args)) : s.arg 0 = some cmd := h 0 (Nat.zero_le _)

theorem Argv.argv_zero (h : Argv s (cmd :: args)) : s.argv 0 ≠ .null := by
  intro hnull
  have hcmd := h.arg_zero
  rw [State.arg, hnull] at hcmd
  cases hcmd

theorem Argv.strcmpEq (h : Argv s (cmd :: args)) (name : Bytes) :
    strcmpEq s name = .ok (cmd == name) := by
  rw [Shell.strcmpEq, h.arg_zero]

theorem Argv.isBuiltin (h : Argv s (cmd :: args)) (argc : Nat) (name : Bytes) :
    isBuiltin s argc name = .ok (decide (argc = 2) && cmd == name) := by
  rw [Shell.isBuiltin, h.strcmpEq]
  by_cases hargc : argc = 2 <;> simp [hargc]

theorem Argv.arguments (h : Argv s ws) (hroom : ws.length < argcSize) : arguments s = ws := by
  obtain ⟨m, hm⟩ : ∃ m, argcSize = ws.length + (m + 1) := ⟨argcSize - ws.length - 1, by omega⟩
  have hwords : (List.range ws.length).map s.arg = ws.map some := by
    apply List.ext_getElem?
    intro k
    by_cases hk : k < ws.length
    · simp [hk, h k hk.le]
    · simp [hk]
  have hend : s.arg ws.length = none := by
    rw [h ws.length le_rfl, List.getElem?_eq_none le_rfl]
  rw [Shell.arguments, hm, List.range_add, List.map_append, hwords, List.range_succ_eq_map]
  simp only [List.map_cons, Nat.add_zero, hend]
  rw [takeWhile_stop (by simp) rfl]
  simp

theorem buildcommand_cd (w : World) {dir : Bytes} (h : Argv s [cd, dir]) : buildcommand w s 2 =
    if w.getenv pwd = none then .error .nullPointer
    else if !w.fits w.cwd then .error .pwdBounds
    else .ok (true, s, [.chdir dir, .setPwd]) := by
  have harg : s.arg 1 = some dir := h 1 (by simp)
  simp [buildcommand, h.isBuiltin, harg, bind, Except.bind, pure, Except.pure]

theorem buildcommand_export (w : World) {text : Bytes} (h : Argv s [export', text]) :
    buildcommand w s 2 = .ok (true, s, [.putenv text]) := by
  have harg : s.arg 1 = some text := h 1 (by simp)
  have hcd : (export' == cd) = false := by decide
  simp [buildcommand, h.isBuiltin, harg, hcd, bind, Except.bind, pure, Except.pure]

theorem buildcommand_echo (w : World) {text : Bytes} (h : Argv s [echo, text]) :
    buildcommand w s 2 = .ok (true, { s with lastcode := (runEcho w s.lastcode text).1 },
      (runEcho w s.lastcode text).2) := by
  have harg : s.arg 1 = some text := h 1 (by simp)
  have hcd : (echo == cd) = false := by decide
  have hexport : (echo == export') = false := by decide
  simp [buildcommand, h.isBuiltin, harg, hcd, hexport, bind, Except.bind, pure, Except.pure]

/-- `argv` with one more argument. -/
def withColor (s : State) (argc : Nat) : State :=
  { s with argv := Function.update (Function.update s.argv argc .color) (argc + 1) .null }

/-- The other commands are left to a program, and `ls` gets one more argument. -/
theorem buildcommand_program (w : World) (h : Argv s (cmd :: args))
    (hother : args.length = 1 → cmd ≠ cd ∧ cmd ≠ export' ∧ cmd ≠ echo) :
    buildcommand w s (args.length + 1) =
      if cmd = ls then
        if args.length + 2 < argcSize then .ok (false, withColor s (args.length + 1), [])
        else .error .argvBounds
      else .ok (false, s, []) := by
  have hbuiltin : ∀ name, name ∈ [cd, export', echo] →
      isBuiltin s (args.length + 1) name = .ok false := by
    intro name hname
    rw [h.isBuiltin]
    by_cases hlen : args.length = 1
    · obtain ⟨hcd, hexport, hecho⟩ := hother hlen
      simp at hname
      rcases hname with rfl | rfl | rfl <;> simp [*]
    · simp [hlen]
  have hcd := hbuiltin cd (by simp)
  have hexport := hbuiltin export' (by simp)
  have hecho := hbuiltin echo (by simp)
  simp only [buildcommand, hcd, hexport, hecho, h.strcmpEq, bind, Except.bind, pure, Except.pure]
  by_cases hls : cmd = ls
  · by_cases hroom : args.length + 2 < argcSize
    · have hfirst : args.length + 1 < argcSize := by omega
      simp [hls, writeArg, hroom, hfirst, withColor]
    · by_cases hfirst : args.length + 1 < argcSize
      · simp [hls, writeArg, hroom, hfirst]
      · simp [hls, writeArg, hroom, hfirst]
  · simp [hls]

theorem Argv.withColor (h : Argv s ws) : Argv (withColor s ws.length) (ws ++ [color]) := by
  intro k hk
  rw [List.length_append, List.length_singleton] at hk
  rcases Nat.lt_trichotomy k ws.length with hlt | rfl | hgt
  · have hne : k ≠ ws.length + 1 := by omega
    rw [List.getElem?_append_left hlt, ← h k hlt.le]
    simp [State.arg, Shell.withColor, hlt.ne, hne]
  · simp [State.arg, Shell.withColor]
  · obtain rfl : k = ws.length + 1 := by omega
    simp [State.arg, Shell.withColor]

/-- Only the end of `argv` changes before a program is run. -/
theorem buildcommand_forked {w : World} {s' : State} {effects : List Effect}
    (h : Argv s (cmd :: args))
    (hbuild : buildcommand w s (args.length + 1) = .ok (false, s', effects)) :
    s'.argv 0 = s.argv 0 := by
  by_cases hother : args.length = 1 → cmd ≠ cd ∧ cmd ≠ export' ∧ cmd ≠ echo
  · rw [buildcommand_program w h hother] at hbuild
    split_ifs at hbuild
    · cases hbuild
      simp [withColor]
    · cases hbuild
      rfl
  · rw [Classical.not_imp] at hother
    obtain ⟨hlen, hcmd⟩ := hother
    obtain ⟨text, rfl⟩ := List.length_eq_one_iff.mp hlen
    rcases (by tauto : cmd = cd ∨ cmd = export' ∨ cmd = echo) with rfl | rfl | rfl
    · rw [List.length_singleton, buildcommand_cd w h] at hbuild
      split_ifs at hbuild
      cases hbuild
    · rw [List.length_singleton, buildcommand_export w h] at hbuild
      cases hbuild
    · rw [List.length_singleton, buildcommand_echo w h] at hbuild
      cases hbuild

theorem interpret_program (w : World) (code : Int) (r : Rdir × Option Bytes)
    (hother : args.length = 1 → cmd ≠ cd ∧ cmd ≠ export' ∧ cmd ≠ echo) :
    interpret w code r (cmd :: args) =
      if Fits (cmd :: args) then .ok (child w code (programArgs (cmd :: args)) r.1 r.2)
      else .error .argvBounds := by
  rcases args with _ | ⟨text, _ | ⟨text', args⟩⟩
  · rfl
  · obtain ⟨hcd, hexport, hecho⟩ := hother rfl
    simp only [interpret, hcd, hexport, hecho, if_false]
  · rfl

theorem interpret_error (w : World) (code : Int) (r : Rdir × Option Bytes) (h : ¬ Fits ws) :
    interpret w code r ws = .error .argvBounds := by
  unfold interpret
  rw [if_neg h]

/-- `echo` prints, and does nothing else. -/
theorem mem_runEcho {w : World} {code : Int} {text : Bytes} {e : Effect}
    (h : e ∈ (runEcho w code text).2) : ∃ out, e = .print .shell out := by
  rw [runEcho] at h
  split_ifs at h
  · exact ⟨_, List.mem_singleton.mp h⟩
  · cases hget : w.getenv text.tail with
    | none => simp [hget] at h
    | some val =>
      simp only [hget] at h
      exact ⟨_, List.mem_singleton.mp h⟩
  · exact ⟨_, List.mem_singleton.mp h⟩

/-- A child prints, or gives the shell's input back. -/
theorem mem_child {w : World} {code : Int} {r : Rdir} {name : Option Bytes} {e : Effect}
    (h : e ∈ (child w code args r name).2) : (∃ sink out, e = .print sink out) ∨ e = .syncStdin := by
  rw [child] at h
  split_ifs at h
  · cases hexec : w.execvp args (childInput w r name) with
    | none =>
      simp only [hexec, exitChild, List.mem_cons] at h
      rcases h with rfl | h
      · exact .inl ⟨_, _, rfl⟩
      · split_ifs at h
        · cases h
        · exact .inr (List.mem_singleton.mp h)
    | some p =>
      simp only [hexec] at h
      exact .inl ⟨_, _, List.mem_singleton.mp h⟩
  · cases h

/-- The commands that the shell runs itself, and the others. -/
theorem interpret_cases {w : World} {code code' : Int} {r : Rdir × Option Bytes}
    {effects : List Effect} (h : interpret w code r ws = .ok (code', effects)) :
    (∃ dir, ws = [cd, dir] ∧ w.fits w.cwd ∧ effects = [.chdir dir, .setPwd]) ∨
      (∃ text, ws = [export', text] ∧ effects = [.putenv text]) ∨
      (∃ text, ws = [echo, text] ∧ effects = (runEcho w code text).2) ∨
      effects = (child w code (programArgs ws) r.1 r.2).2 := by
  have hsnd : ∀ {p : Int × List Effect}, (.ok p : Except Fault _) = .ok (code', effects) →
      effects = p.2 := by
    rintro p ⟨⟩
    rfl
  unfold interpret at h
  split at h
  · split at h
    · cases h
    · rename_i text _
      split_ifs at h with hcd hpwd hfits hexport hecho
      · exact .inl ⟨text, by rw [hcd], by simpa using hfits, hsnd h⟩
      · exact .inr (.inl ⟨text, by rw [hexport], hsnd h⟩)
      · exact .inr (.inr (.inl ⟨text, by rw [hecho], hsnd h⟩))
      · exact .inr (.inr (.inr (hsnd h)))
    · exact .inr (.inr (.inr (hsnd h)))
  · cases h

theorem execute_builtin {w : World} {s s' s'' : State} {argc : Nat} {effects : List Effect}
    (hsplit : splitstring s = .ok (argc, s')) (hargc : argc ≠ 0)
    (hbuild : buildcommand w s' argc = .ok (true, s'', effects)) :
    execute w s = .ok (s'', effects) := by
  simp [execute, hsplit, hargc, hbuild, bind, Except.bind, pure, Except.pure]

theorem execute_program {w : World} {s s' s'' : State} {argc : Nat}
    (hsplit : splitstring s = .ok (argc, s')) (hargc : argc ≠ 0)
    (hbuild : buildcommand w s' argc = .ok (false, s'', [])) :
    execute w s = .ok (normalexcute w s'') := by
  simp [execute, hsplit, hargc, hbuild, bind, Except.bind, pure, Except.pure]

theorem execute_error {w : World} {s s' : State} {argc : Nat} {e : Fault}
    (hsplit : splitstring s = .ok (argc, s')) (hargc : argc ≠ 0)
    (hbuild : buildcommand w s' argc = .error e) : execute w s = .error e := by
  simp [execute, hsplit, hargc, hbuild, bind, Except.bind]

/-- Behind `splitstring` the rest of a turn is what the words mean. -/
theorem execute_words {w : World} {s s' : State} (hsplit : splitstring s = .ok (ws.length, s'))
    (h : Argv s' ws) (hne : ws ≠ []) (hroom : ws.length < argcSize) :
    (execute w s).map (fun (s, effects) => (s.lastcode, effects)) =
      interpret w s'.lastcode (s'.rdir, s'.name) ws := by
  obtain ⟨cmd, args, rfl⟩ := List.exists_cons_of_ne_nil hne
  by_cases hother : args.length = 1 → cmd ≠ cd ∧ cmd ≠ export' ∧ cmd ≠ echo
  · rw [interpret_program w _ _ hother]
    have hbuild := buildcommand_program w h hother
    rw [List.length_cons] at hsplit hroom
    by_cases hls : cmd = ls
    · by_cases hlast : args.length + 2 < argcSize
      · have hargv : Argv (withColor s' (args.length + 1)) (cmd :: args ++ [color]) := h.withColor
        have hargs := hargv.arguments (by simpa using hlast)
        rw [if_pos hls, if_pos hlast] at hbuild
        rw [execute_program hsplit (Nat.succ_ne_zero _) hbuild, if_pos ⟨hroom, fun _ => hlast⟩,
          programArgs, if_pos (by rw [hls]; rfl), ← hargs]
        rfl
      · rw [if_pos hls, if_neg hlast] at hbuild
        rw [execute_error hsplit (Nat.succ_ne_zero _) hbuild, if_neg]
        · rfl
        · exact fun hfits => hlast (hfits.2 (by rw [hls]; rfl))
    · have hhead : ¬ (cmd :: args).head? = some ls := by simpa using hls
      rw [if_neg hls] at hbuild
      rw [execute_program hsplit (Nat.succ_ne_zero _) hbuild,
        if_pos ⟨hroom, fun he => absurd he hhead⟩, programArgs, if_neg hhead, ← h.arguments hroom]
      rfl
  · rw [Classical.not_imp] at hother
    obtain ⟨hlen, hcmd⟩ := hother
    obtain ⟨text, rfl⟩ := List.length_eq_one_iff.mp hlen
    have hfits : Fits [cmd, text] := ⟨hroom, fun _ => (by decide : 2 + 1 < argcSize)⟩
    rw [interpret, if_pos hfits]
    by_cases hcd : cmd = cd
    · subst hcd
      have hbuild := buildcommand_cd w h
      rw [if_pos rfl]
      by_cases hpwd : w.getenv pwd = none
      · rw [if_pos hpwd] at hbuild
        rw [execute_error hsplit (Nat.succ_ne_zero _) hbuild, if_pos hpwd]
        rfl
      · rw [if_neg hpwd] at hbuild ⊢
        by_cases hfits : !w.fits w.cwd
        · rw [if_pos hfits] at hbuild ⊢
          rw [execute_error hsplit (Nat.succ_ne_zero _) hbuild]
          rfl
        · rw [if_neg hfits] at hbuild ⊢
          rw [execute_builtin hsplit (Nat.succ_ne_zero _) hbuild]
          rfl
    · by_cases hexport : cmd = export'
      · subst hexport
        rw [execute_builtin hsplit (Nat.succ_ne_zero _) (buildcommand_export w h), if_neg hcd,
          if_pos rfl]
        rfl
      · obtain rfl : cmd = echo := by tauto
        rw [execute_builtin hsplit (Nat.succ_ne_zero _) (buildcommand_echo w h), if_neg hcd,
          if_neg hexport, if_pos rfl]
        rfl

/-- The first word of a blank line is read through a null pointer. -/
theorem buildcommand_blank (w : World) (h : s.argv 0 = .null) :
    buildcommand w s 1 = .error .nullPointer := by
  have harg : s.arg 0 = none := by rw [State.arg, h, text_null]
  simp [buildcommand, isBuiltin, strcmpEq, harg, bind, Except.bind]

/-- The shell does what the line means. -/
theorem execute_line (w : World) (s : State) (hline : (0 : UInt8) ∉ line) (rest : Bytes) :
    (execute w (checkRedir (s.typed line rest))).map (fun (s, effects) => (s.lastcode, effects)) =
      interpret w s.lastcode (redirection line) (words delim (command line)) := by
  by_cases hroom : (words delim (command line)).length < argcSize
  · by_cases hne : words delim (command line) = []
    · obtain ⟨s', hsplit, hnull⟩ := splitstring_line_blank s hline rest hne
      rw [execute_error hsplit one_ne_zero (buildcommand_blank w hnull), hne]
      rfl
    · obtain ⟨s', hsplit, hparsed⟩ := splitstring_line s hline rest hne hroom
      rw [execute_words hsplit hparsed.words hne hroom, hparsed.lastcode, hparsed.rdir, hparsed.name]
  · rw [execute, splitstring_line_error s hline rest (Nat.le_of_not_lt hroom),
      interpret_error w _ _ fun hfits => hroom hfits.1]
    rfl

/-- A turn is `execute` behind `check_redir`, for the line that was read. -/
theorem turn_line (w : World) {input more : Bytes}
    (hread : readLine { s with rdirfilename := none, rdir := .none } input =
      .ok (s.typed line more, rest)) :
    turn w s input =
      (execute w (checkRedir (s.typed line more))).map fun p => (p.1, p.2, rest) := by
  simp only [turn, interact, hread, bind, Except.bind, pure, Except.pure]
  cases execute w (checkRedir (s.typed line more)) <;> rfl

theorem map_eq_error_iff {ε α β : Type} {f : α → β} {x : Except ε α} {e : ε} :
    x.map f = .error e ↔ x = .error e := by
  cases x <;> simp [Except.map]

theorem interpret_eq_argvBounds_iff (w : World) (code : Int) (r : Rdir × Option Bytes)
    (ws : List Bytes) :
    interpret w code r ws = .error .argvBounds ↔ ¬ Fits ws := by
  refine ⟨fun he hfits => ?_, interpret_error w code r⟩
  unfold interpret at he
  rw [if_pos hfits] at he
  split at he
  · cases he
  · split_ifs at he <;> cases he
  · cases he

/-- A turn writes behind `argv` if the words of its line do not fit. -/
theorem turn_eq_argvBounds_iff (w : World) (s : State) {input : Bytes}
    (hdel : delivered input = some line) :
    turn w s input = .error .argvBounds ↔ ¬ Fits (words delim (command line)) := by
  obtain ⟨more, rest, hline, hread⟩ :=
    readLine_some { s with rdirfilename := none, rdir := .none } hdel
  rw [turn_line w hread, map_eq_error_iff,
    ← interpret_eq_argvBounds_iff w s.lastcode (redirection line), ← execute_line w s hline more,
    map_eq_error_iff]

/-- All that is printed goes to the file of the redirection `r`. -/
def ToFile (r : Rdir × Option Bytes) (effects : List Effect) : Prop :=
  ∀ sink text, Effect.print sink text ∈ effects → text ≠ [] →
    ∃ name, r.2 = some name ∧ sink = .file name (r.1 == .appendRdir)

/-- What a child prints: the program's output, or the shell's if no program is found. -/
def childText (w : World) (args : List Bytes) : Bytes :=
  ((w.execvp args none).map Prod.fst).getD w.pending

/-- If a child prints something, its file can be opened. -/
def Opens (w : World) (r : Rdir × Option Bytes) (ws : List Bytes) : Prop :=
  w.fork → childText w (programArgs ws) ≠ [] → ∃ name, r.2 = some name ∧ w.opens r.1 name

/-- `echo` of a variable that is not set. -/
def Silent (w : World) (text : Bytes) : Prop :=
  text ≠ status ∧ text.head? = some 36 ∧ w.getenv text.tail = none

/-- The commands that run and print nothing past their redirection. -/
def Obeys (w : World) (r : Rdir × Option Bytes) (ws : List Bytes) : Prop :=
  Fits ws ∧
    match ws with
    | [] => False
    | [cmd, text] =>
      if cmd = cd then w.getenv pwd ≠ none ∧ w.fits w.cwd
      else if cmd = export' then True
      else if cmd = echo then Silent w text
      else Opens w r [cmd, text]
    | ws => Opens w r ws

theorem toFile_print_iff (r : Rdir × Option Bytes) (sink : Sink) (text : Bytes) :
    ToFile r [.print sink text] ↔
      (text ≠ [] → ∃ name, r.2 = some name ∧ sink = .file name (r.1 == .appendRdir)) := by
  simp [ToFile]

/-- The offset of the input is no output. -/
theorem toFile_exitChild_iff (w : World) (r : Rdir × Option Bytes) :
    ToFile r (exitChild w r.1 r.2) ↔ ToFile r [.print (childOutput w r.1 r.2) w.pending] := by
  rw [exitChild]
  split
  · rfl
  · simp [ToFile]

theorem not_toFile_shell {r : Rdir × Option Bytes} {text : Bytes} (hne : text ≠ []) :
    ¬ ToFile r [.print .shell text] := by
  intro h
  obtain ⟨name, -, he⟩ := h .shell text List.mem_cons_self hne
  cases he

theorem toFile_runEcho_iff (w : World) (code : Int) (r : Rdir × Option Bytes) (text : Bytes) :
    ToFile r (runEcho w code text).2 ↔ Silent w text := by
  rw [runEcho, Silent]
  by_cases hstatus : text = status
  · simp [hstatus, not_toFile_shell]
  · by_cases hhead : text.head? = some 36
    · cases hget : w.getenv text.tail with
      | none => simp [hstatus, hhead, ToFile]
      | some val => simp [hstatus, hhead, not_toFile_shell]
    · simp [hstatus, hhead, not_toFile_shell]

theorem childOutput_eq_file_iff (w : World) {r : Rdir × Option Bytes}
    (hr : r.1 = .outRdir ∨ r.1 = .appendRdir) (name : Bytes) :
    childOutput w r.1 r.2 = .file name (r.1 == .appendRdir) ↔
      r.2 = some name ∧ w.opens r.1 name := by
  obtain ⟨rdir, file⟩ := r
  have hfile : openedFile w rdir file = some name ↔ file = some name ∧ w.opens rdir name :=
    Option.filter_eq_some_iff
  have hsink : childOutput w rdir file =
      (openedFile w rdir file).elim .shell fun name => .file name (rdir == .appendRdir) := by
    rcases hr with hr | hr <;> cases hr <;> rfl
  rw [hsink, ← hfile]
  cases openedFile w rdir file <;> simp

theorem toFile_child_iff (w : World) (code : Int) {r : Rdir × Option Bytes}
    (hr : r.1 = .outRdir ∨ r.1 = .appendRdir) (ws : List Bytes) :
    ToFile r (child w code (programArgs ws) r.1 r.2).2 ↔ Opens w r ws := by
  have hinput : childInput w r.1 r.2 = none := by
    rcases hr with hr | hr <;> rw [hr] <;> rfl
  rw [child, hinput, Opens, childText]
  by_cases hfork : w.fork
  · cases hexec : w.execvp (programArgs ws) none with
    | none =>
      simp [hfork, toFile_exitChild_iff, toFile_print_iff, childOutput_eq_file_iff w hr]
    | some p => simp [hfork, toFile_print_iff, childOutput_eq_file_iff w hr]
  · simp [hfork, ToFile]

/-- By its words, a redirected command runs and prints into its file, or does not. -/
theorem interpret_toFile_iff (w : World) (code : Int) {r : Rdir × Option Bytes}
    (hr : r.1 = .outRdir ∨ r.1 = .appendRdir) (ws : List Bytes) :
    (∃ code' effects, interpret w code r ws = .ok (code', effects) ∧ ToFile r effects) ↔
      Obeys w r ws := by
  have hprogram : ∀ ws, (∃ code' effects, Except.ok (child w code (programArgs ws) r.1 r.2) =
      (Except.ok (code', effects) : Except Fault _) ∧ ToFile r effects) ↔ Opens w r ws := by
    intro ws
    rw [← toFile_child_iff w code hr]
    simp [Prod.ext_iff]
  by_cases hfits : Fits ws
  · unfold interpret Obeys
    rw [if_pos hfits, and_iff_right hfits]
    rcases ws with _ | ⟨cmd, _ | ⟨text, _ | ⟨text', ws⟩⟩⟩
    · simp
    · exact hprogram [cmd]
    · dsimp only
      split_ifs with hcd hpwd hfits hexport hecho
      · simp [hpwd]
      · simpa using fun _ => hfits
      · simpa [hpwd, ToFile] using hfits
      · simp [ToFile]
      · rw [← toFile_runEcho_iff w code r]
        simp [Prod.ext_iff]
      · exact hprogram [cmd, text]
    · exact hprogram (cmd :: text :: text' :: ws)
  · unfold Obeys
    simp [interpret_error w code r hfits, hfits]

/-- A system where every program prints its name. -/
def system : World where
  getenv _ := none
  cwd := []
  fits _ := true
  pending := []
  fork := true
  opens _ _ := true
  execvp args _ := some (args.headD [], 0)

/-- What `splitstring` and `main` promise about a line with the words `ws`. -/
structure Splits (w : World) (s : State) (ws : List Bytes) : Prop where
  words : ∃ s', splitstring s = .ok (ws.length, s') ∧ Argv s' ws
  skipped : ws = [] → ∃ s', execute w s = .ok (s', [])
  command : ∀ argc s', splitstring s = .ok (argc, s') → argc ≠ 0 → s'.argv 0 ≠ .null
  forked : ∀ argc s' s'' effects, splitstring s = .ok (argc, s') → argc ≠ 0 →
    buildcommand w s' argc = .ok (false, s'', effects) → s''.argv 0 ≠ .null

/-- A line is split as promised if it has something else than blanks. -/
theorem splits_iff (w : World) (s : State) (hline : (0 : UInt8) ∉ line)
    (hroom : (words delim line).length ≤ 29) (rest : Bytes) :
    Splits w { s with commandline := line ++ 0 :: rest } (words delim line) ↔
      ∃ b ∈ line, b ≠ 32 := by
  have hblank : (∃ b ∈ line, b ≠ 32) ↔ words delim line ≠ [] := by
    rw [Ne, words_eq_nil_iff]
    simp [delim]
  rw [hblank]
  constructor
  · rintro h hnil
    obtain ⟨s', hsplit, hnull⟩ := splitstring_blank
      { s with commandline := line ++ 0 :: rest } rfl hnil
    exact h.command 1 _ hsplit one_ne_zero hnull
  · intro hne
    obtain ⟨line', argv', hsplit, -, hargv⟩ := splitstring_ok
      { s with commandline := line ++ 0 :: rest } rfl hline hne (Nat.lt_succ_of_le hroom)
    obtain ⟨cmd, args, hws⟩ := List.exists_cons_of_ne_nil hne
    rw [hws] at hsplit hargv ⊢
    refine ⟨⟨_, hsplit, hargv⟩, (by rintro ⟨⟩), ?_, ?_⟩
    · intro argc s' hs' hargc
      rw [hsplit] at hs'
      cases hs'
      exact hargv.argv_zero
    · intro argc s' s'' effects hs' hargc hbuild
      rw [hsplit] at hs'
      cases hs'
      rw [buildcommand_forked hargv hbuild]
      exact hargv.argv_zero

theorem splits_ls :
    Splits system { start with commandline := ls ++ 0 :: [] } (words delim ls) :=
  (splits_iff system start (by decide) (by decide) []).mpr ⟨108, by decide, by decide⟩

/-- A single blank is taken for a word, and its `argv[0]` is compared with "ls". -/
theorem blank_line_faults :
    ¬ Splits system { start with commandline := [32] ++ 0 :: [] } (words delim [32]) ∧
      execute system { start with commandline := [32] ++ 0 :: [] } = .error .nullPointer := by
  obtain ⟨s', hsplit, hnull⟩ := splitstring_blank
    { start with commandline := [32] ++ 0 :: [] } rfl (by decide)
  constructor
  · intro h
    exact h.command 1 _ hsplit one_ne_zero hnull
  · exact execute_error hsplit one_ne_zero (buildcommand_blank system hnull)

/-- Every write into `argv` is in bounds exactly for the lines whose words fit. -/
theorem argv_in_bounds_iff (w : World) (s : State) (input : Bytes) :
    turn w s input ≠ .error .argvBounds ↔
      ∀ line ∈ delivered input, Fits (words delim (command line)) := by
  cases hdel : delivered input with
  | none =>
    obtain ⟨e, he, hread⟩ := readLine_none { s with rdirfilename := none, rdir := .none } hdel
    simp only [turn, interact, hread, bind, Except.bind]
    simpa using he
  | some line =>
    rw [Ne, turn_eq_argvBounds_iff w s hdel, not_not]
    simp

/-- Thirty words leave no room for the null pointer. -/
theorem thirty_words_overflow :
    turn system start ((List.replicate 30 [97, 32]).flatten ++ [10]) = .error .argvBounds :=
  (turn_eq_argvBounds_iff system start
    (rfl : delivered _ = some ((List.replicate 29 [97, 32]).flatten ++ [97, 32]))).mpr (by decide)

/-- The line runs, and all that it prints goes to the file that it names. -/
def Honoured (w : World) (s : State) (line rest : Bytes) : Prop :=
  ∃ s' effects, execute w (checkRedir (s.typed line rest)) = .ok (s', effects) ∧
    ToFile (redirection line) effects

/-- Which redirections of the standard output are honoured. -/
theorem honoured_iff (w : World) (s : State) (hline : (0 : UInt8) ∉ line) (rest : Bytes)
    (hr : (redirection line).1 = .outRdir ∨ (redirection line).1 = .appendRdir) :
    Honoured w s line rest ↔ Obeys w (redirection line) (words delim (command line)) := by
  rw [← interpret_toFile_iff w s.lastcode hr, ← execute_line w s hline rest, Honoured]
  cases execute w (checkRedir (s.typed line rest)) with
  | error e => simp [Except.map]
  | ok p => simp [Except.map, Prod.ext_iff]

/-- "ls > f". -/
theorem honoured_ls : Honoured system start (ls ++ [32, 62, 32, 102]) [] := by
  refine (honoured_iff system start (by decide) [] (.inl rfl)).mpr ⟨by decide, ?_⟩
  intro _ _
  exact ⟨[102], rfl, rfl⟩

/-- "echo x > f" prints on the shell's own standard output. -/
theorem echo_not_redirected :
    ¬ Honoured system start (echo ++ [32, 120, 32, 62, 32, 102]) [] ∧
      ∃ s', execute system (checkRedir (start.typed (echo ++ [32, 120, 32, 62, 32, 102]) [])) =
        .ok (s', [.print .shell [120, 10]]) := by
  have hmeans := execute_line system start
    (by decide : (0 : UInt8) ∉ echo ++ [32, 120, 32, 62, 32, 102]) []
  have hwords : words delim (command (echo ++ [32, 120, 32, 62, 32, 102])) = [echo, [120]] := by
    decide
  have hfits : Fits [echo, [120]] := by decide
  rw [hwords, interpret, if_pos hfits, if_neg (by decide), if_neg (by decide), if_pos rfl] at hmeans
  rw [Honoured]
  cases hrun : execute system (checkRedir (start.typed (echo ++ [32, 120, 32, 62, 32, 102]) [])) with
  | error e =>
    rw [hrun] at hmeans
    cases hmeans
  | ok p =>
    obtain ⟨s', effects⟩ := p
    rw [hrun] at hmeans
    obtain rfl : effects = [.print .shell [120, 10]] := (Prod.mk.inj (Except.ok.inj hmeans)).2
    refine ⟨?_, s', rfl⟩
    rintro ⟨_, _, ⟨⟩, hto⟩
    exact not_toFile_shell (List.cons_ne_nil _ _) hto

end Shell
