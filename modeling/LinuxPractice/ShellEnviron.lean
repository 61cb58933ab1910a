import LinuxPractice.Environ
import LinuxPractice.ShellCommands
import LinuxPractice.Transition

/-!
# myshell and its environment

The loop of `main` together with the environment that `export` and `cd` change.
All that is exported goes through the one buffer `myenv`, whose pointer stays in
the environment, so the shell has one variable of its own at a time.
-/
namespace ShellEnviron

open CppString Environ Transition
open Shell (Effect Rdir World interpret redirection command delim lineSize withoutLast)

/-- "=" -/
def equals : UInt8 := 61

/-- What the system answers in one turn; `cwd` is what `getpwd` finds after a `chdir`, and `reread`
what is unread behind a child that has set the offset of the input back. -/
structure Answer where
  fork : Bool
  opens : Rdir → Bytes → Bool
  execvp : List Bytes → Option Bytes → Option (Bytes × Int)
  pending : Bytes
  cwd : Bytes
  reread : Bytes

def Answer.world (a : Answer) (environ : Env UInt8) : World where
  getenv := environ.getenv equals
  cwd := a.cwd
  fits dir := (environ.act equals (.set Shell.pwd dir)).isSome
  pending := a.pending
  fork := a.fork
  opens := a.opens
  execvp := a.execvp

structure State where
  shell : Shell.State
  environ : Env UInt8
  input : Bytes

/-- The effects of a turn, and the directory that it ends in. -/
abbrev Event := List Effect × Bytes

/-- The environment that `main` is started with. `myenv` is empty, and keeps room for a zero. -/
def environOf (strings : List Bytes) : Env UInt8 where
  slots := strings.map fun text => .own text text.length
  buffer := []
  room := lineSize - 1

def init (strings : List Bytes) (input : Bytes) : State := ⟨Shell.start, environOf strings, input⟩

def change (cwd : Bytes) : Effect → Option (Change UInt8)
  | .putenv text => some (.put text)
  | .setPwd => some (.set Shell.pwd cwd)
  | .print _ _ => none
  | .chdir _ => none
  | .syncStdin => none

/-- What is unread behind a turn. -/
def Answer.unread (a : Answer) (effects : List Effect) (input : Bytes) : Bytes :=
  if .syncStdin ∈ effects then a.reread else input

/-- One turn of `main`, with what `putenv` and `sprintf` do to the environment. -/
def act (s : State) (a : Answer) : Option (State × Event) :=
  match Shell.turn (a.world s.environ) s.shell s.input with
  | .error _ => none
  | .ok (shell, effects, input) =>
    (s.environ.acts equals (effects.filterMap (change a.cwd))).map fun environ =>
      (⟨shell, environ, a.unread effects input⟩, (effects, a.cwd))

def step (s : State) (a : Answer) : Option State := (act s a).map Prod.fst

def event (s : State) (a : Answer) : Option Event := (act s a).map Prod.snd

def system (strings : List Bytes) (input : Bytes) : System State Answer where
  init := init strings input
  step := step

/-- What the turns of a run have done to the environment. -/
def changes (log : List Event) : List (Change UInt8) :=
  log.flatMap fun e => e.1.filterMap (change e.2)

/-- The settings that the shell was started with. -/
def inherited (strings : List Bytes) : List (Setting UInt8) := strings.filterMap (parse equals)

/-- The last `export` of a run, with the value that a later `cd` has given it. -/
def exported (log : List Event) : Option (Setting UInt8) := exportedBy equals none (changes log)

variable {strings : List Bytes} {input : Bytes} {s t : State} {log : List Event} {name : Bytes}

theorem view_environOf (strings : List Bytes) :
    (environOf strings).view equals = ⟨inherited strings, none, []⟩ := by
  rw [Env.view, environOf]
  induction strings with
  | nil => rfl
  | cons text strings ih =>
    have hparse : inherited (text :: strings) =
        (parse equals text).toList ++ inherited strings := by
      rw [inherited, List.filterMap_cons]
      cases parse equals text <;> rfl
    dsimp only at ih
    rw [List.map_cons, viewOf, ih, hparse]

theorem change_proper {cwd : Bytes} {e : Effect} {c : Change UInt8} (h : change cwd e = some c) :
    c.Proper equals ∧ ∀ n value, c = .set n value → n = Shell.pwd := by
  cases e <;> cases h
  · refine ⟨(by decide : equals ∉ Shell.pwd), ?_⟩
    rintro n value ⟨⟩
    rfl
  · exact ⟨trivial, by rintro n value ⟨⟩⟩

theorem act_cases {a : Answer} {ev : Event} (h : act s a = some (t, ev)) :
    (∃ rest, Shell.turn (a.world s.environ) s.shell s.input = .ok (t.shell, ev.1, rest) ∧
        t.input = a.unread ev.1 rest) ∧
      s.environ.acts equals (ev.1.filterMap (change ev.2)) = some t.environ := by
  rw [act] at h
  split at h
  · cases h
  · rename_i hturn
    obtain ⟨environ, hacts, he⟩ := Option.map_eq_some_iff.mp h
    cases he
    exact ⟨⟨_, hturn, rfl⟩, hacts⟩

/-- A turn does what its line means. -/
theorem act_line {a : Answer} {chunk rest : Bytes} {code : Int} {effects : List Effect}
    {environ : Env UInt8} (hread : Shell.fgets lineSize s.input = some (chunk, rest))
    (hne : chunk.takeWhile (· != 0) ≠ [])
    (hline : interpret (a.world s.environ) s.shell.lastcode (redirection (withoutLast chunk))
      (Words.words delim (command (withoutLast chunk))) = .ok (code, effects))
    (hacts : s.environ.acts equals (effects.filterMap (change a.cwd)) = some environ) :
    ∃ shell, shell.lastcode = code ∧
      act s a = some (⟨shell, environ, a.unread effects rest⟩, (effects, a.cwd)) := by
  obtain ⟨more, hmore⟩ :=
    Shell.readLine_ok { s.shell with rdirfilename := none, rdir := .none } hread hne
  have hnul : (0 : UInt8) ∉ withoutLast chunk := Shell.nul_withoutLast
  have hexec := Shell.execute_line (a.world s.environ) s.shell hnul more
  rw [hline] at hexec
  have hturn := Shell.turn_line (a.world s.environ) (s := s.shell) hmore
  cases he : Shell.execute (a.world s.environ)
      (Shell.checkRedir (s.shell.typed (withoutLast chunk) more)) with
  | error e =>
    rw [he] at hexec
    cases hexec
  | ok p =>
    rw [he] at hexec hturn
    cases hexec
    refine ⟨p.1, rfl, ?_⟩
    rw [act, hturn]
    simp only [Except.map, hacts, Option.map_some]

theorem logged_step {a : Answer} {ev : Event} (h : act s a = some (t, ev)) (log : List Event) :
    ((system strings input).logged event).step (s, log) a = some (t, log ++ [ev]) := by
  have hs : (system strings input).step s a = some t := by
    change (act s a).map Prod.fst = some t
    rw [h]
    rfl
  have he : event s a = some ev := by
    rw [event, h]
    rfl
  simp [System.logged, hs, he]

theorem changes_append (log : List Event) (ev : Event) :
    changes (log ++ [ev]) = changes log ++ ev.1.filterMap (change ev.2) := by
  simp [changes]

/-- The environment reads as the changes of the run have left the settings. -/
theorem view_run (h : ((system strings input).logged event).Reachable System.anyStep (s, log)) :
    s.environ.view equals =
      (⟨inherited strings, none, []⟩ : View UInt8).acts equals (changes log) := by
  refine System.logged_invariant (I := fun s log => s.environ.view equals =
    (⟨inherited strings, none, []⟩ : View UInt8).acts equals (changes log)) h ?_ ?_
  · exact view_environOf strings
  · intro s a t log hi hs
    obtain ⟨⟨t', ev⟩, hact, rfl⟩ := Option.map_eq_some_iff.mp hs
    have hevent : event s a = some ev := by
      rw [event, hact]
      rfl
    have hproper : ∀ c ∈ ev.1.filterMap (change ev.2), c.Proper equals := by
      intro c hc
      obtain ⟨e, -, he⟩ := List.mem_filterMap.mp hc
      exact (change_proper he).1
    rw [hevent, view_acts hproper (act_cases hact).2, hi, Option.toList_some, changes_append,
      View.acts_append]

theorem mem_changes {n value : Bytes} (h : .set n value ∈ changes log) : n = Shell.pwd := by
  obtain ⟨e, -, he⟩ := List.mem_flatMap.mp h
  obtain ⟨x, -, hx⟩ := List.mem_filterMap.mp he
  exact (change_proper hx).2 n value rfl

/-- The shell has the variable exported last and none of those exported before, and the
others as they were in the beginning, or as `cd` has left them. -/
theorem one_variable
    (h : ((system strings input).logged event).Reachable System.anyStep (s, log))
    (hne : name ≠ []) (hname : equals ∉ name) :
    (∀ value, exported log = some (name, value) → s.environ.getenv equals name = some value) ∧
      ((∀ value, exported log ≠ some (name, value)) →
        (name ∉ (inherited strings).map Prod.fst → s.environ.getenv equals name = none) ∧
        ((∀ c ∈ changes log, ¬ Touches equals name c) →
          s.environ.getenv equals name = (inherited strings).lookup name) ∧
        ∀ value, s.environ.getenv equals name = some value →
          (name, value) ∈ inherited strings ∨
            name = Shell.pwd ∧ .set Shell.pwd value ∈ changes log) := by
  have hapart : View.Apart (⟨inherited strings, none, []⟩ : View UInt8) := by
    rintro x ⟨⟩
  obtain ⟨hlater, hexp⟩ := exported_acts hapart (changes log)
  have hrest : View.rest (⟨inherited strings, none, []⟩ : View UInt8) = inherited strings :=
    List.append_nil _
  rw [getenv_view _ hne hname, view_run h]
  constructor
  · intro value he
    exact get_exported hlater (hexp.trans he)
  · intro hother
    rw [get_rest fun value he => hother value (hexp.symm.trans he)]
    refine ⟨fun hnew => ?_, fun hfree => ?_, fun value hvalue => ?_⟩
    · rw [List.lookup_eq_none_iff]
      intro x hx
      have hx' := (mem_acts hx).1
      rw [hrest] at hx'
      rw [bne_iff_ne]
      rintro rfl
      exact hnew hx'
    · rw [lookup_acts hfree, hrest]
    · obtain ⟨l, r, hl, -⟩ := List.lookup_eq_some_iff.mp hvalue
      have hmem : (name, value) ∈ l ++ (name, value) :: r := by simp
      rw [← hl] at hmem
      rcases (mem_acts hmem).2 with hold | hset
      · exact .inl (hrest ▸ hold)
      · obtain rfl := mem_changes hset
        exact .inr ⟨rfl, hset⟩

/-- "HOME=r" -/
def home : Bytes := [72, 79, 77, 69, 61, 114]

def silent : Answer := ⟨true, fun _ _ => true, fun _ _ => none, [], [], []⟩

/-- "export B=2" -/
def secondLine : Bytes := Shell.export' ++ [32, 66, 61, 50, 10]

/-- "export A=1" -/
def firstLine : Bytes := Shell.export' ++ [32, 65, 61, 49, 10]

def twoExports : Bytes := firstLine ++ secondLine

/-- The environment behind the first line, and behind the second. -/
def firstEnv : Env UInt8 := ⟨[.own home 6, .buffer], [65, 61, 49], lineSize - 1⟩
def secondEnv : Env UInt8 := ⟨[.own home 6, .buffer], [66, 61, 50], lineSize - 1⟩

def twoLog : List Event := [([.putenv [65, 61, 49]], []), ([.putenv [66, 61, 50]], [])]

theorem twoExports_first : ∃ shell : Shell.State, shell.lastcode = 0 ∧
    act (init [home] twoExports) silent =
      some (⟨shell, firstEnv, secondLine⟩, ([.putenv [65, 61, 49]], [])) := by
  have hread : Shell.fgets lineSize twoExports = some (firstLine, secondLine) := rfl
  have hne : firstLine.takeWhile (· != 0) ≠ [] := by decide
  exact act_line (s := init [home] twoExports) (a := silent) hread hne rfl rfl

theorem twoExports_run : ∃ shell, ((system [home] twoExports).logged event).Reachable
    System.anyStep (⟨shell, secondEnv, []⟩, twoLog) := by
  obtain ⟨first, -, hfirst⟩ := twoExports_first
  have hsecond : ∃ shell : Shell.State, shell.lastcode = first.lastcode ∧
      act ⟨first, firstEnv, secondLine⟩ silent =
        some (⟨shell, secondEnv, []⟩, ([.putenv [66, 61, 50]], [])) := by
    have hread : Shell.fgets lineSize secondLine = some (secondLine, []) := rfl
    have hne : secondLine.takeWhile (· != 0) ≠ [] := by decide
    exact act_line (s := ⟨first, firstEnv, secondLine⟩) (a := silent) hread hne rfl rfl
  obtain ⟨second, -, hsecond⟩ := hsecond
  exact ⟨second, (Relation.ReflTransGen.single ⟨silent, trivial, logged_step hfirst []⟩).tail
    ⟨silent, trivial, logged_step hsecond _⟩⟩

theorem one_variable_two : ∃ s log,
    ((system [home] twoExports).logged event).Reachable System.anyStep (s, log) ∧
      s.environ.getenv equals [66] = some [50] ∧ s.environ.getenv equals [65] = none ∧
      s.environ.getenv equals [72, 79, 77, 69] = some [114] := by
  obtain ⟨shell, hrun⟩ := twoExports_run
  have hb := one_variable hrun (show [66] ≠ [] by decide) (by decide)
  have ha := one_variable hrun (show [65] ≠ [] by decide) (by decide)
  have hhome := one_variable hrun (show [72, 79, 77, 69] ≠ [] by decide) (by decide)
  refine ⟨_, _, hrun, hb.1 [50] rfl, ?_, ?_⟩
  · exact (ha.2 (by rintro value ⟨⟩)).1 (by decide)
  · refine (hhome.2 (by rintro value ⟨⟩)).2.1 ?_
    intro c hc
    have hcases : c = .put [65, 61, 49] ∨ c = .put [66, 61, 50] := by
      simpa [changes, twoLog, change] using hc
    rcases hcases with rfl | rfl <;> rintro ⟨⟩

/-- Only a word of the line is exported. -/
theorem putenv_interpret {w : World} {code code' : Int} {r : Rdir × Option Bytes}
    {ws : List Bytes} {effects : List Effect} {text : Bytes}
    (h : interpret w code r ws = .ok (code', effects)) (hin : .putenv text ∈ effects) :
    text ∈ ws := by
  rcases Shell.interpret_cases h with ⟨dir, -, -, rfl⟩ | ⟨word, rfl, rfl⟩ | ⟨word, -, rfl⟩ | rfl
  · simp at hin
  · simp only [List.mem_singleton, Effect.putenv.injEq] at hin
    simp [hin]
  · obtain ⟨_, ⟨⟩⟩ := Shell.mem_runEcho hin
  · rcases Shell.mem_child hin with ⟨_, _, he⟩ | he <;> cases he

theorem length_delivered {line : Bytes} (h : Shell.delivered input = some line) :
    line.length < lineSize := by
  rw [Shell.delivered] at h
  cases hf : Shell.fgets lineSize input with
  | none => simp [hf] at h
  | some p =>
    obtain ⟨chunk, rest⟩ := p
    simp only [hf] at h
    split at h
    · cases h
    · cases h
      have hchunk : chunk.length ≤ lineSize - 1 := by
        rw [Shell.fgets] at hf
        split at hf
        · cases hf
        · simp only [Option.some.injEq, Prod.mk.injEq] at hf
          rw [← hf.1]
          split
          · exact List.length_take_le _ _
          · exact (List.length_take_le' _ _).trans (List.length_take_le _ _)
      have hcut : (withoutLast chunk).length ≤ chunk.length := by
        rw [withoutLast, List.length_dropLast]
        have := (List.takeWhile_prefix (fun b : UInt8 => b != 0) (l := chunk)).length_le
        omega
      have hsize : lineSize = 1024 := rfl
      omega

/-- Only a `cd` writes to `PWD`, and what it writes fits. -/
theorem setPwd_interpret {w : World} {code code' : Int} {r : Rdir × Option Bytes}
    {ws : List Bytes} {effects : List Effect}
    (h : interpret w code r ws = .ok (code', effects)) (hin : .setPwd ∈ effects) :
    (∃ dir, effects = [.chdir dir, .setPwd]) ∧ w.fits w.cwd := by
  rcases Shell.interpret_cases h with ⟨dir, -, hfits, rfl⟩ | ⟨word, -, rfl⟩ | ⟨word, -, rfl⟩ | rfl
  · exact ⟨⟨dir, rfl⟩, hfits⟩
  · simp at hin
  · obtain ⟨_, ⟨⟩⟩ := Shell.mem_runEcho hin
  · rcases Shell.mem_child hin with ⟨_, _, he⟩ | he <;> cases he

/-- A turn that `main` gets through has had a line, and done what it means. -/
theorem turn_interpret {w : World} {sh sh' : Shell.State} {effects : List Effect} {rest : Bytes}
    (h : Shell.turn w sh input = .ok (sh', effects, rest)) :
    ∃ line, Shell.delivered input = some line ∧
      interpret w sh.lastcode (redirection line) (Words.words delim (command line)) =
        .ok (sh'.lastcode, effects) := by
  cases hdel : Shell.delivered input with
  | none =>
    obtain ⟨e, -, hread⟩ :=
      Shell.readLine_none { sh with rdirfilename := none, rdir := .none } hdel
    simp [Shell.turn, Shell.interact, hread, bind, Except.bind] at h
  | some line =>
    obtain ⟨more, rest', hnul, hread⟩ :=
      Shell.readLine_some { sh with rdirfilename := none, rdir := .none } hdel
    have hexec := Shell.execute_line w sh hnul more
    rw [Shell.turn_line w (s := sh) hread] at h
    cases he : Shell.execute w (Shell.checkRedir (sh.typed line more)) with
    | error e =>
      rw [he] at h
      cases h
    | ok p =>
      rw [he] at h hexec
      cases h
      exact ⟨line, rfl, hexec.symm⟩

/-- Whatever was typed, `strcpy` stays inside `myenv`. -/
theorem strcpy_in_room {w : World} {sh sh' : Shell.State} {effects : List Effect}
    {rest text : Bytes} (h : Shell.turn w sh input = .ok (sh', effects, rest))
    (hin : .putenv text ∈ effects) : text.length < lineSize := by
  obtain ⟨line, hdel, hmeans⟩ := turn_interpret h
  have hword := CBuffer.length_word (putenv_interpret hmeans hin)
  have hcommand : (command line).length ≤ line.length := (List.takeWhile_prefix _).length_le
  have hline := length_delivered hdel
  omega

theorem room_run (h : (system strings input).Reachable System.anyStep s) :
    s.environ.room = lineSize - 1 := by
  refine h.invariant (I := fun s => s.environ.room = lineSize - 1) rfl ?_
  intro s a t hi _ hs
  obtain ⟨⟨t', ev⟩, hact, rfl⟩ := Option.map_eq_some_iff.mp hs
  exact (room_acts (act_cases hact).2).trans hi

/-- A turn that `main` gets through has an environment behind it, as no `export` is too long. -/
theorem goes_on (h : (system strings input).Reachable System.anyStep s) (a : Answer)
    {shell : Shell.State} {effects : List Effect} {rest : Bytes}
    (hturn : Shell.turn (a.world s.environ) s.shell s.input = .ok (shell, effects, rest)) :
    ∃ environ,
      act s a = some (⟨shell, environ, a.unread effects rest⟩, (effects, a.cwd)) := by
  have hdefined : ∃ environ,
      s.environ.acts equals (effects.filterMap (change a.cwd)) = some environ := by
    rw [← Option.isSome_iff_exists]
    by_cases hcd : .setPwd ∈ effects
    · obtain ⟨line, -, hmeans⟩ := turn_interpret hturn
      obtain ⟨⟨dir, rfl⟩, hfits⟩ := setPwd_interpret hmeans hcd
      obtain ⟨environ, hset⟩ : ∃ environ,
          s.environ.act equals (.set Shell.pwd a.cwd) = some environ :=
        Option.isSome_iff_exists.mp hfits
      have hone : [Effect.chdir dir, .setPwd].filterMap (change a.cwd) =
        [.set Shell.pwd a.cwd] := rfl
      rw [hone, Env.acts, hset]
      rfl
    · refine isSome_acts equals fun c hc => ?_
      obtain ⟨e, he, hce⟩ := List.mem_filterMap.mp hc
      cases e <;> cases hce
      · exact absurd he hcd
      · rename_i text
        have hfits := strcpy_in_room hturn he
        rw [room_run h]
        exact ⟨text, rfl, by omega⟩
  obtain ⟨environ, hacts⟩ := hdefined
  refine ⟨environ, ?_⟩
  rw [act, hturn]
  simp only [hacts, Option.map_some]

theorem goes_on_first : ∃ shell environ, act (init [home] twoExports) silent =
    some (⟨shell, environ, secondLine⟩, ([.putenv [65, 61, 49]], [])) := by
  obtain ⟨shell, -, hact⟩ := twoExports_first
  obtain ⟨rest, hturn, hrest⟩ := (act_cases hact).1
  have hstart : (system [home] twoExports).Reachable System.anyStep (init [home] twoExports) :=
    .refl
  obtain ⟨environ, hnext⟩ := goes_on hstart silent hturn
  rw [← hrest] at hnext
  exact ⟨shell, environ, hnext⟩

end ShellEnviron
