import LinuxPractice.ShellWords

/-!
# The redirection of a command line

`check_redir` cuts the line at its first operator. The name behind the operator
keeps its place while `splitstring` cuts the words in front of it.
-/
namespace Shell

open CppString CBuffer Words

variable {line rest : Bytes}

/-- '<' or '>'. -/
def isOperator (b : UInt8) : Bool := b == 60 || b == 62

/-- The line in front of its operator. -/
def command (line : Bytes) : Bytes := line.takeWhile (!isOperator ·)

/-- What an operator asks for, and the text behind it. -/
def operator (b : UInt8) (tail : Bytes) : Rdir × Bytes :=
  if b = 60 then (.inRdir, tail)
  else if tail.head? = some 62 then (.appendRdir, tail.tail)
  else (.outRdir, tail)

/-- The redirection of a line, with its file name. -/
def redirection (line : Bytes) : Rdir × Option Bytes :=
  match line.dropWhile (!isOperator ·) with
  | [] => (.none, none)
  | b :: tail => ((operator b tail).1, some ((operator b tail).2.dropWhile isSpace))

/-- What `check_redir` gets from `main`: a line in the buffer, and no redirection yet. -/
def State.typed (s : State) (line rest : Bytes) : State :=
  { s with commandline := line ++ 0 :: rest, rdirfilename := none, rdir := .none }

theorem command_append (line : Bytes) :
    command line ++ line.dropWhile (!isOperator ·) = line :=
  List.takeWhile_append_dropWhile

theorem nul_command (hline : (0 : UInt8) ∉ line) : (0 : UInt8) ∉ command line :=
  fun hm => hline ((List.takeWhile_prefix _).subset hm)

theorem nul_operator {tail : Bytes} (htail : (0 : UInt8) ∉ tail) (b : UInt8) :
    (0 : UInt8) ∉ (operator b tail).2 := by
  rw [operator]
  split_ifs
  · exact htail
  · exact fun hm => htail (List.mem_of_mem_tail hm)
  · exact htail

theorem checkRedirLoop_command {cmd : Bytes} (hcmd : ∀ b ∈ cmd, isOperator b = false ∧ b ≠ 0)
    (s : State) (front tail : Bytes) (hs : s.commandline = front ++ (cmd ++ tail)) :
    checkRedirLoop s front.length = checkRedirLoop s (front ++ cmd).length := by
  induction cmd generalizing front with
  | nil => rw [List.append_nil]
  | cons b cmd ih =>
    rw [List.forall_mem_cons] at hcmd
    obtain ⟨⟨hop, hb⟩, hcmd⟩ := hcmd
    simp only [isOperator, Bool.or_eq_false_iff, beq_eq_false_iff_ne, ne_eq] at hop
    have hbyte : byteAt s.commandline front.length = b := by
      rw [hs]
      exact byteAt_append front b (cmd ++ tail)
    rw [checkRedirLoop, hbyte, if_neg hb, if_neg hop.2, if_neg hop.1]
    have hstep := ih hcmd (front ++ [b]) (by rw [hs]; simp)
    simpa using hstep

/-- The loop at an operator: the line ends there, and the name is looked for behind it. -/
theorem checkRedirLoop_operator {b : UInt8} {tail : Bytes} (hb : isOperator b) (s : State)
    (cmd : Bytes) (hs : s.commandline = cmd ++ b :: (tail ++ 0 :: rest)) :
    ∃ zs, checkRedirLoop s cmd.length =
      let buf := cmd ++ 0 :: zs ++ ((operator b tail).2 ++ 0 :: rest)
      { s with
        commandline := buf
        rdirfilename := some (skip isSpace buf (cmd ++ 0 :: zs).length)
        rdir := (operator b tail).1 } := by
  have hbyte : byteAt s.commandline cmd.length = b := by
    rw [hs]
    exact byteAt_append cmd b _
  have hset : s.commandline.set cmd.length 0 = cmd ++ [0] ++ (tail ++ 0 :: rest) := by
    rw [hs, List.append_assoc]
    exact set_append cmd b 0 _
  have hlen : cmd.length + 1 = (cmd ++ [0]).length := by simp
  simp only [isOperator, Bool.or_eq_true, beq_iff_eq] at hb
  rw [checkRedirLoop, hbyte, hset, hlen]
  dsimp only
  rcases hb with rfl | rfl
  · exact ⟨[], rfl⟩
  · cases tail with
    | nil =>
      rw [List.nil_append, byteAt_append]
      exact ⟨[], rfl⟩
    | cons c tail =>
      rw [List.cons_append, byteAt_append, set_append]
      by_cases hc : c = 62
      · subst hc
        exact ⟨[0], by simp [operator]⟩
      · exact ⟨[], by simp [operator, hc]⟩

/-- `check_redir` in terms of the line. The name lies behind the command. -/
theorem checkRedir_spec (s : State) (hline : (0 : UInt8) ∉ line) (rest : Bytes) :
    ∃ rest' name, checkRedir (s.typed line rest) =
        { s with
          commandline := command line ++ 0 :: rest'
          rdirfilename := name
          rdir := (redirection line).1 } ∧
      name.map (cstr (command line ++ 0 :: rest')) = (redirection line).2 ∧
      ∀ p ∈ name, (command line).length < p := by
  have hcmd : ∀ b ∈ command line, isOperator b = false ∧ b ≠ 0 := by
    intro b hb
    refine ⟨by simpa using List.mem_takeWhile_imp hb, ?_⟩
    rintro rfl
    exact nul_command hline hb
  have htyped : (s.typed line rest).commandline =
      command line ++ (line.dropWhile (!isOperator ·) ++ 0 :: rest) := by
    rw [← List.append_assoc, command_append]
    rfl
  have hloop := checkRedirLoop_command hcmd (s.typed line rest) [] _ htyped
  rw [List.nil_append, List.length_nil] at hloop
  rw [checkRedir, hloop]
  cases ht : line.dropWhile (!isOperator ·) with
  | nil =>
    have hwhole := command_append line
    rw [ht, List.append_nil] at hwhole
    refine ⟨rest, none, ?_, ?_, by simp⟩
    · rw [checkRedirLoop, htyped, ht, List.nil_append, byteAt_append, if_pos rfl, State.typed,
        hwhole]
      simp only [redirection, ht]
    · simp only [redirection, ht, Option.map_none]
  | cons b tail =>
    have hb : isOperator b := by
      simpa using head?_dropWhile (p := fun b => !isOperator b) (s := line) (b := b)
        (by rw [ht]; rfl)
    have hnul : (0 : UInt8) ∉ tail := by
      intro hm
      refine hline ((List.dropWhile_suffix (!isOperator ·)).subset ?_)
      rw [ht]
      exact List.mem_cons_of_mem b hm
    rw [ht] at htyped
    obtain ⟨zs, hcut⟩ := checkRedirLoop_operator hb _ _ htyped
    have hname := cstr_skip isSpace rfl (nul_operator hnul b) (command line ++ 0 :: zs) rest
    have hplace := le_skip isSpace (command line ++ 0 :: zs ++ ((operator b tail).2 ++ 0 :: rest))
      (command line ++ 0 :: zs).length
    have hfront : (command line).length < (command line ++ 0 :: zs).length := by simp
    have hshape : command line ++ 0 :: (zs ++ ((operator b tail).2 ++ 0 :: rest)) =
        command line ++ 0 :: zs ++ ((operator b tail).2 ++ 0 :: rest) := by simp
    refine ⟨zs ++ ((operator b tail).2 ++ 0 :: rest), some (skip isSpace
      (command line ++ 0 :: zs ++ ((operator b tail).2 ++ 0 :: rest))
      (command line ++ 0 :: zs).length), ?_, ?_, ?_⟩
    · rw [hcut, hshape]
      simp only [redirection, ht]
      rfl
    · rw [hshape, Option.map_some, hname]
      simp only [redirection, ht]
    · rintro p ⟨⟩
      exact lt_of_lt_of_le hfront hplace

/-- `s'` is the state behind `splitstring` on a line that `s` was given. -/
structure Parsed (line : Bytes) (s s' : State) : Prop where
  words : Argv s' (words delim (command line))
  rdir : s'.rdir = (redirection line).1
  name : s'.name = (redirection line).2
  lastcode : s'.lastcode = s.lastcode

/-- A line without words in front of its redirection. -/
theorem splitstring_line_blank (s : State) (hline : (0 : UInt8) ∉ line) (rest : Bytes)
    (hnil : words delim (command line) = []) :
    ∃ s', splitstring (checkRedir (s.typed line rest)) = .ok (1, s') ∧ s'.argv 0 = .null := by
  obtain ⟨rest', name, hredir, -, -⟩ := checkRedir_spec s hline rest
  rw [hredir]
  exact splitstring_blank _ rfl hnil

/-- A line with more words than `argv` has room for. -/
theorem splitstring_line_error (s : State) (hline : (0 : UInt8) ∉ line) (rest : Bytes)
    (hroom : argcSize ≤ (words delim (command line)).length) :
    splitstring (checkRedir (s.typed line rest)) = .error .argvBounds := by
  obtain ⟨rest', name, hredir, -, -⟩ := checkRedir_spec s hline rest
  rw [hredir]
  exact splitstring_error _ rfl (nul_command hline) hroom

theorem splitstring_line (s : State) (hline : (0 : UInt8) ∉ line) (rest : Bytes)
    (hne : words delim (command line) ≠ [])
    (hroom : (words delim (command line)).length < argcSize) :
    ∃ s', splitstring (checkRedir (s.typed line rest)) =
      .ok ((words delim (command line)).length, s') ∧ Parsed line s s' := by
  obtain ⟨rest', name, hredir, hname, hbehind⟩ := checkRedir_spec s hline rest
  rw [hredir]
  obtain ⟨line', argv', hsplit, hlen, hargv⟩ := splitstring_ok
    { s with
      commandline := command line ++ 0 :: rest'
      rdirfilename := name
      rdir := (redirection line).1 } rfl (nul_command hline) hne hroom
  refine ⟨_, hsplit, hargv, rfl, ?_, rfl⟩
  rw [← hname]
  cases name with
  | none => rfl
  | some p => exact congrArg some (cstr_behind hlen (hbehind p rfl).le _)

/-- A word without blanks, operators and zeros. -/
def IsWord (w : Bytes) : Prop := w ≠ [] ∧ ∀ b ∈ w, b ≠ 0 ∧ b ≠ 32 ∧ b ≠ 60 ∧ b ≠ 62

inductive Op where
  | input | output | append
  deriving DecidableEq, Repr

def Op.symbol : Op → Bytes
  | .input => [60]
  | .output => [62]
  | .append => [62, 62]

def Op.rdir : Op → Rdir
  | .input => .inRdir
  | .output => .outRdir
  | .append => .appendRdir

def blanks (n : Nat) : Bytes := List.replicate n 32

/-- An operator, the blanks behind it, and a file name. -/
structure Redirection where
  op : Op
  after : Nat
  name : Bytes
  nonempty : name ≠ []
  nul : (0 : UInt8) ∉ name
  start : ∀ b ∈ name.head?, isSpace b = false
  distinct : op = .output → after = 0 → name.head? ≠ some 62

def Redirection.text (r : Redirection) : Bytes := r.op.symbol ++ blanks r.after ++ r.name

/-- The words of a command, each behind its blanks: at least one in front of every word but the
first. -/
structure CommandLine where
  lead : Nat
  first : Bytes
  others : List (Nat × Bytes)
  trail : Nat
  redirection : Option Redirection
  isWord_first : IsWord first
  isWord_others : ∀ x ∈ others, IsWord x.2
  room : others.length + 1 ≤ 29

def spaced (others : List (Nat × Bytes)) (trail : Nat) : Bytes :=
  others.flatMap (fun x => blanks (x.1 + 1) ++ x.2) ++ blanks trail

def CommandLine.command (l : CommandLine) : Bytes :=
  blanks l.lead ++ (l.first ++ spaced l.others l.trail)

def CommandLine.text (l : CommandLine) : Bytes :=
  l.command ++ (l.redirection.map Redirection.text).getD []

def CommandLine.words (l : CommandLine) : List Bytes := l.first :: l.others.map Prod.snd

theorem delim_blanks {n : Nat} : ∀ b ∈ blanks n, delim b := by
  intro b hb
  rw [List.eq_of_mem_replicate hb]
  rfl

/-- Characters that no call of the shell cuts a command at. -/
theorem plain_blanks {n : Nat} : ∀ b ∈ blanks n, b ≠ 0 ∧ isOperator b = false := by
  intro b hb
  rw [List.eq_of_mem_replicate hb]
  decide

theorem IsWord.delim {w : Bytes} (h : IsWord w) : ∀ b ∈ w, Shell.delim b = false := by
  intro b hb
  simpa [Shell.delim] using (h.2 b hb).2.1

theorem IsWord.plain {w : Bytes} (h : IsWord w) : ∀ b ∈ w, b ≠ 0 ∧ isOperator b = false := by
  intro b hb
  obtain ⟨hnul, -, hin, hout⟩ := h.2 b hb
  exact ⟨hnul, by simp [isOperator, hin, hout]⟩

theorem spaced_cons (x : Nat × Bytes) (others : List (Nat × Bytes)) (trail : Nat) :
    spaced (x :: others) trail = blanks (x.1 + 1) ++ (x.2 ++ spaced others trail) := by
  simp [spaced]

/-- A word ends at a blank. -/
theorem spaced_head (others : List (Nat × Bytes)) (trail : Nat) :
    ∀ b ∈ (spaced others trail).head?, delim b := by
  intro b hb
  cases others with
  | nil => exact delim_blanks b (List.mem_of_mem_head? hb)
  | cons x others =>
    rw [spaced_cons] at hb
    cases hb
    rfl

theorem words_spaced {others : List (Nat × Bytes)} (hword : ∀ x ∈ others, IsWord x.2)
    (trail : Nat) : words delim (spaced others trail) = others.map Prod.snd := by
  induction others with
  | nil => exact words_eq_nil delim_blanks
  | cons x others ih =>
    rw [List.forall_mem_cons] at hword
    rw [spaced_cons, words_gap delim_blanks, words_word hword.1.1 hword.1.delim (spaced_head _ _),
      ih hword.2, List.map_cons]

theorem mem_spaced {others : List (Nat × Bytes)} (hword : ∀ x ∈ others, IsWord x.2) {trail : Nat} :
    ∀ b ∈ spaced others trail, b ≠ 0 ∧ isOperator b = false := by
  induction others with
  | nil => exact fun b hb => plain_blanks b hb
  | cons x others ih =>
    rw [List.forall_mem_cons] at hword
    intro b hb
    rw [spaced_cons, List.mem_append, List.mem_append] at hb
    rcases hb with hb | hb | hb
    · exact plain_blanks b hb
    · exact hword.1.plain b hb
    · exact ih hword.2 b hb

theorem mem_command (l : CommandLine) : ∀ b ∈ l.command, b ≠ 0 ∧ isOperator b = false := by
  intro b hb
  rw [CommandLine.command, List.mem_append, List.mem_append] at hb
  rcases hb with hb | hb | hb
  · exact plain_blanks b hb
  · exact l.isWord_first.plain b hb
  · exact mem_spaced l.isWord_others b hb

/-- The blanks behind an operator are skipped, and nothing of the name. -/
theorem dropWhile_blanks (r : Redirection) :
    (blanks r.after ++ r.name).dropWhile isSpace = r.name := by
  obtain ⟨b, name, hname⟩ := List.exists_cons_of_ne_nil r.nonempty
  have hb : isSpace b = false := r.start b (by rw [hname]; rfl)
  have hspace : ∀ c ∈ blanks r.after, isSpace c := by
    intro c hc
    rw [List.eq_of_mem_replicate hc]
    rfl
  rw [List.dropWhile_append_of_pos hspace, hname, List.dropWhile_cons_of_neg (by simp [hb])]

theorem operator_text (r : Redirection) : ∃ b tail, r.text = b :: tail ∧ isOperator b ∧
    operator b tail = (r.op.rdir, blanks r.after ++ r.name) := by
  rw [Redirection.text]
  cases hop : r.op with
  | input => exact ⟨_, _, rfl, rfl, rfl⟩
  | append => exact ⟨_, _, rfl, rfl, rfl⟩
  | output =>
    refine ⟨_, _, rfl, rfl, ?_⟩
    have hhead : (blanks r.after ++ r.name).head? ≠ some 62 := by
      cases hafter : r.after with
      | zero => exact r.distinct hop hafter
      | succ n => simp [blanks, List.replicate_succ]
    simpa [operator, Op.rdir] using hhead

/-- The command of a formatted line is cut where it was joined. -/
theorem command_text (l : CommandLine) : command l.text = l.command := by
  have hplain : ∀ b ∈ l.command, (!isOperator b) = true := by
    intro b hb
    simp [(mem_command l b hb).2]
  rw [CommandLine.text]
  cases l.redirection with
  | none =>
    rw [Option.map_none, Option.getD_none, List.append_nil, command]
    exact List.takeWhile_eq_self_iff.mpr hplain
  | some r =>
    obtain ⟨b, tail, htext, hb, -⟩ := operator_text r
    rw [Option.map_some, Option.getD_some, htext, command]
    exact takeWhile_stop hplain (by simp [hb])

theorem redirection_text (l : CommandLine) : redirection l.text =
    (l.redirection.elim .none (·.op.rdir), l.redirection.map (·.name)) := by
  have hplain : ∀ b ∈ l.command, (!isOperator b) = true := by
    intro b hb
    simp [(mem_command l b hb).2]
  rw [CommandLine.text, redirection, List.dropWhile_append_of_pos hplain]
  cases l.redirection with
  | none => rfl
  | some r =>
    obtain ⟨b, tail, htext, hb, hop⟩ := operator_text r
    rw [Option.map_some, Option.getD_some, htext, List.dropWhile_cons_of_neg (by simp [hb])]
    simp only [hop, dropWhile_blanks]
    rfl

theorem nul_text (l : CommandLine) : (0 : UInt8) ∉ l.text := by
  rw [CommandLine.text, List.mem_append, not_or]
  refine ⟨fun hm => (mem_command l 0 hm).1 rfl, ?_⟩
  cases l.redirection with
  | none => exact List.not_mem_nil
  | some r =>
    have hsym : (0 : UInt8) ∉ r.op.symbol := by cases r.op <;> decide
    have hblank : (0 : UInt8) ∉ blanks r.after := fun hm => (plain_blanks 0 hm).1 rfl
    simp [Redirection.text, hsym, hblank, r.nul]

theorem words_command (l : CommandLine) : words delim l.command = l.words := by
  rw [CommandLine.command, words_gap delim_blanks, words_word l.isWord_first.1 l.isWord_first.delim
    (spaced_head _ _), words_spaced l.isWord_others, CommandLine.words]

/-- `check_redir` and `splitstring` read back what a command line was made of. -/
theorem parse_format (l : CommandLine) (s : State) (rest : Bytes) :
    ∃ s', splitstring (checkRedir (s.typed l.text rest)) = .ok (l.words.length, s') ∧
      Argv s' l.words ∧
      s'.rdir = l.redirection.elim .none (·.op.rdir) ∧
      s'.name = l.redirection.map (·.name) := by
  have hwords : words delim (command l.text) = l.words := by rw [command_text, words_command]
  have hlen : l.words.length = l.others.length + 1 := by simp [CommandLine.words]
  have hroom := l.room
  obtain ⟨s', hsplit, hparsed⟩ := splitstring_line s (nul_text l) rest
    (by rw [hwords]; exact List.cons_ne_nil _ _) (by rw [hwords, hlen, argcSize]; omega)
  rw [hwords] at hsplit
  refine ⟨s', hsplit, ?_, ?_, ?_⟩
  · rw [← hwords]
    exact hparsed.words
  · rw [hparsed.rdir, redirection_text]
  · rw [hparsed.name, redirection_text]

/-- "ls -l >> f". -/
def listAppend : CommandLine where
  lead := 0
  first := ls
  others := [(0, [45, 108])]
  trail := 1
  redirection := some ⟨.append, 1, [102], by decide, by decide, by simp [isSpace], by decide⟩
  isWord_first := ⟨by decide, by simp [ls]; decide⟩
  isWord_others := by simp [IsWord]
  room := by decide

theorem parse_format_append : ∃ s',
    splitstring (checkRedir (start.typed (ls ++ [32, 45, 108, 32, 62, 62, 32, 102]) [])) =
        .ok (2, s') ∧
      Argv s' [ls, [45, 108]] ∧ s'.rdir = .appendRdir ∧ s'.name = some [102] :=
  parse_format listAppend start []

end Shell
