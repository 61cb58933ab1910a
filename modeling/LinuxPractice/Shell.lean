import LinuxPractice.CBuffer
import LinuxPractice.CppString

/-!
# myshell

`myshell.c`, from the characters of standard input to what a command prints.
The command line is a buffer that `check_redir` and `strtok` cut in place, and
`argv` has room for `ARGC_SIZE` pointers.
-/
namespace Shell

open CppString Decimal CBuffer Words

def lineSize : Nat := 1024
def argcSize : Nat := 30
def exitCode : Int := 44

inductive Rdir where
  | none | inRdir | outRdir | appendRdir
  deriving DecidableEq, Repr

/-- A pointer into the command line, or to "--color". -/
inductive Arg where
  | null : Arg
  | word : Nat → Arg
  | color : Arg
  deriving DecidableEq, Repr

/-- What ends the shell: no line, a write in front of the line, behind `argv` or behind the value
of `PWD`, or a null pointer that is read or written. -/
inductive Fault where
  | assertion
  | lineBounds
  | argvBounds
  | pwdBounds
  | nullPointer
  deriving DecidableEq, Repr

/-- The globals. -/
structure State where
  commandline : Bytes
  argv : Nat → Arg
  rdirfilename : Option Nat
  rdir : Rdir
  lastcode : Int

/-- "--color". -/
def color : Bytes := ['-', '-', 'c', 'o', 'l', 'o', 'r'].map byte

def Arg.text (buf : Bytes) : Arg → Option Bytes
  | .null => none
  | .word p => some (cstr buf p)
  | .color => some Shell.color

/-- The loop of `check_redir` from `pos` on. -/
def checkRedirLoop (s : State) (pos : Nat) : State :=
  let buf := s.commandline
  if byteAt buf pos = 0 then s
  else if byteAt buf pos = 62 then
    let buf := buf.set pos 0
    if byteAt buf (pos + 1) = 62 then
      let buf := buf.set (pos + 1) 0
      { s with
        commandline := buf
        rdirfilename := some (skip isSpace buf (pos + 2))
        rdir := .appendRdir }
    else
      { s with
        commandline := buf
        rdirfilename := some (skip isSpace buf (pos + 1))
        rdir := .outRdir }
  else if byteAt buf pos = 60 then
    let buf := buf.set pos 0
    { s with
      commandline := buf
      rdirfilename := some (skip isSpace buf (pos + 1))
      rdir := .inRdir }
  else checkRedirLoop s (pos + 1)
termination_by s.commandline.length - pos
decreasing_by
  rename_i hend _ _
  have hlt : pos < s.commandline.length := lt_length_of_byteAt hend
  omega

def checkRedir (s : State) : State := checkRedirLoop s 0

/-- `fgets`: a line with its newline, as far as it fits; nothing at the end of the input. -/
def fgets (size : Nat) (input : Bytes) : Option (Bytes × Bytes) :=
  if input.isEmpty then none
  else
    let room := input.take (size - 1)
    let line :=
      match find room 10 with
      | none => room
      | some pos => room.take (pos + 1)
    some (line, input.drop line.length)

def strlen (buf : Bytes) (p : Nat) : Nat := (cstr buf p).length

/-- What `fgets` leaves in the buffer, without its last character. -/
def store (s : State) (line : Bytes) : Except Fault State :=
  let buf := line ++ 0 :: s.commandline.drop (line.length + 1)
  -- `cline[strlen(cline)-1]` of an empty string lies in front of the buffer
  if strlen buf 0 = 0 then .error .lineBounds
  else .ok { s with commandline := buf.set (strlen buf 0 - 1) 0 }

/-- `interact` in front of `check_redir`. -/
def readLine (s : State) (input : Bytes) : Except Fault (State × Bytes) :=
  match fgets lineSize input with
  | none => .error .assertion
  | some (line, input) => (store s line).map fun s => (s, input)

def interact (s : State) (input : Bytes) : Except Fault (State × Bytes) := do
  let (s, input) ← readLine s input
  return (checkRedir s, input)

def delim (b : UInt8) : Bool := b == 32

def ofToken : Option Nat → Arg
  | none => .null
  | some p => .word p

/-- `while(_argv[i++] = strtok(NULL, DELIM));`, with the `i` it ends with. -/
def splitLoop (buf : Bytes) (save i : Nat) (argv : Nat → Arg) :
    Except Fault (Nat × Bytes × (Nat → Arg)) :=
  if i < argcSize then
    let t := strtok delim buf save
    let argv := Function.update argv i (ofToken t.token)
    if t.token = none then .ok (i + 1, t.buf, argv)
    else splitLoop t.buf t.save (i + 1) argv
  else .error .argvBounds
termination_by argcSize - i

def splitstring (s : State) : Except Fault (Nat × State) :=
  let t := strtok delim s.commandline 0
  let argv := Function.update s.argv 0 (ofToken t.token)
  match splitLoop t.buf t.save 1 argv with
  | .error e => .error e
  | .ok (i, buf, argv) => .ok (i - 1, { s with commandline := buf, argv := argv })

/-- Where the standard output of a process goes. -/
inductive Sink where
  | shell : Sink
  | file : Bytes → Bool → Sink
  deriving DecidableEq, Repr

/-- What a command does outside the shell. `syncStdin` sets the offset of the standard input back
by what the shell has read ahead. -/
inductive Effect where
  | print : Sink → Bytes → Effect
  | chdir : Bytes → Effect
  | setPwd : Effect
  | putenv : Bytes → Effect
  | syncStdin : Effect
  deriving DecidableEq, Repr

/-- What the system answers: variables, the directory `getpwd` finds and what fits over the value
of `PWD`, the output that is still in the shell's buffer, whether a child can be forked and a file
opened the way a redirection does, and what a program prints on standard output and exits with, if
it is found, by its arguments and the file its standard input comes from. -/
structure World where
  getenv : Bytes → Option Bytes
  cwd : Bytes
  fits : Bytes → Bool
  pending : Bytes
  fork : Bool
  opens : Rdir → Bytes → Bool
  execvp : List Bytes → Option Bytes → Option (Bytes × Int)

/-- "cd", "export", "echo", "ls", "$?" and "PWD". -/
def cd : Bytes := ['c', 'd'].map byte
def export' : Bytes := ['e', 'x', 'p', 'o', 'r', 't'].map byte
def echo : Bytes := ['e', 'c', 'h', 'o'].map byte
def ls : Bytes := ['l', 's'].map byte
def status : Bytes := ['$', '?'].map byte
def pwd : Bytes := ['P', 'W', 'D'].map byte

def State.arg (s : State) (i : Nat) : Option Bytes := (s.argv i).text s.commandline
def State.name (s : State) : Option Bytes := s.rdirfilename.map (cstr s.commandline)

/-- The shell when `main` begins. -/
def start : State where
  commandline := List.replicate lineSize 0
  argv _ := .null
  rdirfilename := none
  rdir := .none
  lastcode := 0

/-- `!strcmp(_argv[0], name)`. -/
def strcmpEq (s : State) (name : Bytes) : Except Fault Bool :=
  match s.arg 0 with
  | none => .error .nullPointer
  | some cmd => .ok (cmd == name)

/-- `_argc==2 && !strcmp(_argv[0], name)`. -/
def isBuiltin (s : State) (argc : Nat) (name : Bytes) : Except Fault Bool :=
  if argc = 2 then strcmpEq s name else .ok false

def writeArg (s : State) (i : Nat) (arg : Arg) : Except Fault State :=
  if i < argcSize then .ok { s with argv := Function.update s.argv i arg } else .error .argvBounds

/-- The `echo` branch, for the argument `text`, with `lastcode` behind it. -/
def runEcho (w : World) (lastcode : Int) (text : Bytes) : Int × List Effect :=
  if text = status then (0, [.print .shell ((toString lastcode).toList.map byte ++ [10])])
  else if text.head? = some 36 then
    match w.getenv text.tail with
    | none => (lastcode, [])
    | some val => (lastcode, [.print .shell (val ++ [10])])
  else (lastcode, [.print .shell (text ++ [10])])

/-- `buildcommand`: whether the command was run here, and what it did. -/
def buildcommand (w : World) (s : State) (argc : Nat) :
    Except Fault (Bool × State × List Effect) := do
  if ← isBuiltin s argc cd then
    let dir ← (s.arg 1).elim (.error .nullPointer) .ok
    if w.getenv pwd = none then .error .nullPointer
    else if !w.fits w.cwd then .error .pwdBounds
    else return (true, s, [.chdir dir, .setPwd])
  else if ← isBuiltin s argc export' then
    let text ← (s.arg 1).elim (.error .nullPointer) .ok
    return (true, s, [.putenv text])
  else if ← isBuiltin s argc echo then
    let text ← (s.arg 1).elim (.error .nullPointer) .ok
    let (code, effects) := runEcho w s.lastcode text
    return (true, { s with lastcode := code }, effects)
  else if ← strcmpEq s ls then
    let s ← writeArg s argc .color
    let s ← writeArg s (argc + 1) .null
    return (false, s, [])
  else
    return (false, s, [])

/-- The arguments up to the first null pointer. -/
def arguments (s : State) : List Bytes :=
  ((List.range argcSize).map s.arg).takeWhile Option.isSome |>.filterMap id

/-- The file that the child opens, and `dup2` puts in place. -/
def openedFile (w : World) (rdir : Rdir) (name : Option Bytes) : Option Bytes :=
  name.filter (w.opens rdir)

/-- Descriptor 0 of the child. -/
def childInput (w : World) (rdir : Rdir) (name : Option Bytes) : Option Bytes :=
  match rdir with
  | .inRdir => openedFile w rdir name
  | _ => none

/-- Descriptor 1 of the child. -/
def childOutput (w : World) (rdir : Rdir) (name : Option Bytes) : Sink :=
  match rdir with
  | .outRdir => (openedFile w rdir name).elim .shell fun name => .file name false
  | .appendRdir => (openedFile w rdir name).elim .shell fun name => .file name true
  | _ => .shell

/-- `exit` of the child: its copy of the shell's output is printed, and its copy of the shell's
input given back, unless the child has an input of its own. -/
def exitChild (w : World) (rdir : Rdir) (name : Option Bytes) : List Effect :=
  .print (childOutput w rdir name) w.pending ::
    if (childInput w rdir name).isSome then [] else [.syncStdin]

/-- `fork`, and what the child does: `lastcode` behind it, and what is printed. -/
def child (w : World) (lastcode : Int) (args : List Bytes) (rdir : Rdir) (name : Option Bytes) :
    Int × List Effect :=
  if w.fork then
    match w.execvp args (childInput w rdir name) with
    | none => (exitCode, exitChild w rdir name)
    | some (text, code) => (code, [.print (childOutput w rdir name) text])
  else (lastcode, [])

def normalexcute (w : World) (s : State) : State × List Effect :=
  let (code, effects) := child w s.lastcode (arguments s) s.rdir s.name
  ({ s with lastcode := code }, effects)

/-- The loop of `main` behind `interact`. -/
def execute (w : World) (s : State) : Except Fault (State × List Effect) := do
  let (argc, s) ← splitstring s
  if argc = 0 then return (s, [])
  else
    let (n, s, effects) ← buildcommand w s argc
    if n then return (s, effects)
    else
      let (s, effects') := normalexcute w s
      return (s, effects ++ effects')

/-- One turn of the loop of `main`. -/
def turn (w : World) (s : State) (input : Bytes) :
    Except Fault (State × List Effect × Bytes) := do
  let s := { s with rdirfilename := none, rdir := .none }
  let (s, input) ← interact s input
  let (s, effects) ← execute w s
  return (s, effects, input)

end Shell
