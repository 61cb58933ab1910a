import LinuxPractice.CBuffer
import LinuxPractice.Dictionary
import LinuxPractice.Transition

/-!
# Log: what its files hold

`Log.hpp`, which most programs here have a copy of, called by any number of
processes that share a directory. An entry goes out in one `write` to a file
opened for appending, so that entries do not mix. Assumed of `write`: it takes
the whole of an entry.
-/
namespace LogFiles

open CppString Dictionary Transition Transition.System

/-- `SIZE`. -/
def size : Nat := 1024

/-- Screen, Onefile and Classfile. -/
def screen : Int32 := 1
def onefile : Int32 := 2
def classfile : Int32 := 3

/-- "log.txt" -/
def logFile : Bytes := [108, 111, 103, 46, 116, 120, 116]

/-- Info, Debug, Warning, Error and Fatal; "No" for anything else. -/
def levelToString (level : Int32) : Bytes :=
  if level = 0 then [73, 110, 102, 111]
  else if level = 1 then [68, 101, 98, 117, 103]
  else if level = 2 then [87, 97, 114, 110, 105, 110, 103]
  else if level = 3 then [69, 114, 114, 111, 114]
  else if level = 4 then [70, 97, 116, 97, 108]
  else [78, 111]

/-- What `ctime` says, with the year and the month as they are printed. -/
structure Time where
  year : Int32
  mon : Int32
  mday : Int32
  hour : Int32
  min : Int32
  sec : Int32
  deriving DecidableEq, Repr

/-- `%d-%d-%d %d:%d:%d`. -/
def Time.text (t : Time) : Bytes :=
  toStringInt t.year ++ [45] ++ toStringInt t.mon ++ [45] ++ toStringInt t.mday ++ [32] ++
    toStringInt t.hour ++ [58] ++ toStringInt t.min ++ [58] ++ toStringInt t.sec

/-- A call; `message` is what the format and its arguments come to. -/
structure Entry where
  level : Int32
  time : Time
  message : Bytes
  deriving DecidableEq, Repr

/-- `snprintf` into a buffer of `n` bytes. -/
def snprintf (n : Nat) (text : Bytes) : Bytes := text.take (n - 1)

def leftbuffer (e : Entry) : Bytes :=
  snprintf size ([91] ++ levelToString e.level ++ [93, 91] ++ e.time.text ++ [93])

/-- As `%s` reads it. -/
def rightbuffer (e : Entry) : Bytes := CBuffer.cstr (snprintf size e.message) 0

/-- The two functions that log differ in the size of `logtxt`. -/
def logtxt (n : Nat) (e : Entry) : Bytes :=
  snprintf n (leftbuffer e ++ [32] ++ rightbuffer e ++ [newline])

def logmessage : Entry → Bytes := logtxt (size * 2 + 4)

/-- `operator()`. -/
def call : Entry → Bytes := logtxt (size * 2 + 10)

/-- The file of `printClassFile`. -/
def classFile (level : Int32) : Bytes := logFile ++ [46] ++ levelToString level

/-- Where `printLog` puts a text: to the screen of a process, or into a file. -/
inductive Target (P : Type) where
  | cout : P → Target P
  | file : Bytes → Target P
  deriving DecidableEq, Repr

structure State (P : Type) where
  printMethod : P → Int32
  cout : P → Bytes
  files : Bytes → Bytes

/-- `Enable`, or a call of either function, where the file, if there is one, can be opened or
not. -/
inductive Action (P : Type) where
  | enable : P → Int32 → Action P
  | logmessage : P → Entry → Bool → Action P
  | call : P → Entry → Bool → Action P
  deriving DecidableEq, Repr

section Model

variable {P : Type} [DecidableEq P]

/-- The directory as the processes find it. -/
def init (P : Type) (files : Bytes → Bytes) : State P := ⟨fun _ => screen, fun _ => [], files⟩

/-- `printLog` up to the `open`. -/
def target (s : State P) (p : P) (level : Int32) (opened : Bool) : Option (Target P) :=
  if s.printMethod p = screen then some (.cout p)
  else if s.printMethod p = onefile then if opened then some (.file logFile) else none
  else if s.printMethod p = classfile then if opened then some (.file (classFile level)) else none
  else none

def State.put (s : State P) (text : Bytes) : Option (Target P) → State P
  | some (.cout p) => { s with cout := Function.update s.cout p (s.cout p ++ text) }
  | some (.file name) => { s with files := Function.update s.files name (s.files name ++ text) }
  | none => s

def step (s : State P) : Action P → Option (State P)
  | .enable p method => some { s with printMethod := Function.update s.printMethod p method }
  | .logmessage p e opened => some (s.put (logmessage e) (target s p e.level opened))
  | .call p e opened => some (s.put (call e) (target s p e.level opened))

def system (P : Type) [DecidableEq P] (files : Bytes → Bytes) : System (State P) (Action P) where
  init := init P files
  step := step

/-- An entry, and where it goes. -/
def event (s : State P) : Action P → Option (Target P × Entry)
  | .enable _ _ => none
  | .logmessage p e opened | .call p e opened => (target s p e.level opened).map fun t => (t, e)

/-- The entries that went to a target, in order. -/
def routed (log : List (Target P × Entry)) (t : Target P) : List Entry :=
  log.filterMap fun p => if p.1 = t then some p.2 else none

end Model

/-- An entry as it is written. -/
def Entry.text (e : Entry) : Bytes :=
  [91] ++ levelToString e.level ++ [93, 91] ++ e.time.text ++ [93, 32] ++ rightbuffer e ++ [newline]

theorem length_levelToString_le (level : Int32) : (levelToString level).length ≤ 7 := by
  unfold levelToString
  split_ifs <;> decide

theorem Time.length_text_le (t : Time) : t.text.length ≤ 71 := by
  have h := length_toStringInt
  have h1 := h t.year
  have h2 := h t.mon
  have h3 := h t.mday
  have h4 := h t.hour
  have h5 := h t.min
  have h6 := h t.sec
  simp only [text, List.length_append, List.length_singleton]
  omega

theorem length_rightbuffer_le (e : Entry) : (rightbuffer e).length ≤ 1023 := by
  have hlen := (List.takeWhile_sublist (· != 0) (l := snprintf size e.message)).length_le
  simp only [snprintf, size, List.length_take] at hlen
  simp only [rightbuffer, CBuffer.cstr, snprintf, size, List.drop_zero]
  omega

/-- Neither of the buffers in front cuts anything off but the end of a long message. -/
theorem logtxt_eq {n : Nat} (hn : size * 2 + 4 ≤ n) (e : Entry) : logtxt n e = e.text := by
  have hlevel := length_levelToString_le e.level
  have htime := e.time.length_text_le
  have hright := length_rightbuffer_le e
  have hleft : leftbuffer e = [91] ++ levelToString e.level ++ [93, 91] ++ e.time.text ++ [93] := by
    apply List.take_of_length_le
    simp only [List.length_append, List.length_cons, List.length_nil, size]
    omega
  rw [logtxt, hleft, snprintf, List.take_of_length_le]
  · simp [Entry.text]
  · simp only [List.length_append, List.length_cons, List.length_nil]
    simp only [size] at hn
    omega

theorem logmessage_eq (e : Entry) : logmessage e = e.text := logtxt_eq (Nat.le_refl _) e

theorem call_eq (e : Entry) : call e = e.text := logtxt_eq (by decide) e

/-- The level, the time and the message of a line. -/
def readEntry (line : Bytes) : Bytes × Bytes × Bytes :=
  let level := (line.drop 1).takeWhile (· != 93)
  let rest := ((line.drop 1).dropWhile (· != 93)).drop 2
  (level, rest.takeWhile (· != 93), (rest.dropWhile (· != 93)).drop 2)

/-- What can be known of an entry that was written. -/
def Entry.fields (e : Entry) : Bytes × Bytes × Bytes :=
  (levelToString e.level, e.time.text, rightbuffer e)

theorem not_mem_levelToString {b : UInt8} (hb : b = 93 ∨ b = newline) (level : Int32) :
    b ∉ levelToString level := by
  unfold levelToString
  rcases hb with rfl | rfl <;> split_ifs <;> decide

theorem Time.not_mem_text {b : UInt8} (hb : b = 93 ∨ b = newline) (t : Time) : b ∉ t.text := by
  have hnumber : ∀ x, b ∉ toStringInt x := by
    intro x
    rcases hb with rfl | rfl
    · exact not_mem_toStringInt (by decide) (by decide) x
    · exact not_mem_toStringInt (by decide) (by decide) x
  simp only [text, List.mem_append, List.mem_singleton, hnumber, or_false, false_or, not_or]
  rcases hb with rfl | rfl <;> decide

/-- The line of an entry. -/
def Entry.line (e : Entry) : Bytes :=
  [91] ++ levelToString e.level ++ [93, 91] ++ e.time.text ++ [93, 32] ++ rightbuffer e

theorem readEntry_line (e : Entry) : readEntry e.line = e.fields := by
  have hlevel : (93 : UInt8) ∉ levelToString e.level := not_mem_levelToString (.inl rfl) _
  have htime : (93 : UInt8) ∉ e.time.text := e.time.not_mem_text (.inl rfl)
  have hline : e.line.drop 1 =
      levelToString e.level ++ 93 :: 91 :: (e.time.text ++ 93 :: 32 :: rightbuffer e) := by
    simp [Entry.line]
  simp only [readEntry, hline, takeWhile_ne hlevel, dropWhile_ne hlevel, List.drop_succ_cons,
    List.drop_zero, takeWhile_ne htime, dropWhile_ne htime, Entry.fields]

theorem Entry.newline_not_mem_line (e : Entry) (h : newline ∉ e.message) : newline ∉ e.line := by
  have hright : newline ∉ rightbuffer e := fun hmem =>
    h (List.mem_of_mem_take ((List.takeWhile_sublist _).subset hmem))
  simp only [line, List.mem_append, not_or]
  refine ⟨⟨⟨⟨⟨?_, not_mem_levelToString (.inr rfl) _⟩, ?_⟩, e.time.not_mem_text (.inr rfl)⟩, ?_⟩,
    hright⟩ <;> decide

/-- Messages without an end of line are told apart. -/
theorem lines_entries {es : List Entry} (h : ∀ e ∈ es, newline ∉ e.message) :
    lines (es.flatMap Entry.text) = es.map Entry.line := by
  induction es with
  | nil => rfl
  | cons e es ih =>
    rw [List.forall_mem_cons] at h
    have htext : e.text = e.line ++ [newline] := rfl
    rw [List.flatMap_cons, htext, List.append_assoc, List.singleton_append,
      lines_line (e.newline_not_mem_line h.1), ih h.2]
    rfl

variable {P : Type} [DecidableEq P] {files : Bytes → Bytes} {s t : State P}
  {log : List (Target P × Entry)}

/-- A file named after a level has nothing of another one. -/
def Sorted (log : List (Target P × Entry)) : Prop :=
  ∀ p ∈ log, ∀ level, p.1 = .file (classFile level) →
    levelToString p.2.level = levelToString level

structure Kept (files : Bytes → Bytes) (s : State P) (log : List (Target P × Entry)) : Prop where
  files : ∀ name, s.files name = files name ++ (routed log (.file name)).flatMap Entry.text
  cout : ∀ p, s.cout p = (routed log (.cout p)).flatMap Entry.text
  sorted : Sorted log

theorem kept_init (files : Bytes → Bytes) : Kept files (init P files) [] where
  files := by simp [init, routed]
  cout := by simp [init, routed]
  sorted := by simp [Sorted]

theorem classFile_ne (level : Int32) : classFile level ≠ logFile := by
  intro h
  have hlen := congrArg List.length h
  simp [classFile] at hlen

omit [DecidableEq P] in
theorem target_sorted {p : P} {e : Entry} {opened : Bool} {d : Target P}
    (h : target s p e.level opened = some d) {level : Int32}
    (hd : d = .file (classFile level)) : levelToString e.level = levelToString level := by
  subst hd
  unfold target at h
  split_ifs at h
  · simp at h
  · simp only [Option.some.injEq, Target.file.injEq] at h
    exact absurd h.symm (classFile_ne level)
  · simpa [classFile] using h

theorem routed_append (log : List (Target P × Entry)) (d : Target P) (e : Entry) (t : Target P) :
    routed (log ++ [(d, e)]) t = routed log t ++ if d = t then [e] else [] := by
  by_cases h : d = t <;> simp [routed, h]

theorem Kept.put {p : P} {e : Entry} {opened : Bool} (hi : Kept files s log) :
    Kept files (s.put e.text (target s p e.level opened))
      (log ++ ((target s p e.level opened).map fun t => (t, e)).toList) := by
  cases hd : target s p e.level opened with
  | none => simpa [State.put] using hi
  | some d =>
    simp only [Option.map_some, Option.toList_some]
    refine ⟨fun name => ?_, fun q => ?_, ?_⟩
    · rw [routed_append]
      cases d with
      | cout q => simpa [State.put] using hi.files name
      | file other =>
        by_cases hn : name = other
        · subst hn
          simp [State.put, hi.files name]
        · simpa [State.put, hn, Ne.symm hn] using hi.files name
    · rw [routed_append]
      cases d with
      | cout other =>
        by_cases hq : q = other
        · subst hq
          simp [State.put, hi.cout q]
        · simpa [State.put, hq, Ne.symm hq] using hi.cout q
      | file name => simpa [State.put] using hi.cout q
    · intro q hq level
      rcases List.mem_append.mp hq with hq | hq
      · exact hi.sorted q hq level
      · rw [List.mem_singleton.mp hq]
        exact target_sorted hd

theorem Kept.step {a : Action P} (hi : Kept files s log) (h : step s a = some t) :
    Kept files t (log ++ (event s a).toList) := by
  cases a with
  | enable p method =>
    cases h
    simp only [event, Option.toList_none, List.append_nil]
    exact ⟨hi.files, hi.cout, hi.sorted⟩
  | logmessage p e opened =>
    cases h
    rw [logmessage_eq]
    exact hi.put
  | call p e opened =>
    cases h
    rw [call_eq]
    exact hi.put

theorem kept (h : ((system P files).logged event).Reachable anyStep (s, log)) :
    Kept files s log :=
  logged_invariant h (kept_init files) fun _ _ _ _ hi hs => hi.step hs

/-- After any calls of any processes in any order, a file holds what it held and then the entries
that went there, whole and in order; a file of a level has only entries of that level; and if the
file was new, its lines say the level, the time and what `rightbuffer` held of the message of each
of these entries, as long as no message has an end of line. -/
theorem entries_read_back (h : ((system P files).logged event).Reachable anyStep (s, log)) :
    (∀ name, s.files name = files name ++ (routed log (.file name)).flatMap Entry.text) ∧
      (∀ level, ∀ e ∈ routed log (.file (classFile level)),
        levelToString e.level = levelToString level) ∧
      ∀ name, files name = [] → (∀ e ∈ routed log (.file name), newline ∉ e.message) →
        (lines (s.files name)).map readEntry = (routed log (.file name)).map Entry.fields := by
  have hi := kept h
  refine ⟨hi.files, ?_, ?_⟩
  · intro level e he
    obtain ⟨p, hp, hpe⟩ := List.mem_filterMap.mp he
    split at hpe <;> cases hpe
    exact hi.sorted p hp level ‹_›
  · intro name hnew hline
    rw [hi.files name, hnew, List.nil_append, lines_entries hline, List.map_map]
    exact List.map_congr_left fun e _ => readEntry_line e

/-- Two processes, each with its own method. -/
def twoCalls : List (Action Bool) :=
  let e : Entry := ⟨3, ⟨2023, 5, 1, 12, 0, 7⟩, [97, 93, 98]⟩
  [.enable true classfile, .enable false onefile, .call true e true, .call false e true,
    .logmessage true e false, .logmessage true { e with message := [99] } true]

def twoCallsEnd : State Bool × List (Target Bool × Entry) :=
  (((system Bool fun _ => []).logged event).run (init Bool fun _ => [], []) twoCalls).get
    (by decide)

theorem entries_read_back_two :
    (routed twoCallsEnd.2 (.file (classFile 3))).length = 2 ∧
      (lines (twoCallsEnd.1.files (classFile 3))).map readEntry =
        (routed twoCallsEnd.2 (.file (classFile 3))).map Entry.fields :=
  have hrun : (((system Bool fun _ => []).logged event).run (init Bool fun _ => [], [])
      twoCalls).isSome := by decide
  have hreach : ((system Bool fun _ => []).logged event).Reachable anyStep
      (twoCallsEnd.1, twoCallsEnd.2) := reachable_of_run hrun
  ⟨by decide, (entries_read_back hreach).2.2 _ rfl (by decide)⟩

end LogFiles
