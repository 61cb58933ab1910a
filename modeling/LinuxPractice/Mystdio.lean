import LinuxPractice.Buffering
import LinuxPractice.CppString
import LinuxPractice.Transition

/-!
# Mystdio: a buffered output file

`Mystdio.c`. A call that touches memory outside `outbuffer` has no result.
`write` is taken to transfer all it is given.
-/
namespace Mystdio

open CppString Transition Transition.System Buffering

/-- `SIZE`. -/
def size : Nat := 1024

def flushNow : UInt32 := 1
def flushLine : UInt32 := 2
def flushAll : UInt32 := 4

/-- `_FILE`, with the array of its declared length. -/
structure File where
  fileno : Int
  flag : UInt32
  outbuffer : Bytes
  outPos : Nat
  length_eq : outbuffer.length = size

/-- One call of `write`. -/
structure Write where
  fileno : Int
  bytes : Bytes
  deriving DecidableEq, Repr

/-- The bytes of several writes. -/
def bytes (ws : List Write) : Bytes := ws.flatMap Write.bytes

@[simp] theorem bytes_nil : bytes [] = [] := rfl

@[simp] theorem bytes_cons (w : Write) (ws : List Write) : bytes (w :: ws) = w.bytes ++ bytes ws :=
  rfl

@[simp] theorem bytes_append (ws us : List Write) : bytes (ws ++ us) = bytes ws ++ bytes us := by
  simp [bytes]

def oRdonly : Nat := 0
def oWronly : Nat := 1
def oCreat : Nat := 64
def oTrunc : Nat := 512
def oAppend : Nat := 1024

def fileMode : Nat := 438

/-- What `_fopen` gets from the system: the descriptor of an `open` with these flags and mode, and
the memory of `outbuffer` in the block that `malloc` returns, if it returns one. -/
structure Env where
  opens : Bytes → Nat → Option Nat → Int
  malloc : Option { block : Bytes // block.length = size }

/-- The descriptor; the mode strings are "w", "a" and "r". -/
def openMode (env : Env) (filename flag : Bytes) : Option Int :=
  if flag = [119] then some (env.opens filename (oCreat ||| oWronly ||| oTrunc) (some fileMode))
  else if flag = [97] then
    some (env.opens filename (oCreat ||| oWronly ||| oAppend) (some fileMode))
  else if flag = [114] then some (env.opens filename oRdonly none)
  else none

/-- A file with an empty buffer. -/
def File.fresh (fd : Int) (flag : UInt32) (block : { block : Bytes // block.length = size }) :
    File where
  fileno := fd
  flag := flag
  outbuffer := block.1
  outPos := 0
  length_eq := block.2

def fopen (env : Env) (filename flag : Bytes) : Option File :=
  match openMode env filename flag with
  | none => none
  | some fd =>
    if fd = -1 then none
    else
      match env.malloc with
      | none => none
      | some block => some (File.fresh fd flushAll block)

/-- `memcpy(&fp->outbuffer[fp->out_pos], s, len); fp->out_pos += len;` -/
def File.store (fp : File) (s : Bytes) : Option File :=
  if h : fp.outPos + s.length ≤ size then
    some { fp with
      outbuffer := fp.outbuffer.take fp.outPos ++ s ++ fp.outbuffer.drop (fp.outPos + s.length)
      outPos := fp.outPos + s.length
      length_eq := by
        have hlen := fp.length_eq
        simp
        omega }
  else none

/-- `write(fp->fileno, fp->outbuffer, fp->out_pos); fp->out_pos = 0;` -/
def File.handOver (fp : File) : File × List Write :=
  ({ fp with outPos := 0 }, [⟨fp.fileno, fp.outbuffer.take fp.outPos⟩])

/-- The file, what it wrote and the value returned. -/
def fwrite (fp : File) (s : Bytes) : Option (File × List Write × Nat) :=
  match fp.store s with
  | none => none
  | some fp =>
    if fp.flag &&& flushNow ≠ 0 then
      let (fp, ws) := fp.handOver
      some (fp, ws, s.length)
    else if fp.flag &&& flushLine ≠ 0 then
      match fp.outPos with
      | 0 => none
      | last + 1 =>
        if fp.outbuffer[last]? = some 10 then
          let (fp, ws) := fp.handOver
          some (fp, ws, s.length)
        else some (fp, [], s.length)
    else if fp.flag &&& flushAll ≠ 0 then
      if fp.outPos = size then
        let (fp, ws) := fp.handOver
        some (fp, ws, s.length)
      else some (fp, [], s.length)
    else some (fp, [], s.length)

def fflush (fp : File) : File × List Write := if fp.outPos > 0 then fp.handOver else (fp, [])

/-- What `_fclose` writes before it closes and frees. -/
def fclose (fp : File) : List Write := (fflush fp).2

inductive Call where
  | fwrite : Bytes → Call
  | fflush : Call
  deriving DecidableEq, Repr

/-- The bytes a call brings. -/
@[simp] def Call.data : Call → Bytes
  | .fwrite s => s
  | .fflush => []

/-- `outside` is set by a call that leaves `outbuffer`; there are no calls after it. -/
structure State where
  file : File
  written : List Write
  outside : Bool

def start (fp : File) : State := ⟨fp, [], false⟩

/-- The state after a call that left the file so and wrote this. -/
def State.after (s : State) (result : File × List Write) : State :=
  { s with file := result.1, written := s.written ++ result.2 }

def step (s : State) (c : Call) : Option State :=
  if s.outside then none
  else
    match c with
    | .fwrite data =>
      match fwrite s.file data with
      | none => some { s with outside := true }
      | some (fp, ws, _) => some (s.after (fp, ws))
    | .fflush => some (s.after (fflush s.file))

def session (fp : File) : System State Call where
  init := start fp
  step := step

/-- `outbuffer[0 .. out_pos)`. -/
def File.pending (fp : File) : Bytes := fp.outbuffer.take fp.outPos

def State.sink (s : State) : Sink UInt8 := ⟨s.written.map Write.bytes, s.file.pending⟩

variable {fp fp' : File} {s t : State} {data : Bytes}

theorem store_eq_some (h : fp.store data = some fp') :
    fp'.outPos = fp.outPos + data.length ∧ fp'.pending = fp.pending ++ data ∧
      fp'.fileno = fp.fileno ∧ fp'.flag = fp.flag := by
  unfold File.store at h
  split at h
  · rename_i hfit
    cases h
    have hlen := fp.length_eq
    refine ⟨rfl, ?_, rfl, rfl⟩
    have hfront : (fp.outbuffer.take fp.outPos ++ data).length = fp.outPos + data.length := by
      simp
      omega
    simp only [File.pending]
    rw [← hfront, List.take_left]
  · cases h

theorem store_eq_none : fp.store data = none ↔ size < fp.outPos + data.length := by
  unfold File.store
  split <;> simp <;> omega

/-- `_fwrite` stores, and hands the buffer over or not. -/
theorem fwrite_cases {ws : List Write} {n : Nat} (h : fwrite fp data = some (fp', ws, n)) :
    ∃ stored, fp.store data = some stored ∧ n = data.length ∧
      ((fp', ws) = (stored, []) ∨ (fp', ws) = stored.handOver) := by
  unfold fwrite at h
  cases hstore : fp.store data with
  | none => simp [hstore] at h
  | some stored =>
    simp only [hstore] at h
    refine ⟨stored, rfl, ?_⟩
    split at h
    · cases h
      exact ⟨rfl, .inr rfl⟩
    split at h
    · split at h
      · cases h
      · split at h <;> cases h
        · exact ⟨rfl, .inr rfl⟩
        · exact ⟨rfl, .inl rfl⟩
    split at h
    · split at h <;> cases h
      · exact ⟨rfl, .inr rfl⟩
      · exact ⟨rfl, .inl rfl⟩
    · cases h
      exact ⟨rfl, .inl rfl⟩

/-- A non-empty range that fits is taken in every mode. -/
theorem fwrite_isSome (hdata : data ≠ []) (hfit : fp.outPos + data.length ≤ size) :
    (fwrite fp data).isSome = true := by
  have hlen : 0 < data.length := List.length_pos_iff.mpr hdata
  cases hstore : fp.store data with
  | none =>
    have hover := store_eq_none.mp hstore
    omega
  | some stored =>
    have hpos := (store_eq_some hstore).1
    obtain ⟨last, hlast⟩ := Nat.exists_eq_add_one.mpr (show 0 < stored.outPos by omega)
    simp only [fwrite, hstore, hlast]
    split
    · rfl
    split
    · split <;> rfl
    split
    · split <;> rfl
    · rfl

/-- With FLUSH_ALL the buffer is handed over at the one level `size`. -/
theorem fwrite_all (hflag : fp.flag = flushAll) :
    fwrite fp data = (fp.store data).map fun stored =>
      if stored.outPos = size then (stored.handOver.1, stored.handOver.2, data.length)
      else (stored, [], data.length) := by
  unfold fwrite
  cases hstore : fp.store data with
  | none => rfl
  | some stored =>
    have hkeep : stored.flag = flushAll := (store_eq_some hstore).2.2.2.trans hflag
    have hnow : ¬ flushAll &&& flushNow ≠ 0 := by decide
    have hline : ¬ flushAll &&& flushLine ≠ 0 := by decide
    have hall : flushAll &&& flushAll ≠ 0 := by decide
    simp only [hkeep, hnow, hline, if_false, Option.map_some]
    rw [if_pos hall]
    split <;> rfl

theorem sink_handOver :
    (s.after fp.handOver).sink = Sink.flush ⟨s.written.map Write.bytes, fp.pending⟩ := by
  simp [State.sink, State.after, File.handOver, File.pending, Sink.flush]

theorem sink_kept : (s.after (fp, [])).sink = ⟨s.written.map Write.bytes, fp.pending⟩ := by
  simp [State.sink, State.after]

/-- The file does what a buffer does, and the mode only decides when to hand over. -/
theorem step_sink {c : Call} (h : step s c = some t) (hin : t.outside = false) :
    ∃ handOver, t.sink = s.sink.put c.data handOver := by
  unfold step at h
  split at h
  · cases h
  cases c with
  | fwrite data =>
    simp only at h
    split at h <;> cases h
    · cases hin
    · rename_i fp ws n hwrite
      obtain ⟨stored, hstore, -, hcases⟩ := fwrite_cases hwrite
      have hpending := (store_eq_some hstore).2.1
      cases hcases with
      | inl hkept =>
        rw [hkept, sink_kept, hpending]
        exact ⟨false, rfl⟩
      | inr hover =>
        rw [hover, sink_handOver, hpending]
        exact ⟨true, rfl⟩
  | fflush =>
    simp only at h
    cases h
    by_cases hpos : s.file.outPos > 0
    · rw [fflush, if_pos hpos, sink_handOver]
      exact ⟨true, by simp [State.sink, Sink.put]⟩
    · rw [fflush, if_neg hpos, sink_kept]
      exact ⟨false, by simp [State.sink, Sink.put]⟩

theorem sink_total (s : State) : s.sink.total = bytes s.written ++ s.file.pending := by
  simp [Sink.total, State.sink, bytes, List.flatMap_def]

theorem fclose_eq (fp : File) : bytes (fclose fp) = fp.pending := by
  by_cases hpos : fp.outPos > 0
  · simp [fclose, fflush, hpos, File.handOver, File.pending]
  · have hzero : fp.outPos = 0 := by omega
    simp [fclose, fflush, File.pending, hzero]

/-- Non-empty and fitting in the space that is left. -/
def Fits (s : State) : Call → Prop
  | .fwrite data => data ≠ [] ∧ s.file.outPos + data.length ≤ size
  | .fflush => True

theorem exists_step (hin : s.outside = false) (c : Call) : ∃ t, step s c = some t := by
  cases c with
  | fwrite data =>
    cases hwrite : fwrite s.file data with
    | none => exact ⟨{ s with outside := true }, by simp [step, hin, hwrite]⟩
    | some result => exact ⟨s.after (result.1, result.2.1), by simp [step, hin, hwrite]⟩
  | fflush => exact ⟨s.after (fflush s.file), by simp [step, hin]⟩

theorem Fits.step {c : Call} (hfit : Fits s c) (hin : s.outside = false) (h : step s c = some t) :
    t.outside = false := by
  cases c with
  | fwrite data =>
    obtain ⟨result, hwrite⟩ := Option.isSome_iff_exists.mp (fwrite_isSome hfit.1 hfit.2)
    simp [Mystdio.step, hin, hwrite] at h
    simp [← h, State.after, hin]
  | fflush =>
    simp [Mystdio.step, hin] at h
    simp [← h, State.after, hin]

/-- A session of fitting calls is a sequence of puts. -/
theorem run_sink {calls : List Call} (hin : s.outside = false)
    (hfit : (session fp).Admits Fits s calls) :
    ∃ t puts, (session fp).run s calls = some t ∧ t.sink = s.sink.puts puts ∧
      (puts.map Prod.fst).flatten = calls.flatMap Call.data ∧ t.outside = false := by
  induction calls generalizing s with
  | nil => exact ⟨s, [], rfl, rfl, rfl, hin⟩
  | cons c calls ih =>
    obtain ⟨u, hu⟩ := exists_step hin c
    obtain ⟨hc, hrest⟩ := hfit u hu
    have hinu := hc.step hin hu
    obtain ⟨handOver, hsink⟩ := step_sink hu hinu
    obtain ⟨t, puts, hrun, hputs, hdata, hint⟩ := ih hinu hrest
    refine ⟨t, (c.data, handOver) :: puts, ?_, ?_, ?_, hint⟩
    · simp [run, session, hu]
      exact hrun
    · simp [hputs, hsink]
    · simp [hdata]

/-- Whatever the flag, and wherever `_fflush` is called: what `write` gets up to and including
`_fclose` is what the calls of `_fwrite` brought, in order. -/
theorem buffered_eq_direct (fd : Int) (flag : UInt32)
    (block : { block : Bytes // block.length = size }) {calls : List Call}
    (hfit : (session (File.fresh fd flag block)).Admits Fits (start (File.fresh fd flag block))
      calls) :
    ∃ t, (session (File.fresh fd flag block)).run (start (File.fresh fd flag block)) calls =
        some t ∧
      t.outside = false ∧ bytes (t.written ++ fclose t.file) = calls.flatMap Call.data := by
  obtain ⟨t, puts, hrun, hputs, hdata, hin⟩ := run_sink rfl hfit
  refine ⟨t, hrun, hin, ?_⟩
  have hempty : (start (File.fresh fd flag block)).sink.total = [] := by
    simp [sink_total, start, File.fresh, File.pending]
  rw [bytes_append, fclose_eq, ← sink_total, hputs, Sink.total_puts, hempty, hdata,
    List.nil_append]

/-- Memory as `malloc` may leave it. -/
def zeros : { block : Bytes // block.length = size } := ⟨List.replicate size 0, by simp⟩

/-- "hello world!\n". -/
def hello : Bytes := [104, 101, 108, 108, 111, 32, 119, 111, 114, 108, 100, 33, 10]

/-- With FLUSH_ALL a range that does not fill the buffer waits in it. -/
theorem step_waits (hin : s.outside = false) (hflag : s.file.flag = flushAll)
    (hfit : s.file.outPos + data.length < size) (h : step s (.fwrite data) = some t) :
    t.outside = false ∧ t.file.flag = flushAll ∧ t.file.outPos = s.file.outPos + data.length ∧
      t.written = s.written := by
  cases hstore : s.file.store data with
  | none => exact absurd (store_eq_none.mp hstore) (by omega)
  | some stored =>
    obtain ⟨hpos, -, -, hkeep⟩ := store_eq_some hstore
    have hroom : stored.outPos ≠ size := by omega
    simp only [step, hin, Bool.false_eq_true, if_false, fwrite_all hflag, hstore, Option.map_some,
      hroom] at h
    cases h
    exact ⟨hin, hkeep.trans hflag, hpos, List.append_nil _⟩

/-- Nothing of what two calls bring is written before the file is closed. -/
theorem buffered_eq_direct_two :
    ∃ t, (session (File.fresh 3 flushAll zeros)).run (start (File.fresh 3 flushAll zeros))
        [.fwrite hello, .fwrite hello] = some t ∧
      t.written = [] ∧ t.outside = false ∧ bytes (t.written ++ fclose t.file) = hello ++ hello := by
  have hfirst : ∀ t, step (start (File.fresh 3 flushAll zeros)) (.fwrite hello) = some t →
      t.outside = false ∧ t.file.flag = flushAll ∧ t.file.outPos = 0 + hello.length ∧
        t.written = [] := fun t ht => step_waits rfl rfl (by decide) ht
  have hroom : 0 + hello.length + hello.length < size := by decide
  have hfit : (session (File.fresh 3 flushAll zeros)).Admits Fits
      (start (File.fresh 3 flushAll zeros)) [.fwrite hello, .fwrite hello] := by
    intro t ht
    obtain ⟨-, -, hpos, -⟩ := hfirst t ht
    refine ⟨⟨by decide, by decide⟩, fun u hu => ⟨⟨by decide, ?_⟩, trivial⟩⟩
    rw [hpos]
    exact hroom.le
  obtain ⟨u, hrun, hout, hbytes⟩ := buffered_eq_direct 3 flushAll zeros hfit
  refine ⟨u, hrun, ?_, hout, hbytes⟩
  obtain ⟨t, ht, hrest⟩ := Option.bind_eq_some_iff.mp hrun
  obtain ⟨v, hv, hlast⟩ := Option.bind_eq_some_iff.mp hrest
  cases hlast
  obtain ⟨hin, hflag, hpos, hwritten⟩ := hfirst t ht
  rw [(step_waits hin hflag (by rw [hpos]; exact hroom) hv).2.2.2, hwritten]

end Mystdio
