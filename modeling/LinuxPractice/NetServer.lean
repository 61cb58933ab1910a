import LinuxPractice.NetProtocol

/-!
# The NetCalculator server

`ServerCal.hpp` and the per-connection loop of `TcpServer::Start`. An exception
nobody catches ends the session process, so every call either returns or says
what it dies of. What the compiled program does on `int` arithmetic that C++
leaves undefined is the parameter `undef`: it yields some `int` or stops.
-/
namespace NetServer

open CppString NetProtocol

/-- How a session process can end before the connection does. -/
inductive Death where
  | uncaught : Exception → Death
  | arithmetic : Death
  | bufferOverrun : Death
  deriving DecidableEq, Repr

/-- The value of undefined `int` arithmetic, or `none` when it traps. -/
abbrev Undefined := Request → Option Int32

/-- The code g++ emits on x86-64: sums and products wrap, the division traps. -/
def wrapOrTrap : Undefined := fun r =>
  if r.op = 43 then some (r.x + r.y)
  else if r.op = 45 then some (r.x - r.y)
  else if r.op = 42 then some (r.x * r.y)
  else none

/-- DIV_ZERO, MODE_ZERO and OTHER_OPER. -/
def divZero : Int32 := 1
def modeZero : Int32 := 2
def otherOper : Int32 := 3

/-- The exact value `v` where the operation is defined, else what `undef` says. -/
def intResult (undef : Undefined) (req : Request) (defined : Bool) (v : Int) : Except Death Int32 :=
  if defined then .ok (Int32.ofInt v)
  else
    match undef req with
    | some w => .ok w
    | none => .error .arithmetic

/-- The switch falls from `'%'` into the default case. -/
def calculatorHelper (undef : Undefined) (req : Request) : Except Death Response :=
  let x := req.x.toInt
  let y := req.y.toInt
  if req.op = 43 then do
    let v ← intResult undef req (InInt (x + y)) (x + y)
    return ⟨v, 0⟩
  else if req.op = 45 then do
    let v ← intResult undef req (InInt (x - y)) (x - y)
    return ⟨v, 0⟩
  else if req.op = 42 then do
    let v ← intResult undef req (InInt (x * y)) (x * y)
    return ⟨v, 0⟩
  else if req.op = 47 then
    if y = 0 then return ⟨0, divZero⟩
    else do
      let v ← intResult undef req (InInt (x.tdiv y)) (x.tdiv y)
      return ⟨v, 0⟩
  else if req.op = 37 then do
    let resp : Response ←
      if y = 0 then pure ⟨0, modeZero⟩
      else do
        let v ← intResult undef req (InInt (x.tdiv y)) (x.tmod y)
        pure ⟨v, 0⟩
    return { resp with code := otherOper }
  else return ⟨0, otherOper⟩

/-- `Request req;` leaves the members unset; they are read only once all are assigned. -/
def unsetRequest : Request := ⟨0, 0, 0⟩

/-- The string `Calculator` returns and the package it leaves. -/
def calculator (undef : Undefined) (package : Bytes) : Except Death (Bytes × Bytes) :=
  match decode package [] with
  | .error e => .error (.uncaught e)
  | .ok ⟨false, package, _⟩ => .ok ([], package)
  | .ok ⟨true, package, content⟩ =>
    match unsetRequest.deserialize content with
    | (.error e, _) => .error (.uncaught e)
    | (.ok false, _) => .ok ([], package)
    | (.ok true, req) =>
      match calculatorHelper undef req with
      | .error d => .error d
      | .ok resp => .ok (encode resp.serialize, package)

/-- One connection: the unread bytes, the strings handed to `write` in order,
and what the process died of, if it did. -/
structure Session where
  inbufferStream : Bytes
  written : List Bytes
  died : Option Death
  deriving DecidableEq, Repr

def start : Session := ⟨[], [], none⟩

/-- `sizeof(buffer)`. -/
def sizeofBuffer : Nat := 128

/-- `buffer[n] = 0; inbuffer_stream += buffer;` after a read of `data`. -/
def appendRead (data : Bytes) (s : Session) : Session :=
  if data.length < sizeofBuffer then
    { s with inbufferStream := s.inbufferStream ++ data.takeWhile (· != 0) }
  else { s with died := some .bufferOverrun }

/-- The inner `while(true)`; `none` when `fuel` calls of `Calculator` do not end it. -/
def drain (undef : Undefined) : Nat → Session → Option Session
  | 0, _ => none
  | fuel + 1, s =>
    match calculator undef s.inbufferStream with
    | .error d => some { s with died := some d }
    | .ok (info, package) =>
      if info.isEmpty then some { s with inbufferStream := package }
      else drain undef fuel ⟨package, s.written ++ [info], s.died⟩

/-- The read loop on the data of successive reads; a read of no bytes ends it. -/
def serve (undef : Undefined) (fuel : Nat) : Session → List Bytes → Option Session
  | s, [] => some s
  | s, data :: reads =>
    if data.isEmpty then some s
    else
      let s := appendRead data s
      if s.died.isSome then some s
      else
        match drain undef fuel s with
        | none => none
        | some s => if s.died.isSome then some s else serve undef fuel s reads

/-- The arithmetic `CalculatorHelper` does on a request is defined. -/
def Defined (r : Request) : Prop :=
  (r.op = 43 → InInt (r.x.toInt + r.y.toInt)) ∧
  (r.op = 45 → InInt (r.x.toInt - r.y.toInt)) ∧
  (r.op = 42 → InInt (r.x.toInt * r.y.toInt)) ∧
  (r.op = 47 ∨ r.op = 37 → r.y.toInt = 0 ∨ InInt (r.x.toInt.tdiv r.y.toInt))

instance (r : Request) : Decidable (Defined r) := inferInstanceAs (Decidable (_ ∧ _ ∧ _ ∧ _))

@[simp] theorem intResult_true (undef : Undefined) (r : Request) (v : Int) :
    intResult undef r true v = .ok (Int32.ofInt v) := rfl

theorem intResult_false (undef : Undefined) (r : Request) (v : Int) :
    intResult undef r false v =
      match undef r with
      | some w => .ok w
      | none => .error .arithmetic := rfl

/-- What the switch does: the response is fixed, or its result is that of one operation. -/
theorem calculatorHelper_cases (r : Request) :
    (Defined r ∧ ∃ resp, ∀ undef, calculatorHelper undef r = .ok resp) ∨
      ∃ (defined : Bool) (v : Int) (code : Int32), (defined ↔ Defined r) ∧ ∀ undef,
        calculatorHelper undef r =
          (intResult undef r defined v >>= fun w => pure (⟨w, code⟩ : Response)) := by
  by_cases h43 : r.op = 43
  · refine .inr ⟨InInt (r.x.toInt + r.y.toInt), r.x.toInt + r.y.toInt, 0, ?_, fun undef => ?_⟩
    · simp [Defined, h43]
    · simp [calculatorHelper, h43]
  by_cases h45 : r.op = 45
  · refine .inr ⟨InInt (r.x.toInt - r.y.toInt), r.x.toInt - r.y.toInt, 0, ?_, fun undef => ?_⟩
    · simp [Defined, h45]
    · simp [calculatorHelper, h45]
  by_cases h42 : r.op = 42
  · refine .inr ⟨InInt (r.x.toInt * r.y.toInt), r.x.toInt * r.y.toInt, 0, ?_, fun undef => ?_⟩
    · simp [Defined, h42]
    · simp [calculatorHelper, h42]
  by_cases h47 : r.op = 47
  · by_cases hy : r.y.toInt = 0
    · refine .inl ⟨by simp [Defined, h47, hy], ⟨0, divZero⟩, fun undef => ?_⟩
      simp [calculatorHelper, h47, hy, pure, Except.pure]
    · refine .inr ⟨InInt (r.x.toInt.tdiv r.y.toInt), r.x.toInt.tdiv r.y.toInt, 0, ?_,
        fun undef => ?_⟩
      · simp [Defined, h47, hy]
      · simp [calculatorHelper, h47, hy]
  by_cases h37 : r.op = 37
  · by_cases hy : r.y.toInt = 0
    · refine .inl ⟨by simp [Defined, h37, hy], ⟨0, otherOper⟩, fun undef => ?_⟩
      simp [calculatorHelper, h37, hy, bind, Except.bind, pure, Except.pure]
    · refine .inr ⟨InInt (r.x.toInt.tdiv r.y.toInt), r.x.toInt.tmod r.y.toInt, otherOper, ?_,
        fun undef => ?_⟩
      · simp [Defined, h37, hy]
      · simp [calculatorHelper, h37, hy]
  · refine .inl ⟨by simp [Defined, h43, h45, h42, h47, h37], ⟨0, otherOper⟩, fun undef => ?_⟩
    simp [calculatorHelper, h43, h45, h42, h47, h37, pure, Except.pure]

/-- The switch returns unless it meets undefined arithmetic that traps. -/
theorem calculatorHelper_returns_iff (undef : Undefined) (r : Request) :
    (∃ resp, calculatorHelper undef r = .ok resp) ↔ Defined r ∨ undef r ≠ none := by
  rcases calculatorHelper_cases r with ⟨hdef, resp, hresp⟩ | ⟨defined, v, code, hdef, hstep⟩
  · exact iff_of_true ⟨resp, hresp undef⟩ (.inl hdef)
  · rw [hstep, ← hdef]
    cases defined with
    | true => exact iff_of_true ⟨_, rfl⟩ (.inl rfl)
    | false =>
      rw [intResult_false]
      cases undef r with
      | none => simp [bind, Except.bind]
      | some w => simp [bind, Except.bind, pure, Except.pure]

theorem calculatorHelper_error {undef : Undefined} {r : Request} {d : Death}
    (h : calculatorHelper undef r = .error d) : d = .arithmetic := by
  rcases calculatorHelper_cases r with ⟨-, resp, hresp⟩ | ⟨defined, v, code, -, hstep⟩
  · rw [hresp undef] at h
    cases h
  · rw [hstep undef] at h
    cases defined with
    | true => cases h
    | false =>
      rw [intResult_false] at h
      cases hu : undef r with
      | none =>
        simp only [hu, bind, Except.bind, Except.error.injEq] at h
        exact h.symm
      | some w => simp [hu, bind, Except.bind, pure, Except.pure] at h

/-- Nothing `undef` could say matters to a request whose arithmetic is defined. -/
theorem calculatorHelper_congr {r : Request} (h : Defined r) (undef undef' : Undefined) :
    calculatorHelper undef r = calculatorHelper undef' r := by
  rcases calculatorHelper_cases r with ⟨-, resp, hresp⟩ | ⟨defined, v, code, hdef, hstep⟩
  · rw [hresp undef, hresp undef']
  · obtain rfl : defined = true := hdef.mpr h
    rw [hstep undef, hstep undef', intResult_true, intResult_true]

theorem calculatorHelper_defined (undef : Undefined) {r : Request} (h : Defined r) :
    ∃ resp, calculatorHelper undef r = .ok resp :=
  (calculatorHelper_returns_iff undef r).mpr (.inl h)

end NetServer
