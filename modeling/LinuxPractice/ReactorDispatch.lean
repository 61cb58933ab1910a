import LinuxPractice.Reactor

/-!
# Reactor: the callbacks of a batch

The two statements that should turn errors into reading and writing compute a
value and drop it, and both masks that are tested contain `EPOLLET`.
-/
namespace ReactorDispatch

open Reactor

structure Event where
  events : UInt32
  fd : Int
  deriving DecidableEq, Repr

inductive Call where
  | recv : Int → Call
  | send : Int → Call
  deriving DecidableEq, Repr

/-- `event & mask`. -/
def Marked (events mask : UInt32) : Prop := events &&& mask ≠ 0

instance (events mask : UInt32) : Decidable (Marked events mask) :=
  inferInstanceAs (Decidable (_ ≠ _))

/-- The server, and whatever else the callbacks change. -/
structure State (κ ω : Type) where
  server : Server κ
  world : ω

section

variable {κ ω : Type} (effect : κ → Connection κ → State κ ω → State κ ω)

/-- The callback that is there for a descriptor, with its connection. Without a connection the
descriptor is not safe, and a callback need not be set. -/
def callback (cb : Connection κ → Option κ) (s : State κ ω) (fd : Int) :
    Option (κ × Connection κ) :=
  (s.server.connections fd).bind fun c => (cb c).map fun k => (k, c)

/-- The callback is called if it is there and the event has something of the mask. -/
def invoke (mask : UInt32) (cb : Connection κ → Option κ) (call : Int → Call) (s : State κ ω)
    (rev : Event) : State κ ω × List Call :=
  if Marked rev.events mask then
    match callback cb s rev.fd with
    | none => (s, [])
    | some (k, c) => (effect k c s, [call rev.fd])
  else (s, [])

/-- Both callbacks of an event, for what counts as reading and as writing. -/
def serve (readMask writeMask : UInt32) (s : State κ ω) (rev : Event) : State κ ω × List Call :=
  let first := invoke effect readMask Connection.recvCb .recv s rev
  let second := invoke effect writeMask Connection.sendCb .send first.1 rev
  (second.1, first.2 ++ second.2)

/-- The body of the loop of `Dispatcher`. -/
def visit : State κ ω → Event → State κ ω × List Call := serve effect eventIn eventOut

/-- Errors and hang-ups are handled by reading and writing. -/
def handle : State κ ω → Event → State κ ω × List Call :=
  serve effect (epollin ||| epollerr ||| epollhup) (epollout ||| epollerr ||| epollhup)

/-- The calls of a batch, event by event. -/
def batch (visit : State κ ω → Event → State κ ω × List Call) :
    State κ ω → List Event → List (List Call)
  | _, [] => []
  | s, rev :: revs => (visit s rev).2 :: batch visit (visit s rev).1 revs

def dispatcher : State κ ω → List Event → List (List Call) := batch (visit effect)

/-- Every event of the batch makes the calls it should. -/
def Handles (s : State κ ω) (revs : List Event) : Prop :=
  dispatcher effect s revs = batch (handle effect) s revs

/-- Where there is something to call, bit 31 comes with the bits that it is taken for, and an error
or a hang-up comes with bit 31 or the readiness it stands for. -/
structure Agrees (s : State κ ω) (rev : Event) : Prop where
  recv : (callback Connection.recvCb s rev.fd).isSome →
    (Marked rev.events epollin ∨ Marked rev.events epollet ↔
      Marked rev.events epollin ∨ Marked rev.events epollerr ∨ Marked rev.events epollhup)
  send : (callback Connection.sendCb
      (invoke effect eventIn Connection.recvCb .recv s rev).1 rev.fd).isSome →
    (Marked rev.events epollout ∨ Marked rev.events epollet ↔
      Marked rev.events epollout ∨ Marked rev.events epollerr ∨ Marked rev.events epollhup)

/-- Every event agrees, in the state in which it is reached. -/
def AllAgree : State κ ω → List Event → Prop
  | _, [] => True
  | s, rev :: revs => Agrees effect s rev ∧ AllAgree (visit effect s rev).1 revs

end

variable {κ ω : Type} {effect : κ → Connection κ → State κ ω → State κ ω} {s t : State κ ω}
  {rev : Event} {cb : Connection κ → Option κ} {call : Int → Call} {mask mask' : UInt32}

theorem marked_or (events a b : UInt32) :
    Marked events (a ||| b) ↔ Marked events a ∨ Marked events b := by
  have hdistrib : events &&& (a ||| b) = (events &&& a) ||| (events &&& b) :=
    UInt32.toBitVec_inj.1 BitVec.and_or_distrib_left
  unfold Marked
  rw [hdistrib, ne_eq, UInt32.or_eq_zero_iff, not_and_or]

theorem invoke_none (h : callback cb s rev.fd = none) :
    invoke effect mask cb call s rev = (s, []) := by
  simp [invoke, h]

theorem invoke_some {k : κ} {c : Connection κ} (h : callback cb s rev.fd = some (k, c)) :
    invoke effect mask cb call s rev =
      if Marked rev.events mask then (effect k c s, [call rev.fd]) else (s, []) := by
  simp [invoke, h]

theorem invoke_calls : (invoke effect mask cb call s rev).2 = [] ∨
    (invoke effect mask cb call s rev).2 = [call rev.fd] := by
  cases h : callback cb s rev.fd with
  | none => exact .inl (by rw [invoke_none h])
  | some kc =>
    rw [invoke_some h]
    split
    · exact .inr rfl
    · exact .inl rfl

/-- Masks that are told apart are told apart by the calls. -/
theorem invoke_calls_iff : (invoke effect mask cb call s rev).2 =
    (invoke effect mask' cb call s rev).2 ↔
      ((callback cb s rev.fd).isSome → (Marked rev.events mask ↔ Marked rev.events mask')) := by
  cases h : callback cb s rev.fd with
  | none => simp [invoke_none h]
  | some kc =>
    rw [invoke_some h, invoke_some h]
    by_cases hm : Marked rev.events mask
    · by_cases hm' : Marked rev.events mask'
      · simp [hm, hm']
      · simp [hm, hm']
    · by_cases hm' : Marked rev.events mask'
      · simp [hm, hm']
      · simp [hm, hm']

theorem invoke_congr (h : (callback cb s rev.fd).isSome →
    (Marked rev.events mask ↔ Marked rev.events mask')) :
    invoke effect mask cb call s rev = invoke effect mask' cb call s rev := by
  cases hcb : callback cb s rev.fd with
  | none => rw [invoke_none hcb, invoke_none hcb]
  | some kc =>
    rw [hcb] at h
    rw [invoke_some hcb, invoke_some hcb]
    simp only [h rfl]

/-- The calls to read and to write do not get mixed up. -/
theorem append_calls {fd : Int} {a a' b b' : List Call} (ha : a = [] ∨ a = [.recv fd])
    (ha' : a' = [] ∨ a' = [.recv fd]) (hb : b = [] ∨ b = [.send fd])
    (hb' : b' = [] ∨ b' = [.send fd]) : a ++ b = a' ++ b' ↔ a = a' ∧ b = b' := by
  rcases ha with rfl | rfl
  · rcases ha' with rfl | rfl
    · simp
    · rcases hb with rfl | rfl
      · simp
      · simp
  · rcases ha' with rfl | rfl
    · rcases hb' with rfl | rfl
      · simp
      · simp
    · simp

/-- The bits agree exactly if the masks do. -/
theorem agrees_iff : Agrees effect s rev ↔
    ((callback Connection.recvCb s rev.fd).isSome → (Marked rev.events eventIn ↔
      Marked rev.events (epollin ||| epollerr ||| epollhup))) ∧
    ((callback Connection.sendCb
        (invoke effect eventIn Connection.recvCb .recv s rev).1 rev.fd).isSome →
      (Marked rev.events eventOut ↔ Marked rev.events (epollout ||| epollerr ||| epollhup))) := by
  simp only [eventIn, eventOut, marked_or, or_assoc]
  exact ⟨fun h => ⟨h.recv, h.send⟩, fun h => ⟨h.1, h.2⟩⟩

theorem visit_eq (h : Agrees effect s rev) : visit effect s rev = handle effect s rev := by
  obtain ⟨hrecv, hsend⟩ := agrees_iff.mp h
  simp only [visit, handle, serve]
  rw [← invoke_congr hrecv, invoke_congr hsend]

/-- An event makes the calls it should exactly if its bits agree. -/
theorem visit_calls_iff : (visit effect s rev).2 = (handle effect s rev).2 ↔
    Agrees effect s rev := by
  constructor
  · intro h
    obtain ⟨hfirst, hsecond⟩ :=
      (append_calls invoke_calls invoke_calls invoke_calls invoke_calls).mp h
    have hrecv := invoke_calls_iff.mp hfirst
    rw [← invoke_congr hrecv] at hsecond
    exact agrees_iff.mpr ⟨hrecv, invoke_calls_iff.mp hsecond⟩
  · intro h
    rw [visit_eq h]

/-- A batch is handled right exactly if the bits of every event agree. -/
theorem handles_iff_agree (effect : κ → Connection κ → State κ ω → State κ ω) (s : State κ ω)
    (revs : List Event) : Handles effect s revs ↔ AllAgree effect s revs := by
  induction revs generalizing s with
  | nil => exact iff_of_true rfl trivial
  | cons rev revs ih =>
    rw [Handles, dispatcher, batch, batch, List.cons.injEq, visit_calls_iff, AllAgree]
    refine and_congr_right fun hagree => ?_
    rw [← visit_eq hagree]
    exact ih _

/-- A client with both callbacks, and a socket that only reads. -/
def clients : State Unit Unit where
  server :=
    { connections := fun fd =>
        if fd = 5 then some ⟨5, some (), some (), none⟩
        else if fd = 3 then some ⟨3, some (), none, none⟩ else none
      interest := fun _ => none }
  world := ()

/-- A hang-up is not read from, and what is ready for nothing is. -/
theorem hangup_not_handled : ¬ Handles (fun _ _ s => s) clients [⟨epollhup, 5⟩] ∧
    ¬ Handles (fun _ _ s => s) clients [⟨epollet, 3⟩] := by
  constructor
  · intro h
    cases h
  · intro h
    cases h

end ReactorDispatch
