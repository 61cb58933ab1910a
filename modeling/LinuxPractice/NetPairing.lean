import LinuxPractice.NetJsonFlat
import LinuxPractice.Transition

/-!
# A client and its session process

The loop of `ClientCal.cc` against the loop of `TcpServer::Start`, with the
bytes that are under way in between. The client writes a request, reads once,
and asserts that what it has read so far begins with a whole frame.
-/
namespace NetPairing

open CppString Decimal Framing NetProtocol NetServer NetCodec NetJson NetJsonFlat Transition
open Transition.System

/-- `failed` by an assertion, by an exception or by a write behind `buffer`. -/
inductive ClientPhase where
  | sending | reading | failed
  deriving DecidableEq, Repr

structure Client where
  remaining : List Request
  phase : ClientPhase
  inbufferStream : Bytes
  decoded : List Response
  deriving DecidableEq, Repr

inductive ServerPhase where
  | reading | calling | stopped
  deriving DecidableEq, Repr

structure Server where
  phase : ServerPhase
  inbufferStream : Bytes
  deriving DecidableEq, Repr

/-- `up` and `down` are written and not read yet. -/
structure State where
  client : Client
  up : Bytes
  server : Server
  down : Bytes
  deriving DecidableEq, Repr

/-- A read that brings `n` bytes, or one that brings none. -/
inductive Action where
  | send : Action
  | clientRead : Nat → Action
  | clientMiss : Action
  | serverRead : Nat → Action
  | serverMiss : Action
  | serverCall : Action
  deriving DecidableEq, Repr

/-- `buffer[n] = 0; inbuffer_stream += buffer;`, with `none` if there is no `buffer[n]`. -/
def appendBuffer (stream data : Bytes) : Option Bytes :=
  if data.length < sizeofBuffer then some (stream ++ data.takeWhile (· != 0)) else none

/-- `Response resp;` leaves the members unset. -/
def unsetResponse : Response := ⟨0, 0⟩

section

variable {ε : Type} (codec : Codec ε) (undef : Undefined) (requests : List Request)

def requestFrame (r : Request) : Bytes := encode (codec.serializeRequest r)

def responseFrame (r : Response) : Bytes := encode (codec.serializeResponse r)

/-- What the client does with the bytes of a read. -/
def readResponse (c : Client) (data : Bytes) : Client :=
  match appendBuffer c.inbufferStream data with
  | none => { c with phase := .failed }
  | some stream =>
    match decode stream [] with
    | .error _ => { c with phase := .failed }
    | .ok ⟨false, _, _⟩ => { c with phase := .failed }
    | .ok ⟨true, rest, content⟩ =>
      match codec.deserializeResponse unsetResponse content with
      | (.ok true, resp) => ⟨c.remaining, .sending, rest, c.decoded ++ [resp]⟩
      | _ => { c with phase := .failed }

def readRequest (v : Server) (data : Bytes) : Server :=
  match appendBuffer v.inbufferStream data with
  | none => { v with phase := .stopped }
  | some stream => ⟨.calling, stream⟩

/-- One turn of the inner loop of the server. -/
def call (s : State) : State :=
  match codec.calculator undef s.server.inbufferStream with
  | .error _ => { s with server := { s.server with phase := .stopped } }
  | .ok (info, package) =>
    if info.isEmpty then { s with server := ⟨.reading, package⟩ }
    else { s with server := ⟨.calling, package⟩, down := s.down ++ info }

def step (s : State) : Action → Option State
  | .send =>
    match s.client.phase, s.client.remaining with
    | .sending, r :: rs =>
      some { s with
        client := { s.client with remaining := rs, phase := .reading }
        up := s.up ++ requestFrame codec r }
    | _, _ => none
  | .clientRead n =>
    if s.client.phase = .reading ∧ 1 ≤ n ∧ n ≤ sizeofBuffer ∧ n ≤ s.down.length then
      some { s with client := readResponse codec s.client (s.down.take n), down := s.down.drop n }
    else none
  | .clientMiss =>
    if s.client.phase = .reading then
      some { s with client := { s.client with phase := .sending } }
    else none
  | .serverRead n =>
    if s.server.phase = .reading ∧ 1 ≤ n ∧ n ≤ sizeofBuffer ∧ n ≤ s.up.length then
      some { s with server := readRequest s.server (s.up.take n), up := s.up.drop n }
    else none
  | .serverMiss =>
    if s.server.phase = .reading then
      some { s with server := { s.server with phase := .stopped } }
    else none
  | .serverCall => if s.server.phase = .calling then some (call codec undef s) else none

def init : State := ⟨⟨requests, .sending, [], []⟩, [], ⟨.reading, []⟩, []⟩

def system : System State Action where
  init := init requests
  step := step codec undef

/-- This is the reply to this request. -/
def Answers (r : Request) (resp : Response) : Prop := calculatorHelper undef r = .ok resp

/-- No assertion has failed, and the responses decoded so far are those to the first requests. -/
def Paired (s : State) : Prop :=
  s.client.phase ≠ .failed ∧
    List.Forall₂ (Answers undef) (requests.take s.client.decoded.length) s.client.decoded

/-- The client's read leaves room for the terminator, and with what is there already it completes
the frame of the reply to the first request that has none. -/
def Whole (s : State) : Action → Prop
  | .clientRead n => n < sizeofBuffer ∧
      ∀ r resp, requests[s.client.decoded.length]? = some r → Answers undef r resp →
        (responseFrame codec resp).length ≤ s.client.inbufferStream.length + n
  | _ => True

/-- The requests `answered` and `pending` have been sent, and the responses `inflight` have not
been decoded. What is under way, with what lies in the two buffers, are their frames. -/
structure Inv (answered pending : List Request) (inflight : List Response) (s : State) : Prop where
  sent : requests = answered ++ pending ++ s.client.remaining
  replies : List.Forall₂ (Answers undef) answered (s.client.decoded ++ inflight)
  down : s.client.inbufferStream ++ s.down = stream (responseFrame codec) inflight
  up : s.server.phase = .stopped ∨
    s.server.inbufferStream ++ s.up = stream (requestFrame codec) pending

end

variable {ε : Type} {codec : Codec ε} {undef : Undefined} {requests : List Request}
variable {answered pending : List Request} {inflight : List Response} {s t : State}

/-- Bytes of a stream without a zero all arrive, as long as `buffer` takes them. -/
theorem appendBuffer_take {γ : Type} {enc : γ → Bytes} {cs : List γ} {front way : Bytes}
    (hcs : ∀ c ∈ cs, 0 ∉ enc c) (h : front ++ way = stream enc cs) {n : Nat} (hn : n ≤ way.length) :
    appendBuffer front (way.take n) =
      if n < sizeofBuffer then some (front ++ way.take n) else none := by
  have htext : (0 : UInt8) ∉ way.take n := by
    intro hzero
    have hmem : (0 : UInt8) ∈ front ++ way := List.mem_append_right _ (List.mem_of_mem_take hzero)
    rw [h] at hmem
    exact not_mem_stream hcs hmem
  rw [appendBuffer, List.length_take_of_le hn, takeWhile_eq_self.mpr htext]

theorem calculator_whole (hc : codec.Sound) (r : Request) (t : Bytes) :
    codec.calculator undef (requestFrame codec r ++ t) =
      match calculatorHelper undef r with
      | .error d => .error (.died d)
      | .ok resp => .ok (responseFrame codec resp, t) :=
  hc.calculator_frame (hc.requestShort r) undef t

theorem calculator_part (hc : codec.Sound) {r : Request} {q : Bytes}
    (hq : q <+: requestFrame codec r) (hne : q ≠ requestFrame codec r) :
    codec.calculator undef q = .ok ([], q) := by
  simp only [Codec.calculator, decode_incomplete (hc.requestShort r) hq hne]

theorem calculator_none : codec.calculator undef [] = .ok ([], []) := by
  simp only [Codec.calculator, decode_no_separator List.not_mem_nil]

theorem Inv.serverRead (hc : codec.Sound) (hops : ∀ r ∈ requests, r.op ≠ 0)
    (h : Inv codec undef requests answered pending inflight s) (hphase : s.server.phase = .reading)
    {n : Nat} (hn : n ≤ s.up.length) : Inv codec undef requests answered pending inflight
      { s with server := readRequest s.server (s.up.take n), up := s.up.drop n } := by
  have hpending : ∀ r ∈ pending, 0 ∉ requestFrame codec r := by
    intro r hr
    have hmem : r ∈ requests := by
      rw [h.sent]
      simp [hr]
    exact zero_not_mem_encode (hc.requestText r (hops r hmem))
  have hup := h.up.resolve_left (by simp [hphase])
  refine ⟨h.sent, h.replies, h.down, ?_⟩
  rw [readRequest, appendBuffer_take hpending hup hn]
  by_cases hroom : n < sizeofBuffer
  · right
    simpa [hroom] using hup
  · left
    simp [hroom]

@[simp] theorem call_client (s : State) : (call codec undef s).client = s.client := by
  unfold call
  split
  · rfl
  · split
    · rfl
    · rfl

/-- A call takes a whole frame to its reply, and leaves the beginning of one alone. -/
theorem Inv.serverCall (hc : codec.Sound) (h : Inv codec undef requests answered pending inflight s)
    (hphase : s.server.phase = .calling) : ∃ answered pending inflight,
      Inv codec undef requests answered pending inflight (call codec undef s) := by
  have hup := h.up.resolve_left (by simp [hphase])
  cases pending with
  | nil =>
    have hnil : s.server.inbufferStream = [] := by
      simp only [stream_nil, List.append_eq_nil_iff] at hup
      exact hup.1
    refine ⟨answered, [], inflight, ?_⟩
    have hcall : call codec undef s = { s with server := ⟨.reading, []⟩ } := by
      simp [call, hnil, calculator_none]
    rw [hcall]
    exact ⟨h.sent, h.replies, h.down, .inr (by simpa [hnil] using hup)⟩
  | cons r rest =>
    rw [stream_cons] at hup
    by_cases hwhole : requestFrame codec r <+: s.server.inbufferStream
    · obtain ⟨q, hq⟩ := hwhole
      cases hresp : calculatorHelper undef r with
      | error d =>
        refine ⟨answered, r :: rest, inflight, ?_⟩
        have hcall : call codec undef s =
            { s with server := { s.server with phase := .stopped } } := by
          simp only [call, ← hq, calculator_whole hc, hresp]
        rw [hcall]
        exact ⟨h.sent, h.replies, h.down, .inl rfl⟩
      | ok resp =>
        refine ⟨answered ++ [r], rest, inflight ++ [resp], ?_⟩
        have hcall : call codec undef s =
            { s with server := ⟨.calling, q⟩, down := s.down ++ responseFrame codec resp } := by
          simp [call, ← hq, calculator_whole hc, hresp, responseFrame, encode_ne_nil]
        rw [hcall]
        constructor
        · simpa using h.sent
        · rw [← List.append_assoc]
          exact List.rel_append h.replies (.cons hresp .nil)
        · simp [← h.down]
        · rw [← hq, List.append_assoc, List.append_right_inj] at hup
          exact .inr hup
    · have hpart : s.server.inbufferStream <+: requestFrame codec r := by
        have hbuffer : s.server.inbufferStream <+:
            requestFrame codec r ++ stream (requestFrame codec) rest := ⟨s.up, hup⟩
        rcases List.prefix_or_prefix_of_prefix hbuffer (List.prefix_append _ _) with hp | hp
        · exact hp
        · exact absurd hp hwhole
      have hne : s.server.inbufferStream ≠ requestFrame codec r := by
        intro he
        exact hwhole (he ▸ List.prefix_rfl)
      refine ⟨answered, r :: rest, inflight, ?_⟩
      have hcall : call codec undef s =
          { s with server := ⟨.reading, s.server.inbufferStream⟩ } := by
        simp [call, calculator_part hc hpart hne]
      rw [hcall]
      exact ⟨h.sent, h.replies, h.down, .inr hup⟩

/-- The first response under way is the reply to the first request that has none. -/
theorem Inv.next {resp : Response} {rest : List Response}
    (h : Inv codec undef requests answered pending (resp :: rest) s) :
    ∃ r, requests[s.client.decoded.length]? = some r ∧ Answers undef r resp := by
  have hdrop := List.forall₂_drop_append _ _ _ h.replies
  cases hrest : answered.drop s.client.decoded.length with
  | nil =>
    rw [hrest] at hdrop
    cases hdrop
  | cons r rs =>
    rw [hrest] at hdrop
    cases hdrop with
    | cons hr _ =>
      refine ⟨r, ?_, hr⟩
      have hget : answered[s.client.decoded.length]? = some r := by
        rw [← List.head?_drop, hrest, List.head?_cons]
      rw [h.sent, List.append_assoc, List.getElem?_append_left, hget]
      exact (List.getElem?_eq_some_iff.mp hget).1

theorem Inv.paired (h : Inv codec undef requests answered pending inflight s)
    (hphase : s.client.phase ≠ .failed) : Paired undef requests s := by
  refine ⟨hphase, ?_⟩
  have hlen := h.replies.length_eq
  rw [List.length_append] at hlen
  have htake := List.forall₂_take_append _ _ _ h.replies
  rw [h.sent, List.append_assoc, List.take_append_of_le_length (by omega)]
  exact htake

/-- How a read can end: with the next response decoded, or in `failed`. -/
theorem Inv.clientRead (hc : codec.Sound)
    (h : Inv codec undef requests answered pending inflight s) {n : Nat} (hpos : 1 ≤ n)
    (hn : n ≤ s.down.length) :
    (Whole codec undef requests s (.clientRead n) ∧ ∃ resp rest q, inflight = resp :: rest ∧
      q ++ s.down.drop n = stream (responseFrame codec) rest ∧
      readResponse codec s.client (s.down.take n) =
        ⟨s.client.remaining, .sending, q, s.client.decoded ++ [resp]⟩) ∨
    (¬ Whole codec undef requests s (.clientRead n) ∧
      (readResponse codec s.client (s.down.take n)).phase = .failed) := by
  have htext : ∀ r ∈ inflight, 0 ∉ responseFrame codec r :=
    fun r _ => zero_not_mem_encode (hc.responseText r)
  rw [readResponse, appendBuffer_take htext h.down hn]
  by_cases hroom : n < sizeofBuffer
  · cases inflight with
    | nil =>
      have hnil : s.down = [] := (List.append_eq_nil_iff.mp h.down).2
      rw [hnil, List.length_nil] at hn
      omega
    | cons resp rest =>
      obtain ⟨r, hr, hanswers⟩ := h.next
      have hcut : s.client.inbufferStream ++ s.down.take n ++ s.down.drop n =
          responseFrame codec resp ++ stream (responseFrame codec) rest := by
        rw [List.append_assoc, List.take_append_drop, h.down, stream_cons]
      have hlen : (s.client.inbufferStream ++ s.down.take n).length =
          s.client.inbufferStream.length + n := by
        rw [List.length_append, List.length_take_of_le hn]
      have hwhole : Whole codec undef requests s (.clientRead n) ↔
          (responseFrame codec resp).length ≤ s.client.inbufferStream.length + n := by
        constructor
        · intro hw
          exact hw.2 r resp hr hanswers
        · intro hle
          refine ⟨hroom, fun r' resp' hr' hanswers' => ?_⟩
          obtain rfl : r = r' := Option.some.inj (hr.symm.trans hr')
          obtain rfl : resp = resp' := Except.ok.inj (hanswers.symm.trans hanswers')
          exact hle
      by_cases hle : (responseFrame codec resp).length ≤ s.client.inbufferStream.length + n
      · left
        refine ⟨hwhole.mpr hle, resp, rest, ?_⟩
        obtain ⟨q, hq⟩ : responseFrame codec resp <+: s.client.inbufferStream ++ s.down.take n :=
          List.prefix_of_prefix_length_le ⟨_, rfl⟩ ⟨_, hcut⟩ (by rw [hlen]; exact hle)
        refine ⟨q, rfl, ?_, ?_⟩
        · rw [← hq, List.append_assoc, List.append_right_inj] at hcut
          exact hcut
        · have hdecode : decode (responseFrame codec resp ++ q) [] =
              .ok ⟨true, q, codec.serializeResponse resp⟩ :=
            decode_encode_append (hc.responseShort resp) q []
          simp only [hroom, if_true, ← hq, hdecode, hc.response]
      · right
        refine ⟨mt hwhole.mp hle, ?_⟩
        have hpart : s.client.inbufferStream ++ s.down.take n <+: responseFrame codec resp :=
          List.prefix_of_prefix_length_le ⟨_, hcut⟩ (List.prefix_append _ _) (by rw [hlen]; omega)
        have hne : s.client.inbufferStream ++ s.down.take n ≠ responseFrame codec resp := by
          intro he
          rw [← he, hlen] at hle
          exact hle (Nat.le_refl _)
        simp only [hroom, if_true, decode_incomplete (hc.responseShort resp) hpart hne]
  · right
    refine ⟨fun hw => hroom hw.1, ?_⟩
    simp [hroom]

/-- What is kept until the client has failed. -/
def Follows (codec : Codec ε) (undef : Undefined) (requests : List Request) (s : State) : Prop :=
  s.client.phase = .failed ∨
    ∃ answered pending inflight, Inv codec undef requests answered pending inflight s

theorem Follows.init : Follows codec undef requests (init requests) :=
  .inr ⟨[], [], [], by simp [NetPairing.init], .nil, rfl, .inr rfl⟩

/-- A step keeps the invariant, and the client fails in a read that is not whole and nowhere
else. -/
theorem step_cases (hc : codec.Sound) (hops : ∀ r ∈ requests, r.op ≠ 0) {a : Action}
    (h : Inv codec undef requests answered pending inflight s) (hphase : s.client.phase ≠ .failed)
    (hs : step codec undef s a = some t) :
    (Whole codec undef requests s a ∧ t.client.phase ≠ .failed ∧ ∃ answered pending inflight,
      Inv codec undef requests answered pending inflight t) ∨
    (¬ Whole codec undef requests s a ∧ t.client.phase = .failed) := by
  cases a with
  | send =>
    simp only [step] at hs
    split at hs
    · rename_i r rs hsending hremaining
      cases hs
      refine .inl ⟨trivial, by simp, answered, pending ++ [r], inflight, ?_⟩
      refine ⟨by simpa [hremaining] using h.sent, h.replies, h.down, ?_⟩
      rcases h.up with hstopped | hup
      · exact .inl hstopped
      · right
        simp only [stream_append, stream_cons, stream_nil, List.append_nil, ← hup,
          List.append_assoc]
    · cases hs
  | clientRead n =>
    simp only [step] at hs
    split at hs
    · rename_i hguard
      cases hs
      rcases h.clientRead hc hguard.2.1 hguard.2.2.2 with
        ⟨hwhole, resp, rest, q, rfl, hq, hread⟩ | ⟨hpart, hfailed⟩
      · refine .inl ⟨hwhole, by simp [hread], answered, pending, rest, ?_⟩
        rw [hread]
        exact ⟨h.sent, by simpa using h.replies, hq, h.up⟩
      · exact .inr ⟨hpart, hfailed⟩
    · cases hs
  | clientMiss =>
    simp only [step] at hs
    split at hs
    · cases hs
      exact .inl ⟨trivial, by simp, answered, pending, inflight, h.sent, h.replies, h.down, h.up⟩
    · cases hs
  | serverRead n =>
    simp only [step] at hs
    split at hs
    · rename_i hguard
      cases hs
      exact .inl ⟨trivial, hphase, answered, pending, inflight,
        h.serverRead hc hops hguard.1 hguard.2.2.2⟩
    · cases hs
  | serverMiss =>
    simp only [step] at hs
    split at hs
    · cases hs
      exact .inl ⟨trivial, hphase, answered, pending, inflight, h.sent, h.replies, h.down, .inl rfl⟩
    · cases hs
  | serverCall =>
    simp only [step] at hs
    split at hs
    · rename_i hcalling
      cases hs
      exact .inl ⟨trivial, by simpa using hphase, h.serverCall hc hcalling⟩
    · cases hs

/-- A client that has failed does nothing more. -/
theorem failed_step {a : Action} (h : s.client.phase = .failed)
    (hs : step codec undef s a = some t) : t.client.phase = .failed := by
  cases a with
  | send => simp [step, h] at hs
  | clientRead n => simp [step, h] at hs
  | clientMiss => simp [step, h] at hs
  | serverRead n =>
    simp only [step] at hs
    split at hs
    · cases hs
      exact h
    · cases hs
  | serverMiss =>
    simp only [step] at hs
    split at hs
    · cases hs
      exact h
    · cases hs
  | serverCall =>
    simp only [step] at hs
    split at hs
    · cases hs
      simpa using h
    · cases hs

theorem Follows.keep (hc : codec.Sound) (hops : ∀ r ∈ requests, r.op ≠ 0) (s : State) (a : Action)
    (t : State) (hj : Follows codec undef requests s) (hs : step codec undef s a = some t) :
    Follows codec undef requests t := by
  by_cases hphase : s.client.phase = .failed
  · exact .inl (failed_step hphase hs)
  · obtain ⟨answered, pending, inflight, hinv⟩ := hj.resolve_left hphase
    rcases step_cases hc hops hinv hphase hs with ⟨-, -, hnext⟩ | ⟨-, hfailed⟩
    · exact .inr hnext
    · exact .inl hfailed

theorem Follows.exact (hc : codec.Sound) (hops : ∀ r ∈ requests, r.op ≠ 0) (s : State) (a : Action)
    (t : State) (hj : Follows codec undef requests s) (hpaired : Paired undef requests s)
    (hs : step codec undef s a = some t) :
    Paired undef requests t ↔ Whole codec undef requests s a := by
  obtain ⟨answered, pending, inflight, hinv⟩ := hj.resolve_left hpaired.1
  rcases step_cases hc hops hinv hpaired.1 hs with
    ⟨hwhole, hok, _, _, _, hnext⟩ | ⟨hpart, hfailed⟩
  · exact iff_of_true (hnext.paired hok) hwhole
  · exact iff_of_false (fun h => h.1 hfailed) hpart

theorem paired_init : Paired undef requests (init requests) := ⟨by simp [init], .nil⟩

/-- In a run of the two loops no assertion fails and every response is the reply to the request of
its number, exactly if every read of the client is whole. -/
theorem paired_throughout_iff (codec : Codec ε) (hc : codec.Sound) (undef : Undefined)
    (requests : List Request) (hops : ∀ r ∈ requests, r.op ≠ 0) (as : List Action) :
    (system codec undef requests).Throughout (Paired undef requests) (init requests) as ↔
      (system codec undef requests).Admits (Whole codec undef requests) (init requests) as :=
  throughout_iff_admits (Follows.keep hc hops) (Follows.exact hc hops) Follows.init paired_init as

/-- "1 + 2", whose reply is read up to its newline only. -/
def cutRun : List Action := [.send, .serverRead 8, .serverCall, .clientRead 2]

theorem paired_throughout_iff_cut :
    (system text wrapOrTrap [⟨1, 2, 43⟩]).Throughout (Paired wrapOrTrap [⟨1, 2, 43⟩])
        (init [⟨1, 2, 43⟩]) cutRun ↔
      (system text wrapOrTrap [⟨1, 2, 43⟩]).Admits (Whole text wrapOrTrap [⟨1, 2, 43⟩])
        (init [⟨1, 2, 43⟩]) cutRun :=
  paired_throughout_iff text text_sound wrapOrTrap [⟨1, 2, 43⟩] (by simp) cutRun

/-- The default build, over any jsoncpp. -/
theorem json_paired_iff {j : Jsoncpp} (hr : j.Reads) (hw : j.Writes) (undef : Undefined)
    (requests : List Request) (hops : ∀ r ∈ requests, r.op ≠ 0) (as : List Action) :
    (system (json j) undef requests).Throughout (Paired undef requests) (init requests) as ↔
      (system (json j) undef requests).Admits (Whole (json j) undef requests) (init requests) as :=
  have hc := json_sound hr hw
  throughout_iff_admits (Follows.keep hc hops) (Follows.exact hc hops) Follows.init paired_init as

/-- "1 + 2" again, as JSON. -/
def sum : Request := ⟨1, 2, 43⟩

def sent : State :=
  ⟨⟨[], .reading, [], []⟩, requestFrame (json flat) sum, ⟨.reading, []⟩, []⟩

def arrived : State :=
  ⟨⟨[], .reading, [], []⟩, [], ⟨.calling, requestFrame (json flat) sum⟩, []⟩

def replied : State :=
  ⟨⟨[], .reading, [], []⟩, [], ⟨.calling, []⟩, responseFrame (json flat) ⟨3, 0⟩⟩

/-- Both frames are read whole. -/
theorem json_paired_sum :
    (system (json flat) wrapOrTrap [sum]).Throughout (Paired wrapOrTrap [sum]) (init [sum])
      [.send, .serverRead 26, .serverCall, .clientRead 26] := by
  have hsend : step (json flat) wrapOrTrap (init [sum]) .send = some sent := rfl
  have hread : step (json flat) wrapOrTrap sent (.serverRead 26) = some arrived := rfl
  have hcall : step (json flat) wrapOrTrap arrived .serverCall = some replied := rfl
  refine (json_paired_iff flat_reads flat_writes wrapOrTrap [sum] (by simp [sum]) _).mpr ?_
  intro s₁ h₁
  obtain rfl := Option.some.inj (hsend.symm.trans h₁)
  refine ⟨trivial, fun s₂ h₂ => ?_⟩
  obtain rfl := Option.some.inj (hread.symm.trans h₂)
  refine ⟨trivial, fun s₃ h₃ => ?_⟩
  obtain rfl := Option.some.inj (hcall.symm.trans h₃)
  refine ⟨trivial, fun s₄ _ => ⟨⟨by decide, fun r resp hr hanswers => ?_⟩, trivial⟩⟩
  obtain rfl : sum = r := Option.some.inj hr
  have hresp : calculatorHelper wrapOrTrap sum = .ok ⟨3, 0⟩ := rfl
  obtain rfl := Except.ok.inj (hresp.symm.trans hanswers)
  decide

/-- The first assertion of the client fails on the length line of a reply. -/
theorem cut_not_paired :
    ¬ (system text wrapOrTrap [⟨1, 2, 43⟩]).Throughout (Paired wrapOrTrap [⟨1, 2, 43⟩])
      (init [⟨1, 2, 43⟩]) cutRun := by
  intro h
  have hrun : (system text wrapOrTrap [⟨1, 2, 43⟩]).run (init [⟨1, 2, 43⟩]) cutRun =
      some ⟨⟨[], .failed, [], []⟩, [], ⟨.calling, []⟩, [51, 32, 48, 10]⟩ := by decide
  exact (h.last hrun).1 rfl

end NetPairing
