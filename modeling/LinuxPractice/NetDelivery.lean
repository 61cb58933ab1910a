import LinuxPractice.NetSession

/-!
# Replies do not depend on how TCP cuts the requests

The session is followed read by read. A stream of requests is answered frame by
frame under every cutting; with payloads that `Deserialize` refuses, the exact
cuttings under which nothing is left waiting are those in which no read ends
such a frame and the next one.
-/
namespace NetDelivery

open CppString NetProtocol NetServer NetSession Framing

/-- A read the loop can get: not empty, and room for the terminator. -/
def GoodRead (d : Bytes) : Prop := d ≠ [] ∧ d.length ≤ 127

instance (d : Bytes) : Decidable (GoodRead d) := inferInstanceAs (Decidable (_ ∧ _))

theorem appendRead_good {d : Bytes} (hd : GoodRead d) (hz : (0 : UInt8) ∉ d) (q : Bytes)
    (out : List Bytes) : appendRead d ⟨q, out, none⟩ = ⟨q ++ d, out, none⟩ := by
  have hlt : d.length < sizeofBuffer := by have := hd.2; simp only [sizeofBuffer]; omega
  simp only [appendRead, hlt, ↓reduceIte, takeWhile_eq_self.mpr hz]

theorem serve_nil (undef : Undefined) (s : Session) : Yields (serve undef · s []) s :=
  ⟨0, fun _ _ => rfl⟩

section OneRead

variable {undef : Undefined} {d q : Bytes} {out : List Bytes} {s : Session}

theorem serve_cons_eq (hd : GoodRead d) (hz : (0 : UInt8) ∉ d) {fuel : Nat}
    (h : drain undef fuel ⟨q ++ d, out, none⟩ = some s) (reads : List Bytes) :
    serve undef fuel ⟨q, out, none⟩ (d :: reads) =
      if s.died.isSome then some s else serve undef fuel s reads := by
  have hne : d.isEmpty = false := by simpa using hd.1
  simp only [serve, hne, Bool.false_eq_true, ↓reduceIte, appendRead_good hd hz, Option.isSome_none, h]

/-- A session that is still alive after a read goes on from where the read left it. -/
theorem serve_cons_alive (hd : GoodRead d) (hz : (0 : UInt8) ∉ d)
    (h : Yields (drain undef · ⟨q ++ d, out, none⟩) s) (hs : s.died = none) (reads : List Bytes)
    (t : Session) : Yields (serve undef · ⟨q, out, none⟩ (d :: reads)) t ↔
      Yields (serve undef · s reads) t := by
  obtain ⟨N, hN⟩ := h
  refine Yields.congr (fun fuel (hle : N ≤ fuel) => ?_) t
  rw [serve_cons_eq hd hz (hN fuel hle), hs]
  rfl

theorem serve_cons_dead (hd : GoodRead d) (hz : (0 : UInt8) ∉ d)
    (h : Yields (drain undef · ⟨q ++ d, out, none⟩) s) (hs : s.died ≠ none) (reads : List Bytes) :
    Yields (serve undef · ⟨q, out, none⟩ (d :: reads)) s := by
  obtain ⟨N, hN⟩ := h
  have hsome : s.died.isSome := by rwa [Option.isSome_iff_ne_none]
  exact ⟨N, fun fuel hle => (serve_cons_eq hd hz (hN fuel hle) reads).trans (if_pos hsome)⟩

end OneRead

theorem not_mem_of_prefix_stream {cs : List Bytes} (hz : ∀ c ∈ cs, (0 : UInt8) ∉ c) {w : Bytes}
    (hw : w <+: stream encode cs) : (0 : UInt8) ∉ w := by
  intro h
  have hframes : ∀ c ∈ cs, (0 : UInt8) ∉ encode c := fun c hc => zero_not_mem_encode (hz c hc)
  exact not_mem_stream hframes (hw.subset h)

theorem serve_replies (undef : Undefined) (reads : List Bytes) (hreads : ∀ d ∈ reads, GoodRead d)
    {rest : List Bytes} {q : Bytes} (hq : Incomplete encode rest q)
    (hz : ∀ c ∈ rest, (0 : UInt8) ∉ c) (hv : ∀ c ∈ rest, ∃ info, verdict undef c = .reply info)
    (hcut : q ++ reads.flatten = stream encode rest) (out : List Bytes) :
    Yields (serve undef · ⟨q, out, none⟩ reads) ⟨[], out ++ answers undef rest, none⟩ := by
  induction reads generalizing rest q out with
  | nil =>
    obtain ⟨rfl, rfl⟩ := eq_nil_of_incomplete hq (by simpa using hcut)
    simpa [answers] using serve_nil undef ⟨[], out, none⟩
  | cons d reads ih =>
    have hpre : q ++ d <+: stream encode rest := ⟨reads.flatten, by simpa using hcut⟩
    obtain ⟨es, rest, q', rfl, hw, hq'⟩ := exists_split hpre
    have hzd : (0 : UInt8) ∉ d := fun h =>
      not_mem_of_prefix_stream hz hpre (List.mem_append_right q h)
    have halive : ∀ c ∈ es ++ rest, ¬ Dies undef c := by
      rintro c hc ⟨x, hx⟩
      obtain ⟨info, hinfo⟩ := hv c hc
      simp [hinfo] at hx
    obtain ⟨s, hs, hend⟩ := drain_frames undef es rest hq' out
    rw [← hw] at hs
    cases hend with
    | early hc =>
      obtain ⟨xs, b, c, ys, rfl, -, hb⟩ := hc
      obtain ⟨info, hinfo⟩ := hv b (by simp)
      simp [Silent, hinfo] at hb
    | dead _ _ _ hdead =>
      rcases hdead with ⟨c, hc, hx⟩ | ⟨-, c, hc, hx⟩
      · exact absurd hx (halive c (by simp [hc]))
      · exact absurd hx (halive c (by simp [List.mem_of_mem_head? hc]))
    | caughtUp =>
      rw [serve_cons_alive (hreads d (by simp)) hzd hs rfl]
      have hcut' : q' ++ reads.flatten = stream encode rest := by
        rw [List.flatten_cons, ← List.append_assoc, hw, stream_append, List.append_assoc] at hcut
        exact List.append_cancel_left hcut
      have h := ih (fun e he => hreads e (by simp [he])) hq' (fun c hc => hz c (by simp [hc]))
        (fun c hc => hv c (by simp [hc])) hcut' (out ++ answers undef es)
      rw [answers_append (fun c hc => halive c (by simp [hc])), ← List.append_assoc]
      exact h

theorem verdict_serialize {undef : Undefined} {r : Request} {resp : Response}
    (h : calculatorHelper undef r = .ok resp) :
    verdict undef r.serialize = .reply (encode resp.serialize) := by
  have hlen : ¬ 2147483647 < r.serialize.length := by have := length_serialize_le r; omega
  simp only [verdict, hlen, ↓reduceIte, deserialize_serialize, h]

theorem answers_requests (undef : Undefined) (rs : List Request)
    (h : ∀ r ∈ rs, ∃ resp, calculatorHelper undef r = .ok resp) :
    ∃ resps, rs.mapM (calculatorHelper undef) = .ok resps ∧
      answers undef (rs.map Request.serialize) = resps.map fun resp => encode resp.serialize := by
  induction rs with
  | nil => exact ⟨[], rfl, rfl⟩
  | cons r rs ih =>
    obtain ⟨resp, hr⟩ := h r (by simp)
    obtain ⟨resps, hrs, hans⟩ := ih (fun x hx => h x (by simp [hx]))
    refine ⟨resp :: resps, ?_, ?_⟩
    · rw [List.mapM_cons, hr, hrs]
      rfl
    · simp only [List.map_cons, answers, verdict_serialize hr, hans]

/-- Every request gets its reply, once and in order, however the stream is cut. -/
theorem requests_answered (undef : Undefined) (rs : List Request) (hop : ∀ r ∈ rs, r.op ≠ 0)
    (hdef : ∀ r ∈ rs, Defined r) (reads : List Bytes) (hreads : ∀ d ∈ reads, GoodRead d)
    (hcut : reads.flatten = rs.flatMap fun r => encode r.serialize) :
    ∃ resps, rs.mapM (calculatorHelper undef) = .ok resps ∧
      ∃ N, ∀ fuel, N ≤ fuel → serve undef fuel start reads =
        some ⟨[], resps.map fun resp => encode resp.serialize, none⟩ := by
  have hresp : ∀ r ∈ rs, ∃ resp, calculatorHelper undef r = .ok resp :=
    fun r hr => calculatorHelper_defined undef (hdef r hr)
  obtain ⟨resps, hrs, hans⟩ := answers_requests undef rs hresp
  have hstream : reads.flatten = stream encode (rs.map Request.serialize) := by
    simpa [stream, List.flatMap_map] using hcut
  have hz : ∀ c ∈ rs.map Request.serialize, (0 : UInt8) ∉ c := by
    simpa using fun r hr => zero_not_mem_serialize (hop r hr)
  have hv : ∀ c ∈ rs.map Request.serialize, ∃ info, verdict undef c = .reply info := by
    intro c hc
    obtain ⟨r, hr, rfl⟩ := List.mem_map.mp hc
    obtain ⟨resp, hresp⟩ := hresp r hr
    exact ⟨_, verdict_serialize hresp⟩
  have h := serve_replies undef reads hreads (incomplete_nil encode_prefixCode _) hz hv
    (by simpa using hstream) []
  rw [hans, List.nil_append] at h
  exact ⟨resps, hrs, h⟩

theorem requests_answered_two :
    ∃ resps, [(⟨1, 2, 43⟩ : Request), ⟨7, 0, 32⟩].mapM (calculatorHelper wrapOrTrap) = .ok resps ∧
      ∃ N, ∀ fuel, N ≤ fuel →
        serve wrapOrTrap fuel start [[53, 10, 49], [32, 43, 32, 50, 10, 53], [10, 55, 32, 32, 32, 48, 10]] =
          some ⟨[], resps.map fun resp => encode resp.serialize, none⟩ :=
  requests_answered wrapOrTrap [⟨1, 2, 43⟩, ⟨7, 0, 32⟩] (by decide) (by decide)
    [[53, 10, 49], [32, 43, 32, 50, 10, 53], [10, 55, 32, 32, 32, 48, 10]] (by decide) (by decide)

/-- A session after `n` bytes of the stream: nothing whole is left in its buffer,
and on top of `out` it wrote the replies to the frames that have arrived. -/
def Settled (undef : Undefined) (cs out : List Bytes) (n : Nat) (s : Session) : Prop :=
  (s.died = none → ∀ c, ¬ encode c <+: s.inbufferStream) ∧
    s.written = out ++ answers undef (arrived encode cs n)

/-- The inner loop leaves the session settled after every read. -/
def DrainComplete (undef : Undefined) (cs reads : List Bytes) : Prop :=
  ∀ r, r <+: reads → ∃ s, Yields (serve undef · start r) s ∧ Settled undef cs [] r.flatten.length s

/-- The same from the middle of a run, with `q` of the next frame in the buffer. -/
def DrainsFrom (undef : Undefined) (rest : List Bytes) (q : Bytes) (out reads : List Bytes) : Prop :=
  ∀ r, r <+: reads → ∃ s, Yields (serve undef · ⟨q, out, none⟩ r) s ∧
    Settled undef rest out (q.length + r.flatten.length) s

section Steps

variable {undef : Undefined} {es rest out : List Bytes} {q q' d : Bytes} {s : Session}

theorem received_cons (hw : q ++ d = stream encode es ++ q') (r : List Bytes) :
    q.length + (d :: r).flatten.length =
      (stream encode es).length + (q'.length + r.flatten.length) := by
  have := congrArg List.length hw
  simp only [List.length_append] at this
  simp only [List.flatten_cons, List.length_append]
  omega

theorem settled_incomplete (hq : Incomplete encode rest q) (out : List Bytes) :
    Settled undef rest out q.length ⟨q, out, none⟩ := by
  refine ⟨fun _ => not_prefix_of_incomplete encode_prefixCode hq, ?_⟩
  simp [arrived_incomplete hq, answers]

/-- Counting from the next frame boundary instead of the last one. -/
theorem settled_append (halive : ∀ c ∈ es, ¬ Dies undef c) (n : Nat) :
    Settled undef (es ++ rest) out ((stream encode es).length + n) s ↔
      Settled undef rest (out ++ answers undef es) n s := by
  simp only [Settled, arrived_append, answers_append halive, List.append_assoc]

theorem settled_dead (hs : s.died ≠ none) (hw : s.written = out ++ answers undef es)
    (hdead : (∃ c ∈ es, Dies undef c) ∨ (∀ c ∈ es, ¬ Dies undef c) ∧ ∃ c ∈ rest.head?, Dies undef c)
    (n : Nat) : Settled undef (es ++ rest) out ((stream encode es).length + n) s := by
  refine ⟨fun h => absurd h hs, ?_⟩
  rw [hw, arrived_append]
  rcases hdead with hdead | ⟨halive, c, hc, e, he⟩
  · rw [answers_append_of_dies hdead]
  · -- the head of what is still to come ends the process with its header
    rw [answers_append halive]
    cases rest with
    | nil => simp at hc
    | cons x rest =>
      obtain rfl : x = c := by simpa using hc
      simp only [arrived]
      split <;> simp [answers, he]

theorem not_collides_of_dead {n : Nat} {reads : List Bytes}
    (hdead : (∃ c ∈ es, Dies undef c) ∨ (∀ c ∈ es, ¬ Dies undef c) ∧ ∃ c ∈ rest.head?, Dies undef c)
    (halive : ∀ c ∈ es, ¬ Dies undef c) :
    ¬ Collides encode (Silent undef) (Dies undef) n rest reads := by
  rintro ⟨xs, b, c, ys, r, e, r', he, hx, hb, -⟩
  rcases hdead with ⟨c, hc, hd⟩ | ⟨-, c, hc, hd⟩
  · exact halive c hc hd
  · cases xs with
    | nil =>
      obtain rfl : b = c := by simpa [he] using hc
      exact hb.not_dies hd
    | cons x xs =>
      obtain rfl : x = c := by simpa [he] using hc
      exact hx x (by simp) hd

/-- A read that leaves the session in step with the stream changes nothing about
what the later reads have to satisfy. -/
theorem drainsFrom_cons (hd : GoodRead d) (hz : (0 : UInt8) ∉ d) (hq : Incomplete encode (es ++ rest) q)
    (hw : q ++ d = stream encode es ++ q') (halive : ∀ c ∈ es, ¬ Dies undef c)
    (hs : Yields (drain undef · ⟨q ++ d, out, none⟩) ⟨q', out ++ answers undef es, none⟩)
    (reads : List Bytes) : DrainsFrom undef (es ++ rest) q out (d :: reads) ↔
      DrainsFrom undef rest q' (out ++ answers undef es) reads := by
  constructor
  · intro h r hr
    obtain ⟨t, ht, hset⟩ := h (d :: r) (by simpa using hr)
    rw [serve_cons_alive hd hz hs rfl] at ht
    rw [received_cons hw, settled_append halive] at hset
    exact ⟨t, ht, hset⟩
  · intro h r hr
    cases r with
    | nil => exact ⟨_, serve_nil undef _, settled_incomplete hq out⟩
    | cons e r =>
      obtain ⟨rfl, hpre⟩ := List.cons_prefix_cons.mp hr
      obtain ⟨t, ht, hset⟩ := h r hpre
      refine ⟨t, (serve_cons_alive hd hz hs rfl r t).mpr ht, ?_⟩
      rwa [received_cons hw, settled_append halive]

end Steps

theorem drainsFrom_iff (undef : Undefined) (reads : List Bytes) (hreads : ∀ d ∈ reads, GoodRead d)
    {rest : List Bytes} {q : Bytes} (hq : Incomplete encode rest q)
    (hz : ∀ c ∈ rest, (0 : UInt8) ∉ c) (hcut : q ++ reads.flatten <+: stream encode rest)
    (out : List Bytes) : DrainsFrom undef rest q out reads ↔
      ¬ Collides encode (Silent undef) (Dies undef) q.length rest reads := by
  induction reads generalizing rest q out with
  | nil =>
    refine ⟨fun _ => not_collides_nil _ _, fun _ r hr => ?_⟩
    obtain rfl := List.prefix_nil.mp hr
    exact ⟨_, serve_nil undef _, settled_incomplete hq out⟩
  | cons d reads ih =>
    have hpre : q ++ d <+: stream encode rest := List.IsPrefix.trans (by simp) hcut
    obtain ⟨es, rest, q', rfl, hw, hq'⟩ := exists_split hpre
    have hd := hreads d (by simp)
    have hzd : (0 : UInt8) ∉ d := fun h =>
      not_mem_of_prefix_stream hz hpre (List.mem_append_right q h)
    obtain ⟨s, hs, hend⟩ := drain_frames undef es rest hq' out
    rw [← hw] at hs
    rw [collides_cons hq hq' hw]
    cases hend with
    | early hc hs₀ hframe =>
      refine ⟨fun h => ?_, fun h => absurd (.inl hc) h⟩
      obtain ⟨t, ht, hno, -⟩ := h [d] (by simp)
      rw [serve_cons_alive hd hzd hs hs₀] at ht
      obtain rfl := (serve_nil undef s).unique ht
      obtain ⟨c, hc⟩ := hframe
      exact absurd hc (hno hs₀ c)
    | dead hc hs₀ hwritten hdead =>
      refine ⟨fun _ => ?_, fun _ r hr => ?_⟩
      · rintro (h | ⟨halive, h⟩)
        · exact hc h
        · exact not_collides_of_dead hdead halive h
      · cases r with
        | nil => exact ⟨_, serve_nil undef _, settled_incomplete hq out⟩
        | cons e r =>
          obtain ⟨rfl, -⟩ := List.cons_prefix_cons.mp hr
          refine ⟨s, serve_cons_dead hd hzd hs hs₀ r, ?_⟩
          rw [received_cons hw]
          exact settled_dead hs₀ hwritten hdead _
    | caughtUp hc halive =>
      have hcut' : q' ++ reads.flatten <+: stream encode rest := by
        rw [List.flatten_cons, ← List.append_assoc, hw, stream_append, List.append_assoc] at hcut
        exact (List.prefix_append_right_inj _).mp hcut
      have hcol : Clash (Silent undef) (Dies undef) es ∨ (∀ c ∈ es, ¬ Dies undef c) ∧
          Collides encode (Silent undef) (Dies undef) q'.length rest reads ↔
          Collides encode (Silent undef) (Dies undef) q'.length rest reads :=
        ⟨fun h => (h.resolve_left hc).2, fun h => .inr ⟨halive, h⟩⟩
      rw [hcol, drainsFrom_cons hd hzd hq hw halive hs]
      exact ih (fun e he => hreads e (by simp [he])) hq' (fun c hc => hz c (by simp [hc])) hcut' _

/-- The buffer is drained after every read exactly when no read ends a refused
payload together with the frame behind it. -/
theorem drainComplete_iff (undef : Undefined) (cs : List Bytes) (hz : ∀ c ∈ cs, (0 : UInt8) ∉ c)
    (reads : List Bytes) (hreads : ∀ d ∈ reads, GoodRead d)
    (hcut : reads.flatten = stream encode cs) :
    DrainComplete undef cs reads ↔ ¬ Collides encode (Silent undef) (Dies undef) 0 cs reads := by
  have h := drainsFrom_iff undef reads hreads (incomplete_nil encode_prefixCode cs) hz
    (by rw [List.nil_append, hcut]) []
  simpa [DrainsFrom, DrainComplete, start] using h

theorem drainComplete_iff_apart :
    DrainComplete wrapOrTrap [[120], [49, 32, 43, 32, 50]]
        [[49, 10, 120, 10, 53], [10, 49, 32, 43, 32, 50, 10]] ↔
      ¬ Collides encode (Silent wrapOrTrap) (Dies wrapOrTrap) 0 [[120], [49, 32, 43, 32, 50]]
        [[49, 10, 120, 10, 53], [10, 49, 32, 43, 32, 50, 10]] :=
  drainComplete_iff wrapOrTrap [[120], [49, 32, 43, 32, 50]] (by decide)
    [[49, 10, 120, 10, 53], [10, 49, 32, 43, 32, 50, 10]] (by decide) (by decide)

/-- One read with the frame of `"x"` and the frame of `"1 + 2"`: the request is
complete in the buffer and stays there unanswered. -/
theorem request_behind_refused_frame_waits :
    ¬ DrainComplete wrapOrTrap [[120], [49, 32, 43, 32, 50]]
        [[49, 10, 120, 10, 53, 10, 49, 32, 43, 32, 50, 10]] := by
  intro h
  obtain ⟨s, ⟨N, hN⟩, hno, -⟩ := h _ List.prefix_rfl
  have hs : serve wrapOrTrap (N + 1) start [[49, 10, 120, 10, 53, 10, 49, 32, 43, 32, 50, 10]] =
      some ⟨encode [49, 32, 43, 32, 50], [], none⟩ := rfl
  obtain rfl := Option.some.inj ((hN (N + 1) (by omega)).symm.trans hs)
  exact hno rfl [49, 32, 43, 32, 50] List.prefix_rfl

end NetDelivery
