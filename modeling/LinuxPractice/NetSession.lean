import LinuxPractice.NetServer

/-!
# One connection against the stream of frames its client sends

The client's bytes are cut into reads without regard to frames. The lemmas
follow the session from one read to the next: between reads it holds the strict
beginning of the next frame, as long as no read completes a payload that
`Deserialize` refuses together with the frame behind it.
-/
namespace NetSession

open CppString Decimal NetProtocol NetServer Framing

/-- The result all large enough amounts of fuel agree on. -/
def Yields {α : Type} (f : Nat → Option α) (a : α) : Prop := ∃ N, ∀ fuel, N ≤ fuel → f fuel = some a

theorem Yields.unique {α : Type} {f : Nat → Option α} {a b : α} (ha : Yields f a)
    (hb : Yields f b) : a = b := by
  obtain ⟨m, hm⟩ := ha
  obtain ⟨n, hn⟩ := hb
  exact Option.some.inj ((hm (max m n) (by omega)).symm.trans (hn (max m n) (by omega)))

theorem Yields.congr {α : Type} {f g : Nat → Option α} {N : Nat}
    (h : ∀ fuel, N ≤ fuel → f fuel = g fuel) (a : α) : Yields f a ↔ Yields g a := by
  constructor
  · rintro ⟨M, hM⟩
    exact ⟨max M N, fun fuel hle => (h fuel (by omega)).symm.trans (hM fuel (by omega))⟩
  · rintro ⟨M, hM⟩
    exact ⟨max M N, fun fuel hle => (h fuel (by omega)).trans (hM fuel (by omega))⟩

/-- What a whole frame does to the session: it is answered, taken without an
answer, or the end of the process. -/
inductive Verdict where
  | reply : Bytes → Verdict
  | silent : Verdict
  | dies : Death → Verdict
  deriving DecidableEq, Repr

def verdict (undef : Undefined) (c : Bytes) : Verdict :=
  if 2147483647 < c.length then .dies (.uncaught .outOfRange)
  else
    match unsetRequest.deserialize c with
    | (.error e, _) => .dies (.uncaught e)
    | (.ok false, _) => .silent
    | (.ok true, req) =>
      match calculatorHelper undef req with
      | .error d => .dies d
      | .ok resp => .reply (encode resp.serialize)

def Silent (undef : Undefined) (c : Bytes) : Prop := verdict undef c = .silent

def Dies (undef : Undefined) (c : Bytes) : Prop := ∃ d, verdict undef c = .dies d

/-- The replies to a list of payloads, up to one that ends the process. -/
def answers (undef : Undefined) : List Bytes → List Bytes
  | [] => []
  | c :: cs =>
    match verdict undef c with
    | .reply info => info :: answers undef cs
    | .silent => answers undef cs
    | .dies _ => []

theorem Silent.not_dies {undef : Undefined} {c : Bytes} (h : Silent undef c) : ¬ Dies undef c := by
  rintro ⟨d, hd⟩
  simp [Silent, hd] at h

theorem answers_append {undef : Undefined} {cs : List Bytes} (h : ∀ c ∈ cs, ¬ Dies undef c)
    (ds : List Bytes) : answers undef (cs ++ ds) = answers undef cs ++ answers undef ds := by
  induction cs with
  | nil => rfl
  | cons c cs ih =>
    have hcs := ih (fun x hx => h x (by simp [hx]))
    cases hv : verdict undef c with
    | reply info => simp [answers, hv, hcs]
    | silent => simp [answers, hv, hcs]
    | dies d => exact absurd ⟨d, hv⟩ (h c (by simp))

/-- Nothing behind a payload that ends the process is answered. -/
theorem answers_append_of_dies {undef : Undefined} {cs : List Bytes} (h : ∃ c ∈ cs, Dies undef c)
    (ds : List Bytes) : answers undef (cs ++ ds) = answers undef cs := by
  induction cs with
  | nil => simp at h
  | cons c cs ih =>
    cases hv : verdict undef c with
    | reply info =>
      obtain ⟨x, hx, hd⟩ := h
      rcases List.mem_cons.mp hx with rfl | hx
      · obtain ⟨d, hd⟩ := hd; simp [hv] at hd
      · simp [answers, hv, ih ⟨x, hx, hd⟩]
    | silent =>
      obtain ⟨x, hx, hd⟩ := h
      rcases List.mem_cons.mp hx with rfl | hx
      · obtain ⟨d, hd⟩ := hd; simp [hv] at hd
      · simp [answers, hv, ih ⟨x, hx, hd⟩]
    | dies d => simp [answers, hv]

theorem stoi_print_large {n : Nat} (h : 2147483647 < n) : stoi (print n) = .error .outOfRange := by
  have hin : ¬ InInt n := by rintro ⟨-, hi⟩; omega
  simp only [stoi, strtol_print, hin, ↓reduceIte]

theorem decode_large {c q : Bytes} (hc : 2147483647 < c.length) {t : Bytes}
    (hq : q <+: encode c ++ t) (hs : protocolSep ∈ q) (old : Bytes) :
    decode q old = .error .outOfRange := by
  obtain ⟨h, u, rfl, hh⟩ := List.eq_append_cons_of_mem hs
  obtain ⟨v, hv⟩ := hq
  rw [encode_eq, List.append_assoc, List.append_assoc, List.cons_append, List.cons_append] at hv
  obtain ⟨rfl, -⟩ := append_cons_inj hh (protocolSep_not_mem_print _) hv
  rw [decode_header hh, stoi_print_large hc]

/-- A package that starts with a whole frame. -/
theorem calculator_frame (undef : Undefined) (c t : Bytes) :
    calculator undef (encode c ++ t) =
      match verdict undef c with
      | .reply info => .ok (info, t)
      | .silent => .ok ([], t)
      | .dies d => .error d := by
  by_cases hc : 2147483647 < c.length
  · have hs : protocolSep ∈ encode c ++ t := by simp [encode]
    simp only [calculator, decode_large hc List.prefix_rfl hs, verdict, hc, ↓reduceIte]
  · simp only [calculator, decode_encode_append (Nat.not_lt.mp hc), verdict, hc, ↓reduceIte]
    rcases unsetRequest.deserialize c with ⟨e | accepted, req⟩
    · rfl
    · cases accepted with
      | false => rfl
      | true =>
        dsimp only
        cases calculatorHelper undef req <;> rfl

/-- A package that holds only the beginning of a frame: nothing happens, unless
the header alone is already too large for an `int`. -/
theorem calculator_incomplete (undef : Undefined) {c q : Bytes} (hq : q <+: encode c)
    (hne : q ≠ encode c) :
    calculator undef q = .ok ([], q) ∨
      ∃ d, calculator undef q = .error d ∧ verdict undef c = .dies d := by
  by_cases hc : 2147483647 < c.length
  · by_cases hs : protocolSep ∈ q
    · right
      refine ⟨.uncaught .outOfRange, ?_, by simp only [verdict, hc, ↓reduceIte]⟩
      simp only [calculator, decode_large (t := []) hc (by simpa using hq) hs]
    · left
      simp only [calculator, decode_no_separator hs]
  · left
    simp only [calculator, decode_incomplete (Nat.not_lt.mp hc) hq hne]

theorem calculator_nil (undef : Undefined) : calculator undef [] = .ok ([], []) := by
  simp only [calculator, decode_no_separator List.not_mem_nil]

theorem reply_ne_nil {undef : Undefined} {c info : Bytes} (h : verdict undef c = .reply info) :
    info ≠ [] := by
  simp only [verdict] at h
  split at h
  · cases h
  · split at h
    · cases h
    · cases h
    · split at h
      · cases h
      · cases h
        exact encode_ne_nil _

theorem drain_reply {undef : Undefined} {c info t : Bytes} {out : List Bytes} {s : Session}
    (hv : verdict undef c = .reply info)
    (h : Yields (drain undef · ⟨t, out ++ [info], none⟩) s) :
    Yields (drain undef · ⟨encode c ++ t, out, none⟩) s := by
  obtain ⟨N, hN⟩ := h
  refine ⟨N + 1, fun fuel hle => ?_⟩
  obtain ⟨k, rfl⟩ : ∃ k, fuel = k + 1 := ⟨fuel - 1, by omega⟩
  have hinfo : info.isEmpty = false := by simpa using reply_ne_nil hv
  simp only [drain, calculator_frame, hv, hinfo, Bool.false_eq_true, ↓reduceIte]
  exact hN k (by omega)

/-- The loop stops at an empty reply, whatever the reason for it. -/
theorem drain_empty {undef : Undefined} {p t : Bytes} (h : calculator undef p = .ok ([], t))
    (out : List Bytes) : Yields (drain undef · ⟨p, out, none⟩) ⟨t, out, none⟩ := by
  refine ⟨1, fun fuel hle => ?_⟩
  obtain ⟨k, rfl⟩ : ∃ k, fuel = k + 1 := ⟨fuel - 1, by omega⟩
  simp only [drain, h, List.isEmpty_nil, ↓reduceIte]

theorem drain_error {undef : Undefined} {p : Bytes} {d : Death} (h : calculator undef p = .error d)
    (out : List Bytes) : Yields (drain undef · ⟨p, out, none⟩) ⟨p, out, some d⟩ := by
  refine ⟨1, fun fuel hle => ?_⟩
  obtain ⟨k, rfl⟩ : ∃ k, fuel = k + 1 := ⟨fuel - 1, by omega⟩
  simp only [drain, h]

/-- How the inner loop can leave some whole frames `es` and the beginning `q` of
the next one: early, at a refused payload with a frame behind it; with the end
of the process; or with every frame taken and only `q` left. -/
inductive DrainEnd (undef : Undefined) (es rest : List Bytes) (q : Bytes) (out : List Bytes) :
    Session → Prop where
  | early {s : Session} : Clash (Silent undef) (Dies undef) es → s.died = none →
      (∃ c, encode c <+: s.inbufferStream) → DrainEnd undef es rest q out s
  | dead {s : Session} : ¬ Clash (Silent undef) (Dies undef) es → s.died ≠ none →
      s.written = out ++ answers undef es →
      ((∃ c ∈ es, Dies undef c) ∨ (∀ c ∈ es, ¬ Dies undef c) ∧ ∃ c ∈ rest.head?, Dies undef c) →
      DrainEnd undef es rest q out s
  | caughtUp : ¬ Clash (Silent undef) (Dies undef) es → (∀ c ∈ es, ¬ Dies undef c) →
      DrainEnd undef es rest q out ⟨q, out ++ answers undef es, none⟩

theorem not_clash_nil (undef : Undefined) : ¬ Clash (Silent undef) (Dies undef) [] := by
  rintro ⟨xs, b, c, ys, h, -⟩
  simp at h

theorem clash_cons_reply {undef : Undefined} {e info : Bytes} {es : List Bytes}
    (hv : verdict undef e = .reply info) :
    Clash (Silent undef) (Dies undef) (e :: es) ↔ Clash (Silent undef) (Dies undef) es := by
  constructor
  · rintro ⟨xs, b, c, ys, he, hx, hb⟩
    cases xs with
    | nil =>
      simp only [List.nil_append, List.cons.injEq] at he
      simp [Silent, ← he.1, hv] at hb
    | cons x xs =>
      exact ⟨xs, b, c, ys, (List.cons.inj he).2, fun y hy => hx y (by simp [hy]), hb⟩
  · rintro ⟨xs, b, c, ys, rfl, hx, hb⟩
    refine ⟨e :: xs, b, c, ys, rfl, ?_, hb⟩
    intro y hy
    rcases List.mem_cons.mp hy with rfl | hy
    · rintro ⟨d, hd⟩
      simp [hv] at hd
    · exact hx y hy

/-- A frame that answers itself leaves the rest to the same loop. -/
theorem DrainEnd.cons_reply {undef : Undefined} {e info q : Bytes} {es rest out : List Bytes}
    {s : Session} (hv : verdict undef e = .reply info)
    (h : DrainEnd undef es rest q (out ++ [info]) s) : DrainEnd undef (e :: es) rest q out s := by
  have hnd : ¬ Dies undef e := by rintro ⟨d, hd⟩; simp [hv] at hd
  have hans : out ++ [info] ++ answers undef es = out ++ answers undef (e :: es) := by
    simp [answers, hv]
  cases h with
  | early hc hd hp => exact .early ((clash_cons_reply hv).mpr hc) hd hp
  | dead hc hd hw hx =>
    exact .dead (by rwa [clash_cons_reply hv]) hd (by rw [hw, hans]) (by simpa [hnd] using hx)
  | caughtUp hc hx =>
    rw [hans]
    exact .caughtUp (by rwa [clash_cons_reply hv]) (by simpa [hnd] using hx)

/-- The inner loop ends on every buffer that starts at a frame boundary. -/
theorem drain_frames (undef : Undefined) (es rest : List Bytes) {q : Bytes}
    (hq : Incomplete encode rest q) (out : List Bytes) :
    ∃ s, Yields (drain undef · ⟨stream encode es ++ q, out, none⟩) s ∧
      DrainEnd undef es rest q out s := by
  induction es generalizing out with
  | nil =>
    have hstay : DrainEnd undef [] rest q out ⟨q, out ++ answers undef [], none⟩ :=
      .caughtUp (not_clash_nil undef) (by simp)
    rw [answers, List.append_nil] at hstay
    cases rest with
    | nil =>
      obtain rfl : q = [] := hq
      exact ⟨_, drain_empty (calculator_nil undef) out, hstay⟩
    | cons c rest =>
      rcases calculator_incomplete undef hq.1 hq.2 with h | ⟨d, h, hd⟩
      · exact ⟨_, drain_empty h out, hstay⟩
      · exact ⟨_, drain_error h out,
          .dead (not_clash_nil undef) (by simp) (by simp [answers]) (.inr ⟨by simp, c, rfl, d, hd⟩)⟩
  | cons e es ih =>
    simp only [stream_cons, List.append_assoc]
    cases hv : verdict undef e with
    | reply info =>
      obtain ⟨s, hs, h⟩ := ih (out ++ [info])
      exact ⟨s, drain_reply hv hs, h.cons_reply hv⟩
    | silent =>
      have hs : Silent undef e := hv
      refine ⟨_, drain_empty (by rw [calculator_frame, hv]) out, ?_⟩
      cases es with
      | nil =>
        have hnc : ¬ Clash (Silent undef) (Dies undef) [e] := by
          rintro ⟨xs, b, c, ys, he, -⟩
          have := congrArg List.length he
          simp only [List.length_cons, List.length_append, List.length_nil] at this
          omega
        have h : DrainEnd undef [e] rest q out ⟨q, out ++ answers undef [e], none⟩ :=
          .caughtUp hnc (by simpa using hs.not_dies)
        simpa [answers, hv] using h
      | cons c es => exact .early ⟨[], e, c, es, rfl, by simp, hv⟩ rfl ⟨c, by simp⟩
    | dies d =>
      have hde : Dies undef e := ⟨d, hv⟩
      refine ⟨_, drain_error (by rw [calculator_frame, hv]) out,
        .dead ?_ (by simp) (by simp [answers, hv]) (.inl ⟨e, by simp, hde⟩)⟩
      rintro ⟨xs, b, c, ys, he, hx, hb⟩
      cases xs with
      | nil =>
        simp only [List.nil_append, List.cons.injEq] at he
        exact hb.not_dies (he.1 ▸ hde)
      | cons x xs => exact hx e (by simp [(List.cons.inj he).1]) hde

end NetSession
