import LinuxPractice.NetServer

/-!
# What a client's bytes can do to a session process

Two ways a package can go wrong in `Calculator`: a conversion throws, which
nobody catches, or the length header wraps the frame length round to zero, so
that a reply is produced and nothing is removed. Both conditions are exact.
-/
namespace NetFaults

open CppString NetProtocol NetServer

/-- The payload of the frame that the header `h` with value `len` announces. -/
def payload (t : Bytes) (len : Int32) : Bytes := t.take (toSizeT len)

/-- `c` is a blank-separated request: `op` alone between the first blank and the last. -/
def Splits (c px : Bytes) (op : UInt8) (py : Bytes) : Prop :=
  c = px ++ blankSpaceSep :: op :: blankSpaceSep :: py ∧ blankSpaceSep ∉ px ∧ blankSpaceSep ∉ py

/-- A frame has arrived whose header `h` has the value `len`; `t` is what follows it. -/
def Announces (p h t : Bytes) (len : Int32) : Prop :=
  p = h ++ protocolSep :: t ∧ protocolSep ∉ h ∧ stoi h = .ok len ∧ totalLen h len ≤ p.length

/-- The arithmetic of the request is defined, or at least does not trap. -/
def Computes (undef : Undefined) (r : Request) : Prop := Defined r ∨ undef r ≠ none

theorem deserialize_cases (c : Bytes) :
    (∃ px op py, Splits c px op py) ∨ ∀ self : Request, self.deserialize c = (.ok false, self) := by
  by_cases h : ∃ px op py, Splits c px op py
  · exact .inl h
  · exact .inr (deserialize_unsplit fun px op py hx hy he => h ⟨px, op, py, he, hx, hy⟩)

theorem Splits.deserialize {c px py : Bytes} {op : UInt8} (h : Splits c px op py) (self : Request) :
    self.deserialize c =
      match stoi px with
      | .error e => (.error e, { self with op := op })
      | .ok x =>
        match stoi py with
        | .error e => (.error e, { self with op := op, x := x })
        | .ok y => (.ok true, ⟨x, y, op⟩) := by
  obtain ⟨rfl, hx, hy⟩ := h
  exact deserialize_split hx hy op self

theorem Announces.decode {p h t : Bytes} {len : Int32} (ha : Announces p h t len) (old : Bytes) :
    decode p old = .ok ⟨true, p.drop (totalLen h len), payload t len⟩ := by
  obtain ⟨rfl, hh, hs, hle⟩ := ha
  rw [decode_header hh, hs]
  simp only [Nat.not_lt.mpr hle, ↓reduceIte, payload]

section OneCall

variable (undef : Undefined) {p h t : Bytes} {len : Int32}

theorem calculator_bad_header (hh : protocolSep ∉ h) {e : Exception} (he : stoi h = .error e) :
    calculator undef (h ++ protocolSep :: t) = .error (.uncaught e) := by
  simp only [calculator, decode_header hh, he]

theorem calculator_waits (hh : protocolSep ∉ h) (hs : stoi h = .ok len)
    (hlt : (h ++ protocolSep :: t).length < totalLen h len) :
    calculator undef (h ++ protocolSep :: t) = .ok ([], h ++ protocolSep :: t) := by
  simp only [calculator, decode_header hh, hs, hlt, ↓reduceIte]

theorem calculator_refuses (ha : Announces p h t len)
    (hr : ∀ self : Request, self.deserialize (payload t len) = (.ok false, self)) :
    calculator undef p = .ok ([], p.drop (totalLen h len)) := by
  simp only [calculator, ha.decode, hr]

theorem calculator_splits (ha : Announces p h t len) {px py : Bytes} {op : UInt8}
    (hs : Splits (payload t len) px op py) :
    calculator undef p =
      match stoi px with
      | .error e => .error (.uncaught e)
      | .ok x =>
        match stoi py with
        | .error e => .error (.uncaught e)
        | .ok y =>
          match calculatorHelper undef ⟨x, y, op⟩ with
          | .error d => .error d
          | .ok resp => .ok (encode resp.serialize, p.drop (totalLen h len)) := by
  simp only [calculator, ha.decode, hs.deserialize]
  cases stoi px with
  | error e => rfl
  | ok x => cases stoi py <;> rfl

/-- On a whole frame that splits, the call returns if every part of the answer can be computed. -/
theorem calculator_splits_eq_ok (ha : Announces p h t len) {px py : Bytes} {op : UInt8}
    (hs : Splits (payload t len) px op py) {info rest : Bytes} :
    calculator undef p = .ok (info, rest) ↔ ∃ x y resp, stoi px = .ok x ∧ stoi py = .ok y ∧
      calculatorHelper undef ⟨x, y, op⟩ = .ok resp ∧ info = encode resp.serialize ∧
      rest = p.drop (totalLen h len) := by
  rw [calculator_splits undef ha hs]
  constructor
  · intro hc
    cases hx : stoi px with
    | error e => simp [hx] at hc
    | ok x =>
      cases hy : stoi py with
      | error e => simp [hx, hy] at hc
      | ok y =>
        cases hr : calculatorHelper undef ⟨x, y, op⟩ with
        | error d => simp [hx, hy, hr] at hc
        | ok resp =>
          simp only [hx, hy, hr, Except.ok.injEq, Prod.mk.injEq] at hc
          exact ⟨x, y, resp, rfl, rfl, hr, hc.1.symm, hc.2.symm⟩
  · rintro ⟨x, y, resp, hx, hy, hr, rfl, rfl⟩
    simp only [hx, hy, hr]

end OneCall

/-- The header is a number an `int` can hold, and if its frame has arrived and
splits like a request, both operands are such numbers too and the arithmetic on
them does not trap. -/
def Harmless (undef : Undefined) (p : Bytes) : Prop :=
  ∀ h t, p = h ++ protocolSep :: t → protocolSep ∉ h →
    ∃ len, stoi h = .ok len ∧
      (totalLen h len ≤ p.length → ∀ px op py, Splits (payload t len) px op py →
        ∃ x y, stoi px = .ok x ∧ stoi py = .ok y ∧ Computes undef ⟨x, y, op⟩)

theorem calculator_returns_iff (undef : Undefined) (p : Bytes) :
    (∃ info rest, calculator undef p = .ok (info, rest)) ↔ Harmless undef p := by
  constructor
  · rintro ⟨info, rest, hc⟩ h t rfl hh
    cases hs : stoi h with
    | error e =>
      rw [calculator_bad_header undef hh hs] at hc
      cases hc
    | ok len =>
      refine ⟨len, rfl, fun hle px op py hsplit => ?_⟩
      obtain ⟨x, y, resp, hx, hy, hr, -, -⟩ :=
        (calculator_splits_eq_ok undef ⟨rfl, hh, hs, hle⟩ hsplit).mp hc
      exact ⟨x, y, hx, hy, (calculatorHelper_returns_iff undef _).mp ⟨resp, hr⟩⟩
  · intro hp
    by_cases hs : protocolSep ∈ p
    · obtain ⟨h, t, rfl, hh⟩ := List.eq_append_cons_of_mem hs
      obtain ⟨len, hlen, hreq⟩ := hp h t rfl hh
      rcases Nat.lt_or_ge (h ++ protocolSep :: t).length (totalLen h len) with hlt | hle
      · exact ⟨_, _, calculator_waits undef hh hlen hlt⟩
      · rcases deserialize_cases (payload t len) with ⟨px, op, py, hsplit⟩ | hr
        · obtain ⟨x, y, hx, hy, hcomp⟩ := hreq hle px op py hsplit
          obtain ⟨resp, hresp⟩ := (calculatorHelper_returns_iff undef _).mpr hcomp
          have hc := (calculator_splits_eq_ok undef ⟨rfl, hh, hlen, hle⟩ hsplit).mpr
            ⟨x, y, resp, hx, hy, hresp, rfl, rfl⟩
          exact ⟨_, _, hc⟩
        · exact ⟨_, _, calculator_refuses undef ⟨rfl, hh, hlen, hle⟩ hr⟩
    · exact ⟨[], p, by simp only [calculator, decode_no_separator hs]⟩

/-- `"a\n"`: a header without a digit. -/
theorem calculator_throws_on_letter :
    ¬ ∃ info rest, calculator wrapOrTrap [97, 10] = .ok (info, rest) := by
  rintro ⟨info, rest, h⟩
  have he : calculator wrapOrTrap [97, 10] = .error (.uncaught .invalidArgument) := by decide
  rw [he] at h
  cases h

end NetFaults
