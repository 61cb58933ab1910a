import LinuxPractice.NetJsonFlat

/-!
# The calculator of the default build

`Calculator` asks `Deserialize` whether the payload is a request, and is never
told that it is not.
-/
namespace NetJsonCalculator

open CppString NetProtocol NetServer NetCodec NetJson NetJsonFlat

/-- A reply is one to the request in the payload, and without a request nothing is evaluated and
nothing sent. -/
def Guarded (j : Jsoncpp) (undef : Undefined) (p rest content : Bytes) : Prop :=
  (∀ info left, (json j).calculator undef p = .ok (info, left) → info ≠ [] →
    ∃ r resp, Genuine j content r ∧ calculatorHelper undef r = .ok resp ∧
      info = encode (serializeResponse j resp)) ∧
  ((¬ ∃ r, Genuine j content r) → (json j).calculator undef p = .ok ([], rest))

variable {j : Jsoncpp} {p rest content : Bytes}

/-- A whole frame is answered or kills the process. -/
theorem calculator_ne_empty (undef : Undefined) (hframe : decode p [] = .ok ⟨true, rest, content⟩)
    (left : Bytes) : (json j).calculator undef p ≠ .ok ([], left) := by
  have hne := deserializeRequest_ne_false (j := j) unsetRequest content
  simp only [Codec.calculator, hframe, json]
  rcases hread : deserializeRequest j unsetRequest content with ⟨e | accepted, r⟩
  · simp
  · cases accepted with
    | false => exact absurd (congrArg Prod.fst hread) hne
    | true =>
      dsimp only
      cases calculatorHelper undef r with
      | error d => simp
      | ok resp => simp [encode_ne_nil]

/-- What is not JSON is answered, with the code for an unknown operator. -/
theorem calculator_unparsed (hj : j.Reads) (undef : Undefined)
    (hframe : decode p [] = .ok ⟨true, rest, content⟩) (h : (j.parse content).1 = false) :
    (json j).calculator undef p = .ok (encode (serializeResponse j ⟨0, otherOper⟩), rest) := by
  simp only [Codec.calculator, hframe, json, deserialize_unparsed hj h]
  rfl

/-- Nothing tells a frame without a request from one with a request. -/
theorem guarded_iff_genuine (hj : j.Reads) (undef : Undefined)
    (hframe : decode p [] = .ok ⟨true, rest, content⟩) :
    Guarded j undef p rest content ↔ ∃ r, Genuine j content r := by
  constructor
  · rintro ⟨-, hnone⟩
    by_contra hcon
    exact calculator_ne_empty undef hframe rest (hnone hcon)
  · rintro ⟨r, hr⟩
    refine ⟨fun info left hcalc hinfo => ?_, fun hcon => absurd ⟨r, hr⟩ hcon⟩
    simp only [Codec.calculator, hframe, json, hr.deserialize hj] at hcalc
    cases hresp : calculatorHelper undef r with
    | error d => simp [hresp] at hcalc
    | ok resp =>
      simp only [hresp, Except.ok.injEq, Prod.mk.injEq] at hcalc
      exact ⟨r, resp, hr, hresp, hcalc.1.symm⟩

/-- `{"x":1,"y":2,"op":43}`, and the same with 299 for the operator. -/
def sumText : Bytes :=
  [123, 34, 120, 34, 58, 49, 44, 34, 121, 34, 58, 50, 44, 34, 111, 112, 34, 58, 52, 51, 125]
def wideText : Bytes :=
  [123, 34, 120, 34, 58, 49, 44, 34, 121, 34, 58, 50, 44, 34, 111, 112, 34, 58, 50, 57, 57, 125]

theorem guarded_iff_genuine_sum :
    Guarded flat wrapOrTrap (encode sumText) [] sumText ↔ ∃ r, Genuine flat sumText r :=
  guarded_iff_genuine flat_reads wrapOrTrap (decode_encode (by decide) [])

/-- It is answered with the code 0 and the result 3. -/
example : (json flat).calculator wrapOrTrap (encode sumText) =
    .ok (encode (serializeResponse flat ⟨3, 0⟩), []) := rfl

/-- An `x` instead of an object, and 299, of which `+` is left. -/
theorem garbage_evaluated :
    ¬ Guarded flat wrapOrTrap (encode [120]) [] [120] ∧
      ¬ Guarded flat wrapOrTrap (encode wideText) [] wideText := by
  constructor
  · rintro ⟨-, hnone⟩
    have hgarbage : ¬ ∃ r, Genuine flat [120] r := by
      rintro ⟨r, hparse, -⟩
      exact absurd hparse (by decide)
    have hanswered := calculator_unparsed flat_reads wrapOrTrap (decode_encode (by decide) [])
      (by decide : (flat.parse [120]).1 = false)
    rw [hnone hgarbage] at hanswered
    exact encode_ne_nil _ (Prod.mk.inj (Except.ok.inj hanswered)).1.symm
  · rintro ⟨-, hnone⟩
    have hwide : ¬ ∃ r, Genuine flat wideText r := by
      rintro ⟨r, -, -, x, y, op, -, -, -, -, hop, hvalue⟩
      have hmember : flat.member (flat.parse wideText).2 opKey = .ok (.int 299) := rfl
      obtain rfl : Value.int 299 = op := Except.ok.inj (hmember.symm.trans hop)
      have hchar : 299 = ofChar r.op := Option.some.inj hvalue
      have hbounds := ofChar_bounds r.op
      omega
    exact calculator_ne_empty wrapOrTrap (decode_encode (by decide) []) [] (hnone hwide)

end NetJsonCalculator
