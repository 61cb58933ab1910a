import LinuxPractice.IntGuards
import LinuxPractice.NetCodec

/-!
# What a reply says

The specification of the five operators against the switch, over the wire; and
the arithmetic the switch does on whatever request a package holds.
-/
namespace NetReplies

open CppString IntGuards NetProtocol NetServer NetCodec

/-- The exact result of a request, or the code that says why there is none. -/
def exact (r : Request) : Except Int32 Int :=
  let x := r.x.toInt
  let y := r.y.toInt
  if r.op = 43 then .ok (x + y)
  else if r.op = 45 then .ok (x - y)
  else if r.op = 42 then .ok (x * y)
  else if r.op = 47 then if y = 0 then .error divZero else .ok (x.tdiv y)
  else if r.op = 37 then if y = 0 then .error modeZero else .ok (x.tmod y)
  else .error otherOper

/-- If there is a result, an `int` can hold it. -/
def Fits (r : Request) : Prop := ∀ v ∈ (exact r).toOption, InInt v

instance (r : Request) : Decidable (Fits r) := inferInstanceAs (Decidable (∀ v ∈ _, _))

/-- Code 0 and the result, or the code alone. -/
def Agrees (resp : Response) : Except Int32 Int → Prop
  | .ok v => resp.code = 0 ∧ resp.result.toInt = v
  | .error c => resp.code = c

/-- The reply to the frame of a request, read back from the wire, agrees with its exact result. -/
def RepliesRight (undef : Undefined) (r : Request) : Prop :=
  ∃ info content resp, calculator undef (encode r.serialize) = .ok (info, []) ∧
    decode info [] = .ok ⟨true, [], content⟩ ∧
    (∀ self : Response, self.deserialize content = (.ok true, resp)) ∧ Agrees resp (exact r)

variable {undef : Undefined} {r : Request}

theorem calculator_serialize (undef : Undefined) (r : Request) :
    calculator undef (encode r.serialize) =
      match calculatorHelper undef r with
      | .error d => .error d
      | .ok resp => .ok (encode resp.serialize, []) := by
  have hlen : r.serialize.length ≤ 2147483647 := by
    have := length_serialize_le r
    omega
  have hframe := text_faithful.calculator_frame (r := r) hlen undef []
  rw [List.append_nil] at hframe
  rw [← text_calculator, ← show text.serializeRequest r = r.serialize from rfl, hframe]
  cases calculatorHelper undef r <;> rfl

/-- The wire changes nothing: it is the switch that has to be right. -/
theorem repliesRight_iff :
    RepliesRight undef r ↔ ∃ resp, calculatorHelper undef r = .ok resp ∧ Agrees resp (exact r) := by
  have hdecode : ∀ resp : Response, decode (encode resp.serialize) [] =
      .ok ⟨true, [], resp.serialize⟩ := by
    intro resp
    have hlen := Response.length_serialize_le resp
    exact decode_encode (by omega) []
  rw [RepliesRight, calculator_serialize]
  constructor
  · rintro ⟨info, content, resp, hcalc, hinfo, hread, hagrees⟩
    cases hresp : calculatorHelper undef r with
    | error d => simp [hresp] at hcalc
    | ok resp' =>
      simp only [hresp, Except.ok.injEq, Prod.mk.injEq, and_true] at hcalc
      rw [← hcalc, hdecode] at hinfo
      cases hinfo
      have hsame := (Response.deserialize_serialize resp resp').symm.trans (hread resp)
      obtain rfl : resp' = resp := (Prod.mk.inj hsame).2
      exact ⟨resp', rfl, hagrees⟩
  · rintro ⟨resp, hresp, hagrees⟩
    rw [hresp]
    exact ⟨_, resp.serialize, resp, rfl, hdecode resp,
      fun self => Response.deserialize_serialize self resp, hagrees⟩

/-- The response that says so. -/
def respond : Except Int32 Int → Response
  | .ok v => ⟨Int32.ofInt v, 0⟩
  | .error c => ⟨0, c⟩

theorem respond_agrees (hfits : Fits r) : Agrees (respond (exact r)) (exact r) := by
  cases he : exact r with
  | ok v => exact ⟨rfl, toInt_ofInt (hfits v (by simp [he, Except.toOption]))⟩
  | error c => rfl

theorem intResult_of_fits {v : Int} (hv : InInt v) :
    (intResult undef r (InInt v) v >>= fun w => pure (⟨w, 0⟩ : Response)) =
      .ok (respond (.ok v)) := by
  rw [intResult, decide_eq_true hv, if_pos rfl]
  rfl

theorem calculatorHelper_of_fits (hfits : Fits r) (hop : r.op ≠ 37) :
    calculatorHelper undef r = .ok (respond (exact r)) := by
  unfold Fits at hfits
  by_cases h43 : r.op = 43
  · have hv : InInt (r.x.toInt + r.y.toInt) := hfits _ (by simp [exact, h43, Except.toOption])
    simpa [calculatorHelper, exact, h43] using intResult_of_fits hv
  by_cases h45 : r.op = 45
  · have hv : InInt (r.x.toInt - r.y.toInt) := hfits _ (by simp [exact, h45, Except.toOption])
    simpa [calculatorHelper, exact, h45] using intResult_of_fits hv
  by_cases h42 : r.op = 42
  · have hv : InInt (r.x.toInt * r.y.toInt) := hfits _ (by simp [exact, h42, Except.toOption])
    simpa [calculatorHelper, exact, h42] using intResult_of_fits hv
  by_cases h47 : r.op = 47
  · by_cases hy : r.y.toInt = 0
    · simp [calculatorHelper, exact, h47, hy, respond, pure, Except.pure]
    · have hv : InInt (r.x.toInt.tdiv r.y.toInt) :=
        hfits _ (by simp [exact, h47, hy, Except.toOption])
      simpa [calculatorHelper, exact, h47, hy] using intResult_of_fits hv
  · simp [calculatorHelper, exact, h43, h45, h42, h47, hop, respond, pure, Except.pure]

/-- The case of `%` goes on into the default one. -/
theorem code_of_mod {resp : Response} (hop : r.op = 37)
    (h : calculatorHelper undef r = .ok resp) : resp.code = otherOper := by
  by_cases hy : r.y.toInt = 0
  · simp [calculatorHelper, hop, hy, bind, Except.bind, pure, Except.pure] at h
    rw [← h]
  · cases hv : intResult undef r (InInt (r.x.toInt.tdiv r.y.toInt)) (r.x.toInt.tmod r.y.toInt) with
    | error d => simp [calculatorHelper, hop, hy, hv, bind, Except.bind] at h
    | ok v =>
      simp [calculatorHelper, hop, hy, hv, bind, Except.bind, pure, Except.pure] at h
      rw [← h]

/-- Of the five operators only `%` is answered with another code than its own. -/
theorem helper_agrees_iff (hfits : Fits r) :
    (∃ resp, calculatorHelper undef r = .ok resp ∧ Agrees resp (exact r)) ↔ r.op ≠ 37 := by
  constructor
  · rintro ⟨resp, hresp, hagrees⟩ hop
    have hcode := code_of_mod hop hresp
    by_cases hy : r.y.toInt = 0
    · have hexact : exact r = .error modeZero := by simp [exact, hop, hy]
      rw [hexact, Agrees, hcode] at hagrees
      exact absurd hagrees (by decide)
    · have hexact : exact r = .ok (r.x.toInt.tmod r.y.toInt) := by simp [exact, hop, hy]
      rw [hexact, Agrees, hcode] at hagrees
      exact absurd hagrees.1 (by decide)
  · intro hop
    exact ⟨_, calculatorHelper_of_fits hfits hop, respond_agrees hfits⟩

/-- A request whose result fits is answered right if its operator is not `%`. -/
theorem replies_right_iff (undef : Undefined) {r : Request} (hfits : Fits r) :
    RepliesRight undef r ↔ r.op ≠ 37 := by
  rw [repliesRight_iff]
  exact helper_agrees_iff hfits

theorem replies_right_iff_sum :
    RepliesRight wrapOrTrap ⟨7, 2, 43⟩ ↔ (⟨7, 2, 43⟩ : Request).op ≠ 37 :=
  replies_right_iff wrapOrTrap (by decide)

/-- 7 % 2 and 7 % 0. -/
theorem mod_not_right :
    (Fits ⟨7, 2, 37⟩ ∧ ¬ RepliesRight wrapOrTrap ⟨7, 2, 37⟩) ∧
      Fits ⟨7, 0, 37⟩ ∧ ¬ RepliesRight wrapOrTrap ⟨7, 0, 37⟩ := by
  have hwrong : ∀ y : Int32, Fits ⟨7, y, 37⟩ → ¬ RepliesRight wrapOrTrap ⟨7, y, 37⟩ := by
    intro y hfits hright
    exact (helper_agrees_iff hfits).mp (repliesRight_iff.mp hright) rfl
  have htwo : Fits ⟨7, 2, 37⟩ := by decide
  have hzero : Fits ⟨7, 0, 37⟩ := by decide
  exact ⟨⟨htwo, hwrong 2 htwo⟩, hzero, hwrong 0 hzero⟩

/-- `Calculator` gets this request out of the package. -/
def Obtains {ε : Type} (codec : Codec ε) (p : Bytes) (r : Request) : Prop :=
  ∃ rest content, decode p [] = .ok ⟨true, rest, content⟩ ∧
    codec.deserializeRequest unsetRequest content = (.ok true, r)

/-- The check that would have to stand in front of the switch. -/
def guard (r : Request) : Bool :=
  if r.op = 43 then addFits r.x r.y
  else if r.op = 45 then subFits r.x r.y
  else if r.op = 42 then mulFits r.x r.y
  else if r.op = 47 ∨ r.op = 37 then r.y = 0 || divFits r.x r.y
  else true

theorem guard_iff : guard r ↔ Defined r := by
  have hzero : r.y = 0 ↔ r.y.toInt = 0 := by
    have h : (0 : Int32).toInt = 0 := rfl
    rw [← Int32.toInt_inj, h]
  by_cases h43 : r.op = 43
  · simp [guard, Defined, h43, addFits_iff]
  by_cases h45 : r.op = 45
  · simp [guard, Defined, h45, subFits_iff]
  by_cases h42 : r.op = 42
  · simp [guard, Defined, h42, mulFits_iff]
  by_cases hdiv : r.op = 47 ∨ r.op = 37
  · by_cases hy : r.y.toInt = 0
    · simp [guard, Defined, h43, h45, h42, hdiv, hzero.mpr hy]
    · simp [guard, Defined, h43, h45, h42, hdiv, hy, mt hzero.mp hy, divFits_iff hy]
  · simp [guard, Defined, h43, h45, h42, hdiv]

/-- A call on a package that holds a request ends as the switch does. -/
theorem Obtains.calculator {ε : Type} {codec : Codec ε} {p : Bytes} (h : Obtains codec p r) :
    ∃ rest, ∀ undef, codec.calculator undef p =
      match calculatorHelper undef r with
      | .error d => .error (.died d)
      | .ok resp => .ok (encode (codec.serializeResponse resp), rest) := by
  obtain ⟨rest, content, hdecode, hread⟩ := h
  refine ⟨rest, fun undef => ?_⟩
  cases hresp : calculatorHelper undef r with
  | error d => simp only [Codec.calculator, hdecode, hread, hresp]
  | ok resp => simp only [Codec.calculator, hdecode, hread, hresp]

/-- The outcome of a call is fixed exactly if there is no undefined arithmetic in it. -/
theorem determined_iff {ε : Type} (codec : Codec ε) (p : Bytes) :
    (∀ undef undef', codec.calculator undef p = codec.calculator undef' p) ↔
      ∀ r, Obtains codec p r → Defined r := by
  constructor
  · intro h r hr
    obtain ⟨rest, hcalc⟩ := hr.calculator
    obtain ⟨resp, hresp⟩ :=
      (calculatorHelper_returns_iff (fun _ => some 0) r).mpr (.inr (Option.some_ne_none 0))
    have heq := h (fun _ => none) (fun _ => some 0)
    rw [hcalc, hcalc, hresp] at heq
    cases hnone : calculatorHelper (fun _ => none) r with
    | error d => simp [hnone] at heq
    | ok resp' =>
      have htrap := (calculatorHelper_returns_iff (fun _ => none) r).mp ⟨resp', hnone⟩
      exact htrap.resolve_right fun hne => hne rfl
  · intro h undef undef'
    by_cases hr : ∃ r, Obtains codec p r
    · obtain ⟨r, hr⟩ := hr
      obtain ⟨rest, hcalc⟩ := hr.calculator
      rw [hcalc, hcalc, calculatorHelper_congr (h r hr) undef undef']
    · unfold Codec.calculator
      split
      · rfl
      · rfl
      · rename_i rest content hdecode
        split
        · rfl
        · rfl
        · rename_i req hread
          exact absurd ⟨req, rest, content, hdecode, hread⟩ hr

/-- The arithmetic on whatever a package holds is defined exactly if the guard passes it; and so it
is if the outcome of the call does not depend on undefined arithmetic. -/
theorem defined_iff_guard {ε : Type} (codec : Codec ε) (p : Bytes) :
    ((∀ r, Obtains codec p r → Defined r) ↔ ∀ r, Obtains codec p r → guard r = true) ∧
      ((∀ undef undef', codec.calculator undef p = codec.calculator undef' p) ↔
        ∀ r, Obtains codec p r → guard r = true) := by
  have hguard : (∀ r, Obtains codec p r → Defined r) ↔ ∀ r, Obtains codec p r → guard r = true := by
    simp only [guard_iff]
  refine ⟨hguard, ?_⟩
  rw [determined_iff, hguard]

theorem obtains_encode {ε : Type} {codec : Codec ε} (hf : codec.Faithful)
    (hlen : (codec.serializeRequest r).length ≤ 2147483647) :
    Obtains codec (encode (codec.serializeRequest r)) r := by
  exact ⟨[], codec.serializeRequest r, decode_encode hlen [], hf.request unsetRequest r⟩

/-- INT_MAX + 1 and INT_MIN / -1 arrive like every other request. -/
theorem limits_obtained :
    (Obtains text (encode (Request.serialize ⟨2147483647, 1, 43⟩)) ⟨2147483647, 1, 43⟩ ∧
      ¬ Defined ⟨2147483647, 1, 43⟩) ∧
    Obtains text (encode (Request.serialize ⟨-2147483648, -1, 47⟩)) ⟨-2147483648, -1, 47⟩ ∧
      ¬ Defined ⟨-2147483648, -1, 47⟩ := by
  have harrives : ∀ r : Request, Obtains text (encode r.serialize) r := by
    intro r
    apply obtains_encode text_faithful
    have hlen := length_serialize_le r
    exact hlen.trans (by decide)
  exact ⟨⟨harrives _, by decide⟩, harrives _, by decide⟩

end NetReplies
