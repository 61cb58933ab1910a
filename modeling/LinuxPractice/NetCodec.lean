import LinuxPractice.NetFaults

/-!
# The codecs of a request and a response

What a build puts behind `Serialize` and `Deserialize`, and `Calculator` over
it. The text codec restores what it wrote, but it reads more than it writes:
`stoi` takes a number from the front of an operand and throws without one.
-/
namespace NetCodec

open CppString Decimal NetProtocol NetServer NetFaults

/-- One side of `#ifdef Myself`. `ε` is what a `Deserialize` can throw. -/
structure Codec (ε : Type) where
  serializeRequest : Request → Bytes
  deserializeRequest : Request → Bytes → Except ε Bool × Request
  serializeResponse : Response → Bytes
  deserializeResponse : Response → Bytes → Except ε Bool × Response

def text : Codec Exception where
  serializeRequest := Request.serialize
  deserializeRequest := Request.deserialize
  serializeResponse := Response.serialize
  deserializeResponse := Response.deserialize

/-- How a call of `Calculator` ends that does not return. -/
inductive Stop (ε : Type) where
  | thrown : ε → Stop ε
  | died : Death → Stop ε
  deriving DecidableEq, Repr

/-- What the codec throws nobody catches. -/
def Stop.toDeath : Stop Exception → Death
  | .thrown e => .uncaught e
  | .died d => d

/-- `Calculator`, with `Deserialize` and `Serialize` left open. -/
def Codec.calculator {ε : Type} (codec : Codec ε) (undef : Undefined) (package : Bytes) :
    Except (Stop ε) (Bytes × Bytes) :=
  match decode package [] with
  | .error e => .error (.died (.uncaught e))
  | .ok ⟨false, package, _⟩ => .ok ([], package)
  | .ok ⟨true, package, content⟩ =>
    match codec.deserializeRequest unsetRequest content with
    | (.error e, _) => .error (.thrown e)
    | (.ok false, _) => .ok ([], package)
    | (.ok true, req) =>
      match calculatorHelper undef req with
      | .error d => .error (.died d)
      | .ok resp => .ok (encode (codec.serializeResponse resp), package)

theorem text_calculator (undef : Undefined) (p : Bytes) :
    (text.calculator undef p).mapError Stop.toDeath = NetServer.calculator undef p := by
  unfold Codec.calculator NetServer.calculator
  cases decode p [] with
  | error e => rfl
  | ok d =>
    obtain ⟨ok, rest, content⟩ := d
    cases ok with
    | false => rfl
    | true =>
      simp only [text]
      rcases unsetRequest.deserialize content with ⟨e | accepted, req⟩
      · rfl
      · cases accepted with
        | false => rfl
        | true =>
          dsimp only
          cases calculatorHelper undef req <;> rfl

/-- What was serialized is read back, into any object. -/
structure Codec.Faithful {ε : Type} (codec : Codec ε) : Prop where
  request : ∀ self r, codec.deserializeRequest self (codec.serializeRequest r) = (.ok true, r)
  response : ∀ self r, codec.deserializeResponse self (codec.serializeResponse r) = (.ok true, r)

/-- What is serialized fits into a frame, and no byte of it ends a C string. -/
structure Codec.Sound {ε : Type} (codec : Codec ε) : Prop extends codec.Faithful where
  requestShort : ∀ r, (codec.serializeRequest r).length ≤ 2147483647
  responseShort : ∀ r, (codec.serializeResponse r).length ≤ 2147483647
  requestText : ∀ r, r.op ≠ 0 → 0 ∉ codec.serializeRequest r
  responseText : ∀ r, 0 ∉ codec.serializeResponse r

theorem text_faithful : text.Faithful :=
  ⟨NetProtocol.deserialize_serialize, Response.deserialize_serialize⟩

/-- A package that starts with the frame of a request is answered. -/
theorem Codec.Faithful.calculator_frame {ε : Type} {codec : Codec ε} (hf : codec.Faithful)
    {r : Request} (hlen : (codec.serializeRequest r).length ≤ 2147483647) (undef : Undefined)
    (t : Bytes) : codec.calculator undef (encode (codec.serializeRequest r) ++ t) =
      match calculatorHelper undef r with
      | .error d => .error (.died d)
      | .ok resp => .ok (encode (codec.serializeResponse resp), t) := by
  simp only [Codec.calculator, decode_encode_append hlen, hf.request]

theorem text_sound : text.Sound where
  toFaithful := text_faithful
  requestShort r := (length_serialize_le r).trans (by decide)
  responseShort r := (Response.length_serialize_le r).trans (by decide)
  requestText _ hop := zero_not_mem_serialize hop
  responseText := Response.zero_not_mem_serialize

/-- The text codec restores every request and every response. -/
theorem text_round_trip :
    (∀ self r : Request, self.deserialize r.serialize = (.ok true, r)) ∧
      ∀ self r : Response, self.deserialize r.serialize = (.ok true, r) :=
  ⟨text_faithful.request, text_faithful.response⟩

/-- The number a literal stands for: at most a minus sign, and digits up to the end. -/
def literal : Bytes → Option Int
  | 45 :: ds => (parse ds).map fun n : Nat => -(n : Int)
  | ds => (parse ds).map fun n : Nat => (n : Int)

/-- `int blank char blank int`. -/
def Grammar (input : Bytes) (r : Request) : Prop :=
  ∃ px py, input = px ++ blankSpaceSep :: r.op :: blankSpaceSep :: py ∧
    literal px = some r.x.toInt ∧ literal py = some r.y.toInt

/-- Accepted with these values if the grammar says so, else refused and nothing assigned. -/
def Exact (self : Request) (input : Bytes) : Prop :=
  (∀ r, Grammar input r → self.deserialize input = (.ok true, r)) ∧
    ((¬ ∃ r, Grammar input r) → self.deserialize input = (.ok false, self))

theorem parse_eq_some_iff {ds : Bytes} {n : Nat} :
    parse ds = some n ↔ ds ≠ [] ∧ (∀ b ∈ ds, isDigit b) ∧ value ds = n := by
  rw [parse, Option.ite_none_right_eq_some, Option.some.injEq, and_assoc, List.all_eq_true]

/-- The two forms of a literal. -/
theorem literal_eq_some {s : Bytes} {v : Int} (h : literal s = some v) :
    ∃ ds n, parse ds = some n ∧ (s = 45 :: ds ∧ v = -(n : Int) ∨ s = ds ∧ v = n) := by
  unfold literal at h
  split at h
  · rename_i ds
    obtain ⟨n, hn, rfl⟩ := Option.map_eq_some_iff.mp h
    exact ⟨ds, n, hn, .inl ⟨rfl, rfl⟩⟩
  · obtain ⟨n, hn, rfl⟩ := Option.map_eq_some_iff.mp h
    exact ⟨s, n, hn, .inr ⟨rfl, rfl⟩⟩

theorem strtol_literal {s : Bytes} {v : Int} (h : literal s = some v) : strtol s = some v := by
  obtain ⟨ds, n, hn, ⟨rfl, rfl⟩ | ⟨rfl, rfl⟩⟩ := literal_eq_some h
  · obtain ⟨hne, hd, rfl⟩ := parse_eq_some_iff.mp hn
    exact strtol_minus hne hd
  · obtain ⟨hne, hd, rfl⟩ := parse_eq_some_iff.mp hn
    exact strtol_digits hne hd

theorem blankSpaceSep_not_mem_literal {s : Bytes} {v : Int} (h : literal s = some v) :
    blankSpaceSep ∉ s := by
  have hdigits : ∀ {ds : Bytes} {n : Nat}, parse ds = some n → blankSpaceSep ∉ ds := by
    intro ds n hn hblank
    have hdigit := (parse_eq_some_iff.mp hn).2.1 _ hblank
    exact absurd hdigit (by decide)
  obtain ⟨ds, n, hn, ⟨rfl, -⟩ | ⟨rfl, -⟩⟩ := literal_eq_some h
  · rw [List.mem_cons, not_or]
    exact ⟨by decide, hdigits hn⟩
  · exact hdigits hn

theorem literal_print (n : Nat) : literal (print n) = some (n : Int) := by
  have hfirst : ∀ ds, print n ≠ 45 :: ds := by
    intro ds he
    have hdigit : isDigit 45 := isDigit_of_mem_print (n := n) (by simp [he])
    exact absurd hdigit (by decide)
  rw [literal, parse_print, Option.map_some]
  exact hfirst

theorem literal_toStringInt (x : Int32) : literal (toStringInt x) = some x.toInt := by
  rw [toStringInt]
  split
  · rw [literal, parse_print, Option.map_some]
    congr 1
    omega
  · rw [literal_print]
    congr 1
    omega

theorem Grammar.splits {input : Bytes} {r : Request} (h : Grammar input r) :
    ∃ px py, Splits input px r.op py ∧ literal px = some r.x.toInt ∧
      literal py = some r.y.toInt := by
  obtain ⟨px, py, hinput, hx, hy⟩ := h
  exact ⟨px, py, ⟨hinput, blankSpaceSep_not_mem_literal hx, blankSpaceSep_not_mem_literal hy⟩,
    hx, hy⟩

/-- Between its first blank and its last there is one place to cut an input. -/
theorem splits_unique {c px py px' py' : Bytes} {op op' : UInt8} (h : Splits c px op py)
    (h' : Splits c px' op' py') : px = px' ∧ op = op' ∧ py = py' := by
  obtain ⟨rfl, hx, -⟩ := h
  obtain ⟨he, hx', -⟩ := h'
  obtain ⟨rfl, ht⟩ := append_cons_inj hx hx' he
  simp only [List.cons.injEq] at ht
  exact ⟨rfl, ht.1, ht.2.2⟩

theorem Grammar.deserialize {input : Bytes} {r : Request} (h : Grammar input r) (self : Request) :
    self.deserialize input = (.ok true, r) := by
  obtain ⟨px, py, hs, hx, hy⟩ := h.splits
  rw [hs.deserialize, stoi_eq_ok_iff.mpr (strtol_literal hx),
    stoi_eq_ok_iff.mpr (strtol_literal hy)]

/-- An input of the right shape is never refused. -/
theorem not_refused_of_splits {c px py : Bytes} {op : UInt8} (h : Splits c px op py)
    (self : Request) : self.deserialize c ≠ (.ok false, self) := by
  rw [h.deserialize]
  cases stoi px with
  | error e => simp
  | ok x =>
    cases stoi py with
    | error e => simp
    | ok y => simp

/-- `Deserialize` follows the grammar exactly on the inputs whose operands are literals, if there is
one byte between the first blank and the last. -/
theorem exact_iff_literals (self : Request) (input : Bytes) :
    Exact self input ↔ ∀ px op py, Splits input px op py →
      ∃ x y : Int32, literal px = some x.toInt ∧ literal py = some y.toInt := by
  constructor
  · rintro ⟨-, hrefused⟩ px op py hs
    by_cases hg : ∃ r, Grammar input r
    · obtain ⟨r, hr⟩ := hg
      obtain ⟨px', py', hs', hx, hy⟩ := hr.splits
      obtain ⟨rfl, rfl, rfl⟩ := splits_unique hs hs'
      exact ⟨r.x, r.y, hx, hy⟩
    · exact absurd (hrefused hg) (not_refused_of_splits hs self)
  · intro h
    refine ⟨fun r hr => hr.deserialize self, fun hg => ?_⟩
    rcases deserialize_cases input with ⟨px, op, py, hs⟩ | hrefused
    · obtain ⟨x, y, hx, hy⟩ := h px op py hs
      exact absurd ⟨⟨x, y, op⟩, px, py, hs.1, hx, hy⟩ hg
    · exact hrefused self

/-- "1x + 2" is accepted as "1 + 2", and of "1 + x" the 1 and the + are kept. -/
theorem operand_garbage : ¬ Exact unsetRequest [49, 120, 32, 43, 32, 50] ∧
    ¬ Exact unsetRequest [49, 32, 43, 32, 120] := by
  have hletter : ∀ {input px py : Bytes} {op : UInt8}, Splits input px op py →
      literal px = none ∨ literal py = none → ¬ ∃ r, Grammar input r := by
    rintro input px py op hs hnone ⟨r, hr⟩
    obtain ⟨px', py', hs', hx, hy⟩ := hr.splits
    obtain ⟨rfl, -, rfl⟩ := splits_unique hs hs'
    simp [hx, hy] at hnone
  constructor
  · rintro ⟨-, hrefused⟩
    have hs : Splits [49, 120, 32, 43, 32, 50] [49, 120] 43 [50] :=
      ⟨rfl, by decide, by decide⟩
    exact absurd (hrefused (hletter hs (.inl (by decide)))) (by decide)
  · rintro ⟨-, hrefused⟩
    have hs : Splits [49, 32, 43, 32, 120] [49] 43 [120] := ⟨rfl, by decide, by decide⟩
    exact absurd (hrefused (hletter hs (.inr (by decide)))) (by decide)

end NetCodec
