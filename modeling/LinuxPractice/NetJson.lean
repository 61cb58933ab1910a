import LinuxPractice.NetCodec

/-!
# The default build

`Request` and `Response` over jsoncpp, which is a parameter. `Deserialize`
drops what `parse` returns and narrows the operator, and it always returns true.
-/
namespace NetJson

open CppString Decimal NetProtocol NetServer NetCodec

/-- What the codecs use of jsoncpp. `member` is `root[key]`, `assign` is `root[key] = x`. -/
structure Jsoncpp where
  Value : Type
  Error : Type
  null : Value
  parse : Bytes → Bool × Value
  member : Value → Bytes → Except Error Value
  asInt : Value → Except Error Int32
  assign : Value → Bytes → Int32 → Value
  write : Value → Bytes
  isObject : Value → Bool
  integer : Value → Option Int

/-- "x", "y", "op", "result" and "code". -/
def xKey : Bytes := ['x'].map byte
def yKey : Bytes := ['y'].map byte
def opKey : Bytes := ['o', 'p'].map byte
def resultKey : Bytes := ['r', 'e', 's', 'u', 'l', 't'].map byte
def codeKey : Bytes := ['c', 'o', 'd', 'e'].map byte

/-- The value of a `char`, which is signed. -/
def ofChar (c : UInt8) : Int := if c < 128 then c.toNat else (c.toNat : Int) - 256

/-- The conversion of an `int` to a `char`. -/
def toChar (v : Int32) : UInt8 := UInt8.ofNat (v.toInt % 256).toNat

variable (j : Jsoncpp)

/-- An object with these members, assigned one after another. -/
def build (fields : List (Bytes × Int32)) : j.Value :=
  fields.foldl (fun root f => j.assign root f.1 f.2) j.null

/-- `root[key].asInt()`. -/
def intMember (root : j.Value) (key : Bytes) : Except j.Error Int32 := do
  let v ← j.member root key
  j.asInt v

def serializeRequest (r : Request) : Bytes :=
  j.write (build j [(xKey, r.x), (yKey, r.y), (opKey, Int32.ofInt (ofChar r.op))])

def serializeResponse (r : Response) : Bytes :=
  j.write (build j [(resultKey, r.result), (codeKey, r.code)])

/-- Whether the text was parsed is not looked at. -/
def deserializeRequest (self : Request) (input : Bytes) : Except j.Error Bool × Request :=
  let root := (j.parse input).2
  match intMember j root xKey with
  | .error e => (.error e, self)
  | .ok x =>
    let self := { self with x := x }
    match intMember j root yKey with
    | .error e => (.error e, self)
    | .ok y =>
      let self := { self with y := y }
      match intMember j root opKey with
      | .error e => (.error e, self)
      | .ok op => (.ok true, { self with op := toChar op })

def deserializeResponse (self : Response) (input : Bytes) : Except j.Error Bool × Response :=
  let root := (j.parse input).2
  match intMember j root resultKey with
  | .error e => (.error e, self)
  | .ok result =>
    let self := { self with result := result }
    match intMember j root codeKey with
    | .error e => (.error e, self)
    | .ok code => (.ok true, { self with code := code })

def json : Codec j.Error where
  serializeRequest := serializeRequest j
  deserializeRequest := deserializeRequest j
  serializeResponse := serializeResponse j
  deserializeResponse := deserializeResponse j

/-- How jsoncpp reads: no value from a text that is not JSON, null for what is not there, 0 for
null, and an integer that an `int` can hold as it is. -/
structure Jsoncpp.Reads : Prop where
  parse_failed : ∀ s, (j.parse s).1 = false → (j.parse s).2 = j.null
  member_null : ∀ key, j.member j.null key = .ok j.null
  asInt_null : j.asInt j.null = .ok 0
  asInt_integer : ∀ v (x : Int32), j.integer v = some x.toInt → j.asInt v = .ok x

/-- The members of an object: different names that are written without escapes. -/
structure Members (fields : List (Bytes × Int32)) : Prop where
  ne_nil : fields ≠ []
  nodup : (fields.map Prod.fst).Nodup
  plain : ∀ f ∈ fields, f.1.all fun b => 97 ≤ b && b ≤ 122

/-- How jsoncpp writes objects of integers: they are read back member by member, and their text has
no zero byte and no blanks. -/
structure Jsoncpp.Writes : Prop where
  read_back : ∀ fields, Members fields →
    (j.parse (j.write (build j fields))).1 = true ∧
      j.isObject (j.parse (j.write (build j fields))).2 = true ∧
      ∀ f ∈ fields, ∃ v, j.member (j.parse (j.write (build j fields))).2 f.1 = .ok v ∧
        j.integer v = some f.2.toInt
  write_length : ∀ fields, Members fields →
    (j.write (build j fields)).length ≤ 5 + (fields.map fun f => f.1.length + 15).sum
  write_text : ∀ fields, Members fields → 0 ∉ j.write (build j fields)

/-- The text is an object with these three integers, of which the last is the value of a `char`. -/
def Genuine (text : Bytes) (r : Request) : Prop :=
  (j.parse text).1 = true ∧ j.isObject (j.parse text).2 = true ∧
    ∃ x y op, j.member (j.parse text).2 xKey = .ok x ∧ j.integer x = some r.x.toInt ∧
      j.member (j.parse text).2 yKey = .ok y ∧ j.integer y = some r.y.toInt ∧
      j.member (j.parse text).2 opKey = .ok op ∧ j.integer op = some (ofChar r.op)

variable {j}

theorem ofChar_bounds (c : UInt8) : -128 ≤ ofChar c ∧ ofChar c ≤ 127 := by
  have hc := c.toNat_lt
  unfold ofChar
  split
  · rename_i h
    rw [UInt8.lt_iff_toNat_lt] at h
    have h128 : (128 : UInt8).toNat = 128 := rfl
    omega
  · rename_i h
    rw [UInt8.lt_iff_toNat_lt] at h
    have h128 : (128 : UInt8).toNat = 128 := rfl
    omega

/-- Within its range a `char` survives the way through an `int`. -/
theorem toChar_of_eq {v : Int32} {c : UInt8} (h : v.toInt = ofChar c) : toChar v = c := by
  have hmod : (v.toInt % 256).toNat = c.toNat := by
    have hc := c.toNat_lt
    rw [h, ofChar]
    split <;> omega
  rw [toChar, hmod, UInt8.ofNat_toNat]

theorem toInt_ofChar (c : UInt8) : (Int32.ofInt (ofChar c)).toInt = ofChar c := by
  have hc := ofChar_bounds c
  exact toInt_ofInt ⟨by omega, by omega⟩

theorem intMember_of_integer (hj : j.Reads) {root v : j.Value} {key : Bytes} {x : Int32}
    (hv : j.member root key = .ok v) (hx : j.integer v = some x.toInt) :
    intMember j root key = .ok x := by
  simp [intMember, hv, bind, Except.bind, hj.asInt_integer v x hx]

theorem Genuine.deserialize (hj : j.Reads) {text : Bytes} {r : Request} (h : Genuine j text r)
    (self : Request) : deserializeRequest j self text = (.ok true, r) := by
  obtain ⟨-, -, x, y, op, hx, hxv, hy, hyv, hop, hopv⟩ := h
  rw [← toInt_ofChar] at hopv
  have hchar : toChar (Int32.ofInt (ofChar r.op)) = r.op := toChar_of_eq (toInt_ofChar r.op)
  simp only [deserializeRequest, intMember_of_integer hj hx hxv, intMember_of_integer hj hy hyv,
    intMember_of_integer hj hop hopv, hchar]

/-- `Deserialize` never says no. -/
theorem deserializeRequest_ne_false (self : Request) (text : Bytes) :
    (deserializeRequest j self text).1 ≠ .ok false := by
  unfold deserializeRequest
  simp only
  split
  · simp
  split
  · simp
  split
  · simp
  · simp

/-- A text that is not JSON is the request of three zeros. -/
theorem deserialize_unparsed (hj : j.Reads) {text : Bytes} (h : (j.parse text).1 = false)
    (self : Request) : deserializeRequest j self text = (.ok true, ⟨0, 0, 0⟩) := by
  have hzero : ∀ key, intMember j j.null key = .ok 0 := by
    intro key
    simp [intMember, hj.member_null, bind, Except.bind, hj.asInt_null]
  simp only [deserializeRequest, hj.parse_failed text h, hzero]
  rfl

theorem members_request (r : Request) :
    Members [(xKey, r.x), (yKey, r.y), (opKey, Int32.ofInt (ofChar r.op))] where
  ne_nil := by simp
  nodup := show [xKey, yKey, opKey].Nodup by decide
  plain := by simp [xKey, yKey, opKey, byte]

theorem members_response (r : Response) : Members [(resultKey, r.result), (codeKey, r.code)] where
  ne_nil := by simp
  nodup := show [resultKey, codeKey].Nodup by decide
  plain := by simp [resultKey, codeKey, byte]

/-- Every request a client serializes is one. -/
theorem genuine_serialize (hw : j.Writes) (r : Request) : Genuine j (serializeRequest j r) r := by
  obtain ⟨hparse, hobject, hmember⟩ := hw.read_back _ (members_request r)
  obtain ⟨x, hx, hxv⟩ := hmember (xKey, r.x) (by simp)
  obtain ⟨y, hy, hyv⟩ := hmember (yKey, r.y) (by simp)
  obtain ⟨op, hop, hopv⟩ := hmember (opKey, Int32.ofInt (ofChar r.op)) (by simp)
  rw [toInt_ofChar] at hopv
  exact ⟨hparse, hobject, x, y, op, hx, hxv, hy, hyv, hop, hopv⟩

theorem deserializeResponse_serialize (hr : j.Reads) (hw : j.Writes) (self r : Response) :
    deserializeResponse j self (serializeResponse j r) = (.ok true, r) := by
  obtain ⟨-, -, hmember⟩ := hw.read_back _ (members_response r)
  obtain ⟨result, hresult, hresultv⟩ := hmember (resultKey, r.result) (by simp)
  obtain ⟨code, hcode, hcodev⟩ := hmember (codeKey, r.code) (by simp)
  simp only [deserializeResponse, serializeResponse, intMember_of_integer hr hresult hresultv,
    intMember_of_integer hr hcode hcodev]

theorem json_sound (hr : j.Reads) (hw : j.Writes) : (json j).Sound where
  request self r := (genuine_serialize hw r).deserialize hr self
  response := deserializeResponse_serialize hr hw
  requestShort r := (hw.write_length _ (members_request r)).trans (by simp [xKey, yKey, opKey])
  responseShort r := (hw.write_length _ (members_response r)).trans (by simp [resultKey, codeKey])
  requestText r _ := hw.write_text _ (members_request r)
  responseText r := hw.write_text _ (members_response r)

end NetJson
