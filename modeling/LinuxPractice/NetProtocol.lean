import LinuxPractice.CppString
import LinuxPractice.Framing

/-!
# The NetCalculator wire format

`Protocol.hpp` built with `Myself`: the length-prefixed frame of `Encode` and
`Decode` and the text codec of `Request` and `Response`.
-/
namespace NetProtocol

open CppString Decimal

/-- `blank_space_sep`, one byte. -/
def blankSpaceSep : UInt8 := 32

/-- `protocol_sep`, one byte. -/
def protocolSep : UInt8 := 10

def encode (content : Bytes) : Bytes :=
  toStringSize content.length ++ [protocolSep] ++ content ++ [protocolSep]

/-- What `Decode` returns and leaves in its two string arguments. -/
structure Decoded where
  ok : Bool
  package : Bytes
  content : Bytes
  deriving DecidableEq, Repr

/-- `len_str.size() + len + 2` in `size_t`, with `len` the converted `int`. -/
def totalLen (lenStr : Bytes) (len : Int32) : Nat :=
  (lenStr.length + toSizeT len + 2) % 18446744073709551616

def decode (package content : Bytes) : Except Exception Decoded :=
  match find package protocolSep with
  | none => .ok ⟨false, package, content⟩
  | some pos =>
    match substr package 0 pos with
    | .error e => .error e
    | .ok lenStr =>
      match stoi lenStr with
      | .error e => .error e
      | .ok len =>
        if package.length < totalLen lenStr len then .ok ⟨false, package, content⟩
        else
          match substr package (pos + 1) (toSizeT len) with
          | .error e => .error e
          | .ok body => .ok ⟨true, eraseFront package (totalLen lenStr len), body⟩

structure Request where
  x : Int32
  y : Int32
  op : UInt8
  deriving DecidableEq, Repr

structure Response where
  result : Int32
  code : Int32
  deriving DecidableEq, Repr

/-- `Request::Serialize`, which always returns true. -/
def Request.serialize (r : Request) : Bytes :=
  toStringInt r.x ++ [blankSpaceSep] ++ [r.op] ++ [blankSpaceSep] ++ toStringInt r.y

/-- `Response::Serialize`, which always returns true. -/
def Response.serialize (r : Response) : Bytes :=
  toStringInt r.result ++ [blankSpaceSep] ++ toStringInt r.code

/-- The outcome of `Request::Deserialize` and the object it leaves: `op` and `x`
stay assigned when a later conversion throws. -/
def Request.deserialize (self : Request) (input : Bytes) : Except Exception Bool × Request :=
  match find input blankSpaceSep with
  | none => (.ok false, self)
  | some left =>
    match substr input 0 left with
    | .error e => (.error e, self)
    | .ok partX =>
      match rfind input blankSpaceSep with
      | none => (.ok false, self)
      | some right =>
        match substr input (right + 1) input.length with
        | .error e => (.error e, self)
        | .ok partY =>
          if left + 2 ≠ right then (.ok false, self)
          else
            let self := { self with op := input.getD (left + 1) 0 }
            match stoi partX with
            | .error e => (.error e, self)
            | .ok x =>
              let self := { self with x := x }
              match stoi partY with
              | .error e => (.error e, self)
              | .ok y => (.ok true, { self with y := y })

/-- The outcome of `Response::Deserialize` and the object it leaves. -/
def Response.deserialize (self : Response) (input : Bytes) : Except Exception Bool × Response :=
  match find input blankSpaceSep with
  | none => (.ok false, self)
  | some left =>
    match substr input 0 left with
    | .error e => (.error e, self)
    | .ok partLeft =>
      match substr input (left + 1) input.length with
      | .error e => (.error e, self)
      | .ok partRight =>
        match stoi partLeft with
        | .error e => (.error e, self)
        | .ok result =>
          let self := { self with result := result }
          match stoi partRight with
          | .error e => (.error e, self)
          | .ok code => (.ok true, { self with code := code })

theorem encode_eq (c : Bytes) : encode c = print c.length ++ protocolSep :: (c ++ [protocolSep]) := by
  simp [encode, toStringSize]

theorem protocolSep_not_mem_print (n : Nat) : protocolSep ∉ print n :=
  not_mem_print (by decide) n

theorem length_encode (c : Bytes) : (encode c).length = (print c.length).length + c.length + 2 := by
  simp only [encode_eq, List.length_append, List.length_cons, List.length_nil]
  omega

theorem decode_no_separator {p : Bytes} (h : protocolSep ∉ p) (c : Bytes) :
    decode p c = .ok ⟨false, p, c⟩ := by
  simp only [decode, find_eq_none_iff.mpr h]

/-- Every later fact about `decode` on a package with a newline starts here. -/
theorem decode_header {h : Bytes} (hh : protocolSep ∉ h) (t c : Bytes) :
    decode (h ++ protocolSep :: t) c =
      match stoi h with
      | .error e => .error e
      | .ok len =>
        if (h ++ protocolSep :: t).length < totalLen h len then
          .ok ⟨false, h ++ protocolSep :: t, c⟩
        else
          .ok ⟨true, (h ++ protocolSep :: t).drop (totalLen h len), t.take (toSizeT len)⟩ := by
  have hle : h.length + 1 ≤ (h ++ protocolSep :: t).length := by simp
  have hdrop : (h ++ protocolSep :: t).drop (h.length + 1) = t := by
    rw [List.drop_append]
    simp
  simp only [decode, find_append hh, substr_of_le (Nat.zero_le _), List.drop_zero,
    List.take_left, substr_of_le hle, hdrop, eraseFront]

/-- The header `n` of a frame of the announced size. -/
theorem totalLen_print {n : Nat} (h : n ≤ 2147483647) :
    totalLen (print n) (Int32.ofInt n) = (print n).length + n + 2 := by
  have hlen : (print n).length ≤ 10 := length_print_le (by decide) (by omega)
  rw [totalLen, toSizeT_ofNat h]
  omega

/-- A whole frame at the front of a package is removed, and only that. -/
theorem decode_encode_append {c : Bytes} (hc : c.length ≤ 2147483647) (t old : Bytes) :
    decode (encode c ++ t) old = .ok ⟨true, t, c⟩ := by
  have hp : encode c ++ t =
      print c.length ++ protocolSep :: (c ++ protocolSep :: t) := by simp [encode_eq]
  have hlen : (encode c ++ t).length = totalLen (print c.length) (Int32.ofInt c.length) + t.length := by
    rw [totalLen_print hc, List.length_append, length_encode]
  have hdrop : (encode c ++ t).drop (totalLen (print c.length) (Int32.ofInt c.length)) = t := by
    rw [totalLen_print hc, ← length_encode]
    simp
  have hge : ¬ (encode c ++ t).length < totalLen (print c.length) (Int32.ofInt c.length) := by omega
  rw [hp] at hdrop hge ⊢
  rw [decode_header (protocolSep_not_mem_print _), stoi_print hc]
  simp only [hge, ↓reduceIte, hdrop, toSizeT_ofNat hc, List.take_left]

theorem decode_encode {c : Bytes} (hc : c.length ≤ 2147483647) (old : Bytes) :
    decode (encode c) old = .ok ⟨true, [], c⟩ := by
  have h := decode_encode_append hc [] old
  rwa [List.append_nil] at h

/-- The strict beginning of a frame is left alone until more bytes come. -/
theorem decode_incomplete {c q : Bytes} (hc : c.length ≤ 2147483647) (hq : q <+: encode c)
    (hne : q ≠ encode c) (old : Bytes) : decode q old = .ok ⟨false, q, old⟩ := by
  have hlt : q.length < (encode c).length := by
    rcases Nat.lt_or_ge q.length (encode c).length with h | h
    · exact h
    · exact absurd (hq.eq_of_length_le h) hne
  by_cases hs : protocolSep ∈ q
  · obtain ⟨h, t, rfl, hh⟩ := List.eq_append_cons_of_mem hs
    obtain ⟨u, hu⟩ := hq
    rw [encode_eq, List.append_assoc, List.cons_append] at hu
    -- both strings have their first newline behind the header
    obtain ⟨rfl, -⟩ := append_cons_inj hh (protocolSep_not_mem_print _) hu
    rw [decode_header hh, stoi_print hc]
    rw [length_encode, ← totalLen_print hc] at hlt
    simp only [hlt, ↓reduceIte]
  · exact decode_no_separator hs old

theorem encode_ne_nil (c : Bytes) : encode c ≠ [] := by
  simp [encode]

theorem zero_not_mem_encode {c : Bytes} (h : 0 ∉ c) : 0 ∉ encode c := by
  have hdigits : (0 : UInt8) ∉ print c.length := not_mem_print (by decide) c.length
  simp [encode_eq, protocolSep, h, hdigits]

/-- No frame is the beginning of another one, whatever the two payloads. -/
theorem encode_prefixCode : Framing.PrefixCode encode where
  nonempty := encode_ne_nil
  prefixFree := by
    rintro c d ⟨u, hu⟩
    rw [encode_eq, encode_eq, List.append_assoc, List.cons_append] at hu
    obtain ⟨hp, ht⟩ := append_cons_inj (protocolSep_not_mem_print _) (protocolSep_not_mem_print _) hu
    have hlen : c.length = d.length := print_injective hp
    rw [List.append_assoc] at ht
    exact (List.append_inj ht hlen).1

/-- The shape `Deserialize` looks for: one byte between the first blank and the
last one. What stands around them still has to be a number. -/
theorem deserialize_split {px py : Bytes} (hx : blankSpaceSep ∉ px) (hy : blankSpaceSep ∉ py)
    (op : UInt8) (self : Request) :
    self.deserialize (px ++ blankSpaceSep :: op :: blankSpaceSep :: py) =
      match stoi px with
      | .error e => (.error e, { self with op := op })
      | .ok x =>
        match stoi py with
        | .error e => (.error e, { self with op := op, x := x })
        | .ok y => (.ok true, ⟨x, y, op⟩) := by
  have hr : rfind (px ++ blankSpaceSep :: op :: blankSpaceSep :: py) blankSpaceSep =
      some (px.length + 2) := by
    have := rfind_append hy (px ++ [blankSpaceSep, op])
    simpa using this
  have hle : px.length + 2 + 1 ≤ (px ++ blankSpaceSep :: op :: blankSpaceSep :: py).length := by
    simp
  have hdrop : (px ++ blankSpaceSep :: op :: blankSpaceSep :: py).drop (px.length + 2 + 1) = py := by
    have he : px ++ blankSpaceSep :: op :: blankSpaceSep :: py =
        (px ++ [blankSpaceSep, op, blankSpaceSep]) ++ py := by simp
    rw [he]
    exact List.drop_left' (by simp)
  have htake : py.take (px ++ blankSpaceSep :: op :: blankSpaceSep :: py).length = py :=
    List.take_of_length_le (by simp only [List.length_append, List.length_cons]; omega)
  have hop : (px ++ blankSpaceSep :: op :: blankSpaceSep :: py).getD (px.length + 1) 0 = op := by
    simp [List.getD_eq_getElem?_getD]
  simp only [Request.deserialize, find_append hx, substr_of_le (Nat.zero_le _), List.drop_zero,
    List.take_left, hr, substr_of_le hle, hdrop, htake, hop, ne_eq, not_true_eq_false, ↓reduceIte]

/-- Every other string is refused and leaves the request as it was. -/
theorem deserialize_unsplit {input : Bytes}
    (h : ∀ px op py, blankSpaceSep ∉ px → blankSpaceSep ∉ py →
      input ≠ px ++ blankSpaceSep :: op :: blankSpaceSep :: py) (self : Request) :
    self.deserialize input = (.ok false, self) := by
  cases hl : find input blankSpaceSep with
  | none => simp only [Request.deserialize, hl]
  | some left =>
    obtain ⟨px, t, rfl, hx, rfl⟩ := find_eq_some_iff.mp hl
    cases hr : rfind (px ++ blankSpaceSep :: t) blankSpaceSep with
    | none =>
      simp only [Request.deserialize, hl, hr, substr_of_le (Nat.zero_le _)]
    | some right =>
      obtain ⟨u, py, he, hy, rfl⟩ := rfind_eq_some_iff.mp hr
      have hle : u.length + 1 ≤ (px ++ blankSpaceSep :: t).length := by simp [he]
      have hne : px.length + 2 ≠ u.length := by
        intro hlen
        obtain ⟨a, rfl⟩ : px <+: u :=
          List.prefix_of_prefix_length_le (List.prefix_append px _) (he ▸ List.prefix_append u _)
            (by omega)
        rw [List.append_assoc, List.append_right_inj] at he
        rw [List.length_append] at hlen
        obtain ⟨b, op, rfl⟩ : ∃ b op, a = [b, op] := List.length_eq_two.mp (by omega)
        obtain ⟨rfl, rfl⟩ := List.cons.inj he
        exact h px op py hx hy rfl
      simp only [Request.deserialize, hl, hr, substr_of_le (Nat.zero_le _), substr_of_le hle, ne_eq,
        hne, not_false_eq_true, ↓reduceIte]

theorem blankSpaceSep_not_mem_toStringInt (x : Int32) : blankSpaceSep ∉ toStringInt x :=
  not_mem_toStringInt (by decide) (by decide) x

theorem serialize_eq (r : Request) : r.serialize =
    toStringInt r.x ++ blankSpaceSep :: r.op :: blankSpaceSep :: toStringInt r.y := by
  simp [Request.serialize]

/-- The text codec returns the request it was given, the operator `' '` included. -/
theorem deserialize_serialize (self r : Request) :
    self.deserialize r.serialize = (.ok true, r) := by
  rw [serialize_eq, deserialize_split (blankSpaceSep_not_mem_toStringInt _)
    (blankSpaceSep_not_mem_toStringInt _)]
  simp only [stoi_toStringInt]

theorem length_serialize_le (r : Request) : r.serialize.length ≤ 25 := by
  have hx := length_toStringInt r.x
  have hy := length_toStringInt r.y
  simp only [serialize_eq, List.length_append, List.length_cons]
  omega

theorem zero_not_mem_serialize {r : Request} (hop : r.op ≠ 0) : (0 : UInt8) ∉ r.serialize := by
  have hx : ∀ x : Int32, (0 : UInt8) ∉ toStringInt x := not_mem_toStringInt (by decide) (by decide)
  have hsep : (0 : UInt8) ≠ blankSpaceSep := by decide
  simp [serialize_eq, hx, hsep, hop.symm]

/-- Everything behind the first blank is the second number. -/
theorem Response.deserialize_split {pl : Bytes} (hl : blankSpaceSep ∉ pl) (pr : Bytes)
    (self : Response) :
    self.deserialize (pl ++ blankSpaceSep :: pr) =
      match stoi pl with
      | .error e => (.error e, self)
      | .ok result =>
        match stoi pr with
        | .error e => (.error e, { self with result := result })
        | .ok code => (.ok true, ⟨result, code⟩) := by
  have hle : pl.length + 1 ≤ (pl ++ blankSpaceSep :: pr).length := by simp
  have hdrop : (pl ++ blankSpaceSep :: pr).drop (pl.length + 1) = pr := by
    rw [List.drop_append]
    simp
  have htake : pr.take (pl ++ blankSpaceSep :: pr).length = pr :=
    List.take_of_length_le (by simp only [List.length_append, List.length_cons]; omega)
  simp only [Response.deserialize, find_append hl, substr_of_le (Nat.zero_le _), List.drop_zero,
    List.take_left, substr_of_le hle, hdrop, htake]

theorem Response.serialize_eq (r : Response) :
    r.serialize = toStringInt r.result ++ blankSpaceSep :: toStringInt r.code := by
  simp [Response.serialize]

theorem Response.deserialize_serialize (self r : Response) :
    self.deserialize r.serialize = (.ok true, r) := by
  rw [Response.serialize_eq, Response.deserialize_split (blankSpaceSep_not_mem_toStringInt _)]
  simp only [stoi_toStringInt]

theorem Response.length_serialize_le (r : Response) : r.serialize.length ≤ 23 := by
  have hresult := length_toStringInt r.result
  have hcode := length_toStringInt r.code
  simp only [Response.serialize_eq, List.length_append, List.length_cons]
  omega

theorem Response.zero_not_mem_serialize (r : Response) : (0 : UInt8) ∉ r.serialize := by
  have hx : ∀ x : Int32, (0 : UInt8) ∉ toStringInt x := not_mem_toStringInt (by decide) (by decide)
  have hsep : (0 : UInt8) ≠ blankSpaceSep := by decide
  simp [Response.serialize_eq, hx, hsep]

end NetProtocol
