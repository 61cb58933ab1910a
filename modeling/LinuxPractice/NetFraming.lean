import LinuxPractice.NetProtocol

/-!
# What the NetCalculator frame format keeps and accepts

Frames written by `encode` come back in order from a package with any tail.
The converse direction is exact: `decode` takes a package apart only into the
pieces `encode` would have written if the header and the closing byte are the
ones `encode` writes.
-/
namespace NetFraming

open CppString Decimal NetProtocol Framing

/-- `n` calls of `Decode` on one package, each of which has to return true: the
contents in order and the package after the last call. -/
def decodeTimes : Nat → Bytes → Bytes → Option (List Bytes × Bytes)
  | 0, package, _ => some ([], package)
  | n + 1, package, content =>
    match decode package content with
    | .ok ⟨true, package, content⟩ =>
      (decodeTimes n package content).map fun r => (content :: r.1, r.2)
    | _ => none

/-- The stream round trip, for payloads that may hold newlines and digits. -/
theorem decodeTimes_stream (cs : List Bytes) (hc : ∀ c ∈ cs, c.length ≤ 2147483647)
    (t content : Bytes) : decodeTimes cs.length (stream encode cs ++ t) content = some (cs, t) := by
  induction cs generalizing content with
  | nil => rfl
  | cons c cs ih =>
    have hd : decode (encode c ++ (stream encode cs ++ t)) content = .ok ⟨true, stream encode cs ++ t, c⟩ :=
      decode_encode_append (hc c (by simp)) _ content
    have htail := ih (fun d hd => hc d (by simp [hd])) c
    simp only [List.length_cons, stream_cons, List.append_assoc, decodeTimes, hd, htail,
      Option.map_some]

theorem decodeTimes_stream_three :
    decodeTimes 3 (stream encode [[10, 49, 0], [], [53, 10]] ++ [55]) [] =
      some ([[10, 49, 0], [], [53, 10]], [55]) :=
  decodeTimes_stream [[10, 49, 0], [], [53, 10]] (by decide) [55] []

/-- `Decode` either splits off exactly one frame or changes nothing. -/
def AcceptsExactly (p : Bytes) : Prop :=
  ∀ content d, decode p content = .ok d →
    (d.ok = true → p = encode d.content ++ d.package) ∧
      (d.ok = false → d.package = p ∧ d.content = content)

/-- If the header is a number and the package is as long as it announces, then
the header is the plain decimal text of some `n` and a newline follows the `n`
bytes behind it. -/
def WellDelimited (p : Bytes) : Prop :=
  ∀ h t len, p = h ++ protocolSep :: t → protocolSep ∉ h → stoi h = .ok len →
    totalLen h len ≤ p.length → ∃ n, h = print n ∧ t[n]? = some protocolSep

theorem le_of_stoi_print {n : Nat} {len : Int32} (h : stoi (print n) = .ok len) :
    n ≤ 2147483647 ∧ len = Int32.ofInt n := by
  rw [stoi_eq_ok_iff, strtol_print, Option.some.injEq] at h
  have hin := inInt_toInt len
  refine ⟨by have := hin.2; omega, ?_⟩
  rw [h, Int32.ofInt_toInt]

/-- A canonical header with a newline in the right place is a whole frame. -/
theorem eq_encode_append {n : Nat} {t : Bytes} (ht : t[n]? = some protocolSep) :
    print n ++ protocolSep :: t = encode (t.take n) ++ t.drop (n + 1) := by
  obtain ⟨hn, hget⟩ := List.getElem?_eq_some_iff.mp ht
  have hlen : (t.take n).length = n := by rw [List.length_take]; omega
  have hsplit : t = t.take n ++ protocolSep :: t.drop (n + 1) := by
    rw [← hget, ← List.drop_eq_getElem_cons hn, List.take_append_drop]
  rw [encode_eq, hlen]
  simpa using hsplit

theorem acceptsExactly_iff (p : Bytes) : AcceptsExactly p ↔ WellDelimited p := by
  constructor
  · rintro hex h t len rfl hh hlen hle
    have hd := decode_header hh t []
    simp only [hlen, Nat.not_lt.mpr hle, ↓reduceIte] at hd
    generalize (h ++ protocolSep :: t).drop (totalLen h len) = p' at hd
    generalize t.take (toSizeT len) = c at hd
    have heq : h ++ protocolSep :: t = encode c ++ p' := (hex [] _ hd).1 rfl
    rw [encode_eq, List.append_assoc, List.cons_append] at heq
    obtain ⟨hprint, ht⟩ := append_cons_inj hh (protocolSep_not_mem_print _) heq
    exact ⟨c.length, hprint, by simp [ht]⟩
  · intro hw content d hd
    by_cases hs : protocolSep ∈ p
    · obtain ⟨h, t, rfl, hh⟩ := List.eq_append_cons_of_mem hs
      rw [decode_header hh] at hd
      cases hlen : stoi h with
      | error e => simp [hlen] at hd
      | ok len =>
        simp only [hlen] at hd
        split at hd
        · cases hd
          simp
        · rename_i hge
          obtain ⟨n, rfl, ht⟩ := hw h t len rfl hh hlen (Nat.not_lt.mp hge)
          obtain ⟨hn, rfl⟩ := le_of_stoi_print hlen
          rw [totalLen_print hn, toSizeT_ofNat hn] at hd
          cases hd
          refine ⟨fun _ => ?_, fun h => by cases h⟩
          have hdrop : (print n ++ protocolSep :: t).drop ((print n).length + n + 2) = t.drop (n + 1) := by
            rw [Nat.add_assoc, List.drop_append]
            simp
          rw [hdrop]
          exact eq_encode_append ht
    · rw [decode_no_separator hs] at hd
      cases hd
      simp

/-- The closing byte is dropped unread: `"1\nab"` passes for the frame of `"a"`. -/
theorem not_acceptsExactly_open_frame : ¬ AcceptsExactly [49, 10, 97, 98] := by
  intro h
  have hd : decode [49, 10, 97, 98] [] = .ok ⟨true, [], [97]⟩ := by decide
  have := (h [] _ hd).1 rfl
  revert this
  decide

end NetFraming
