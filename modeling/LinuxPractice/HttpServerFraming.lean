import LinuxPractice.HttpServerContent

/-!
# Where a response ends

The head is what comes before the first empty line. Its lines and their names
are the same for every request, and `Content-Length` measures what follows.
-/
namespace HttpServerFraming

open CppString Decimal HttpServer HttpServerContent

/-- The bytes in front of the first empty line, and those behind it. -/
def splitHead (sent : Bytes) : Option (Bytes × Bytes) :=
  (findStr sent (sep ++ sep)).map fun pos =>
    (sent.take pos, eraseFront sent (pos + (sep ++ sep).length))

/-- The lines of a text, cut at every end of line. -/
def splitLines : Bytes → List Bytes
  | [] => [[]]
  | 13 :: 10 :: s => [] :: splitLines s
  | b :: s => (splitLines s).modifyHead (b :: ·)

def lower (b : UInt8) : UInt8 := if 65 ≤ b && b ≤ 90 then b + 32 else b

/-- The name of a header line, which ends at its colon. -/
def fieldName (line : Bytes) : Bytes := (line.takeWhile (· != 58)).map lower

def fieldValue (line : Bytes) : Bytes := ((line.dropWhile (· != 58)).drop 1).dropWhile isSpace

/-- "content-length". -/
def lengthName : Bytes :=
  ['c', 'o', 'n', 't', 'e', 'n', 't', '-', 'l', 'e', 'n', 'g', 't', 'h'].map byte

/-- The status line, which has no colon, "content-length", "content-type" and "set-cookie". -/
def fieldNames : List Bytes :=
  [responseLine.map lower, lengthName,
    ['c', 'o', 'n', 't', 'e', 'n', 't', '-', 't', 'y', 'p', 'e'].map byte,
    ['s', 'e', 't', '-', 'c', 'o', 'o', 'k', 'i', 'e'].map byte]

/-- The values of all `Content-Length` lines. -/
def contentLengths (head : Bytes) : List Bytes :=
  ((splitLines head).filter fun line => fieldName line == lengthName).map fieldValue

/-- What is sent has the fixed header lines, one length, and as many bytes of text behind. -/
def Framed (sent text : Bytes) : Prop :=
  ∃ head digits, splitHead sent = some (head, text) ∧ (splitLines head).map fieldName = fieldNames ∧
    contentLengths head = [digits] ∧ parse digits = some text.length

@[simp] theorem splitLines_sep (rest : Bytes) : splitLines (sep ++ rest) = [] :: splitLines rest :=
  rfl

theorem splitLines_cons {b : UInt8} (hb : b ≠ 13) (s : Bytes) :
    splitLines (b :: s) = (splitLines s).modifyHead (b :: ·) := by
  rw [splitLines]
  intro t hcr
  exact absurd hcr hb

theorem splitLines_line {line : Bytes} (hcr : (13 : UInt8) ∉ line) (rest : Bytes) :
    splitLines (line ++ sep ++ rest) = line :: splitLines rest := by
  induction line with
  | nil => exact splitLines_sep rest
  | cons b line ih =>
    simp only [List.mem_cons, not_or] at hcr
    rw [List.cons_append, List.cons_append, splitLines_cons (Ne.symm hcr.1), ih hcr.2,
      List.modifyHead_cons]

theorem splitLines_last {line : Bytes} (hcr : (13 : UInt8) ∉ line) : splitLines line = [line] := by
  induction line with
  | nil => rfl
  | cons b line ih =>
    simp only [List.mem_cons, not_or] at hcr
    rw [splitLines_cons (Ne.symm hcr.1), ih hcr.2, List.modifyHead_cons]

/-- Lines without a carriage return are read back. -/
theorem splitLines_intercalate {lines : List Bytes} (hne : lines ≠ [])
    (h : ∀ line ∈ lines, (13 : UInt8) ∉ line) : splitLines (sep.intercalate lines) = lines := by
  induction lines with
  | nil => exact absurd rfl hne
  | cons line lines ih =>
    rw [List.forall_mem_cons] at h
    cases lines with
    | nil => rw [List.intercalate_singleton, splitLines_last h.1]
    | cons next lines => rw [List.intercalate_cons_cons, splitLines_line h.1, ih (by simp) h.2]

theorem flatMap_eq_intercalate {lines : List Bytes} (hne : lines ≠ []) :
    lines.flatMap (· ++ sep) = sep.intercalate lines ++ sep := by
  induction lines with
  | nil => exact absurd rfl hne
  | cons line lines ih =>
    cases lines with
    | nil => simp [List.intercalate_singleton]
    | cons next lines =>
      rw [List.flatMap_cons, ih (by simp), List.intercalate_cons_cons]
      simp only [List.append_assoc]

/-- What begins with a byte that is not in the front does not begin there. -/
theorem infix_append_iff_of_not_mem {c : UInt8} {front : Bytes} (hc : c ∉ front) (pat s : Bytes) :
    c :: pat <:+: front ++ s ↔ c :: pat <:+: s := by
  induction front with
  | nil => rfl
  | cons b front ih =>
    simp only [List.mem_cons, not_or] at hc
    have hhead : ¬ c :: pat <+: b :: (front ++ s) := by
      rw [List.cons_prefix_cons]
      exact fun h => hc.1 h.1
    rw [List.cons_append, List.infix_cons_iff, or_iff_right hhead, ih hc.2]

/-- Between lines that are not empty there is no empty line. -/
theorem empty_line_not_inside {lines : List Bytes}
    (h : ∀ line ∈ lines, line ≠ [] ∧ (13 : UInt8) ∉ line) :
    ¬ sep ++ sep <:+: lines.flatMap (· ++ sep) ++ [13] := by
  induction lines with
  | nil =>
    intro hin
    exact absurd hin.length_le (by decide)
  | cons line lines ih =>
    rw [List.forall_mem_cons] at h
    have hrest : ¬ sep <+: lines.flatMap (· ++ sep) ++ [13] := by
      cases lines with
      | nil => decide
      | cons next lines =>
        obtain ⟨hne, hcr⟩ := h.2 next (by simp)
        obtain ⟨b, next, rfl⟩ := List.exists_cons_of_ne_nil hne
        rintro ⟨t, ht⟩
        simp only [sep, List.flatMap_cons, List.cons_append, List.cons.injEq] at ht
        simp [← ht.1] at hcr
    have hsplit : (line :: lines).flatMap (· ++ sep) ++ [13] =
        line ++ 13 :: 10 :: (lines.flatMap (· ++ sep) ++ [13]) := by
      simp [sep]
    rw [hsplit, sep, List.cons_append, infix_append_iff_of_not_mem h.1.2, List.infix_cons_iff,
      List.infix_cons_iff, List.cons_prefix_cons, List.cons_append, List.cons_prefix_cons,
      List.cons_prefix_cons]
    rintro (⟨-, -, hprefix⟩ | ⟨hbyte, -⟩ | hin)
    · exact hrest hprefix
    · exact absurd hbyte (by decide)
    · exact ih h.2 hin

theorem splitHead_lines {lines : List Bytes} (hne : lines ≠ [])
    (h : ∀ line ∈ lines, line ≠ [] ∧ (13 : UInt8) ∉ line) (text : Bytes) :
    splitHead (lines.flatMap (· ++ sep) ++ (sep ++ text)) = some (sep.intercalate lines, text) := by
  have hjoin := flatMap_eq_intercalate hne
  have hfind : findStr (lines.flatMap (· ++ sep) ++ (sep ++ text)) (sep ++ sep) =
      some (sep.intercalate lines).length := by
    apply (findStr_eq_some_iff (by simp [sep])).mpr
    refine ⟨sep.intercalate lines, text, by simp [hjoin], ?_, rfl⟩
    have hfirst := empty_line_not_inside h
    rw [hjoin, List.append_assoc] at hfirst
    exact hfirst
  rw [splitHead, hfind, hjoin]
  simp [eraseFront, sep]

/-- The names depend on nothing. -/
theorem fieldName_headerLines (suffix text : Bytes) :
    (headerLines suffix text).map fieldName = fieldNames := rfl

theorem filter_headerLines (suffix text : Bytes) :
    (headerLines suffix text).filter (fun line => fieldName line == lengthName) =
      [contentLength ++ toStringSize text.length] := rfl

theorem fieldValue_contentLength (n : Nat) :
    fieldValue (contentLength ++ toStringSize n) = toStringSize n := by
  have hblank : fieldValue (contentLength ++ toStringSize n) = (print n).dropWhile isSpace := rfl
  rw [hblank, toStringSize, List.dropWhile_eq_self_iff]
  intro hlen
  have hdigit : isDigit ((print n).get ⟨0, hlen⟩) := isDigit_of_mem_print (List.get_mem _ _)
  simpa using isSpace_of_isDigit hdigit

theorem framed_response (suffix text : Bytes) : Framed (response suffix text) text := by
  have hlines : splitLines (sep.intercalate (headerLines suffix text)) = headerLines suffix text :=
    splitLines_intercalate (by simp [headerLines]) fun line hline =>
      (headerLines_ok suffix text line hline).2
  refine ⟨sep.intercalate (headerLines suffix text), toStringSize text.length, ?_, ?_, ?_, ?_⟩
  · rw [response_eq]
    exact splitHead_lines (by simp [headerLines]) (headerLines_ok suffix text) text
  · rw [hlines, fieldName_headerLines]
  · rw [contentLengths, hlines, filter_headerLines, List.map_singleton, fieldValue_contentLength]
  · exact parse_print text.length

/-- Whatever is sent is the response for the suffix requested and the text read. -/
theorem handlerHttp_sent {files : Files} {alloc : Nat → Bool} {received sent : Bytes}
    (h : handlerHttp files alloc received = .ok (some sent)) :
    ∃ req text, request received = .ok req ∧
      readHtmlContent files alloc req.urlPath = .ok text ∧ sent = response req.suffix text := by
  unfold handlerHttp at h
  split at h
  · cases h
  · cases hreq : request received with
    | error e => simp [hreq, bind, Except.bind] at h
    | ok req =>
      cases hread : readHtmlContent files alloc req.urlPath with
      | error e => simp [hreq, hread, bind, Except.bind] at h
      | ok text =>
        simp only [hreq, hread, bind, Except.bind, pure, Except.pure, Except.ok.injEq,
          Option.some.injEq] at h
        exact ⟨req, text, rfl, hread, h.symm⟩

/-- For every suffix and text the response is framed; a request with a first line whose body is
read is answered with it, and nothing else is ever sent. -/
theorem sent_framed :
    (∀ suffix text : Bytes, Framed (response suffix text) text) ∧
      (∀ (files : Files) (alloc : Nat → Bool) (received line text : Bytes),
        firstLine received = some line →
        readHtmlContent files alloc (urlPath (target line)) = .ok text →
          ∃ sent, handlerHttp files alloc received = .ok (some sent) ∧
            sent = response (suffix (target line)) text ∧ Framed sent text) ∧
      ∀ (files : Files) (alloc : Nat → Bool) (received sent : Bytes),
        handlerHttp files alloc received = .ok (some sent) →
          ∃ req text, request received = .ok req ∧
            readHtmlContent files alloc req.urlPath = .ok text ∧
            sent = response req.suffix text ∧ Framed sent text := by
  refine ⟨framed_response, ?_, ?_⟩
  · intro files alloc received line text hline hread
    refine ⟨_, ?_, rfl, framed_response _ text⟩
    rw [handlerHttp_eq hline, hread]
    rfl
  · intro files alloc received sent h
    obtain ⟨req, text, hreq, hread, rfl⟩ := handlerHttp_sent h
    exact ⟨req, text, hreq, hread, rfl, framed_response req.suffix text⟩

theorem sent_framed_home : ∃ sent,
    handlerHttp (only [0] 1) (fun _ => true) (getHome ++ sep ++ sep) = .ok (some sent) ∧
      sent = response htmlSuffix [0] ∧ Framed sent [0] ∧
      ∃ req text, request (getHome ++ sep ++ sep) = .ok req ∧
        readHtmlContent (only [0] 1) (fun _ => true) req.urlPath = .ok text ∧
        sent = response req.suffix text := by
  obtain ⟨sent, hsent, heq, hframed⟩ := sent_framed.2.1 (only [0] 1) (fun _ => true)
    (getHome ++ sep ++ sep) getHome [0] firstLine_getHome rfl
  obtain ⟨req, text, hreq, hread, htext, -⟩ := sent_framed.2.2 (only [0] 1) (fun _ => true)
    (getHome ++ sep ++ sep) sent hsent
  exact ⟨sent, hsent, heq, hframed, req, text, hreq, hread, htext⟩

end HttpServerFraming
