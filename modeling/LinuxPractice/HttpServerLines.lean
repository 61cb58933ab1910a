import LinuxPractice.HttpServer

/-!
# The lines of a request

The loop of `Deserialize`, turn by turn. It ends without an end of line and at
an empty line, and it leaves that line's end at the front of the text.
-/
namespace HttpServerLines

open CppString HttpServer

/-- `req_header`, and what is left of the request. -/
structure Reading where
  reqHeader : List Bytes
  req : Bytes
  deriving DecidableEq, Repr

/-- One turn of the loop, with `none` for either `break`. -/
def turn (s : Reading) : Option Reading :=
  match findStr s.req sep with
  | none => none
  | some pos =>
    let temp := s.req.take pos
    if temp.isEmpty then none
    else some ⟨s.reqHeader ++ [temp], eraseFront s.req (pos + sep.length)⟩

/-- The loop; `none` if it takes more than `fuel` turns. -/
def loop : Nat → Reading → Option Reading
  | 0, _ => none
  | fuel + 1, s =>
    match turn s with
    | none => some s
    | some t => loop fuel t

/-- Lines, the blank line and the body. -/
def message (lines : List Bytes) (body : Bytes) : Bytes :=
  lines.flatMap (· ++ sep) ++ (sep ++ body)

/-- `buffer` as the string `Deserialize` is called with. -/
def cstr (received : Bytes) : Bytes := received.takeWhile (· != 0)

/-- A turn takes one line and its end off the front. -/
theorem turn_eq_some_iff {s t : Reading} : turn s = some t ↔
    ∃ line, line ≠ [] ∧ ¬ sep <:+: line ∧ s.req = line ++ sep ++ t.req ∧
      t.reqHeader = s.reqHeader ++ [line] := by
  constructor
  · intro ht
    cases hfind : findStr s.req sep with
    | none => simp [turn, hfind] at ht
    | some pos =>
      obtain ⟨line, rest, hreq, hfirst, rfl⟩ := (findStr_eq_some_iff (by simp [sep])).mp hfind
      simp only [turn, hfind] at ht
      rw [hreq, take_line, eraseFront_line] at ht
      split at ht
      · cases ht
      · rename_i hne
        cases ht
        exact ⟨line, by simpa using hne, mt sep_infix_concat.mpr hfirst, hreq, rfl⟩
  · rintro ⟨line, hne, hsep, hreq, hheader⟩
    have hfind : findStr s.req sep = some line.length := by
      rw [hreq, findStr_sep hsep]
    simp only [turn, hfind]
    rw [hreq, take_line, eraseFront_line, if_neg (by simpa using hne), ← hheader]

/-- The two exits: no end of line, or an empty line. -/
theorem turn_eq_none_iff {s : Reading} :
    turn s = none ↔ ¬ sep <:+: s.req ∨ sep <+: s.req := by
  constructor
  · intro ht
    by_contra hcon
    rw [not_or, not_not] at hcon
    have hfound : findStr s.req sep ≠ none := mt findStr_eq_none_iff.mp (not_not.mpr hcon.1)
    obtain ⟨pos, hfind⟩ := Option.ne_none_iff_exists'.mp hfound
    obtain ⟨line, rest, hreq, hfirst, -⟩ := (findStr_eq_some_iff (by simp [sep])).mp hfind
    have hne : line ≠ [] := by
      rintro rfl
      exact hcon.2 ⟨rest, by simpa using hreq.symm⟩
    have hsome : turn s = some ⟨s.reqHeader ++ [line], rest⟩ :=
      turn_eq_some_iff.mpr ⟨line, hne, mt sep_infix_concat.mpr hfirst, hreq, rfl⟩
    simp [hsome] at ht
  · rintro (hnone | ⟨rest, hrest⟩)
    · simp [turn, findStr_eq_none_iff.mpr hnone]
    · have hempty : ¬ sep <:+: ([] : Bytes) := by simp [sep]
      have hfind : findStr s.req sep = some 0 := by
        rw [← hrest]
        exact findStr_sep hempty rest
      simp [turn, hfind]

theorem turn_length {s t : Reading} (h : turn s = some t) : t.req.length < s.req.length := by
  obtain ⟨line, -, -, hreq, -⟩ := turn_eq_some_iff.mp h
  simp only [hreq, List.length_append, sep, List.length_cons]
  omega

/-- What the lines taken so far say about the request. -/
structure Taken (req : Bytes) (s : Reading) : Prop where
  lines : ∀ line ∈ s.reqHeader, line ≠ [] ∧ ¬ sep <:+: line
  lossless : req = s.reqHeader.flatMap (· ++ sep) ++ s.req

theorem Taken.start (req : Bytes) : Taken req ⟨[], req⟩ := ⟨by simp, rfl⟩

theorem Taken.next {req : Bytes} {s t : Reading} (h : Taken req s) (ht : turn s = some t) :
    Taken req t := by
  obtain ⟨line, hne, hsep, hreq, hheader⟩ := turn_eq_some_iff.mp ht
  constructor
  · intro l hl
    rw [hheader, List.mem_append, List.mem_singleton] at hl
    rcases hl with hl | rfl
    · exact h.lines l hl
    · exact ⟨hne, hsep⟩
  · rw [h.lossless, hheader, hreq]
    simp

/-- With a turn for every byte the loop ends, and only at one of its exits. -/
theorem loop_ends {req : Bytes} {s : Reading} (h : Taken req s) (fuel : Nat)
    (hfuel : s.req.length < fuel) :
    ∃ t, loop fuel s = some t ∧ Taken req t ∧ turn t = none := by
  induction fuel generalizing s with
  | zero => omega
  | succ fuel ih =>
    cases ht : turn s with
    | none => exact ⟨s, by simp [loop, ht], h, ht⟩
    | some t =>
      have hlen := turn_length ht
      obtain ⟨u, hu, htaken, hexit⟩ := ih (h.next ht) (by omega)
      exact ⟨u, by simpa [loop, ht] using hu, htaken, hexit⟩

theorem Taken.deserialize_eq {req : Bytes} {s : Reading} (h : Taken req s)
    (hexit : turn s = none) : deserialize req = (s.reqHeader, s.req) := by
  have hrest : deserialize s.req = ([], s.req) := by
    rcases turn_eq_none_iff.mp hexit with hnone | ⟨text, htext⟩
    · rw [deserialize, findStr_eq_none_iff.mpr hnone]
    · rw [← htext, deserialize_blank]
  rw [h.lossless, deserialize_append h.lines, hrest, List.append_nil]

/-- What `deserialize` returns, as the end of the loop. -/
def ended (req : Bytes) : Reading := ⟨(deserialize req).1, (deserialize req).2⟩

theorem loop_eq_ended {req : Bytes} {fuel : Nat} (hfuel : req.length < fuel) :
    loop fuel ⟨[], req⟩ = some (ended req) ∧ Taken req (ended req) ∧ turn (ended req) = none := by
  obtain ⟨t, ht, htaken, hexit⟩ := loop_ends (Taken.start req) fuel hfuel
  have hended : ended req = t := by
    rw [ended, htaken.deserialize_eq hexit]
  rw [hended]
  exact ⟨ht, htaken, hexit⟩

/-- The loop on a whole request ends as `deserialize` says. Every line is proper, lines and text
make up the request, and the text has no end of line or begins with one. -/
theorem loop_lossless (req : Bytes) :
    (∀ fuel, req.length < fuel → loop fuel ⟨[], req⟩ = some (ended req)) ∧
      (∀ line ∈ (deserialize req).1, line ≠ [] ∧ ¬ sep <:+: line) ∧
      req = (deserialize req).1.flatMap (· ++ sep) ++ (deserialize req).2 ∧
      (¬ sep <:+: (deserialize req).2 ∨ sep <+: (deserialize req).2) := by
  obtain ⟨-, htaken, hexit⟩ := loop_eq_ended (Nat.lt_succ_self req.length)
  constructor
  · intro fuel hfuel
    exact (loop_eq_ended hfuel).1
  · exact ⟨htaken.lines, htaken.lossless, turn_eq_none_iff.mp hexit⟩

/-- The lines and the body are told apart. -/
def Splits (lines : List Bytes) (body : Bytes) : Prop :=
  deserialize (message lines body) = (lines, body)

theorem proper_home : ∀ line ∈ [getHome], line ≠ [] ∧ ¬ sep <:+: line := by
  intro line hline
  rw [List.mem_singleton] at hline
  rw [hline]
  exact ⟨by decide, sep_not_inside (by decide)⟩

/-- The lines are right. But the end of the blank line is never taken off the body. -/
theorem never_splits {lines : List Bytes}
    (h : ∀ line ∈ lines, line ≠ [] ∧ ¬ sep <:+: line) (body : Bytes) :
    deserialize (message lines body) = (lines, sep ++ body) ∧ ¬ Splits lines body := by
  have hread : deserialize (message lines body) = (lines, sep ++ body) := deserialize_lines h body
  refine ⟨hread, ?_⟩
  intro hsplits
  rw [Splits, hread, Prod.mk.injEq] at hsplits
  have hlen := congrArg List.length hsplits.2
  simp only [sep, List.length_append, List.length_cons] at hlen
  omega

theorem never_splits_home :
    deserialize (message [getHome] [120]) = ([getHome], sep ++ [120]) ∧
      ¬ Splits [getHome] [120] :=
  never_splits proper_home [120]

/-- A request line, a blank line and an `x`. -/
theorem home_not_split : ¬ ∀ (lines : List Bytes) (body : Bytes), lines ≠ [] →
    (∀ line ∈ lines, line ≠ [] ∧ ¬ sep <:+: line) → Splits lines body := by
  intro h
  have hsplits := h [getHome] [120] (by simp) proper_home
  rw [Splits, message, deserialize_lines proper_home] at hsplits
  exact absurd hsplits (by decide)

theorem deserialize_fst_eq_nil_iff {req : Bytes} :
    (deserialize req).1 = [] ↔ ¬ sep <:+: req ∨ sep <+: req := by
  obtain ⟨-, htaken, hexit⟩ := loop_eq_ended (Nat.lt_succ_self req.length)
  constructor
  · intro hnil
    have hreq : req = (deserialize req).2 := by
      simpa [ended, hnil] using htaken.lossless
    rw [hreq]
    exact turn_eq_none_iff.mp hexit
  · intro hnone
    rw [(Taken.start req).deserialize_eq (turn_eq_none_iff.mpr hnone)]

theorem prase_eq_none_iff {r : List Bytes × Bytes} : prase r = none ↔ r.1 = [] := by
  obtain ⟨lines, text⟩ := r
  cases lines with
  | nil => simp [prase]
  | cons line lines => simp [prase]

theorem request_eq_noFirstLine_iff {received : Bytes} :
    request received = .error .noFirstLine ↔ (deserialize (cstr received)).1 = [] := by
  rw [← prase_eq_none_iff, request, cstr]
  cases prase (deserialize (received.takeWhile (· != 0))) with
  | none => simp
  | some req => simp

theorem readHtmlContent_ne_noFirstLine (files : Files) (alloc : Nat → Bool) (path : Bytes) :
    readHtmlContent files alloc path ≠ .error .noFirstLine := by
  unfold readHtmlContent
  split
  · simp
  · unfold resize
    split
    · simp
    · split
      · simp
      · simp

theorem handlerHttp_eq_noFirstLine_iff {files : Files} {alloc : Nat → Bool} {received : Bytes}
    (hne : received ≠ []) : handlerHttp files alloc received = .error .noFirstLine ↔
      ¬ sep <:+: cstr received ∨ sep <+: cstr received := by
  rw [← deserialize_fst_eq_nil_iff, ← request_eq_noFirstLine_iff, handlerHttp,
    if_neg (by simpa using hne)]
  cases hreq : request received with
  | error e => simp [bind, Except.bind]
  | ok req =>
    have hread := readHtmlContent_ne_noFirstLine files alloc req.urlPath
    cases htext : readHtmlContent files alloc req.urlPath with
    | error e => simpa [bind, Except.bind, htext] using hread
    | ok text => simp [bind, Except.bind, htext, pure, Except.pure]

/-- `req_header[0]` is there exactly if what comes before the first zero byte has an end of line,
and not in front. -/
theorem first_line_iff (files : Files) (alloc : Nat → Bool) (received : Bytes) :
    handlerHttp files alloc received ≠ .error .noFirstLine ↔
      received = [] ∨ sep <:+: cstr received ∧ ¬ sep <+: cstr received := by
  by_cases hempty : received = []
  · simp [handlerHttp, hempty]
  · rw [ne_eq, handlerHttp_eq_noFirstLine_iff hempty, not_or, not_not]
    simp [hempty]

/-- A first line that is cut off, and a blank line in front of a good one. -/
theorem home_no_first_line :
    handlerHttp (fun _ => none) (fun _ => true) getHome = .error .noFirstLine ∧
      handlerHttp (fun _ => none) (fun _ => true) (sep ++ getHome ++ sep) =
        .error .noFirstLine := by
  constructor
  · apply (handlerHttp_eq_noFirstLine_iff (by decide)).mpr
    exact .inl (sep_not_inside (by decide))
  · apply (handlerHttp_eq_noFirstLine_iff (by decide)).mpr
    exact .inr (by decide)

end HttpServerLines
