import LinuxPractice.CppString
import LinuxPractice.Words

/-!
# HttpServer

`HttpServer.hpp`, from the bytes of a request to those of the response. The
files are a parameter; a file says what it contains and which end position its
stream reports, and these need not agree.
-/
namespace HttpServer

open CppString Decimal Words

/-- "./wwwroot". -/
def wwwroot : Bytes := ['.', '/', 'w', 'w', 'w', 'r', 'o', 'o', 't'].map byte

/-- "index.html". -/
def homepage : Bytes := ['i', 'n', 'd', 'e', 'x', '.', 'h', 't', 'm', 'l'].map byte

def sep : Bytes := [13, 10]

/-- ".html", ".png" and their content types. -/
def htmlSuffix : Bytes := ['.', 'h', 't', 'm', 'l'].map byte
def pngSuffix : Bytes := ['.', 'p', 'n', 'g'].map byte
def textHtml : Bytes := ['t', 'e', 'x', 't', '/', 'h', 't', 'm', 'l'].map byte
def imagePng : Bytes := ['i', 'm', 'a', 'g', 'e', '/', 'p', 'n', 'g'].map byte

structure HttpRequest where
  reqHeader : List Bytes
  text : Bytes
  method : Bytes
  url : Bytes
  httpVersion : Bytes
  urlPath : Bytes
  suffix : Bytes
  deriving DecidableEq, Repr

/-- `Deserialize`: the lines up to an empty one, and what is left then. -/
def deserialize (req : Bytes) : List Bytes × Bytes :=
  match findStr req sep with
  | none => ([], req)
  | some pos =>
    if (req.take pos).isEmpty then ([], req)
    else
      let rest := deserialize (eraseFront req (pos + sep.length))
      (req.take pos :: rest.1, rest.2)
termination_by req.length
decreasing_by
  rename_i hne
  have hpos : req ≠ [] := by
    rintro rfl
    simp at hne
  have hlen := List.length_pos_iff.mpr hpos
  simp only [eraseFront, List.length_drop, sep, List.length_cons]
  omega

def urlPath (url : Bytes) : Bytes :=
  if url = [47] ∨ url = 47 :: homepage then wwwroot ++ 47 :: homepage else wwwroot ++ url

def suffix (url : Bytes) : Bytes :=
  match rfind url 46 with
  | none => htmlSuffix
  | some pos => url.drop pos

/-- `Prase`. Without a first line `req_header[0]` is not defined. -/
def prase : List Bytes × Bytes → Option HttpRequest
  | ([], _) => none
  | (line :: lines, text) =>
    let method := extract isSpace line
    let url := extract isSpace method.2
    let version := extract isSpace url.2
    some {
      reqHeader := line :: lines
      text := text
      method := method.1
      url := url.1
      httpVersion := version.1
      urlPath := urlPath url.1
      suffix := suffix url.1 }

/-- What opening and measuring a file gives; `tellg` is where the stream says its end is. -/
structure File where
  content : Bytes
  tellg : Int64
  deriving DecidableEq, Repr

abbrev Files := Bytes → Option File

/-- How a request can end without a response. -/
inductive Failure where
  | noFirstLine
  | lengthError
  | badAlloc
  deriving DecidableEq, Repr

/-- `max_size()` of a string: half of the largest difference of two pointers. -/
def maxSize : Nat := 4611686018427387903

/-- `resize` of an empty string; `alloc` says for which lengths there is memory. -/
def resize (alloc : Nat → Bool) (n : Nat) : Except Failure Bytes :=
  if maxSize < n then .error .lengthError
  else if alloc n then .ok (List.replicate n 0)
  else .error .badAlloc

/-- The conversion of a stream position to `size_t`. -/
def sizeOfPos (pos : Int64) : Nat := (pos.toInt % 18446744073709551616).toNat

/-- The call of `read` is commented out. -/
def readHtmlContent (files : Files) (alloc : Nat → Bool) (path : Bytes) : Except Failure Bytes :=
  match files path with
  | none => .ok (['4', '0', '4'].map byte)
  | some file => resize alloc (sizeOfPos file.tellg)

def suffixToDesc (suffix : Bytes) : Bytes :=
  if suffix = htmlSuffix then textHtml else if suffix = pngSuffix then imagePng else textHtml

/-- "HTTP/1.0 200 OK". -/
def responseLine : Bytes :=
  ['H', 'T', 'T', 'P', '/', '1', '.', '0', ' ', '2', '0', '0', ' ', 'O', 'K'].map byte

/-- "Content-Length: ", "Content-Type: " and "Set-Cookie: name=hhh". -/
def contentLength : Bytes :=
  ['C', 'o', 'n', 't', 'e', 'n', 't', '-', 'L', 'e', 'n', 'g', 't', 'h', ':', ' '].map byte
def contentType : Bytes :=
  ['C', 'o', 'n', 't', 'e', 'n', 't', '-', 'T', 'y', 'p', 'e', ':', ' '].map byte
def setCookie : Bytes :=
  ['S', 'e', 't', '-', 'C', 'o', 'o', 'k', 'i', 'e', ':', ' ', 'n', 'a', 'm', 'e', '=', 'h', 'h',
    'h'].map byte

def response (suffix text : Bytes) : Bytes :=
  let header := contentLength ++ toStringSize text.length ++ sep ++ contentType ++
    suffixToDesc suffix ++ sep ++ setCookie ++ sep
  responseLine ++ sep ++ header ++ sep ++ text

/-- `buffer` is read up to its first zero. -/
def request (received : Bytes) : Except Failure HttpRequest :=
  match prase (deserialize (received.takeWhile (· != 0))) with
  | none => .error .noFirstLine
  | some req => .ok req

/-- `HandlerHttp`: the bytes sent, if any were received. -/
def handlerHttp (files : Files) (alloc : Nat → Bool) (received : Bytes) :
    Except Failure (Option Bytes) :=
  if received.isEmpty then .ok none
  else do
    let req ← request received
    let text ← readHtmlContent files alloc req.urlPath
    return some (response req.suffix text)

/-- A carriage return at the end of a line does not make an end of line of its own. -/
theorem sep_infix_concat {line : Bytes} : sep <:+: line ++ [13] ↔ sep <:+: line := by
  rw [List.infix_concat_iff, or_iff_right]
  intro hsuffix
  have hlast := hsuffix.getLast (by simp [sep])
  simp [sep] at hlast

theorem sep_not_inside {line : Bytes} (hcr : (13 : UInt8) ∉ line) : ¬ sep <:+: line := by
  intro h
  exact hcr (h.subset (by simp [sep]))

theorem findStr_sep {line : Bytes} (hsep : ¬ sep <:+: line) (rest : Bytes) :
    findStr (line ++ sep ++ rest) sep = some line.length := by
  apply (findStr_eq_some_iff (by simp [sep])).mpr
  exact ⟨line, rest, rfl, mt sep_infix_concat.mp hsep, rfl⟩

@[simp] theorem take_line (line rest : Bytes) : (line ++ sep ++ rest).take line.length = line := by
  simp

@[simp] theorem eraseFront_line (line rest : Bytes) :
    eraseFront (line ++ sep ++ rest) (line.length + sep.length) = rest := by
  rw [eraseFront, ← List.length_append, List.drop_left]

theorem deserialize_line {line : Bytes} (hne : line ≠ []) (hsep : ¬ sep <:+: line)
    (rest : Bytes) : deserialize (line ++ sep ++ rest) =
      (line :: (deserialize rest).1, (deserialize rest).2) := by
  rw [deserialize, findStr_sep hsep]
  simp only [take_line, eraseFront_line, List.isEmpty_iff, hne, if_false]

theorem deserialize_blank (rest : Bytes) : deserialize (sep ++ rest) = ([], sep ++ rest) := by
  have hempty : ¬ sep <:+: ([] : Bytes) := by simp [sep]
  have hfind : findStr (sep ++ rest) sep = some 0 := findStr_sep hempty rest
  rw [deserialize, hfind]
  simp

theorem deserialize_append {lines : List Bytes}
    (h : ∀ line ∈ lines, line ≠ [] ∧ ¬ sep <:+: line) (rest : Bytes) :
    deserialize (lines.flatMap (· ++ sep) ++ rest) =
      (lines ++ (deserialize rest).1, (deserialize rest).2) := by
  induction lines with
  | nil => rfl
  | cons line lines ih =>
    rw [List.forall_mem_cons] at h
    rw [List.flatMap_cons, List.append_assoc, deserialize_line h.1.1 h.1.2, ih h.2]
    rfl

/-- Lines written one after another are read back up to the blank line. -/
theorem deserialize_lines {lines : List Bytes}
    (h : ∀ line ∈ lines, line ≠ [] ∧ ¬ sep <:+: line) (text : Bytes) :
    deserialize (lines.flatMap (· ++ sep) ++ (sep ++ text)) = (lines, sep ++ text) := by
  rw [deserialize_append h, deserialize_blank, List.append_nil]

/-- The first line, as long as there is one. -/
def firstLine (received : Bytes) : Option Bytes :=
  (deserialize (received.takeWhile (· != 0))).1.head?

theorem firstLine_line {line : Bytes} (hne : line ≠ []) (hcr : (13 : UInt8) ∉ line)
    (hzero : (0 : UInt8) ∉ line) (rest : Bytes) :
    firstLine (line ++ sep ++ rest) = some line := by
  have hkeep : ∀ b ∈ line ++ sep, (b != 0) = true := ne_of_not_mem (by simp [sep, hzero])
  rw [firstLine, List.takeWhile_append_of_pos hkeep, deserialize_line hne (sep_not_inside hcr)]
  rfl

/-- The second word of a line. -/
def target (line : Bytes) : Bytes := (words isSpace line).getD 1 []

theorem prase_url {line : Bytes} : (extract isSpace (extract isSpace line).2).1 = target line := by
  rw [extract_fst, words_extract_snd, target]
  cases words isSpace line with
  | nil => rfl
  | cons w ws => cases ws <;> rfl

theorem request_ok {received line : Bytes} (h : firstLine received = some line) :
    ∃ req, request received = .ok req ∧ req.urlPath = urlPath (target line) ∧
      req.suffix = suffix (target line) := by
  obtain ⟨lines, hlines⟩ := List.head?_eq_some_iff.mp h
  have hreq : deserialize (received.takeWhile (· != 0)) = (line :: lines,
      (deserialize (received.takeWhile (· != 0))).2) := by
    rw [← hlines]
  rw [request, hreq, prase]
  exact ⟨_, rfl, by rw [prase_url], by rw [prase_url]⟩

theorem handlerHttp_eq {files : Files} {alloc : Nat → Bool} {received line : Bytes}
    (h : firstLine received = some line) : handlerHttp files alloc received =
      (readHtmlContent files alloc (urlPath (target line))).map
        fun text => some (response (suffix (target line)) text) := by
  obtain ⟨req, hreq, hpath, hsuffix⟩ := request_ok h
  have hne : received.isEmpty = false := by
    cases received with
    | nil => simp [firstLine, deserialize, findStr, sep] at h
    | cons b received => rfl
  rw [handlerHttp, hne, if_neg Bool.false_ne_true, hreq, ← hpath, ← hsuffix]
  cases hread : readHtmlContent files alloc req.urlPath with
  | error e => simp [bind, Except.bind, Except.map, hread]
  | ok text => simp [bind, Except.bind, Except.map, hread, pure, Except.pure]

/-- "GET / HTTP/1.0". -/
def getHome : Bytes :=
  ['G', 'E', 'T', ' ', '/', ' ', 'H', 'T', 'T', 'P', '/', '1', '.', '0'].map byte

theorem firstLine_getHome : firstLine (getHome ++ sep ++ sep) = some getHome :=
  firstLine_line (by decide) (by decide) (by decide) sep

end HttpServer
