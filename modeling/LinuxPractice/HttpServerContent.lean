import LinuxPractice.HttpServer

/-!
# What a response carries

The body is a string of zeros as long as the end position the stream reported,
and every response says 200, also the one for a file that cannot be opened.
-/
namespace HttpServerContent

open CppString Decimal HttpServer Words

/-- The bytes behind the blank line. -/
def body (reply : Bytes) : Bytes := (deserialize reply).2.drop sep.length

/-- The second word of the status line. -/
def status (reply : Bytes) : Option Bytes := (deserialize reply).1.head?.map target

/-- "200". -/
def ok200 : Bytes := ['2', '0', '0'].map byte

/-- The request is answered, with the content of the file at `path` if that can be opened, and
with status 200 only then. -/
def Serves (files : Files) (alloc : Nat → Bool) (received path : Bytes) : Prop :=
  ∃ reply, handlerHttp files alloc received = .ok (some reply) ∧
    (∀ file, files path = some file → body reply = file.content) ∧
    (status reply = some ok200 → (files path).isSome)

variable {files : Files} {alloc : Nat → Bool} {received line : Bytes}

def headerLines (suffix text : Bytes) : List Bytes :=
  [responseLine, contentLength ++ toStringSize text.length, contentType ++ suffixToDesc suffix,
    setCookie]

theorem response_eq (suffix text : Bytes) :
    response suffix text = (headerLines suffix text).flatMap (· ++ sep) ++ (sep ++ text) := by
  simp [response, headerLines]

theorem cr_not_mem_desc (suffix : Bytes) : (13 : UInt8) ∉ suffixToDesc suffix := by
  unfold suffixToDesc
  split
  · decide
  · split <;> decide

theorem headerLines_ok (suffix text : Bytes) :
    ∀ line ∈ headerLines suffix text, line ≠ [] ∧ (13 : UInt8) ∉ line := by
  have hlength : (13 : UInt8) ∉ contentLength ++ toStringSize text.length := by
    rw [List.mem_append, not_or]
    exact ⟨by decide, not_mem_print (by decide) _⟩
  have htype : (13 : UInt8) ∉ contentType ++ suffixToDesc suffix := by
    rw [List.mem_append, not_or]
    exact ⟨by decide, cr_not_mem_desc suffix⟩
  intro line hline
  simp only [headerLines, List.mem_cons, List.not_mem_nil, or_false] at hline
  rcases hline with rfl | rfl | rfl | rfl
  · decide
  · exact ⟨by simp [contentLength], hlength⟩
  · exact ⟨by simp [contentType], htype⟩
  · decide

theorem deserialize_response (suffix text : Bytes) :
    deserialize (response suffix text) = (headerLines suffix text, sep ++ text) := by
  have hlines : ∀ line ∈ headerLines suffix text, line ≠ [] ∧ ¬ sep <:+: line := by
    intro line hline
    obtain ⟨hne, hcr⟩ := headerLines_ok suffix text line hline
    exact ⟨hne, sep_not_inside hcr⟩
  rw [response_eq, deserialize_lines hlines]

@[simp] theorem body_response (suffix text : Bytes) : body (response suffix text) = text := by
  rw [body, deserialize_response, List.drop_left]

/-- One file, under every name. -/
def only (content : Bytes) (tellg : Int64) : Files := fun _ => some ⟨content, tellg⟩

end HttpServerContent
