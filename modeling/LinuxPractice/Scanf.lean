import LinuxPractice.CppString

/-!
# `scanf` of two integers

A conversion skips white space and takes the longest text that can begin a
number. So a sign that no digit follows is taken too, and the target of a
conversion that fails keeps its value.
-/
namespace Scanf

open CppString Decimal

/-- One `%d`: the number, if there is one, and what is left unread. -/
def scanInt (input : Bytes) : Option Int × Bytes :=
  let signed := splitSign (input.dropWhile isSpace)
  let ds := signed.2.takeWhile isDigit
  if ds.isEmpty then (none, signed.2)
  else (some (if signed.1 then -(value ds : Int) else value ds), signed.2.dropWhile isDigit)

/-- What the targets of `"%d %d"` are set to, and what is left unread. -/
structure Scanned where
  first : Option Int
  second : Option Int
  rest : Bytes
  deriving DecidableEq, Repr

/-- `scanf("%d %d", ..)`. The conversions end with the first one that fails. -/
def scanPair (input : Bytes) : Scanned :=
  match scanInt input with
  | (none, rest) => ⟨none, none, rest⟩
  | (some a, rest) => ⟨some a, (scanInt rest).1, (scanInt rest).2⟩

theorem length_splitSign (s : Bytes) : (splitSign s).2.length ≤ s.length := by
  cases s with
  | nil => exact Nat.le_refl 0
  | cons b s =>
    simp only [splitSign]
    split
    · simp
    · split
      · simp
      · simp

theorem length_dropWhile_le (p : UInt8 → Bool) (s : Bytes) : (s.dropWhile p).length ≤ s.length :=
  (List.dropWhile_suffix p).length_le

/-- A number has digits. -/
theorem scanInt_length_lt {input rest : Bytes} {v : Int} (h : scanInt input = (some v, rest)) :
    rest.length < input.length := by
  have hsign := length_splitSign (input.dropWhile isSpace)
  have hspace := length_dropWhile_le isSpace input
  simp only [scanInt] at h
  split at h
  · cases h
  · rename_i hds
    have hpos : 0 < ((splitSign (input.dropWhile isSpace)).2.takeWhile isDigit).length := by
      rw [List.length_pos_iff]
      simpa using hds
    have hparts := congrArg List.length
      (List.takeWhile_append_dropWhile (p := isDigit) (l := (splitSign (input.dropWhile isSpace)).2))
    rw [List.length_append] at hparts
    rw [← (Prod.mk.inj h).2]
    omega

theorem scanInt_dropWhile (input : Bytes) : scanInt (input.dropWhile isSpace) = scanInt input := by
  simp only [scanInt, List.dropWhile_idempotent]

theorem splitSign_cases (s : Bytes) : (splitSign s).2 = s ∨ ∃ b, s = b :: (splitSign s).2 := by
  cases s with
  | nil => exact .inl rfl
  | cons b s =>
    simp only [splitSign]
    split
    · exact .inr ⟨b, rfl⟩
    · split
      · exact .inr ⟨b, rfl⟩
      · exact .inl rfl

/-- A conversion that fails stops in front of what is no number, or behind a sign. -/
theorem scanInt_none {input rest : Bytes} (h : scanInt input = (none, rest)) :
    rest = input.dropWhile isSpace ∧ scanInt rest = (none, rest) ∨
      ∃ b, input.dropWhile isSpace = b :: rest := by
  have hrest : (splitSign (input.dropWhile isSpace)).2 = rest := by
    simp only [scanInt] at h
    split at h
    · exact congrArg Prod.snd h
    · cases h
  rcases splitSign_cases (input.dropWhile isSpace) with hstop | hsign
  · left
    have hspace : rest = input.dropWhile isSpace := hrest.symm.trans hstop
    refine ⟨hspace, ?_⟩
    rw [hspace, scanInt_dropWhile, ← hspace]
    exact h
  · right
    rwa [hrest] at hsign

/-- A number, or a sign that no digit follows. -/
inductive Token where
  | number : Int → Token
  | sign : Token
  deriving DecidableEq, Repr

/-- The tokens in front of the first character that is in none. -/
def tokens (input : Bytes) : List Token :=
  match _h : scanInt input with
  | (some v, rest) => .number v :: tokens rest
  | (none, rest) =>
    if rest.length < (input.dropWhile isSpace).length then .sign :: tokens rest else []
termination_by input.length
decreasing_by
  · exact scanInt_length_lt _h
  · have hle := length_dropWhile_le isSpace input
    omega

theorem tokens_number {input rest : Bytes} {v : Int} (h : scanInt input = (some v, rest)) :
    tokens input = .number v :: tokens rest := by
  rw [tokens]
  split
  · rename_i v' rest' h'
    cases h.symm.trans h'
    rfl
  · rename_i rest' h'
    cases h.symm.trans h'

/-- After a conversion that fails there are no tokens, or it has taken a sign. -/
theorem tokens_none {input rest : Bytes} (h : scanInt input = (none, rest)) :
    tokens input = [] ∧ tokens rest = [] ∨
      tokens input = .sign :: tokens rest ∧ rest.length < input.length := by
  have hif : ∀ {s t : Bytes}, scanInt s = (none, t) → tokens s =
      if t.length < (s.dropWhile isSpace).length then .sign :: tokens t else [] := by
    intro s t hs
    rw [tokens]
    split
    · rename_i v' t' hs'
      cases hs.symm.trans hs'
    · rename_i t' hs'
      cases hs.symm.trans hs'
      rfl
  have hspace := length_dropWhile_le isSpace input
  rcases scanInt_none h with ⟨hstop, hagain⟩ | ⟨b, hsign⟩
  · left
    have hle := length_dropWhile_le isSpace rest
    refine ⟨?_, ?_⟩
    · rw [hif h, if_neg (by rw [← hstop]; exact Nat.lt_irrefl _)]
    · rw [hif hagain, if_neg (by omega)]
  · right
    have hlen : (input.dropWhile isSpace).length = rest.length + 1 := by
      rw [hsign, List.length_cons]
    exact ⟨by rw [hif h, if_pos (by omega)], by omega⟩

end Scanf
