import Mathlib.Data.List.Infix
import LinuxPractice.CppString
import LinuxPractice.FirstSeen
import LinuxPractice.Loops

/-!
# Dictionary: what a client's word is translated to

`Init.hpp` reads its file line by line and keeps the first entry of each word.
`Split` reports a line without a colon, but nobody listens: such a line is
stored as an entry for the empty word.
-/
namespace Dictionary

open CppString Loops

/-- ":" -/
def colon : UInt8 := 58

def newline : UInt8 := 10

/-- "Unknow" -/
def unknow : Bytes := [85, 110, 107, 110, 111, 119]

/-- What `Split` returns, and what it leaves in `*part1` and `*part2`. -/
def split (s part1 part2 sep : Bytes) : Except Exception (Bool × Bytes × Bytes) :=
  match findStr s sep with
  | none => .ok (false, part1, part2)
  | some pos =>
    match substr s 0 pos with
    | .error e => .error e
    | .ok first =>
      match substr s (pos + 1) s.length with
      | .error e => .error e
      | .ok second => .ok (true, first, second)

/-- The next line, and what is left of the file. -/
def getline (input : Bytes) : Option (Bytes × Bytes) :=
  if input = [] then none
  else some (input.takeWhile (· != newline), (input.dropWhile (· != newline)).drop 1)

abbrev Dict := List (Bytes × Bytes)

/-- How the constructor of `Init` can end. -/
inductive Constructed where
  | exit : Constructed
  | throw : Exception → Constructed
  | done : Dict → Constructed
  deriving DecidableEq, Repr

/-- One turn of the loop of `Init`. What `Split` returns is dropped. -/
def turn (s : Dict × Bytes) : Turn (Dict × Bytes) Constructed :=
  match getline s.2 with
  | none => .leave (.done s.1)
  | some (line, rest) =>
    match split line [] [] [colon] with
    | .error e => .leave (.throw e)
    | .ok (_, part1, part2) => .again (FirstSeen.insert s.1 part1 part2, rest)

/-- `Init`; there is no `file` if it cannot be opened. -/
def Init (file : Option Bytes) (c : Constructed) : Prop :=
  match file with
  | none => c = .exit
  | some input => Returns turn ([], input) c

def translation (dict : Dict) (key : Bytes) : Bytes :=
  match dict.lookup key with
  | none => unknow
  | some value => value

/-- The lines of a file. A newline at its end begins no further line. -/
def lines (file : Bytes) : List Bytes :=
  let pieces := file.splitOn newline
  if pieces.getLast? = some [] then pieces.dropLast else pieces

/-- The word in front of the first colon and the text behind it. -/
def entry (line : Bytes) : Option (Bytes × Bytes) :=
  if colon ∈ line then
    some (line.takeWhile (· != colon), (line.dropWhile (· != colon)).drop 1)
  else none

/-- The text of the first line for this word. -/
def meaning (file key : Bytes) : Bytes := (((lines file).filterMap entry).lookup key).getD unknow

variable {l h t rest key : Bytes}

theorem entry_append (hh : colon ∉ h) (t : Bytes) : entry (h ++ colon :: t) = some (h, t) := by
  rw [entry, if_pos (by simp), takeWhile_ne hh, dropWhile_ne hh]
  rfl

theorem entry_none (hl : colon ∉ l) : entry l = none := if_neg hl

/-- The first colon cuts a line. -/
theorem line_cases (l : Bytes) : colon ∉ l ∨ ∃ h t, l = h ++ colon :: t ∧ colon ∉ h := by
  by_cases hl : colon ∈ l
  · exact .inr (List.eq_append_cons_of_mem hl)
  · exact .inl hl

/-- `Split` finds the entry of a line, and leaves two empty strings where there is none. -/
theorem split_eq (l : Bytes) :
    split l [] [] [colon] = .ok ((entry l).isSome, (entry l).getD ([], [])) := by
  rcases line_cases l with hl | ⟨h, t, rfl, hh⟩
  · have hfind : findStr l [colon] = none := by
      rwa [findStr_eq_none_iff, List.singleton_infix_iff]
    simp only [split, hfind, entry_none hl]
    rfl
  · have hfind : findStr (h ++ colon :: t) [colon] = some h.length := by
      refine (findStr_eq_some_iff (by simp)).mpr ⟨h, t, by simp, ?_, rfl⟩
      rwa [List.dropLast_singleton, List.append_nil, List.singleton_infix_iff]
    have hlen : h.length + 1 ≤ (h ++ colon :: t).length := by simp
    have hfirst : ((h ++ colon :: t).drop 0).take h.length = h := by simp
    have hsecond : ((h ++ colon :: t).drop (h.length + 1)).take (h ++ colon :: t).length = t := by
      rw [List.append_cons, List.drop_left' (by simp), List.take_of_length_le]
      simp only [List.length_append]
      omega
    simp only [split, hfind, substr_of_le (Nat.zero_le _), substr_of_le hlen, entry_append hh,
      hfirst, hsecond]
    rfl

theorem lines_line (hl : newline ∉ l) (rest : Bytes) :
    lines (l ++ newline :: rest) = l :: lines rest := by
  obtain ⟨piece, pieces, hpieces⟩ := List.exists_cons_of_ne_nil (List.splitOn_ne_nil newline rest)
  simp only [lines, List.splitOn_append_cons_self_of_not_mem hl, hpieces,
    List.getLast?_cons_cons]
  split
  · rfl
  · rfl

theorem lines_last (hl : newline ∉ l) (hne : l ≠ []) : lines l = [l] := by
  simp [lines, List.splitOn_eq_singleton hl, hne]

/-- A file is at its end, or there is a line, which may be its last one. -/
theorem input_cases (input : Bytes) : input = [] ∨
    (∃ l rest, newline ∉ l ∧ input = l ++ newline :: rest) ∨ newline ∉ input ∧ input ≠ [] := by
  by_cases hnil : input = []
  · exact .inl hnil
  · by_cases hmem : newline ∈ input
    · obtain ⟨l, rest, hl, hnew⟩ := List.eq_append_cons_of_mem hmem
      exact .inr (.inl ⟨l, rest, hnew, hl⟩)
    · exact .inr (.inr ⟨hmem, hnil⟩)

theorem getline_line (hl : newline ∉ l) (rest : Bytes) :
    getline (l ++ newline :: rest) = some (l, rest) := by
  rw [getline, if_neg (by simp), takeWhile_ne hl, dropWhile_ne hl]
  rfl

theorem getline_last (hl : newline ∉ l) (hne : l ≠ []) : getline l = some (l, []) := by
  have hall := ne_of_not_mem hl
  rw [getline, if_neg hne, List.takeWhile_eq_self_iff.mpr hall, List.dropWhile_eq_nil_iff.mpr hall]
  rfl

/-- What the loop stores for a line. -/
def stored (line : Bytes) : Bytes × Bytes := (entry line).getD ([], [])

theorem turn_line {dict : Dict} {input : Bytes} (h : getline input = some (l, rest)) :
    turn (dict, input) = .again (FirstSeen.insertAll dict [stored l], rest) := by
  simp only [turn, h, split_eq]
  rfl

theorem loop_returns (dict : Dict) (input : Bytes) :
    Returns turn (dict, input) (.done (FirstSeen.insertAll dict ((lines input).map stored))) := by
  induction hn : input.length using Nat.strong_induction_on generalizing dict input with
  | _ n ih =>
    subst hn
    rcases input_cases input with rfl | ⟨l, rest, hl, rfl⟩ | ⟨hl, hne⟩
    · exact returns_leave rfl
    · rw [returns_again (turn_line (getline_line hl rest)), lines_line hl, List.map_cons,
        ← List.singleton_append, FirstSeen.insertAll_append]
      exact ih _ (by simp; omega) _ _ rfl
    · rw [returns_again (turn_line (getline_last hl hne)), lines_last hl hne]
      exact returns_leave rfl

/-- The constructor never throws, and a file it can open gives one dictionary. -/
theorem init_iff (file : Bytes) (c : Constructed) :
    Init (some file) c ↔ c = .done (FirstSeen.insertAll [] ((lines file).map stored)) := by
  constructor
  · intro h
    exact h.unique (loop_returns [] file)
  · rintro rfl
    exact loop_returns [] file

theorem translation_eq (file key : Bytes) :
    translation (FirstSeen.insertAll [] ((lines file).map stored)) key =
      (((lines file).map stored).lookup key).getD unknow := by
  rw [translation, FirstSeen.lookup_insertAll]
  cases ((lines file).map stored).lookup key <;> rfl

/-- A line without a colon is in nobody's way but that of the empty word. -/
theorem lookup_stored (hkey : key ≠ []) (ls : List Bytes) :
    (ls.map stored).lookup key = (ls.filterMap entry).lookup key := by
  induction ls with
  | nil => rfl
  | cons l ls ih =>
    rw [List.map_cons, List.filterMap_cons, stored]
    cases hentry : entry l with
    | none =>
      simp only [Option.getD_none]
      rw [FirstSeen.lookup_cons_of_ne hkey, ih]
    | some p =>
      rw [Option.getD_some, List.lookup_cons, List.lookup_cons, ih]

/-- The lines that begin with a colon have the empty word. -/
def begins (line : Bytes) : Bool := line.head? == some colon

/-- The lines in front of the first one for the empty word. -/
def front (ls : List Bytes) : List Bytes := ls.takeWhile fun line => !begins line

theorem find?_cons_false (hl : begins l = false) (ls : List Bytes) :
    (l :: ls).find? begins = ls.find? begins :=
  List.find?_cons_of_neg (Bool.eq_false_iff.mp hl)

theorem front_cons_false (hl : begins l = false) (ls : List Bytes) :
    front (l :: ls) = l :: front ls :=
  List.takeWhile_cons_of_pos (p := fun line => !begins line) (congrArg not hl)

theorem begins_append (hh : colon ∉ h) (t : Bytes) : begins (h ++ colon :: t) = h.isEmpty := by
  cases h with
  | nil => simp [begins]
  | cons b h =>
    simp only [List.mem_cons, not_or] at hh
    simp [begins, Ne.symm hh.1]

theorem begins_none (hl : colon ∉ l) : begins l = false := by
  cases l with
  | nil => rfl
  | cons b l =>
    simp only [List.mem_cons, not_or] at hl
    simp [begins, Ne.symm hl.1]

theorem lookup_empty (ls : List Bytes) :
    (ls.filterMap entry).lookup [] = (ls.find? begins).map List.tail := by
  induction ls with
  | nil => rfl
  | cons l ls ih =>
    rcases line_cases l with hl | ⟨h, t, rfl, hh⟩
    · rw [List.filterMap_cons_none (entry_none hl), find?_cons_false (begins_none hl), ih]
    · rw [List.filterMap_cons_some (entry_append hh t)]
      cases h with
      | nil => simp [begins]
      | cons b h =>
        rw [FirstSeen.lookup_cons_of_ne (by simp), ih, find?_cons_false (begins_append hh t)]

/-- The empty word is translated as it should be. -/
theorem stored_empty_iff (ls : List Bytes) :
    ((ls.map stored).lookup []).getD unknow = ((ls.filterMap entry).lookup []).getD unknow ↔
      (∀ l ∈ front ls, colon ∈ l) ∨ ls.find? begins = some [colon] := by
  induction ls with
  | nil => simp [front]
  | cons l ls ih =>
    rcases line_cases l with hl | ⟨h, t, rfl, hh⟩
    · -- the empty string is stored for good, so the first entry has to say the same
      have hlookup : ((l :: ls).map stored).lookup [] = some [] := by
        simp [stored, entry_none hl]
      rw [hlookup, lookup_empty, find?_cons_false (begins_none hl),
        front_cons_false (begins_none hl)]
      simp only [List.forall_mem_cons, hl, false_and, false_or, Option.getD_some]
      cases hfind : ls.find? begins with
      | none => simp [unknow]
      | some line =>
        have hline : begins line = true := List.find?_some hfind
        cases line with
        | nil => simp [begins] at hline
        | cons b line =>
          simp only [begins, List.head?_cons, beq_iff_eq, Option.some.injEq] at hline
          simp [hline, eq_comm]
    · have hstored : stored (h ++ colon :: t) = (h, t) := by
        rw [stored, entry_append hh, Option.getD_some]
      rw [List.map_cons, hstored, List.filterMap_cons_some (entry_append hh t)]
      cases h with
      | nil => simp [begins, front]
      | cons b h =>
        have hbegins : begins (b :: h ++ colon :: t) = false := begins_append hh t
        rw [FirstSeen.lookup_cons_of_ne (by simp), FirstSeen.lookup_cons_of_ne (by simp), ih,
          find?_cons_false hbegins, front_cons_false hbegins, List.forall_mem_cons]
        simp

/-- Whatever the file is, and whatever the key. -/
theorem translation_eq_meaning_iff (file key : Bytes) :
    ∃ dict, (∀ c, Init (some file) c ↔ c = .done dict) ∧
      (translation dict key = meaning file key ↔
        key ≠ [] ∨ (∀ l ∈ front (lines file), colon ∈ l) ∨
          (lines file).find? begins = some [colon]) := by
  refine ⟨_, init_iff file, ?_⟩
  rw [translation_eq, meaning]
  by_cases hkey : key = []
  · subst hkey
    simpa using stored_empty_iff (lines file)
  · simp [lookup_stored hkey, hkey]

/-- One line "hello". -/
def hello : Bytes := [104, 101, 108, 108, 111]

theorem hello_empty_word : ¬ ∀ dict, Init (some hello) (.done dict) →
    translation dict [] = meaning hello [] := by
  intro h
  have hhello := h [([], [])] ⟨2, by decide⟩
  exact absurd hhello (by decide)

end Dictionary
