import LinuxPractice.Words

/-!
# C strings in a buffer

A pointer is a place in the buffer, and what lies behind the buffer reads as
zero. `strtok` ends the token that it returns by a zero of its own.
-/
namespace CBuffer

open Words

/-- `*p`. -/
def byteAt (buf : List UInt8) (p : Nat) : UInt8 := buf.getD p 0

/-- The string that a pointer stands for. -/
def cstr (buf : List UInt8) (p : Nat) : List UInt8 := (buf.drop p).takeWhile (· != 0)

/-- `while(test(*p)) p++;`. -/
def skip (test : UInt8 → Bool) (buf : List UInt8) (p : Nat) : Nat :=
  p + ((buf.drop p).takeWhile test).length

structure Token where
  token : Option Nat
  buf : List UInt8
  save : Nat
  deriving DecidableEq, Repr

/-- A call of `strtok` that goes on from `save`. -/
def strtok (delim : UInt8 → Bool) (buf : List UInt8) (save : Nat) : Token :=
  let start := skip delim buf save
  if byteAt buf start = 0 then ⟨none, buf, start⟩
  else
    let stop := skip (fun b => b != 0 && !delim b) buf start
    if byteAt buf stop = 0 then ⟨some start, buf, stop⟩
    else ⟨some start, buf.set stop 0, stop + 1⟩

variable {front w rest : List UInt8} {test delim : UInt8 → Bool} {b c : UInt8}

theorem lt_length_of_byteAt {buf : List UInt8} {p : Nat} (h : byteAt buf p ≠ 0) :
    p < buf.length := by
  by_contra hge
  apply h
  rw [byteAt, List.getD_eq_getElem?_getD, List.getElem?_eq_none (Nat.le_of_not_lt hge)]
  rfl

@[simp] theorem byteAt_append (front : List UInt8) (b : UInt8) (rest : List UInt8) :
    byteAt (front ++ b :: rest) front.length = b := by
  simp [byteAt, List.getD_eq_getElem?_getD]

@[simp] theorem set_append (front : List UInt8) (b c : UInt8) (rest : List UInt8) :
    (front ++ b :: rest).set front.length c = front ++ c :: rest := by
  simp

theorem takeWhile_stop {α : Type} {test : α → Bool} {w rest : List α} {c : α}
    (hw : ∀ b ∈ w, test b) (hc : test c = false) : (w ++ c :: rest).takeWhile test = w := by
  rw [List.takeWhile_append_of_pos hw, List.takeWhile_cons_of_neg (by simp [hc]), List.append_nil]

theorem skip_append (front : List UInt8) (hw : ∀ b ∈ w, test b) (hc : test c = false)
    (rest : List UInt8) :
    skip test (front ++ (w ++ c :: rest)) front.length = (front ++ w).length := by
  rw [skip, List.drop_left, takeWhile_stop hw hc, List.length_append]

theorem cstr_append (front : List UInt8) (hw : (0 : UInt8) ∉ w) (rest : List UInt8) :
    cstr (front ++ (w ++ 0 :: rest)) front.length = w := by
  have hkeep : ∀ b ∈ w, (b != 0) = true := by
    intro b hb
    rw [bne_iff_ne]
    rintro rfl
    exact hw hb
  rw [cstr, List.drop_left, takeWhile_stop hkeep rfl]

theorem le_skip (test : UInt8 → Bool) (buf : List UInt8) (p : Nat) : p ≤ skip test buf p :=
  Nat.le_add_right p _

/-- The string that begins where the loop has stopped. -/
theorem cstr_skip (test : UInt8 → Bool) (hzero : test 0 = false) (hw : (0 : UInt8) ∉ w)
    (front rest : List UInt8) :
    cstr (front ++ (w ++ 0 :: rest)) (skip test (front ++ (w ++ 0 :: rest)) front.length) =
      w.dropWhile test := by
  have hskip : skip test (front ++ (w ++ 0 :: rest)) front.length =
      (front ++ w.takeWhile test).length := by
    rw [skip, List.drop_left, List.length_append]
    congr 2
    by_cases hall : ∀ b ∈ w, test b
    · rw [takeWhile_stop hall hzero, List.takeWhile_eq_self_iff.mpr hall]
    · rw [List.takeWhile_append, if_neg]
      intro he
      apply hall
      rw [← List.takeWhile_eq_self_iff]
      exact (List.takeWhile_prefix test).eq_of_length he
  have hshape : front ++ (w ++ 0 :: rest) =
      front ++ w.takeWhile test ++ (w.dropWhile test ++ 0 :: rest) := by
    rw [List.append_assoc, ← List.append_assoc (w.takeWhile test), List.takeWhile_append_dropWhile]
  rw [hskip, hshape]
  exact cstr_append _ (fun hm => hw ((List.dropWhile_suffix test).subset hm)) rest

/-- What lies behind a change keeps its strings. -/
theorem cstr_behind {front' : List UInt8} (hlen : front'.length = front.length) {p : Nat}
    (hp : front.length ≤ p) (rest : List UInt8) :
    cstr (front' ++ rest) p = cstr (front ++ rest) p := by
  rw [cstr, cstr, List.drop_append, List.drop_append, List.drop_eq_nil_of_le hp,
    List.drop_eq_nil_of_le (by omega), hlen]

/-- A text of separators only has no words. -/
theorem words_eq_nil {s : List UInt8} (h : ∀ b ∈ s, delim b) : words delim s = [] := by
  induction s with
  | nil => rfl
  | cons b s ih =>
    rw [List.forall_mem_cons] at h
    rw [words_cons_space h.1, ih h.2]

theorem words_gap {gap s : List UInt8} (h : ∀ b ∈ gap, delim b) :
    words delim (gap ++ s) = words delim s := by
  induction gap with
  | nil => rfl
  | cons b gap ih =>
    rw [List.forall_mem_cons] at h
    rw [List.cons_append, words_cons_space h.1, ih h.2]

variable {line : List UInt8}

/-- The places a token is made of: separators, the word, and a separator or the end. -/
theorem split_token (delim : UInt8 → Bool) (line : List UInt8) :
    (∀ b ∈ line, delim b) ∨ ∃ gap w, (∀ b ∈ gap, delim b) ∧ w ≠ [] ∧ (∀ b ∈ w, delim b = false) ∧
      (line = gap ++ w ∨ ∃ d line', delim d ∧ line = gap ++ (w ++ d :: line')) := by
  cases ht : line.dropWhile delim with
  | nil =>
    left
    simpa using ht
  | cons b t =>
    right
    have hb : delim b = false := head?_dropWhile (s := line) (by rw [ht]; rfl)
    refine ⟨line.takeWhile delim, (b :: t).takeWhile fun c => !delim c, ?_, by simp [hb], ?_, ?_⟩
    · exact fun c hc => List.mem_takeWhile_imp hc
    · intro c hc
      simpa using List.mem_takeWhile_imp hc
    · have hline := List.takeWhile_append_dropWhile (p := delim) (l := line)
      have hrest := List.takeWhile_append_dropWhile (p := fun c => !delim c) (l := b :: t)
      rw [ht, ← hrest] at hline
      cases hr : (b :: t).dropWhile fun c => !delim c with
      | nil =>
        rw [hr, List.append_nil] at hline
        exact .inl hline.symm
      | cons d line' =>
        rw [hr] at hline
        refine .inr ⟨d, line', ?_, hline.symm⟩
        simpa using head?_dropWhile (p := fun c => !delim c) (s := b :: t) (b := d) (by rw [hr]; rfl)

theorem words_last (hne : w ≠ []) (hw : ∀ b ∈ w, delim b = false) : words delim w = [w] := by
  have hword : words delim (w ++ []) = w :: words delim [] := words_word hne hw (by simp)
  simpa using hword

theorem words_eq_nil_iff : words delim line = [] ↔ ∀ b ∈ line, delim b := by
  refine ⟨fun h => ?_, words_eq_nil⟩
  rcases split_token delim line with hgap | ⟨gap, w, hgap, hne, hw, rfl | ⟨d, line', hd, rfl⟩⟩
  · exact hgap
  · rw [words_gap hgap, words_last hne hw] at h
    cases h
  · rw [words_gap hgap, words_word hne hw (by simpa using hd)] at h
    cases h

theorem length_word (h : w ∈ words delim line) : w.length ≤ line.length := by
  induction hn : line.length using Nat.strong_induction_on generalizing line with
  | _ n ih =>
    rcases split_token delim line with hgap | ⟨gap, v, hgap, hne, hv, rfl | ⟨d, line', hd, rfl⟩⟩
    · rw [words_eq_nil hgap] at h
      cases h
    · rw [words_gap hgap, words_last hne hv, List.mem_singleton] at h
      subst h
      rw [← hn, List.length_append]
      omega
    · simp only [List.length_append, List.length_cons] at hn
      rw [words_gap hgap, words_word hne hv (by simpa using hd), words_cons_space hd] at h
      rcases List.mem_cons.mp h with rfl | h
      · omega
      · have hrest := ih line'.length (by omega) h rfl
        omega

/-- The call after the last token. -/
theorem strtok_none (hzero : delim 0 = false) (h : words delim line = [])
    (front rest : List UInt8) :
    strtok delim (front ++ (line ++ 0 :: rest)) front.length =
      ⟨none, front ++ (line ++ 0 :: rest), (front ++ line).length⟩ := by
  have hstart := skip_append front (words_eq_nil_iff.mp h) hzero rest
  simp only [strtok, hstart]
  rw [← List.append_assoc, byteAt_append, if_pos rfl]

/-- A token is a word that begins behind the separators, and reaches up to `c`. -/
theorem strtok_word {gap : List UInt8} (hgap : ∀ b ∈ gap, delim b) (hne : w ≠ [])
    (hw : ∀ b ∈ w, delim b = false) (hnul : (0 : UInt8) ∉ w) (hc : c = 0 ∨ delim c)
    (front rest : List UInt8) :
    strtok delim (front ++ (gap ++ (w ++ c :: rest))) front.length =
      if c = 0 then ⟨some (front ++ gap).length, front ++ (gap ++ (w ++ c :: rest)),
        (front ++ gap ++ w).length⟩
      else ⟨some (front ++ gap).length, front ++ gap ++ w ++ 0 :: rest,
        (front ++ gap ++ w).length + 1⟩ := by
  obtain ⟨b, t, rfl⟩ := List.exists_cons_of_ne_nil hne
  have hb : delim b = false := hw b List.mem_cons_self
  have hb0 : b ≠ 0 := fun he => hnul (he ▸ List.mem_cons_self)
  have hstart : skip delim (front ++ (gap ++ (b :: t ++ c :: rest))) front.length =
      (front ++ gap).length := skip_append front hgap hb (t ++ c :: rest)
  have hfirst : byteAt (front ++ (gap ++ (b :: t ++ c :: rest))) (front ++ gap).length = b := by
    rw [← List.append_assoc]
    exact byteAt_append (front ++ gap) b (t ++ c :: rest)
  have hword : ∀ x ∈ b :: t, (x != 0 && !delim x) = true := by
    intro x hx
    have hx0 : x ≠ 0 := fun he => hnul (he ▸ hx)
    simp [hw x hx, hx0]
  have hend : (c != 0 && !delim c) = false := by
    rcases hc with rfl | hc
    · rfl
    · simp [hc]
  have hstop : skip (fun x => x != 0 && !delim x) (front ++ (gap ++ (b :: t ++ c :: rest)))
      (front ++ gap).length = (front ++ gap ++ b :: t).length := by
    rw [← List.append_assoc]
    exact skip_append (front ++ gap) hword hend rest
  have hlast : byteAt (front ++ (gap ++ (b :: t ++ c :: rest))) (front ++ gap ++ b :: t).length =
      c := by
    rw [← List.append_assoc, ← List.append_assoc]
    exact byteAt_append _ c rest
  simp only [strtok, hstart, hfirst, hstop, hlast, if_neg hb0]
  split
  · rfl
  · rw [← List.append_assoc, ← List.append_assoc, set_append]

/-- A call of `strtok` in front of a word: it is cut off, by a zero or at the end of the line. -/
theorem strtok_next {ws : List (List UInt8)} (h : (0 : UInt8) ∉ line)
    (hws : words delim line = w :: ws) (front rest : List UInt8) :
    ∃ gap mid line', words delim line' = ws ∧ (0 : UInt8) ∉ w ∧ (0 : UInt8) ∉ line' ∧
      (mid = [0] ∨ mid = [] ∧ line' = []) ∧ (gap ++ w ++ mid ++ line').length = line.length ∧
      strtok delim (front ++ (line ++ 0 :: rest)) front.length =
        ⟨some (front ++ gap).length, front ++ gap ++ w ++ mid ++ (line' ++ 0 :: rest),
          (front ++ gap ++ w ++ mid).length⟩ := by
  rcases split_token delim line with hgap | ⟨gap, w', hgap, hne, hw, hline⟩
  · rw [words_eq_nil hgap] at hws
    cases hws
  · rcases hline with rfl | ⟨d, line', hd, rfl⟩
    · have hnul : (0 : UInt8) ∉ w' := fun hm => h (List.mem_append_right gap hm)
      rw [words_gap hgap, words_last hne hw, List.cons.injEq] at hws
      obtain ⟨rfl, rfl⟩ := hws
      refine ⟨gap, [], [], rfl, hnul, List.not_mem_nil, .inr ⟨rfl, rfl⟩, by simp, ?_⟩
      rw [List.append_assoc, strtok_word hgap hne hw hnul (.inl rfl)]
      simp
    · have hnul : (0 : UInt8) ∉ w' := fun hm => h (by simp [hm])
      have hd0 : d ≠ 0 := fun he => h (by simp [he])
      have hshape : gap ++ (w' ++ d :: line') ++ 0 :: rest =
          gap ++ (w' ++ d :: (line' ++ 0 :: rest)) := by simp
      rw [words_gap hgap, words_word hne hw (by simpa using hd), words_cons_space hd,
        List.cons.injEq] at hws
      obtain ⟨rfl, rfl⟩ := hws
      refine ⟨gap, [0], line', rfl, hnul, fun hm => h (by simp [hm]), .inl rfl, by simp, ?_⟩
      rw [hshape, strtok_word hgap hne hw hnul (.inr hd), if_neg hd0]
      simp [Nat.add_assoc]

/-- The word that was cut off stays what it is while the line behind it changes. -/
theorem cstr_word {mid line' : List UInt8} (hw : (0 : UInt8) ∉ w)
    (hmid : mid = [0] ∨ mid = [] ∧ line' = []) (front rest : List UInt8) :
    cstr (front ++ w ++ mid ++ (line' ++ 0 :: rest)) front.length = w := by
  rcases hmid with rfl | ⟨rfl, rfl⟩
  · simpa using cstr_append front hw (line' ++ 0 :: rest)
  · simpa using cstr_append front hw rest

end CBuffer
