import LinuxPractice.Decimal

/-!
# The part of `std::string` the programs use

A string is its list of bytes. Searches return `none` for `npos`, `substr` and
`stoi` fail the way the C++ library documents, and an `int` is an `Int32`.
-/
namespace CppString

open Decimal

abbrev Bytes := List UInt8

/-- The standard exceptions the modelled calls can throw. -/
inductive Exception where
  | invalidArgument
  | outOfRange
  deriving DecidableEq, Repr

/-- `s.find(c)` for a one-byte needle. -/
def find (s : Bytes) (c : UInt8) : Option Nat := s.findIdx? (· == c)

/-- `s.rfind(c)` for a one-byte needle. -/
def rfind : Bytes → UInt8 → Option Nat
  | [], _ => none
  | b :: s, c =>
    match rfind s c with
    | some i => some (i + 1)
    | none => if b == c then some 0 else none

/-- `s.find(pat)` for a string. -/
def findStr : Bytes → Bytes → Option Nat
  | [], pat => if pat = [] then some 0 else none
  | b :: s, pat => if pat.isPrefixOf (b :: s) then some 0 else (findStr s pat).map (· + 1)

/-- `s.substr(pos, n)`: throws when `pos` is beyond the end, else clips `n`. -/
def substr (s : Bytes) (pos n : Nat) : Except Exception Bytes :=
  if s.length < pos then .error .outOfRange else .ok ((s.drop pos).take n)

/-- `s.erase(0, n)`. -/
def eraseFront (s : Bytes) (n : Nat) : Bytes := s.drop n

/-- `isspace` in the C locale. -/
def isSpace (b : UInt8) : Bool := b == 32 || (9 ≤ b && b ≤ 13)

/-- The optional sign `strtol` accepts; `true` for a minus. -/
def splitSign : Bytes → Bool × Bytes
  | [] => (false, [])
  | b :: s => if b == 45 then (true, s) else if b == 43 then (false, s) else (false, b :: s)

/-- A value an `int` can hold. -/
def InInt (v : Int) : Prop := -2147483648 ≤ v ∧ v ≤ 2147483647

instance (v : Int) : Decidable (InInt v) := inferInstanceAs (Decidable (_ ∧ _))

/-- The signed number at the head of a string, or `none` without digits. -/
def strtol (s : Bytes) : Option Int :=
  let signed := splitSign (s.dropWhile isSpace)
  let ds := signed.2.takeWhile isDigit
  if ds.isEmpty then none
  else some (if signed.1 then -(value ds : Int) else value ds)

def stoi (s : Bytes) : Except Exception Int32 :=
  match strtol s with
  | none => .error .invalidArgument
  | some v => if InInt v then .ok (Int32.ofInt v) else .error .outOfRange

/-- `std::to_string(int)`. -/
def toStringInt (x : Int32) : Bytes :=
  if x.toInt < 0 then 45 :: print x.toInt.natAbs else print x.toInt.natAbs

/-- `std::to_string(size_t)`. -/
def toStringSize (n : Nat) : Bytes := print n

/-- The conversion of an `int` to `size_t`. -/
def toSizeT (x : Int32) : Nat := (x.toInt % 18446744073709551616).toNat

theorem inInt_toInt (x : Int32) : InInt x.toInt := by
  have hlo := x.le_toInt
  have hhi := x.toInt_lt
  exact ⟨by omega, by omega⟩

theorem toInt_ofInt {v : Int} (h : InInt v) : (Int32.ofInt v).toInt = v :=
  Int32.toInt_ofInt_of_le (by have := h.1; omega) (by have := h.2; omega)

theorem toSizeT_ofNat {n : Nat} (h : n ≤ 2147483647) : toSizeT (Int32.ofInt n) = n := by
  rw [toSizeT, toInt_ofInt ⟨by omega, by omega⟩]
  omega

theorem find_eq_none_iff {s : Bytes} {c : UInt8} : find s c = none ↔ c ∉ s := by
  simp only [find, List.findIdx?_eq_none_iff, beq_eq_false_iff_ne]
  exact ⟨fun h hc => h c hc rfl, fun h b hb he => h (he ▸ hb)⟩

/-- The first occurrence of a byte splits the string there. -/
theorem find_eq_some_iff {s : Bytes} {c : UInt8} {i : Nat} :
    find s c = some i ↔ ∃ h t, s = h ++ c :: t ∧ c ∉ h ∧ h.length = i := by
  induction s generalizing i with
  | nil => simp [find]
  | cons b s ih =>
    by_cases hb : b = c
    · subst hb
      have hf : find (b :: s) b = some 0 := by simp [find, List.findIdx?_cons]
      rw [hf]
      constructor
      · intro h
        cases h
        exact ⟨[], s, rfl, by simp, rfl⟩
      · rintro ⟨h, t, he, hc, rfl⟩
        cases h with
        | nil => rfl
        | cons a h => simp at he; simp [he.1] at hc
    · have hf : find (b :: s) c = (find s c).map (· + 1) := by
        simp [find, List.findIdx?_cons, hb]
      rw [hf]
      constructor
      · intro h
        obtain ⟨j, hj, rfl⟩ := Option.map_eq_some_iff.mp h
        obtain ⟨u, t, rfl, hu, rfl⟩ := ih.mp hj
        exact ⟨b :: u, t, rfl, by simp [hu, Ne.symm hb], rfl⟩
      · rintro ⟨h, t, he, hc, rfl⟩
        cases h with
        | nil => simp at he; exact absurd he.1 hb
        | cons a u =>
          simp only [List.cons_append, List.cons.injEq] at he
          simp only [List.mem_cons, not_or] at hc
          rw [ih.mpr ⟨u, t, he.2, hc.2, rfl⟩]
          rfl

theorem find_append {h : Bytes} {c : UInt8} (hc : c ∉ h) (t : Bytes) :
    find (h ++ c :: t) c = some h.length :=
  find_eq_some_iff.mpr ⟨h, t, rfl, hc, rfl⟩

/-- A byte that is in neither head cuts a string in one place. -/
theorem append_cons_inj {c : UInt8} {h h' t t' : Bytes} (hh : c ∉ h) (hh' : c ∉ h')
    (he : h ++ c :: t = h' ++ c :: t') : h = h' ∧ t = t' := by
  have hlen : some h.length = some h'.length := by
    rw [← find_append hh t, he, find_append hh' t']
  obtain ⟨rfl, ht⟩ := List.append_inj he (Option.some.inj hlen)
  exact ⟨rfl, (List.cons.inj ht).2⟩

theorem findStr_eq_none_iff {s pat : Bytes} : findStr s pat = none ↔ ¬ pat <:+: s := by
  induction s with
  | nil => simp [findStr]
  | cons b s ih =>
    rw [List.infix_cons_iff, not_or, ← ih]
    by_cases hp : pat.isPrefixOf (b :: s)
    · simp [findStr, hp, List.isPrefixOf_iff_prefix.mp hp]
    · have hp' := mt List.isPrefixOf_iff_prefix.mpr hp
      simp [findStr, hp, hp']

/-- The first occurrence of a string cuts the text there. -/
theorem findStr_eq_some_iff {s pat : Bytes} {i : Nat} (hpat : pat ≠ []) :
    findStr s pat = some i ↔
      ∃ h t, s = h ++ pat ++ t ∧ ¬ pat <:+: h ++ pat.dropLast ∧ h.length = i := by
  have hpos : 0 < pat.length := List.length_pos_iff.mpr hpat
  -- a text in front of the occurrence reaches into it, but for its last byte
  have hreach : ∀ h t : Bytes, h ++ pat.dropLast <+: h ++ pat ++ t := by
    intro h t
    rw [List.append_assoc, List.prefix_append_right_inj]
    exact (List.dropLast_prefix pat).trans (List.prefix_append pat t)
  induction s generalizing i with
  | nil =>
    have hnone : findStr [] pat = none := by simp [findStr, hpat]
    simp only [hnone, reduceCtorEq, false_iff]
    rintro ⟨h, t, he, -⟩
    simp [hpat] at he
  | cons b s ih =>
    by_cases hp : pat <+: b :: s
    · have hzero : findStr (b :: s) pat = some 0 := by
        simp [findStr, List.isPrefixOf_iff_prefix.mpr hp]
      rw [hzero]
      constructor
      · intro hi
        cases hi
        obtain ⟨t, ht⟩ := hp
        refine ⟨[], t, ht.symm, ?_, rfl⟩
        intro hin
        have hle := hin.length_le
        simp only [List.nil_append, List.length_dropLast] at hle
        omega
      · rintro ⟨h, t, he, hn, rfl⟩
        cases h with
        | nil => rfl
        | cons c h =>
          rw [he] at hp
          have hle : pat.length ≤ (c :: h ++ pat.dropLast).length := by
            simp only [List.length_append, List.length_cons, List.length_dropLast]
            omega
          exact absurd (List.prefix_of_prefix_length_le hp (hreach _ t) hle).isInfix hn
    · have hstep : findStr (b :: s) pat = (findStr s pat).map (· + 1) := by
        simp [findStr, mt List.isPrefixOf_iff_prefix.mp hp]
      rw [hstep]
      constructor
      · intro hi
        obtain ⟨j, hj, rfl⟩ := Option.map_eq_some_iff.mp hi
        obtain ⟨h, t, rfl, hn, rfl⟩ := ih.mp hj
        refine ⟨b :: h, t, rfl, ?_, rfl⟩
        rw [List.cons_append, List.infix_cons_iff]
        rintro (hpre | hin)
        · exact hp (hpre.trans (hreach (b :: h) t))
        · exact hn hin
      · rintro ⟨h, t, he, hn, rfl⟩
        cases h with
        | nil => exact absurd ⟨t, he.symm⟩ hp
        | cons c h =>
          simp only [List.cons_append, List.cons.injEq] at he
          rw [List.cons_append, List.infix_cons_iff, not_or] at hn
          rw [ih.mpr ⟨h, t, he.2, hn.2, rfl⟩]
          rfl

theorem rfind_eq_none_iff {s : Bytes} {c : UInt8} : rfind s c = none ↔ c ∉ s := by
  induction s with
  | nil => simp [rfind]
  | cons b s ih =>
    cases hr : rfind s c with
    | some i => simp_all [rfind]
    | none =>
      by_cases hb : b = c
      · simp [rfind, hr, hb]
      · simp [rfind, hr, hb, Ne.symm hb, ih.mp hr]

theorem rfind_append {t : Bytes} {c : UInt8} (hc : c ∉ t) (h : Bytes) :
    rfind (h ++ c :: t) c = some h.length := by
  induction h with
  | nil => simp [rfind, rfind_eq_none_iff.mpr hc]
  | cons b h ih => simp [rfind, ih]

/-- The last occurrence of a byte splits the string there. -/
theorem rfind_eq_some_iff {s : Bytes} {c : UInt8} {i : Nat} :
    rfind s c = some i ↔ ∃ h t, s = h ++ c :: t ∧ c ∉ t ∧ h.length = i := by
  constructor
  · intro hr
    induction s generalizing i with
    | nil => simp [rfind] at hr
    | cons b s ih =>
      cases hs : rfind s c with
      | some j =>
        simp only [rfind, hs, Option.some.injEq] at hr
        obtain ⟨h, t, rfl, ht, rfl⟩ := ih hs
        exact ⟨b :: h, t, rfl, ht, by simpa using hr⟩
      | none =>
        simp only [rfind, hs, beq_iff_eq, Option.ite_none_right_eq_some, Option.some.injEq] at hr
        exact ⟨[], s, by rw [hr.1]; rfl, rfind_eq_none_iff.mp hs, hr.2⟩
  · rintro ⟨h, t, rfl, ht, rfl⟩
    exact rfind_append ht h

theorem ne_of_not_mem {d : Bytes} {c : UInt8} (hc : c ∉ d) : ∀ b ∈ d, (b != c) = true := by
  intro b hb
  rw [bne_iff_ne]
  intro he
  exact hc (he ▸ hb)

theorem takeWhile_ne {h : Bytes} {c : UInt8} (hc : c ∉ h) (t : Bytes) :
    (h ++ c :: t).takeWhile (· != c) = h := by
  rw [List.takeWhile_append_of_pos (ne_of_not_mem hc)]
  simp

theorem dropWhile_ne {h : Bytes} {c : UInt8} (hc : c ∉ h) (t : Bytes) :
    (h ++ c :: t).dropWhile (· != c) = c :: t := by
  rw [List.dropWhile_append_of_pos (ne_of_not_mem hc)]
  simp

/-- Read as a C string, bytes without a zero are all there. -/
theorem takeWhile_eq_self {d : Bytes} : d.takeWhile (· != 0) = d ↔ (0 : UInt8) ∉ d := by
  rw [List.takeWhile_eq_self_iff]
  constructor
  · intro h h0
    simpa using h 0 h0
  · exact ne_of_not_mem

theorem substr_of_le {s : Bytes} {pos : Nat} (h : pos ≤ s.length) (n : Nat) :
    substr s pos n = .ok ((s.drop pos).take n) := by
  simp only [substr, Nat.not_lt.mpr h, ↓reduceIte]

theorem isSpace_of_isDigit {b : UInt8} (h : isDigit b) : isSpace b = false := by
  simp only [isDigit, Bool.and_eq_true, decide_eq_true_eq, UInt8.le_iff_toNat_le] at h
  simp only [isSpace, Bool.or_eq_false_iff, Bool.and_eq_false_iff, decide_eq_false_iff_not,
    beq_eq_false_iff_ne, ne_eq, UInt8.le_iff_toNat_le, ← UInt8.toNat_inj]
  have h48 : (48 : UInt8).toNat = 48 := rfl
  have h32 : (32 : UInt8).toNat = 32 := rfl
  have h13 : (13 : UInt8).toNat = 13 := rfl
  omega

/-- A sign and a run of digits, ended by the end of the string. -/
theorem strtol_digits {ds : Bytes} (hne : ds ≠ []) (hd : ∀ b ∈ ds, isDigit b) :
    strtol ds = some (value ds : Int) := by
  obtain ⟨d, ds, rfl⟩ := List.exists_cons_of_ne_nil hne
  have hdig := hd d (by simp)
  have hspace : isSpace d = false := isSpace_of_isDigit hdig
  have hminus : d ≠ 45 := by rintro rfl; simp [isDigit] at hdig
  have hplus : d ≠ 43 := by rintro rfl; simp [isDigit] at hdig
  have hall : (d :: ds).takeWhile isDigit = d :: ds := List.takeWhile_eq_self_iff.mpr hd
  simp only [strtol, List.dropWhile_cons, hspace, Bool.false_eq_true, ↓reduceIte, splitSign,
    beq_iff_eq, hminus, hplus, hall, List.isEmpty_cons]

theorem strtol_minus {ds : Bytes} (hne : ds ≠ []) (hd : ∀ b ∈ ds, isDigit b) :
    strtol (45 :: ds) = some (-(value ds : Int)) := by
  have hall : ds.takeWhile isDigit = ds := List.takeWhile_eq_self_iff.mpr hd
  simp [strtol, isSpace, splitSign, hall, hne]

@[simp] theorem strtol_print (n : Nat) : strtol (print n) = some (n : Int) := by
  rw [strtol_digits (print_ne_nil n) (fun _ => isDigit_of_mem_print), value_print]

theorem stoi_print {n : Nat} (h : n ≤ 2147483647) : stoi (print n) = .ok (Int32.ofInt n) := by
  have hin : InInt n := ⟨by omega, by omega⟩
  simp only [stoi, strtol_print, hin, ↓reduceIte]

theorem stoi_eq_ok_iff {s : Bytes} {x : Int32} : stoi s = .ok x ↔ strtol s = some x.toInt := by
  constructor
  · intro h
    simp only [stoi] at h
    split at h
    · cases h
    · split at h
      · rename_i v hv hin
        cases h
        rw [hv, toInt_ofInt hin]
      · cases h
  · intro h
    simp only [stoi, h, inInt_toInt, ↓reduceIte, Int32.ofInt_toInt]

/-- Printing an `int` and reading it back, `INT_MIN` included. -/
@[simp] theorem stoi_toStringInt (x : Int32) : stoi (toStringInt x) = .ok x := by
  rw [stoi_eq_ok_iff, toStringInt]
  by_cases h : x.toInt < 0
  · simp only [h, ↓reduceIte]
    rw [strtol_minus (print_ne_nil _) (fun _ => isDigit_of_mem_print), value_print]
    congr 1
    omega
  · simp only [h, ↓reduceIte, strtol_print]
    congr 1
    omega

/-- A printed `int` is made of digits and at most a minus sign. -/
theorem mem_toStringInt {x : Int32} {b : UInt8} (h : b ∈ toStringInt x) :
    b = 45 ∨ isDigit b := by
  simp only [toStringInt] at h
  split at h
  · rcases List.mem_cons.mp h with h | h
    · exact .inl h
    · exact .inr (isDigit_of_mem_print h)
  · exact .inr (isDigit_of_mem_print h)

theorem not_mem_toStringInt {b : UInt8} (hm : b ≠ 45) (hd : isDigit b = false) (x : Int32) :
    b ∉ toStringInt x := by
  intro h
  rcases mem_toStringInt h with h | h
  · exact hm h
  · simp [hd] at h

theorem length_toStringInt (x : Int32) : (toStringInt x).length ≤ 11 := by
  have hx := inInt_toInt x
  have hp : (print x.toInt.natAbs).length ≤ 10 :=
    length_print_le (by decide) (by have := hx.1; have := hx.2; omega)
  simp only [toStringInt]
  split
  · simp only [List.length_cons]; omega
  · omega

end CppString
