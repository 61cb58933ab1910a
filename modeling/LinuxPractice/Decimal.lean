import Mathlib

/-!
# Decimal text over bytes

Printing a natural number in base ten and reading a run of digits back. The
digits are ASCII bytes, most significant first, with no bound on the number.
-/
namespace Decimal

/-- The byte of an ASCII character. -/
def byte (c : Char) : UInt8 := UInt8.ofNat c.toNat

def isDigit (b : UInt8) : Bool := 48 ≤ b && b ≤ 57

def print (n : Nat) : List UInt8 := (Nat.toDigits 10 n).map byte

/-- The number a run of digits stands for; the empty run is zero. -/
def value (ds : List UInt8) : Nat := ds.foldl (fun acc b => 10 * acc + (b.toNat - 48)) 0

/-- The number that is written with these digits and nothing else. -/
def parse (ds : List UInt8) : Option Nat :=
  if ds ≠ [] ∧ ds.all isDigit then some (value ds) else none

theorem toNat_byte (c : Char) (h : c.isDigit) : (byte c).toNat = c.toNat := by
  have hc : c.toNat ≤ 57 := by
    simp only [Char.isDigit, Bool.and_eq_true, decide_eq_true_eq] at h
    exact h.2
  simp only [byte, UInt8.toNat_ofNat']
  omega

theorem isDigit_byte (c : Char) (h : c.isDigit) : isDigit (byte c) := by
  have hb := toNat_byte c h
  simp only [Char.isDigit, Bool.and_eq_true, decide_eq_true_eq] at h
  simp only [isDigit, Bool.and_eq_true, decide_eq_true_eq, UInt8.le_iff_toNat_le, hb]
  exact ⟨h.1, h.2⟩

theorem isDigit_of_mem_print {n : Nat} {b : UInt8} (h : b ∈ print n) : isDigit b := by
  obtain ⟨c, hc, rfl⟩ := List.mem_map.mp h
  exact isDigit_byte c (Nat.isDigit_of_mem_toDigits (by decide) (by decide) hc)

@[simp] theorem print_ne_nil (n : Nat) : print n ≠ [] := by
  simp [print]

/-- A byte that is no digit does not occur in a printed number. -/
theorem not_mem_print {b : UInt8} (hb : isDigit b = false) (n : Nat) : b ∉ print n := by
  intro h
  simp [isDigit_of_mem_print h] at hb

theorem value_map_byte (cs : List Char) (h : ∀ c ∈ cs, c.isDigit) (acc : Nat) :
    (cs.map byte).foldl (fun acc b => 10 * acc + (b.toNat - 48)) acc =
      Nat.ofDigitChars 10 cs acc := by
  induction cs generalizing acc with
  | nil => rfl
  | cons c cs ih =>
    have hc : (byte c).toNat = c.toNat := toNat_byte c (h c (by simp))
    simp only [List.map_cons, List.foldl_cons, Nat.ofDigitChars_cons, hc]
    exact ih (fun d hd => h d (by simp [hd])) _

@[simp] theorem value_print (n : Nat) : value (print n) = n := by
  have hd : ∀ c ∈ Nat.toDigits 10 n, c.isDigit :=
    fun c hc => Nat.isDigit_of_mem_toDigits (by decide) (by decide) hc
  simp only [value, print]
  rw [value_map_byte _ hd, Nat.ofDigitChars_ten_toDigits]

@[simp] theorem parse_print (n : Nat) : parse (print n) = some n := by
  have hdigits : (print n).all isDigit := List.all_eq_true.mpr fun _ => isDigit_of_mem_print
  rw [parse, if_pos ⟨print_ne_nil n, hdigits⟩, value_print]

theorem print_injective {m n : Nat} (h : print m = print n) : m = n := by
  rw [← value_print m, h, value_print]

/-- A number below `10 ^ k` has at most `k` digits. -/
theorem length_print_le {n k : Nat} (hk : 0 < k) (h : n < 10 ^ k) : (print n).length ≤ k := by
  simp only [print, List.length_map]
  exact (Nat.length_toDigits_le_iff (by decide) hk).mpr h

end Decimal
