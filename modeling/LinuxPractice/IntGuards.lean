import LinuxPractice.CppString

/-!
# When `int` arithmetic is defined

Guards for the four operations, evaluated in `int` themselves and without any
undefined operation of their own, and what they say about the exact results.
-/
namespace IntGuards

open CppString

/-- INT_MAX and INT_MIN. -/
def intMax : Int32 := 2147483647
def intMin : Int32 := -2147483648

def addFits (x y : Int32) : Bool := if 0 < y then x ≤ intMax - y else intMin - y ≤ x

def subFits (x y : Int32) : Bool := if 0 < y then intMin + y ≤ x else x ≤ intMax + y

/-- No division here is by zero or by -1 of `intMin`. -/
def mulFits (x y : Int32) : Bool :=
  if 0 < y then (if 0 < x then x ≤ intMax / y else intMin / y ≤ x)
  else if 0 < x then intMin / x ≤ y
  else x = 0 || intMax / x ≤ y

/-- For a divisor that is not zero. -/
def divFits (x y : Int32) : Bool := !(x = intMin && y = -1)

theorem toInt_intMax : intMax.toInt = 2147483647 := rfl
theorem toInt_intMin : intMin.toInt = -2147483648 := rfl

theorem pos_iff {x : Int32} : 0 < x ↔ 0 < x.toInt := Int32.lt_iff_toInt_lt

theorem bmod_of_inInt {v : Int} (h : InInt v) : v.bmod (2 ^ 32) = v :=
  Int.bmod_eq_of_le_mul_two (by have := h.1; omega) (by have := h.2; omega)

theorem toInt_add_of_fits {x y : Int32} (h : InInt (x.toInt + y.toInt)) :
    (x + y).toInt = x.toInt + y.toInt := by
  rw [Int32.toInt_add, bmod_of_inInt h]

theorem toInt_sub_of_fits {x y : Int32} (h : InInt (x.toInt - y.toInt)) :
    (x - y).toInt = x.toInt - y.toInt := by
  rw [Int32.toInt_sub, bmod_of_inInt h]

theorem toInt_intMax_div (x : Int32) : (intMax / x).toInt = (2147483647 : Int).tdiv x.toInt :=
  Int32.toInt_div_of_ne_left intMax x (by decide)

theorem toInt_intMin_div {x : Int32} (hx : 0 < x.toInt) :
    (intMin / x).toInt = (-2147483648 : Int).tdiv x.toInt := by
  apply Int32.toInt_div_of_ne_right
  rintro rfl
  exact absurd hx (by decide)

theorem addFits_iff {x y : Int32} : addFits x y ↔ InInt (x.toInt + y.toInt) := by
  have hx := inInt_toInt x
  have hy := inInt_toInt y
  unfold InInt at hx hy
  unfold addFits InInt
  split
  · rename_i hpos
    rw [pos_iff] at hpos
    rw [decide_eq_true_eq, Int32.le_iff_toInt_le,
      toInt_sub_of_fits (by rw [toInt_intMax, InInt]; omega), toInt_intMax]
    omega
  · rename_i hneg
    rw [pos_iff] at hneg
    rw [decide_eq_true_eq, Int32.le_iff_toInt_le,
      toInt_sub_of_fits (by rw [toInt_intMin, InInt]; omega), toInt_intMin]
    omega

theorem subFits_iff {x y : Int32} : subFits x y ↔ InInt (x.toInt - y.toInt) := by
  have hx := inInt_toInt x
  have hy := inInt_toInt y
  unfold InInt at hx hy
  unfold subFits InInt
  split
  · rename_i hpos
    rw [pos_iff] at hpos
    rw [decide_eq_true_eq, Int32.le_iff_toInt_le,
      toInt_add_of_fits (by rw [toInt_intMin, InInt]; omega), toInt_intMin]
    omega
  · rename_i hneg
    rw [pos_iff] at hneg
    rw [decide_eq_true_eq, Int32.le_iff_toInt_le,
      toInt_add_of_fits (by rw [toInt_intMax, InInt]; omega), toInt_intMax]
    omega

theorem le_max_tdiv_iff {a b : Int} (hb : 0 < b) :
    a ≤ (2147483647 : Int).tdiv b ↔ a * b ≤ 2147483647 := by
  rw [Int.tdiv_eq_ediv_of_nonneg (by omega), Int.le_ediv_iff_mul_le hb]

theorem min_tdiv_le_iff {a b : Int} (hb : 0 < b) :
    (-2147483648 : Int).tdiv b ≤ a ↔ -2147483648 ≤ a * b := by
  have hneg : (-2147483648 : Int).tdiv b = -(2147483648 / b) := by
    rw [Int.neg_tdiv, Int.tdiv_eq_ediv_of_nonneg (by omega)]
  have hle : -a ≤ 2147483648 / b ↔ -a * b ≤ 2147483648 := Int.le_ediv_iff_mul_le hb
  rw [Int.neg_mul] at hle
  rw [hneg]
  omega

theorem max_tdiv_le_iff {a b : Int} (hb : b < 0) :
    (2147483647 : Int).tdiv b ≤ a ↔ a * b ≤ 2147483647 := by
  have hneg : (2147483647 : Int).tdiv b = -(2147483647 : Int).tdiv (-b) := by
    rw [Int.tdiv_neg, Int.neg_neg]
  have hle : -a ≤ (2147483647 : Int).tdiv (-b) ↔ -a * -b ≤ 2147483647 :=
    le_max_tdiv_iff (by omega)
  rw [Int.neg_mul_neg] at hle
  rw [hneg]
  omega

theorem mulFits_iff {x y : Int32} : mulFits x y ↔ InInt (x.toInt * y.toInt) := by
  unfold mulFits InInt
  by_cases hy : 0 < y
  · have hy' : 0 < y.toInt := pos_iff.mp hy
    by_cases hx : 0 < x
    · have hx' : 0 < x.toInt := pos_iff.mp hx
      have hpos := Int.mul_pos hx' hy'
      rw [if_pos hy, if_pos hx, decide_eq_true_eq, Int32.le_iff_toInt_le, toInt_intMax_div,
        le_max_tdiv_iff hy']
      omega
    · have hx' : x.toInt ≤ 0 := Int.not_lt.mp (mt pos_iff.mpr hx)
      have hneg := Int.mul_nonpos_of_nonpos_of_nonneg hx' (Int.le_of_lt hy')
      rw [if_pos hy, if_neg hx, decide_eq_true_eq, Int32.le_iff_toInt_le, toInt_intMin_div hy',
        min_tdiv_le_iff hy']
      omega
  · have hy' : y.toInt ≤ 0 := Int.not_lt.mp (mt pos_iff.mpr hy)
    by_cases hx : 0 < x
    · have hx' : 0 < x.toInt := pos_iff.mp hx
      have hneg := Int.mul_nonpos_of_nonneg_of_nonpos (Int.le_of_lt hx') hy'
      rw [if_neg hy, if_pos hx, decide_eq_true_eq, Int32.le_iff_toInt_le, toInt_intMin_div hx',
        min_tdiv_le_iff hx', Int.mul_comm]
      omega
    · have hx' : x.toInt ≤ 0 := Int.not_lt.mp (mt pos_iff.mpr hx)
      have hpos := Int.mul_nonneg_of_nonpos_of_nonpos hx' hy'
      have hzero : (0 : Int32).toInt = 0 := rfl
      rw [if_neg hy, if_neg hx, Bool.or_eq_true, decide_eq_true_eq, decide_eq_true_eq,
        ← Int32.toInt_inj, hzero, Int32.le_iff_toInt_le, toInt_intMax_div]
      by_cases hx0 : x.toInt = 0
      · simp [hx0]
      · rw [max_tdiv_le_iff (by omega), Int.mul_comm]
        omega

/-- Only `intMin / -1` does not fit. -/
theorem divFits_iff {x y : Int32} (hy : y.toInt ≠ 0) :
    divFits x y ↔ InInt (x.toInt.tdiv y.toInt) := by
  have hx := inInt_toInt x
  unfold InInt at hx
  have hmin : x = intMin ↔ x.toInt = -2147483648 := by rw [← Int32.toInt_inj, toInt_intMin]
  have hone : y = -1 ↔ y.toInt = -1 := by
    have h : (-1 : Int32).toInt = -1 := rfl
    rw [← Int32.toInt_inj, h]
  rw [divFits, Bool.not_eq_true', Bool.and_eq_false_iff, decide_eq_false_iff_not,
    decide_eq_false_iff_not, hmin, hone, InInt]
  by_cases hy1 : y.toInt = -1
  · have hneg : x.toInt.tdiv (-1) = -x.toInt := by rw [Int.tdiv_neg, Int.tdiv_one]
    rw [hy1, hneg]
    omega
  · by_cases hy2 : y.toInt = 1
    · rw [hy2, Int.tdiv_one]
      omega
    · -- the quotient is at most half as large
      have hhalf : (x.toInt.tdiv y.toInt).natAbs ≤ x.toInt.natAbs / 2 := by
        rw [Int.natAbs_tdiv]
        exact Nat.div_le_div_left (by omega) (by decide)
      omega

end IntGuards
