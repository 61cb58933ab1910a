import LinuxPractice.NetReplies

/-!
# The tasks of the pthread programs

`Task` of `blockQueue/task.hpp`, which `RingQueue/task.hpp` and
`threadPool/Task.hpp` repeat, and the tasks that the producers draw. Their
switch has a `break` in every case, where the server's helper lacks one.
-/
namespace PthreadTask

open CppString NetProtocol NetServer NetReplies

structure Task where
  data1 : Int32
  data2 : Int32
  oper : UInt8
  result : Int32
  exitcode : Int32
  deriving DecidableEq, Repr

/-- `opers`: `+-*/%`. -/
def opers : Bytes := [43, 45, 42, 47, 37]

/-- div_zero, mod_zero and unknown. -/
def divZero : Int32 := 1
def modZero : Int32 := 2
def unknown : Int32 := 3

/-- The constructor. -/
def Task.construct (x y : Int32) (op : UInt8) : Task := ⟨x, y, op, 0, 0⟩

/-- What the task asks for. -/
def Task.request (t : Task) : Request := ⟨t.data1, t.data2, t.oper⟩

/-- `result_` gets the value of an operation. -/
def Task.assign (undef : Undefined) (t : Task) (defined : Bool) (v : Int) : Except Death Task := do
  let result ← intResult undef t.request defined v
  return { t with result := result }

def Task.run (undef : Undefined) (t : Task) : Except Death Task :=
  let x := t.data1.toInt
  let y := t.data2.toInt
  if t.oper = 43 then t.assign undef (InInt (x + y)) (x + y)
  else if t.oper = 45 then t.assign undef (InInt (x - y)) (x - y)
  else if t.oper = 42 then t.assign undef (InInt (x * y)) (x * y)
  else if t.oper = 47 then
    if y = 0 then .ok { t with exitcode := divZero }
    else t.assign undef (InInt (x.tdiv y)) (x.tdiv y)
  else if t.oper = 37 then
    if y = 0 then .ok { t with exitcode := modZero }
    else t.assign undef (InInt (x.tdiv y)) (x.tmod y)
  else .ok { t with exitcode := unknown }

/-- `x op y=result[code: exitcode]`, without blanks around the operator. -/
def Task.getResult (t : Task) : Bytes :=
  toStringInt t.data1 ++ [t.oper] ++ toStringInt t.data2 ++ [61] ++ toStringInt t.result ++
    [91, 99, 111, 100, 101, 58, 32] ++ toStringInt t.exitcode ++ [93]

/-- `x op y=?`. -/
def Task.getTask (t : Task) : Bytes :=
  toStringInt t.data1 ++ [t.oper] ++ toStringInt t.data2 ++ [61, 63]

/-- The task with the exact result, or with the code that says why there is none. -/
def Task.answered (t : Task) : Task :=
  { t with
    result := (respond (exact t.request)).result
    exitcode := (respond (exact t.request)).code }

variable {undef : Undefined} {x y : Int32} {op : UInt8}

@[simp] theorem construct_request : (Task.construct x y op).request = ⟨x, y, op⟩ := rfl

@[simp] theorem construct_oper : (Task.construct x y op).oper = op := rfl

theorem assign_of_exact {v : Int} (hexact : exact ⟨x, y, op⟩ = .ok v) :
    (Task.construct x y op).assign undef true v = .ok (Task.construct x y op).answered := by
  simp only [Task.assign, intResult_true, Task.answered, construct_request, hexact, respond]
  rfl

theorem construct_error {e : Int32} (hexact : exact ⟨x, y, op⟩ = .error e) :
    { Task.construct x y op with exitcode := e } = (Task.construct x y op).answered := by
  simp only [Task.answered, construct_request, hexact, respond]
  rfl

/-- Every operator is answered as it should be, `%` as well. -/
theorem run_of_defined (hdef : Defined ⟨x, y, op⟩) :
    (Task.construct x y op).run undef = .ok (Task.construct x y op).answered := by
  obtain ⟨hadd, hsub, hmul, hdiv⟩ := hdef
  have hx : (Task.construct x y op).data1.toInt = x.toInt := rfl
  have hy : (Task.construct x y op).data2.toInt = y.toInt := rfl
  simp only [Task.run, construct_oper, hx, hy]
  by_cases h43 : op = 43
  · rw [if_pos h43, decide_eq_true (hadd h43)]
    exact assign_of_exact (by simp [exact, h43])
  by_cases h45 : op = 45
  · rw [if_neg h43, if_pos h45, decide_eq_true (hsub h45)]
    exact assign_of_exact (by simp [exact, h45])
  by_cases h42 : op = 42
  · rw [if_neg h43, if_neg h45, if_pos h42, decide_eq_true (hmul h42)]
    exact assign_of_exact (by simp [exact, h42])
  rw [if_neg h43, if_neg h45, if_neg h42]
  by_cases h47 : op = 47
  · rw [if_pos h47]
    by_cases hzero : y.toInt = 0
    · rw [if_pos hzero]
      exact congrArg _ (construct_error (by simp [exact, h47, hzero, NetServer.divZero, divZero]))
    · rw [if_neg hzero, decide_eq_true ((hdiv (.inl h47)).resolve_left hzero)]
      exact assign_of_exact (by simp [exact, h47, hzero])
  rw [if_neg h47]
  by_cases h37 : op = 37
  · rw [if_pos h37]
    by_cases hzero : y.toInt = 0
    · rw [if_pos hzero]
      exact congrArg _ (construct_error (by simp [exact, h37, hzero, modeZero, modZero]))
    · rw [if_neg hzero, decide_eq_true ((hdiv (.inr h37)).resolve_left hzero)]
      exact assign_of_exact (by simp [exact, h37, hzero])
  · rw [if_neg h37]
    apply congrArg
    exact construct_error (by simp [exact, h43, h45, h42, h47, h37, otherOper, unknown])

/-- As the constructor leaves it, with operands from 1 to 10 and an operator of `opers`. -/
def Task.Drawn (t : Task) : Prop :=
  t.result = 0 ∧ t.exitcode = 0 ∧ (1 ≤ t.data1.toInt ∧ t.data1.toInt ≤ 10) ∧
    (1 ≤ t.data2.toInt ∧ t.data2.toInt ≤ 10) ∧ t.oper ∈ opers

instance (t : Task) : Decidable t.Drawn := inferInstanceAs (Decidable (_ ∧ _))

abbrev DrawnTask := { t : Task // t.Drawn }

/-- `rand()%10+1`. -/
def operand (r : Nat) : Int32 := Int32.ofInt (r % 10 + 1 : Nat)

/-- `opers[rand()%len]`. -/
def operator (r : Nat) : UInt8 := opers.get ⟨r % 5, Nat.mod_lt r (by decide)⟩

theorem toInt_operand (r : Nat) : (operand r).toInt = (r % 10 + 1 : Nat) :=
  toInt_ofInt ⟨by omega, by omega⟩

/-- The task that three values of `rand()` give. -/
def draw (r1 r2 r3 : Nat) : DrawnTask :=
  ⟨Task.construct (operand r1) (operand r2) (operator r3), rfl, rfl,
    by
      have h := toInt_operand r1
      simp only [Task.construct]
      omega,
    by
      have h := toInt_operand r2
      simp only [Task.construct]
      omega,
    List.get_mem opers _⟩

theorem Task.Drawn.construct_eq {t : Task} (h : t.Drawn) :
    Task.construct t.data1 t.data2 t.oper = t := by
  obtain ⟨hresult, hcode, -⟩ := h
  cases t
  simp only at hresult hcode
  rw [Task.construct, hresult, hcode]

/-- The result of a drawn task, which lies between -9 and 100. -/
theorem Task.Drawn.exact_ok {t : Task} (h : t.Drawn) :
    ∃ v, exact t.request = .ok v ∧ -9 ≤ v ∧ v ≤ 100 := by
  obtain ⟨-, -, ⟨hx1, hx2⟩, ⟨hy1, hy2⟩, hop⟩ := h
  have hzero : t.data2.toInt ≠ 0 := by omega
  simp only [opers, List.mem_cons, List.not_mem_nil, or_false] at hop
  rcases hop with hop | hop | hop | hop | hop
  · exact ⟨t.data1.toInt + t.data2.toInt, by simp [exact, request, hop], by omega, by omega⟩
  · exact ⟨t.data1.toInt - t.data2.toInt, by simp [exact, request, hop], by omega, by omega⟩
  · refine ⟨t.data1.toInt * t.data2.toInt, by simp [exact, request, hop], ?_, ?_⟩
    · exact le_trans (by decide) (Int.mul_nonneg (by omega) (by omega))
    · exact Int.mul_le_mul hx2 hy2 (by omega) (by decide)
  · have hle : t.data1.toInt / t.data2.toInt ≤ t.data1.toInt := Int.ediv_le_self _ (by omega)
    have hpos : 0 ≤ t.data1.toInt / t.data2.toInt := Int.ediv_nonneg (by omega) (by omega)
    refine ⟨t.data1.toInt.tdiv t.data2.toInt, by simp [exact, request, hop, hzero], ?_, ?_⟩
    · rw [Int.tdiv_eq_ediv_of_nonneg (by omega)]
      omega
    · rw [Int.tdiv_eq_ediv_of_nonneg (by omega)]
      omega
  · have hpos := Int.emod_nonneg t.data1.toInt hzero
    have hlt := Int.emod_lt_of_pos t.data1.toInt (show 0 < t.data2.toInt by omega)
    refine ⟨t.data1.toInt.tmod t.data2.toInt, by simp [exact, request, hop, hzero], ?_, ?_⟩
    · rw [Int.tmod_eq_emod_of_nonneg (by omega)]
      omega
    · rw [Int.tmod_eq_emod_of_nonneg (by omega)]
      omega

theorem Task.Drawn.defined {t : Task} (h : t.Drawn) : Defined t.request := by
  obtain ⟨-, -, ⟨hx1, hx2⟩, ⟨hy1, hy2⟩, -⟩ := h
  refine ⟨fun _ => ?_, fun _ => ?_, fun _ => ?_, fun _ => .inr ?_⟩
  · exact ⟨by simp only [request]; omega, by simp only [request]; omega⟩
  · exact ⟨by simp only [request]; omega, by simp only [request]; omega⟩
  · have hlo := Int.mul_nonneg (show 0 ≤ t.data1.toInt by omega) (show 0 ≤ t.data2.toInt by omega)
    have hhi := Int.mul_le_mul hx2 hy2 (by omega) (by decide)
    exact ⟨le_trans (by decide) hlo, hhi.trans (by decide)⟩
  · have hle : t.data1.toInt / t.data2.toInt ≤ t.data1.toInt := Int.ediv_le_self _ (by omega)
    have hpos : 0 ≤ t.data1.toInt / t.data2.toInt := Int.ediv_nonneg (by omega) (by omega)
    simp only [request, InInt, Int.tdiv_eq_ediv_of_nonneg (show 0 ≤ t.data1.toInt by omega)]
    omega

theorem Task.Drawn.run {t : Task} (h : t.Drawn) (undef : Undefined) :
    t.run undef = .ok t.answered := by
  have hrun := @run_of_defined undef _ _ _ h.defined
  rwa [h.construct_eq] at hrun

/-- A drawn task ends with code 0 and with its exact result. -/
theorem Task.Drawn.answered_exact {t : Task} (h : t.Drawn) :
    exact t.request = .ok t.answered.result.toInt ∧ t.answered.exitcode = 0 := by
  obtain ⟨v, hv, hlo, hhi⟩ := h.exact_ok
  have hv' : t.answered.result.toInt = v := by
    simp only [Task.answered, hv, respond]
    exact toInt_ofInt ⟨by omega, by omega⟩
  rw [hv', hv]
  simp [Task.answered, hv, respond]

end PthreadTask
