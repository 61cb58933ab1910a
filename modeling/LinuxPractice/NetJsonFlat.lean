import LinuxPractice.NetJson

/-!
# A jsoncpp of flat objects

The part of jsoncpp that the two codecs use: objects of integers. A reader of
all of JSON takes more texts, but those that are written here it takes alike.
-/
namespace NetJsonFlat

open CppString Decimal NetProtocol NetCodec NetJson

inductive Value where
  | null : Value
  | int : Int → Value
  | object : List (Bytes × Int) → Value
  deriving DecidableEq, Repr

/-- `Json::LogicError`. -/
inductive LogicError where
  | logicError
  deriving DecidableEq, Repr

def Value.member : Value → Bytes → Except LogicError Value
  | .null, _ => .ok .null
  | .int _, _ => .error .logicError
  | .object ms, key =>
    match ms.lookup key with
    | none => .ok .null
    | some n => .ok (.int n)

def Value.asInt : Value → Except LogicError Int32
  | .null => .ok 0
  | .int n => if InInt n then .ok (Int32.ofInt n) else .error .logicError
  | .object _ => .error .logicError

/-- The members of an object are kept in the order of their keys. -/
def insertMember (m : Bytes × Int) : List (Bytes × Int) → List (Bytes × Int)
  | [] => [m]
  | m' :: ms =>
    if m.1 = m'.1 then m :: ms
    else if m.1 < m'.1 then m :: m' :: ms
    else m' :: insertMember m ms

/-- One member after another; the last one of a name stays. -/
def collect (ms : List (Bytes × Int)) : List (Bytes × Int) :=
  ms.foldl (fun acc m => insertMember m acc) []

def Value.assign : Value → Bytes → Int32 → Value
  | .null, key, x => .object [(key, x.toInt)]
  | .int n, _, _ => .int n
  | .object ms, key, x => .object (insertMember (key, x.toInt) ms)

def writeInt (n : Int) : Bytes := if n < 0 then 45 :: print n.natAbs else print n.natAbs

/-- `"key":n` -/
def writeMember (m : Bytes × Int) : Bytes := 34 :: (m.1 ++ 34 :: 58 :: writeInt m.2)

/-- `FastWriter::write`: no blanks, and a newline at the end. -/
def Value.write : Value → Bytes
  | .null => ['n', 'u', 'l', 'l'].map byte ++ [10]
  | .int n => writeInt n ++ [10]
  | .object ms => 123 :: [44].intercalate (ms.map writeMember) ++ 125 :: [10]

def readMember (s : Bytes) : Option (Bytes × Int) :=
  match s.splitOn 34 with
  | [[], key, 58 :: n] =>
    if key.all fun b => 97 ≤ b && b ≤ 122 then (literal n).map fun v => (key, v) else none
  | _ => none

def readObject (s : Bytes) : Option Value :=
  match s.splitOn 125 with
  | [123 :: body, tail] =>
    if tail = [] ∨ tail = [10] then
      ((body.splitOn 44).mapM readMember).map fun ms => .object (collect ms)
    else none
  | _ => none

def flat : Jsoncpp where
  Value := Value
  Error := LogicError
  null := .null
  parse s :=
    match readObject s with
    | none => (false, .null)
    | some v => (true, v)
  member := Value.member
  asInt := Value.asInt
  assign := Value.assign
  write := Value.write
  isObject
    | .object _ => true
    | _ => false
  integer
    | .int n => some n
    | _ => none

theorem flat_reads : flat.Reads where
  parse_failed s hs := by
    simp only [flat] at hs ⊢
    split
    · rfl
    · rename_i v hv
      simp [hv] at hs
  member_null key := rfl
  asInt_null := rfl
  asInt_integer v x hv := by
    cases v with
    | null => simp [flat] at hv
    | object ms => simp [flat] at hv
    | int n =>
      simp only [flat, Option.some.injEq] at hv
      simp only [flat, Value.asInt, hv, inInt_toInt, if_true, Int32.ofInt_toInt]

theorem insertMember_perm {m : Bytes × Int} {ms : List (Bytes × Int)}
    (h : m.1 ∉ ms.map Prod.fst) : (insertMember m ms).Perm (m :: ms) := by
  induction ms with
  | nil => exact .refl _
  | cons m' ms ih =>
    rw [List.map_cons, List.mem_cons, not_or] at h
    rw [insertMember, if_neg h.1]
    split
    · exact .refl _
    · exact ((ih h.2).cons m').trans (.swap m m' ms)

theorem foldl_insertMember_perm (ms acc : List (Bytes × Int))
    (h : ((ms ++ acc).map Prod.fst).Nodup) :
    (ms.foldl (fun acc m => insertMember m acc) acc).Perm (ms ++ acc) := by
  induction ms generalizing acc with
  | nil => exact .refl _
  | cons m ms ih =>
    have hfresh : m.1 ∉ acc.map Prod.fst := by
      rw [List.cons_append, List.map_cons, List.nodup_cons, List.map_append] at h
      exact fun hm => h.1 (List.mem_append_right _ hm)
    have hinsert : (ms ++ insertMember m acc).Perm (m :: ms ++ acc) :=
      ((insertMember_perm hfresh).append_left ms).trans List.perm_middle
    exact (ih _ ((hinsert.map Prod.fst).nodup_iff.mpr h)).trans hinsert

/-- Members of different names are only put in order. -/
theorem collect_perm {ms : List (Bytes × Int)} (h : (ms.map Prod.fst).Nodup) :
    (collect ms).Perm ms := by
  have hperm := foldl_insertMember_perm ms [] (by rwa [List.append_nil])
  rwa [List.append_nil] at hperm

theorem lookup_of_mem {ms : List (Bytes × Int)} (h : (ms.map Prod.fst).Nodup) {key : Bytes}
    {n : Int} (hmem : (key, n) ∈ ms) : ms.lookup key = some n := by
  induction ms with
  | nil => cases hmem
  | cons m ms ih =>
    rw [List.map_cons, List.nodup_cons] at h
    rcases List.mem_cons.mp hmem with rfl | hmem
    · exact List.lookup_cons_self
    · have hne : (key == m.1) = false := by
        rw [beq_eq_false_iff_ne]
        intro he
        exact h.1 (List.mem_map.mpr ⟨_, hmem, he⟩)
      rw [List.lookup_cons, hne]
      exact ih h.2 hmem

/-- A field with its value as an integer. -/
def field (f : Bytes × Int32) : Bytes × Int := (f.1, f.2.toInt)

/-- A member that comes from a field of an object. -/
def IsField (m : Bytes × Int) : Prop :=
  ∃ f : Bytes × Int32, (f.1.all fun b => 97 ≤ b && b ≤ 122) ∧ field f = m

theorem map_fst_field (fields : List (Bytes × Int32)) :
    (fields.map field).map Prod.fst = fields.map Prod.fst := by
  rw [List.map_map]
  rfl

theorem foldl_assign (fields : List (Bytes × Int32)) (acc : List (Bytes × Int)) :
    fields.foldl (fun root f => flat.assign root f.1 f.2) (Value.object acc) =
      Value.object ((fields.map field).foldl (fun acc m => insertMember m acc) acc) := by
  induction fields generalizing acc with
  | nil => rfl
  | cons f fields ih => exact ih _

/-- What is assigned one after another is collected. -/
theorem build_eq {fields : List (Bytes × Int32)} (h : fields ≠ []) :
    build flat fields = Value.object (collect (fields.map field)) := by
  cases fields with
  | nil => exact absurd rfl h
  | cons f fields => exact foldl_assign fields [field f]

/-- The bytes of a member. -/
def isMemberByte (b : UInt8) : Bool :=
  (97 ≤ b && b ≤ 122) || isDigit b || b == 34 || b == 45 || b == 58

theorem IsField.isMemberByte {m : Bytes × Int} (h : IsField m) {b : UInt8}
    (hb : b ∈ writeMember m) : isMemberByte b := by
  obtain ⟨f, hplain, rfl⟩ := h
  have hname := List.all_eq_true.mp hplain b
  have hvalue : b ∈ writeInt f.2.toInt → b = 45 ∨ isDigit b := mem_toStringInt
  simp only [writeMember, field, List.mem_cons, List.mem_append] at hb
  rw [NetJsonFlat.isMemberByte]
  rcases hb with rfl | hb | rfl | rfl | hb
  · decide
  · simp [hname hb]
  · decide
  · decide
  · rcases hvalue hb with rfl | hdigit
    · decide
    · simp [hdigit]

theorem IsField.length_writeMember {m : Bytes × Int} (h : IsField m) :
    (writeMember m).length ≤ m.1.length + 14 := by
  obtain ⟨f, -, rfl⟩ := h
  have hvalue : (writeInt f.2.toInt).length ≤ 11 := length_toStringInt f.2
  simp only [writeMember, field, List.length_cons, List.length_append]
  omega

theorem IsField.readMember_writeMember {m : Bytes × Int} (h : IsField m) :
    readMember (writeMember m) = some m := by
  obtain ⟨f, hplain, rfl⟩ := h
  have hname : (34 : UInt8) ∉ f.1 := by
    intro h
    exact absurd (List.all_eq_true.mp hplain _ h) (by decide)
  have hvalue : (34 : UInt8) ∉ 58 :: toStringInt f.2 := by
    rw [List.mem_cons, not_or]
    exact ⟨by decide, not_mem_toStringInt (by decide) (by decide) f.2⟩
  have hsplit : (writeMember (field f)).splitOn 34 = [[], f.1, 58 :: toStringInt f.2] := by
    have hempty : (34 : UInt8) ∉ ([] : Bytes) := List.not_mem_nil
    have hfirst := List.splitOn_append_cons_self_of_not_mem hempty
      (f.1 ++ 34 :: 58 :: toStringInt f.2)
    have hsecond := List.splitOn_append_cons_self_of_not_mem hname (58 :: toStringInt f.2)
    rw [List.splitOn_eq_singleton hvalue] at hsecond
    rw [hsecond] at hfirst
    exact hfirst
  rw [readMember, hsplit]
  simp only [hplain, if_true, literal_toStringInt, Option.map_some]
  rfl

theorem mapM_readMember {ms : List (Bytes × Int)} (h : ∀ m ∈ ms, IsField m) :
    (ms.map writeMember).mapM readMember = some ms := by
  induction ms with
  | nil => rfl
  | cons m ms ih =>
    rw [List.forall_mem_cons] at h
    simp only [List.map_cons, List.mapM_cons, h.1.readMember_writeMember, ih h.2]
    rfl

theorem mem_intercalate {sep b : UInt8} {parts : List Bytes} (h : b ∈ [sep].intercalate parts) :
    b = sep ∨ ∃ part ∈ parts, b ∈ part := by
  induction parts with
  | nil => simp at h
  | cons part parts ih =>
    cases parts with
    | nil => exact .inr ⟨part, by simp, by simpa using h⟩
    | cons next parts =>
      rw [List.intercalate_cons_cons, List.mem_append, List.mem_append, List.mem_singleton] at h
      rcases h with (h | h) | h
      · exact .inr ⟨part, by simp, h⟩
      · exact .inl h
      · obtain hsep | ⟨part', hmem, hb⟩ := ih h
        · exact .inl hsep
        · exact .inr ⟨part', List.mem_cons_of_mem _ hmem, hb⟩

/-- The bytes between the braces. -/
theorem isMemberByte_of_mem_body {ms : List (Bytes × Int)} (h : ∀ m ∈ ms, IsField m) {b : UInt8}
    (hb : b ∈ [44].intercalate (ms.map writeMember)) : b = 44 ∨ isMemberByte b := by
  rcases mem_intercalate hb with hsep | ⟨part, hmem, hpart⟩
  · exact .inl hsep
  · obtain ⟨m, hm, rfl⟩ := List.mem_map.mp hmem
    exact .inr ((h m hm).isMemberByte hpart)

/-- An object is read back, with its members in order. -/
theorem readObject_write {ms : List (Bytes × Int)} (hne : ms ≠ []) (h : ∀ m ∈ ms, IsField m) :
    readObject (Value.object ms).write = some (.object (collect ms)) := by
  have hbody : (125 : UInt8) ∉ 123 :: [44].intercalate (ms.map writeMember) := by
    rw [List.mem_cons, not_or]
    refine ⟨by decide, fun hmem => ?_⟩
    rcases isMemberByte_of_mem_body h hmem with hb | hb
    · exact absurd hb (by decide)
    · exact absurd hb (by decide)
  have hcomma : ∀ part ∈ ms.map writeMember, (44 : UInt8) ∉ part := by
    intro part hmem hpart
    obtain ⟨m, hm, rfl⟩ := List.mem_map.mp hmem
    exact absurd ((h m hm).isMemberByte hpart) (by decide)
  have htext : (Value.object ms).write.splitOn 125 =
      [123 :: [44].intercalate (ms.map writeMember), [10]] :=
    List.splitOn_append_cons_self_of_not_mem hbody [10]
  rw [readObject, htext]
  simp only [or_true, if_true, List.splitOn_intercalate _ hcomma (by simpa using hne),
    mapM_readMember h, Option.map_some]

theorem length_intercalate_le (sep : UInt8) (parts : List Bytes) :
    ([sep].intercalate parts).length ≤ (parts.map fun part => part.length + 1).sum := by
  induction parts with
  | nil => simp
  | cons part parts ih =>
    cases parts with
    | nil => simp
    | cons next parts =>
      rw [List.intercalate_cons_cons, List.map_cons, List.sum_cons]
      simp only [List.length_append, List.length_singleton]
      omega

theorem length_body_le {ms : List (Bytes × Int)} (h : ∀ m ∈ ms, IsField m) :
    ([44].intercalate (ms.map writeMember)).length ≤ (ms.map fun m => m.1.length + 15).sum := by
  refine (length_intercalate_le 44 _).trans ?_
  rw [List.map_map]
  refine List.sum_le_sum fun m hm => ?_
  have hlen := (h m hm).length_writeMember
  simp only [Function.comp_apply]
  omega

/-- The members of the object that is built are its fields, in order. -/
theorem members_perm {fields : List (Bytes × Int32)} (h : Members fields) :
    (collect (fields.map field)).Perm (fields.map field) :=
  collect_perm (by rw [map_fst_field]; exact h.nodup)

theorem members_isField {fields : List (Bytes × Int32)} (h : Members fields) :
    ∀ m ∈ collect (fields.map field), IsField m := by
  intro m hm
  obtain ⟨f, hf, rfl⟩ := List.mem_map.mp ((members_perm h).mem_iff.mp hm)
  exact ⟨f, h.plain f hf, rfl⟩

theorem parse_write {fields : List (Bytes × Int32)} (h : Members fields) :
    flat.parse (flat.write (build flat fields)) =
      (true, Value.object (collect (collect (fields.map field)))) := by
  have hne : collect (fields.map field) ≠ [] := by
    intro hnil
    have hperm := members_perm h
    rw [hnil, List.nil_perm, List.map_eq_nil_iff] at hperm
    exact h.ne_nil hperm
  have hread := readObject_write hne (members_isField h)
  rw [build_eq h.ne_nil]
  simp only [flat, hread]

theorem flat_writes : flat.Writes where
  read_back fields h := by
    rw [parse_write h]
    refine ⟨rfl, rfl, fun f hf => ⟨Value.int f.2.toInt, ?_, rfl⟩⟩
    have hnodup : ((fields.map field).map Prod.fst).Nodup := by
      rw [map_fst_field]
      exact h.nodup
    have hsorted := ((members_perm h).map Prod.fst).nodup_iff.mpr hnodup
    have hperm := (collect_perm hsorted).trans (members_perm h)
    have hmem : (f.1, f.2.toInt) ∈ collect (collect (fields.map field)) :=
      hperm.mem_iff.mpr (List.mem_map_of_mem hf)
    have hlookup := lookup_of_mem ((hperm.map Prod.fst).nodup_iff.mpr hnodup) hmem
    simp only [flat, Value.member, hlookup]
  write_length fields h := by
    have hsum := ((members_perm h).map fun m => m.1.length + 15).sum_nat
    have hbody := length_body_le (members_isField h)
    rw [build_eq h.ne_nil]
    rw [hsum, List.map_map] at hbody
    simp only [flat, Value.write, List.length_cons, List.length_append, List.length_nil]
    exact (Nat.add_le_add_right hbody 3).trans (by simp only [Function.comp_def, field]; omega)
  write_text fields h hzero := by
    rw [build_eq h.ne_nil] at hzero
    rcases List.mem_append.mp hzero with hzero | hzero
    · rcases List.mem_cons.mp hzero with hzero | hzero
      · exact absurd hzero (by decide)
      · rcases isMemberByte_of_mem_body (members_isField h) hzero with hb | hb
        · exact absurd hb (by decide)
        · exact absurd hb (by decide)
    · exact absurd hzero (by decide)

end NetJsonFlat
