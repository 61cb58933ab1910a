import Mathlib.Data.List.Infix
import Mathlib.Data.List.TakeWhile

/-!
# An environment that shares a buffer with its caller

`putenv` keeps the pointer that it is given. A caller with one buffer for all
its variables changes with every call what it has stored before, and what the
environment then reads as is kept apart here from the pointers it consists of.
-/
namespace Environ

variable {α : Type}

/-- A pointer of `environ`: to a string in a place of some length, or to the buffer. -/
inductive Slot (α : Type) where
  | own : List α → Nat → Slot α
  | buffer : Slot α
  deriving DecidableEq, Repr

/-- The pointers, what the buffer holds and how much it can hold. -/
structure Env (α : Type) where
  slots : List (Slot α)
  buffer : List α
  room : Nat
  deriving DecidableEq, Repr

/-- A name and its value. -/
abbrev Setting (α : Type) := List α × List α

/-- What a caller does with its environment. -/
inductive Change (α : Type) where
  | put : List α → Change α
  | set : List α → List α → Change α
  deriving DecidableEq, Repr

section Pointers

variable [DecidableEq α] (sep : α)

/-- `strncmp(name, text, namelen) == 0 && text[namelen] == '='`, and the text behind it. -/
def valueOf (name text : List α) : Option (List α) :=
  if (name ++ [sep]).isPrefixOf text then some (text.drop (name.length + 1)) else none

def Env.text (e : Env α) : Slot α → List α
  | .own text _ => text
  | .buffer => e.buffer

def Env.getenv (e : Env α) (name : List α) : Option (List α) :=
  if name = [] then none else e.slots.findSome? fun s => valueOf sep name (e.text s)

/-- The first pointer that `test` accepts is replaced by the buffer's, which is else the last. -/
def place (test : Slot α → Bool) : List (Slot α) → List (Slot α)
  | [] => [.buffer]
  | s :: slots => if test s then .buffer :: slots else s :: place test slots

/-- `unsetenv`, which refuses an empty name. -/
def Env.unsetenv (e : Env α) (name : List α) : Env α :=
  if name = [] then e
  else { e with slots := e.slots.filter fun s => (valueOf sep name (e.text s)).isNone }

/-- `strcpy` into the buffer and `putenv` of it. Without a separator it unsets a variable. -/
def Env.putenv (e : Env α) (text : List α) : Option (Env α) :=
  if e.room < text.length then none
  else
    let e := { e with buffer := text }
    if sep ∈ text then
      let name := text.takeWhile (· ≠ sep)
      some { e with slots := place (fun s => (valueOf sep name (e.text s)).isSome) e.slots }
    else some (e.unsetenv sep text)

/-- `sprintf(getenv(name), "%s", value)`: the value is written over the old one if it fits. -/
def write (name value : List α) (room : Nat) (buffer : List α) :
    List (Slot α) → Option (List (Slot α) × List α)
  | [] => none
  | .own text size :: slots =>
    if (valueOf sep name text).isSome then
      if size < (name ++ sep :: value).length then none
      else some (.own (name ++ sep :: value) size :: slots, buffer)
    else (write name value room buffer slots).map fun p => (.own text size :: p.1, p.2)
  | .buffer :: slots =>
    if (valueOf sep name buffer).isSome then
      if room < (name ++ sep :: value).length then none
      else some (.buffer :: slots, name ++ sep :: value)
    else (write name value room buffer slots).map fun p => (.buffer :: p.1, p.2)

def Env.act (e : Env α) : Change α → Option (Env α)
  | .put text => e.putenv sep text
  | .set name value =>
    (write sep name value e.room e.buffer e.slots).map fun p =>
      { e with slots := p.1, buffer := p.2 }

def Env.acts (e : Env α) : List (Change α) → Option (Env α)
  | [] => some e
  | c :: cs => (e.act sep c).bind fun e => e.acts cs

end Pointers

/-- The settings that were there in the beginning, and among them the one that was exported. -/
structure View (α : Type) where
  before : List (Setting α)
  exported : Option (Setting α)
  behind : List (Setting α)
  deriving DecidableEq, Repr

/-- What was there in the beginning. -/
def View.rest (v : View α) : List (Setting α) := v.before ++ v.behind

section Meaning

variable [DecidableEq α] (sep : α)

def View.get (v : View α) (name : List α) : Option (List α) :=
  (v.before ++ v.exported.toList ++ v.behind).lookup name

def parse (text : List α) : Option (Setting α) :=
  if sep ∈ text then some (text.takeWhile (· ≠ sep), (text.dropWhile (· ≠ sep)).tail) else none

def setFirst (name value : List α) : List (Setting α) → List (Setting α)
  | [] => []
  | x :: xs => if x.1 = name then (name, value) :: xs else x :: setFirst name value xs

/-- Exporting moves the exported setting to the front if it replaces one that is there. -/
def View.put (v : View α) (text : List α) : View α :=
  match parse sep text with
  | some x =>
    { before := v.before.takeWhile (·.1 ≠ x.1)
      exported := some x
      behind := (v.before.dropWhile (·.1 ≠ x.1)).tail ++ v.behind }
  | none =>
    { before := v.before.filter fun x => text = [] ∨ x.1 ≠ text
      exported := none
      behind := v.behind.filter fun x => text = [] ∨ x.1 ≠ text }

def View.set (v : View α) (name value : List α) : View α :=
  if name ∈ v.before.map Prod.fst then { v with before := setFirst name value v.before }
  else if v.exported.map Prod.fst = some name then { v with exported := some (name, value) }
  else { v with behind := setFirst name value v.behind }

def View.act (v : View α) : Change α → View α
  | .put text => v.put sep text
  | .set name value => v.set name value

/-- What was exported last, as later writes have left it. -/
def exportedBy (x : Option (Setting α)) : List (Change α) → Option (Setting α)
  | [] => x
  | .put text :: cs => exportedBy (parse sep text) cs
  | .set name value :: cs =>
    exportedBy (x.map fun x => if x.1 = name then (name, value) else x) cs

/-- The change is to this variable. -/
def Touches (name : List α) : Change α → Prop
  | .put text => (parse sep text).elim text Prod.fst = name
  | .set name' _ => name' = name

variable {sep} {name text : List α} {x : Setting α} {xs ys : List (Setting α)}

theorem parse_append {h : List α} (hh : sep ∉ h) (t : List α) :
    parse sep (h ++ sep :: t) = some (h, t) := by
  have hne : ∀ b ∈ h, decide (b ≠ sep) = true := by
    intro b hb
    rw [decide_eq_true_eq]
    rintro rfl
    exact hh hb
  rw [parse, if_pos (by simp), List.takeWhile_append_of_pos hne, List.dropWhile_append_of_pos hne]
  simp

/-- A text is the setting of one name, or of none. -/
theorem parse_cases (sep : α) (text : List α) :
    sep ∉ text ∧ parse sep text = none ∨
      ∃ h t, sep ∉ h ∧ text = h ++ sep :: t ∧ parse sep text = some (h, t) := by
  by_cases hin : sep ∈ text
  · obtain ⟨h, t, rfl, hh⟩ := List.eq_append_cons_of_mem hin
    exact .inr ⟨h, t, hh, rfl, parse_append hh t⟩
  · exact .inl ⟨hin, by rw [parse, if_neg hin]⟩

theorem parse_name (h : parse sep text = some x) : text.takeWhile (· ≠ sep) = x.1 ∧ sep ∉ x.1 := by
  rcases parse_cases sep text with ⟨-, hnone⟩ | ⟨u, t, hu, -, hsome⟩
  · rw [hnone] at h
    cases h
  · rw [hsome] at h
    cases h
    rw [parse] at hsome
    split at hsome
    · cases hsome
      exact ⟨rfl, hu⟩
    · cases hsome

theorem lookup_cons (x : Setting α) (xs : List (Setting α)) (name : List α) :
    (x :: xs).lookup name = if x.1 = name then some x.2 else xs.lookup name := by
  obtain ⟨k, v⟩ := x
  by_cases hk : name = k
  · subst hk
    simp
  · have hne : (name == k) = false := beq_false_of_ne hk
    simp [List.lookup_cons, hne, Ne.symm hk]

@[simp] theorem lookup_single (x : Setting α) (name : List α) :
    [x].lookup name = if x.1 = name then some x.2 else none := lookup_cons x [] name

/-- A name without a separator is compared with the name of the setting. -/
theorem valueOf_eq (hname : sep ∉ name) (text : List α) :
    valueOf sep name text = (parse sep text).toList.lookup name := by
  rcases parse_cases sep text with ⟨hin, hnone⟩ | ⟨h, t, hh, rfl, hsome⟩
  · have hpre : ¬ name ++ [sep] <+: text := by
      intro hp
      exact hin (hp.subset (by simp))
    rw [hnone, valueOf, if_neg (by rwa [List.isPrefixOf_iff_prefix])]
    rfl
  · rw [hsome, valueOf, Option.toList_some, lookup_single]
    by_cases hx : h = name
    · subst hx
      have hpre : h ++ [sep] <+: h ++ sep :: t := ⟨t, by simp⟩
      rw [if_pos (List.isPrefixOf_iff_prefix.mpr hpre), if_pos rfl]
      simp
    · have hpre : ¬ name ++ [sep] <+: h ++ sep :: t := by
        rintro ⟨u, hu⟩
        rw [List.append_assoc, List.singleton_append] at hu
        have hcut := parse_append hname u
        rw [hu, parse_append hh t] at hcut
        cases hcut
        exact hx rfl
      rw [if_neg (by rwa [List.isPrefixOf_iff_prefix]), if_neg hx]

theorem isSome_valueOf_iff (hname : sep ∉ name) (text : List α) :
    (valueOf sep name text).isSome ↔ ∃ x, parse sep text = some x ∧ x.1 = name := by
  rw [valueOf_eq hname]
  cases parse sep text with
  | none => simp
  | some x => by_cases hx : x.1 = name <;> simp [hx]

theorem names_ne (hname : sep ∉ name) (h : ¬ (valueOf sep name text).isSome) :
    ∀ z ∈ (parse sep text).toList, z.1 ≠ name := by
  intro z hz he
  rw [Option.mem_toList] at hz
  exact h ((isSome_valueOf_iff hname text).mpr ⟨z, hz, he⟩)

/-- The settings of the pointers that are not the buffer's. -/
def owned (sep : α) : List (Slot α) → List (Setting α)
  | [] => []
  | .own text _ :: slots => (parse sep text).toList ++ owned sep slots
  | .buffer :: slots => owned sep slots

@[simp] theorem owned_own (text : List α) (size : Nat) (slots : List (Slot α)) :
    owned sep (.own text size :: slots) = (parse sep text).toList ++ owned sep slots := rfl

@[simp] theorem owned_buffer (slots : List (Slot α)) :
    owned sep (.buffer :: slots) = owned sep slots := rfl

/-- The buffer counts where its first pointer stands. -/
def viewOf (sep : α) (x : Option (Setting α)) : List (Slot α) → View α
  | [] => ⟨[], none, []⟩
  | .own text _ :: slots =>
    let v := viewOf sep x slots
    { v with before := (parse sep text).toList ++ v.before }
  | .buffer :: slots => ⟨[], x, owned sep slots⟩

def Env.view (sep : α) (e : Env α) : View α := viewOf sep (parse sep e.buffer) e.slots

theorem rest_viewOf (sep : α) (x : Option (Setting α)) (slots : List (Slot α)) :
    (viewOf sep x slots).rest = owned sep slots := by
  induction slots with
  | nil => rfl
  | cons s slots ih =>
    cases s with
    | own text size =>
      rw [owned_own, ← ih]
      simp [viewOf, View.rest]
    | buffer => rfl

/-- Behind the first pointer to the buffer the others do not count. -/
theorem lookup_behind (e : Env α) (hname : sep ∉ name) (slots : List (Slot α)) :
    ((valueOf sep name e.buffer).or
        (slots.findSome? fun s => valueOf sep name (e.text s))) =
      (valueOf sep name e.buffer).or ((owned sep slots).lookup name) := by
  induction slots with
  | nil => rfl
  | cons s slots ih =>
    cases hv : valueOf sep name e.buffer with
    | some v => simp
    | none =>
      rw [hv, Option.none_or, Option.none_or] at ih
      cases s with
      | own text size =>
        rw [List.findSome?_cons, owned_own, List.lookup_append, ← valueOf_eq hname, ← ih]
        simp only [Env.text, Option.none_or]
        cases valueOf sep name text <;> rfl
      | buffer =>
        rw [List.findSome?_cons, owned_buffer, ← ih]
        simp only [Env.text, hv]

theorem lookup_viewOf (e : Env α) (hname : sep ∉ name) (slots : List (Slot α)) :
    (slots.findSome? fun s => valueOf sep name (e.text s)) =
      (viewOf sep (parse sep e.buffer) slots).get name := by
  induction slots with
  | nil => rfl
  | cons s slots ih =>
    cases s with
    | own text size =>
      rw [List.findSome?_cons, ih]
      simp only [viewOf, View.get, List.append_assoc, List.lookup_append, Env.text]
      rw [← valueOf_eq hname]
      cases valueOf sep name text <;> simp
    | buffer =>
      have hrest := lookup_behind e hname slots
      rw [List.findSome?_cons]
      simp only [viewOf, View.get, List.nil_append, List.lookup_append, Env.text]
      rw [← valueOf_eq hname, ← hrest]
      cases valueOf sep name e.buffer <;> rfl

/-- What `getenv` finds through the pointers. -/
theorem getenv_view (e : Env α) (hne : name ≠ []) (hname : sep ∉ name) :
    e.getenv sep name = (e.view sep).get name := by
  rw [Env.getenv, if_neg hne, lookup_viewOf e hname, Env.view]

theorem viewOf_place (e : Env α) (hx : parse sep e.buffer = some x) (slots : List (Slot α)) :
    viewOf sep (some x) (place (fun s => (valueOf sep x.1 (e.text s)).isSome) slots) =
      { before := (viewOf sep y slots).before.takeWhile (·.1 ≠ x.1)
        exported := some x
        behind := ((viewOf sep y slots).before.dropWhile (·.1 ≠ x.1)).tail ++
          (viewOf sep y slots).behind } := by
  have hname : sep ∉ x.1 := (parse_name hx).2
  induction slots with
  | nil => rfl
  | cons s slots ih =>
    cases s with
    | buffer =>
      have hmatch : (valueOf sep x.1 (e.text .buffer)).isSome :=
        (isSome_valueOf_iff hname _).mpr ⟨x, hx, rfl⟩
      simp only [place, hmatch]
      simp [viewOf]
    | own text size =>
      have hrest := rest_viewOf sep y slots
      by_cases hmatch : (valueOf sep x.1 text).isSome
      · obtain ⟨z, hz, hzx⟩ := (isSome_valueOf_iff hname text).mp hmatch
        simp only [place, Env.text, hmatch, if_true]
        simp [viewOf, hz, hzx, ← hrest, View.rest]
      · have hother : ∀ z ∈ (parse sep text).toList, decide (z.1 ≠ x.1) = true := by
          intro z hz
          simpa using names_ne hname hmatch z hz
        have hskip : ∀ test : Slot α → Bool, ¬ test (.own text size) →
            place test (.own text size :: slots) = .own text size :: place test slots :=
          fun test htest => if_neg htest
        rw [hskip _ hmatch]
        simp only [viewOf, ih, List.takeWhile_append_of_pos hother,
          List.dropWhile_append_of_pos hother]

theorem owned_filter (e : Env α) (hname : sep ∉ name) (slots : List (Slot α)) :
    owned sep (slots.filter fun s => (valueOf sep name (e.text s)).isNone) =
      (owned sep slots).filter (·.1 ≠ name) := by
  induction slots with
  | nil => rfl
  | cons s slots ih =>
    cases s with
    | buffer =>
      rw [List.filter_cons, owned_buffer, ← ih]
      split <;> rfl
    | own text size =>
      rw [List.filter_cons, owned_own, List.filter_append, ← ih, Env.text, valueOf_eq hname]
      cases hp : parse sep text with
      | none => simp [hp]
      | some x => by_cases hx : x.1 = name <;> simp [hp, hx]

theorem viewOf_filter (e : Env α) (hname : sep ∉ name) (hbuf : parse sep e.buffer = none)
    (slots : List (Slot α)) :
    viewOf sep none (slots.filter fun s => (valueOf sep name (e.text s)).isNone) =
      { before := (viewOf sep y slots).before.filter (·.1 ≠ name)
        exported := none
        behind := (viewOf sep y slots).behind.filter (·.1 ≠ name) } := by
  induction slots with
  | nil => rfl
  | cons s slots ih =>
    cases s with
    | buffer =>
      have hkeep : (valueOf sep name (e.text .buffer)).isNone := by
        rw [Env.text, valueOf_eq hname, hbuf]
        rfl
      rw [List.filter_cons, if_pos hkeep]
      simp only [viewOf, owned_filter e hname]
      rfl
    | own text size =>
      rw [List.filter_cons, Env.text, valueOf_eq hname]
      cases hp : parse sep text with
      | none => simp [viewOf, hp, ih]
      | some x => by_cases hx : x.1 = name <;> simp [viewOf, hp, hx, ih]

theorem viewOf_none (slots : List (Slot α)) :
    viewOf sep none slots = { viewOf sep y slots with exported := none } := by
  induction slots with
  | nil => rfl
  | cons s slots ih =>
    cases s with
    | own text size => simp only [viewOf, ih]
    | buffer => rfl

theorem view_putenv {e e' : Env α} (h : e.putenv sep text = some e') :
    e'.view sep = (e.view sep).put sep text := by
  rw [Env.putenv] at h
  split at h
  · cases h
  · rcases parse_cases sep text with ⟨hin, hnone⟩ | ⟨u, t, hu, rfl, hsome⟩
    · rw [if_neg hin, Option.some.injEq] at h
      subst h
      by_cases hempty : text = []
      · subst hempty
        rw [View.put, hnone, Env.unsetenv, if_pos rfl, Env.view, hnone,
          viewOf_none (y := parse sep e.buffer)]
        simp [Env.view]
      · rw [View.put, hnone, Env.unsetenv, if_neg hempty, Env.view]
        dsimp only
        rw [hnone, viewOf_filter (y := parse sep e.buffer) _ hin hnone]
        simp [Env.view, hempty]
    · rw [if_pos (by simp), Option.some.injEq] at h
      subst h
      rw [View.put, hsome, (parse_name hsome).1, Env.view]
      dsimp only
      rw [hsome]
      exact viewOf_place { e with buffer := u ++ sep :: t } hsome e.slots

theorem setFirst_append {value : List α} (h : ∀ z ∈ xs, z.1 ≠ name) :
    setFirst name value (xs ++ ys) = xs ++ setFirst name value ys := by
  induction xs with
  | nil => rfl
  | cons z xs ih =>
    rw [List.forall_mem_cons] at h
    rw [List.cons_append, setFirst, if_neg h.1, ih h.2]
    rfl

@[simp] theorem map_fst_setFirst (name value : List α) (xs : List (Setting α)) :
    (setFirst name value xs).map Prod.fst = xs.map Prod.fst := by
  induction xs with
  | nil => rfl
  | cons z xs ih =>
    rw [setFirst]
    split
    · rename_i hz
      simp [hz]
    · simp [ih]

/-- Settings of other names in front do not matter. -/
theorem set_append {v : View α} {value : List α} (h : ∀ z ∈ xs, z.1 ≠ name) :
    ({ v with before := xs ++ v.before } : View α).set name value =
      { v.set name value with before := xs ++ (v.set name value).before } := by
  have hmem : name ∈ (xs ++ v.before).map Prod.fst ↔ name ∈ v.before.map Prod.fst := by
    rw [List.map_append, List.mem_append, or_iff_right]
    rintro hin
    obtain ⟨z, hz, rfl⟩ := List.mem_map.mp hin
    exact h z hz rfl
  simp only [View.set, hmem, setFirst_append h]
  split_ifs <;> rfl

section Write

variable {value buffer buffer' : List α} {room : Nat} {slots slots' : List (Slot α)}

/-- At a string of its own, a write changes it or goes on behind it. -/
theorem write_own_cases (hname : sep ∉ name) {size : Nat}
    (h : write sep name value room buffer (.own text size :: slots) = some (slots', buffer')) :
    (∃ z, parse sep text = some z ∧ z.1 = name ∧ buffer' = buffer ∧
        slots' = .own (name ++ sep :: value) size :: slots) ∨
      (∀ z ∈ (parse sep text).toList, z.1 ≠ name) ∧
        ∃ t, write sep name value room buffer slots = some (t, buffer') ∧
          slots' = .own text size :: t := by
  rw [write] at h
  split at h
  · rename_i hmatch
    obtain ⟨z, hz, hzx⟩ := (isSome_valueOf_iff hname text).mp hmatch
    split at h
    · cases h
    · cases h
      exact .inl ⟨z, hz, hzx, rfl, rfl⟩
  · rename_i hmatch
    obtain ⟨⟨t, b⟩, hw, he⟩ := Option.map_eq_some_iff.mp h
    cases he
    exact .inr ⟨names_ne hname hmatch, t, hw, rfl⟩

/-- Where the buffer has another name, a write goes past it. -/
theorem write_buffer (hbuf : ¬ (valueOf sep name buffer).isSome)
    (h : write sep name value room buffer (.buffer :: slots) = some (slots', buffer')) :
    ∃ t, write sep name value room buffer slots = some (t, buffer') ∧ slots' = .buffer :: t := by
  rw [write, if_neg hbuf] at h
  obtain ⟨⟨t, b⟩, hw, he⟩ := Option.map_eq_some_iff.mp h
  cases he
  exact ⟨t, hw, rfl⟩

theorem write_owned (hname : sep ∉ name) (hbuf : ¬ (valueOf sep name buffer).isSome)
    (h : write sep name value room buffer slots = some (slots', buffer')) :
    buffer' = buffer ∧ owned sep slots' = setFirst name value (owned sep slots) := by
  induction slots generalizing slots' with
  | nil => cases h
  | cons s slots ih =>
    cases s with
    | buffer =>
      obtain ⟨t, hw, rfl⟩ := write_buffer hbuf h
      rw [owned_buffer, owned_buffer]
      exact ih hw
    | own text size =>
      rcases write_own_cases hname h with ⟨z, hz, hzx, hb, rfl⟩ | ⟨hother, t, hw, rfl⟩
      · exact ⟨hb, by simp [parse_append hname, hz, hzx, setFirst]⟩
      · obtain ⟨hb, howned⟩ := ih hw
        refine ⟨hb, ?_⟩
        rw [owned_own, owned_own, howned, setFirst_append hother]

/-- A write behind the pointer that `getenv` returns changes the first setting of that name. -/
theorem viewOf_write (hname : sep ∉ name)
    (h : write sep name value room buffer slots = some (slots', buffer')) :
    viewOf sep (parse sep buffer') slots' =
      (viewOf sep (parse sep buffer) slots).set name value := by
  induction slots generalizing slots' with
  | nil => cases h
  | cons s slots ih =>
    cases s with
    | buffer =>
      by_cases hbuf : (valueOf sep name buffer).isSome
      · obtain ⟨z, hz, hzx⟩ := (isSome_valueOf_iff hname buffer).mp hbuf
        rw [write, if_pos hbuf] at h
        split at h
        · cases h
        · cases h
          simp [viewOf, View.set, parse_append hname, hz, hzx]
      · have hother : ¬ (parse sep buffer).map Prod.fst = some name := by
          intro he
          obtain ⟨z, hz, hzx⟩ := Option.map_eq_some_iff.mp he
          exact names_ne hname hbuf z (Option.mem_toList.mpr hz) hzx
        obtain ⟨t, hw, rfl⟩ := write_buffer hbuf h
        obtain ⟨rfl, howned⟩ := write_owned hname hbuf hw
        simp [viewOf, View.set, howned, hother]
    | own text size =>
      rcases write_own_cases hname h with ⟨z, hz, hzx, rfl, rfl⟩ | ⟨hother, t, hw, rfl⟩
      · simp [viewOf, View.set, parse_append hname, hz, hzx, setFirst]
      · simp only [viewOf, ih hw]
        rw [set_append hother]

end Write

/-- A name to write to is one that `getenv` can find. -/
def Change.Proper (sep : α) : Change α → Prop
  | .put _ => True
  | .set name _ => sep ∉ name

/-- Through the pointers a change does what it does to the settings. -/
theorem view_act {e e' : Env α} {c : Change α} (hc : c.Proper sep) (h : e.act sep c = some e') :
    e'.view sep = (e.view sep).act sep c := by
  cases c with
  | put text => exact view_putenv h
  | set name value =>
    obtain ⟨⟨slots, buffer⟩, hw, rfl⟩ := Option.map_eq_some_iff.mp h
    exact viewOf_write hc hw

def View.acts (sep : α) (v : View α) (cs : List (Change α)) : View α := cs.foldl (View.act sep) v

theorem View.acts_append (v : View α) (cs cs' : List (Change α)) :
    v.acts sep (cs ++ cs') = (v.acts sep cs).acts sep cs' := List.foldl_append

theorem view_acts {e e' : Env α} {cs : List (Change α)} (hcs : ∀ c ∈ cs, c.Proper sep)
    (h : e.acts sep cs = some e') : e'.view sep = (e.view sep).acts sep cs := by
  induction cs generalizing e with
  | nil =>
    cases h
    rfl
  | cons c cs ih =>
    obtain ⟨u, hu, hrest⟩ := Option.bind_eq_some_iff.mp h
    rw [List.forall_mem_cons] at hcs
    rw [ih hcs.2 hrest, view_act hcs.1 hu]
    rfl

theorem room_act {e e' : Env α} {c : Change α} (h : e.act sep c = some e') : e'.room = e.room := by
  cases c with
  | put text =>
    rw [Env.act, Env.putenv] at h
    split_ifs at h <;> cases h
    · rfl
    · rw [Env.unsetenv]
      split_ifs <;> rfl
  | set name value =>
    obtain ⟨p, -, rfl⟩ := Option.map_eq_some_iff.mp h
    rfl

theorem room_acts {e e' : Env α} {cs : List (Change α)} (h : e.acts sep cs = some e') :
    e'.room = e.room := by
  induction cs generalizing e with
  | nil =>
    cases h
    rfl
  | cons c cs ih =>
    obtain ⟨u, hu, hrest⟩ := Option.bind_eq_some_iff.mp h
    rw [ih hrest, room_act hu]

/-- What fits into the buffer can be exported. -/
theorem isSome_acts (sep : α) {e : Env α} {cs : List (Change α)}
    (h : ∀ c ∈ cs, ∃ text, c = .put text ∧ text.length ≤ e.room) : (e.acts sep cs).isSome := by
  induction cs generalizing e with
  | nil => rfl
  | cons c cs ih =>
    rw [List.forall_mem_cons] at h
    obtain ⟨⟨text, rfl, hroom⟩, hrest⟩ := h
    have hput : (e.act sep (.put text)).isSome := by
      rw [Env.act, Env.putenv, if_neg (Nat.not_lt.mpr hroom)]
      dsimp only
      split <;> rfl
    obtain ⟨u, hu⟩ := Option.isSome_iff_exists.mp hput
    rw [Env.acts, hu, Option.bind_some]
    apply ih
    rwa [room_act hu]

theorem exportedBy_append (y : Option (Setting α)) (cs cs' : List (Change α)) :
    exportedBy sep y (cs ++ cs') = exportedBy sep (exportedBy sep y cs) cs' := by
  induction cs generalizing y with
  | nil => rfl
  | cons c cs ih =>
    cases c with
    | put text => exact ih _
    | set name value => exact ih _

/-- In front of the exported setting its name does not occur. -/
def View.Apart (v : View α) : Prop := ∀ x ∈ v.exported, x.1 ∉ v.before.map Prod.fst

theorem View.Apart.act {v : View α} (h : v.Apart) (c : Change α) : (v.act sep c).Apart := by
  intro x hx
  cases c with
  | put text =>
    simp only [View.act, View.put] at hx ⊢
    cases hp : parse sep text with
    | none =>
      rw [hp] at hx
      cases hx
    | some z =>
      rw [hp] at hx
      cases hx
      rintro hin
      obtain ⟨w, hw, he⟩ := List.mem_map.mp hin
      simpa [he] using List.mem_takeWhile_imp hw
  | set name value =>
    simp only [View.act, View.set] at hx ⊢
    split_ifs at hx ⊢ with hb he
    · simpa using h x hx
    · cases hx
      exact hb
    · exact h x hx

theorem exported_act {v : View α} (h : v.Apart) (c : Change α) :
    (v.act sep c).exported = exportedBy sep v.exported [c] := by
  cases c with
  | put text =>
    simp only [View.act, View.put, exportedBy]
    cases parse sep text <;> rfl
  | set name value =>
    simp only [View.act, View.set, exportedBy]
    cases hx : v.exported with
    | none => split_ifs <;> simp_all
    | some x =>
      have hout : x.1 ∉ v.before.map Prod.fst := h x hx
      by_cases he : x.1 = name
      · subst he
        rw [if_neg hout]
        simp
      · split_ifs <;> simp_all

theorem exported_acts {v : View α} (h : v.Apart) (cs : List (Change α)) :
    (v.acts sep cs).Apart ∧ (v.acts sep cs).exported = exportedBy sep v.exported cs := by
  induction cs generalizing v with
  | nil => exact ⟨h, rfl⟩
  | cons c cs ih =>
    obtain ⟨hapart, hexp⟩ := ih (h.act c)
    refine ⟨hapart, hexp.trans ?_⟩
    rw [exported_act h, ← exportedBy_append]
    rfl

theorem get_exported {v : View α} (h : v.Apart) {value : List α}
    (he : v.exported = some (name, value)) : v.get name = some value := by
  have hbefore : v.before.lookup name = none := by
    rw [List.lookup_eq_none_iff]
    intro x hx
    have hne : name ≠ x.1 := by
      rintro rfl
      exact h _ he (List.mem_map.mpr ⟨x, hx, rfl⟩)
    simpa using hne
  rw [View.get, he, List.lookup_append, List.lookup_append, hbefore]
  simp

theorem get_rest {v : View α} (he : ∀ value, v.exported ≠ some (name, value)) :
    v.get name = v.rest.lookup name := by
  have hnone : v.exported.toList.lookup name = none := by
    cases hx : v.exported with
    | none => rfl
    | some x =>
      rw [Option.toList_some, lookup_single, if_neg]
      rintro rfl
      exact he x.2 hx
  rw [View.get, View.rest, List.lookup_append, List.lookup_append, hnone, Option.or_none,
    List.lookup_append]

theorem lookup_without {n : List α} (h : n ≠ name) (xs ys : List (Setting α)) :
    (xs.takeWhile (·.1 ≠ n) ++ ((xs.dropWhile (·.1 ≠ n)).tail ++ ys)).lookup name =
      (xs ++ ys).lookup name := by
  induction xs with
  | nil => rfl
  | cons x xs ih =>
    by_cases hx : x.1 = n
    · have hname : ¬ x.1 = name := hx ▸ h
      simp [hx, lookup_cons, h]
    · simp only [hx, List.takeWhile_cons, List.dropWhile_cons, ne_eq, not_false_eq_true,
        decide_true, if_true, List.cons_append, lookup_cons, ih]

theorem lookup_filter {text : List α} (h : text ≠ name) (xs : List (Setting α)) :
    (xs.filter fun x => text = [] ∨ x.1 ≠ text).lookup name = xs.lookup name := by
  induction xs with
  | nil => rfl
  | cons x xs ih =>
    rw [List.filter_cons, lookup_cons]
    split
    · rw [lookup_cons, ih]
    · rename_i hout
      have hx : x.1 = text := by simp_all
      rw [if_neg (hx ▸ h), ih]

theorem lookup_setFirst {n value : List α} (h : n ≠ name) (xs : List (Setting α)) :
    (setFirst n value xs).lookup name = xs.lookup name := by
  induction xs with
  | nil => rfl
  | cons x xs ih =>
    rw [setFirst]
    split
    · rename_i hx
      rw [lookup_cons, lookup_cons, if_neg h, if_neg (hx ▸ h)]
    · rw [lookup_cons, lookup_cons, ih]

/-- A change to another variable. -/
theorem lookup_act {v : View α} {c : Change α} (h : ¬ Touches sep name c) :
    (v.act sep c).rest.lookup name = v.rest.lookup name := by
  cases c with
  | put text =>
    rw [Touches] at h
    simp only [View.act, View.put, View.rest]
    cases hp : parse sep text with
    | none =>
      rw [hp] at h
      have hne : text ≠ name := h
      simp only [List.lookup_append, lookup_filter hne]
    | some x =>
      rw [hp] at h
      exact lookup_without h v.before v.behind
  | set n value =>
    simp only [View.act, View.set, View.rest]
    split_ifs <;> simp only [List.lookup_append, lookup_setFirst h]

theorem mem_setFirst {value : List α} (h : x ∈ setFirst name value xs) :
    x ∈ xs ∨ x = (name, value) := by
  induction xs with
  | nil => cases h
  | cons z xs ih =>
    rw [setFirst] at h
    split at h
    · rcases List.mem_cons.mp h with rfl | h
      · exact .inr rfl
      · exact .inl (List.mem_cons_of_mem _ h)
    · rcases List.mem_cons.mp h with rfl | h
      · exact .inl List.mem_cons_self
      · exact (ih h).imp_left (List.mem_cons_of_mem _)

/-- What is not exported was there, or has been written over. -/
theorem mem_act {v : View α} {c : Change α} (h : x ∈ (v.act sep c).rest) :
    x ∈ v.rest ∨ c = .set x.1 x.2 ∧ x.1 ∈ v.rest.map Prod.fst := by
  cases c with
  | put text =>
    left
    simp only [View.act, View.put, View.rest] at h ⊢
    cases hp : parse sep text with
    | none =>
      rw [hp] at h
      simp only [List.mem_append, List.mem_filter] at h ⊢
      tauto
    | some z =>
      rw [hp] at h
      simp only [List.mem_append] at h ⊢
      rcases h with h | h | h
      · exact .inl ((List.takeWhile_prefix _).subset h)
      · exact .inl ((List.dropWhile_suffix _).subset (List.mem_of_mem_tail h))
      · exact .inr h
  | set n value =>
    have hkeep : (v.set n value).rest.map Prod.fst = v.rest.map Prod.fst := by
      simp only [View.set, View.rest]
      split_ifs <;> simp
    have hname : x.1 ∈ v.rest.map Prod.fst := hkeep ▸ List.mem_map_of_mem h
    simp only [View.act, View.set, View.rest] at h
    have hcases : x ∈ v.rest ∨ x = (n, value) := by
      rw [View.rest, List.mem_append]
      split_ifs at h <;> rcases List.mem_append.mp h with h | h
      · exact (mem_setFirst h).imp_left .inl
      · exact .inl (.inr h)
      · exact .inl (.inl h)
      · exact .inl (.inr h)
      · exact .inl (.inl h)
      · exact (mem_setFirst h).imp_left .inr
    rcases hcases with h | rfl
    · exact .inl h
    · exact .inr ⟨rfl, hname⟩

theorem lookup_acts {v : View α} {cs : List (Change α)} (h : ∀ c ∈ cs, ¬ Touches sep name c) :
    (v.acts sep cs).rest.lookup name = v.rest.lookup name := by
  induction cs generalizing v with
  | nil => rfl
  | cons c cs ih =>
    rw [List.forall_mem_cons] at h
    exact (ih h.2).trans (lookup_act h.1)

theorem mem_acts {v : View α} {cs : List (Change α)} (h : x ∈ (v.acts sep cs).rest) :
    x.1 ∈ v.rest.map Prod.fst ∧ (x ∈ v.rest ∨ .set x.1 x.2 ∈ cs) := by
  induction cs generalizing v with
  | nil => exact ⟨List.mem_map_of_mem h, .inl h⟩
  | cons c cs ih =>
    obtain ⟨hname, hfrom⟩ := ih h
    have hback : ∀ y ∈ (v.act sep c).rest, y.1 ∈ v.rest.map Prod.fst := by
      intro y hy
      rcases mem_act hy with hy | ⟨-, hy⟩
      · exact List.mem_map_of_mem hy
      · exact hy
    obtain ⟨y, hy, he⟩ := List.mem_map.mp hname
    refine ⟨he ▸ hback y hy, ?_⟩
    rcases hfrom with hx | hx
    · rcases mem_act hx with hx | ⟨rfl, -⟩
      · exact .inl hx
      · exact .inr List.mem_cons_self
    · exact .inr (List.mem_cons_of_mem _ hx)

end Meaning

end Environ
