import Mathlib.Data.List.Infix
import Mathlib.Data.List.TakeDrop

/-!
# Paths with `.` and `..`

A path is resolved component by component from the directory it starts in, a
list of names. Read from the right it is so many steps up and the names it keeps.
-/
namespace Paths

inductive Component (α : Type) where
  | here : Component α
  | up : Component α
  | name : α → Component α
  deriving DecidableEq, Repr

namespace Component

variable {α : Type}

def isUp : Component α → Bool
  | .up => true
  | _ => false

def isName : Component α → Bool
  | .name _ => true
  | _ => false

end Component

variable {α : Type}

open Component

/-- The parent of the top directory is the top directory. -/
def resolve : List α → List (Component α) → List α
  | dir, [] => dir
  | dir, .here :: cs => resolve dir cs
  | dir, .up :: cs => resolve dir.dropLast cs
  | dir, .name a :: cs => resolve (dir ++ [a]) cs

/-- The steps up that no name before them takes back, and the names left after them. -/
def norm : List (Component α) → Nat × List α
  | [] => (0, [])
  | .here :: cs => norm cs
  | .up :: cs => ((norm cs).1 + 1, (norm cs).2)
  | .name a :: cs =>
    match norm cs with
    | (0, names) => (0, a :: names)
    | (k + 1, names) => (k, names)

def climbs (cs : List (Component α)) : Nat := (norm cs).1

def kept (cs : List (Component α)) : List α := (norm cs).2

@[simp] theorem climbs_nil : climbs ([] : List (Component α)) = 0 := rfl

@[simp] theorem climbs_here (cs : List (Component α)) : climbs (.here :: cs) = climbs cs := rfl

@[simp] theorem climbs_up (cs : List (Component α)) : climbs (.up :: cs) = climbs cs + 1 := rfl

@[simp] theorem climbs_name (a : α) (cs : List (Component α)) :
    climbs (.name a :: cs) = climbs cs - 1 := by
  simp only [climbs, norm]
  split
  · rename_i names h
    simp [h]
  · rename_i k names h
    simp [h]

@[simp] theorem kept_nil : kept ([] : List (Component α)) = [] := rfl

@[simp] theorem kept_here (cs : List (Component α)) : kept (.here :: cs) = kept cs := rfl

@[simp] theorem kept_up (cs : List (Component α)) : kept (.up :: cs) = kept cs := rfl

theorem kept_name (a : α) (cs : List (Component α)) :
    kept (.name a :: cs) = if climbs cs = 0 then a :: kept cs else kept cs := by
  simp only [kept, climbs, norm]
  split
  · rename_i names h
    simp [h]
  · rename_i k names h
    simp [h]

/-- Resolving leaves the names of the directory that no step up removes. -/
theorem resolve_eq (dir : List α) (cs : List (Component α)) :
    resolve dir cs = dir.take (dir.length - climbs cs) ++ kept cs := by
  induction cs generalizing dir with
  | nil => simp [resolve]
  | cons c cs ih =>
    cases c with
    | here => simpa [resolve] using ih dir
    | up =>
      rw [resolve, ih, climbs_up, kept_up, List.dropLast_eq_take, List.take_take, List.length_take]
      congr 2
      omega
    | name a =>
      rw [resolve, ih, climbs_name, kept_name]
      split
      · rename_i hnone
        rw [hnone, Nat.zero_sub, Nat.sub_zero, Nat.sub_zero, List.take_length, List.take_length]
        simp
      · rename_i hsome
        rw [List.take_append_of_le_length (by simp; omega)]
        congr 2
        simp
        omega

theorem forall_prefix_cons {c : α} {cs : List α} {P : List α → Prop} :
    (∀ front, front <+: c :: cs → P front) ↔ P [] ∧ ∀ front, front <+: cs → P (c :: front) := by
  constructor
  · intro h
    exact ⟨h [] List.nil_prefix, fun front hf => h _ (List.cons_prefix_cons.mpr ⟨rfl, hf⟩)⟩
  · rintro ⟨hnil, hcons⟩ front hf
    rcases List.prefix_cons_iff.mp hf with rfl | ⟨rest, rfl, hr⟩
    · exact hnil
    · exact hcons rest hr

/-- Every front of the path has as many names as steps up, but for `k`. -/
theorem climbs_le_iff {cs : List (Component α)} {k : Nat} :
    climbs cs ≤ k ↔ ∀ front, front <+: cs → front.countP isUp ≤ front.countP isName + k := by
  induction cs generalizing k with
  | nil => simp
  | cons c cs ih =>
    rw [forall_prefix_cons]
    cases c with
    | here => simpa [isUp, isName] using ih
    | up =>
      cases k with
      | zero =>
        simp only [climbs_up, Nat.le_zero_eq, Nat.succ_ne_zero, false_iff, not_and, not_forall]
        intro _
        exact ⟨[], List.nil_prefix, by simp [isUp, isName]⟩
      | succ k => simpa [List.countP_cons, isUp, isName, ← Nat.add_assoc] using ih
    | name a =>
      have hle : climbs cs - 1 ≤ k ↔ climbs cs ≤ k + 1 := by omega
      simpa [List.countP_cons, isUp, isName, hle, Nat.add_right_comm _ 1 k, ← Nat.add_assoc]
        using ih (k := k + 1)

/-- A path that goes up `k` times stays below the directory if it names the `k` directories it
left again. -/
theorem prefix_resolve_iff {dir : List α} {cs : List (Component α)} :
    dir <+: resolve dir cs ↔ dir.drop (dir.length - climbs cs) <+: kept cs := by
  rw [resolve_eq]
  nth_rewrite 1 [← List.take_append_drop (dir.length - climbs cs) dir]
  exact List.prefix_append_right_inj _

/-- From the directory next to it, a path has to go up to come below `parent ++ [a]`. -/
theorem prefix_resolve_sibling_iff {parent : List α} {a b : α} {cs : List (Component α)}
    (h : a ≠ b) : parent ++ [a] <+: resolve (parent ++ [b]) cs ↔
      0 < climbs cs ∧ (parent ++ [a]).drop (parent.length + 1 - climbs cs) <+: kept cs := by
  rw [resolve_eq, List.length_append, List.length_singleton]
  by_cases hpos : 0 < climbs cs
  · have hle : parent.length + 1 - climbs cs ≤ parent.length := by omega
    rw [List.take_append_of_le_length hle]
    nth_rewrite 1 [← List.take_append_drop (parent.length + 1 - climbs cs) (parent ++ [a])]
    rw [List.take_append_of_le_length hle, List.prefix_append_right_inj]
    simp [hpos]
  · have hnone : climbs cs = 0 := by omega
    have htake : (parent ++ [b]).take (parent.length + 1) = parent ++ [b] :=
      List.take_of_length_le (by simp)
    simp only [hnone, Nat.sub_zero, htake, List.append_assoc, List.prefix_append_right_inj]
    simp [h]

section Text

variable {β : Type} [DecidableEq β]

/-- Two slashes in a row have an empty component between them, which leads nowhere. -/
def Component.ofText (dot : β) (s : List β) : Component (List β) :=
  if s = [] ∨ s = [dot] then .here else if s = [dot, dot] then .up else .name s

def components (slash dot : β) (path : List β) : List (Component (List β)) :=
  (path.splitOn slash).map (ofText dot)

/-- A path with a slash in front starts at the top directory. -/
def resolvePath (slash dot : β) (cwd : List (List β)) (path : List β) : List (List β) :=
  resolve (if path.head? = some slash then [] else cwd) (components slash dot path)

/-- `path` leads to `root` or below. -/
def Inside (slash dot : β) (cwd : List (List β)) (root path : List β) : Prop :=
  resolvePath slash dot cwd root <+: resolvePath slash dot cwd path

variable {slash dot b : β}

theorem ofText_cons (h : b ≠ dot) (s : List β) : ofText dot (b :: s) = .name (b :: s) := by
  simp [ofText, h]

/-- Text in front of a path without a slash in between changes its first component. -/
theorem splitOn_append_left {w : List β} (h : slash ∉ w) (path : List β) :
    (w ++ path).splitOn slash = (path.splitOn slash).modifyHead (w ++ ·) := by
  induction w with
  | nil =>
    obtain ⟨t, ts, hs⟩ := List.exists_cons_of_ne_nil (List.splitOn_ne_nil slash path)
    simp [hs]
  | cons b w ih =>
    simp only [List.mem_cons, not_or] at h
    rw [List.cons_append, List.splitOn_cons_eq_if_modifyHead, ih h.2]
    have hb : (b == slash) = false := by simpa using Ne.symm h.1
    rw [hb, if_neg Bool.false_ne_true, List.modifyHead_modifyHead]
    rfl

end Text

end Paths
