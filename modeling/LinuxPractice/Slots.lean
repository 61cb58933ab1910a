import LinuxPractice.Sockets

/-!
# Connections in the slots of an array

Slot 0 has the listening descriptor, every other slot a connection or -1.
-/
namespace Slots

open Sockets

variable {n : Nat} {listensock sock fd : Int} {i pos : Fin (n + 1)}

/-- The slots and what the descriptors stand for. -/
@[ext] structure Table (n : Nat) where
  slots : Fin (n + 1) → Int
  files : Int → Option File

/-- All slots but the first are the same. -/
def only {E : Type} (first rest : E) : Fin (n + 1) → E := Function.update (fun _ => rest) 0 first

/-- The slot of the listening descriptor. -/
abbrev listening : Fin (n + 1) := 0

@[simp] theorem only_zero {E : Type} (first rest : E) : only (n := n) first rest 0 = first :=
  Function.update_self ..

@[simp] theorem only_of_ne {E : Type} (first rest : E) (hi : i ≠ 0) : only first rest i = rest :=
  Function.update_of_ne hi ..

theorem comp_only {E F : Type} (f : E → F) (first rest : E) :
    (fun i : Fin (n + 1) => f (only first rest i)) = only (f first) (f rest) := by
  funext i
  by_cases hi : i = 0
  · rw [hi, only_zero, only_zero]
  · rw [only_of_ne _ _ hi, only_of_ne _ _ hi]

/-- The first slot from 1 on that has no descriptor. -/
def free (slots : Fin (n + 1) → Int) : Option (Fin (n + 1)) :=
  (List.finRange (n + 1)).find? fun i => i ≠ 0 ∧ slots i = -1

theorem free_eq_some {slots : Fin (n + 1) → Int} (h : free slots = some pos) :
    pos ≠ 0 ∧ slots pos = -1 := by
  have := List.find?_some h
  simpa using this

theorem free_eq_none_iff {slots : Fin (n + 1) → Int} :
    free slots = none ↔ ∀ i, i ≠ 0 → slots i ≠ -1 := by
  simp [free, List.find?_eq_none]

theorem free_eq_some_of {slots : Fin (n + 1) → Int} (hpos : pos ≠ 0) (hfree : slots pos = -1)
    (hbefore : ∀ j, j < pos → j ≠ 0 → slots j ≠ -1) : free slots = some pos := by
  apply (List.find?_ofFn_eq_some_of_injective Function.injective_id).mpr
  constructor
  · simp [hpos, hfree]
  · intro j hj
    simpa using hbefore j hj

def Table.enter (s : Table n) (pos : Fin (n + 1)) (sock : Int) (id : Nat) : Table n where
  slots := Function.update s.slots pos sock
  files := Function.update s.files sock (some (.conn id))

def Table.leave (s : Table n) (pos : Fin (n + 1)) : Table n where
  slots := Function.update s.slots pos (-1)
  files := Function.update s.files (s.slots pos) none

variable {s : Table n}

@[simp] theorem Table.enter_slots {id : Nat} :
    (s.enter pos sock id).slots = Function.update s.slots pos sock := rfl

@[simp] theorem Table.enter_files {id : Nat} :
    (s.enter pos sock id).files = Function.update s.files sock (some (.conn id)) := rfl

@[simp] theorem Table.leave_slots : (s.leave pos).slots = Function.update s.slots pos (-1) := rfl

@[simp] theorem Table.leave_files :
    (s.leave pos).files = Function.update s.files (s.slots pos) none := rfl

/-- The connections in the slots are exactly those that are open. -/
structure Holds (listensock : Int) (s : Table n) : Prop where
  first : s.slots 0 = listensock
  listening : s.files listensock = some .listening
  range : ∀ fd, s.files fd ≠ none → 0 ≤ fd
  distinct : ∀ i j, s.slots i ≠ -1 → s.slots i = s.slots j → i = j
  clients : ∀ fd, (∃ i, i ≠ 0 ∧ s.slots i = fd ∧ fd ≠ -1) ↔ ∃ id, s.files fd = some (.conn id)

theorem holds_boot (b : Boot) (n : Nat) :
    Holds (n := n) b.listensock ⟨only b.listensock (-1), b.files⟩ where
  first := by simp
  listening := b.listening
  range := b.range
  distinct := by
    intro i j hi hij
    by_cases hi0 : i = 0
    · by_cases hj0 : j = 0
      · rw [hi0, hj0]
      · simp only [only_of_ne _ _ hj0] at hij
        exact absurd hij hi
    · simp [hi0] at hi
  clients := by
    intro fd
    constructor
    · intro h
      obtain ⟨i, hi0, hi, hfd⟩ := h
      simp only [only_of_ne _ _ hi0] at hi
      exact absurd hi.symm hfd
    · intro h
      obtain ⟨id, hid⟩ := h
      exact absurd hid (b.fresh fd id)

theorem Holds.listensock_ne (h : Holds listensock s) : listensock ≠ -1 := by
  have := h.range listensock (by simp [h.listening])
  omega

theorem Holds.slot_nonneg (h : Holds listensock s) (hfd : s.slots i ≠ -1) : 0 ≤ s.slots i := by
  apply h.range
  by_cases hi : i = 0
  · simp [hi, h.first, h.listening]
  · obtain ⟨id, hid⟩ := (h.clients (s.slots i)).mp ⟨i, hi, rfl, hfd⟩
    simp [hid]

theorem Holds.ne_listensock (h : Holds listensock s) (hi : i ≠ 0) (hfd : s.slots i ≠ -1) :
    s.slots i ≠ listensock := by
  intro he
  exact hi (h.distinct i 0 hfd (he.trans h.first.symm))

theorem Holds.client_iff (h : Holds listensock s) :
    (fd ≠ listensock ∧ fd ≠ -1 ∧ ∃ i, s.slots i = fd) ↔ ∃ id, s.files fd = some (.conn id) := by
  rw [← h.clients fd]
  constructor
  · intro hc
    obtain ⟨hne, hone, i, hi⟩ := hc
    have hi0 : i ≠ 0 := by
      intro hi0
      rw [hi0, h.first] at hi
      exact hne hi.symm
    exact ⟨i, hi0, hi, hone⟩
  · intro hc
    obtain ⟨i, hi0, hi, hone⟩ := hc
    have hne := h.ne_listensock hi0 (hi ▸ hone)
    exact ⟨hi ▸ hne, hone, i, hi⟩

/-- Changing one slot matters only to the descriptors it had and has. -/
theorem occupied_update {v : Int} (hold : fd ≠ -1 → s.slots pos ≠ fd) (hnew : v ≠ fd) :
    (∃ i, i ≠ 0 ∧ Function.update s.slots pos v i = fd ∧ fd ≠ -1) ↔
      ∃ i, i ≠ 0 ∧ s.slots i = fd ∧ fd ≠ -1 := by
  apply exists_congr
  intro i
  by_cases hi : i = pos
  · subst hi
    rw [Function.update_self]
    exact ⟨fun h => absurd h.2.1 hnew, fun h => absurd h.2.1 (hold h.2.2)⟩
  · rw [Function.update_of_ne hi]

theorem distinct_update {v : Int} (h : ∀ i j, s.slots i ≠ -1 → s.slots i = s.slots j → i = j)
    (hv : v ≠ -1 → ∀ i, s.slots i ≠ v) (i j : Fin (n + 1))
    (hi : Function.update s.slots pos v i ≠ -1)
    (hij : Function.update s.slots pos v i = Function.update s.slots pos v j) : i = j := by
  by_cases hip : i = pos
  · by_cases hjp : j = pos
    · rw [hip, hjp]
    · rw [hip, Function.update_self] at hi hij
      rw [Function.update_of_ne hjp] at hij
      exact absurd hij.symm (hv hi j)
  · rw [Function.update_of_ne hip] at hi hij
    by_cases hjp : j = pos
    · rw [hjp, Function.update_self] at hij
      exact absurd hij (hv (hij ▸ hi) i)
    · rw [Function.update_of_ne hjp] at hij
      exact h i j hi hij

/-- A descriptor that is not open is in no slot. -/
theorem Holds.slots_ne (h : Holds listensock s) (hsock : 0 ≤ sock) (hnew : s.files sock = none) :
    s.slots i ≠ sock := by
  intro hi
  by_cases hi0 : i = 0
  · rw [hi0, h.first] at hi
    rw [← hi, h.listening] at hnew
    cases hnew
  · obtain ⟨id, hid⟩ := (h.clients sock).mp ⟨i, hi0, hi, by omega⟩
    rw [hnew] at hid
    cases hid

/-- A new connection takes a free slot. -/
theorem Holds.enter (h : Holds listensock s) (hpos : pos ≠ 0) (hfree : s.slots pos = -1)
    (hsock : 0 ≤ sock) (hnew : s.files sock = none) (id : Nat) :
    Holds listensock (s.enter pos sock id) := by
  have hlisten : listensock ≠ sock := h.first ▸ h.slots_ne hsock hnew
  constructor
  · rw [Table.enter_slots, Function.update_of_ne (Ne.symm hpos), h.first]
  · rw [Table.enter_files, Function.update_of_ne hlisten, h.listening]
  · intro fd hfd
    by_cases he : fd = sock
    · rwa [he]
    · exact h.range fd (by simpa [he] using hfd)
  · exact distinct_update h.distinct fun _ _ => h.slots_ne hsock hnew
  · intro fd
    simp only [Table.enter_slots, Table.enter_files]
    by_cases he : fd = sock
    · subst he
      rw [Function.update_self]
      exact ⟨fun _ => ⟨id, rfl⟩, fun _ => ⟨pos, hpos, by simp, by omega⟩⟩
    · rw [Function.update_of_ne he, ← h.clients fd]
      exact occupied_update (fun hne => hfree ▸ Ne.symm hne) (Ne.symm he)

/-- A connection that is closed leaves its slot. -/
theorem Holds.leave (h : Holds listensock s) (hpos : pos ≠ 0) (hfd : s.slots pos ≠ -1) :
    Holds listensock (s.leave pos) := by
  have hlisten := h.ne_listensock hpos hfd
  constructor
  · rw [Table.leave_slots, Function.update_of_ne (Ne.symm hpos), h.first]
  · rw [Table.leave_files, Function.update_of_ne (Ne.symm hlisten), h.listening]
  · intro fd hopen
    by_cases he : fd = s.slots pos
    · simp [he] at hopen
    · exact h.range fd (by simpa [he] using hopen)
  · exact distinct_update h.distinct fun hone => absurd rfl hone
  · intro fd
    simp only [Table.leave_slots, Table.leave_files]
    by_cases he : fd = s.slots pos
    · subst he
      rw [Function.update_self]
      constructor
      · intro hc
        obtain ⟨i, hi0, hi, -⟩ := hc
        by_cases hip : i = pos
        · rw [hip, Function.update_self] at hi
          exact absurd hi.symm hfd
        · rw [Function.update_of_ne hip] at hi
          exact absurd (h.distinct pos i hfd hi.symm).symm hip
      · intro hc
        obtain ⟨id, hid⟩ := hc
        cases hid
    · rw [Function.update_of_ne he, ← h.clients fd]
      by_cases hone : fd = -1
      · simp [hone]
      · exact occupied_update (fun _ => Ne.symm he) (Ne.symm hone)

end Slots
