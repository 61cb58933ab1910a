import LinuxPractice.Passes
import LinuxPractice.Slots

/-!
# One pass over a table of connections

A server accepts at the listening descriptor and reads from the others. The
visit of a slot makes at most one of these calls.
-/
namespace Dispatch

open Passes Sockets Slots

inductive Call (n : Nat) where
  | accepter : Call n
  | recver : Int → Fin (n + 1) → Call n
  deriving DecidableEq

variable {n : Nat} {s t : Table n} {listensock sock : Int} {asked : Prop} {o : Outcome}
  {i : Fin (n + 1)} {calls : List (Call n)}

/-- How a server takes what `accept` returned: an error, a connection that is closed at
once, or one that gets a slot. -/
inductive Accepts (s : Table n) (sock : Int) : Table n → Prop
  | error (hsock : sock < 0) : Accepts s sock s
  | full (hsock : 0 ≤ sock) (hnew : s.files sock = none) (hfull : free s.slots = none) :
      Accepts s sock s
  | entered (hsock : 0 ≤ sock) (hnew : s.files sock = none) (pos : Fin (n + 1))
      (hpos : free s.slots = some pos) (id : Nat) : Accepts s sock (s.enter pos sock id)

/-- A connection is closed when `read` returns nothing. -/
def received (s : Table n) (i : Fin (n + 1)) (count : Int) : Table n :=
  if count > 0 then s else s.leave i

/-- How the visit of slot `i` ends if the server serves the slots it visits when `asked`. -/
inductive Visits (listensock : Int) (asked : Prop) (o : Outcome) (s : Table n) (i : Fin (n + 1)) :
    Table n → List (Call n) → Prop
  | skip (hskip : s.slots i = -1 ∨ ¬ asked) : Visits listensock asked o s i s []
  | accepter (hasked : asked) (hfd : s.slots i = listensock) (t : Table n)
      (ht : Accepts s o.sock t) : Visits listensock asked o s i t [.accepter]
  | recver (hasked : asked) (hfd : s.slots i ≠ -1) (hne : s.slots i ≠ listensock) :
      Visits listensock asked o s i (received s i o.n) [.recver (s.slots i) i]

section Accept

variable {slots : Fin (n + 1) → Int} {k l : Kernel}

theorem accepts_error (h : k.accept sock = some l) (hneg : sock < 0) :
    Accepts ⟨slots, k.files⟩ sock ⟨slots, l.files⟩ := by
  obtain ⟨-, rfl⟩ | ⟨hsock, -⟩ := Kernel.accept_cases h
  · exact .error hneg
  · omega

theorem accepts_full (h : k.accept sock = some l) (hsock : ¬ sock < 0) (hfull : free slots = none) :
    Accepts ⟨slots, k.files⟩ sock ⟨slots, (l.close sock).files⟩ := by
  obtain ⟨hneg, -⟩ | ⟨hsock, hnew, -⟩ := Kernel.accept_cases h
  · omega
  · rw [Kernel.close_accept h hsock]
    exact .full hsock hnew hfull

theorem accepts_entered {pos : Fin (n + 1)} (h : k.accept sock = some l) (hsock : ¬ sock < 0)
    (hpos : free slots = some pos) :
    Accepts ⟨slots, k.files⟩ sock ⟨Function.update slots pos sock, l.files⟩ := by
  obtain ⟨hneg, -⟩ | ⟨hsock, hnew, rfl⟩ := Kernel.accept_cases h
  · omega
  · exact .entered hsock hnew pos hpos k.accepted

end Accept

theorem Accepts.holds (ha : Accepts s sock t) (h : Holds listensock s) : Holds listensock t := by
  cases ha with
  | error _ => exact h
  | full _ _ _ => exact h
  | entered hsock hnew pos hpos id =>
    obtain ⟨hzero, hfree⟩ := free_eq_some hpos
    exact h.enter hzero hfree hsock hnew id

theorem Visits.holds (hv : Visits listensock asked o s i t calls) (h : Holds listensock s) :
    Holds listensock t := by
  cases hv with
  | skip _ => exact h
  | accepter _ _ t ht => exact ht.holds h
  | recver _ hfd hne =>
    unfold received
    split
    · exact h
    · apply h.leave _ hfd
      intro hi
      rw [hi, h.first] at hne
      exact hne rfl

theorem Accepts.not_open (ha : Accepts s sock t) (hsock : 0 ≤ sock) : s.files sock = none := by
  cases ha with
  | error hneg => omega
  | full _ hnew _ => exact hnew
  | entered _ hnew _ _ _ => exact hnew

theorem Accepts.unchanged (ha : Accepts s sock t) (h : sock < 0 ∨ free s.slots = none) : t = s := by
  cases ha with
  | error _ => rfl
  | full _ _ _ => rfl
  | entered hsock _ pos hpos _ =>
    cases h with
    | inl hneg => omega
    | inr hfull => simp [hpos] at hfull

theorem Accepts.slots_kept (ha : Accepts s sock t) (hfd : s.slots i ≠ -1) :
    t.slots i = s.slots i := by
  cases ha with
  | error _ => rfl
  | full _ _ _ => rfl
  | entered _ _ pos hpos _ =>
    have hne : i ≠ pos := by
      intro he
      rw [he] at hfd
      exact hfd (free_eq_some hpos).2
    rw [Table.enter_slots, Function.update_of_ne hne]

theorem Accepts.files_kept (ha : Accepts s sock t) {fd : Int} {file : File}
    (hfile : s.files fd = some file) : t.files fd = some file := by
  cases ha with
  | error _ => exact hfile
  | full _ _ _ => exact hfile
  | entered _ hnew pos _ id =>
    have hne : fd ≠ sock := by
      intro he
      rw [← he, hfile] at hnew
      cases hnew
    rwa [Table.enter_files, Function.update_of_ne hne]

/-- A connection that gets a slot is a client that was not there. -/
theorem Accepts.clients_iff (ha : Accepts s sock t) (P : Int → Prop) :
    (∀ fd, (∃ id, t.files fd = some (.conn id)) → (∃ id, s.files fd = some (.conn id)) ∧ P fd) ↔
    (∀ fd, (∃ id, s.files fd = some (.conn id)) → P fd) ∧ (sock < 0 ∨ free s.slots = none) := by
  constructor
  · intro h
    constructor
    · intro fd hfd
      obtain ⟨id, hid⟩ := hfd
      exact (h fd ⟨id, ha.files_kept hid⟩).2
    · cases ha with
      | error hsock => exact .inl hsock
      | full _ _ hfull => exact .inr hfull
      | entered _ hnew pos _ id =>
        obtain ⟨⟨id', hid'⟩, -⟩ := h sock ⟨id, by simp⟩
        rw [hnew] at hid'
        cases hid'
  · intro h fd hfd
    rw [ha.unchanged h.2] at hfd
    exact ⟨hfd, h.1 fd hfd⟩

/-- The call that a visit of slot `i` makes for a client. -/
def fires (s : Table n) (i : Fin (n + 1)) : List (Call n) :=
  if s.slots i = -1 then [] else [.recver (s.slots i) i]

theorem mem_fires {c : Call n} : c ∈ fires s i ↔ s.slots i ≠ -1 ∧ c = .recver (s.slots i) i := by
  unfold fires
  split <;> simp [*]

theorem fires_received (s : Table n) (count : Int) {j : Fin (n + 1)} (hj : j ≠ i) :
    fires (received s i count) j = fires s j := by
  unfold received
  split
  · rfl
  · simp [fires, hj]

/-- The calls of a pass that serves everything there is. -/
def allCalls (s : Table n) : List (Call n) :=
  .accepter :: ((List.finRange n).map Fin.succ).flatMap (fires s)

theorem mem_allCalls {fd : Int} {pos : Fin (n + 1)} :
    .recver fd pos ∈ allCalls s ↔ pos ≠ 0 ∧ s.slots pos = fd ∧ fd ≠ -1 := by
  simp only [allCalls, List.mem_cons, reduceCtorEq, false_or, List.mem_flatMap, List.mem_map,
    List.mem_finRange, true_and, mem_fires, Call.recver.injEq]
  constructor
  · intro h
    obtain ⟨i, ⟨j, rfl⟩, hfd, rfl, rfl⟩ := h
    exact ⟨Fin.succ_ne_zero j, rfl, hfd⟩
  · intro h
    obtain ⟨hpos, rfl, hfd⟩ := h
    exact ⟨pos, Fin.exists_succ_eq.mpr hpos, hfd, rfl, rfl⟩

/-- A connection that gets a slot is read from at once. -/
theorem Accepts.nothing_entered (ha : Accepts s sock t)
    (h : ∀ fd i, .recver fd i ∈ allCalls t → s.slots i = fd) : sock < 0 ∨ free s.slots = none := by
  cases ha with
  | error hsock => exact .inl hsock
  | full _ _ hfull => exact .inr hfull
  | entered hsock _ pos hpos id =>
    obtain ⟨hzero, hfree⟩ := free_eq_some hpos
    have hcall : .recver sock pos ∈ allCalls (s.enter pos sock id) :=
      mem_allCalls.mpr ⟨hzero, by simp, by omega⟩
    have := h sock pos hcall
    omega

theorem Visits.fires (hv : Visits listensock asked o s i t calls) (h : Holds listensock s)
    (hasked : asked) (hi : i ≠ 0) :
    calls = Dispatch.fires s i ∧ ∀ j, j ≠ i → Dispatch.fires t j = Dispatch.fires s j := by
  cases hv with
  | skip hskip =>
    cases hskip with
    | inl hone => exact ⟨by rw [Dispatch.fires, if_pos hone], fun _ _ => rfl⟩
    | inr hnot => exact absurd hasked hnot
  | accepter _ hfd =>
    -- only slot 0 has the listening descriptor
    exact absurd hfd (h.ne_listensock hi (hfd ▸ h.listensock_ne))
  | recver _ hfd _ =>
    constructor
    · rw [Dispatch.fires, if_neg hfd]
    · intro j hj
      exact fires_received s _ hj

theorem Visits.first (hv : Visits listensock asked o s 0 t calls) (h : Holds listensock s)
    (hasked : asked) : Accepts s o.sock t ∧ calls = [.accepter] := by
  cases hv with
  | skip hskip =>
    rw [h.first] at hskip
    cases hskip with
    | inl hone => exact absurd hone h.listensock_ne
    | inr hnot => exact absurd hasked hnot
  | accepter _ _ _ ht => exact ⟨ht, rfl⟩
  | recver _ _ hne => exact absurd h.first hne

section Pass

variable {σ : Type} {table : σ → Table n} {J : σ → Prop} {outcome : Fin (n + 1) → Outcome}
  {visit : σ → Fin (n + 1) → Option (σ × List (Call n))} {x y : σ}

/-- Every visit of a server whose state has a table keeps `J` and treats the table so. -/
def Serves (listensock : Int) (asked : Prop) (outcome : Fin (n + 1) → Outcome)
    (table : σ → Table n) (J : σ → Prop)
    (visit : σ → Fin (n + 1) → Option (σ × List (Call n))) : Prop :=
  ∀ x i y calls, J x → visit x i = some (y, calls) →
    J y ∧ Visits listensock asked (outcome i) (table x) i (table y) calls

/-- After any part of a pass. -/
theorem Serves.holds (hserves : Serves listensock asked outcome table J visit)
    {places : List (Fin (n + 1))} (hj : J x) (h : Holds listensock (table x))
    (hs : scan visit x places = some (y, calls)) : J y ∧ Holds listensock (table y) := by
  apply scan_keeps (I := fun _ x => J x ∧ Holds listensock (table x)) _ [] ⟨hj, h⟩ hs
  intro i _ x y calls hx hvisit
  obtain ⟨hj, hv⟩ := hserves x i y calls hx.1 hvisit
  exact ⟨hj, hv.holds hx.2⟩

/-- A pass that serves every slot accepts first and then reads from every client there is. -/
theorem Serves.calls_eq (hserves : Serves listensock asked outcome table J visit)
    (hasked : asked) (hj : J x) (h : Holds listensock (table x))
    (hs : scan visit x (List.finRange (n + 1)) = some (y, calls)) :
    ∃ u, Accepts (table x) (outcome 0).sock u ∧ calls = allCalls u := by
  rw [List.finRange_succ] at hs
  obtain ⟨z, first, rest, hfirst, hrest, rfl⟩ := scan_cons.mp hs
  obtain ⟨hjz, hv⟩ := hserves x 0 z first hj hfirst
  obtain ⟨hu, rfl⟩ := hv.first h hasked
  refine ⟨table z, hu, ?_⟩
  rw [List.singleton_append, allCalls]
  congr 1
  apply scan_calls (I := fun x => J x ∧ Holds listensock (table x)) (P := fun i => i ≠ 0)
    (f := fun x => fires (table x)) _ ⟨hjz, hv.holds h⟩ _ _ hrest
  · intro x i y calls hx hi hvisit
    obtain ⟨hj, hv⟩ := hserves x i y calls hx.1 hvisit
    exact ⟨⟨hj, hv.holds hx.2⟩, hv.fires hx.2 hasked hi⟩
  · simp
  · exact (List.nodup_finRange n).map (Fin.succ_injective n)

end Pass

end Dispatch
