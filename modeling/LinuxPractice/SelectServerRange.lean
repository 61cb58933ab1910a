import LinuxPractice.SelectServer

/-!
# SelectServer: which descriptors fit into an fd_set

The array has as many slots as an `fd_set` has bits, and `Accepter` counts the
slots. The kernel numbers connections behind everything else the process has
open, so a slot can be left when the numbers that fit are used up.
-/
namespace SelectServer

open Transition Transition.System Passes Sockets Slots Dispatch

variable {n : Nat}

/-- `sizeof(fd_set) * 8`, the number of bits and of slots. -/
def fdSetsize (n : Nat) : Int := n + 1

/-- `maxfd` after the first loop of `Start`. -/
def maxfd (s : State n) : Int :=
  (List.finRange (n + 1)).foldl
    (fun m i => if s.fdArray i = -1 then m else if m < s.fdArray i then s.fdArray i else m)
    (s.fdArray listening)

/-- What `Start` hands to `FD_SET` and `FD_ISSET` are bits of the set, and `nfds` is at most
their number. -/
structure InRange (s : State n) : Prop where
  fdSet : ∀ i, s.fdArray i ≠ -1 → 0 ≤ s.fdArray i ∧ s.fdArray i < fdSetsize n
  nfds : maxfd s + 1 ≤ fdSetsize n

/-- What the kernel gives for a new connection: an error, or the lowest number. -/
def LowestUnused (files : Int → Option File) (sock : Int) : Prop :=
  ∀ fd < sock.toNat, files fd ≠ none

instance (files : Int → Option File) (sock : Int) : Decidable (LowestUnused files sock) :=
  inferInstanceAs (Decidable (∀ fd < _, _))

/-- The server under such a kernel; `accept` is called at slot 0, before any other call. -/
def lowestServer (n : Nat) (b : Boot) : System (State n) (Action n) where
  init := start n b
  step := fun s a =>
    if LowestUnused s.kernel.files (a.outcome listening).sock then (server n b).step s a
    else none

/-- Everything is in range before, during and after the round. -/
def InRangeDuring (listensock : Int) (s : State n) (a : Action n) : Prop :=
  ∀ before t calls, before <+: List.finRange (n + 1) →
    scan (visit listensock a) s before = some (t, calls) → InRange t

/-- If a connection is accepted into the array, a number that fits is unused. -/
def Room (listensock : Int) (s : State n) (a : Action n) : Prop :=
  listensock ∈ a.rfds → 0 ≤ (a.outcome listening).sock → free s.fdArray ≠ none →
    ∃ fd, 0 ≤ fd ∧ fd < fdSetsize n ∧ s.kernel.files fd = none

variable {s t : State n} {a : Action n} {b : Boot} {listensock : Int}

theorem foldl_max_lt {fds : Fin (n + 1) → Int} {bound : Int} (h : ∀ i, fds i < bound)
    (places : List (Fin (n + 1))) {m : Int} (hm : m < bound) :
    places.foldl (fun m i => if fds i = -1 then m else if m < fds i then fds i else m) m <
      bound := by
  induction places generalizing m with
  | nil => exact hm
  | cons i places ih =>
    apply ih
    show (if fds i = -1 then m else if m < fds i then fds i else m) < bound
    split
    · exact hm
    · split
      · exact h i
      · exact hm

theorem inRange_iff (h : Holds listensock s.table) :
    InRange s ↔ ∀ i, s.fdArray i < fdSetsize n := by
  constructor
  · intro hr i
    by_cases hi : s.fdArray i = -1
    · rw [hi, fdSetsize]
      omega
    · exact (hr.fdSet i hi).2
  · intro hlt
    constructor
    · intro i hi
      exact ⟨h.slot_nonneg (s := s.table) hi, hlt i⟩
    · have := foldl_max_lt hlt (List.finRange (n + 1)) (hlt listening)
      rw [maxfd]
      omega

theorem received_lt {u : Table n} {bound : Int} (h : ∀ i, u.slots i < bound) (hpos : -1 < bound)
    (i : Fin (n + 1)) (count : Int) (j : Fin (n + 1)) : (received u i count).slots j < bound := by
  unfold received
  split
  · exact h j
  · by_cases hj : j = i
    · simpa [hj] using hpos
    · simpa [hj] using h j

/-- Only a connection that gets a slot can break the bound. -/
theorem accepts_lt_iff {u v : Table n} {sock bound : Int} (ha : Accepts u sock v)
    (h : ∀ i, u.slots i < bound) :
    (∀ i, v.slots i < bound) ↔ (0 ≤ sock → free u.slots ≠ none → sock < bound) := by
  cases ha with
  | error hneg => exact ⟨fun _ hsock => by omega, fun _ => h⟩
  | full _ _ hfull => exact ⟨fun _ _ hfree => absurd hfull hfree, fun _ => h⟩
  | entered hsock _ pos hpos id =>
    constructor
    · intro hv _ _
      simpa using hv pos
    · intro hlt j
      by_cases hj : j = pos
      · simpa [hj] using hlt hsock (by simp [hpos])
      · simpa [hj] using h j

/-- The lowest unused number fits exactly if one that fits is unused. -/
theorem lowest_lt_iff {files : Int → Option File} {sock bound : Int}
    (hlow : LowestUnused files sock) (hsock : 0 ≤ sock) (hnew : files sock = none) :
    sock < bound ↔ ∃ fd, 0 ≤ fd ∧ fd < bound ∧ files fd = none := by
  constructor
  · intro hlt
    exact ⟨sock, hsock, hlt, hnew⟩
  · intro h
    obtain ⟨fd, hfd, hlt, hnone⟩ := h
    by_contra hge
    have hopen := hlow fd.toNat (by omega)
    rw [Int.toNat_of_nonneg hfd] at hopen
    exact hopen hnone

theorem visits_lt {u v : Table n} {asked : Prop} {o : Outcome} {i : Fin (n + 1)}
    {calls : List (Call n)} {bound : Int} (hv : Visits listensock asked o u i v calls)
    (h : Holds listensock u) (hlt : ∀ i, u.slots i < bound) (hpos : -1 < bound)
    (hroom : i = 0 → asked → u.files o.sock = none → 0 ≤ o.sock → free u.slots ≠ none →
      o.sock < bound) : ∀ j, v.slots j < bound := by
  cases hv with
  | skip _ => exact hlt
  | accepter hasked hfd v ha =>
    have hi : i = 0 := by
      by_contra hi
      exact h.ne_listensock hi (hfd ▸ h.listensock_ne) hfd
    apply (accepts_lt_iff ha hlt).mpr
    intro hsock hfree
    exact hroom hi hasked (ha.not_open hsock) hsock hfree
  | recver _ _ _ => exact received_lt hlt hpos i o.n

theorem fdSetsize_pos (n : Nat) : -1 < fdSetsize n := by
  rw [fdSetsize]
  omega

/-- The numbers fit, and the slots still to visit are not the one that accepts. -/
def FitsBehind (listensock : Int) (places : List (Fin (n + 1))) (s : State n) : Prop :=
  (∀ i ∈ places, i ≠ listening) ∧ Holds listensock s.table ∧ ∀ i, s.fdArray i < fdSetsize n

theorem fitsBehind_visit (i : Fin (n + 1)) (is : List (Fin (n + 1))) (x y : State n)
    (calls : List (Call n)) (hx : FitsBehind listensock (i :: is) x)
    (hvisit : visit listensock a x i = some (y, calls)) : FitsBehind listensock is y := by
  obtain ⟨-, hv⟩ := serves listensock a x i y calls trivial hvisit
  constructor
  · intro j hj
    exact hx.1 j (List.mem_cons_of_mem i hj)
  constructor
  · exact hv.holds hx.2.1
  · apply visits_lt hv hx.2.1 hx.2.2 (fdSetsize_pos n)
    intro hi
    exact absurd hi (hx.1 i List.mem_cons_self)

theorem during_of_room (h : Holds listensock s.table) (hlt : ∀ i, s.fdArray i < fdSetsize n)
    (hlow : LowestUnused s.kernel.files (a.outcome 0).sock) (hroom : Room listensock s a) :
    InRangeDuring listensock s a := by
  intro before t calls hpre hs
  have hkeep : Holds listensock t.table ∧ ∀ i, t.fdArray i < fdSetsize n := by
    cases before with
    | nil =>
      cases hs
      exact ⟨h, hlt⟩
    | cons i is =>
      rw [List.finRange_succ, List.cons_prefix_cons] at hpre
      obtain ⟨rfl, hpre⟩ := hpre
      obtain ⟨u, first, rest, hfirst, hrest, -⟩ := scan_cons.mp hs
      obtain ⟨-, hv⟩ := serves listensock a s 0 u first trivial hfirst
      have hu : ∀ i, u.fdArray i < fdSetsize n := by
        apply visits_lt hv h hlt (fdSetsize_pos n)
        intro _ hin hnew hsock hfree
        exact (lowest_lt_iff hlow hsock hnew).mpr (hroom hin hsock hfree)
      -- behind slot 0 nothing is accepted
      have hothers : ∀ i ∈ is, i ≠ 0 := by
        intro i hi
        obtain ⟨j, -, rfl⟩ := List.mem_map.mp (hpre.subset hi)
        exact Fin.succ_ne_zero j
      have hlast : FitsBehind listensock [] t :=
        scan_keeps fitsBehind_visit [] ⟨by simpa using hothers, hv.holds h, hu⟩ hrest
      exact hlast.2
  exact (inRange_iff hkeep.1).mpr hkeep.2

theorem room_of_during (h : Holds listensock s.table) (hlt : ∀ i, s.fdArray i < fdSetsize n)
    (hlow : LowestUnused s.kernel.files (a.outcome 0).sock) {calls : List (Call n)}
    (hd : dispatcher listensock a s = some (t, calls)) (hr : InRangeDuring listensock s a) :
    Room listensock s a := by
  intro hin hsock hfree
  rw [dispatcher, List.finRange_succ] at hd
  obtain ⟨u, first, rest, hfirst, -, -⟩ := scan_cons.mp hd
  obtain ⟨-, hv⟩ := serves listensock a s 0 u first trivial hfirst
  obtain ⟨ha, -⟩ := hv.first h hin
  have hu : InRange u := by
    apply hr [0] u (first ++ [])
    · simp [List.finRange_succ]
    · exact scan_cons.mpr ⟨u, first, [], hfirst, rfl, rfl⟩
  have hbound := (accepts_lt_iff ha hlt).mp ((inRange_iff (hv.holds h)).mp hu) hsock hfree
  exact (lowest_lt_iff hlow hsock (ha.not_open hsock)).mp hbound

theorem lowestServer_step (hs : (lowestServer n b).step s a = some t) :
    LowestUnused s.kernel.files (a.outcome 0).sock ∧
      ∃ calls, dispatcher b.listensock a s = some (t, calls) := by
  simp only [lowestServer] at hs
  split at hs
  · exact ⟨‹_›, (round_eq_some hs).2⟩
  · cases hs

theorem dispatcher_holds {calls : List (Call n)} (h : Holds listensock s.table)
    (hd : dispatcher listensock a s = some (t, calls)) : Holds listensock t.table :=
  ((serves listensock a).holds trivial h hd).2

/-- A run stays in range, in the middle of its rounds too, exactly if the listening descriptor
fits and a number that fits is unused whenever a connection is accepted into the array. -/
theorem in_range_iff_room (n : Nat) (b : Boot) (as : List (Action n)) :
    InRange (start n b) ∧
        (lowestServer n b).Admits (InRangeDuring b.listensock) (start n b) as ↔
      b.listensock < fdSetsize n ∧
        (lowestServer n b).Admits (Room b.listensock) (start n b) as := by
  have hboot : Holds b.listensock (start n b).table := holds_boot b n
  have hstart : InRange (start n b) ↔ b.listensock < fdSetsize n := by
    rw [inRange_iff hboot]
    constructor
    · intro h
      simpa [start] using h 0
    · intro h i
      by_cases hi : i = 0
      · simpa [start, hi] using h
      · simpa [start, hi] using fdSetsize_pos n
  rw [hstart]
  apply and_congr_right
  intro hlisten
  apply admits_congr (J := fun s => Holds b.listensock s.table ∧ ∀ i, s.fdArray i < fdSetsize n)
  · intro s a t hj hroom hs
    obtain ⟨hlow, calls, hd⟩ := lowestServer_step hs
    have ht := dispatcher_holds hj.1 hd
    have hr := during_of_room hj.1 hj.2 hlow hroom _ t calls List.prefix_rfl hd
    exact ⟨ht, (inRange_iff ht).mp hr⟩
  · intro s a t hj hs
    obtain ⟨hlow, calls, hd⟩ := lowestServer_step hs
    exact ⟨room_of_during hj.1 hj.2 hlow hd, during_of_room hj.1 hj.2 hlow⟩
  · exact ⟨hboot, (inRange_iff hboot).mp (hstart.mpr hlisten)⟩

/-- The server of the standard boot with `k` clients, none of which has left. -/
def filled (n k : Nat) : State n where
  fdArray := fun i => if i.val = 0 then 3 else if i.val ≤ k then i.val + 3 else -1
  kernel :=
    ⟨fun fd => if 4 ≤ fd ∧ fd ≤ k + 3 then some (.conn (fd - 4).toNat) else standard.files fd, k⟩

/-- One more connects, and whoever is read from has sent something. -/
def connect (n k : Nat) : Action n := ⟨{3}, fun _ => ⟨k + 4, 1⟩⟩

theorem filled_zero (n : Nat) : filled n 0 = start n standard := by
  have hslots : (filled n 0).fdArray = (start n standard).fdArray := by
    funext i
    by_cases hi : i = 0
    · simp [filled, start, hi, standard]
    · simp [filled, start, hi]
  have hfiles : (filled n 0).kernel.files = (start n standard).kernel.files := by
    funext fd
    have hnone : ¬ (4 ≤ fd ∧ fd ≤ (0 : Nat) + 3) := by omega
    simp only [filled, hnone, if_false]
    rfl
  simp only [filled, start, Boot.kernel] at hslots hfiles ⊢
  rw [hslots, hfiles]

theorem standard_files_open {fd : Int} (hfd : 0 ≤ fd) (hle : fd ≤ 3) :
    standard.files fd ≠ none := by
  simp only [standard]
  split
  · simp
  · split
    · simp
    · omega

theorem standard_files_none {fd : Int} (hfd : 3 < fd) : standard.files fd = none := by
  simp only [standard]
  split
  · omega
  · split
    · omega
    · rfl

theorem filled_lowest (n k : Nat) : LowestUnused (filled n k).kernel.files (k + 4) := by
  intro fd hfd
  by_cases hconn : 4 ≤ (fd : Int) ∧ (fd : Int) ≤ k + 3
  · simp [filled, hconn]
  · simp only [filled, hconn, if_false]
    apply standard_files_open <;> omega

theorem filled_free {n k : Nat} (hk : k < n) :
    free (filled n k).fdArray = some ⟨k + 1, by omega⟩ := by
  apply free_eq_some_of
  · intro h
    have := congrArg Fin.val h
    simp at this
  · simp [filled]
  · intro j hj hj0
    have hlt : j.val < k + 1 := hj
    have hzero : j.val ≠ 0 := by
      intro h
      exact hj0 (Fin.ext h)
    simp only [filled, hzero, if_false]
    split <;> omega

theorem filled_slots_succ {n k : Nat} (hk : k + 1 < n + 1) :
    Function.update (filled n k).fdArray ⟨k + 1, hk⟩ ((k : Int) + 4) =
      (filled n (k + 1)).fdArray := by
  funext i
  by_cases hi : i = ⟨k + 1, hk⟩
  · subst hi
    simp [filled]
    omega
  · have hval : i.val ≠ k + 1 := by
      intro h
      exact hi (Fin.ext h)
    rw [Function.update_of_ne hi]
    simp only [filled]
    split
    · rfl
    · split <;> split <;> omega

theorem filled_files_succ (n k : Nat) :
    Function.update (filled n k).kernel.files ((k : Int) + 4) (some (.conn k)) =
      (filled n (k + 1)).kernel.files := by
  funext fd
  by_cases hfd : fd = (k : Int) + 4
  · have hin : 4 ≤ (k : Int) + 4 ∧ (k : Int) + 4 ≤ ((k + 1 : Nat) : Int) + 3 := by omega
    rw [hfd, Function.update_self]
    simp only [filled]
    rw [if_pos hin]
    simp
  · rw [Function.update_of_ne hfd]
    simp only [filled]
    have hsame : (4 ≤ fd ∧ fd ≤ (k : Int) + 3) ↔ (4 ≤ fd ∧ fd ≤ ((k + 1 : Nat) : Int) + 3) := by
      push_cast
      omega
    simp only [hsame]

/-- The new connection gets the next slot. -/
theorem filled_accepter {n k : Nat} (hk : k < n) :
    accepter (filled n k) (k + 4) = some (filled n (k + 1)) := by
  have hnew : (filled n k).kernel.files (k + 4) = none := by
    have hnone : ¬ (4 ≤ (k : Int) + 4 ∧ (k : Int) + 4 ≤ k + 3) := by omega
    simp only [filled, hnone, if_false]
    exact standard_files_none (by omega)
  have hsock : ¬ ((k : Int) + 4 < 0) := by omega
  have hslot : k + 1 < n + 1 := by omega
  simp only [accepter, Kernel.accept, hsock, if_false, hnew, if_true, filled_free hk,
    Option.bind_eq_bind, Option.bind_some]
  show some (State.mk (Function.update (filled n k).fdArray ⟨k + 1, hslot⟩ ((k : Int) + 4))
    ⟨Function.update (filled n k).kernel.files ((k : Int) + 4) (some (.conn k)), k + 1⟩) = _
  rw [filled_slots_succ hslot, filled_files_succ]
  rfl

theorem filled_visit {n k : Nat} (i : Fin (n + 1)) (hi : i ≠ 0) :
    ∃ calls, visit 3 (connect n k) (filled n (k + 1)) i = some (filled n (k + 1), calls) := by
  have hval : i.val ≠ 0 := by
    intro h
    exact hi (Fin.ext h)
  have hne : (filled n (k + 1)).fdArray i ≠ 3 := by
    simp only [filled, hval, if_false]
    split <;> omega
  by_cases hone : (filled n (k + 1)).fdArray i = -1
  · exact ⟨[], by simp [visit, hone]⟩
  · exact ⟨[.recver ((filled n (k + 1)).fdArray i) i],
      by simp [visit, hone, hne, connect, recver]⟩

theorem filled_dispatcher {n k : Nat} (hk : k < n) :
    ∃ calls, dispatcher 3 (connect n k) (filled n k) = some (filled n (k + 1), calls) := by
  have hfirst : visit 3 (connect n k) (filled n k) 0 = some (filled n (k + 1), [.accepter]) := by
    have hslot : (filled n k).fdArray 0 = 3 := by simp [filled]
    simp [visit, hslot, connect, filled_accepter hk]
  have hothers : ∀ i ∈ (List.finRange n).map Fin.succ,
      ∃ calls, visit 3 (connect n k) (filled n (k + 1)) i = some (filled n (k + 1), calls) := by
    intro i hi
    obtain ⟨j, -, rfl⟩ := List.mem_map.mp hi
    exact filled_visit _ (Fin.succ_ne_zero j)
  obtain ⟨rest, hrest⟩ := scan_stays hothers
  rw [dispatcher, List.finRange_succ]
  exact ⟨_, scan_cons.mpr ⟨_, _, _, hfirst, hrest, rfl⟩⟩

theorem filled_step {n k : Nat} (hk : k < n) :
    (lowestServer n standard).step (filled n k) (connect n k) = some (filled n (k + 1)) := by
  obtain ⟨calls, hd⟩ := filled_dispatcher hk
  have hsel : Selected (filled n k) (connect n k).rfds := by
    refine ⟨by simp [connect], ?_⟩
    intro fd hfd
    rw [connect, Finset.mem_singleton] at hfd
    exact ⟨by omega, 0, by simp [filled, hfd]⟩
  have hlow : LowestUnused (filled n k).kernel.files ((connect n k).outcome 0).sock :=
    filled_lowest n k
  have hlisten : standard.listensock = 3 := rfl
  simp only [lowestServer, server, hlow, hsel, hlisten, hd, if_true, Option.map_some]

theorem filled_reachable {n k : Nat} (hk : k ≤ n) :
    (lowestServer n standard).Reachable anyStep (filled n k) := by
  induction k with
  | zero =>
    rw [filled_zero]
    exact .refl
  | succ k ih => exact (ih (by omega)).tail ⟨connect n k, trivial, filled_step hk⟩

/-- 1021 clients later the array has two slots left and the set no bit. -/
theorem last_slots_out_of_range :
    fdSetsize 1023 = 1024 ∧ (lowestServer 1023 standard).Reachable anyStep (filled 1023 1021) ∧
      (filled 1023 1021).fdArray 1021 = 1024 ∧ ¬ InRange (filled 1023 1021) := by
  have hslot : (filled 1023 1021).fdArray 1021 = 1024 := rfl
  refine ⟨rfl, filled_reachable (by decide), hslot, ?_⟩
  intro h
  have hlt := (h.fdSet 1021 (by rw [hslot]; decide)).2
  rw [hslot] at hlt
  exact absurd hlt (by decide)

end SelectServer
