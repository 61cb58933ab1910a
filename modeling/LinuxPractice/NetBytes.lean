import LinuxPractice.NetServer
import LinuxPractice.Transition

/-!
# Which bytes of a NetCalculator session arrive

The per-connection loop as a system: a read of at most `sizeof(buffer)` bytes,
then calls of `Calculator` until one returns the empty string. Beside the
session stand the bytes that `read` delivered and those that `Decode` erased.
-/
namespace NetBytes

open CppString NetProtocol NetServer Transition Transition.System

/-- `draining` between a read and the call that ends the inner loop. -/
structure Trace where
  session : Session
  received : Bytes
  erased : Bytes
  draining : Bool

inductive Action where
  | read : Bytes → Action
  | call : Action
  deriving DecidableEq, Repr

/-- The front of `package` that `Decode` takes off. -/
def decodeErases (package : Bytes) : Bytes :=
  match decode package [] with
  | .ok ⟨true, rest, _⟩ => package.take (package.length - rest.length)
  | _ => []

def init : Trace := ⟨start, [], [], false⟩

/-- A call that ends the process leaves the bytes where they were. -/
def step (undef : Undefined) (s : Trace) : Action → Option Trace
  | .read data =>
    if s.session.died = none ∧ s.draining = false ∧ 1 ≤ data.length ∧
        data.length ≤ sizeofBuffer then
      some { s with
        session := appendRead data s.session
        received := s.received ++ data
        draining := true }
    else none
  | .call =>
    if s.session.died = none ∧ s.draining = true then
      match calculator undef s.session.inbufferStream with
      | .error d => some { s with session := { s.session with died := some d } }
      | .ok (info, package) =>
        some { s with
          session := ⟨package,
            if info.isEmpty then s.session.written else s.session.written ++ [info],
            s.session.died⟩
          erased := s.erased ++ decodeErases s.session.inbufferStream
          draining := !info.isEmpty }
    else none

def system (undef : Undefined) : System Trace Action where
  init := init
  step := step undef

/-- `buffer[n]` was in range every time, and no byte got lost. -/
def Intact (s : Trace) : Prop :=
  s.session.died ≠ some .bufferOverrun ∧ s.erased ++ s.session.inbufferStream = s.received

/-- The read leaves room for the terminator and holds no terminator. -/
def Whole (_ : Trace) : Action → Prop
  | .read data => data.length < sizeofBuffer ∧ (0 : UInt8) ∉ data
  | .call => True

variable {undef : Undefined} {s t : Trace}

/-- `Decode` takes off a front of the package. -/
theorem decode_suffix {p c rest body : Bytes} {ok : Bool}
    (h : decode p c = .ok ⟨ok, rest, body⟩) : if ok then rest <:+ p else rest = p := by
  unfold decode at h
  split at h
  · cases h
    rfl
  split at h
  · cases h
  split at h
  · cases h
  split at h
  · cases h
    rfl
  split at h
  · cases h
  · cases h
    exact List.drop_suffix _ _

theorem decodeErases_append {p rest body : Bytes} (h : decode p [] = .ok ⟨true, rest, body⟩) :
    decodeErases p ++ rest = p := by
  obtain ⟨front, rfl⟩ := decode_suffix h
  simp [decodeErases, h]

/-- What is left of the package is what `Decode` left. -/
theorem calculator_ok {p info rest : Bytes} (h : calculator undef p = .ok (info, rest)) :
    decodeErases p ++ rest = p := by
  unfold calculator at h
  split at h
  · cases h
  · rename_i package content hdec
    have hsame := decode_suffix hdec
    cases h
    simp [decodeErases, hdec] at hsame ⊢
    exact hsame
  · rename_i package content hdec
    have hfront := decodeErases_append hdec
    split at h
    · cases h
    · cases h
      exact hfront
    · split at h <;> cases h
      exact hfront

/-- `Calculator` does not touch `buffer`. -/
theorem calculator_error {p : Bytes} {d : Death} (h : calculator undef p = .error d) :
    d ≠ .bufferOverrun := by
  unfold calculator at h
  split at h
  · cases h
    simp
  · cases h
  split at h
  · cases h
    simp
  · cases h
  split at h
  · rename_i d' hhelper
    cases h
    simp [calculatorHelper_error hhelper]
  · cases h

theorem Intact.read {data : Bytes} (hi : Intact s) (h : step undef s (.read data) = some t) :
    Intact t ↔ Whole s (.read data) := by
  simp only [step] at h
  split at h
  · rename_i hguard
    cases h
    simp only [Intact, Whole, appendRead]
    split
    · rename_i hroom
      rw [← List.append_assoc, hi.2, List.append_right_inj, takeWhile_eq_self]
      simp [hguard.1, hroom]
    · rename_i hroom
      simp [hroom]
  · cases h

theorem Intact.call (hi : Intact s) (h : step undef s .call = some t) : Intact t := by
  simp only [step] at h
  split at h
  · rename_i hguard
    split at h <;> cases h
    · rename_i d hcalc
      exact ⟨by simpa using calculator_error hcalc, hi.2⟩
    · rename_i info package hcalc
      refine ⟨hi.1, ?_⟩
      simp only [List.append_assoc, calculator_ok hcalc]
      exact hi.2
  · cases h

theorem Intact.throughout_iff (hi : Intact s) (as : List Action) :
    (system undef).Throughout Intact s as ↔ (system undef).Admits Whole s as := by
  apply throughout_iff_admits (J := fun _ => True)
  · intros
    trivial
  · intro s a t _ hi hs
    cases a with
    | read data =>
      have hstep : step undef s (.read data) = some t := hs
      exact hi.read hstep
    | call =>
      simp only [Whole, iff_true]
      exact hi.call hs
  · trivial
  · exact hi

theorem intact_init : Intact init := ⟨by simp [init, start], rfl⟩

/-- In a run of reads and calls, what was erased and what is still there make up what was read,
and the terminator stays in `buffer`, exactly if every read is shorter than the buffer and free
of zero bytes. -/
theorem intact_throughout_iff (undef : Undefined) (as : List Action) :
    (system undef).Throughout Intact init as ↔ (system undef).Admits Whole init as :=
  intact_init.throughout_iff as

/-- The first read may already be one that is not whole. -/
theorem not_intact_of_read {data : Bytes} (hpos : 1 ≤ data.length)
    (hle : data.length ≤ sizeofBuffer) (hbad : ¬ Whole init (.read data)) :
    ¬ (system undef).Throughout Intact init [.read data] := by
  intro h
  have hstep : ∃ t, step undef init (.read data) = some t := by
    simp [step, init, start, hpos, hle]
  obtain ⟨t, ht⟩ := hstep
  exact hbad ((Intact.read h.1 ht).mp (h.2 t ht))

/-- A read that fills `buffer`, and one that brings a zero byte. -/
theorem reads_not_intact :
    ¬ (system wrapOrTrap).Throughout Intact init [.read (List.replicate 128 97)] ∧
    ¬ (system wrapOrTrap).Throughout Intact init [.read [49, 0, 50]] := by
  constructor
  · have hlen : (List.replicate 128 (97 : UInt8)).length = sizeofBuffer := List.length_replicate
    apply not_intact_of_read
    · rw [hlen]
      decide
    · rw [hlen]
    · intro h
      exact absurd h.1 (by rw [hlen]; exact Nat.lt_irrefl _)
  · apply not_intact_of_read
    · decide
    · decide
    · intro h
      exact absurd h.2 (by decide)

/-- The inner loop is a row of calls. -/
theorem drain_run {fuel : Nat} {e : Session} (halive : s.session.died = none)
    (hdraining : s.draining = true) (h : drain undef fuel s.session = some e) :
    ∃ k t, (system undef).run s (List.replicate k .call) = some t ∧ t.session = e ∧
      t.received = s.received ∧ (e.died = none → t.draining = false) := by
  induction fuel generalizing s with
  | zero => cases h
  | succ fuel ih =>
    unfold drain at h
    split at h
    · rename_i d hcalc
      cases h
      refine ⟨1, { s with session := { s.session with died := some d } }, ?_, rfl, rfl, by simp⟩
      simp [run, system, step, halive, hdraining, hcalc]
    · rename_i info package hcalc
      have hstep : (system undef).step s .call = some { s with
          session := ⟨package,
            if info.isEmpty then s.session.written else s.session.written ++ [info],
            s.session.died⟩
          erased := s.erased ++ decodeErases s.session.inbufferStream
          draining := !info.isEmpty } := by
        simp [system, step, halive, hdraining, hcalc]
      split at h
      · rename_i hempty
        cases h
        refine ⟨1, _, Option.bind_eq_some_iff.mpr ⟨_, hstep, rfl⟩, ?_, rfl, ?_⟩
        · simp [hempty]
        · simp [hempty]
      · rename_i hinfo
        simp only [hinfo, if_false, Bool.false_eq_true, Bool.not_false] at hstep
        obtain ⟨k, t, hrun, hsession, hsame, hdone⟩ := ih (s := { s with
          session := ⟨package, s.session.written ++ [info], s.session.died⟩
          erased := s.erased ++ decodeErases s.session.inbufferStream
          draining := true }) halive rfl h
        refine ⟨k + 1, t, ?_, hsession, hsame, hdone⟩
        rw [List.replicate_succ]
        exact Option.bind_eq_some_iff.mpr ⟨_, hstep, hrun⟩

/-- What `serve` makes of successive reads is one of these runs. -/
theorem serve_run {fuel : Nat} {e : Session} {reads : List Bytes} (halive : s.session.died = none)
    (hdraining : s.draining = false) (hreads : ∀ d ∈ reads, d.length ≤ sizeofBuffer)
    (h : serve undef fuel s.session reads = some e) :
    ∃ as t, (system undef).run s as = some t ∧ t.session = e ∧
      (∀ d, .read d ∈ as → d ∈ reads) ∧ t.received <+: s.received ++ reads.flatten := by
  induction reads generalizing s with
  | nil =>
    cases h
    exact ⟨[], s, rfl, rfl, by simp, List.prefix_append _ _⟩
  | cons data reads ih =>
    simp only [List.forall_mem_cons] at hreads
    simp only [serve] at h
    split at h
    · cases h
      exact ⟨[], s, rfl, rfl, by simp, List.prefix_append _ _⟩
    · rename_i hne
      have hpos : 1 ≤ data.length := by
        rw [List.isEmpty_iff] at hne
        exact List.length_pos_iff.mpr hne
      have hstep : (system undef).run s [.read data] = some { s with
          session := appendRead data s.session
          received := s.received ++ data
          draining := true } := by
        simp [run, system, step, halive, hdraining, hpos, hreads.1]
      have hfront : s.received ++ data <+: s.received ++ (data :: reads).flatten := by
        rw [List.flatten_cons, ← List.append_assoc]
        exact List.prefix_append _ _
      split at h
      · cases h
        exact ⟨_, _, hstep, rfl, by simp, hfront⟩
      · rename_i hroom
        split at h
        · cases h
        · rename_i drained hdrain
          obtain ⟨k, u, hrun, rfl, hsame, hdone⟩ := drain_run (s := { s with
            session := appendRead data s.session
            received := s.received ++ data
            draining := true }) (by simpa using hroom) rfl hdrain
          split at h
          · cases h
            exact ⟨_, u, run_append hstep hrun, rfl, by simp, hsame ▸ hfront⟩
          · rename_i hlive
            have hnone : u.session.died = none := by simpa using hlive
            obtain ⟨as, t, hrest, hsession, hmem, hprefix⟩ := ih hnone (hdone hnone) hreads.2 h
            refine ⟨_, t, run_append (run_append hstep hrun) hrest, hsession, ?_, ?_⟩
            · intro d hd
              rcases List.mem_append.mp hd with hd | hd
              · simp only [List.cons_append, List.nil_append, List.mem_cons, Action.read.injEq,
                  List.mem_replicate, reduceCtorEq, and_false, or_false] at hd
                exact List.mem_cons.mpr (.inl hd)
              · exact List.mem_cons_of_mem data (hmem d hd)
            · rwa [hsame, List.append_assoc, ← List.flatten_cons] at hprefix

theorem admits_whole {as : List Action}
    (h : ∀ d, .read d ∈ as → d.length < sizeofBuffer ∧ (0 : UInt8) ∉ d) :
    (system undef).Admits Whole s as := by
  induction as generalizing s with
  | nil => trivial
  | cons a as ih =>
    intro t _
    refine ⟨?_, ih fun d hd => h d (List.mem_cons_of_mem a hd)⟩
    cases a with
    | read data => exact h data List.mem_cons_self
    | call => trivial

/-- When `serve` is through with reads that are all whole, the bytes that wait in its stream are
the end of a front of what was read. -/
theorem serve_intact {fuel : Nat} {e : Session} {reads : List Bytes}
    (hreads : ∀ d ∈ reads, d.length < sizeofBuffer ∧ (0 : UInt8) ∉ d)
    (h : serve undef fuel start reads = some e) :
    e.died ≠ some .bufferOverrun ∧
      ∃ erased, erased ++ e.inbufferStream <+: reads.flatten := by
  obtain ⟨as, t, hrun, rfl, hmem, hprefix⟩ := serve_run (s := init) rfl rfl
    (fun d hd => (hreads d hd).1.le) h
  have hintact : Intact t := (intact_init.throughout_iff as).mpr
    (admits_whole fun d hd => hreads d (hmem d hd)) |>.last hrun
  exact ⟨hintact.1, t.erased, hintact.2 ▸ hprefix⟩

end NetBytes
