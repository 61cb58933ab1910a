import LinuxPractice.RingQueueSafety

/-!
# RingQueue is a bounded FIFO

`written` and `read` are the values stored and fetched so far, in the order of
the slot accesses. What was written and not yet read is still in its slot.
-/
namespace RingQueue

open Transition Transition.System Threads

variable {P C T : Type} [DecidableEq P] [DecidableEq C] [Fintype P] [Fintype C]
  {cap W R : Nat} {s t : State P C T} {written read : List T}

/-- `Tokens` with the history; an access comes one step before its index moves. -/
structure Fifo (cap : Nat) (s : State P C T) (written read : List T) (W R : Nat) : Prop
    extends Tokens cap s W R where
  written_length : written.length = W + count PushPc.advancing s.producer
  read_length : read.length = R + count PopPc.advancing s.consumer
  order : read <+: written
  kept : Ring.Stores s.ringqueue written read.length

omit [DecidableEq P] [DecidableEq C] in
theorem fifo_init (cap : Nat) (default : T) : Fifo cap (init P C cap default) [] [] 0 0 where
  toTokens := tokens_init cap default
  written_length := by
    rw [count_eq_zero fun _ => rfl]
    rfl
  read_length := by
    rw [count_eq_zero fun _ => rfl]
    rfl
  order := List.prefix_rfl
  kept := Ring.stores_nil _ _

omit [DecidableEq C] [Fintype C] in
theorem stepPush_slots {p : P} {input : T} (h : stepPush cap s p input = some t) :
    t.consumer = s.consumer ∧
    t.ringqueue = (s.producer p).writing.elim s.ringqueue (s.ringqueue.set s.pStep) ∧
    count PushPc.advancing t.producer + (s.producer p).advancing.toNat =
      count PushPc.advancing s.producer + (s.producer p).writing.isSome.toNat := by
  have hmove := fun k' => count_move PushPc.advancing (rfl : s.producer p = s.producer p) k'
  cases hpc : s.producer p with
  | wait =>
    simp only [stepPush, hpc] at h hmove
    split at h <;> cases h
    exact ⟨rfl, rfl, hmove _⟩
  | lock v =>
    simp only [stepPush, hpc] at h hmove
    split at h <;> cases h
    exact ⟨rfl, rfl, hmove _⟩
  | write v | advance | unlock | post =>
    simp only [stepPush, hpc] at h hmove
    cases h
    exact ⟨rfl, rfl, hmove _⟩

omit [DecidableEq P] [Fintype P] in
theorem stepPop_slots {c : C} (h : stepPop cap s c = some t) :
    t.producer = s.producer ∧ t.ringqueue = s.ringqueue ∧
    count PopPc.advancing t.consumer + (s.consumer c).advancing.toNat =
      count PopPc.advancing s.consumer + (s.consumer c).reading.toNat := by
  have hmove := fun k' => count_move PopPc.advancing (rfl : s.consumer c = s.consumer c) k'
  cases hpc : s.consumer c with
  | wait =>
    simp only [stepPop, hpc] at h hmove
    split at h <;> cases h
    exact ⟨rfl, rfl, hmove _⟩
  | lock =>
    simp only [stepPop, hpc] at h hmove
    split at h <;> cases h
    exact ⟨rfl, rfl, hmove _⟩
  | read | advance | unlock | post =>
    simp only [stepPop, hpc] at h hmove
    cases h
    exact ⟨rfl, rfl, hmove _⟩

omit [DecidableEq P] [DecidableEq C] in
/-- The slot a producer writes next is the one behind everything written, and it is free. -/
theorem Fifo.at_write (hi : Fifo cap s written read W R) {p : P} {v : T}
    (hp : s.producer p = .write v) :
    written.length = W ∧ s.pStep = written.length % s.ringqueue.length ∧
      written.length < read.length + s.ringqueue.length := by
  have hnone : count PushPc.advancing s.producer = 0 := by
    apply hi.producers.count_eq_zero Function.injective_id (t := p)
    · exact fun _ => PushPc.holds_of_advancing
    · simp [hp]
    · simp [hp]
  have hroom := hi.room (p := p) (by simp [hp])
  have hw := hi.written_length
  have hr := hi.read_length
  rw [hnone, Nat.add_zero] at hw
  refine ⟨hw, ?_, ?_⟩
  · rw [hw, hi.size, hi.pStep]
  · rw [hi.size]
    omega

omit [DecidableEq P] [DecidableEq C] in
/-- The slot a consumer reads next holds the oldest value not read. -/
theorem Fifo.at_read (hi : Fifo cap s written read W R) {c : C} (hc : s.consumer c = .read) :
    ∃ hlt : read.length < written.length, s.ringqueue[s.cStep]? = some written[read.length] := by
  have hnone : count PopPc.advancing s.consumer = 0 := by
    apply hi.consumers.count_eq_zero Function.injective_id (t := c)
    · exact fun _ => PopPc.holds_of_advancing
    · simp [hc]
    · simp [hc]
  have havail := hi.available (c := c) (by simp [hc])
  have hw := hi.written_length
  have hr := hi.read_length
  rw [hnone, Nat.add_zero] at hr
  have hlt : read.length < written.length := by omega
  refine ⟨hlt, ?_⟩
  have hslot : s.cStep = read.length % s.ringqueue.length := by rw [hr, hi.size, hi.cStep]
  rw [hslot]
  exact hi.kept.read hlt

omit [DecidableEq C] in
theorem Fifo.stepPush {p : P} {input : T} {log : List (Event T)}
    (hi : Fifo cap s (wrotes log) read W R) (h : stepPush cap s p input = some t) :
    Fifo cap t (wrotes (log ++ (event s (.push p input)).toList)) read
      (W + (s.producer p).advancing.toNat) R := by
  obtain ⟨hcons, hring, hcount⟩ := stepPush_slots h
  have htokens := hi.toTokens.stepPush h
  have hlen := hi.written_length
  cases hpc : s.producer p with
  | write v =>
    obtain ⟨hW, hslot, hroom⟩ := hi.at_write hpc
    simp [hpc] at hring hcount
    simp only [hpc] at htokens
    simp only [event, hpc, PushPc.writing, Option.map_some, Option.toList_some, wrotes_wrote]
    refine { htokens with written_length := ?_, read_length := ?_, order := ?_, kept := ?_ }
    · simp
      omega
    · rw [hcons]
      exact hi.read_length
    · exact hi.order.trans (List.prefix_append _ _)
    · rw [hring, hslot]
      exact hi.kept.push hroom v
  | wait | lock v | advance | unlock | post =>
    simp [hpc] at hring hcount
    simp only [hpc] at htokens
    simp only [event, hpc, PushPc.writing, Option.map_none, Option.toList_none, List.append_nil]
    refine { htokens with written_length := ?_, read_length := ?_, order := hi.order, kept := ?_ }
    · simp
      omega
    · rw [hcons]
      exact hi.read_length
    · rw [hring]
      exact hi.kept

omit [DecidableEq P] in
theorem Fifo.stepPop {c : C} {log : List (Event T)} (hgots : gots log = read.map some)
    (hi : Fifo cap s (wrotes log) read W R) (h : stepPop cap s c = some t) :
    ∃ read', gots (log ++ (event s (.pop c)).toList) = read'.map some ∧
      Fifo cap t (wrotes (log ++ (event s (.pop c)).toList)) read' W
        (R + (s.consumer c).advancing.toNat) := by
  obtain ⟨hprod, hring, hcount⟩ := stepPop_slots h
  have htokens := hi.toTokens.stepPop h
  have hlen := hi.read_length
  have hwritten : (wrotes log).length = W + count PushPc.advancing t.producer := by
    rw [hprod]
    exact hi.written_length
  cases hpc : s.consumer c with
  | read =>
    obtain ⟨hlt, hget⟩ := hi.at_read hpc
    simp [hpc] at hcount
    simp only [hpc] at htokens
    simp only [event, hpc, PopPc.reading, hget, if_true, Option.toList_some, gots_got, wrotes_got]
    -- the value fetched is the next one of what was written
    have htake : read ++ [(wrotes log)[read.length]] = (wrotes log).take (read.length + 1) := by
      have htaken := List.prefix_iff_eq_take.mp hi.order
      calc read ++ [(wrotes log)[read.length]]
          = (wrotes log).take read.length ++ [(wrotes log)[read.length]] := by rw [← htaken]
        _ = (wrotes log).take (read.length + 1) := List.take_append_getElem hlt
    refine ⟨read ++ [(wrotes log)[read.length]], by simp [hgots], ?_⟩
    refine { htokens with
      written_length := hwritten, read_length := ?_, order := ?_, kept := ?_ }
    · simp
      omega
    · rw [htake]
      exact List.take_prefix _ _
    · rw [hring]
      exact hi.kept.mono (by simp)
  | wait | lock | advance | unlock | post =>
    simp [hpc] at hcount
    simp only [hpc] at htokens
    simp only [event, hpc, PopPc.reading, Bool.false_eq_true, if_false, Option.toList_none,
      List.append_nil]
    refine ⟨read, hgots, ?_⟩
    refine { htokens with
      written_length := hwritten, read_length := ?_, order := hi.order, kept := ?_ }
    · simp
      omega
    · rw [hring]
      exact hi.kept

omit [DecidableEq P] [DecidableEq C] in
theorem Fifo.bounded (hi : Fifo cap s written read W R) : written.length ≤ read.length + cap := by
  have hspace := hi.space
  have hw := hi.written_length
  have hr := hi.read_length
  have hle : count PushPc.advancing s.producer ≤ count PushPc.early s.producer :=
    count_le (fun _ => PushPc.early_of_advancing) s.producer
  omega

/-- In every run the values fetched by `Pop` are, in order, the first of the
values stored by `Push`, and at most `cap` of these wait to be fetched. -/
theorem pops_follow_pushes (default : T) {log : List (Event T)}
    (h : ((system P C cap default).logged event).Reachable anyStep (s, log)) :
    gots log <+: (wrotes log).map some ∧ (wrotes log).length ≤ (gots log).length + cap := by
  have hinv : ∃ read W R, gots log = read.map some ∧ Fifo cap s (wrotes log) read W R := by
    refine logged_invariant (I := fun s log => ∃ read W R, gots log = read.map some ∧
      Fifo cap s (wrotes log) read W R) h ⟨[], 0, 0, rfl, fifo_init cap default⟩ ?_
    intro s a t log hi hs
    obtain ⟨read, W, R, hgots, hi⟩ := hi
    cases a with
    | push p v =>
      refine ⟨read, _, _, ?_, hi.stepPush hs⟩
      rw [← hgots]
      cases hpc : s.producer p <;> simp [event, hpc]
    | pop c =>
      obtain ⟨read', hgots', hi'⟩ := hi.stepPop hgots hs
      exact ⟨read', _, _, hgots', hi'⟩
  obtain ⟨read, W, R, hgots, hi⟩ := hinv
  rw [hgots, List.length_map]
  exact ⟨hi.order.map some, hi.bounded⟩

/-- A ring of one slot goes round twice. -/
def roundRun : List (Action Unit Bool Nat) :=
  List.replicate 6 (Action.push () 7) ++ List.replicate 6 (Action.pop false) ++
    List.replicate 6 (Action.push () 8) ++ List.replicate 6 (Action.pop true) ++
    List.replicate 4 (Action.push () 9)

def roundEnd : State Unit Bool Nat × List (Event Nat) :=
  (((system Unit Bool 1 0).logged event).run (init Unit Bool 1 0, []) roundRun).get
    (by decide)

theorem pops_follow_pushes_round :
    wrotes roundEnd.2 = [7, 8, 9] ∧ gots roundEnd.2 = [some 7, some 8] ∧
      gots roundEnd.2 <+: (wrotes roundEnd.2).map some ∧
      (wrotes roundEnd.2).length ≤ (gots roundEnd.2).length + 1 := by
  have hreach : ((system Unit Bool 1 0).logged event).Reachable anyStep roundEnd :=
    reachable_of_run _
  exact ⟨by decide, by decide, pops_follow_pushes 0 hreach⟩

end RingQueue
