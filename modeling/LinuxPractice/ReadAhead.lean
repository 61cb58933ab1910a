import Mathlib.Data.List.Infix

/-!
# Reading ahead in a shared file

A reader takes its items one at a time from a buffer, which it fills from a file.
The offset in the file is shared with copies of the reader. One that leaves sets
it back by what its own copy of the buffer still has, and the buffer stays.
-/
namespace ReadAhead

variable {α : Type}

/-- A file, and how much a `read` delivers: something, as long as there is something. -/
structure Source (α : Type) where
  file : List α
  seekable : Bool
  amount : Nat → Nat
  amount_pos : ∀ offset, 0 < amount offset

/-- The shared offset, and what has been read and not taken yet. -/
structure Reader (α : Type) where
  offset : Nat
  buffer : List α
  deriving DecidableEq, Repr

def fresh : Reader α := ⟨0, []⟩

namespace Source

def read (src : Source α) (offset : Nat) : List α :=
  (src.file.drop offset).take (src.amount offset)

/-- A reader with an empty buffer reads. -/
def refill (src : Source α) (r : Reader α) : Reader α :=
  if r.buffer.isEmpty then ⟨r.offset + (src.read r.offset).length, src.read r.offset⟩ else r

/-- What the reader will be given if nobody moves the offset. -/
def unread (src : Source α) (r : Reader α) : List α := r.buffer ++ src.file.drop r.offset

/-- At most `n` items, up to the first `stop`. -/
def upTo [DecidableEq α] (src : Source α) (stop : α) : Nat → Reader α → List α × Reader α
  | 0, r => ([], r)
  | n + 1, r =>
    match (src.refill r).buffer with
    | [] => ([], src.refill r)
    | x :: rest =>
      let r := { src.refill r with buffer := rest }
      if x = stop then ([x], r) else ((x :: (src.upTo stop n r).1), (src.upTo stop n r).2)

/-- A copy of the reader leaves. A file that has no such offset refuses. -/
def setBack (src : Source α) (r : Reader α) : Reader α :=
  if src.seekable ∧ r.buffer.length ≤ r.offset then
    { r with offset := r.offset - r.buffer.length }
  else r

end Source

/-- From `r` to `r'` the reader has taken `taken`, and read `data` from the file. -/
structure Advances (src : Source α) (r : Reader α) (taken data : List α) (r' : Reader α) : Prop where
  moved : r.buffer ++ data = taken ++ r'.buffer
  next : data <+: src.file.drop r.offset
  offset : r'.offset = r.offset + data.length

variable {src : Source α} {r r' r'' : Reader α} {taken taken' data data' : List α}

theorem Advances.refl (src : Source α) (r : Reader α) : Advances src r [] [] r :=
  ⟨List.append_nil _, List.nil_prefix, rfl⟩

theorem Advances.trans (h : Advances src r taken data r')
    (h' : Advances src r' taken' data' r'') :
    Advances src r (taken ++ taken') (data ++ data') r'' := by
  obtain ⟨rest, hrest⟩ := h.next
  have hdrop : src.file.drop r'.offset = rest := by
    rw [h.offset, ← List.drop_drop, ← hrest, List.drop_left]
  refine ⟨?_, ?_, ?_⟩
  · rw [← List.append_assoc, h.moved, List.append_assoc, h'.moved, List.append_assoc]
  · rw [← hrest, List.prefix_append_right_inj, ← hdrop]
    exact h'.next
  · rw [h'.offset, h.offset, List.length_append, Nat.add_assoc]

/-- What is taken was unread. -/
theorem Advances.unread (h : Advances src r taken data r') :
    src.unread r = taken ++ src.unread r' := by
  obtain ⟨rest, hrest⟩ := h.next
  have hdrop : src.file.drop r'.offset = rest := by
    rw [h.offset, ← List.drop_drop, ← hrest, List.drop_left]
  rw [Source.unread, Source.unread, hdrop, ← hrest, ← List.append_assoc, h.moved,
    List.append_assoc]

theorem advances_refill (src : Source α) (r : Reader α) :
    ∃ data, Advances src r [] data (src.refill r) := by
  unfold Source.refill
  split
  · rename_i hempty
    refine ⟨src.read r.offset, ?_, List.take_prefix _ _, rfl⟩
    rw [List.isEmpty_iff.mp hempty]
  · exact ⟨[], Advances.refl src r⟩

/-- A buffer stays empty only at the end of the file. -/
theorem refill_empty (h : (src.refill r).buffer = []) :
    r.buffer = [] ∧ src.file.drop r.offset = [] ∧ src.refill r = r := by
  unfold Source.refill at h ⊢
  split at h
  · rename_i hempty
    have hpos := src.amount_pos r.offset
    have hnil : r.buffer = [] := List.isEmpty_iff.mp hempty
    rw [Source.read, List.take_eq_nil_iff] at h
    have hend : src.file.drop r.offset = [] := h.resolve_left (by omega)
    refine ⟨hnil, hend, ?_⟩
    rw [if_pos hempty, Source.read, hend, List.take_nil]
    cases r
    simpa using hnil
  · rename_i hempty
    exact absurd h (by simpa using hempty)

/-- A call takes the items up to the first `stop`, or else as many as it may or as there are. -/
theorem upTo_spec [DecidableEq α] (src : Source α) (stop : α) (n : Nat) (r : Reader α) :
    (∃ data, Advances src r (src.upTo stop n r).1 data (src.upTo stop n r).2) ∧
      ((∃ l, (src.upTo stop n r).1 = l ++ [stop] ∧ stop ∉ l ∧ l.length < n) ∨
        stop ∉ (src.upTo stop n r).1 ∧
          ((src.upTo stop n r).1.length = n ∨
            src.unread (src.upTo stop n r).2 = [] ∧ (src.upTo stop n r).1.length ≤ n)) := by
  induction n generalizing r with
  | zero => exact ⟨⟨[], Advances.refl src r⟩, .inr ⟨List.not_mem_nil, .inl rfl⟩⟩
  | succ n ih =>
    obtain ⟨data, hfill⟩ := advances_refill src r
    rw [Source.upTo]
    cases hbuf : (src.refill r).buffer with
    | nil =>
      obtain ⟨hnil, hend, -⟩ := refill_empty hbuf
      have hunread : src.unread (src.refill r) = [] := by
        have h := hfill.unread
        rw [Source.unread, hnil, hend] at h
        simpa using h.symm
      exact ⟨⟨data, hfill⟩, .inr ⟨List.not_mem_nil, .inr ⟨hunread, Nat.zero_le _⟩⟩⟩
    | cons x rest =>
      have htake : Advances src (src.refill r) [x] [] { src.refill r with buffer := rest } :=
        ⟨by rw [hbuf, List.append_nil]; rfl, List.nil_prefix, rfl⟩
      have hfirst := hfill.trans htake
      dsimp only
      by_cases hx : x = stop
      · rw [if_pos hx]
        exact ⟨⟨_, hfirst⟩, .inl ⟨[], by rw [hx]; rfl, List.not_mem_nil, n.succ_pos⟩⟩
      · obtain ⟨⟨data', hrest⟩, hstop⟩ := ih { src.refill r with buffer := rest }
        rw [if_neg hx]
        refine ⟨⟨_, hfirst.trans hrest⟩, ?_⟩
        rcases hstop with ⟨l, hl, hmem, hlen⟩ | ⟨hmem, hlen⟩
        · refine .inl ⟨x :: l, by rw [hl]; rfl, ?_, Nat.succ_lt_succ hlen⟩
          simp [Ne.symm hx, hmem]
        · refine .inr ⟨by simp [Ne.symm hx, hmem], ?_⟩
          simpa using hlen

/-- What a reader has been given in all, and what its buffer still has. -/
structure Feeds (src : Source α) (given : List α) (r : Reader α) : Prop where
  le : r.offset ≤ src.file.length
  sub : r.buffer ⊆ src.file
  last : r.offset = src.file.length → (given ++ r.buffer).getLast? = src.file.getLast?

/-- Nobody has moved the offset. -/
def Straight (src : Source α) (given : List α) (r : Reader α) : Prop :=
  given ++ r.buffer = src.file.take r.offset

/-- Something of the file has been read more than once. -/
def Twice (given : List α) (r : Reader α) : Prop := r.offset < (given ++ r.buffer).length

variable {given : List α}

theorem feeds_fresh (src : Source α) : Feeds src [] fresh :=
  ⟨Nat.zero_le _, List.nil_subset _, fun h => by
    rw [List.eq_nil_of_length_eq_zero h.symm]
    rfl⟩

theorem straight_fresh (src : Source α) : Straight src [] fresh := rfl

theorem Feeds.advance (h : Feeds src given r) (ha : Advances src r taken data r') :
    Feeds src (given ++ taken) r' := by
  have hall : given ++ taken ++ r'.buffer = given ++ r.buffer ++ data := by
    rw [List.append_assoc, ← ha.moved, List.append_assoc]
  have hle := ha.next.length_le
  have hle' := h.le
  rw [List.length_drop] at hle
  refine ⟨?_, ?_, ?_⟩
  · rw [ha.offset]
    omega
  · intro b hb
    have hmem : b ∈ r.buffer ++ data := ha.moved ▸ List.mem_append_right taken hb
    rcases List.mem_append.mp hmem with hold | hnew
    · exact h.sub hold
    · exact List.mem_of_mem_drop (ha.next.subset hnew)
  · intro hend
    rw [hall]
    rw [ha.offset] at hend
    by_cases hnil : data = []
    · subst hnil
      rw [List.append_nil]
      exact h.last hend
    · -- all of the rest of the file was read
      have hrest : src.file.drop r.offset = data := by
        refine (ha.next.eq_of_length ?_).symm
        rw [List.length_drop]
        omega
      rw [List.getLast?_append_of_ne_nil _ hnil, ← List.take_append_drop r.offset src.file, hrest,
        List.getLast?_append_of_ne_nil _ hnil]

theorem Feeds.taken_subset (h : Feeds src given r) (ha : Advances src r taken data r') :
    taken ⊆ src.file := by
  intro b hb
  have hunread : b ∈ src.unread r := ha.unread ▸ List.mem_append_left _ hb
  rcases List.mem_append.mp hunread with hold | hnew
  · exact h.sub hold
  · exact List.mem_of_mem_drop hnew

/-- When nothing is left to read, the end of the file has been given, and all of it if nobody has
moved the offset. -/
theorem Feeds.at_end (h : Feeds src given r) (hend : src.unread r = []) :
    given.getLast? = src.file.getLast? ∧ (Twice given r → src.file.length < given.length) ∧
      (Straight src given r → given = src.file) := by
  rw [Source.unread, List.append_eq_nil_iff, List.drop_eq_nil_iff] at hend
  obtain ⟨hbuf, hoff⟩ := hend
  have hoff : r.offset = src.file.length := le_antisymm h.le hoff
  have hlast := h.last hoff
  rw [hbuf, List.append_nil] at hlast
  refine ⟨hlast, fun htwice => ?_, fun hstraight => ?_⟩
  · rwa [Twice, hbuf, List.append_nil, hoff] at htwice
  · rwa [Straight, hbuf, List.append_nil, hoff, List.take_length] at hstraight

theorem Straight.advance (h : Straight src given r) (ha : Advances src r taken data r') :
    Straight src (given ++ taken) r' := by
  obtain ⟨rest, hrest⟩ := ha.next
  rw [Straight, List.append_assoc, ← ha.moved, ← List.append_assoc, h, ha.offset, List.take_add,
    ← hrest, List.take_left]

theorem Twice.advance (h : Twice given r) (ha : Advances src r taken data r') :
    Twice (given ++ taken) r' := by
  have hlen := congrArg List.length ha.moved
  simp only [Twice, List.length_append] at h hlen ⊢
  rw [ha.offset]
  omega

theorem setBack_of_empty (src : Source α) (h : r.buffer = []) : src.setBack r = r := by
  cases r
  subst h
  simp [Source.setBack]

/-- Only a file with offsets and a buffer that is not empty make a difference. -/
theorem setBack_eq_self (h : src.seekable → r.buffer = []) : src.setBack r = r := by
  cases hseek : src.seekable with
  | false => simp [Source.setBack, hseek]
  | true => exact setBack_of_empty src (h hseek)

theorem Feeds.setBack (h : Feeds src given r) : Feeds src given (src.setBack r) := by
  by_cases hnil : r.buffer = []
  · rwa [setBack_of_empty src hnil]
  · unfold Source.setBack
    split
    · have hpos := List.length_pos_iff.mpr hnil
      have hle := h.le
      refine ⟨?_, h.sub, fun hend => ?_⟩
      · dsimp only
        omega
      · dsimp only at hend
        omega
    · exact h

theorem Twice.setBack (src : Source α) (h : Twice given r) : Twice given (src.setBack r) := by
  unfold Source.setBack
  split
  · exact (Nat.sub_le _ _).trans_lt h
  · exact h

/-- The first time that the offset is set back, the buffer is read again. -/
theorem Straight.setBack (h : Straight src given r) (hle : r.offset ≤ src.file.length)
    (hseek : src.seekable) (hbuf : r.buffer ≠ []) : Twice given (src.setBack r) := by
  have hlen := congrArg List.length h
  have hpos := List.length_pos_iff.mpr hbuf
  rw [List.length_append, List.length_take, Nat.min_eq_left hle] at hlen
  have hfits : src.seekable ∧ r.buffer.length ≤ r.offset := ⟨hseek, by omega⟩
  rw [Source.setBack, if_pos hfits, Twice, List.length_append]
  dsimp only
  omega

end ReadAhead
