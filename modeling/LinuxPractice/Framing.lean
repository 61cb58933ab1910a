import Mathlib

/-!
# Streams of frames cut at arbitrary places

`enc` writes one frame. A receiver sees a growing prefix of a stream of frames;
the lemmas say which frames such a prefix holds and what is left of the next
one, with no assumption on where the stream is cut.
-/
namespace Framing

variable {σ γ : Type}

def stream (enc : γ → List σ) (cs : List γ) : List σ := cs.flatMap enc

@[simp] theorem stream_nil (enc : γ → List σ) : stream enc [] = [] := rfl
@[simp] theorem stream_cons (enc : γ → List σ) (c : γ) (cs : List γ) :
    stream enc (c :: cs) = enc c ++ stream enc cs := rfl
@[simp] theorem stream_append (enc : γ → List σ) (cs ds : List γ) :
    stream enc (cs ++ ds) = stream enc cs ++ stream enc ds := by
  simp [stream]

theorem not_mem_stream {enc : γ → List σ} {cs : List γ} {x : σ} (h : ∀ c ∈ cs, x ∉ enc c) :
    x ∉ stream enc cs := by
  induction cs with
  | nil => simp
  | cons c cs ih =>
    rw [List.forall_mem_cons] at h
    rw [stream_cons, List.mem_append, not_or]
    exact ⟨h.1, ih h.2⟩

/-- No frame is empty and none is the beginning of another one. -/
structure PrefixCode (enc : γ → List σ) : Prop where
  nonempty : ∀ c, enc c ≠ []
  prefixFree : ∀ c d, enc c <+: enc d → c = d

/-- `q` is the strict beginning of the first frame still to come. -/
def Incomplete (enc : γ → List σ) : List γ → List σ → Prop
  | [], q => q = []
  | c :: _, q => q <+: enc c ∧ q ≠ enc c

/-- The frames that lie wholly inside the first `n` symbols of the stream. -/
def arrived (enc : γ → List σ) : List γ → Nat → List γ
  | [], _ => []
  | c :: cs, n => if (enc c).length ≤ n then c :: arrived enc cs (n - (enc c).length) else []

theorem length_lt_of_incomplete {enc : γ → List σ} {c : γ} {cs : List γ} {q : List σ}
    (h : Incomplete enc (c :: cs) q) : q.length < (enc c).length := by
  rcases Nat.lt_or_ge q.length (enc c).length with hlt | hge
  · exact hlt
  · exact absurd (h.1.eq_of_length_le hge) h.2

/-- Every prefix of a stream is some whole frames and an incomplete rest. -/
theorem exists_split {enc : γ → List σ} {cs : List γ} {w : List σ} (h : w <+: stream enc cs) :
    ∃ ds rest q, cs = ds ++ rest ∧ w = stream enc ds ++ q ∧ Incomplete enc rest q := by
  induction cs generalizing w with
  | nil => exact ⟨[], [], w, rfl, rfl, List.prefix_nil.mp h⟩
  | cons c cs ih =>
    by_cases hc : enc c <+: w
    · obtain ⟨v, rfl⟩ := hc
      have hv : v <+: stream enc cs := (List.prefix_append_right_inj _).mp h
      obtain ⟨ds, rest, q, rfl, rfl, hq⟩ := ih hv
      exact ⟨c :: ds, rest, q, rfl, by simp, hq⟩
    · have hw : w <+: enc c := by
        rcases List.prefix_or_prefix_of_prefix h (List.prefix_append (enc c) _) with hw | hw
        · exact hw
        · exact absurd hw hc
      refine ⟨[], c :: cs, w, rfl, rfl, hw, ?_⟩
      rintro rfl
      exact hc List.prefix_rfl

theorem arrived_append (enc : γ → List σ) (ds rest : List γ) (n : Nat) :
    arrived enc (ds ++ rest) ((stream enc ds).length + n) = ds ++ arrived enc rest n := by
  induction ds generalizing n with
  | nil => simp
  | cons d ds ih =>
    have hn : (stream enc (d :: ds)).length + n - (enc d).length = (stream enc ds).length + n := by
      simp only [stream_cons, List.length_append]
      omega
    have hle : (enc d).length ≤ (stream enc (d :: ds)).length + n := by
      simp only [stream_cons, List.length_append]
      omega
    simp only [List.cons_append, arrived, hle, ↓reduceIte, hn, ih]

theorem arrived_incomplete {enc : γ → List σ} {rest : List γ} {q : List σ}
    (h : Incomplete enc rest q) : arrived enc rest q.length = [] := by
  cases rest with
  | nil => rfl
  | cons c rest => simp [arrived, Nat.not_le.mpr (length_lt_of_incomplete h)]

theorem not_prefix_of_incomplete {enc : γ → List σ} (hp : PrefixCode enc) {rest : List γ}
    {q : List σ} (h : Incomplete enc rest q) (c : γ) : ¬ enc c <+: q := by
  intro hc
  cases rest with
  | nil => exact hp.nonempty c (List.prefix_nil.mp (h ▸ hc))
  | cons d rest =>
    obtain rfl := hp.prefixFree c d (hc.trans h.1)
    exact absurd hc.length_le (Nat.not_le.mpr (length_lt_of_incomplete h))

theorem incomplete_nil {enc : γ → List σ} (hp : PrefixCode enc) (cs : List γ) :
    Incomplete enc cs [] := by
  cases cs with
  | nil => rfl
  | cons c cs => exact ⟨List.nil_prefix, (hp.nonempty c).symm⟩

/-- A whole stream leaves nothing to wait for. -/
theorem eq_nil_of_incomplete {enc : γ → List σ} {rest : List γ} {q : List σ}
    (h : Incomplete enc rest q) (hq : q = stream enc rest) : rest = [] ∧ q = [] := by
  cases rest with
  | nil => exact ⟨rfl, h⟩
  | cons c rest =>
    have hlt := length_lt_of_incomplete h
    rw [hq, stream_cons, List.length_append] at hlt
    omega

section Collisions

variable (enc : γ → List σ) (silent dead : γ → Prop)

/-- A silent frame, after which the receiver stops looking at its buffer, with another frame behind
it, before any dead one, which ends the receiver. -/
def Clash (es : List γ) : Prop :=
  ∃ xs b c ys, es = xs ++ b :: c :: ys ∧ (∀ x ∈ xs, ¬ dead x) ∧ silent b

/-- With `n` symbols of the stream received, some later read delivers both the
last symbol of a silent frame and the last symbol of the frame after it. -/
def Collides (n : Nat) (cs : List γ) (reads : List (List σ)) : Prop :=
  ∃ xs b c ys r d r', cs = xs ++ b :: c :: ys ∧ (∀ x ∈ xs, ¬ dead x) ∧ silent b ∧
    reads = r ++ d :: r' ∧ n + r.flatten.length < (stream enc (xs ++ [b])).length ∧
    (stream enc (xs ++ [b, c])).length ≤ n + (r ++ [d]).flatten.length

theorem length_stream_le {ds es : List γ} (h : ds <+: es) :
    (stream enc ds).length ≤ (stream enc es).length := by
  obtain ⟨t, rfl⟩ := h
  simp

variable {enc} in
/-- Frames inside what has been received lie among those that have arrived. -/
theorem prefix_of_length_le {es rest ds : List γ} {q : List σ} (hq : Incomplete enc rest q)
    (hd : ds <+: es ++ rest) (hlen : (stream enc ds).length ≤ (stream enc es).length + q.length) :
    ds <+: es := by
  rcases List.prefix_or_prefix_of_prefix hd (List.prefix_append es rest) with h | ⟨t, rfl⟩
  · exact h
  · cases t with
    | nil => simp
    | cons c t =>
      have ht : c :: t <+: rest := (List.prefix_append_right_inj _).mp hd
      obtain ⟨u, rfl⟩ := ht
      have hc : q.length < (enc c).length := length_lt_of_incomplete hq
      simp only [stream_append, stream_cons, List.length_append] at hlen
      omega

/-- A frame that ends beyond the arrived ones starts behind them. -/
theorem prefix_of_length_lt {es rest xs ys : List γ} {b : γ} {n : Nat}
    (he : es ++ rest = xs ++ b :: ys)
    (hlen : (stream enc es).length + n < (stream enc (xs ++ [b])).length) : es <+: xs := by
  have h₁ : es <+: xs ++ b :: ys := he ▸ List.prefix_append es rest
  have h₂ : xs ++ [b] <+: xs ++ b :: ys := by simp
  rcases List.prefix_or_prefix_of_prefix h₁ h₂ with h | h
  · rcases List.prefix_concat_iff.mp h with h | h
    · exact absurd hlen (by rw [h]; omega)
    · exact h
  · have := length_stream_le enc h
    omega

variable {enc silent dead}

theorem length_of_cut {q q' d : List σ} {es : List γ} (hd : q ++ d = stream enc es ++ q') :
    q.length + d.length = (stream enc es).length + q'.length := by
  rw [← List.length_append, hd, List.length_append]

/-- A clash inside the frames `es` that the first read completes. -/
theorem Clash.collides {q q' d : List σ} {es rest : List γ} {reads : List (List σ)}
    (hq : Incomplete enc (es ++ rest) q) (hd : q ++ d = stream enc es ++ q')
    (h : Clash silent dead es) : Collides enc silent dead q.length (es ++ rest) (d :: reads) := by
  have hlen := length_of_cut hd
  obtain ⟨xs, b, c, ys, rfl, hx, hb⟩ := h
  refine ⟨xs, b, c, ys ++ rest, [], d, reads, by simp, hx, hb, rfl, ?_, ?_⟩
  · -- the first frame of `es` was still incomplete before this read
    cases xs with
    | nil =>
      have := length_lt_of_incomplete hq
      simpa using this
    | cons x xs =>
      have := length_lt_of_incomplete hq
      simp only [List.flatten_nil, List.length_nil, stream_append, stream_cons,
        List.cons_append, List.length_append]
      omega
  · simp only [List.nil_append, List.flatten_cons, List.flatten_nil, List.append_nil, hlen,
      stream_append, stream_cons, stream_nil, List.length_append]
    omega

/-- A collision in the reads that follow. -/
theorem Collides.cons {q q' d : List σ} {es rest : List γ} {reads : List (List σ)}
    (hd : q ++ d = stream enc es ++ q') (hx : ∀ x ∈ es, ¬ dead x)
    (h : Collides enc silent dead q'.length rest reads) :
    Collides enc silent dead q.length (es ++ rest) (d :: reads) := by
  have hlen := length_of_cut hd
  obtain ⟨t, b, c, ys, r, e, r', rfl, ht, hb, rfl, hlt, hle⟩ := h
  refine ⟨es ++ t, b, c, ys, d :: r, e, r', by simp, ?_, hb, by simp, ?_, ?_⟩
  · intro x hx'
    rcases List.mem_append.mp hx' with h | h
    · exact hx x h
    · exact ht x h
  · simp only [stream_append, List.length_append, List.flatten_cons] at hlt ⊢
    omega
  · simp only [stream_append, List.length_append, List.flatten_cons, List.cons_append] at hle ⊢
    omega

/-- Reading `d` completes the frames `es` and leaves `q'` of the next one: a
collision is a clash inside `es` or one in what follows. -/
theorem collides_cons {q q' d : List σ} {es rest : List γ} {reads : List (List σ)}
    (hq : Incomplete enc (es ++ rest) q) (hq' : Incomplete enc rest q')
    (hd : q ++ d = stream enc es ++ q') :
    Collides enc silent dead q.length (es ++ rest) (d :: reads) ↔
      Clash silent dead es ∨
        (∀ x ∈ es, ¬ dead x) ∧ Collides enc silent dead q'.length rest reads := by
  have hlen := length_of_cut hd
  constructor
  · rintro ⟨xs, b, c, ys, r, e, r', he, hx, hb, hr, hlt, hle⟩
    cases r with
    | nil =>
      left
      simp only [List.nil_append, List.cons.injEq] at hr
      obtain ⟨rfl, rfl⟩ := hr
      simp only [List.nil_append, List.flatten_cons, List.flatten_nil, List.append_nil,
        hlen] at hle
      have hpre : xs ++ [b, c] <+: es := prefix_of_length_le hq' ⟨ys, by simp [he]⟩ hle
      obtain ⟨t, ht⟩ := hpre
      exact ⟨xs, b, c, t, by simp [← ht], hx, hb⟩
    | cons d₀ r =>
      right
      simp only [List.cons_append, List.cons.injEq] at hr
      obtain ⟨rfl, rfl⟩ := hr
      simp only [List.cons_append, List.flatten_cons, List.length_append, ← Nat.add_assoc,
        hlen] at hlt hle
      obtain ⟨t, rfl⟩ := prefix_of_length_lt enc (n := q'.length + r.flatten.length) he
        (by omega)
      have hrest : rest = t ++ b :: c :: ys := by simpa using he
      refine ⟨fun x hx' => hx x (by simp [hx']), t, b, c, ys, r, e, r', hrest,
        fun x hx' => hx x (by simp [hx']), hb, rfl, ?_, ?_⟩
      · simp only [stream_append, List.length_append] at hlt ⊢
        omega
      · simp only [stream_append, List.length_append] at hle ⊢
        omega
  · intro h
    cases h with
    | inl hclash => exact hclash.collides hq hd
    | inr hlater => exact hlater.2.cons hd hlater.1

theorem not_collides_nil (n : Nat) (cs : List γ) : ¬ Collides enc silent dead n cs [] := by
  rintro ⟨xs, b, c, ys, r, d, r', _, _, _, hr, _⟩
  simp at hr

end Collisions

end Framing
