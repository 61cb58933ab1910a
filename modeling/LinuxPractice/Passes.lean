import Mathlib

/-!
# Passes over a list of places

A loop that visits place after place while the visits change the state. Each
visit makes calls, and they are recorded in their order.
-/
namespace Passes

variable {σ ι κ : Type} {visit : σ → ι → Option (σ × List κ)}

def scan (visit : σ → ι → Option (σ × List κ)) : σ → List ι → Option (σ × List κ)
  | s, [] => some (s, [])
  | s, i :: is => do
    let (t, calls) ← visit s i
    let (u, rest) ← scan visit t is
    return (u, calls ++ rest)

theorem scan_cons {s u : σ} {i : ι} {is : List ι} {calls : List κ} :
    scan visit s (i :: is) = some (u, calls) ↔ ∃ t first rest, visit s i = some (t, first) ∧
      scan visit t is = some (u, rest) ∧ calls = first ++ rest := by
  constructor
  · intro h
    obtain ⟨⟨t, first⟩, hvisit, h⟩ := Option.bind_eq_some_iff.mp h
    obtain ⟨⟨v, rest⟩, hscan, h⟩ := Option.bind_eq_some_iff.mp h
    cases h
    exact ⟨t, first, rest, hvisit, hscan, rfl⟩
  · intro h
    obtain ⟨t, first, rest, hvisit, hscan, rfl⟩ := h
    simp [scan, hvisit, hscan]

/-- A round: a pass that the environment allows. -/
theorem round_eq_some {p : Prop} [Decidable p] {round : Option (σ × List κ)} {t : σ}
    (h : (if p then round.map Prod.fst else none) = some t) :
    p ∧ ∃ calls, round = some (t, calls) := by
  split at h
  · obtain ⟨⟨u, calls⟩, hu, rfl⟩ := Option.map_eq_some_iff.mp h
    exact ⟨‹p›, calls, hu⟩
  · cases h

/-- What each visit keeps for the places that follow holds wherever the pass stands. -/
theorem scan_keeps {I : List ι → σ → Prop}
    (hvisit : ∀ i is s t calls, I (i :: is) s → visit s i = some (t, calls) → I is t)
    {before : List ι} (after : List ι) {s t : σ} {calls : List κ} (hi : I (before ++ after) s)
    (h : scan visit s before = some (t, calls)) : I after t := by
  induction before generalizing s calls with
  | nil =>
    cases h
    exact hi
  | cons i is ih =>
    obtain ⟨u, first, rest, hfirst, hrest, -⟩ := scan_cons.mp h
    exact ih (hvisit i _ s u first hi hfirst) hrest

/-- A pass whose visits change nothing. -/
theorem scan_stays {s : σ} {places : List ι}
    (h : ∀ i ∈ places, ∃ calls, visit s i = some (s, calls)) :
    ∃ calls, scan visit s places = some (s, calls) := by
  induction places with
  | nil => exact ⟨[], rfl⟩
  | cons i is ih =>
    obtain ⟨first, hfirst⟩ := h i List.mem_cons_self
    obtain ⟨rest, hrest⟩ := ih fun j hj => h j (List.mem_cons_of_mem i hj)
    exact ⟨first ++ rest, scan_cons.mpr ⟨s, first, rest, hfirst, hrest, rfl⟩⟩

/-- Where a visit leaves the other places alone, a pass makes the calls the places had in
store for it at the start. -/
theorem scan_calls {I : σ → Prop} {P : ι → Prop} {f : σ → ι → List κ}
    (hvisit : ∀ s i t calls, I s → P i → visit s i = some (t, calls) →
      I t ∧ calls = f s i ∧ ∀ j, j ≠ i → f t j = f s j)
    {places : List ι} {s t : σ} {calls : List κ} (hi : I s) (hplaces : ∀ i ∈ places, P i)
    (hnodup : places.Nodup) (h : scan visit s places = some (t, calls)) :
    calls = places.flatMap (f s) := by
  induction places generalizing s calls with
  | nil =>
    cases h
    rfl
  | cons i is ih =>
    obtain ⟨u, first, rest, hfirst, hrest, rfl⟩ := scan_cons.mp h
    obtain ⟨hiu, rfl, hsame⟩ := hvisit s i u first hi (hplaces i List.mem_cons_self) hfirst
    obtain ⟨hnew, hnodup⟩ := List.nodup_cons.mp hnodup
    have htail := ih hiu (fun j hj => hplaces j (List.mem_cons_of_mem i hj)) hnodup hrest
    rw [htail, List.flatMap_cons]
    congr 1
    apply List.flatMap_congr
    intro j hj
    apply hsame
    intro he
    rw [he] at hj
    exact hnew hj

end Passes
