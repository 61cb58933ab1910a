import Mathlib.Data.Finset.Dedup
import Mathlib.Data.Set.Function

/-!
# A table that keeps the first entry of each key

Entries arrive one after another, and one whose key is there already is left
out. Nothing is lost exactly if different entries have different keys.
-/
namespace FirstSeen

variable {κ ε : Type} [DecidableEq κ]

/-- `insert` of a map. -/
def insert (table : List (κ × ε)) (k : κ) (e : ε) : List (κ × ε) :=
  if k ∈ table.map Prod.fst then table else table ++ [(k, e)]

/-- The entries seen are represented by the first of each key. -/
structure Records (key : ε → κ) (table : List (κ × ε)) (seen : List ε) : Prop where
  keyed : ∀ p ∈ table, p.1 = key p.2
  distinct : (table.map Prod.fst).Nodup
  mem : ∀ p ∈ table, p.2 ∈ seen
  covers : ∀ e ∈ seen, key e ∈ table.map Prod.fst

/-- `insert` for one entry after another. -/
def insertAll (table entries : List (κ × ε)) : List (κ × ε) :=
  entries.foldl (fun table p => insert table p.1 p.2) table

theorem insertAll_append (table entries entries' : List (κ × ε)) :
    insertAll table (entries ++ entries') = insertAll (insertAll table entries) entries' :=
  List.foldl_append

section Lookup

variable [BEq κ] [LawfulBEq κ]

omit [DecidableEq κ] in
theorem lookup_cons_of_ne {k k' : κ} (h : k' ≠ k) (e : ε) (entries : List (κ × ε)) :
    ((k, e) :: entries).lookup k' = entries.lookup k' := by
  have hne : (k' == k) = false := beq_false_of_ne h
  simp only [List.lookup_cons, hne]

theorem lookup_insert (table : List (κ × ε)) (k k' : κ) (e : ε) :
    (insert table k e).lookup k' = (table.lookup k').or ([(k, e)].lookup k') := by
  unfold insert
  split
  · rename_i hin
    by_cases hk : k' = k
    · subst hk
      obtain ⟨p, hp, hkey⟩ := List.mem_map.mp hin
      have hsome : (table.lookup k').isSome := List.lookup_isSome_iff.mpr ⟨p, hp, by simp [hkey]⟩
      obtain ⟨e', he'⟩ := Option.isSome_iff_exists.mp hsome
      simp [he']
    · simp [lookup_cons_of_ne hk]
  · rw [List.lookup_append]

/-- What is found for a key is its first entry. -/
theorem lookup_insertAll (table entries : List (κ × ε)) (k : κ) :
    (insertAll table entries).lookup k = (table.lookup k).or (entries.lookup k) := by
  induction entries generalizing table with
  | nil => simp [insertAll]
  | cons p entries ih =>
    rw [insertAll, List.foldl_cons]
    have hrest := ih (insert table p.1 p.2)
    rw [insertAll] at hrest
    rw [hrest, lookup_insert, Option.or_assoc, ← List.lookup_append]
    rfl

end Lookup

variable {key : ε → κ} {table : List (κ × ε)} {seen : List ε}

omit [DecidableEq κ] in
theorem records_nil (key : ε → κ) : Records key [] [] where
  keyed := by simp
  distinct := by simp
  mem := by simp
  covers := by simp

theorem Records.insert (h : Records key table seen) (e : ε) :
    Records key (insert table (key e) e) (seen ++ [e]) := by
  unfold FirstSeen.insert
  split
  · rename_i hin
    constructor
    · exact h.keyed
    · exact h.distinct
    · intro p hp
      exact List.mem_append_left _ (h.mem p hp)
    · intro x hx
      rcases List.mem_append.mp hx with hx | hx
      · exact h.covers x hx
      · rwa [List.mem_singleton.mp hx]
  · rename_i hout
    constructor
    · intro p hp
      rcases List.mem_append.mp hp with hp | hp
      · exact h.keyed p hp
      · rw [List.mem_singleton.mp hp]
    · rw [List.map_append]
      refine List.nodup_append.mpr ⟨h.distinct, by simp, ?_⟩
      intro k hk k' hk' he
      rw [List.map_singleton, List.mem_singleton] at hk'
      rw [he, hk'] at hk
      exact hout hk
    · intro p hp
      rcases List.mem_append.mp hp with hp | hp
      · exact List.mem_append_left _ (h.mem p hp)
      · rw [List.mem_singleton.mp hp]
        simp
    · intro x hx
      rcases List.mem_append.mp hx with hx | hx
      · simpa using .inl (by simpa using h.covers x hx)
      · simp [List.mem_singleton.mp hx]

omit [DecidableEq κ] in
theorem Records.entry_inj (h : Records key table seen) {p q : κ × ε} (hp : p ∈ table)
    (hq : q ∈ table) (hkey : key p.2 = key q.2) : p = q := by
  apply List.inj_on_of_nodup_map h.distinct hp hq
  rw [h.keyed p hp, h.keyed q hq, hkey]

omit [DecidableEq κ] in
theorem Records.entries_nodup (h : Records key table seen) : (table.map Prod.snd).Nodup := by
  apply List.Nodup.map_on _ (List.Nodup.of_map _ h.distinct)
  intro p hp q hq he
  exact h.entry_inj hp hq (by rw [he])

omit [DecidableEq κ] in
/-- The table has every entry once exactly if no two entries share a key. -/
theorem Records.entries_eq_iff [DecidableEq ε] (h : Records key table seen) :
    ((table.map Prod.snd : List ε) : Multiset ε) = seen.toFinset.val ↔
      Set.InjOn key {e | e ∈ seen} := by
  have hmem : ((table.map Prod.snd : List ε) : Multiset ε) = seen.toFinset.val ↔
      ∀ e, e ∈ table.map Prod.snd ↔ e ∈ seen := by
    rw [Multiset.Nodup.ext (Multiset.coe_nodup.mpr h.entries_nodup) seen.toFinset.nodup]
    simp
  rw [hmem]
  constructor
  · intro hall e he e' he' hkey
    obtain ⟨p, hp, rfl⟩ := List.mem_map.mp ((hall e).mpr he)
    obtain ⟨q, hq, rfl⟩ := List.mem_map.mp ((hall e').mpr he')
    rw [h.entry_inj hp hq hkey]
  · intro hinj e
    constructor
    · intro he
      obtain ⟨p, hp, rfl⟩ := List.mem_map.mp he
      exact h.mem p hp
    · intro he
      obtain ⟨p, hp, hkey⟩ := List.mem_map.mp (h.covers e he)
      have hsame : p.2 = e := hinj (h.mem p hp) he ((h.keyed p hp).symm.trans hkey)
      exact List.mem_map.mpr ⟨p, hp, hsame⟩

end FirstSeen
