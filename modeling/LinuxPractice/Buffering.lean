import Mathlib.Data.List.Basic

/-!
# Output through a buffer

A buffer is put before a device and handed over whole. When that happens is
left open: every policy delivers the same data.
-/
namespace Buffering

variable {α : Type}

/-- The ranges handed over, in order, and what waits. -/
structure Sink (α : Type) where
  written : List (List α)
  pending : List α
  deriving DecidableEq, Repr

namespace Sink

def flush (s : Sink α) : Sink α := ⟨s.written ++ [s.pending], []⟩

/-- Data is put into the buffer, which may then be handed over. -/
def put (s : Sink α) (data : List α) (handOver : Bool) : Sink α :=
  let s := { s with pending := s.pending ++ data }
  if handOver then s.flush else s

/-- All that went in. -/
def total (s : Sink α) : List α := s.written.flatten ++ s.pending

@[simp] theorem flush_pending (s : Sink α) : s.flush.pending = [] := rfl

@[simp] theorem total_flush (s : Sink α) : s.flush.total = s.total := by simp [flush, total]

@[simp] theorem total_put (s : Sink α) (data : List α) (handOver : Bool) :
    (s.put data handOver).total = s.total ++ data := by
  cases handOver <;> simp [put, total, flush]

/-- Successive puts, each with the decision taken there. -/
def puts (s : Sink α) (calls : List (List α × Bool)) : Sink α :=
  calls.foldl (fun s c => s.put c.1 c.2) s

@[simp] theorem puts_nil (s : Sink α) : s.puts [] = s := rfl

@[simp] theorem puts_cons (s : Sink α) (c : List α × Bool) (calls : List (List α × Bool)) :
    s.puts (c :: calls) = (s.put c.1 c.2).puts calls := rfl

theorem total_puts (s : Sink α) (calls : List (List α × Bool)) :
    (s.puts calls).total = s.total ++ (calls.map Prod.fst).flatten := by
  induction calls generalizing s with
  | nil => simp
  | cons c calls ih => simp [ih]

end Sink

end Buffering
