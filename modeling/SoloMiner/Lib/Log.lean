import Mathlib.Data.List.Infix

/-!
# Logs and who reads them

A log is a list that grows at the front, so that its latest entry is first. Someone who reads
it from the other end is told by how much has been read: `SoloMiner.Log.oldest` is that part
of the log. Writing to the log does not change what was read, and reading on adds the next
entry at the front.
-/

namespace SoloMiner

namespace Log

variable {α : Type*} {log log' : List α} {n : ℕ} {a : α}

/-- The first entries that were written, so many of them, with the latest in front. -/
def oldest (n : ℕ) (log : List α) : List α := (log.reverse.take n).reverse

theorem oldest_length : oldest log.length log = log := by
  rw [oldest, ← List.length_reverse, List.take_length, List.reverse_reverse]

theorem reverse_oldest : (oldest n log).reverse = log.reverse.take n := List.reverse_reverse _

/-- What is written later makes no difference. -/
theorem oldest_of_suffix (h : log <:+ log') (hle : n ≤ log.length) :
    oldest n log' = oldest n log := by
  obtain ⟨newer, rfl⟩ := h
  rw [oldest, oldest, List.reverse_append,
    List.take_append_of_le_length (by rwa [List.length_reverse])]

/-- The next entry is read. -/
theorem oldest_succ (h : log.reverse[n]? = some a) : oldest (n + 1) log = a :: oldest n log := by
  rw [oldest, oldest, List.take_add_one, h, List.reverse_append]
  rfl

theorem mem_of_mem_oldest (h : a ∈ oldest n log) : a ∈ log :=
  List.mem_reverse.mp (List.mem_of_mem_take (List.mem_reverse.mp h))

/-- There is a next entry only if not all were read. -/
theorem lt_length_of_getElem? (h : log.reverse[n]? = some a) : n < log.length := by
  rw [← List.length_reverse]
  exact (List.getElem?_eq_some_iff.mp h).1

end Log

end SoloMiner
