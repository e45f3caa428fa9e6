import PagedWords.Proofs.Records
import PagedWords.Proofs.View

/-!
# Storage that shows keys

Searches, filters and the scans of a partition read nothing but the keys of a range of records. What they do is told of
any storage that answers these keys, whatever it answers elsewhere.
-/
namespace PagedWords
variable {k : Width} {σ : Type}

namespace Cells
variable [Cells σ k] {a : σ} {stride start : Nat}

/-- The storage answers the keys `ks` where the records from `start` on begin. -/
def ShowsKeys (a : σ) (stride start : Nat) (ks : List (Word k)) : Prop :=
  ∀ (i : Nat) (h : i < ks.length), Cells.get a (start + i * stride) = .ok ks[i]

namespace ShowsKeys

theorem append_right {ks ks' : List (Word k)} (h : ShowsKeys a stride start (ks ++ ks')) :
    ShowsKeys a stride (start + ks.length * stride) ks' := by
  intro i hi
  have hplace : start + ks.length * stride + i * stride = start + (ks.length + i) * stride := by
    rw [Nat.add_mul]
    omega
  rw [hplace, h (ks.length + i) (by rw [List.length_append]; omega), List.getElem_append_right (by omega)]
  simp only [Nat.add_sub_cancel_left]

private theorem append_left {ks ks' : List (Word k)} (h : ShowsKeys a stride start (ks ++ ks')) :
    ShowsKeys a stride start ks := by
  intro i hi
  rw [h i (by rw [List.length_append]; omega), List.getElem_append_left hi]

theorem head {x : Word k} {ks : List (Word k)} (h : ShowsKeys a stride start (x :: ks)) :
    Cells.get a start = .ok x := by
  have hget := h 0 (Nat.zero_lt_succ _)
  rw [Nat.zero_mul, Nat.add_zero] at hget
  exact hget

theorem tail {x : Word k} {ks : List (Word k)} (h : ShowsKeys a stride start (x :: ks)) :
    ShowsKeys a stride (start + stride) ks := by
  have hsplit : ShowsKeys a stride start ([x] ++ ks) := h
  have happ := hsplit.append_right
  rw [List.length_singleton, Nat.one_mul] at happ
  exact happ

theorem between {ks : List (Word k)} (h : ShowsKeys a stride start ks) {low high : Nat} (hle : low ≤ high)
    (hl : high ≤ ks.length) : ShowsKeys a stride (start + low * stride) (stretch ks low (high - low)) := by
  have hlow : (ks.take low).length = low := by
    rw [List.length_take]
    omega
  rw [← take_stretch_drop ks hle] at h
  have hbetween := h.append_left.append_right
  rw [hlow] at hbetween
  exact hbetween

theorem key {ps qs : List (Record k)} {r : Record k} (h : ShowsKeys a stride start ((ps ++ r :: qs).map recordKey)) :
    Cells.get a (start + ps.length * stride) = .ok (recordKey r) := by
  rw [List.map_append, List.map_cons] at h
  have hget := h.append_right.head
  rw [List.length_map] at hget
  exact hget

end ShowsKeys

section Reads
variable {l : List (Word k)} (ha : Reads a l)
include ha

private theorem Reads.showsKeys (hs : 0 < stride) (n : Nat) : ∀ {start : Nat}, start + n * stride ≤ l.length →
    ShowsKeys a stride start ((recordsFrom l stride n start).map recordKey) := by
  induction n with
  | zero =>
    intro start _ i hi
    exact absurd hi (Nat.not_lt_zero i)
  | succ n ih =>
    intro start hl i hi
    rw [Nat.succ_mul] at hl
    cases i with
    | zero =>
      rw [Nat.zero_mul, Nat.add_zero, ha.get start (by omega)]
      simp only [recordsFrom, List.map_cons, List.getElem_cons_zero, recordKey_stretch hs (by omega : start < l.length)]
    | succ i =>
      have hplace : start + (i + 1) * stride = start + stride + i * stride := by
        rw [Nat.succ_mul]
        omega
      rw [hplace, ih (by omega) i (by simpa using hi)]
      simp only [recordsFrom, List.map_cons, List.getElem_cons_succ]

theorem Reads.showsRange {stop : Nat} (hr : RecordRange l stride start stop) :
    ShowsKeys a stride start (recordKeys l stride start stop) :=
  ha.showsKeys hr.pos _ hr.add_count_le

end Reads

end Cells
end PagedWords
