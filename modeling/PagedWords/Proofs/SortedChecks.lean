import PagedWords.Store.Sorting
import PagedWords.Proofs.StoreView

/-! # What the check for ascending keys answers -/
namespace PagedWords
variable {k : Width}

namespace Sorting
variable {σ : Type} [Cells σ k] {a : σ} {l : List (Word k)} {stride : Nat}

private theorem isSortedFrom_eq (ha : Cells.Reads a l) (hs : 0 < stride) (n : Nat) : ∀ {pos : Nat} (prev : Word k),
    pos + n * stride ≤ l.length → isSortedFrom a stride n pos prev =
      .ok (decide ((prev :: (recordsFrom l stride n pos).map recordKey).Pairwise (· ≤ ·))) := by
  induction n with
  | zero =>
    intro pos prev _
    simp [isSortedFrom, recordsFrom]
  | succ n ih =>
    intro pos prev hn
    rw [Nat.succ_mul] at hn
    have hlt : pos < l.length := by omega
    rw [recordsFrom, List.map_cons, recordKey_stretch hs hlt]
    simp only [isSortedFrom, ha.get pos hlt, bind, Except.bind, pure, Except.pure]
    by_cases hw : l[pos] < prev
    · rw [if_pos hw, decide_eq_false]
      intro hsorted
      exact Word.not_le.2 hw (List.rel_of_pairwise_cons hsorted List.mem_cons_self)
    · rw [if_neg hw, ih _ (by omega)]
      refine congrArg Except.ok (decide_eq_decide.2 ?_)
      rw [List.pairwise_cons (a := prev)]
      refine ⟨fun hsorted => ⟨?_, hsorted⟩, And.right⟩
      intro w hmem
      have hle := Word.not_lt.1 hw
      rcases List.mem_cons.1 hmem with rfl | hmem
      · exact hle
      · exact Std.le_trans hle (List.rel_of_pairwise_cons hsorted hmem)

variable {start stop : Nat}

theorem isSortedRecords_of_error (ha : Cells.Reads a l) {e : Error}
    (h : checkRecords start stop l.length stride = .error e) :
    isSortedRecords a stride start stop = .ok (.error e) := by
  rw [isSortedRecords, ha.size, h, whenValid_error]

variable (ha : Cells.Reads a l) (hr : RecordRange l stride start stop)
  (hlim : start + stride < positionLimit)
include ha hr hlim

theorem keysSorted_eq :
    keysSorted a stride start stop = .ok (decide ((recordKeys l stride start stop).Pairwise (· ≤ ·))) := by
  have hs := hr.pos
  simp only [keysSorted, addPosition_of_lt hlim, bind, Except.bind, pure, Except.pure]
  by_cases hshort : stop ≤ start + stride
  · have hfew : (recordKeys l stride start stop).length ≤ 1 := by
      rw [length_recordKeys]
      exact Nat.le_of_lt_succ ((Nat.div_lt_iff_lt_mul hs).2 (by omega))
    rw [if_pos hshort, decide_eq_true]
    rw [List.pairwise_iff_getElem]
    intro i j _ _ hij
    omega
  · have hlt : start < stop := by omega
    obtain ⟨n, hcount, hstop⟩ := hr.exists_count hlt
    have hplace : start < l.length := Nat.lt_of_lt_of_le hlt hr.le_length
    have hl := hr.le_length
    rw [Nat.succ_mul] at hstop
    rw [if_neg hshort, ha.get start hplace, recordKeys, records, hcount, recordsFrom, List.map_cons,
      recordKey_stretch hs hplace]
    exact isSortedFrom_eq ha hs n _ (by omega)

theorem isSortedRecords_eq :
    isSortedRecords a stride start stop = .ok (.ok (decide ((recordKeys l stride start stop).Pairwise (· ≤ ·)))) := by
  rw [isSortedRecords, ha.size, hr.check, whenValid_ok, keysSorted_eq ha hr hlim]
  rfl

end Sorting

theorem RecordRange.add_stride_lt {l : List (Word k)} {stride start stop : Nat} (hr : RecordRange l stride start stop)
    (hl : l.length < 2 ^ 63) (hstride : stride < 2 ^ 63) : start + stride < positionLimit := by
  have hle := hr.le
  have hle' := hr.le_length
  have hlim : positionLimit = 2 ^ 64 := rfl
  omega

theorem Paged.isSortedRecords_eq {a : Paged k} (ha : a.WellFormed) (hs : a.size < 2 ^ 63) {stride start stop : Nat}
    (hstride : stride < 2 ^ 63) (hr : RecordRange a.toList stride start stop) :
    a.isSortedRecords stride start stop =
      .ok (.ok (decide ((recordKeys a.toList stride start stop).Pairwise (· ≤ ·)))) := by
  rw [isSortedRecords]
  split
  · next c hconf =>
    obtain ⟨p, hp, hsize, hrange, hrecords⟩ := records_of_confined ha hs hconf hr
    have hsmall : p.words.toList.length < 2 ^ 63 := by rw [p.length_words]; omega
    rw [hp, recordKeys, ← hrecords]
    exact Sorting.isSortedRecords_eq (Words.reads p.words) hrange (hrange.add_stride_lt hsmall hstride)
  · exact Sorting.isSortedRecords_eq (reads ha hs) hr (hr.add_stride_lt (by rw [length_toList ha hs]; exact hs) hstride)

theorem Sorting.isSorted_eq {σ : Type} [Cells σ k] {a : σ} {l : List (Word k)} (ha : Cells.Reads a l)
    (hlim : l.length < 2 ^ 63) {start stop : Nat} (hle : start ≤ stop) (hl : stop ≤ l.length) :
    isSorted a start stop = .ok (decide ((stretch l start (stop - start)).Pairwise (· ≤ ·))) := by
  have hr : RecordRange l 1 start stop := .one hle hl
  rw [← recordKeys_one hle hl]
  exact keysSorted_eq ha hr (hr.add_stride_lt hlim (by decide))

namespace Paged
variable {a : Paged k} (ha : a.WellFormed) (hs : a.size < 2 ^ 63) {stride start stop : Nat}
include ha hs

/-- On its page a range is refused as it is in the array: both hold it, so only the stride is at fault. -/
theorem isSortedRecords_of_error {e : Error} (h : checkRecords start stop a.size stride = .error e) :
    a.isSortedRecords stride start stop = .ok (.error e) := by
  have hlen := length_toList ha hs
  rw [isSortedRecords]
  split
  · next c hconf =>
    obtain ⟨hl, hlt, hsum, p, hp, hstop, -⟩ := page_of_confined ha hs hconf
    rw [← checkRecords_congr (Nat.le_of_lt hlt) hl hstop hsum] at h
    simp only [hp, bind, Except.bind]
    exact Sorting.isSortedRecords_of_error (Words.reads p.words) h
  · exact Sorting.isSortedRecords_of_error (reads ha hs) (hlen ▸ h)

theorem isSorted_eq (hle : start ≤ stop) (hl : stop ≤ a.size) :
    a.isSorted start stop = .ok (decide ((stretch a.toList start (stop - start)).Pairwise (· ≤ ·))) := by
  rw [isSorted]
  split
  · next c hconf =>
    obtain ⟨-, hlt, hsum, p, hp, hstop, hsize, hwords⟩ := page_of_confined ha hs hconf
    have hspan : c.stop - c.start = stop - start := by omega
    rw [hp, ← hwords, ← hspan]
    exact Sorting.isSorted_eq (Words.reads p.words) (by rw [p.length_words]; omega) (by omega)
      (by rw [p.length_words]; exact hstop)
  · have hlen := length_toList ha hs
    exact Sorting.isSorted_eq (reads ha hs) (hlen ▸ hs) hle (hlen ▸ hl)

end Paged

theorem Store.isSortedRecords_eq {s : Store k} (hs : s.WellFormed) {stride start stop : Nat} (hstride : stride < 2 ^ 63)
    (hr : RecordRange s.toList stride start stop) :
    s.isSortedRecords stride start stop =
      .ok (.ok (decide ((recordKeys s.toList stride start stop).Pairwise (· ≤ ·)))) := by
  have hlim := hr.add_stride_lt (by rw [length_toList hs]; exact size_lt hs) hstride
  induction s generalizing start stop with
  | slice ws => exact Sorting.isSortedRecords_eq (Words.reads ws) hr hlim
  | page p => exact Sorting.isSortedRecords_eq (Words.reads p.words) hr hlim
  | paged a => exact Paged.isSortedRecords_eq hs.1 hs.2 hstride hr
  | window base low high ih =>
    obtain ⟨hsize, hbase⟩ := hs.recordRange_base hr
    have hlim' := hbase.add_stride_lt (by rw [length_toList hs.1]; exact size_lt hs.1) hstride
    rw [isSortedRecords, windowCheck_eq hr.le hsize, toList, recordKeys, records_stretch hr.le hsize]
    exact ih hs.1 hbase hlim'
  | elementwise base ih => exact Sorting.isSortedRecords_eq (reads (s := elementwise base) hs) hr hlim

theorem Store.isSortedRecords_of_error {s : Store k} (hs : s.WellFormed) {stride start stop : Nat} {e : Error}
    (h : checkRecords start stop s.size stride = .error e) : s.isSortedRecords stride start stop = .ok (.error e) := by
  induction s generalizing start stop with
  | slice ws => exact Sorting.isSortedRecords_of_error (Words.reads ws) h
  | page p => exact Sorting.isSortedRecords_of_error (Words.reads p.words) h
  | paged a => exact Paged.isSortedRecords_of_error hs.1 hs.2 h
  | window base low high ih =>
    rw [isSortedRecords]
    rcases hs.refused_base h with hwindow | ⟨hwindow, hbase⟩
    · rw [hwindow]
    · rw [hwindow]
      exact ih hs.1 hbase
  | elementwise base ih =>
    exact Sorting.isSortedRecords_of_error (reads (s := elementwise base) hs) (by rw [length_toList hs]; exact h)

theorem Store.isSorted_eq {s : Store k} (hs : s.WellFormed) {start stop : Nat} (hle : start ≤ stop)
    (hl : stop ≤ s.size) :
    s.isSorted start stop = .ok (decide ((stretch s.toList start (stop - start)).Pairwise (· ≤ ·))) := by
  induction s generalizing start stop with
  | slice ws => exact Sorting.isSorted_eq (Words.reads ws) hs hle hl
  | page p => exact Sorting.isSorted_eq (Words.reads p.words) hs hle hl
  | paged a => exact Paged.isSorted_eq hs.1 hs.2 hle hl
  | window base low high ih =>
    have hhigh := hs.window_le
    have hsize : stop ≤ high - low := hl
    have hbase := ih hs.1 (Nat.add_le_add_left hle low) (by omega)
    rw [Nat.add_sub_add_left] at hbase
    rw [isSorted, windowSpan_eq hle hsize, toList, stretch_stretch _ (by omega)]
    exact hbase
  | elementwise base ih =>
    have hlen := length_toList hs
    exact Sorting.isSorted_eq (reads (s := elementwise base) hs) (hlen ▸ size_lt hs) hle (hlen ▸ hl)

end PagedWords
