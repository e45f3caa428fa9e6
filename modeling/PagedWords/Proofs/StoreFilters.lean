import PagedWords.Proofs.Filtering

/-!
# Filters of stores against filters of the words in one piece

A filter answers on every store what it answers on the words of the store, be it a candidate list or a refusal.
Where the read cursor has run past the end nothing is left to visit, and the list comes back as it was.
-/
namespace PagedWords
variable {k : Width} {stride start stop : Nat} {how : Membership} {boundary : Word k} {c : Candidates k}

/-- The cursors are in order and the list lies in its data. Dropping may move the read cursor past the end. -/
structure Candidates.Sound (c : Candidates k) : Prop where
  write_le : c.write ≤ c.read
  stop_le : c.stop ≤ c.data.size

theorem Candidates.Sound.wellFormed_or_spent (hc : c.Sound) : c.WellFormed ∨ c.hasUnvisited = false := by
  by_cases hread : c.read ≤ c.stop
  · exact .inl ⟨hc.write_le, hread, hc.stop_le⟩
  · exact .inr (decide_eq_false (by omega))

namespace Filter
variable {σ : Type} [Cells σ k] {a : σ} {l : List (Word k)}

theorem filterRecords_of_error (ha : Cells.Reads a l) {e : Error}
    (h : checkRecords start stop l.length stride = .error e) :
    filterRecords a how stride boundary start stop c = .ok (.error e) := by
  rw [filterRecords, ha.size, h, whenValid_error]

variable (ha : Cells.Reads a l) (hspent : c.hasUnvisited = false)
include ha hspent

/-- The first key is read before the candidates are looked at. -/
theorem walkRange_of_spent (hl : stop ≤ l.length) : walkRange a how stride boundary start stop c = .ok c := by
  rw [walkRange]
  split
  · rfl
  · have hplace : start < l.length := by omega
    simp only [ha.get start hplace, bind, Except.bind]
    obtain ⟨n, hn⟩ : ∃ n, c.stop - c.read + (stop - start) = n + 1 := ⟨c.stop - c.read + (stop - start) - 1, by omega⟩
    rw [hn, walk, hspent]
    rfl

theorem filterRecords_of_spent (hr : RecordRange l stride start stop) :
    filterRecords a how stride boundary start stop c = .ok (.ok c) := by
  rw [filterRecords, ha.size, hr.check, whenValid_ok, walkRange_of_spent ha hspent hr.le_length]
  rfl

end Filter

namespace Paged
variable {a : Paged k} (ha : a.WellFormed) (hs : a.size < 2 ^ 63)
include ha hs

private theorem filterRecords_of_error {e : Error} (h : checkRecords start stop a.size stride = .error e) :
    a.filterRecords how stride boundary start stop c = .ok (.error e) := by
  rw [filterRecords]
  split
  · next piece hconf =>
    obtain ⟨hl, hlt, hsum, p, hp, hstop, -⟩ := page_of_confined ha hs hconf
    rw [← checkRecords_congr (Nat.le_of_lt hlt) hl hstop hsum] at h
    simp only [hp, bind, Except.bind]
    exact Filter.filterRecords_of_error (Words.reads p.words) h
  · exact Filter.filterRecords_of_error (reads ha hs) (by rw [length_toList ha hs]; exact h)

variable (hspent : c.hasUnvisited = false)
include hspent

private theorem filter_of_spent (hl : stop ≤ a.size) : a.filter how boundary start stop c = .ok c := by
  rw [filter]
  split
  · rfl
  · next hlt =>
    rw [if_neg (Nat.not_lt.2 hl)]
    obtain ⟨n, hn⟩ : ∃ n, stop - start = n + 1 := ⟨stop - start - 1, by omega⟩
    obtain ⟨piece, next, hrun, -⟩ := Partition.piece_eq_ok ha.partition (by omega : start < stop)
      (by omega : stop ≤ 2 ^ 63)
    simp only [hn, filterFrom, if_neg hlt, hrun, hspent, bind, Except.bind, pure, Except.pure, Bool.not_false, if_true]

private theorem filterRecords_of_spent (hr : RecordRange a.toList stride start stop) :
    a.filterRecords how stride boundary start stop c = .ok (.ok c) := by
  rw [filterRecords]
  split
  · next piece hconf =>
    obtain ⟨p, hp, -, hrange, -⟩ := records_of_confined ha hs hconf hr
    simp only [hp, bind, Except.bind]
    exact Filter.filterRecords_of_spent (Words.reads p.words) hspent hrange
  · exact Filter.filterRecords_of_spent (reads ha hs) hspent hr

end Paged

namespace Store
variable {s : Store k} (hs : s.WellFormed)
include hs

theorem filterRecords_of_error {e : Error} (h : checkRecords start stop s.size stride = .error e) :
    s.filterRecords how stride boundary start stop c = .ok (.error e) := by
  induction s generalizing start stop with
  | slice ws => exact Filter.filterRecords_of_error (Words.reads ws) h
  | page p => exact Filter.filterRecords_of_error (Words.reads p.words) h
  | paged a => exact Paged.filterRecords_of_error hs.1 hs.2 h
  | window base low high ih =>
    rw [filterRecords]
    rcases hs.refused_base h with hwindow | ⟨hwindow, hbase⟩
    · rw [hwindow]
    · rw [hwindow]
      exact ih hs.1 hbase
  | elementwise base ih =>
    exact Filter.filterRecords_of_error (reads (s := elementwise base) hs) (by rw [length_toList hs]; exact h)

section Spent
variable (hspent : c.hasUnvisited = false)
include hspent

private theorem filter_of_spent (hle : start ≤ stop) (hl : stop ≤ s.size) :
    s.filter how boundary start stop c = .ok c := by
  induction s generalizing start stop with
  | slice ws => exact Filter.walkRange_of_spent (Words.reads ws) hspent hl
  | page p => exact Filter.walkRange_of_spent (Words.reads p.words) hspent hl
  | paged a => exact Paged.filter_of_spent hs.1 hs.2 hspent hl
  | window base low high ih =>
    have hsize : stop ≤ high - low := hl
    have hhigh := hs.window_le
    rw [filter, windowSpan_eq hle hsize]
    exact ih hs.1 (by omega) (by omega)
  | elementwise base ih =>
    exact Filter.walkRange_of_spent (reads (s := elementwise base) hs) hspent (by rw [length_toList hs]; exact hl)

private theorem filterRecords_of_spent (hr : RecordRange s.toList stride start stop) :
    s.filterRecords how stride boundary start stop c = .ok (.ok c) := by
  induction s generalizing start stop with
  | slice ws => exact Filter.filterRecords_of_spent (Words.reads ws) hspent hr
  | page p => exact Filter.filterRecords_of_spent (Words.reads p.words) hspent hr
  | paged a => exact Paged.filterRecords_of_spent hs.1 hs.2 hspent hr
  | window base low high ih =>
    obtain ⟨hsize, hbase⟩ := hs.recordRange_base hr
    rw [filterRecords, windowCheck_eq hr.le hsize]
    exact ih hs.1 hbase
  | elementwise base ih => exact Filter.filterRecords_of_spent (reads (s := elementwise base) hs) hspent hr

end Spent

variable (hc : c.Sound) (how : Membership) (boundary : Word k)
include hc

theorem filter_flat (hle : start ≤ stop) (hl : stop ≤ s.size)
    (hsorted : (stretch s.toList start (stop - start)).Pairwise (· ≤ ·)) :
    ∃ c', s.filter how boundary start stop c = .ok c' ∧
      Filter.filter (s.toList.toArray : Words k) how boundary start stop c = .ok c' := by
  have hlen := length_toList hs
  have hflat := Words.reads (s.toList.toArray : Words k)
  have hstop : stop ≤ s.toList.length := by rw [hlen]; exact hl
  rcases hc.wellFormed_or_spent with hc | hspent
  · rcases Nat.eq_or_lt_of_le hle with rfl | hlt
    · exact ⟨c, filter_of_empty hs hl, if_pos (Nat.le_refl _)⟩
    · obtain ⟨c', hvisits, -⟩ := Filter.visitAll_spec how hc
        (Filter.length_verdicts_le boundary (stretch s.toList start (stop - start)) c.unvisited)
      exact ⟨c', by rw [filter_eq hs hlt hl hc hsorted, hvisits], by rw [Filter.filter_eq hflat hlt hstop hc, hvisits]⟩
  · exact ⟨c, filter_of_spent hs hspent hle hl, Filter.walkRange_of_spent hflat hspent hstop⟩

theorem filterRecords_flat (stride start stop : Nat) :
    ∃ r, s.filterRecords how stride boundary start stop c = .ok r ∧
      Filter.filterRecords (s.toList.toArray : Words k) how stride boundary start stop c = .ok r := by
  have hlen := length_toList hs
  have hflat := Words.reads (s.toList.toArray : Words k)
  rcases hcheck : checkRecords start stop s.toList.length stride with e | u
  · exact ⟨.error e, filterRecords_of_error hs (hlen ▸ hcheck), Filter.filterRecords_of_error hflat hcheck⟩
  have hr := RecordRange.of_check hcheck
  rcases hc.wellFormed_or_spent with hc | hspent
  · rcases Nat.eq_or_lt_of_le hr.le with rfl | hlt
    · exact ⟨.ok c, filterRecords_of_empty hs hr.pos (hlen ▸ hr.le_length),
        Filter.filterRecords_of_empty hr.pos hr.le_length⟩
    · obtain ⟨c', hvisits, -⟩ := Filter.visitAll_spec how hc
        (Filter.length_verdicts_le boundary (recordKeys s.toList stride start stop) c.unvisited)
      refine ⟨.ok c', ?_, ?_⟩
      · rw [filterRecords_eq hs hr hlt hc, hvisits]
        rfl
      · rw [Filter.filterRecords_eq hflat hr hlt hc, hvisits]
        rfl
  · exact ⟨.ok c, filterRecords_of_spent hs hspent hr, Filter.filterRecords_of_spent hflat hspent hr⟩

end Store
end PagedWords
