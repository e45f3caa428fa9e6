import PagedWords.Store.Search
import PagedWords.Store.Sorting
import PagedWords.Proofs.PagedView

/-!
# Ranges that hold no word

A range that ends where it starts, or before, holds no word, wherever it lies. The operations on words have nothing to
do there, and nearly all of them see it before they work out a position. The check for ascending words works out the
second position first, so it faults if the range starts at the last one. In a reversed range the ends differ, and with
them the places of a miss.
-/
namespace PagedWords
variable {k : Width} {start stop : Nat}

/-- Where a search tells that it misses in a range without words. -/
def Strategy.emptyPlace (how : Strategy) (start stop : Nat) : Nat :=
  match how with
  | .linear => stop
  | .bisect => start

section Cells
variable {σ : Type} [Cells σ k] (a : σ) (h : stop ≤ start)
include h

private theorem Search.search_of_le (how : Strategy) (key : Word k) :
    Search.search how a key start stop = .ok (.missing (how.emptyPlace start stop)) := by
  cases how with
  | linear => rw [search, Nat.sub_eq_zero_of_le h, scan, Strategy.emptyPlace]
  | bisect => rw [search, bisect, if_pos h, Strategy.emptyPlace]

private theorem Search.bound_of_le (how : Strategy) (key : Word k) :
    Search.bound how a key start stop = .ok (how.emptyPlace start stop) := by
  cases how with
  | linear => rw [bound, Nat.sub_eq_zero_of_le h, firstNotBelow, Strategy.emptyPlace]
  | bisect => rw [bound, lowerBound, if_pos h, Strategy.emptyPlace]

private theorem Filter.filter_of_le (how : Membership) (boundary : Word k) (c : Candidates k) :
    Filter.filter a how boundary start stop c = .ok c := by
  rw [filter, walkRange, if_pos h]

private theorem Sorting.isSorted_of_le :
    Sorting.isSorted a start stop = if start + 1 < positionLimit then .ok true else .error .overflow := by
  have hfew : stop ≤ start + 1 := Nat.le_succ_of_le h
  by_cases hlim : start + 1 < positionLimit
  · simp only [isSorted, keysSorted, addPosition, hlim, hfew, if_true, bind, Except.bind, pure, Except.pure]
  · simp only [isSorted, keysSorted, addPosition, hlim, if_false, bind, Except.bind]

end Cells

private theorem Sorting.sort_of_le {σ : Type} [Sortable σ k] (a : σ) (h : stop ≤ start) (algorithm : SortAlgorithm) :
    Sorting.sort algorithm a start stop = .ok a := by
  cases algorithm with
  | insertion => rw [sort, insertionSort, Nat.sub_eq_zero_of_le h, Nat.zero_sub, insertKeys]
  | quick => rw [sort, quickSort, if_pos h]
  | merge =>
    rw [sort, mergeSortRecords, if_pos h]
    rfl

namespace Store
variable {s : Store k}

/-- On words in one piece and on words in pages, a range without words is searched in vain and found sorted, and no
sort and no filter changes anything, wherever the range lies. There are two exceptions to what one expects of it.
Whether it is sorted cannot be told if it starts at the last position. And a search from word to word misses at its
end, a bisection at its start. -/
theorem wordless_ranges_change_nothing (hs : (∃ ws, s = slice ws) ∨ ∃ a, s = paged a) (h : stop ≤ start) :
    (∀ how key, s.search how key start stop = .ok (.missing (how.emptyPlace start stop))) ∧
    (∀ how key, s.bound how key start stop = .ok (how.emptyPlace start stop)) ∧
    (∀ how boundary c, s.filter how boundary start stop c = .ok c) ∧
    (∀ algorithm, s.sort algorithm start stop = .ok s) ∧
    s.isSorted start stop = if start + 1 < positionLimit then .ok true else .error .overflow := by
  rcases hs with ⟨ws, rfl⟩ | ⟨a, rfl⟩
  · refine ⟨Search.search_of_le ws h, Search.bound_of_le ws h, Filter.filter_of_le ws h, fun algorithm => ?_,
      Sorting.isSorted_of_le ws h⟩
    simp only [sort, Sorting.sort_of_le ws h, bind, Except.bind, pure, Except.pure]
  · have hconf := a.confined?_of_le h
    refine ⟨fun how key => ?_, fun how key => ?_, fun how boundary c => ?_, fun algorithm => ?_, ?_⟩
    · simp only [search, Paged.search, hconf, Search.search_of_le a h]
    · simp only [bound, Paged.bound, hconf, Search.bound_of_le a h]
    · rw [filter, Paged.filter, if_pos h]
    · simp only [sort, Paged.sort, hconf, Sorting.sort_of_le a h, bind, Except.bind, pure, Except.pure]
    · simp only [isSorted, Paged.isSorted, hconf, Sorting.isSorted_of_le a h]

/-- A reversed range that starts at the last position and ends after the first of three words. On pages or not, a
search misses at 1, a bisection at the last position, and the check for ascending words faults. -/
theorem wordless_ranges_change_nothing_of_three :
    ∃ (s : Store .w64) (t : Store .w64), s = slice #[.ofInt 3, .ofInt 1, .ofInt 2] ∧
      t = paged ⟨.even 2, #[.ofWords #[.ofInt 3, .ofInt 1], .ofWords #[.ofInt 2]], 3⟩ ∧ ∀ r ∈ [s, t],
        r.search .linear (.ofInt 1) (2 ^ 64 - 1) 1 = .ok (.missing 1) ∧
        r.search .bisect (.ofInt 1) (2 ^ 64 - 1) 1 = .ok (.missing (2 ^ 64 - 1)) ∧
        r.sort .insertion (2 ^ 64 - 1) 1 = .ok r ∧ r.isSorted (2 ^ 64 - 1) 1 = .error .overflow := by
  refine ⟨_, _, rfl, rfl, fun r hr => ?_⟩
  have hkind : (∃ ws, r = slice ws) ∨ ∃ a, r = paged a := by
    rcases List.mem_pair.1 hr with rfl | rfl
    · exact .inl ⟨_, rfl⟩
    · exact .inr ⟨_, rfl⟩
  obtain ⟨hsearch, -, -, hsort, hsorted⟩ :=
    wordless_ranges_change_nothing hkind (by decide : 1 ≤ 2 ^ 64 - 1)
  exact ⟨hsearch .linear _, hsearch .bisect _, hsort _, hsorted⟩

end Store
end PagedWords
