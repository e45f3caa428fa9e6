import PagedWords.Proofs.StoreFilters

/-!
# To retain and to reject

Whatever the words of a range and the candidates, the run that retains keys and the one that rejects them visit the
same candidates, though each overwrites its own list: a verdict depends on values that are not yet visited only, and
those are never overwritten. What the one run keeps the other drops.
-/
namespace PagedWords
variable {k : Width}

/-- Every entry goes to one of two lists, in order. -/
inductive Splits {α : Type} : List α → List α → List α → Prop
  | nil : Splits [] [] []
  | left (a : α) {l xs ys : List α} : Splits l xs ys → Splits (a :: l) (a :: xs) ys
  | right (a : α) {l xs ys : List α} : Splits l xs ys → Splits (a :: l) xs (a :: ys)

private theorem Splits.perm {α : Type} {l xs ys : List α} (h : Splits l xs ys) : (xs ++ ys).Perm l := by
  induction h with
  | nil => exact .nil
  | left a _ ih => exact ih.cons a
  | right a _ ih => exact List.perm_middle.trans (ih.cons a)

/-- Two runs from `c` that visit the same candidates, each of which one of them keeps. -/
structure Candidates.Complementary (c c₁ c₂ : Candidates k) : Prop where
  wellFormed : c₁.WellFormed ∧ c₂.WellFormed
  stop_eq : c₁.stop = c.stop ∧ c₂.stop = c.stop
  le_read : c.read ≤ c₁.read
  read_eq : c₂.read = c₁.read
  unvisited : c₁.unvisited = c.unvisited.drop (c₁.read - c.read) ∧ c₂.unvisited = c₁.unvisited
  kept : ∃ xs ys, c₁.kept = c.kept ++ xs ∧ c₂.kept = c.kept ++ ys ∧
    Splits (c.unvisited.take (c₁.read - c.read)) xs ys ∧ (xs ++ ys).Perm (c.unvisited.take (c₁.read - c.read))

namespace Filter
variable {c : Candidates k} {bs : List Bool}

private theorem staying_splits (bs : List Bool) (us : List (Word k)) :
    Splits (us.take bs.length) (staying .retain bs us) (staying .reject bs us) := by
  induction bs generalizing us with
  | nil => simpa [staying] using Splits.nil
  | cons b bs ih =>
    cases us with
    | nil => simpa [staying] using Splits.nil
    | cons u us =>
      have hrest := ih us
      cases b with
      | true => exact hrest.left u
      | false => exact hrest.right u

private theorem read_of_visitAll {how : Membership} {c' : Candidates k} (hc : c.WellFormed)
    (hb : bs.length ≤ c.unvisited.length) (h : visitAll how bs c = .ok c') : c'.read = c.read + bs.length := by
  obtain ⟨c₁, hvisits, hstop, hc₁, -, hun⟩ := visitAll_spec how hc hb
  obtain rfl : c₁ = c' := Except.ok.inj (hvisits.symm.trans h)
  have hleft := hc₁.length_unvisited
  rw [hun, List.length_drop, hc.length_unvisited, hstop] at hleft
  rw [hc.length_unvisited] at hb
  have hread := hc.read_le
  have hread₁ := hc₁.read_le
  omega

private theorem visitAll_complementary (hc : c.WellFormed) (hb : bs.length ≤ c.unvisited.length) :
    ∃ c₁ c₂, visitAll .retain bs c = .ok c₁ ∧ visitAll .reject bs c = .ok c₂ ∧ c.Complementary c₁ c₂ := by
  obtain ⟨c₁, hretain, hstop₁, hc₁, hkept₁, hun₁⟩ := visitAll_spec .retain hc hb
  obtain ⟨c₂, hreject, hstop₂, hc₂, hkept₂, hun₂⟩ := visitAll_spec .reject hc hb
  have hread₁ := read_of_visitAll hc hb hretain
  have hread₂ := read_of_visitAll hc hb hreject
  have hcount : c₁.read - c.read = bs.length := by omega
  have hsplits := staying_splits bs c.unvisited
  refine ⟨c₁, c₂, hretain, hreject, ⟨hc₁, hc₂⟩, ⟨hstop₁, hstop₂⟩, by omega, by omega, ?_, ?_⟩
  · rw [hcount]
    exact ⟨hun₁, hun₂.trans hun₁.symm⟩
  · rw [hcount]
    exact ⟨_, _, hkept₁, hkept₂, hsplits, hsplits.perm⟩

end Filter

namespace Store
variable {s : Store k} {c : Candidates k}

/-- On any store and any range of it, ascending or not, the two filters part the candidates that they visit, or a
range of records is refused by both alike. -/
theorem filters_complementary (hs : s.WellFormed) (hc : c.WellFormed) (boundary : Word k) (start stop : Nat) :
    (start ≤ stop → stop ≤ s.size →
      ∃ c₁ c₂, s.filter .retain boundary start stop c = .ok c₁ ∧ s.filter .reject boundary start stop c = .ok c₂ ∧
        c.Complementary c₁ c₂) ∧
    ∀ stride,
      (checkRecords start stop s.size stride = .ok () →
        ∃ c₁ c₂, s.filterRecords .retain stride boundary start stop c = .ok (.ok c₁) ∧
          s.filterRecords .reject stride boundary start stop c = .ok (.ok c₂) ∧ c.Complementary c₁ c₂) ∧
      ∀ e, checkRecords start stop s.size stride = .error e →
        s.filterRecords .retain stride boundary start stop c = .ok (.error e) ∧
        s.filterRecords .reject stride boundary start stop c = .ok (.error e) := by
  refine ⟨?_, fun stride => ⟨?_, ?_⟩⟩
  · intro hle hl
    obtain ⟨bs, hfew, hrun⟩ := filter_visits hs hle hl hc boundary
    obtain ⟨c₁, c₂, hretain, hreject, hparts⟩ := Filter.visitAll_complementary hc hfew
    exact ⟨c₁, c₂, by rw [hrun, hretain], by rw [hrun, hreject], hparts⟩
  · intro hcheck
    rw [← length_toList hs] at hcheck
    obtain ⟨bs, hfew, hrun⟩ := filterRecords_visits hs (.of_check hcheck) hc boundary
    obtain ⟨c₁, c₂, hretain, hreject, hparts⟩ := Filter.visitAll_complementary hc hfew
    exact ⟨c₁, c₂, by rw [hrun, hretain]; rfl, by rw [hrun, hreject]; rfl, hparts⟩
  · intro e hcheck
    exact ⟨filterRecords_of_error hs hcheck, filterRecords_of_error hs hcheck⟩

/-- Neither the words nor the candidates ascend, and the range lies across a page break and holds no whole pairs. -/
theorem filters_complementary_on_unsorted :
    ∃ a, Paged.ofWords .generous (.even 2) (#[.ofInt 3, .ofInt 1, .ofInt 2] : Words .w64) = .ok (.ok a) ∧
      (∃ c₁ c₂, (paged a).filter .retain (.ofInt 9) 0 3 (.ofWords #[.ofInt 3, .ofInt 1, .ofInt 5]) = .ok c₁ ∧
        (paged a).filter .reject (.ofInt 9) 0 3 (.ofWords #[.ofInt 3, .ofInt 1, .ofInt 5]) = .ok c₂ ∧
        Candidates.Complementary (.ofWords #[.ofInt 3, .ofInt 1, .ofInt 5]) c₁ c₂) ∧
      (paged a).filterRecords .retain 2 (.ofInt 9) 0 3 (.ofWords #[.ofInt 3]) = .ok (.error (.strideMismatch 3 2)) := by
  have hp : (Partition.even 2).Valid := ⟨by decide, by decide⟩
  have hn : (#[.ofInt 3, .ofInt 1, .ofInt 2] : Words .w64).size < 2 ^ 63 := by decide
  obtain ⟨a, ha⟩ := Paged.ofWords_eq_ok hp hn (Host.generous_grantsMemory (by decide))
  obtain ⟨hready, -, hsize, -⟩ := Paged.ofWords_spec hp hn ha
  have hs : (paged a).WellFormed := ⟨hready.wellFormed, hready.size_lt⟩
  have hthree : (paged a).size = 3 := hsize
  have hfilter := (filters_complementary (c := .ofWords #[.ofInt 3, .ofInt 1, .ofInt 5]) hs
    ⟨by decide, by decide, by decide⟩ (.ofInt 9) 0 3).1
  have hrecords := ((filters_complementary (c := .ofWords #[.ofInt 3]) hs ⟨by decide, by decide, by decide⟩
    (.ofInt 9) 0 3).2 2).2
  rw [hthree] at hfilter hrecords
  exact ⟨a, ha, hfilter (by decide) (by decide), (hrecords (.strideMismatch 3 2) (by decide)).1⟩

end Store
end PagedWords
