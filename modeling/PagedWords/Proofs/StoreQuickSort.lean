import PagedWords.Proofs.ScratchFolders

/-!
# Quicksort of stores

The sort is counted in steps, and the count is that of the records: it runs out on no store, so it says nothing about
the result. Of the folder that a sort of records is given it makes no use.
-/
namespace PagedWords.Store
variable {k : Width} {s : Store k} {stride start stop : Nat}

/-- The sort of the parts has ended after as many steps as there are records. -/
theorem partsSort_eq_sortParts (hs : s.Ready) (hstride : stride < 2 ^ 63) (hr : RecordRange s.toList stride start stop)
    {fuel : Nat} (hfuel : (stop - start) / stride ≤ fuel) :
    Sorting.partsSort stride fuel start (stop - stride) s = Sorting.sortParts s stride start (stop - stride) := by
  have hle := hr.le
  have hl := hr.le_length
  have hus : Uniform stride (records s.toList stride start stop) := fun r => hr.length_of_mem
  have hwords : (records s.toList stride start stop).flatten.length = stop - start := by
    rw [hr.flatten, length_stretch (by omega)]
  have hcount : (records s.toList stride start stop).length ≤ fuel := by
    rw [← Nat.mul_div_cancel (records s.toList stride start stop).length hr.pos, ← length_flatten_records hus, hwords]
    exact hfuel
  obtain ⟨vs, hvs, hturns⟩ := Sorting.sortParts_turns hr.pos hstride hus
  obtain ⟨hparts, hsteps⟩ := hturns (Store k) _ (bulkView hs)
  have hlen := hvs.perm.flatten.length_eq
  have hself : s.SameFrame s ∧ s.toList = s.toList := ⟨SameFrame.refl s, rfl⟩
  obtain ⟨s₁, hrun₁, hfr₁, hl₁⟩ := (hsteps fuel hcount).run hlen (by omega) hl hr.flatten hself
  obtain ⟨s₂, hrun₂, hfr₂, hl₂⟩ := hparts.run hlen (by omega) hl hr.flatten hself
  rw [hrun₁, hrun₂, hfr₁.eq_of_toList hfr₂ hs.wellFormed (hl₁.trans hl₂.symm)]

/-- Quicksort brings the records of a range into ascending order of their keys, whatever they hold and wherever the
range begins, and leaves all other words; single words are sorted the same as words and as records. -/
theorem quickSort_sortsTo (hs : s.Ready) (hsize : s.size < 2 ^ 60) (hstride : stride < 2 ^ 63)
    (hr : RecordRange s.toList stride start stop) :
    (∃ s', s.SortsTo s' stride start stop ∧
      (∀ folder, s.sortRecords (.inMemory .quick) folder stride start stop = .ok (.done folder s')) ∧
      (stride = 1 → s.sort .quick start stop = .ok s')) ∧
    ∀ fuel, (stop - start) / stride ≤ fuel →
      Sorting.partsSort stride fuel start (stop - stride) s = Sorting.sortParts s stride start (stop - stride) := by
  have hle := hr.le
  have hl := hr.le_length
  rw [hs.length_toList] at hl
  have hroom := k.mul_bytes_lt hsize
  have hrange : (stop - start) * k.bytes < 2 ^ 63 := k.mul_bytes_lt (by omega)
  refine ⟨?_, fun fuel hfuel => partsSort_eq_sortParts hs hstride hr hfuel⟩
  have hfolder := Folder.serving_serves "" [] ((stop - start) * k.bytes)
  obtain ⟨s', hrun, hs'⟩ := sortRecords_sortsTo hs hroom hstride hr (.inMemory .quick) hfolder
  refine ⟨s', hs', sortRecords_inMemory hrange hfolder hs.wellFormed hrun, ?_⟩
  rintro rfl
  obtain ⟨s'', hsort, hs''⟩ := sort_sortsTo hs hroom hle hl .quick
  rw [hsort, hs'.eq_of_words hs.wellFormed hle hl hs'']

/-- Sixty-five pairs with the same key, from the second word on: no scan passes a record, and both parts of every
partition are still to be sorted. -/
theorem quickSort_sortsTo_of_equal_keys :
    ∃ s s' : Store .w32, s = slice (Array.replicate 131 Word.zero) ∧ s.SortsTo s' 2 1 131 ∧
      s.sortRecords (.inMemory .quick) (.barring "none" .notFound) 2 1 131 =
        .ok (.done (.barring "none" .notFound) s') ∧
      Sorting.partsSort 2 65 1 129 s = Sorting.partsSort 2 1000 1 129 s := by
  obtain ⟨s, hs⟩ : ∃ s : Store .w32, s = slice (Array.replicate 131 Word.zero) := ⟨_, rfl⟩
  have hsize : s.size = 131 := by
    rw [hs]
    exact Array.size_replicate
  have hready : s.Ready := by
    rw [hs]
    exact ⟨show (Array.replicate 131 Word.zero).size < 2 ^ 63 by rw [Array.size_replicate]; decide, rfl⟩
  have hpairs : RecordRange s.toList 2 1 131 :=
    ⟨by decide, by decide, Nat.le_of_eq (hready.length_toList.trans hsize).symm, by decide⟩
  obtain ⟨⟨s', hs', hsort, -⟩, hsteps⟩ := quickSort_sortsTo hready (by rw [hsize]; decide) (by decide) hpairs
  exact ⟨s, s', hs, hs', hsort _, (hsteps 65 (by decide)).trans (hsteps 1000 (by decide)).symm⟩

end PagedWords.Store
