import PagedWords.Proofs.ScratchFolders

/-!
# Stable sorts of stores

Insertion sort moves a record past larger keys only, and a merge takes the record of its left run when keys are equal,
so both leave records of one key in the order in which they stood. Quicksort does not; but in chunks as small as the
parts that it leaves to insertion sort there is nothing to part. There is one stable order, and so all of these sorts
leave the same words.
-/
namespace PagedWords
variable {k : Width}

theorem StableSortOf.eq_mergeSort {us vs : List (Record k)} (h : StableSortOf us vs) :
    vs = us.mergeSort (fun r s => recordKey r ≤ recordKey s) := by
  have hperm := List.mergeSort_perm us (fun r s => recordKey r ≤ recordKey s)
  have hsorted := List.pairwise_mergeSort decide_recordKey_trans decide_recordKey_total us
  simp only [decide_eq_true_eq] at hsorted
  refine (h.unique ⟨⟨hperm, hsorted⟩, fun x => ?_⟩).symm
  have hties : (us.filter (recordKey · = x)).Pairwise (fun r s => decide (recordKey r ≤ recordKey s) = true) := by
    refine List.pairwise_of_forall_mem_list fun r hr s hs => decide_eq_true (Std.le_of_eq ?_)
    have hrx := of_decide_eq_true (List.mem_filter.1 hr).2
    have hsx := of_decide_eq_true (List.mem_filter.1 hs).2
    exact hrx.trans hsx.symm
  have hkept := (List.sublist_mergeSort decide_recordKey_trans decide_recordKey_total hties
    List.filter_sublist).filter (recordKey · = x)
  rw [List.filter_filter] at hkept
  simp only [Bool.and_self] at hkept
  exact (hkept.eq_of_length ((hperm.filter _).length_eq).symm).symm

namespace Store
variable {s : Store k} {stride start stop : Nat}

/-- The second store is the first with the records of a range sorted, those of equal keys in the order in which they
stood. -/
structure SortsStablyTo (s s' : Store k) (stride start stop : Nat) : Prop extends s.SortsTo s' stride start stop where
  ties : KeepsTies (records s.toList stride start stop) (records s'.toList stride start stop)

/-- Insertion sort of records is stable, and so is a sort with a limit of no more records than quicksort leaves to
insertion sort, whether it merges chunks or finds the range short. -/
theorem sortRecords_sortsStablyTo (hs : s.Ready) (hsize : s.size < 2 ^ 60) (hstride : stride < 2 ^ 63)
    (hr : RecordRange s.toList stride start stop) :
    ∃ s', s.SortsStablyTo s' stride start stop ∧
      records s'.toList stride start stop =
        (records s.toList stride start stop).mergeSort (fun r r' => recordKey r ≤ recordKey r') ∧
      (∀ folder, s.sortRecords (.inMemory .insertion) folder stride start stop = .ok (.done folder s')) ∧
      ∀ memoryLimit ≤ 32, ∀ folder : Folder, folder.Serves ((stop - start) * k.bytes) →
        s.sortRecords (.limited memoryLimit) folder stride start stop = .ok (.done folder s') := by
  have hle := hr.le
  have hl := hr.le_length
  rw [hs.length_toList] at hl
  have hrange : (stop - start) * k.bytes < 2 ^ 63 := k.mul_bytes_lt (by omega)
  have hus : Uniform stride (records s.toList stride start stop) := fun r => hr.length_of_mem
  obtain ⟨vs, hvs, hinsertion, hlimited⟩ := Sorting.exists_rearranges_stably hr.pos hstride hus
  have hfolder := Folder.serving_serves "" [] ((stop - start) * k.bytes)
  obtain ⟨s', hrun, hfr, hwords⟩ := sortRecords_spec hs hr hvs.perm hinsertion hrange hfolder
  have hrecords : records s'.toList stride start stop = vs := by rw [hwords, hr.records_patch hvs.perm]
  refine ⟨s', ⟨.of_patch hr hvs.toSortOf hfr hwords, hrecords ▸ hvs.ties⟩, hrecords.trans hvs.eq_mergeSort,
    sortRecords_inMemory hrange hfolder hs.wellFormed hrun, ?_⟩
  intro memoryLimit hlimit folder hfolder'
  obtain ⟨s'', hrun', hfr', hwords'⟩ := sortRecords_spec hs hr hvs.perm (hlimited memoryLimit hlimit) hrange hfolder'
  rw [hrun', hfr'.eq_of_toList hfr hs.wellFormed (hwords'.trans hwords.symm)]

/-- Five pairs in ragged chunks of two, in chunks of one, and in one chunk: the pair `1, 1` stays before `1, 4`, and
`2, 0` before `2, 2`. -/
theorem sortRecords_sortsStablyTo_of_pairs :
    ∃ s s' : Store .w32, s = slice #[.ofInt 2, .ofInt 0, .ofInt 1, .ofInt 1, .ofInt 2, .ofInt 2, .ofInt 0, .ofInt 3,
        .ofInt 1, .ofInt 4] ∧
      records s'.toList 2 0 10 = [[.ofInt 0, .ofInt 3], [.ofInt 1, .ofInt 1], [.ofInt 1, .ofInt 4],
        [.ofInt 2, .ofInt 0], [.ofInt 2, .ofInt 2]] ∧
      s.sortRecords (.inMemory .insertion) (.barring "none" .notFound) 2 0 10 =
        .ok (.done (.barring "none" .notFound) s') ∧
      s.sortRecords (.limited 3) (.serving "tmp" []) 2 0 10 = .ok (.done (.serving "tmp" []) s') ∧
      s.sortRecords (.limited 0) (.serving "tmp" []) 2 0 10 = .ok (.done (.serving "tmp" []) s') ∧
      s.sortRecords (.limited 32) (.serving "tmp" []) 2 0 10 = .ok (.done (.serving "tmp" []) s') := by
  obtain ⟨s, hs⟩ : ∃ s : Store .w32, s = slice #[.ofInt 2, .ofInt 0, .ofInt 1, .ofInt 1, .ofInt 2, .ofInt 2, .ofInt 0,
    .ofInt 3, .ofInt 1, .ofInt 4] := ⟨_, rfl⟩
  have hready : s.Ready := by
    rw [hs]
    exact ⟨(by decide : 10 < 2 ^ 63), rfl⟩
  have hsize : s.size = 10 := by rw [hs]; rfl
  have hpairs : RecordRange s.toList 2 0 10 :=
    ⟨by decide, by decide, Nat.le_of_eq (hready.length_toList.trans hsize).symm, by decide⟩
  obtain ⟨s', -, hsorted, hinsertion, hlimited⟩ :=
    sortRecords_sortsStablyTo hready (by rw [hsize]; decide) (by decide) hpairs
  have hfolder := Folder.serving_serves "tmp" []
  refine ⟨s, s', hs, ?_, hinsertion _, hlimited 3 (by decide) _ (hfolder _), hlimited 0 (by decide) _ (hfolder _),
    hlimited 32 (by decide) _ (hfolder _)⟩
  have hrecords : records s.toList 2 0 10 = [[.ofInt 2, .ofInt 0], [.ofInt 1, .ofInt 1], [.ofInt 2, .ofInt 2],
      [.ofInt 0, .ofInt 3], [.ofInt 1, .ofInt 4]] := by
    rw [hs]
    rfl
  rw [hsorted, hrecords]
  simp +decide [List.mergeSort]

end Store
end PagedWords
