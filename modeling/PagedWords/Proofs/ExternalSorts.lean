import PagedWords.Proofs.ScratchFolders

/-!
# Sorts that may need a scratch file

Before a word moves it is settled whether the range is one of records, whether a scratch file is needed, and whether one
can be had. So a sort where none can be made ends in one of three ways, and none of them leaves the words half sorted.
Wherever the making of the file fails, and whatever the folder, a file that was made is gone afterwards.
-/
namespace PagedWords.Store
variable {k : Width} {s : Store k} {stride start stop : Nat}

section Records
variable (hs : s.Ready) (hsize : s.size < 2 ^ 60) (hstride : stride < 2 ^ 63)
include hs hsize hstride

/-- Records are sorted alike wherever the sort has what it needs, and where it has not they are left as they are. -/
theorem sortRecords_of_check (hcheck : checkRecords start stop s.size stride = .ok ()) (how : RecordSort) :
    ∃ s', s.SortsTo s' stride start stop ∧ ∀ folder : Folder,
      (¬how.NeedsScratch ((stop - start) / stride) →
        s.sortRecords how folder stride start stop = .ok (.done folder s')) ∧
      (how.NeedsScratch ((stop - start) / stride) →
        (∃ first last, (∀ cause, folder.attempt ((stop - start) * k.bytes) ≠ .unmade cause) ∧
          s.sortRecords how folder stride start stop = .ok (.done (folder.visited first last) s')) ∨
        ∃ e left, folder.Refuses ((stop - start) * k.bytes) e left ∧
          s.sortRecords how folder stride start stop = .ok (.refused e s left)) := by
  have hr : RecordRange s.toList stride start stop := .of_check (by rw [hs.length_toList]; exact hcheck)
  have hl := hr.le_length
  rw [hs.length_toList] at hl
  have hroom : (stop - start) * k.bytes < 2 ^ 63 := k.mul_bytes_lt (by omega)
  have hserves := Folder.serving_serves "" [] ((stop - start) * k.bytes)
  obtain ⟨s', hrun, hs'⟩ := sortRecords_sortsTo hs (k.mul_bytes_lt hsize) hstride hr how hserves
  refine ⟨s', hs', fun folder => ?_⟩
  have hmoved : SortOutcome.Moved how ((stop - start) / stride) ((stop - start) * k.bytes) folder s _
      (s.sortRecords how folder stride start stop) := sortRecords_moved hroom hserves hs.wellFormed
  rw [hrun] at hmoved
  generalize s.sortRecords how folder stride start stop = r at hmoved ⊢
  cases hmoved with
  | same h => exact ⟨fun _ => rfl, fun needed => absurd rfl (h.resolve_left (not_not.2 needed) _ rfl)⟩
  | visited first last needed h => exact ⟨fun hneeds => absurd needed hneeds, fun _ => .inl ⟨first, last, h, rfl⟩⟩
  | refused e left needed h => exact ⟨fun hneeds => absurd needed hneeds, fun _ => .inr ⟨e, left, h, rfl⟩⟩

private theorem sortRecords_of_serves (hcheck : checkRecords start stop s.size stride = .ok ()) (how : RecordSort) :
    ∃ s', s.SortsTo s' stride start stop ∧ ∀ folder : Folder,
      folder.Serves ((stop - start) * k.bytes) ∨ ¬how.NeedsScratch ((stop - start) / stride) →
        s.sortRecords how folder stride start stop = .ok (.done folder s') := by
  obtain ⟨s', hs', h⟩ := sortRecords_of_check hs hsize hstride hcheck how
  refine ⟨s', hs', fun folder hfolder => ?_⟩
  by_cases needed : how.NeedsScratch ((stop - start) / stride)
  · have hserves := hfolder.resolve_right (not_not.2 needed)
    rcases (h folder).2 needed with ⟨first, last, -, hrun⟩ | ⟨e, left, hrefuses, -⟩
    · rw [hrun, Folder.visited_eq hserves.unlinks]
    · exact absurd hserves hrefuses.not_serves
  · exact (h folder).1 needed

private theorem sortRecords_of_barred (hcheck : checkRecords start stop s.size stride = .ok ()) {how : RecordSort}
    (needed : how.NeedsScratch ((stop - start) / stride)) {folder : Folder} (hbarred : folder.Barred) :
    ∃ cause, s.sortRecords how folder stride start stop = .ok (.refused (.io folder.path cause) s folder) := by
  obtain ⟨s', -, h⟩ := sortRecords_of_check hs hsize hstride hcheck how
  rcases (h folder).2 needed with ⟨first, last, hmade, -⟩ | ⟨e, left, hrefuses, hrun⟩
  · obtain ⟨cause, hunmade⟩ := hbarred ((stop - start) * k.bytes)
    exact absurd hunmade (hmade cause)
  · obtain ⟨rfl, cause, rfl⟩ := hrefuses.of_barred hbarred
    exact ⟨cause, hrun⟩

/-- Where no scratch file can be made, a sort of records refuses a range that is none; it sorts as in any folder what
it can sort without a scratch file; and anything else it refuses as the file system does, with the store as it was. In
every folder, wherever the making of the file fails, it answers; what is refused leaves the store as it was; and if the
file is removed when that is asked for, the folder is left as it was. -/
theorem sortRecords_atomic (start stop : Nat) (how : RecordSort) :
    (∀ folder : Folder, folder.Barred →
      (∀ e, checkRecords start stop s.size stride = .error e →
        s.sortRecords how folder stride start stop = .ok (.refused e s folder)) ∧
      (checkRecords start stop s.size stride = .ok () → ¬how.NeedsScratch ((stop - start) / stride) →
        ∃ s', s.sortRecords how folder stride start stop = .ok (.done folder s') ∧
          ∀ folder' : Folder, folder'.Serves ((stop - start) * k.bytes) →
            s.sortRecords how folder' stride start stop = .ok (.done folder' s')) ∧
      (checkRecords start stop s.size stride = .ok () → how.NeedsScratch ((stop - start) / stride) →
        ∃ cause, s.sortRecords how folder stride start stop = .ok (.refused (.io folder.path cause) s folder))) ∧
    ∀ folder : Folder, ∃ o, s.sortRecords how folder stride start stop = .ok o ∧
      (folder.unlinks = true → o.folder = folder) ∧ ∀ e, o.result = .error e → o.storage = s := by
  constructor
  · intro folder hbarred
    refine ⟨fun e hcheck => sortRecords_of_error hs how folder hcheck, fun hcheck hfew => ?_, fun hcheck needed => ?_⟩
    · obtain ⟨s', -, h⟩ := sortRecords_of_serves hs hsize hstride hcheck how
      exact ⟨s', h folder (.inr hfew), fun folder' hserves => h folder' (.inl hserves)⟩
    · exact sortRecords_of_barred hs hsize hstride hcheck needed hbarred
  · intro folder
    rcases hcheck : checkRecords start stop s.size stride with e | u
    · exact ⟨_, sortRecords_of_error hs how folder hcheck, fun _ => rfl, fun _ _ => rfl⟩
    · obtain ⟨s', -, h⟩ := sortRecords_of_check hs hsize hstride hcheck how
      by_cases needed : how.NeedsScratch ((stop - start) / stride)
      · rcases (h folder).2 needed with ⟨first, last, -, hrun⟩ | ⟨e, left, hrefuses, hrun⟩
        · exact ⟨_, hrun, fun hunlinks => Folder.visited_eq hunlinks first last, by rintro _ ⟨⟩⟩
        · exact ⟨_, hrun, hrefuses.left_eq, fun _ _ => rfl⟩
      · exact ⟨_, (h folder).1 needed, fun _ => rfl, by rintro _ ⟨⟩⟩

end Records

/-- Two pairs across a page break. With no folder there is no sort through a file, be the limit of the policy two or
none at all; below a limit of three they are sorted nevertheless. Three words are no pairs in any folder, and a file
that was made but cannot be mapped leaves the other file there alone. -/
theorem sortRecords_atomic_across_break :
    ∃ p, Paged.ofWords .generous (.even 3) #[.ofInt 2, .ofInt 5, .ofInt 1, .ofInt 6] = .ok (.ok (p : Paged .w32)) ∧
      ∃ missing plain full : Folder, missing = .barring "none" .notFound ∧ plain = .barring "file" .notADirectory ∧
        full = { Folder.serving "tmp" ["a"] with attempt := fun _ => .unmapped .outOfMemory } ∧
        (∃ cause, (paged p).sortRecords .external missing 2 0 4 =
          .ok (.refused (.io missing.path cause) (paged p) missing)) ∧
        (∃ cause, (paged p).sortRecords (.limited 2) plain 2 0 4 =
          .ok (.refused (.io plain.path cause) (paged p) plain)) ∧
        (∃ s', (paged p).sortRecords (.limited 3) missing 2 0 4 = .ok (.done missing s')) ∧
        (paged p).sortRecords .external missing 2 0 3 = .ok (.refused (.strideMismatch 3 2) (paged p) missing) ∧
        ∃ o, (paged p).sortRecords .external full 2 0 4 = .ok o ∧ o.folder = full := by
  have hp : (Partition.even 3).Valid := ⟨by decide, by decide⟩
  have hn : (#[.ofInt 2, .ofInt 5, .ofInt 1, .ofInt 6] : Words .w32).size < 2 ^ 63 := by decide
  obtain ⟨p, hmake⟩ := Paged.ofWords_eq_ok hp hn (Host.generous_grantsMemory (by decide))
  obtain ⟨hready, -, hsize, -⟩ := Paged.ofWords_spec hp hn hmake
  have hs : (paged p).Ready := ⟨⟨hready.wellFormed, hready.size_lt⟩, hready.writable⟩
  have hfour : (paged p).size = 4 := hsize
  have hlt : (paged p).size < 2 ^ 60 := by rw [hfour]; decide
  have hpairs : checkRecords 0 4 (paged p).size 2 = .ok () := by rw [hfour]; rfl
  have hodd : checkRecords 0 3 (paged p).size 2 = .error (.strideMismatch 3 2) := by rw [hfour]; rfl
  have hatomic := sortRecords_atomic hs hlt (by decide : 2 < 2 ^ 63)
  obtain ⟨missing, hmissing⟩ : ∃ f : Folder, f = .barring "none" .notFound := ⟨_, rfl⟩
  obtain ⟨plain, hplain⟩ : ∃ f : Folder, f = .barring "file" .notADirectory := ⟨_, rfl⟩
  obtain ⟨full, hfull⟩ :
      ∃ f : Folder, f = { Folder.serving "tmp" ["a"] with attempt := fun _ => .unmapped .outOfMemory } :=
    ⟨_, rfl⟩
  have hbarred : missing.Barred := hmissing ▸ Folder.barring_barred _ _
  have hbarred' : plain.Barred := hplain ▸ Folder.barring_barred _ _
  obtain ⟨-, hmemory, -⟩ := (hatomic 0 4 (.limited 3)).1 missing hbarred
  obtain ⟨s', hrun, -⟩ := hmemory hpairs (by simp [RecordSort.NeedsScratch])
  obtain ⟨o, hleft, hkept, -⟩ := (hatomic 0 4 .external).2 full
  refine ⟨p, hmake, missing, plain, full, hmissing, hplain, hfull,
    ((hatomic 0 4 .external).1 missing hbarred).2.2 hpairs ?_,
    ((hatomic 0 4 (.limited 2)).1 plain hbarred').2.2 hpairs ?_,
    ⟨s', hrun⟩, ((hatomic 0 3 .external).1 missing hbarred).1 _ hodd, o, hleft, hkept (by rw [hfull]; rfl)⟩
  · simp [RecordSort.NeedsScratch]
  · simp [RecordSort.NeedsScratch]

end PagedWords.Store
