import PagedWords.Store.Sorting
import PagedWords.Proofs.PagedSorts
import PagedWords.Proofs.StoreBulk

/-!
# Sorts of stores

Through a window the base is sorted, and a store of single words word by word. Whichever sort a policy chooses, the
keys come out the same; and words that are records of their own are nothing but their keys.
-/
namespace PagedWords.Store
variable {k : Width} {s : Store k} {stride start stop : Nat} {how : RecordSort} {vs : List (Record k)}

theorem bulkView (hs : s.Ready) : BulkCells.View (fun (s' : Store k) l => s.SameFrame s' ∧ s'.toList = l) where
  toView := view hs
  length_lt h := by
    obtain ⟨hfr, rfl⟩ := h
    have hs' := hs.of_sameFrame hfr
    rw [hs'.length_toList]
    exact size_lt hs'.wellFormed
  swapRecords n i j h hi hj hij := by
    obtain ⟨hfr, rfl⟩ := h
    have hs' := hs.of_sameFrame hfr
    rw [hs'.length_toList] at hi hj
    obtain ⟨s', hrun, hfr', hl⟩ := swapRecords_spec hs' hi hj hij
    exact ⟨s', hrun, hfr.trans hfr', hl⟩
  writeRange h hfits := by
    obtain ⟨hfr, rfl⟩ := h
    have hs' := hs.of_sameFrame hfr
    rw [hs'.length_toList] at hfits
    obtain ⟨s', hrun, hfr', hl⟩ := writeRange_spec hs' hfits
    exact ⟨s', hrun, hfr.trans hfr', hl⟩

theorem sortableView (hs : s.Ready) : Sortable.View (fun (s' : Store k) l => s.SameFrame s' ∧ s'.toList = l) :=
  ⟨bulkView hs, fun _ h => h _ _ (bulkView hs)⟩

theorem sort_spec (hs : s.Ready) {algorithm : SortAlgorithm} (hr : RecordRange s.toList 1 start stop)
    (hperm : vs.Perm (records s.toList 1 start stop))
    (h : Sorting.Rearranges (.inMemory algorithm) 1 (records s.toList 1 start stop) vs) :
    ∃ s', s.sort algorithm start stop = .ok s' ∧ s.SameFrame s' ∧ s'.toList = patch s.toList start vs.flatten := by
  have hlen := hr.length_flatten_of_perm hperm
  induction s generalizing start stop with
  | slice ws =>
    have hle := hr.le
    have hl := hr.le_length
    obtain ⟨ws', hrun, hws', -⟩ := Words.sortableView.sort ⟨rfl, hs.wellFormed⟩ hr hperm h
    exact lift_slice (fun _ => rfl) ⟨ws', hrun, hws'⟩ (length_patch (by rw [hlen]; omega))
  | page p => exact lift_page (fun _ => rfl) (Page.sort_spec hs.page hs.wellFormed hr hperm h)
  | paged a => exact lift_paged (fun _ => rfl) (Paged.sort_spec hs.paged hr hperm h)
  | window base low high ih =>
    obtain ⟨hsize, hbase⟩ := hs.wellFormed.recordRange_base hr
    have hle := hr.le
    rw [toList, records_stretch hr.le hsize] at hperm h
    rw [sort, windowSpan_bind hr.le hsize]
    exact lift_window hs (fun _ => rfl) (ih hs.base hbase hperm h (by omega)) (by omega)
  | elementwise base ih => exact (sortableView hs).sort ⟨SameFrame.refl _, rfl⟩ hr hperm h

theorem sortRecords_spec (hs : s.Ready) (hr : RecordRange s.toList stride start stop)
    (hperm : vs.Perm (records s.toList stride start stop))
    (h : Sorting.Rearranges how stride (records s.toList stride start stop) vs)
    (hroom : (stop - start) * k.bytes < 2 ^ 63) {folder : Folder} (hfolder : folder.Serves ((stop - start) * k.bytes)) :
    ∃ s', s.sortRecords how folder stride start stop = .ok (.done folder s') ∧ s.SameFrame s' ∧
      s'.toList = patch s.toList start vs.flatten := by
  have hlen := hr.length_flatten_of_perm hperm
  induction s generalizing start stop with
  | slice ws =>
    have hle := hr.le
    have hl := hr.le_length
    obtain ⟨ws', hrun, hws', -⟩ := Words.sortableView.sortRecords ⟨rfl, hs.wellFormed⟩ hr hperm h hroom hfolder
    exact lift_slice (fun _ => rfl) ⟨ws', hrun, hws'⟩ (length_patch (by rw [hlen]; omega))
  | page p => exact lift_page (fun _ => rfl) (Page.sortRecords_spec hs.page hs.wellFormed hr hperm h hroom hfolder)
  | paged a => exact lift_paged (fun _ => rfl) (Paged.sortRecords_spec hs.paged hr hperm h hroom hfolder)
  | window base low high ih =>
    obtain ⟨hsize, hbase⟩ := hs.wellFormed.recordRange_base hr
    have hle := hr.le
    rw [toList, records_stretch hr.le hsize] at hperm h
    rw [sortRecords, windowCheck_eq hr.le hsize]
    rw [← Nat.add_sub_add_left low stop start] at hroom hfolder
    exact lift_window hs (fun _ => rfl) (ih hs.base hbase hperm h hroom hfolder (by omega)) (by omega)
  | elementwise base ih => exact (sortableView hs).sortRecords ⟨SameFrame.refl _, rfl⟩ hr hperm h hroom hfolder

theorem sortRecords_of_error (hs : s.Ready) {e : Error} (how : RecordSort) (folder : Folder)
    (hcheck : checkRecords start stop s.size stride = .error e) :
    s.sortRecords how folder stride start stop = .ok (.refused e s folder) := by
  induction s generalizing start stop with
  | slice ws =>
    rw [sortRecords, Sorting.sortRecords_of_error how folder hcheck]
    rfl
  | page p =>
    rw [sortRecords, Page.sortRecords_of_error hs.page how folder hcheck]
    rfl
  | paged a =>
    rw [sortRecords, Paged.sortRecords_of_error hs.paged how folder hcheck]
    rfl
  | window base low high ih =>
    rw [sortRecords]
    rcases hs.wellFormed.refused_base hcheck with hwindow | ⟨hwindow, hbase⟩
    · rw [hwindow]
    · rw [hwindow, ih hs.base hbase]
      rfl
  | elementwise base ih => exact Sorting.sortRecords_of_error how folder hcheck

/-- The second store is the first with the records of a range brought into ascending order of their keys. -/
structure SortsTo (s s' : Store k) (stride start stop : Nat) : Prop where
  frame : s.SameFrame s'
  sorted : SortOf (records s.toList stride start stop) (records s'.toList stride start stop)
  before : s'.toList.take start = s.toList.take start
  after : s'.toList.drop stop = s.toList.drop stop

namespace SortsTo
variable {s₁ s₂ : Store k}

theorem of_patch {s' : Store k} (hr : RecordRange s.toList stride start stop)
    (hvs : SortOf (records s.toList stride start stop) vs) (hfr : s.SameFrame s')
    (hl : s'.toList = patch s.toList start vs.flatten) : s.SortsTo s' stride start stop := by
  have hle := hr.le
  have hstop := hr.le_length
  have hlen := hr.length_flatten_of_perm hvs.perm
  refine ⟨hfr, ?_, ?_, ?_⟩
  · rw [hl, hr.records_patch hvs.perm]
    exact hvs
  · rw [hl, take_patch (Nat.le_refl _) (by omega)]
  · rw [hl, drop_patch (by omega) (by omega)]

theorem keys_eq (h₁ : s.SortsTo s₁ stride start stop) (h₂ : s.SortsTo s₂ stride start stop) :
    recordKeys s₁.toList stride start stop = recordKeys s₂.toList stride start stop :=
  h₁.sorted.keys_eq h₂.sorted

theorem eq_of_words (hs : s.WellFormed) (hle : start ≤ stop) (hl : stop ≤ s.size) (h₁ : s.SortsTo s₁ 1 start stop)
    (h₂ : s.SortsTo s₂ 1 start stop) : s₁ = s₂ := by
  have hlen : ∀ {s' : Store k}, s.SameFrame s' → stop ≤ s'.toList.length := by
    intro s' hfr
    rw [length_toList (hfr.wellFormed hs), hfr.size_eq]
    exact hl
  have hkeys := keys_eq h₁ h₂
  rw [recordKeys_one hle (hlen h₁.frame), recordKeys_one hle (hlen h₂.frame)] at hkeys
  refine h₁.frame.eq_of_toList h₂.frame hs ?_
  rw [← take_stretch_drop s₁.toList hle, ← take_stretch_drop s₂.toList hle, hkeys, h₁.before, h₂.before, h₁.after,
    h₂.after]

end SortsTo

section Policies
variable (hs : s.Ready)
include hs

section Room
variable (hroom : s.size * k.bytes < 2 ^ 63)
include hroom

theorem sortRecords_sortsTo (hstride : stride < 2 ^ 63) (hr : RecordRange s.toList stride start stop) (how : RecordSort)
    {folder : Folder} (hfolder : folder.Serves ((stop - start) * k.bytes)) :
    ∃ s', s.sortRecords how folder stride start stop = .ok (.done folder s') ∧ s.SortsTo s' stride start stop := by
  have hle := hr.le
  have hl := hr.le_length
  rw [hs.length_toList] at hl
  obtain ⟨vs, hvs, h⟩ := hr.exists_rearranges (by rw [hs.length_toList]; exact hroom) hstride how
  have hrange : (stop - start) * k.bytes < 2 ^ 63 := Nat.lt_of_le_of_lt (Nat.mul_le_mul_right _ (by omega)) hroom
  obtain ⟨s', hrun, hfr, hl⟩ := sortRecords_spec hs hr hvs.perm h hrange hfolder
  exact ⟨s', hrun, .of_patch hr hvs hfr hl⟩

theorem sort_sortsTo (hle : start ≤ stop) (hl : stop ≤ s.size) (algorithm : SortAlgorithm) :
    ∃ s', s.sort algorithm start stop = .ok s' ∧ s.SortsTo s' 1 start stop := by
  have hr : RecordRange s.toList 1 start stop := .one hle (by rw [hs.length_toList]; exact hl)
  obtain ⟨vs, hvs, h⟩ := hr.exists_rearranges (by rw [hs.length_toList]; exact hroom) (by decide) (.inMemory algorithm)
  obtain ⟨s', hrun, hfr, hl⟩ := sort_spec hs hr hvs.perm h
  exact ⟨s', hrun, .of_patch hr hvs hfr hl⟩

end Room

/-- The sort that a policy chooses cannot be told from the words it leaves, nor from those that the sorts in memory
leave; of records it cannot be told from the keys. -/
theorem sort_policies_agree (hsize : s.size < 2 ^ 60) (stride start stop : Nat) :
    (start ≤ stop → stop ≤ s.size → ∃ s', s.SortsTo s' 1 start stop ∧
      (∀ c : SortingPolicy, c.folder.Serves ((stop - start) * k.bytes) →
        s.sortRecords (.limited c.memoryLimit) c.folder 1 start stop = .ok (.done c.folder s')) ∧
      ∀ algorithm, s.sort algorithm start stop = .ok s') ∧
    (stride < 2 ^ 63 → RecordRange s.toList stride start stop →
      ∀ c c' : SortingPolicy, c.folder.Serves ((stop - start) * k.bytes) → c'.folder.Serves ((stop - start) * k.bytes) →
        ∃ s₁ s₂,
        s.sortRecords (.limited c.memoryLimit) c.folder stride start stop = .ok (.done c.folder s₁) ∧
        s.sortRecords (.limited c'.memoryLimit) c'.folder stride start stop = .ok (.done c'.folder s₂) ∧
        recordKeys s₁.toList stride start stop = recordKeys s₂.toList stride start stop ∧
        s.SortsTo s₁ stride start stop ∧ s.SortsTo s₂ stride start stop) := by
  constructor
  · intro hle hl
    have hr : RecordRange s.toList 1 start stop := .one hle (by rw [hs.length_toList]; exact hl)
    obtain ⟨s', -, hs'⟩ := sort_sortsTo hs (k.mul_bytes_lt hsize) hle hl .quick
    refine ⟨s', hs', fun c hc => ?_, fun algorithm => ?_⟩
    · obtain ⟨s'', hrun, hs''⟩ :=
        sortRecords_sortsTo hs (k.mul_bytes_lt hsize) (by decide) hr (.limited c.memoryLimit) hc
      rw [hs'.eq_of_words hs.wellFormed hle hl hs'', hrun]
    · obtain ⟨s'', hrun, hs''⟩ := sort_sortsTo hs (k.mul_bytes_lt hsize) hle hl algorithm
      rw [hs'.eq_of_words hs.wellFormed hle hl hs'', hrun]
  · intro hstride hr c c' hc hc'
    obtain ⟨s₁, hrun₁, hs₁⟩ := sortRecords_sortsTo hs (k.mul_bytes_lt hsize) hstride hr (.limited c.memoryLimit) hc
    obtain ⟨s₂, hrun₂, hs₂⟩ := sortRecords_sortsTo hs (k.mul_bytes_lt hsize) hstride hr (.limited c'.memoryLimit) hc'
    exact ⟨s₁, s₂, hrun₁, hrun₂, hs₁.keys_eq hs₂, hs₁, hs₂⟩

end Policies

/-- Three pairs, two of them with the key `2`, are sorted in memory or through a file; so are the words after the
first. -/
theorem sort_policies_agree_on_pairs :
    ∃ s : Store .w32, s = slice #[.ofInt 2, .ofInt 5, .ofInt 1, .ofInt 6, .ofInt 2, .ofInt 4] ∧
      (∃ s', (∀ algorithm, s.sort algorithm 1 6 = .ok s') ∧
        s.sortRecords (.limited 0) (.serving "tmp" []) 1 1 6 = .ok (.done (.serving "tmp" []) s')) ∧
      ∃ s₁ s₂,
        s.sortRecords (.limited 0) (.serving "tmp" []) 2 0 6 = .ok (.done (.serving "tmp" []) s₁) ∧
        s.sortRecords (.limited 9) (.serving "var" ["a"]) 2 0 6 = .ok (.done (.serving "var" ["a"]) s₂) ∧
        recordKeys s₁.toList 2 0 6 = recordKeys s₂.toList 2 0 6 := by
  obtain ⟨s, hs⟩ : ∃ s : Store .w32, s = slice #[.ofInt 2, .ofInt 5, .ofInt 1, .ofInt 6, .ofInt 2, .ofInt 4] := ⟨_, rfl⟩
  have hready : s.Ready := by
    rw [hs]
    exact ⟨(by decide : 6 < 2 ^ 63), rfl⟩
  have hsize : s.size = 6 := by rw [hs]; rfl
  have hpairs : RecordRange s.toList 2 0 6 :=
    ⟨by decide, by decide, Nat.le_of_eq (hready.length_toList.trans hsize).symm, by decide⟩
  have hlt : s.size < 2 ^ 60 := by rw [hsize]; decide
  obtain ⟨s', -, hpolicy, hsort⟩ := (sort_policies_agree hready hlt 1 1 6).1 (by decide) (Nat.le_of_eq hsize.symm)
  obtain ⟨s₁, s₂, hrun₁, hrun₂, hkeys, -⟩ := (sort_policies_agree hready hlt 2 0 6).2 (by decide) hpairs
    ⟨.serving "tmp" [], 0⟩ ⟨.serving "var" ["a"], 9⟩ (Folder.serving_serves _ _ _) (Folder.serving_serves _ _ _)
  exact ⟨s, hs, ⟨s', hsort, hpolicy ⟨.serving "tmp" [], 0⟩ (Folder.serving_serves _ _ _)⟩, s₁, s₂, hrun₁, hrun₂, hkeys⟩

end PagedWords.Store
