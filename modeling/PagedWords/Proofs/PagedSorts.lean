import PagedWords.Paged.Sorting
import PagedWords.Proofs.Creation
import PagedWords.Proofs.SortPolicies

/-!
# Sorts of arrays in pages

A range on one page is sorted there, and any other one across the pages. Both leave the words that the same sort
leaves of the words in one piece.
-/
namespace PagedWords
variable {k : Width} {stride start stop : Nat} {how : RecordSort} {vs : List (Record k)}

namespace Words

theorem bulkView : BulkCells.View (fun (ws : Words k) l => ws.toList = l ∧ l.length < 2 ^ 63) where
  reads h := h.1 ▸ reads _
  set pos w h hpos := by
    obtain ⟨ws', hset, hl⟩ := view.set pos w h.1 hpos
    exact ⟨ws', hset, hl, by rw [List.length_set]; exact h.2⟩
  length_lt h := h.2
  swapRecords n i j h hi hj hij := by
    obtain ⟨rfl, hlt⟩ := h
    obtain ⟨ws', hrun, hl⟩ := swapRecords_spec hi hj hij
    exact ⟨ws', hrun, hl, by rw [length_swapStretches hi hj]; exact hlt⟩
  writeRange h hfits := by
    obtain ⟨rfl, hlt⟩ := h
    obtain ⟨ws', hrun, hl⟩ := writeRange_spec hfits
    exact ⟨ws', hrun, hl, by rw [length_patch hfits]; exact hlt⟩

theorem sortableView : Sortable.View (fun (ws : Words k) l => ws.toList = l ∧ l.length < 2 ^ 63) :=
  ⟨bulkView, fun _ h => h _ _ bulkView⟩

end Words

namespace Page
variable {p : Page k}

theorem length_patch_records (hr : RecordRange p.words.toList stride start stop)
    (hperm : vs.Perm (records p.words.toList stride start stop)) :
    (patch p.words.toList start vs.flatten).length = p.size := by
  have hle := hr.le
  have hl := hr.le_length
  rw [p.length_words] at hl
  exact length_patch_words (by rw [hr.length_flatten_of_perm hperm]; omega)

variable (hw : p.isWritable = true) (hsize : p.size < 2 ^ 63)
include hw hsize

theorem sort_spec {algorithm : SortAlgorithm} (hr : RecordRange p.words.toList 1 start stop)
    (hperm : vs.Perm (records p.words.toList 1 start stop))
    (h : Sorting.Rearranges (.inMemory algorithm) 1 (records p.words.toList 1 start stop) vs) :
    ∃ p', p.sort algorithm start stop = .ok p' ∧ p'.frame = p.frame ∧
      p'.words.toList = patch p.words.toList start vs.flatten := by
  obtain ⟨ws, hrun, hl, -⟩ := Words.sortableView.sort ⟨rfl, p.length_words ▸ hsize⟩ hr hperm h
  exact modify_spec hw ⟨ws, hrun, hl⟩ (length_patch_records hr hperm)

theorem sortRecords_spec (hr : RecordRange p.words.toList stride start stop)
    (hperm : vs.Perm (records p.words.toList stride start stop))
    (h : Sorting.Rearranges how stride (records p.words.toList stride start stop) vs)
    (hroom : (stop - start) * k.bytes < 2 ^ 63) {folder : Folder} (hfolder : folder.Serves ((stop - start) * k.bytes)) :
    ∃ p', p.sortRecords how folder stride start stop = .ok (.done folder p') ∧ p'.frame = p.frame ∧
      p'.words.toList = patch p.words.toList start vs.flatten := by
  obtain ⟨ws, hrun, hl, -⟩ := Words.sortableView.sortRecords ⟨rfl, p.length_words ▸ hsize⟩ hr hperm h hroom hfolder
  have hlen := congrArg List.length hl
  rw [length_patch_records hr hperm] at hlen
  refine ⟨⟨ws, p.region⟩, ?_, Prod.ext hlen rfl, hl⟩
  simp only [sortRecords, hw, if_true, hrun, bind, Except.bind, pure, Except.pure]
  rfl

omit hsize in
theorem sortRecords_of_error {e : Error} (how : RecordSort) (folder : Folder)
    (hcheck : checkRecords start stop p.size stride = .error e) :
    p.sortRecords how folder stride start stop = .ok (.refused e p folder) := by
  simp only [sortRecords, hw, if_true]
  rw [Sorting.sortRecords_of_error (a := p.words) how folder hcheck]
  rfl

end Page

namespace Paged
variable {a : Paged k}

theorem isPiece_of_confined (ha : a.WellFormed) {c : Piece} (h : a.confined? start stop = some c) :
    stop ≤ a.size ∧ a.partition.IsPiece start stop c := by
  rw [confined?] at h
  split at h
  · next hconf =>
    cases h
    exact ⟨hconf.1, Partition.isPiece_of_samePage ha.partition hconf.2⟩
  · cases h

/-- What is done to a range on the page that it is confined to is done to it in the array. -/
theorem replace_of_confined (ha : a.Ready) {c : Piece} (h : a.confined? start stop = some c) :
    ∃ p, a.page c.page = .ok p ∧ p.isWritable = true ∧ p.size < 2 ^ 63 ∧ c.stop ≤ p.size ∧
      c.start + (stop - start) = c.stop ∧
      stretch p.words.toList c.start (stop - start) = stretch a.toList start (stop - start) ∧
      ∀ (p' : Page k) (m : List (Word k)), p'.frame = p.frame → m.length = stop - start →
        p'.words.toList = patch p.words.toList c.start m →
        ({ a with pages := a.pages.setIfInBounds c.page p' } : Paged k).frame = a.frame ∧
          ({ a with pages := a.pages.setIfInBounds c.page p' } : Paged k).toList = patch a.toList start m := by
  obtain ⟨hl, hc⟩ := isPiece_of_confined ha.wellFormed h
  obtain ⟨p, hp, hstop, hwords⟩ := page_of_piece ha.wellFormed ha.size_lt hc hl
  have hsize := page_size ha.wellFormed ha.size_lt hp
  have hlt := ha.size_lt
  have hsum := hc.start_add_length
  rw [hc.length] at hwords hsum
  exact ⟨p, page_eq_ok hp, page_isWritable ha.writable hp, by omega, hstop, hsum, hwords,
    fun p' m hfr hm => replacePage_spec ha hc hp hstop hfr (Nat.le_of_eq hm)⟩

theorem bulkView (ha : a.Ready) : BulkCells.View (fun (a' : Paged k) l => a'.frame = a.frame ∧ a'.toList = l) where
  toView := view ha.wellFormed ha.size_lt ha.writable
  length_lt h := by
    obtain ⟨hfr, rfl⟩ := h
    rw [(ha.of_frame hfr).length_toList]
    exact (ha.of_frame hfr).size_lt
  swapRecords n i j h hi hj hij := (view ha.wellFormed ha.size_lt ha.writable).swapRecords n i j h hi hj hij
  writeRange h hfits := by
    obtain ⟨hfr, rfl⟩ := h
    rw [(ha.of_frame hfr).length_toList] at hfits
    obtain ⟨a', hrun, hfr', hl⟩ := writeRange_spec (ha.of_frame hfr) hfits
    exact ⟨a', hrun, hfr'.trans hfr, hl⟩

theorem sortableView (ha : a.Ready) : Sortable.View (fun (a' : Paged k) l => a'.frame = a.frame ∧ a'.toList = l) where
  toBulkView := bulkView ha
  quickSort {us vs} hperm h := by
    rintro x y a' ⟨hfr, hl⟩
    show ∃ a'', a'.quickSort x.length (x.length + us.flatten.length) = .ok a'' ∧ _
    rw [quickSort]
    split
    · next c hconf =>
      obtain ⟨p, hp, hw, hsize, hstop, hsum, hwords, hreplace⟩ := replace_of_confined (ha.of_frame hfr) hconf
      rw [Nat.add_sub_cancel_left] at hsum hwords hreplace
      rw [hl, stretch_append] at hwords
      have hspan : c.stop - c.start = us.flatten.length := by omega
      have hlen : vs.flatten.length = us.flatten.length := hperm.flatten.length_eq
      obtain ⟨ws, hrun, hpatch, -⟩ := (h (Words k) _ Words.bulkView).run hlen hsum (by rw [p.length_words]; exact hstop)
        (by rw [hspan, hwords]) ⟨rfl, by rw [p.length_words]; exact hsize⟩
      obtain ⟨p', hsort, hfr', hp'⟩ := Page.modify_spec (f := fun ws => Sorting.quickSort ws c.start c.stop) hw
        ⟨ws, hrun, hpatch⟩
        (Page.length_patch_words (by rw [hlen, hsum]; exact hstop))
      have hquick : p.sort .quick c.start c.stop = .ok p' := hsort
      obtain ⟨hframe, hlist⟩ := hreplace p' vs.flatten hfr' hlen hp'
      refine ⟨_, ?_, hframe.trans hfr, ?_⟩
      · simp only [modifyPage, hp, hquick, bind, Except.bind, pure, Except.pure]
      · rw [hlist, hl, patch_append x y hlen.symm]
    · exact h _ _ (bulkView ha) ⟨hfr, hl⟩

theorem sort_spec (ha : a.Ready) {algorithm : SortAlgorithm} (hr : RecordRange a.toList 1 start stop)
    (hperm : vs.Perm (records a.toList 1 start stop))
    (h : Sorting.Rearranges (.inMemory algorithm) 1 (records a.toList 1 start stop) vs) :
    ∃ a', a.sort algorithm start stop = .ok a' ∧ a'.frame = a.frame ∧ a'.toList = patch a.toList start vs.flatten := by
  rw [sort]
  split
  · next c hconf =>
    obtain ⟨p, hp, hw, hsize, hstop, hsum, hwords, hreplace⟩ := replace_of_confined ha hconf
    obtain ⟨hrange, hrecords⟩ := hr.transfer hsum (by rw [p.length_words]; exact hstop) hwords
    rw [← hrecords] at hperm h
    obtain ⟨p', hrun, hfr, hl⟩ := Page.sort_spec hw hsize hrange hperm h
    rw [hrecords] at hperm
    refine ⟨_, ?_, hreplace p' vs.flatten hfr (hr.length_flatten_of_perm hperm) hl⟩
    simp only [modifyPage, hp, hrun, bind, Except.bind, pure, Except.pure]
  · exact (sortableView ha).sort ⟨rfl, rfl⟩ hr hperm h

theorem checkWritable_eq_ok (ha : a.Ready) (start stop : Nat) : a.checkWritable start stop = .ok (.ok ()) := by
  have hlt := ha.size_lt
  rw [checkWritable]
  by_cases hle : start ≤ min stop a.size
  · have hfold : ∃ r, a.partition.tryFoldPieces start (min stop a.size) (fun _ c => do
        let p ← a.page c.page
        if p.isWritable then return (.ok (), ()) else return (.error (.readOnly s!"range {start}..{stop}"), ())) () =
        .ok r ∧ Ends (fun _ => True) (fun _ _ => False) r := by
      refine Partition.tryFoldPieces_of_step (R := fun _ _ => True) (E := fun _ _ => False) ha.wellFormed.partition hle
        (by omega) ?_ trivial
      intro pos next c u hc hnext _
      obtain ⟨p, hp, -, -⟩ := page_of_piece ha.wellFormed ha.size_lt hc (by omega)
      refine ⟨(.ok (), ()), ?_, trivial⟩
      simp only [page_eq_ok hp, page_isWritable ha.writable hp, if_true, bind, Except.bind, pure, Except.pure]
    obtain ⟨⟨r, u⟩, hrun, hends⟩ := hfold
    cases r with
    | error e => exact hends.elim
    | ok u =>
      rw [hrun]
      rfl
  · rw [Partition.tryFoldPieces, Nat.sub_eq_zero_of_le (by omega)]
    rfl

theorem sortRecords_spec (ha : a.Ready) (hr : RecordRange a.toList stride start stop)
    (hperm : vs.Perm (records a.toList stride start stop))
    (h : Sorting.Rearranges how stride (records a.toList stride start stop) vs)
    (hroom : (stop - start) * k.bytes < 2 ^ 63) {folder : Folder} (hfolder : folder.Serves ((stop - start) * k.bytes)) :
    ∃ a', a.sortRecords how folder stride start stop = .ok (.done folder a') ∧ a'.frame = a.frame ∧
      a'.toList = patch a.toList start vs.flatten := by
  rw [sortRecords]
  split
  · next c hconf =>
    obtain ⟨p, hp, hw, hsize, hstop, hsum, hwords, hreplace⟩ := replace_of_confined ha hconf
    obtain ⟨hrange, hrecords⟩ := hr.transfer hsum (by rw [p.length_words]; exact hstop) hwords
    rw [← hrecords] at hperm h
    rw [← (by omega : c.stop - c.start = stop - start)] at hroom hfolder
    obtain ⟨p', hrun, hfr, hl⟩ := Page.sortRecords_spec hw hsize hrange hperm h hroom hfolder
    rw [hrecords] at hperm
    refine ⟨_, ?_, hreplace p' vs.flatten hfr (hr.length_flatten_of_perm hperm) hl⟩
    simp only [hp, hrun, bind, Except.bind, pure, Except.pure]
    rfl
  · simp only [checkWritable_eq_ok ha start stop, bind, Except.bind]
    exact (sortableView ha).sortRecords ⟨rfl, rfl⟩ hr hperm h hroom hfolder

theorem replacePage_self {i : Nat} {p : Page k} (hp : a.page i = .ok p) :
    ({ a with pages := a.pages.setIfInBounds i p } : Paged k) = a := by
  have hget : a.pages[i]? = some p := by
    rw [page] at hp
    split at hp
    · next q hq =>
      cases hp
      exact hq
    · cases hp
  have hpages : a.pages.setIfInBounds i p = a.pages := by
    apply Array.ext_getElem?
    intro j
    rw [Array.getElem?_setIfInBounds]
    split
    · next hij => rw [← hij, hget, if_pos (Array.getElem?_eq_some_iff.1 hget).1]
    · rfl
  rw [hpages]

theorem sortRecords_of_error (ha : a.Ready) {e : Error} (how : RecordSort) (folder : Folder)
    (hcheck : checkRecords start stop a.size stride = .error e) :
    a.sortRecords how folder stride start stop = .ok (.refused e a folder) := by
  rw [sortRecords]
  split
  · next c hconf =>
    obtain ⟨hl, hlt, hsum, p, hp, hstop, -⟩ := page_of_confined ha.wellFormed ha.size_lt hconf
    obtain ⟨q, hq, hw, -⟩ := replace_of_confined ha hconf
    cases Except.ok.inj (hp.symm.trans hq)
    rw [← checkRecords_congr (Nat.le_of_lt hlt) hl hstop hsum] at hcheck
    simp only [hp, Page.sortRecords_of_error hw how folder hcheck, bind, Except.bind, pure, Except.pure]
    exact congrArg (fun a => Except.ok (SortOutcome.refused e a folder)) (replacePage_self hp)
  · simp only [checkWritable_eq_ok ha start stop, bind, Except.bind]
    exact Sorting.sortRecords_of_error how folder hcheck

/-- Every sort leaves on pages, however they are cut, the words that it leaves of the same words in one piece: not only
the keys, but the records with equal keys stand in the same order. -/
theorem sorts_eq_flat {ws : Words k} (hsize : ws.size < 2 ^ 60) (hr : RecordRange ws.toList stride start stop)
    (hstride : stride < 2 ^ 63) {folder : Folder} (hfolder : folder.Serves ((stop - start) * k.bytes)) :
    (∀ how, ∃ ws', Sorting.sortRecords how folder ws stride start stop = .ok (.done folder ws') ∧
      ∀ a : Paged k, a.Ready → a.toList = ws.toList →
        ∃ a', a.sortRecords how folder stride start stop = .ok (.done folder a') ∧ a'.frame = a.frame ∧
          a'.toList = ws'.toList) ∧
    (stride = 1 → ∀ algorithm, ∃ ws', Sorting.sort algorithm ws start stop = .ok ws' ∧
      ∀ a : Paged k, a.Ready → a.toList = ws.toList →
        ∃ a', a.sort algorithm start stop = .ok a' ∧ a'.frame = a.frame ∧ a'.toList = ws'.toList) := by
  have hlist : ws.toList.length < 2 ^ 60 := hsize
  have hl := hr.le_length
  have hle := hr.le
  have hlt : ws.toList.length < 2 ^ 63 := by omega
  constructor
  · intro how
    obtain ⟨vs, ⟨hperm, -⟩, h⟩ := hr.exists_rearranges (k.mul_bytes_lt hlist) hstride how
    obtain ⟨ws', hrun, hws', -⟩ :=
      Words.sortableView.sortRecords ⟨rfl, hlt⟩ hr hperm h (k.mul_bytes_lt (by omega)) hfolder
    refine ⟨ws', hrun, fun a ha hal => ?_⟩
    rw [hws', ← hal]
    rw [← hal] at hr hperm h
    exact sortRecords_spec ha hr hperm h (k.mul_bytes_lt (by omega)) hfolder
  · rintro rfl algorithm
    obtain ⟨vs, ⟨hperm, -⟩, h⟩ := hr.exists_rearranges (k.mul_bytes_lt hlist) hstride (.inMemory algorithm)
    obtain ⟨ws', hrun, hws', -⟩ := Words.sortableView.sort ⟨rfl, hlt⟩ hr hperm h
    refine ⟨ws', hrun, fun a ha hal => ?_⟩
    rw [hws', ← hal]
    rw [← hal] at hr hperm h
    exact sort_spec ha hr hperm h

/-- The second of three records begins on one page and ends on the next, and its key is that of the third. -/
theorem sorts_eq_flat_across_break :
    ∃ a ws, Paged.ofWords .generous (.even 4) ws = .ok (.ok a) ∧
      ws = (#[.ofInt 2, .ofInt 0, .ofInt 0, .ofInt 1, .ofInt 1, .ofInt 1, .ofInt 1, .ofInt 2, .ofInt 2] : Words .w32) ∧
      (∃ ws' a',
        Sorting.sortRecords (.limited 0) (.serving "tmp" []) ws 3 0 9 = .ok (.done (.serving "tmp" []) ws') ∧
        a.sortRecords (.limited 0) (.serving "tmp" []) 3 0 9 = .ok (.done (.serving "tmp" []) a') ∧
        a'.toList = ws'.toList) ∧
      ∃ ws' a', Sorting.sort .quick ws 1 8 = .ok ws' ∧ a.sort .quick 1 8 = .ok a' ∧ a'.toList = ws'.toList := by
  have hp : (Partition.even 4).Valid := ⟨by decide, by decide⟩
  obtain ⟨ws, hws⟩ : ∃ ws : Words .w32, ws =
    #[.ofInt 2, .ofInt 0, .ofInt 0, .ofInt 1, .ofInt 1, .ofInt 1, .ofInt 1, .ofInt 2, .ofInt 2] := ⟨_, rfl⟩
  have hn : ws.size < 2 ^ 63 := by rw [hws]; decide
  obtain ⟨a, ha⟩ := ofWords_eq_ok hp hn (Host.generous_grantsMemory (by rw [hws]; decide))
  obtain ⟨hready, -, -, hl⟩ := ofWords_spec hp hn ha
  have hsize : ws.size < 2 ^ 60 := by rw [hws]; decide
  have hfolder := Folder.serving_serves "tmp" []
  have htriples : RecordRange ws.toList 3 0 9 := ⟨by decide, by decide, by rw [hws]; decide, by decide⟩
  have hsingles : RecordRange ws.toList 1 1 8 := ⟨by decide, by decide, by rw [hws]; decide, by decide⟩
  obtain ⟨ws₁, hflat₁, h₁⟩ := (sorts_eq_flat hsize htriples (by decide) (hfolder _)).1 (.limited 0)
  obtain ⟨a₁, hrun₁, -, hsame₁⟩ := h₁ a hready hl
  obtain ⟨ws₂, hflat₂, h₂⟩ := (sorts_eq_flat hsize hsingles (by decide) (hfolder _)).2 rfl .quick
  obtain ⟨a₂, hrun₂, -, hsame₂⟩ := h₂ a hready hl
  exact ⟨a, ws, ha, hws, ⟨ws₁, a₁, hflat₁, hrun₁, hsame₁⟩, ws₂, a₂, hflat₂, hrun₂, hsame₂⟩

end Paged
end PagedWords
