import PagedWords.Proofs.Creation
import PagedWords.Proofs.Searches

/-!
# Searches of pages and stores against searches of the words in one piece

A search that is confined to a page runs on places of that page, and any other one word by word through the
partition; both find what a search of the flat words finds. A search through a window is one of the base, further on.
-/
namespace PagedWords
variable {k : Width} {start stop : Nat}

namespace Search
variable {σ : Type} [Cells σ k] {a : σ} {l : List (Word k)}

theorem search_flat (ha : Cells.Reads a l) (how : Strategy) (key : Word k) (start : Nat) (hl : stop ≤ l.length) :
    ∃ r, search how a key start stop = .ok r ∧ r.pos ≤ max start stop ∧
      search how (l.toArray : Words k) key start stop = .ok r := by
  obtain ⟨r, hrun, hr, hrun'⟩ := search_agree (.of_same (Words.reads l.toArray) ha) how key (Nat.zero_le start) hl
  rw [Nat.zero_add, Nat.zero_add, Finding.moved_zero] at hrun'
  exact ⟨r, hrun, hr, hrun'⟩

theorem bound_flat (ha : Cells.Reads a l) (how : Strategy) (key : Word k) (start : Nat) (hl : stop ≤ l.length) :
    ∃ p, bound how a key start stop = .ok p ∧ p ≤ max start stop ∧
      bound how (l.toArray : Words k) key start stop = .ok p := by
  obtain ⟨p, hrun, hp, hrun'⟩ := bound_agree (.of_same (Words.reads l.toArray) ha) how key (Nat.zero_le start) hl
  rw [Nat.zero_add, Nat.zero_add, Nat.zero_add] at hrun'
  exact ⟨p, hrun, hp, hrun'⟩

theorem searchRecords_of_outside (ha : Cells.Reads a l) (h : ¬(start ≤ stop ∧ stop ≤ l.length)) (how : Strategy)
    (stride : Nat) (key : Word k) :
    searchRecords how a stride key start stop = .ok (.error (.rangeOutside start stop l.length)) := by
  unfold searchRecords
  rw [ha.size, checkRecords_of_outside h, whenValid_error]

theorem boundRecords_of_outside (ha : Cells.Reads a l) (h : ¬(start ≤ stop ∧ stop ≤ l.length)) (stride : Nat)
    (key : Word k) : boundRecords a stride key start stop = .ok (.error (.rangeOutside start stop l.length)) := by
  rw [boundRecords, ha.size, checkRecords_of_outside h, whenValid_error]

theorem searchRecords_flat (ha : Cells.Reads a l) (how : Strategy) (stride : Nat) (key : Word k) (start stop : Nat) :
    ∃ r, searchRecords how a stride key start stop = .ok r ∧ (∀ f, r = .ok f → f.pos ≤ stop) ∧
      searchRecords how (l.toArray : Words k) stride key start stop = .ok r := by
  by_cases hrange : start ≤ stop ∧ stop ≤ l.length
  · have hsame := (Cells.Agree.of_same (Words.reads l.toArray) ha).mono (Nat.zero_le start) hrange.2
    obtain ⟨r, hrun, hr, hrun'⟩ := searchRecords_agree hrange.1 (by rw [ha.size]; exact hrange.2)
      (by rw [Nat.zero_add]; exact hrange.2) hsame how stride key
    rw [Nat.zero_add, Nat.zero_add, Finding.map_moved_zero] at hrun'
    exact ⟨r, hrun, hr, hrun'⟩
  · exact ⟨_, searchRecords_of_outside ha hrange how stride key, fun _ hf => (nomatch hf),
      searchRecords_of_outside (Words.reads l.toArray) hrange how stride key⟩

theorem boundRecords_flat (ha : Cells.Reads a l) (stride : Nat) (key : Word k) (start stop : Nat) :
    ∃ r, boundRecords a stride key start stop = .ok r ∧ (∀ p, r = .ok p → p ≤ stop) ∧
      boundRecords (l.toArray : Words k) stride key start stop = .ok r := by
  by_cases hrange : start ≤ stop ∧ stop ≤ l.length
  · have hsame := (Cells.Agree.of_same (Words.reads l.toArray) ha).mono (Nat.zero_le start) hrange.2
    obtain ⟨r, hrun, hr, hrun'⟩ := boundRecords_agree hrange.1 (by rw [ha.size]; exact hrange.2)
      (by rw [Nat.zero_add]; exact hrange.2) hsame stride key
    have hzero : r.map (0 + ·) = r := by
      cases r with
      | error e => rfl
      | ok p => rw [Except.map, Nat.zero_add]
    rw [Nat.zero_add, Nat.zero_add, hzero] at hrun'
    exact ⟨r, hrun, hr, hrun'⟩
  · exact ⟨_, boundRecords_of_outside ha hrange stride key, fun _ hf => (nomatch hf),
      boundRecords_of_outside (Words.reads l.toArray) hrange stride key⟩

end Search

namespace Paged
variable {a : Paged k} (ha : a.WellFormed) (hs : a.size < 2 ^ 63)
include ha hs

theorem agree_of_confined {c : Piece} (h : a.confined? start stop = some c) :
    ∃ p base, a.page c.page = .ok p ∧ a.partition.pageStart c.page = .ok base ∧ start = base + c.start ∧
      stop = base + c.stop ∧ c.start < c.stop ∧ c.stop ≤ p.size ∧ stop ≤ a.size ∧
      Cells.Agree (a.toList.toArray : Words k) p.words base c.start c.stop := by
  obtain ⟨hl, hlt, hsum, p, hp, hstop, -, hwords⟩ := page_of_confined ha hs h
  have hlen := length_toList ha hs
  have hplace : a.partition.page start * a.partition.pageSize + c.start = start ∧ c.page = a.partition.page start := by
    rw [confined?] at h
    split at h
    · cases h
      exact ⟨a.partition.page_mul_add_offset start, rfl⟩
    · cases h
  obtain ⟨base, hbase⟩ : ∃ base, base = a.partition.page start * a.partition.pageSize := ⟨_, rfl⟩
  rw [← hbase] at hplace
  obtain ⟨hstart, hpage⟩ := hplace
  have hlim : positionLimit = 2 ^ 64 := rfl
  refine ⟨p, base, hp, ?_, hstart.symm, by omega, by omega, hstop, hl, ?_⟩
  · rw [hpage, Partition.pageStart_of_lt (by omega), hbase]
  · refine .of_reads (Words.reads a.toList.toArray) (Words.reads p.words) hsum ?_ ?_ ?_
    · show base + c.stop ≤ a.toList.length
      omega
    · rw [p.length_words]
      exact hstop
    · rw [hstart]
      exact hwords.symm

theorem search_flat (how : Strategy) (key : Word k) (start : Nat) (hl : stop ≤ a.size) :
    ∃ r, a.search how key start stop = .ok r ∧ r.pos ≤ max start stop ∧
      Search.search how (a.toList.toArray : Words k) key start stop = .ok r := by
  have hlim : positionLimit = 2 ^ 64 := rfl
  rw [search]
  split
  · next c hconf =>
    obtain ⟨p, base, hp, hbase, rfl, rfl, hlt, hstop, -, hagree⟩ := agree_of_confined ha hs hconf
    obtain ⟨r, hrun, hr, hflat⟩ := Search.search_agree hagree how key (Nat.le_refl _) (Nat.le_refl _)
    have hpos : base + r.pos < positionLimit := by omega
    refine ⟨r.moved base, ?_, ?_, hflat⟩
    · simp only [hp, hrun, hbase, bind, Except.bind, Finding.shift_eq hpos]
    · rw [Finding.pos_moved]
      omega
  · exact Search.search_flat (reads ha hs) how key start (by rw [length_toList ha hs]; exact hl)

theorem searchRecords_flat (how : Strategy) (stride : Nat) (key : Word k) (start stop : Nat) :
    ∃ r, a.searchRecords how stride key start stop = .ok r ∧ (∀ f, r = .ok f → f.pos ≤ stop) ∧
      Search.searchRecords how (a.toList.toArray : Words k) stride key start stop = .ok r := by
  have hlim : positionLimit = 2 ^ 64 := rfl
  have hlen := length_toList ha hs
  rw [searchRecords]
  split
  · next c hconf =>
    obtain ⟨p, base, hp, hbase, rfl, rfl, hlt, hstop, hl, hagree⟩ := agree_of_confined ha hs hconf
    obtain ⟨r, hrun, hr, hflat⟩ := Search.searchRecords_agree (Nat.le_of_lt hlt) hstop
      (by show _ ≤ a.toList.length; omega) hagree how stride key
    refine ⟨r.map (Finding.moved base), ?_, ?_, hflat⟩
    · cases r with
      | error e => simp only [hp, hrun, bind, Except.bind, pure, Except.pure, Except.map]
      | ok f =>
        have hf := hr f rfl
        simp only [hp, hrun, hbase, bind, Except.bind, Finding.shift_eq (by omega : base + f.pos < positionLimit)]
        rfl
    · cases r with
      | error e => exact fun _ hf => nomatch hf
      | ok f =>
        rintro _ ⟨⟩
        rw [Finding.pos_moved]
        exact Nat.add_le_add_left (hr f rfl) base
  · exact Search.searchRecords_flat (reads ha hs) how stride key start stop

theorem bound_flat (how : Strategy) (key : Word k) (start : Nat) (hl : stop ≤ a.size) :
    ∃ p, a.bound how key start stop = .ok p ∧ p ≤ max start stop ∧
      Search.bound how (a.toList.toArray : Words k) key start stop = .ok p := by
  have hlim : positionLimit = 2 ^ 64 := rfl
  rw [bound]
  split
  · next c hconf =>
    obtain ⟨p, base, hp, hbase, rfl, rfl, hlt, hstop, -, hagree⟩ := agree_of_confined ha hs hconf
    obtain ⟨q, hrun, hq, hflat⟩ := Search.bound_agree hagree how key (Nat.le_refl _) (Nat.le_refl _)
    refine ⟨base + q, ?_, by omega, hflat⟩
    simp only [hp, hrun, hbase, bind, Except.bind, addPosition_of_lt (by omega : q + base < positionLimit),
      Nat.add_comm q base]
  · exact Search.bound_flat (reads ha hs) how key start (by rw [length_toList ha hs]; exact hl)

theorem boundRecords_flat (stride : Nat) (key : Word k) (start stop : Nat) :
    ∃ r, a.boundRecords stride key start stop = .ok r ∧ (∀ p, r = .ok p → p ≤ stop) ∧
      Search.boundRecords (a.toList.toArray : Words k) stride key start stop = .ok r := by
  have hlim : positionLimit = 2 ^ 64 := rfl
  have hlen := length_toList ha hs
  rw [boundRecords]
  split
  · next c hconf =>
    obtain ⟨p, base, hp, hbase, rfl, rfl, hlt, hstop, hl, hagree⟩ := agree_of_confined ha hs hconf
    obtain ⟨r, hrun, hr, hflat⟩ := Search.boundRecords_agree (Nat.le_of_lt hlt) hstop
      (by show _ ≤ a.toList.length; omega) hagree stride key
    refine ⟨r.map (base + ·), ?_, ?_, hflat⟩
    · cases r with
      | error e => simp only [hp, hrun, bind, Except.bind, pure, Except.pure, Except.map]
      | ok q =>
        have hq := hr q rfl
        simp only [hp, hrun, hbase, bind, Except.bind, addPosition_of_lt (by omega : q + base < positionLimit),
          Nat.add_comm q base]
        rfl
    · cases r with
      | error e => exact fun _ hf => nomatch hf
      | ok q =>
        rintro _ ⟨⟩
        exact Nat.add_le_add_left (hr q rfl) base
  · exact Search.boundRecords_flat (reads ha hs) stride key start stop

theorem isSortedRecords_flat {stride : Nat} (hstride : stride < 2 ^ 63) (start stop : Nat) :
    ∃ r, a.isSortedRecords stride start stop = .ok r ∧
      Sorting.isSortedRecords (a.toList.toArray : Words k) stride start stop = .ok r := by
  have hlen := length_toList ha hs
  rcases hcheck : checkRecords start stop a.toList.length stride with e | u
  · exact ⟨.error e, isSortedRecords_of_error ha hs (hlen ▸ hcheck),
      Sorting.isSortedRecords_of_error (Words.reads a.toList.toArray) hcheck⟩
  · have hr := RecordRange.of_check hcheck
    exact ⟨_, isSortedRecords_eq ha hs hstride hr, Sorting.isSortedRecords_eq (Words.reads a.toList.toArray) hr
      (hr.add_stride_lt (by rw [hlen]; exact hs) hstride)⟩

/-- All searches of an array in pages answer what they answer on its words in one piece, be it a finding, a
position or a refusal, and whether or not the words ascend. -/
theorem searches_eq_flat (key : Word k) {stride : Nat} (hstride : stride < 2 ^ 63) (start stop : Nat) :
    (stop ≤ a.size → ∀ how,
      (∃ r, a.search how key start stop = .ok r ∧
        Search.search how (a.toList.toArray : Words k) key start stop = .ok r) ∧
      ∃ p, a.bound how key start stop = .ok p ∧
        Search.bound how (a.toList.toArray : Words k) key start stop = .ok p) ∧
    (∀ how, ∃ r, a.searchRecords how stride key start stop = .ok r ∧
      Search.searchRecords how (a.toList.toArray : Words k) stride key start stop = .ok r) ∧
    (∃ r, a.boundRecords stride key start stop = .ok r ∧
      Search.boundRecords (a.toList.toArray : Words k) stride key start stop = .ok r) ∧
    ∃ r, a.isSortedRecords stride start stop = .ok r ∧
      Sorting.isSortedRecords (a.toList.toArray : Words k) stride start stop = .ok r := by
  refine ⟨fun hl how => ⟨?_, ?_⟩, fun how => ?_, ?_, isSortedRecords_flat ha hs hstride start stop⟩
  · obtain ⟨r, hrun, -, hflat⟩ := search_flat ha hs how key start hl
    exact ⟨r, hrun, hflat⟩
  · obtain ⟨p, hrun, -, hflat⟩ := bound_flat ha hs how key start hl
    exact ⟨p, hrun, hflat⟩
  · obtain ⟨r, hrun, -, hflat⟩ := searchRecords_flat ha hs how stride key start stop
    exact ⟨r, hrun, hflat⟩
  · obtain ⟨r, hrun, -, hflat⟩ := boundRecords_flat ha hs stride key start stop
    exact ⟨r, hrun, hflat⟩

end Paged

/-- Words in no order on two pages: one range lies on the second page, the other spans both. -/
theorem Paged.searches_eq_flat_on_two_pages :
    ∃ a, Paged.ofWords .generous (.even 2) (#[.ofInt 5, .ofInt 1, .ofInt 4, .ofInt 2] : Words .w32) = .ok (.ok a) ∧
      (∃ r, a.search .linear (.ofInt 2) 2 4 = .ok r ∧
        Search.search .linear (a.toList.toArray : Words .w32) (.ofInt 2) 2 4 = .ok r) ∧
      (∃ r, a.searchRecords .bisect 2 (.ofInt 4) 0 4 = .ok r ∧
        Search.searchRecords .bisect (a.toList.toArray : Words .w32) 2 (.ofInt 4) 0 4 = .ok r) ∧
      ∃ r, a.isSortedRecords 0 1 9 = .ok r ∧
        Sorting.isSortedRecords (a.toList.toArray : Words .w32) 0 1 9 = .ok r := by
  have hp : (Partition.even 2).Valid := ⟨by decide, by decide⟩
  have hn : (#[.ofInt 5, .ofInt 1, .ofInt 4, .ofInt 2] : Words .w32).size < 2 ^ 63 := by decide
  obtain ⟨a, ha⟩ := ofWords_eq_ok hp hn (Host.generous_grantsMemory (by decide))
  obtain ⟨hready, -, hsize, -⟩ := ofWords_spec hp hn ha
  have hpage := searches_eq_flat hready.wellFormed hready.size_lt (.ofInt 2) (by decide : 1 < 2 ^ 63) 2 4
  have hpages := searches_eq_flat hready.wellFormed hready.size_lt (.ofInt 4) (by decide : 2 < 2 ^ 63) 0 4
  have hwrong := searches_eq_flat hready.wellFormed hready.size_lt (.ofInt 0) (by decide : 0 < 2 ^ 63) 1 9
  exact ⟨a, ha, (hpage.1 (by rw [hsize]; decide) .linear).1, hpages.2.1 .bisect, hwrong.2.2.2⟩

namespace Store
variable {s : Store k}

theorem agree_of_window {base : Store k} {low high : Nat} (hs : (window base low high).WellFormed) :
    Cells.Agree (base.toList.toArray : Words k) ((window base low high).toList.toArray : Words k) low 0
      (high - low) := by
  have hlen := length_toList hs
  have hbase := length_toList hs.1
  have hhigh := hs.window_le
  refine .of_reads (Words.reads _) (Words.reads _) (Nat.zero_add _) ?_ ?_ ?_
  · show low + (high - low) ≤ base.toList.length
    omega
  · exact Nat.le_of_eq hlen.symm
  · rw [Nat.add_zero]
    show _ = stretch (stretch base.toList low (high - low)) 0 (high - low)
    rw [stretch_stretch _ (by omega), Nat.add_zero]

theorem search_flat (hs : s.WellFormed) (how : Strategy) (key : Word k) (hle : start ≤ stop) (hl : stop ≤ s.size) :
    ∃ r, s.search how key start stop = .ok r ∧ r.pos ≤ max start stop ∧
      Search.search how (s.toList.toArray : Words k) key start stop = .ok r := by
  induction s generalizing start stop with
  | slice ws => exact Search.search_flat (Words.reads ws) how key start hl
  | page p => exact Search.search_flat (Words.reads p.words) how key start hl
  | paged a => exact Paged.search_flat hs.1 hs.2 how key start hl
  | window base low high ih =>
    have hsize : stop ≤ high - low := hl
    have hhigh := hs.window_le
    obtain ⟨r, hrun, hr, hmoved⟩ := Search.search_agree (agree_of_window hs) how key (Nat.zero_le start) hsize
    obtain ⟨r', hbase, -, hflat⟩ := ih hs.1 (Nat.add_le_add_left hle low) (by omega)
    cases Except.ok.inj (hmoved.symm.trans hflat)
    refine ⟨r, ?_, hr, hrun⟩
    simp only [search, windowSpan_eq hle hsize, hbase, bind, Except.bind, Finding.shiftBack_moved]
  | elementwise base ih =>
    exact Search.search_flat (reads (s := elementwise base) hs) how key start (by rw [length_toList hs]; exact hl)

theorem bound_flat (hs : s.WellFormed) (how : Strategy) (key : Word k) (hle : start ≤ stop) (hl : stop ≤ s.size) :
    ∃ p, s.bound how key start stop = .ok p ∧ p ≤ max start stop ∧
      Search.bound how (s.toList.toArray : Words k) key start stop = .ok p := by
  induction s generalizing start stop with
  | slice ws => exact Search.bound_flat (Words.reads ws) how key start hl
  | page p => exact Search.bound_flat (Words.reads p.words) how key start hl
  | paged a => exact Paged.bound_flat hs.1 hs.2 how key start hl
  | window base low high ih =>
    have hsize : stop ≤ high - low := hl
    have hhigh := hs.window_le
    obtain ⟨p, hrun, hp, hmoved⟩ := Search.bound_agree (agree_of_window hs) how key (Nat.zero_le start) hsize
    obtain ⟨p', hbase, -, hflat⟩ := ih hs.1 (Nat.add_le_add_left hle low) (by omega)
    cases Except.ok.inj (hmoved.symm.trans hflat)
    refine ⟨p, ?_, hp, hrun⟩
    simp only [bound, windowSpan_eq hle hsize, hbase, bind, Except.bind, subPosition_of_le (Nat.le_add_right low p),
      Nat.add_sub_cancel_left]
  | elementwise base ih =>
    exact Search.bound_flat (reads (s := elementwise base) hs) how key start (by rw [length_toList hs]; exact hl)

theorem records_of_window {base : Store k} {low high : Nat} (hs : (window base low high).WellFormed) (start : Nat)
    (hl : stop ≤ high - low) :
    stop ≤ Cells.size ((window base low high).toList.toArray : Words k) ∧
      low + stop ≤ Cells.size (base.toList.toArray : Words k) ∧
      Cells.Agree (base.toList.toArray : Words k) ((window base low high).toList.toArray : Words k) low start stop := by
  have hlen := length_toList hs
  have hbase := length_toList hs.1
  have hhigh := hs.window_le
  refine ⟨?_, ?_, (agree_of_window hs).mono (Nat.zero_le start) hl⟩
  · show stop ≤ (window base low high).toList.length
    rw [hlen]
    exact hl
  · show low + stop ≤ base.toList.length
    omega

theorem searchRecords_flat (hs : s.WellFormed) (how : Strategy) (stride : Nat) (key : Word k) (start stop : Nat) :
    ∃ r, s.searchRecords how stride key start stop = .ok r ∧ (∀ f, r = .ok f → f.pos ≤ stop) ∧
      Search.searchRecords how (s.toList.toArray : Words k) stride key start stop = .ok r := by
  induction s generalizing start stop with
  | slice ws => exact Search.searchRecords_flat (Words.reads ws) how stride key start stop
  | page p => exact Search.searchRecords_flat (Words.reads p.words) how stride key start stop
  | paged a => exact Paged.searchRecords_flat hs.1 hs.2 how stride key start stop
  | window base low high ih =>
    rw [searchRecords]
    by_cases hrange : start ≤ stop ∧ stop ≤ high - low
    · obtain ⟨hwindow, hbase, hagree⟩ := records_of_window hs start hrange.2
      obtain ⟨r, hrun, hr, hmoved⟩ := Search.searchRecords_agree hrange.1 hwindow hbase hagree how stride key
      obtain ⟨r', hrun', -, hflat⟩ := ih hs.1 (low + start) (low + stop)
      cases Except.ok.inj (hmoved.symm.trans hflat)
      refine ⟨r, ?_, hr, hrun⟩
      simp only [windowCheck_eq hrange.1 hrange.2, hrun', bind, Except.bind]
      cases r with
      | error e => rfl
      | ok f => exact congrArg (Except.map Except.ok) (Finding.shiftBack_moved low f)
    · have hlen : (window base low high).toList.length = high - low := length_toList hs
      refine ⟨.error (.rangeOutside start stop (high - low)), ?_, fun _ hf => (nomatch hf), ?_⟩
      · rw [windowCheck, checkRange, if_neg hrange]
      · rw [← hlen] at hrange ⊢
        exact Search.searchRecords_of_outside (Words.reads (window base low high).toList.toArray) hrange how stride key
  | elementwise base ih => exact Search.searchRecords_flat (reads (s := elementwise base) hs) how stride key start stop

theorem boundRecords_flat (hs : s.WellFormed) (stride : Nat) (key : Word k) (start stop : Nat) :
    ∃ r, s.boundRecords stride key start stop = .ok r ∧ (∀ p, r = .ok p → p ≤ stop) ∧
      Search.boundRecords (s.toList.toArray : Words k) stride key start stop = .ok r := by
  induction s generalizing start stop with
  | slice ws => exact Search.boundRecords_flat (Words.reads ws) stride key start stop
  | page p => exact Search.boundRecords_flat (Words.reads p.words) stride key start stop
  | paged a => exact Paged.boundRecords_flat hs.1 hs.2 stride key start stop
  | window base low high ih =>
    rw [boundRecords]
    by_cases hrange : start ≤ stop ∧ stop ≤ high - low
    · obtain ⟨hwindow, hbase, hagree⟩ := records_of_window hs start hrange.2
      obtain ⟨r, hrun, hr, hmoved⟩ := Search.boundRecords_agree hrange.1 hwindow hbase hagree stride key
      obtain ⟨r', hrun', -, hflat⟩ := ih hs.1 (low + start) (low + stop)
      cases Except.ok.inj (hmoved.symm.trans hflat)
      refine ⟨r, ?_, hr, hrun⟩
      simp only [windowCheck_eq hrange.1 hrange.2, hrun', bind, Except.bind]
      cases r with
      | error e => rfl
      | ok p =>
        have hsub : subPosition (low + p) low = .ok p := by
          rw [subPosition_of_le (Nat.le_add_right low p), Nat.add_sub_cancel_left]
        exact congrArg (Except.map Except.ok) hsub
    · have hlen : (window base low high).toList.length = high - low := length_toList hs
      refine ⟨.error (.rangeOutside start stop (high - low)), ?_, fun _ hf => (nomatch hf), ?_⟩
      · rw [windowCheck, checkRange, if_neg hrange]
      · rw [← hlen] at hrange ⊢
        exact Search.boundRecords_of_outside (Words.reads (window base low high).toList.toArray) hrange stride key
  | elementwise base ih => exact Search.boundRecords_flat (reads (s := elementwise base) hs) stride key start stop

end Store

end PagedWords
