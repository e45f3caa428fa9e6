import PagedWords.Proofs.Windows

/-!
# What is checked before records are looked at

Every operation on records refuses a range outside the store, a stride of zero and a range that does not hold whole
records, in this order, and nothing has changed then. All other ranges it answers, with one exception. An empty range
holds whole records of every stride; some sorts, and the check for ascending keys, still work out where its second
record would begin, and that need not be a position.
-/
namespace PagedWords
variable {k : Width} {τ : Type} {stride start stop : Nat}

/-- Whether the place of the second record is worked out before the records of an empty range are counted. -/
def RecordSort.looksAhead : RecordSort → Bool
  | .inMemory .insertion | .inMemory .quick => true
  | .limited memoryLimit => 0 < memoryLimit
  | .inMemory .merge | .external => false

theorem checkRecords_of_empty {size : Nat} (hl : start ≤ size) (hpos : 0 < stride) :
    checkRecords start start size stride = .ok () :=
  checkRecords_eq_ok_iff.2 ⟨Nat.le_refl start, hl, hpos, by rw [Nat.sub_self, Nat.zero_mod]⟩

namespace Sorting
variable {σ : Type}

private theorem isSortedRecords_of_empty [Cells σ k] (a : σ) (hl : start ≤ Cells.size a) (hpos : 0 < stride) :
    isSortedRecords a stride start start =
      if positionLimit ≤ start + stride then .error .overflow else .ok (.ok true) := by
  rw [isSortedRecords, checkRecords_of_empty hl hpos, whenValid_ok]
  by_cases hlim : positionLimit ≤ start + stride
  · simp [keysSorted, addPosition, Nat.not_lt.2 hlim, hlim, bind, Except.bind]
  · simp [keysSorted, addPosition, Nat.lt_of_not_le hlim, hlim, bind, Except.bind, pure, Except.pure]

section Records
variable [BulkCells σ k] (a : σ) (hstart : start < 2 ^ 63)
include hstart

private theorem insertionSortRecords_of_empty (stride : Nat) :
    insertionSortRecords a stride start start =
      if positionLimit ≤ start + stride then .error .overflow else .ok a := by
  have hnext : start + 1 < positionLimit := Nat.lt_trans (Nat.succ_lt_succ hstart) (by decide)
  by_cases hone : stride = 1
  · simp [insertionSortRecords, insertionSort, insertKeys, hone, hnext]
  · by_cases hlim : positionLimit ≤ start + stride
    · simp [insertionSortRecords, hone, addPosition, Nat.not_lt.2 hlim, hlim, bind, Except.bind]
    · simp [insertionSortRecords, hone, addPosition, Nat.lt_of_not_le hlim, hlim, sinkRecords, bind, Except.bind]

private theorem quickSortRecords_of_empty (hpos : 0 < stride) :
    quickSortRecords a stride start start =
      if positionLimit ≤ start + stride then .error .overflow else .ok a := by
  have hnext : start + 1 < positionLimit := Nat.lt_trans (Nat.succ_lt_succ hstart) (by decide)
  by_cases hone : stride = 1
  · simp [quickSortRecords, quickSort, hone, hnext]
  · by_cases hlim : positionLimit ≤ start + stride
    · simp [quickSortRecords, hone, addPosition, Nat.not_lt.2 hlim, hlim, bind, Except.bind]
    · simp [quickSortRecords, hone, addPosition, Nat.lt_of_not_le hlim, hlim, hpos, bind, Except.bind, pure,
        Except.pure]

end Records

/-- An empty range is sorted, unless the place of its second record is asked for and is no position. -/
theorem sortRecords_of_empty [Sortable σ k] (how : RecordSort) (folder : Folder) (a : σ) (hl : start ≤ Cells.size a)
    (hsize : Cells.size a < 2 ^ 63) (hpos : 0 < stride) :
    sortRecords how folder a stride start start =
      if how.looksAhead ∧ positionLimit ≤ start + stride then .error .overflow else .ok (.done folder a) := by
  have hstart : start < 2 ^ 63 := Nat.lt_of_le_of_lt hl hsize
  have hquick := quickSortRecords_of_empty a hstart hpos
  have hlift : ∀ c : Prop, [Decidable c] → SortOutcome.done folder <$> (if c then .error .overflow else .ok a) =
      (if c then .error .overflow else .ok (.done folder a) : Except Fault (SortOutcome σ)) := by
    intro c _
    split <;> rfl
  simp only [sortRecords, checkRecords_of_empty hl hpos]
  cases how with
  | inMemory algorithm =>
    cases algorithm with
    | insertion => simp [sortInMemory, insertionSortRecords_of_empty a hstart, hlift, RecordSort.looksAhead]
    | quick => simp [sortInMemory, hquick, hlift, RecordSort.looksAhead]
    | merge => simp [sortInMemory, mergeSortRecords, RecordSort.looksAhead, pure, Except.pure]
  | external => simp [sortThroughFile, RecordSort.looksAhead, pure, Except.pure]
  | limited memoryLimit =>
    by_cases hzero : memoryLimit = 0
    · simp [sortThroughFile, RecordSort.looksAhead, hzero, pure, Except.pure]
    · have hpositive : 0 < memoryLimit := Nat.pos_of_ne_zero hzero
      simp [hquick, hlift, RecordSort.looksAhead, hpositive]

end Sorting

namespace Store
variable {s : Store k}

/-- How much further on the positions of a store are in the store whose words it shows. -/
def origin : Store k → Nat
  | window base low _ => base.origin + low
  | _ => 0

/-- The place of the second record, counted from the storage that is asked for it, is no position. -/
def Overruns (s : Store k) (stride start : Nat) : Prop := positionLimit ≤ s.origin + start + stride

instance (s : Store k) (stride start : Nat) : Decidable (s.Overruns stride start) :=
  inferInstanceAs (Decidable (_ ≤ _))

theorem overruns_window {base : Store k} {low high : Nat} :
    (window base low high).Overruns stride start ↔ base.Overruns stride (low + start) := by
  rw [Overruns, Overruns, origin, Nat.add_assoc base.origin]

end Store

private theorem Page.sortRecords_of_empty {p : Page k} (hw : p.isWritable = true) (hl : start ≤ p.size)
    (hsize : p.size < 2 ^ 63) (hpos : 0 < stride) (how : RecordSort) (folder : Folder) :
    p.sortRecords how folder stride start start =
      if how.looksAhead ∧ positionLimit ≤ start + stride then .error .overflow else .ok (.done folder p) := by
  have hrun := Sorting.sortRecords_of_empty how folder p.words hl hsize hpos
  simp only [sortRecords, hw, if_true, hrun]
  split <;> rfl

theorem Paged.sortRecords_of_empty {a : Paged k} (ha : a.Ready) (hl : start ≤ a.size) (hpos : 0 < stride)
    (how : RecordSort) (folder : Folder) :
    a.sortRecords how folder stride start start =
      if how.looksAhead ∧ positionLimit ≤ start + stride then .error .overflow else .ok (.done folder a) := by
  simp only [sortRecords, a.confined?_of_le (Nat.le_refl start), checkWritable_eq_ok ha, bind, Except.bind]
  exact Sorting.sortRecords_of_empty how folder a hl ha.size_lt hpos

namespace Store
variable {s : Store k} (hs : s.Ready) (hl : start ≤ s.size) (hpos : 0 < stride)
include hs hl hpos

private theorem isSortedRecords_of_empty :
    s.isSortedRecords stride start start = if s.Overruns stride start then .error .overflow else .ok (.ok true) := by
  induction s generalizing start with
  | slice ws =>
    have hrun := Sorting.isSortedRecords_of_empty ws hl hpos
    simpa only [isSortedRecords, Overruns, origin, Nat.zero_add] using hrun
  | page p =>
    have hrun := Sorting.isSortedRecords_of_empty p.words hl hpos
    simpa only [isSortedRecords, Overruns, origin, Nat.zero_add] using hrun
  | paged a =>
    have hrun := Sorting.isSortedRecords_of_empty a hl hpos
    simpa [isSortedRecords, Paged.isSortedRecords, a.confined?_of_le (Nat.le_refl start), Overruns, origin] using hrun
  | window base low high ih =>
    have hhigh := hs.wellFormed.window_le
    have hl : start ≤ high - low := hl
    have hrun := ih hs.base (by omega : low + start ≤ base.size)
    simp only [isSortedRecords, windowCheck_eq (Nat.le_refl start) hl, hrun, overruns_window]
  | elementwise base ih =>
    have hrun := Sorting.isSortedRecords_of_empty (elementwise base) hl hpos
    simpa only [isSortedRecords, Overruns, origin, Nat.zero_add] using hrun

private theorem sortRecords_of_empty (how : RecordSort) (folder : Folder) :
    s.sortRecords how folder stride start start =
      if how.looksAhead ∧ s.Overruns stride start then .error .overflow else .ok (.done folder s) := by
  have hsize := size_lt hs.wellFormed
  induction s generalizing start with
  | slice ws =>
    have hrun := Sorting.sortRecords_of_empty how folder ws hl hsize hpos
    simp only [sortRecords, hrun, Overruns, origin, Nat.zero_add]
    split <;> rfl
  | page p =>
    have hrun := Page.sortRecords_of_empty hs.page hl hsize hpos how folder
    simp only [sortRecords, hrun, Overruns, origin, Nat.zero_add]
    split <;> rfl
  | paged a =>
    have hrun := Paged.sortRecords_of_empty hs.paged hl hpos how folder
    simp only [sortRecords, hrun, Overruns, origin, Nat.zero_add]
    split <;> rfl
  | window base low high ih =>
    have hhigh := hs.wellFormed.window_le
    have hl : start ≤ high - low := hl
    have hrun := ih hs.base (by omega : low + start ≤ base.size) (size_lt hs.base.wellFormed)
    simp only [sortRecords, windowCheck_eq (Nat.le_refl start) hl, hrun, overruns_window]
    split <;> rfl
  | elementwise base ih =>
    have hrun := Sorting.sortRecords_of_empty how folder (elementwise base) hl hsize hpos
    simpa only [sortRecords, Overruns, origin, Nat.zero_add] using hrun

end Store

namespace RecordTask

def looksAhead : RecordTask k → Bool
  | isSorted => true
  | sort how => how.looksAhead
  | search _ _ | bound _ | filter _ _ => false

end RecordTask

/-- The request is answered, and the answer is no refusal. -/
def Request.Answers (r : Request k τ) (s : Store k) (u : Caller k τ) : Prop :=
  ∃ x s' u', r.run s u = .ok (x, s', u') ∧ ∀ e, x ≠ .refused e

/-- What the check refuses the request refuses, and nothing has changed then. All else it answers, unless it overruns
the positions. -/
def Request.Obeys (r : Request k τ) (check : Except Error Unit) (overruns : Prop) (s : Store k) (u : Caller k τ) :
    Prop :=
  match check with
  | .error e => r.run s u = .ok (.refused e, s, u)
  | .ok () => (overruns → r.run s u = .error .overflow) ∧ (¬overruns → r.Answers s u)

theorem Request.Obeys.of_reply {α : Type} {r : Request k τ} {check : Except Error Unit} {overruns : Prop} {s : Store k}
    {u : Caller k τ} {f : α → Reply k} {y : Except Error α} (hno : ¬overruns) (hf : ∀ x e, f x ≠ .refused e)
    (hrun : r.run s u = .ok (.ofExcept f y, s, u)) (hy : ∀ e, y = .error e ↔ check = .error e) :
    r.Obeys check overruns s u := by
  cases check with
  | error e =>
    rw [(hy e).2 rfl] at hrun
    exact hrun
  | ok c =>
    cases y with
    | error e => cases (hy e).1 rfl
    | ok x => exact ⟨fun h => absurd h hno, fun _ => ⟨f x, s, u, hrun, hf x⟩⟩

namespace RecordTask

/-- The task looks ahead on an empty range, and the second record would begin at no position. -/
def Overruns (t : RecordTask k) (s : Store k) (stride start stop : Nat) : Prop :=
  t.looksAhead = true ∧ start = stop ∧ s.Overruns stride start

theorem not_overruns {t : RecordTask k} {s : Store k} (h : t.looksAhead = false) :
    ¬t.Overruns s stride start stop := by
  intro hover
  rw [Overruns, h] at hover
  exact Bool.false_ne_true hover.1

section Ready
variable {s : Store k} {u : Caller k τ} (hs : s.Ready)
include hs

theorem stride_lt (hr : RecordRange s.toList stride start stop) (hne : start ≠ stop) : stride < 2 ^ 63 := by
  have hle := hr.le
  have hl := hr.le_length
  have hsize := Store.size_lt hs.wellFormed
  obtain ⟨n, -, hcount⟩ := hr.exists_count (by omega)
  have hfirst : stride ≤ (n + 1) * stride := Nat.le_mul_of_pos_left stride (Nat.succ_pos n)
  rw [hs.length_toList] at hl
  omega

private theorem search_obeys (how : Strategy) (key : Word k) (u : Caller k τ) :
    ((search how key).on stride start stop).Obeys (checkRecords start stop s.size stride)
      ((search how key).Overruns s stride start stop) s u := by
  obtain ⟨r, hrun, -, hflat⟩ := Store.searchRecords_flat hs.wellFormed how stride key start stop
  have hrun' : ((search how key).on stride start stop).run s u = .ok (.ofExcept .finding r, s, u) := by
    simp only [on, Request.run, Query.run, hrun, bind, Except.bind, pure, Except.pure]
  exact .of_reply (f := .finding) (not_overruns rfl) (by simp) hrun' (hs.length_toList ▸ refused_iff_of_whenValid hflat)

private theorem bound_obeys (key : Word k) (u : Caller k τ) :
    ((bound key).on stride start stop).Obeys (checkRecords start stop s.size stride)
      ((bound key).Overruns s stride start stop) s u := by
  obtain ⟨r, hrun, -, hflat⟩ := Store.boundRecords_flat hs.wellFormed stride key start stop
  have hrun' : ((bound key).on stride start stop).run s u = .ok (.ofExcept .number r, s, u) := by
    simp only [on, Request.run, Query.run, hrun, bind, Except.bind, pure, Except.pure]
  exact .of_reply (f := .number) (not_overruns rfl) (by simp) hrun' (hs.length_toList ▸ refused_iff_of_whenValid hflat)

private theorem filter_obeys (hc : u.candidates.Sound) (how : Membership) (boundary : Word k) :
    ((filter how boundary).on stride start stop).Obeys (checkRecords start stop s.size stride)
      ((filter how boundary).Overruns s stride start stop) s u := by
  obtain ⟨r, hrun, hflat⟩ := Store.filterRecords_flat hs.wellFormed hc how boundary stride start stop
  have hrefused := refused_iff_of_whenValid hflat
  have hlen : checkRecords start stop (Cells.size (s.toList.toArray : Words k)) stride =
      checkRecords start stop s.size stride := congrArg (checkRecords start stop · stride) hs.length_toList
  rw [hlen] at hrefused
  rcases hcheck : checkRecords start stop s.size stride with e | c
  · cases (hrefused e).2 hcheck
    simp only [Request.Obeys, on, Request.run, Query.run, hrun, bind, Except.bind, pure, Except.pure]
  · cases r with
    | error e => cases hcheck.symm.trans ((hrefused e).1 rfl)
    | ok c =>
      refine ⟨fun h => absurd h (not_overruns rfl), fun _ => ⟨.done, s, { u with candidates := c }, ?_, by simp⟩⟩
      simp only [on, Request.run, Query.run, hrun, bind, Except.bind, pure, Except.pure]

private theorem isSorted_obeys (u : Caller k τ) :
    (isSorted.on stride start stop).Obeys (checkRecords start stop s.size stride)
      (isSorted.Overruns s stride start stop) s u := by
  have hrun : ∀ y, s.isSortedRecords stride start stop = .ok y →
      (isSorted.on stride start stop).run s u = .ok (.ofExcept .flag y, s, u) := by
    intro y hy
    simp only [on, Request.run, Query.run, hy, bind, Except.bind, pure, Except.pure]
  rcases hcheck : checkRecords start stop s.size stride with e | c
  · exact hrun _ (Store.isSortedRecords_of_error hs.wellFormed hcheck)
  have hr : RecordRange s.toList stride start stop := .of_check (hs.length_toList ▸ hcheck)
  by_cases hne : start = stop
  · subst hne
    have hempty := Store.isSortedRecords_of_empty hs (hs.length_toList ▸ hr.le_length) hr.pos
    constructor
    · rintro ⟨-, -, hover⟩
      rw [if_pos hover] at hempty
      simp only [on, Request.run, Query.run, hempty, bind, Except.bind]
    · intro hno
      rw [if_neg (fun hover => hno ⟨rfl, rfl, hover⟩)] at hempty
      exact ⟨.flag true, s, u, hrun _ hempty, by simp⟩
  · have hsorted := Store.isSortedRecords_eq hs.wellFormed (stride_lt hs hr hne) hr
    exact ⟨fun h => absurd h.2.1 hne, fun _ => ⟨.flag _, s, u, hrun _ hsorted, by simp⟩⟩

private theorem sort_obeys (hroom : s.size * k.bytes < 2 ^ 63) (hfolder : u.folder.Serves (s.size * k.bytes))
    (how : RecordSort) :
    ((sort how).on stride start stop).Obeys (checkRecords start stop s.size stride)
      ((sort how).Overruns s stride start stop) s u := by
  have hrun : ∀ o, s.sortRecords how u.folder stride start stop = .ok o →
      ((sort how).on stride start stop).run s u =
        .ok (.ofExcept (fun _ => .done) o.result, o.storage, { u with folder := o.folder }) := by
    intro o ho
    simp only [on, Request.run, ho, bind, Except.bind, pure, Except.pure]
  rcases hcheck : checkRecords start stop s.size stride with e | c
  · exact hrun _ (Store.sortRecords_of_error hs how u.folder hcheck)
  have hr : RecordRange s.toList stride start stop := .of_check (hs.length_toList ▸ hcheck)
  by_cases hne : start = stop
  · subst hne
    have hempty := Store.sortRecords_of_empty hs (hs.length_toList ▸ hr.le_length) hr.pos how u.folder
    constructor
    · rintro ⟨hlook, -, hover⟩
      rw [if_pos ⟨hlook, hover⟩] at hempty
      simp only [on, Request.run, hempty, bind, Except.bind]
    · intro hno
      rw [if_neg (fun hover => hno ⟨hover.1, rfl, hover.2⟩)] at hempty
      exact ⟨.done, s, u, hrun _ hempty, by simp⟩
  · have hl := hr.le_length
    rw [hs.length_toList] at hl
    have hserves := hfolder.mono (Nat.mul_le_mul_right k.bytes (by omega : stop - start ≤ s.size))
    obtain ⟨s', hsort, -⟩ := Store.sortRecords_sortsTo hs hroom (stride_lt hs hr hne) hr how hserves
    exact ⟨fun h => absurd h.2.1 hne, fun _ => ⟨.done, s', u, hrun _ hsort, by simp⟩⟩

theorem obeys (hroom : s.size * k.bytes < 2 ^ 63) (hu : u.Usable (s.size * k.bytes)) (t : RecordTask k)
    (stride start stop : Nat) :
    (t.on stride start stop).Obeys (checkRecords start stop s.size stride) (t.Overruns s stride start stop) s u := by
  cases t with
  | search how key => exact search_obeys hs how key u
  | bound key => exact bound_obeys hs key u
  | filter how boundary => exact filter_obeys hs hu.candidates how boundary
  | isSorted => exact isSorted_obeys hs u
  | sort how => exact sort_obeys hs hroom hu.folder how

/-- A task on records looks at the range, at the stride and at their fit, and refuses the first of them that is wrong
with everything as it was. It answers on all else, unless it looks ahead on an empty range and overruns the positions
there. -/
theorem checks_then_answers (hroom : s.size * k.bytes < 2 ^ 63) (hu : u.Usable (s.size * k.bytes)) (t : RecordTask k)
    (stride start stop : Nat) :
    (¬(start ≤ stop ∧ stop ≤ s.size) →
      (t.on stride start stop).run s u = .ok (.refused (.rangeOutside start stop s.size), s, u)) ∧
    (start ≤ stop → stop ≤ s.size →
      (stride = 0 →
        (t.on stride start stop).run s u = .ok (.refused (.invalidArgument "stride" "stride > 0"), s, u)) ∧
      (0 < stride → (stop - start) % stride ≠ 0 →
        (t.on stride start stop).run s u = .ok (.refused (.strideMismatch (stop - start) stride), s, u)) ∧
      (0 < stride → (stop - start) % stride = 0 →
        (t.Overruns s stride start stop → (t.on stride start stop).run s u = .error .overflow) ∧
        (¬t.Overruns s stride start stop → (t.on stride start stop).Answers s u))) := by
  have hobeys := obeys hs hroom hu t stride start stop
  refine ⟨fun houtside => ?_, fun hle hl => ?_⟩
  · rw [checkRecords_of_outside houtside] at hobeys
    exact hobeys
  rw [checkRecords_of_le hle hl, checkStride] at hobeys
  refine ⟨fun hzero => ?_, fun hpos hpartial => ?_, fun hpos hwhole => ?_⟩
  · rw [if_pos hzero] at hobeys
    exact hobeys
  · rw [if_neg (Nat.ne_of_gt hpos), if_neg hpartial] at hobeys
    exact hobeys
  · rw [if_neg (Nat.ne_of_gt hpos), if_pos hwhole] at hobeys
    exact hobeys

end Ready

/-- Three words on two pages. Pairs do not fit them; a stride that is the last position fits the empty range between
the first word and the second, where keys are searched for and their order cannot be checked. -/
theorem checks_then_answers_on_two_pages :
    ∃ a, Paged.ofWords .generous (.even 2) (#[.ofInt 3, .ofInt 1, .ofInt 2] : Words .w32) = .ok (.ok a) ∧
      ∃ s : Store .w32, s = .paged a ∧
      ∃ u : Caller .w32 Unit, u = ⟨(), .ofWords #[.ofInt 1], .serving "tmp" []⟩ ∧
        ((sort .external).on 2 0 3).run s u = .ok (.refused (.strideMismatch 3 2), s, u) ∧
        ((search .bisect (.ofInt 1)).on (2 ^ 64 - 1) 1 1).Answers s u ∧
        (isSorted.on (2 ^ 64 - 1) 1 1).run s u = .error .overflow := by
  have hp : (Partition.even 2).Valid := ⟨by decide, by decide⟩
  have hn : (#[.ofInt 3, .ofInt 1, .ofInt 2] : Words .w32).size < 2 ^ 63 := by decide
  obtain ⟨a, ha⟩ := Paged.ofWords_eq_ok hp hn (Host.generous_grantsMemory (by decide))
  obtain ⟨hready, -, hsize, -⟩ := Paged.ofWords_spec hp hn ha
  have hs : (Store.paged a).Ready := ⟨⟨hready.wellFormed, hready.size_lt⟩, hready.writable⟩
  have hsize : (Store.paged a).size = 3 := hsize
  have hroom : (Store.paged a).size * Width.w32.bytes < 2 ^ 63 := by rw [hsize]; decide
  obtain ⟨u, hu⟩ : ∃ u : Caller .w32 Unit, u = ⟨(), .ofWords #[.ofInt 1], .serving "tmp" []⟩ := ⟨_, rfl⟩
  have husable : u.Usable ((Store.paged a).size * Width.w32.bytes) := by
    rw [hu]
    exact ⟨⟨by decide, by decide⟩, Folder.serving_serves _ _ _⟩
  have hpairs := (checks_then_answers hs hroom husable (sort .external) 2 0 3).2 (by decide) (Nat.le_of_eq hsize.symm)
  have hsearch := (checks_then_answers hs hroom husable (search .bisect (.ofInt 1)) (2 ^ 64 - 1) 1 1).2 (by decide)
    (by rw [hsize]; decide)
  have hsorted := (checks_then_answers hs hroom husable isSorted (2 ^ 64 - 1) 1 1).2 (by decide) (by rw [hsize]; decide)
  have hover : (Store.paged a).Overruns (2 ^ 64 - 1) 1 := by
    show positionLimit ≤ 0 + 1 + (2 ^ 64 - 1)
    decide
  exact ⟨a, ha, _, rfl, u, hu, hpairs.2.1 (by decide) (by decide),
    (hsearch.2.2 (by decide) (by decide)).2 (not_overruns rfl),
    (hsorted.2.2 (by decide) (by decide)).1 ⟨rfl, rfl, hover⟩⟩

end RecordTask

end PagedWords
