import PagedWords.Paged.Basic
import PagedWords.Proofs.Records
import PagedWords.Proofs.Tiling
import PagedWords.Proofs.View

/-!
# The word list of a paged array

Page `i` of a well-formed array holds the words of the list from `i` page sizes on. A write changes one
page; its frame, which is all but the words, stays.
-/
namespace PagedWords
variable {k : Width}

/-- What a page is apart from its words. -/
def Page.frame (p : Page k) : Nat × Option Region := (p.size, p.region)

theorem Page.isWritable_of_frame {p p' : Page k} (h : p'.frame = p.frame) : p'.isWritable = p.isWritable := by
  have hr : p'.region = p.region := congrArg Prod.snd h
  rw [isWritable, isWritable, hr]

theorem Page.size_of_frame {p p' : Page k} (h : p'.frame = p.frame) : p'.size = p.size := congrArg Prod.fst h

theorem Page.length_words (p : Page k) : p.words.toList.length = p.size := Array.length_toList

theorem Page.eq_of_frame {p p' : Page k} (h : p'.frame = p.frame) (hl : p'.words.toList = p.words.toList) : p' = p := by
  obtain ⟨ws, r⟩ := p
  obtain ⟨ws', r'⟩ := p'
  cases Array.toList_inj.1 hl
  cases congrArg Prod.snd h
  rfl

namespace Paged
variable {a a' : Paged k}

/-- What an array is apart from its words. -/
def frame (a : Paged k) : Partition × Nat × Array (Nat × Option Region) :=
  (a.partition, a.size, a.pages.map Page.frame)

theorem size_of_frame (h : a'.frame = a.frame) : a'.size = a.size := congrArg (·.2.1) h

theorem partition_of_frame (h : a'.frame = a.frame) : a'.partition = a.partition := congrArg Prod.fst h

theorem pages_of_frame (h : a'.frame = a.frame) : a'.pages.map Page.frame = a.pages.map Page.frame :=
  congrArg (·.2.2) h

theorem page_of_frame (h : a'.frame = a.frame) {i : Nat} {p' : Page k} (hp : a'.pages[i]? = some p') :
    ∃ p, a.pages[i]? = some p ∧ p'.frame = p.frame := by
  have hi := congrArg (fun (ps : Array (Nat × Option Region)) => ps[i]?) (pages_of_frame h)
  simp only [Array.getElem?_map, hp, Option.map_some] at hi
  obtain ⟨p, hp, hfr⟩ := Option.map_eq_some_iff.1 hi.symm
  exact ⟨p, hp, hfr.symm⟩

theorem WellFormed.of_frame (ha : a.WellFormed) (h : a'.frame = a.frame) : a'.WellFormed := by
  have hcount := congrArg Array.size (pages_of_frame h)
  rw [Array.size_map, Array.size_map] at hcount
  refine ⟨?_, ?_, ?_⟩
  · rw [partition_of_frame h]
    exact ha.partition
  · rw [hcount, partition_of_frame h, size_of_frame h]
    exact ha.count
  · intro i p' hp'
    obtain ⟨p, hp, hfr⟩ := page_of_frame h hp'
    rw [partition_of_frame h, size_of_frame h, Page.size_of_frame hfr]
    exact ha.length i p hp

/-- The frame tells where the pages end, so with the words it tells all. -/
theorem eq_of_toList (h : a'.frame = a.frame) (hl : a'.toList = a.toList) : a' = a := by
  have hframes : a'.pages.toList.map Page.frame = a.pages.toList.map Page.frame := by
    rw [← Array.toList_map, ← Array.toList_map, pages_of_frame h]
  have hlengths : ∀ b : Paged k, (b.pages.toList.map (fun p => p.words.toList)).map List.length =
      (b.pages.toList.map Page.frame).map Prod.fst := by
    intro b
    simp only [List.map_map, Function.comp_def, Page.length_words, Page.frame]
  have hwords : a'.pages.toList.map (fun p => p.words.toList) = a.pages.toList.map (fun p => p.words.toList) := by
    rw [List.eq_iff_flatten_eq, hlengths, hlengths, hframes]
    exact ⟨by simpa only [toList, List.flatMap_def] using hl, rfl⟩
  have hpages : a'.pages.toList = a.pages.toList := by
    have hinj : Function.Injective (fun p : Page k => (p.frame, p.words.toList)) :=
      fun _ _ hp => Page.eq_of_frame (congrArg Prod.fst hp) (congrArg Prod.snd hp)
    apply List.map_injective_iff.2 hinj
    rw [← List.zip_map' (f := Page.frame), ← List.zip_map' (f := Page.frame), hframes, hwords]
  obtain ⟨p, ps, n⟩ := a
  obtain ⟨p', ps', n'⟩ := a'
  cases Array.toList_inj.1 hpages
  cases partition_of_frame h
  cases size_of_frame h
  rfl

theorem isWritable_of_frame (h : a'.frame = a.frame) (ha : a.isWritable = true) : a'.isWritable = true := by
  rw [isWritable, Array.all_eq_true_iff_forall_mem] at ha ⊢
  intro p' hp'
  obtain ⟨i, hi⟩ := Array.getElem?_of_mem hp'
  obtain ⟨p, hp, hfr⟩ := page_of_frame h hi
  rw [Page.isWritable_of_frame hfr]
  exact ha p (Array.mem_of_getElem? hp)

theorem page_isWritable (ha : a.isWritable = true) {i : Nat} {p : Page k} (hp : a.pages[i]? = some p) :
    p.isWritable = true := by
  rw [isWritable, Array.all_eq_true_iff_forall_mem] at ha
  exact ha p (Array.mem_of_getElem? hp)

theorem pageStart_lt_size (ha : a.WellFormed) {i : Nat} (hi : i < a.pages.size) :
    i * a.partition.pageSize < a.size := by
  rw [ha.count] at hi
  exact ha.partition.start_lt hi

section View
variable (ha : a.WellFormed) (hs : a.size < 2 ^ 63)
include ha hs

theorem page_size {i : Nat} {p : Page k} (hp : a.pages[i]? = some p) :
    p.size = min (a.size - i * a.partition.pageSize) a.partition.pageSize := by
  have hi : i < a.pages.size := (Array.getElem?_eq_some_iff.1 hp).1
  have hlen := ha.length i p hp
  rw [Partition.pageLength_of_lt hs (pageStart_lt_size ha hi)] at hlen
  exact (Except.ok.inj hlen).symm

theorem length_flatMap_take {i : Nat} (hi : i ≤ a.pages.size) :
    ((a.pages.toList.take i).flatMap (fun p => p.words.toList)).length = min (i * a.partition.pageSize) a.size := by
  induction i with
  | zero => simp
  | succ i ih =>
    have hlt := pageStart_lt_size ha hi
    have hp : a.pages[i]? = some a.pages[i] := Array.getElem?_eq_getElem hi
    have hsize := page_size ha hs hp
    have htake : a.pages.toList.take (i + 1) = a.pages.toList.take i ++ [a.pages[i]] := by
      rw [List.take_add_one, Array.getElem?_toList, hp]
      rfl
    rw [htake, List.flatMap_append, List.length_append, ih (by omega), List.flatMap_singleton, Page.length_words,
      hsize, Nat.succ_mul]
    omega

theorem length_toList : a.toList.length = a.size := by
  have hall := length_flatMap_take ha hs (Nat.le_refl _)
  have hcover : a.size ≤ a.pages.size * a.partition.pageSize := by
    rw [ha.count]
    exact ha.partition.le_pageCount_mul a.size
  rw [← Array.length_toList, List.take_length] at hall
  rw [toList, hall, Array.length_toList]
  omega

theorem toList_split {i : Nat} {p : Page k} (hp : a.pages[i]? = some p) :
    ∃ before after, a.toList = before ++ p.words.toList ++ after ∧ before.length = i * a.partition.pageSize ∧
      ∀ p', ({ a with pages := a.pages.setIfInBounds i p' } : Paged k).toList =
        before ++ p'.words.toList ++ after := by
  have hi : i < a.pages.size := (Array.getElem?_eq_some_iff.1 hp).1
  have hlt := pageStart_lt_size ha hi
  refine ⟨(a.pages.toList.take i).flatMap (fun p => p.words.toList),
    (a.pages.toList.drop (i + 1)).flatMap (fun p => p.words.toList), ?_, ?_, ?_⟩
  · have hpages : a.pages.toList = a.pages.toList.take i ++ p :: a.pages.toList.drop (i + 1) := by
      have hget : a.pages.toList[i]? = some p := by rw [Array.getElem?_toList, hp]
      obtain ⟨hlen, hget⟩ := List.getElem?_eq_some_iff.1 hget
      rw [← hget, ← List.drop_eq_getElem_cons hlen, List.take_append_drop]
    rw [toList, hpages]
    simp only [List.flatMap_append, List.flatMap_cons, List.append_assoc]
    rw [← hpages]
  · rw [length_flatMap_take ha hs (by omega)]
    omega
  · intro p'
    rw [toList, Array.toList_setIfInBounds, List.set_eq_take_append_cons_drop, if_pos (by simpa using hi)]
    simp only [List.flatMap_append, List.flatMap_cons, List.append_assoc]

/-- The words of a piece stand on its page as they stand in the list. -/
theorem page_of_piece {pos next : Nat} {c : Piece} (hc : a.partition.IsPiece pos next c) (hn : next ≤ a.size) :
    ∃ p, a.pages[c.page]? = some p ∧ c.stop ≤ p.size ∧
      stretch p.words.toList c.start c.length = stretch a.toList pos (next - pos) := by
  have hlt := hc.lt
  have hP := ha.partition.pageSize_pos
  have hplace := a.partition.page_mul_add_offset pos
  have hi : c.page < a.pages.size := by
    rw [ha.count, Partition.pageCount, hc.page]
    apply (Nat.le_div_iff_mul_le hP).2
    have hle := a.partition.page_mul_le pos
    rw [Nat.succ_mul]
    omega
  obtain ⟨p, hp⟩ : ∃ p, a.pages[c.page]? = some p := ⟨_, Array.getElem?_eq_getElem hi⟩
  have hsize := page_size ha hs hp
  have hfits := hc.fits
  have hstop := hc.stop
  rw [hc.page] at hsize
  obtain ⟨before, after, hsplit, hbefore, -⟩ := toList_split ha hs hp
  have hpage : p.words.toList = stretch a.toList (c.page * a.partition.pageSize) p.size := by
    rw [hsplit, ← hbefore, ← p.length_words, stretch_append]
  refine ⟨p, hp, by omega, ?_⟩
  rw [hpage, stretch_stretch _ (by rw [hc.length, hc.start]; omega), hc.page, hc.start, hplace, hc.length]

theorem toList_replacePage {pos next : Nat} {c : Piece} (hc : a.partition.IsPiece pos next c) {p p' : Page k}
    (hp : a.pages[c.page]? = some p) {m : List (Word k)} (hm : c.start + m.length ≤ p.size)
    (hp' : p'.words.toList = patch p.words.toList c.start m) :
    ({ a with pages := a.pages.setIfInBounds c.page p' } : Paged k).toList = patch a.toList pos m := by
  have hplace := a.partition.page_mul_add_offset pos
  obtain ⟨before, after, hsplit, hbefore, hset⟩ := toList_split ha hs hp
  have hpos : before.length + c.start = pos := by rw [hbefore, hc.page, hc.start, hplace]
  rw [hset, hp', append_patch _ _ (by rw [p.length_words]; exact hm), ← hsplit, hpos]

end View

theorem frame_replacePage {i : Nat} {p p' : Page k} (hp : a.pages[i]? = some p) (hfr : p'.frame = p.frame) :
    ({ a with pages := a.pages.setIfInBounds i p' } : Paged k).frame = a.frame := by
  have hpages : (a.pages.setIfInBounds i p').map Page.frame = a.pages.map Page.frame := by
    apply Array.ext_getElem?
    intro j
    rw [Array.getElem?_map, Array.getElem?_map, Array.getElem?_setIfInBounds]
    by_cases hj : i = j
    · subst hj
      obtain ⟨hi, hget⟩ := Array.getElem?_eq_some_iff.1 hp
      rw [if_pos rfl, if_pos hi, hp, Option.map_some, Option.map_some, hfr]
    · rw [if_neg hj]
  rw [frame, frame, hpages]

theorem page_eq_ok {i : Nat} {p : Page k} (hp : a.pages[i]? = some p) : a.page i = .ok p := by
  rw [page, hp]

theorem confined?_of_le (a : Paged k) {start stop : Nat} (h : stop ≤ start) : a.confined? start stop = none := by
  simp [confined?, Partition.samePage, Nat.not_lt.2 h]

/-- A range that is confined to a page shows there as it shows in the array. -/
theorem page_of_confined (ha : a.WellFormed) (hs : a.size < 2 ^ 63) {start stop : Nat} {c : Piece}
    (h : a.confined? start stop = some c) :
    stop ≤ a.size ∧ start < stop ∧ c.start + (stop - start) = c.stop ∧
      ∃ p, a.page c.page = .ok p ∧ c.stop ≤ p.size ∧ p.size ≤ a.size ∧
        stretch p.words.toList c.start (stop - start) = stretch a.toList start (stop - start) := by
  rw [confined?] at h
  split at h
  · next hconf =>
    cases h
    have hc := Partition.isPiece_of_samePage ha.partition hconf.2
    obtain ⟨p, hp, hstop, hwords⟩ := page_of_piece ha hs hc hconf.1
    have hsize := page_size ha hs hp
    have hsum := hc.start_add_length
    rw [hc.length] at hwords hsum
    exact ⟨hconf.1, hc.lt, hsum, p, page_eq_ok hp, hstop, by omega, hwords⟩
  · cases h

theorem records_of_confined (ha : a.WellFormed) (hs : a.size < 2 ^ 63) {stride start stop : Nat} {c : Piece}
    (h : a.confined? start stop = some c) (hr : RecordRange a.toList stride start stop) :
    ∃ p, a.page c.page = .ok p ∧ p.size ≤ a.size ∧ RecordRange p.words.toList stride c.start c.stop ∧
      records p.words.toList stride c.start c.stop = records a.toList stride start stop := by
  obtain ⟨-, -, hsum, p, hp, hstop, hsize, hwords⟩ := page_of_confined ha hs h
  exact ⟨p, hp, hsize, hr.transfer hsum (by rw [p.length_words]; exact hstop) hwords⟩

theorem isPiece_one {p : Partition} (hp : p.Valid) (pos : Nat) :
    p.IsPiece pos (pos + 1) ⟨p.page pos, p.offset pos, p.offset pos + 1, pos⟩ :=
  ⟨rfl, rfl, by rw [Nat.add_sub_cancel_left], rfl, Nat.lt_succ_self pos, hp.offset_lt pos⟩

theorem reads (ha : a.WellFormed) (hs : a.size < 2 ^ 63) : Cells.Reads a a.toList := by
  refine ⟨(length_toList ha hs).symm, ?_⟩
  intro pos hpos
  have hlt : pos < a.size := by rw [← length_toList ha hs]; exact hpos
  obtain ⟨p, hp, hstop, hword⟩ := page_of_piece ha hs (isPiece_one ha.partition pos) hlt
  have hp : a.pages[a.partition.page pos]? = some p := hp
  have hoff : a.partition.offset pos < p.words.size := hstop
  have hone : pos + 1 - pos = 0 + 1 := by omega
  rw [Piece.length, Nat.add_sub_cancel_left, hone, stretch_succ 0 (by simpa using hoff),
    stretch_succ 0 hpos] at hword
  have hword := (List.cons.inj hword).1
  rw [Array.getElem_toList] at hword
  show a.get pos = _
  rw [get, if_neg (by omega), hp]
  exact (Words.get_of_lt hoff).trans (congrArg Except.ok hword)

private theorem modify_pages {i : Nat} {p : Page k} (hp : a.pages[i]? = some p) (f : Page k → Page k) :
    a.pages.modify i f = a.pages.setIfInBounds i (f p) := by
  apply Array.ext_getElem?
  intro j
  rw [Array.getElem?_modify, Array.getElem?_setIfInBounds]
  by_cases hj : i = j
  · subst hj
    obtain ⟨hi, -⟩ := Array.getElem?_eq_some_iff.1 hp
    rw [if_pos rfl, if_pos rfl, if_pos hi, hp, Option.map_some]
  · rw [if_neg hj, if_neg hj]

theorem set_spec (ha : a.WellFormed) (hs : a.size < 2 ^ 63) (hw : a.isWritable = true) {pos : Nat}
    (hpos : pos < a.size) (w : Word k) :
    ∃ a', a.set pos w = .ok a' ∧ a'.frame = a.frame ∧ a'.toList = a.toList.set pos w := by
  obtain ⟨p, hp, hstop, -⟩ := page_of_piece ha hs (isPiece_one ha.partition pos) hpos
  have hoff : a.partition.offset pos < p.words.size := hstop
  have hpage : a.pages[a.partition.page pos]? = some p := hp
  have hmodify := modify_pages hpage (putWord (a.partition.offset pos) w)
  have hput : (putWord (a.partition.offset pos) w p).words.toList =
      patch p.words.toList (a.partition.offset pos) [w] := by
    rw [← set_eq_patch (by simpa using hoff), putWord, Array.toList_setIfInBounds]
  refine ⟨{ a with pages := a.pages.modify (a.partition.page pos) (putWord (a.partition.offset pos) w) }, ?_, ?_, ?_⟩
  · have hslot : a.checkSlot (a.partition.page pos) (a.partition.offset pos) = .ok () := by
      simp only [checkSlot, hpage, page_isWritable hw hpage, hoff, Bool.not_true, Bool.false_eq_true, if_false,
        if_true]
    simp only [set, if_neg (Nat.not_le.2 hpos), hslot, bind, Except.bind, pure, Except.pure]
  · rw [hmodify]
    refine frame_replacePage hpage ?_
    simp only [Page.frame, Page.size, putWord, Array.size_setIfInBounds]
  · rw [hmodify, set_eq_patch (by rw [length_toList ha hs]; exact hpos)]
    exact toList_replacePage ha hs (isPiece_one ha.partition pos) hp hoff hput

/-- A writable array shows its words, and keeps its frame, whatever is written. -/
theorem view (ha : a.WellFormed) (hs : a.size < 2 ^ 63) (hw : a.isWritable = true) :
    Cells.View (fun (a' : Paged k) l => a'.frame = a.frame ∧ a'.toList = l) := by
  constructor
  · rintro a' l ⟨hfr, rfl⟩
    exact reads (ha.of_frame hfr) (by rw [size_of_frame hfr]; exact hs)
  · rintro a' l pos w ⟨hfr, rfl⟩ hpos
    have ha' := ha.of_frame hfr
    have hs' : a'.size < 2 ^ 63 := by rw [size_of_frame hfr]; exact hs
    rw [length_toList ha' hs'] at hpos
    obtain ⟨a'', hset, hfr', hl⟩ := set_spec ha' hs' (isWritable_of_frame hfr hw) hpos w
    exact ⟨a'', hset, hfr'.trans hfr, hl⟩

end Paged
end PagedWords
