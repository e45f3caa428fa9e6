import PagedWords.Store.Union
import PagedWords.Proofs.SortedChecks
import PagedWords.Proofs.StoreBulk
import PagedWords.Proofs.UnionWalk

/-!
# Unions of ranges of stores

Whether the work runs on words in one piece or through the stores, the destination ends up with the same
words: those of the union.
-/
namespace PagedWords
variable {k : Width}

theorem Words.slice?_eq {ws : Words k} {start stop : Nat} (hle : start ≤ stop) (hl : stop ≤ ws.size) :
    ∃ piece, ws.slice? start stop = some piece ∧ piece.toList = stretch ws.toList start (stop - start) := by
  refine ⟨ws.extract start stop, if_pos ⟨hle, hl⟩, ?_⟩
  rw [Array.toList_extract, List.extract_eq_take_drop, stretch]

namespace Store
variable {s : Store k} {start stop : Nat}

/-- A piece of a store, where there is one, has the words of its range. -/
theorem slice?_spec (hs : s.WellFormed) (hle : start ≤ stop) (hl : stop ≤ s.size) :
    ∃ r, s.slice? start stop = .ok r ∧ ∀ ws, r = some ws → ws.toList = stretch s.toList start (stop - start) := by
  induction s generalizing start stop with
  | slice ws =>
    obtain ⟨piece, hpiece, hwords⟩ := Words.slice?_eq hle hl
    exact ⟨_, rfl, fun ws' h => by cases hpiece.symm.trans h; exact hwords⟩
  | page p =>
    obtain ⟨piece, hpiece, hwords⟩ := Words.slice?_eq hle hl
    exact ⟨_, rfl, fun ws' h => by cases hpiece.symm.trans h; exact hwords⟩
  | paged a =>
    rw [slice?, Paged.slice?]
    split
    · exact ⟨none, rfl, fun ws h => nomatch h⟩
    · next c hconf =>
      obtain ⟨-, -, hsum, p, hp, hstop, -, hwords⟩ := Paged.page_of_confined hs.1 hs.2 hconf
      have hspan : c.stop - c.start = stop - start := by omega
      have hle' : c.start ≤ c.stop := by omega
      obtain ⟨piece, hpiece, hpwords⟩ := Words.slice?_eq hle' hstop
      refine ⟨some piece, by simp only [hp, hpiece, bind, Except.bind, pure, Except.pure], ?_⟩
      rintro ws ⟨⟩
      rw [hpwords, hspan, hwords]
      rfl
  | window base low high ih =>
    have hsize : stop ≤ high - low := hl
    have hhigh := hs.window_le
    have hlt := size_lt hs.1
    have hadd : addPosition low start = .ok (low + start) := by
      apply addPosition_of_lt
      have hlim : positionLimit = 2 ^ 64 := rfl
      omega
    have hle' : low + start ≤ low + stop := Nat.add_le_add_left hle low
    obtain ⟨r, hrun, hr⟩ := ih hs.1 hle' (by omega)
    refine ⟨r, by simp only [slice?, if_neg (Nat.not_lt.2 hsize), hadd, hrun, bind, Except.bind], ?_⟩
    intro ws h
    rw [hr ws h, toList, stretch_stretch _ (by omega), Nat.add_sub_add_left]
  | elementwise base ih => exact ⟨none, rfl, fun ws h => nomatch h⟩

private theorem writableSlice?_eq (s : Store k) (start stop : Nat) :
    s.writableSlice? start stop = .ok none ∨ s.writableSlice? start stop = s.slice? start stop := by
  induction s generalizing start stop with
  | slice ws => exact .inr rfl
  | page p =>
    rw [writableSlice?, slice?, Page.writableSlice?]
    split
    · exact .inr rfl
    · exact .inl rfl
  | paged a =>
    rw [writableSlice?, slice?, Paged.writableSlice?, Paged.slice?]
    split
    · exact .inl rfl
    · next c hconf =>
      cases a.page c.page with
      | error e => exact .inr rfl
      | ok p =>
        simp only [bind, Except.bind, pure, Except.pure, Page.writableSlice?]
        split
        · exact .inr rfl
        · exact .inl rfl
  | window base low high ih =>
    rw [writableSlice?, slice?]
    split
    · exact .inl rfl
    · cases addPosition low start with
      | error e => exact .inr rfl
      | ok pos => exact ih pos (low + stop)
  | elementwise base ih => exact .inl rfl

theorem writableSlice?_spec (hs : s.WellFormed) (hle : start ≤ stop) (hl : stop ≤ s.size) :
    ∃ r, s.writableSlice? start stop = .ok r ∧
      ∀ ws, r = some ws → ws.toList = stretch s.toList start (stop - start) := by
  rcases s.writableSlice?_eq start stop with h | h
  · exact ⟨none, h, fun ws h => nomatch h⟩
  · rw [h]
    exact slice?_spec hs hle hl

end Store

namespace Operand
variable {o a b : Operand k} {stride : Nat}

/-- The records of the range. -/
def records (o : Operand k) (stride : Nat) : List (Record k) := PagedWords.records o.store.toList stride o.start o.stop

/-- The range lies in the store, and its records ascend by key. -/
structure Ascending (o : Operand k) (stride : Nat) : Prop where
  wellFormed : o.store.WellFormed
  range : RecordRange o.store.toList stride o.start o.stop
  sorted : ((o.records stride).map recordKey).Pairwise (· ≤ ·)

theorem Ascending.stop_le (ho : o.Ascending stride) : o.stop ≤ o.store.size := by
  rw [← Store.length_toList ho.wellFormed]
  exact ho.range.le_length

private theorem Ascending.checkRecords_eq (ho : o.Ascending stride) : o.checkRecords stride = .ok () := by
  rw [checkRecords, ← Store.length_toList ho.wellFormed, ho.range.check]

theorem Ascending.checkOrder_eq (ho : o.Ascending stride) (hstride : stride < 2 ^ 63) :
    o.checkOrder stride = .ok (.ok ()) := by
  have hsorted := decide_eq_true ho.sorted
  simp only [checkOrder, Store.isSortedRecords_eq ho.wellFormed hstride ho.range, bind, Except.bind, pure, Except.pure]
  rw [records, ← recordKeys] at hsorted
  rw [hsorted]

theorem checkInputs_eq (ha : a.Ascending stride) (hb : b.Ascending stride) (hstride : stride < 2 ^ 63) :
    a.checkInputs b stride = .ok (.ok ()) := by
  simp only [checkInputs, ha.checkRecords_eq, hb.checkRecords_eq, ha.checkOrder_eq hstride, hb.checkOrder_eq hstride,
    bind, Except.bind]

/-- Why a range does not take part in a union. -/
inductive Refused (o : Operand k) (stride : Nat) : Error → Prop
  | outside (h : ¬(o.start ≤ o.stop ∧ o.stop ≤ o.store.size)) :
      Refused o stride (.rangeOutside o.start o.stop o.store.size)
  | strideless (h : stride = 0) : Refused o stride (.invalidArgument "stride" "stride > 0")
  | uneven (h : ¬stride ∣ o.length) : Refused o stride (.strideMismatch o.length stride)
  | descending (h : ¬((o.records stride).map recordKey).Pairwise (· ≤ ·)) : Refused o stride (.notSorted o.start o.stop)

theorem check_cases (ho : o.store.WellFormed) (hstride : stride < 2 ^ 63) :
    (∃ e, o.Refused stride e ∧ o.checkRecords stride = .error e) ∨ o.checkRecords stride = .ok () ∧
      (o.Ascending stride ∨ ∃ e, o.Refused stride e ∧ o.checkOrder stride = .ok (.error e)) := by
  by_cases hrange : o.start ≤ o.stop ∧ o.stop ≤ o.store.size
  · have hcheck : o.checkRecords stride = checkStride o.start o.stop stride :=
      checkRecords_of_le hrange.1 hrange.2 stride
    by_cases hzero : stride = 0
    · exact .inl ⟨_, .strideless hzero, hcheck.trans (if_pos hzero)⟩
    by_cases hwhole : (o.stop - o.start) % stride = 0
    · refine .inr ⟨hcheck.trans ((if_neg hzero).trans (if_pos hwhole)), ?_⟩
      have hr : RecordRange o.store.toList stride o.start o.stop :=
        ⟨Nat.pos_of_ne_zero hzero, hrange.1, by rw [Store.length_toList ho]; exact hrange.2, hwhole⟩
      by_cases hsorted : ((o.records stride).map recordKey).Pairwise (· ≤ ·)
      · exact .inl ⟨ho, hr, hsorted⟩
      · refine .inr ⟨_, .descending hsorted, ?_⟩
        rw [records, ← recordKeys] at hsorted
        simp only [checkOrder, Store.isSortedRecords_eq ho hstride hr, decide_eq_false hsorted, bind, Except.bind, pure,
          Except.pure]
    · have huneven : ¬stride ∣ o.length := fun hdvd => hwhole (Nat.mod_eq_zero_of_dvd hdvd)
      exact .inl ⟨_, .uneven huneven, hcheck.trans ((if_neg hzero).trans (if_neg hwhole))⟩
  · exact .inl ⟨_, .outside hrange, checkRecords_of_outside hrange stride⟩

theorem checkInputs_cases (ha : a.store.WellFormed) (hb : b.store.WellFormed) (hstride : stride < 2 ^ 63) :
    (∃ e, (a.Refused stride e ∨ b.Refused stride e) ∧ a.checkInputs b stride = .ok (.error e)) ∨
      a.Ascending stride ∧ b.Ascending stride := by
  rcases check_cases ha hstride with ⟨e, he, hrange⟩ | ⟨hrange, hasc⟩
  · exact .inl ⟨e, .inl he, by simp only [checkInputs, hrange]; rfl⟩
  rcases check_cases hb hstride with ⟨e, he, hrange'⟩ | ⟨hrange', hasc'⟩
  · exact .inl ⟨e, .inr he, by simp only [checkInputs, hrange, hrange']; rfl⟩
  rcases hasc with hasc | ⟨e, he, horder⟩
  · rcases hasc' with hasc' | ⟨e, he, horder'⟩
    · exact .inr ⟨hasc, hasc'⟩
    · refine .inl ⟨e, .inr he, ?_⟩
      simp only [checkInputs, hrange, hrange', hasc.checkOrder_eq hstride, bind, Except.bind]
      exact horder'
  · exact .inl ⟨e, .inl he, by simp only [checkInputs, hrange, hrange', horder]; rfl⟩

theorem Ascending.records_of_slice (ho : o.Ascending stride) {ws : Words k}
    (h : ws.toList = stretch o.store.toList o.start (o.stop - o.start)) :
    RecordRange ws.toList stride 0 ws.size ∧ PagedWords.records ws.toList stride 0 ws.size = o.records stride := by
  have hle := ho.range.le
  have hl := ho.range.le_length
  have hsize : ws.size = o.stop - o.start := by rw [← Array.length_toList, h, length_stretch (by omega)]
  refine ⟨⟨ho.range.pos, Nat.zero_le _, Nat.le_of_eq Array.length_toList.symm, ?_⟩, ?_⟩
  · rw [hsize, Nat.sub_zero]
    exact ho.range.whole
  · rw [h, hsize, records_stretch (Nat.zero_le _) (Nat.le_refl _), records]
    congr 1
    omega

/-- The union of the operands, in key order. -/
def union (a b : Operand k) (stride : Nat) : List (Record k) := Union.unite (a.records stride) (b.records stride)

variable (ha : a.Ascending stride) (hb : b.Ascending stride)
include ha hb

theorem length_of_mem_union {r : Record k} (hr : r ∈ a.union b stride) : r.length = stride := by
  rcases Union.mem_of_mem_unite hr with hr | hr
  · exact length_of_mem_recordsFrom (by rw [ha.range.add_count]; exact ha.range.le_length) hr
  · exact length_of_mem_recordsFrom (by rw [hb.range.add_count]; exact hb.range.le_length) hr

theorem countKeys_eq (hstride : stride < 2 ^ 63) : a.countKeys b stride = .ok (.ok (a.union b stride).length) := by
  obtain ⟨x, hx, hxs⟩ := Store.slice?_spec ha.wellFormed ha.range.le ha.stop_le
  obtain ⟨y, hy, hys⟩ := Store.slice?_spec hb.wellFormed hb.range.le hb.stop_le
  simp only [countKeys, checkInputs_eq ha hb hstride, slice?, hx, hy, bind, Except.bind]
  split
  · next x y =>
    obtain ⟨hrx, hxr⟩ := ha.records_of_slice (hxs x rfl)
    obtain ⟨hry, hyr⟩ := hb.records_of_slice (hys y rfl)
    rw [Union.count_spec (Words.reads x) (Words.reads y) hrx hry, hxr, hyr]
    rfl
  · rw [Union.count_spec (Store.reads ha.wellFormed) (Store.reads hb.wellFormed) ha.range hb.range]
    rfl

end Operand

namespace Store
variable {out : Store k} {a b : Operand k} {stride start stop : Nat}

theorem checkMerge_eq (ha : a.Ascending stride) (hb : b.Ascending stride) (hstride : stride < 2 ^ 63)
    (hle : start ≤ stop) (hl : stop ≤ out.size) (hroom : max a.length b.length ≤ stop - start) :
    out.checkMerge start stop a b stride = .ok (.ok ()) := by
  have hrange : checkRange start stop out.size = .ok () := checkRange_eq_ok_iff.2 ⟨hle, hl⟩
  simp only [checkMerge, hrange, Operand.checkInputs_eq ha hb hstride, if_neg (Nat.not_lt.2 hroom), bind, Except.bind,
    pure, Except.pure]

theorem checkMerge_of_short (ha : a.Ascending stride) (hb : b.Ascending stride) (hstride : stride < 2 ^ 63)
    (hle : start ≤ stop) (hl : stop ≤ out.size) (hshort : stop - start < max a.length b.length) :
    out.checkMerge start stop a b stride =
      .ok (.error (.destinationTooSmall (max a.length b.length) (stop - start))) := by
  have hrange : checkRange start stop out.size = .ok () := checkRange_eq_ok_iff.2 ⟨hle, hl⟩
  simp only [checkMerge, hrange, Operand.checkInputs_eq ha hb hstride, if_pos hshort, bind, Except.bind]
  rfl

/-- The ranges are looked at before their lengths are. -/
theorem checkMerge_of_refused (ha : a.store.WellFormed) (hb : b.store.WellFormed) (hstride : stride < 2 ^ 63)
    (h : ¬((start ≤ stop ∧ stop ≤ out.size) ∧ a.Ascending stride ∧ b.Ascending stride)) :
    ∃ e, (¬(start ≤ stop ∧ stop ≤ out.size) ∧ e = .rangeOutside start stop out.size ∨
        a.Refused stride e ∨ b.Refused stride e) ∧
      out.checkMerge start stop a b stride = .ok (.error e) := by
  by_cases hrange : start ≤ stop ∧ stop ≤ out.size
  · have hcheck : checkRange start stop out.size = .ok () := checkRange_eq_ok_iff.2 hrange
    rcases Operand.checkInputs_cases ha hb hstride with ⟨e, he, hinputs⟩ | hasc
    · exact ⟨e, .inr he, by simp only [checkMerge, hcheck, hinputs]; rfl⟩
    · exact absurd ⟨hrange, hasc⟩ h
  · have hcheck : checkRange start stop out.size = .error (.rangeOutside start stop out.size) := if_neg hrange
    exact ⟨_, .inl ⟨hrange, rfl⟩, by simp only [checkMerge, hcheck]; rfl⟩

theorem checkMerge_cases (ha : a.store.WellFormed) (hb : b.store.WellFormed) (hstride : stride < 2 ^ 63) (out : Store k)
    (start stop : Nat) :
    (∃ e, out.checkMerge start stop a b stride = .ok (.error e)) ∨
      (start ≤ stop ∧ stop ≤ out.size) ∧ a.Ascending stride ∧ b.Ascending stride ∧
        max a.length b.length ≤ stop - start := by
  by_cases h : (start ≤ stop ∧ stop ≤ out.size) ∧ a.Ascending stride ∧ b.Ascending stride
  · obtain ⟨⟨hle, hl⟩, hasc, hasc'⟩ := h
    rcases Nat.lt_or_ge (stop - start) (max a.length b.length) with hshort | hroom
    · exact .inl ⟨_, checkMerge_of_short hasc hasc' hstride hle hl hshort⟩
    · exact .inr ⟨⟨hle, hl⟩, hasc, hasc', hroom⟩
  · obtain ⟨e, -, hcheck⟩ := checkMerge_of_refused ha hb hstride h
    exact .inl ⟨e, hcheck⟩

theorem mergeInto_of_refused {e : Error} (h : out.checkMerge start stop a b stride = .ok (.error e)) :
    out.mergeInto start stop a b stride = .ok (.error e, out) := by
  rw [mergeInto, h]
  rfl

/-- Word by word, the destination takes as many records of the union as it has room for. -/
theorem merge_eq (hout : out.Ready) (ha : a.Ascending stride) (hb : b.Ascending stride) (hle : start ≤ stop)
    (hl : stop ≤ out.size) :
    ∃ out', Union.merge out a.store b.store stride start stop a.start a.stop b.start b.stop =
        .ok (if (a.union b stride).length ≤ (stop - start) / stride then .ok ((a.union b stride).length * stride)
          else .error (.destinationTooSmall (((stop - start) / stride + 1) * stride) (stop - start)), out') ∧
      out.SameFrame out' ∧
      out'.toList = patch out.toList start ((a.union b stride).take ((stop - start) / stride)).flatten :=
  Union.merge_spec (reads ha.wellFormed) (reads hb.wellFormed) ha.range hb.range (view hout)
    (by rw [hout.length_toList]; exact hl) rfl ⟨SameFrame.refl out, rfl⟩ hle rfl

/-- It takes the same where the work runs on words in one piece. -/
theorem mergeInto_eq (hout : out.Ready) (ha : a.Ascending stride) (hb : b.Ascending stride) (hstride : stride < 2 ^ 63)
    (hle : start ≤ stop) (hl : stop ≤ out.size) (hroom : max a.length b.length ≤ stop - start) :
    ∃ out', out.mergeInto start stop a b stride =
        .ok (if (a.union b stride).length ≤ (stop - start) / stride then .ok ((a.union b stride).length * stride)
          else .error (.destinationTooSmall (((stop - start) / stride + 1) * stride) (stop - start)), out') ∧
      out.SameFrame out' ∧
      out'.toList = patch out.toList start ((a.union b stride).take ((stop - start) / stride)).flatten := by
  have hlen := hout.length_toList
  obtain ⟨o, ho, hos⟩ := writableSlice?_spec hout.wellFormed hle hl
  obtain ⟨x, hx, hxs⟩ := slice?_spec ha.wellFormed ha.range.le ha.stop_le
  obtain ⟨y, hy, hys⟩ := slice?_spec hb.wellFormed hb.range.le hb.stop_le
  simp only [mergeInto, checkMerge_eq ha hb hstride hle hl hroom, ho, Operand.slice?, hx, hy, bind, Except.bind, pure,
    Except.pure]
  split
  · next o x y =>
    have hwords := hos o rfl
    obtain ⟨hrx, hxr⟩ := ha.records_of_slice (hxs x rfl)
    obtain ⟨hry, hyr⟩ := hb.records_of_slice (hys y rfl)
    have holen : o.toList.length = stop - start := by rw [hwords, length_stretch (by omega)]
    have hsize : o.size = stop - start := Array.length_toList.symm.trans holen
    obtain ⟨o', hrun, ho'⟩ := Union.merge_spec (Words.reads x) (Words.reads y) hrx hry Words.view
      (Nat.le_of_eq Array.length_toList.symm) rfl (rfl : o.toList = o.toList) (Nat.zero_le _) rfl
    rw [hxr, hyr, hsize, Nat.sub_zero, ← Operand.union] at hrun ho'
    have hfew : ((a.union b stride).take ((stop - start) / stride)).flatten.length ≤ stop - start := by
      rw [length_flatten_records (fun r hr => Operand.length_of_mem_union ha hb (List.mem_of_mem_take hr)),
        List.length_take]
      exact Nat.le_trans (Nat.mul_le_mul_right _ (Nat.min_le_left _ _)) (Nat.div_mul_le_self _ _)
    have hsize' : o'.size = stop - start := by
      rw [← Array.length_toList, ho', length_patch (by omega), holen]
    have hplace : start + o'.size ≤ out.size := by omega
    obtain ⟨out', hwrite, hfr, hl'⟩ := writeRange_spec hout hplace
    refine ⟨out', by simp only [hsize, hrun, hwrite], hfr, ?_⟩
    rw [hl', ho', hwords, patch_stretch_patch hfew (by omega)]
  · exact merge_eq hout ha hb hle hl

/-- Every key of either operand is written once, in order, with the first record that has it; the destination is
else unchanged, and the records written are as many as are counted beforehand. -/
theorem mergeInto_union (hout : out.Ready) (ha : a.Ascending stride) (hb : b.Ascending stride)
    (hstride : stride < 2 ^ 63) (hle : start ≤ stop) (hl : stop ≤ out.size) {u : Nat}
    (hu : u = ((a.records stride ++ b.records stride).map recordKey).dedup.length)
    (hroom : max (stride * u) (max a.length b.length) ≤ stop - start) :
    ∃ out', out.mergeInto start stop a b stride = .ok (.ok (stride * u), out') ∧ out.SameFrame out' ∧
      (records out'.toList stride start (start + stride * u)).length = u ∧
      Union.IsUnion (a.records stride) (b.records stride) (records out'.toList stride start (start + stride * u)) ∧
      (∀ i, i < start ∨ start + stride * u ≤ i → out'.toList[i]? = out.toList[i]?) ∧
      a.countKeys b stride = .ok (.ok u) := by
  have hlen := hout.length_toList
  have hs := ha.range.pos
  have hunion : Union.IsUnion (a.records stride) (b.records stride) (a.union b stride) :=
    Union.isUnion_unite ha.sorted hb.sorted
  have hcount : (a.union b stride).length = u := by rw [hunion.length_eq, hu]
  have hfits : stride * u ≤ stop - start := Nat.le_trans (Nat.le_max_left _ _) hroom
  have hall : (a.union b stride).length ≤ (stop - start) / stride := by
    rw [hcount]
    exact (Nat.le_div_iff_mul_le hs).2 (by rw [Nat.mul_comm]; exact hfits)
  have hwords : (a.union b stride).flatten.length = stride * u := by
    rw [length_flatten_records (fun r hr => Operand.length_of_mem_union ha hb hr), hcount, Nat.mul_comm]
  obtain ⟨out', hrun, hfr, hl'⟩ := mergeInto_eq hout ha hb hstride hle hl (Nat.le_trans (Nat.le_max_right _ _) hroom)
  rw [if_pos hall, hcount, Nat.mul_comm] at hrun
  rw [List.take_of_length_le hall] at hl'
  have hrecords : records out'.toList stride start (start + stride * u) = a.union b stride := by
    rw [hl', ← hcount, Nat.mul_comm stride]
    exact records_patch hs (fun r hr => Operand.length_of_mem_union ha hb hr)
      (by rw [hcount, Nat.mul_comm]; omega)
  refine ⟨out', hrun, hfr, by rw [hrecords, hcount], by rw [hrecords]; exact hunion, ?_, ?_⟩
  · intro i hi
    rw [hl']
    exact getElem?_patch_of_outside (by omega) (by rw [hwords]; exact hi)
  · rw [Operand.countKeys_eq ha hb hstride, hcount]

/-- Pairs with the keys `1, 3` and `1, 2`: the pair of the first operand stands for the key `1`. -/
theorem mergeInto_union_of_pairs :
    ∃ out', (slice (Array.replicate 6 Word.zero) : Store .w32).mergeInto 0 6
        ⟨slice #[.ofInt 1, .ofInt 10, .ofInt 3, .ofInt 30], 0, 4⟩
        ⟨slice #[.ofInt 1, .ofInt 11, .ofInt 2, .ofInt 20], 0, 4⟩ 2 = .ok (.ok 6, out') ∧
      (records out'.toList 2 0 6).find? (recordKey · = .ofInt 1) = some [.ofInt 1, .ofInt 10] ∧
      Operand.countKeys (k := .w32) ⟨slice #[.ofInt 1, .ofInt 10, .ofInt 3, .ofInt 30], 0, 4⟩
        ⟨slice #[.ofInt 1, .ofInt 11, .ofInt 2, .ofInt 20], 0, 4⟩ 2 = .ok (.ok 3) := by
  have ha : Operand.Ascending (k := .w32) ⟨slice #[.ofInt 1, .ofInt 10, .ofInt 3, .ofInt 30], 0, 4⟩ 2 :=
    ⟨(by decide : 4 < 2 ^ 63), ⟨by decide, by decide, by decide, by decide⟩, by decide⟩
  have hb : Operand.Ascending (k := .w32) ⟨slice #[.ofInt 1, .ofInt 11, .ofInt 2, .ofInt 20], 0, 4⟩ 2 :=
    ⟨(by decide : 4 < 2 ^ 63), ⟨by decide, by decide, by decide, by decide⟩, by decide⟩
  have hout : (slice (Array.replicate 6 Word.zero) : Store .w32).Ready := ⟨(by decide : 6 < 2 ^ 63), rfl⟩
  obtain ⟨out', hrun, -, -, hunion, -, hcount⟩ := mergeInto_union hout ha hb (by decide) (by decide : 0 ≤ 6) (by decide)
    (u := 3) (by decide) (by decide)
  exact ⟨out', hrun, (hunion.record (.ofInt 1)).trans (by decide), hcount⟩

end Store

end PagedWords
