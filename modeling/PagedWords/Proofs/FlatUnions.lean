import PagedWords.Proofs.CommonKeys
import PagedWords.Proofs.Creation
import PagedWords.Proofs.StoreUnion

/-!
# Unions of stores against unions of the words in one piece

A union, a value merge and a count of keys look at nothing but the words of the ranges: which storage holds them, and
whether a range lies in one piece, neither the answer nor the words written tell.
-/
namespace PagedWords
variable {k : Width} {τ : Type}

namespace Store
variable {s : Store k} {stride start stop : Nat}

/-- The words of a store in one piece. -/
def flat (s : Store k) : Store k := slice s.toList.toArray

@[simp] theorem toList_flat (s : Store k) : s.flat.toList = s.toList := rfl

theorem size_flat (hs : s.WellFormed) : s.flat.size = s.size := length_toList hs

theorem WellFormed.flat (hs : s.WellFormed) : s.flat.WellFormed := by
  have hlt := size_lt hs
  rw [← size_flat hs] at hlt
  exact hlt

theorem WellFormed.ready_flat (hs : s.WellFormed) : s.flat.Ready := ⟨hs.flat, rfl⟩

theorem isSortedRecords_flat (hs : s.WellFormed) (hstride : stride < 2 ^ 63) :
    s.flat.isSortedRecords stride start stop = s.isSortedRecords stride start stop := by
  have hlen := length_toList hs
  rcases hcheck : checkRecords start stop s.toList.length stride with e | u
  · rw [isSortedRecords_of_error hs (hlen ▸ hcheck), isSortedRecords_of_error hs.flat hcheck]
  · have hr := RecordRange.of_check hcheck
    rw [isSortedRecords_eq hs hstride hr, isSortedRecords_eq hs.flat hstride hr, toList_flat]

end Store

namespace Operand
variable {o a b : Operand k} {stride : Nat}

/-- The same range of the words in one piece. -/
def flat (o : Operand k) : Operand k := { o with store := o.store.flat }

theorem Ascending.flat (ho : o.Ascending stride) : o.flat.Ascending stride := ⟨ho.wellFormed.flat, ho.range, ho.sorted⟩

theorem checkRecords_flat (ho : o.store.WellFormed) : o.flat.checkRecords stride = o.checkRecords stride := by
  rw [checkRecords, checkRecords, flat, Store.size_flat ho]

theorem checkOrder_flat (ho : o.store.WellFormed) (hstride : stride < 2 ^ 63) :
    o.flat.checkOrder stride = o.checkOrder stride := by
  rw [checkOrder, checkOrder, flat, Store.isSortedRecords_flat ho hstride]

section Inputs
variable (ha : a.store.WellFormed) (hb : b.store.WellFormed) (hstride : stride < 2 ^ 63)
include ha hb hstride

theorem checkInputs_flat : a.flat.checkInputs b.flat stride = a.checkInputs b stride := by
  simp only [checkInputs, checkRecords_flat ha, checkRecords_flat hb, checkOrder_flat ha hstride,
    checkOrder_flat hb hstride]

theorem countKeys_flat : ∃ r, a.countKeys b stride = .ok r ∧ a.flat.countKeys b.flat stride = .ok r := by
  rcases checkInputs_cases ha hb hstride with ⟨e, -, hcheck⟩ | ⟨hasc, hasc'⟩
  · have hflat := hcheck
    rw [← checkInputs_flat ha hb hstride] at hflat
    exact ⟨.error e, by rw [countKeys, hcheck]; rfl, by rw [countKeys, hflat]; rfl⟩
  · exact ⟨_, countKeys_eq hasc hasc' hstride, countKeys_eq hasc.flat hasc'.flat hstride⟩

end Inputs

end Operand

namespace Store
variable {out dest : Store k} {a b source : Operand k} {stride start stop : Nat}

section Merge
variable (ha : a.store.WellFormed) (hb : b.store.WellFormed) (hstride : stride < 2 ^ 63)
include ha hb hstride

theorem checkMerge_flat (hout : out.WellFormed) (start stop : Nat) :
    out.flat.checkMerge start stop a.flat b.flat stride = out.checkMerge start stop a b stride := by
  simp only [checkMerge, Operand.checkInputs_flat ha hb hstride, size_flat hout]
  rfl

end Merge

theorem mergeInto_flat (hout : out.Ready) (ha : a.store.WellFormed) (hb : b.store.WellFormed)
    (hstride : stride < 2 ^ 63) (start stop : Nat) :
    ∃ r out' ws, out.mergeInto start stop a b stride = .ok (r, out') ∧
      out.flat.mergeInto start stop a.flat b.flat stride = .ok (r, slice ws) ∧ out.SameFrame out' ∧
      out'.toList = ws.toList := by
  rcases checkMerge_cases ha hb hstride out start stop with ⟨e, hcheck⟩ | ⟨⟨hle, hl⟩, hasc, hasc', hroom⟩
  · have hflat := hcheck
    rw [← checkMerge_flat ha hb hstride hout.wellFormed] at hflat
    exact ⟨.error e, out, out.toList.toArray, mergeInto_of_refused hcheck, mergeInto_of_refused hflat, .refl out, rfl⟩
  · obtain ⟨out', hrun, hfr, hwords⟩ := mergeInto_eq hout hasc hasc' hstride hle hl hroom
    have hl' : stop ≤ out.flat.size := by rw [size_flat hout.wellFormed]; exact hl
    obtain ⟨flat', hrun', hfr', hwords'⟩ :=
      mergeInto_eq hout.wellFormed.ready_flat hasc.flat hasc'.flat hstride hle hl' hroom
    cases hfr' with
    | @slice _ ws => exact ⟨_, out', ws, hrun, hrun', hfr, hwords.trans hwords'.symm⟩

section Values
variable {f : τ → Word k → Word k → Word k × τ}

/-- Word by word, the pairs of the destination are replaced by what becomes of them. -/
theorem combine_eq (hdest : dest.Ready) (htarget : Operand.Ascending ⟨dest, start, stop⟩ 2)
    (hsource : source.Ascending 2) (t : τ) {r : Union.Combined k τ}
    (hr : r = Union.combinePairs f (records dest.toList 2 start stop) (source.records 2) t) :
    ∃ dest', Union.combine dest source.store f t start stop source.start source.stop = .ok (r.count, dest', r.state) ∧
      dest.SameFrame dest' ∧ dest'.toList = patch dest.toList start r.pairs.flatten :=
  Union.combine_spec (view hdest) ⟨.refl dest, rfl⟩ (reads hsource.wellFormed) htarget.range hsource.range t hr

/-- They are replaced by the same whichever way the work goes. -/
theorem mergeValues_eq (hdest : dest.Ready) (htarget : Operand.Ascending ⟨dest, start, stop⟩ 2)
    (hsource : source.Ascending 2) (t : τ) {r : Union.Combined k τ}
    (hr : r = Union.combinePairs f (records dest.toList 2 start stop) (source.records 2) t) :
    ∃ dest', dest.mergeValues start stop source f t = .ok (.ok r.count, dest', r.state) ∧ dest.SameFrame dest' ∧
      dest'.toList = patch dest.toList start r.pairs.flatten := by
  have hlen := hdest.length_toList
  have hle : start ≤ stop := htarget.range.le
  have hl : stop ≤ dest.size := htarget.stop_le
  have hcheck := Operand.checkInputs_eq htarget hsource (by decide)
  obtain ⟨d, hd, hds⟩ := writableSlice?_spec hdest.wellFormed hle hl
  obtain ⟨s, hs, hss⟩ := slice?_spec hsource.wellFormed hsource.range.le hsource.stop_le
  simp only [mergeValues, hcheck, hd, Operand.slice?, hs, bind, Except.bind, pure, Except.pure]
  split
  · next d s =>
    have hwords := hds d rfl
    obtain ⟨hrd, hdr⟩ := htarget.records_of_slice hwords
    obtain ⟨hrs, hsr⟩ := hsource.records_of_slice (hss s rfl)
    have hdlen : d.toList.length = stop - start := by rw [hwords, length_stretch (by omega)]
    have hpairs : r.pairs.flatten.length = stop - start := by
      have hall : (records dest.toList 2 start stop).flatten.length = stop - start :=
        htarget.range.length_flatten_of_perm (.refl _)
      rw [hr, Union.length_flatten_combinePairs (fun _ hd => htarget.range.length_of_mem hd), hall]
    obtain ⟨d', hrun, hd'⟩ := Union.combine_spec (f := f) Words.view rfl (Words.reads s) hrd hrs t rfl
    rw [hdr, hsr] at hrun hd'
    rw [Operand.records, ← hr] at hrun hd'
    have hplace : start + d'.size ≤ dest.size := by
      rw [← Array.length_toList, hd', length_patch (by omega), hdlen]
      omega
    obtain ⟨dest', hwrite, hfr, hl'⟩ := writeRange_spec hdest hplace
    refine ⟨dest', by simp only [hrun, hwrite], hfr, ?_⟩
    rw [hl', hd', hwords, patch_stretch_patch (by omega) (by omega)]
  · obtain ⟨dest', hrun, hfr, hwords⟩ := combine_eq hdest htarget hsource t hr
    exact ⟨dest', by simp only [hrun], hfr, hwords⟩

theorem mergeValues_flat (hdest : dest.Ready) (hsource : source.store.WellFormed) (start stop : Nat)
    (f : τ → Word k → Word k → Word k × τ) (t : τ) :
    ∃ r dest' ws t', dest.mergeValues start stop source f t = .ok (r, dest', t') ∧
      dest.flat.mergeValues start stop source.flat f t = .ok (r, slice ws, t') ∧ dest.SameFrame dest' ∧
      dest'.toList = ws.toList := by
  have htarget : (⟨dest, start, stop⟩ : Operand k).store.WellFormed := hdest.wellFormed
  rcases Operand.checkInputs_cases htarget hsource (by decide : 2 < 2 ^ 63) with ⟨e, -, hcheck⟩ | ⟨hasc, hasc'⟩
  · have hflat := hcheck
    rw [← Operand.checkInputs_flat htarget hsource (by decide)] at hflat
    exact ⟨.error e, dest, dest.toList.toArray, t, by simp only [mergeValues, hcheck]; rfl,
      by rw [mergeValues]; exact congrArg (· >>= _) hflat, .refl dest, rfl⟩
  · obtain ⟨dest', hrun, hfr, hwords⟩ := mergeValues_eq (f := f) hdest hasc hasc' t rfl
    obtain ⟨flat', hrun', hfr', hwords'⟩ :=
      mergeValues_eq (f := f) hdest.wellFormed.ready_flat hasc.flat hasc'.flat t rfl
    cases hfr' with
    | @slice _ ws => exact ⟨_, dest', ws, _, hrun, hrun', hfr, hwords.trans hwords'.symm⟩

end Values

/-- A union, a value merge and a count answer for any storage what they answer for its words in one piece, be it a
refusal, and write the same words: whether a range is empty, on one page or on many does not show. -/
theorem unions_eq_flat (hout : out.Ready) (ha : a.store.WellFormed) (hb : b.store.WellFormed)
    (hstride : stride < 2 ^ 63) (start stop : Nat) :
    (∃ r out' ws, out.mergeInto start stop a b stride = .ok (r, out') ∧
      out.flat.mergeInto start stop a.flat b.flat stride = .ok (r, slice ws) ∧ out.SameFrame out' ∧
      out'.toList = ws.toList) ∧
    (∀ (f : τ → Word k → Word k → Word k × τ) (t : τ), ∃ r out' ws t',
      out.mergeValues start stop a f t = .ok (r, out', t') ∧
      out.flat.mergeValues start stop a.flat f t = .ok (r, slice ws, t') ∧ out.SameFrame out' ∧
      out'.toList = ws.toList) ∧
    ∃ r, a.countKeys b stride = .ok r ∧ a.flat.countKeys b.flat stride = .ok r :=
  ⟨mergeInto_flat hout ha hb hstride start stop, mergeValues_flat hout ha start stop,
    Operand.countKeys_flat ha hb hstride⟩

/-- Pairs in a window and no pairs of an array in pages are united across a page break of that array. -/
theorem unions_eq_flat_across_break :
    ∃ p, Paged.ofWords .generous (.even 3) (Array.replicate 6 Word.zero : Words .w32) = .ok (.ok p) ∧
      ∃ out', (paged p).mergeInto 1 6 ⟨window (slice #[.ofInt 9, .ofInt 1, .ofInt 10, .ofInt 3, .ofInt 30]) 1 5, 0, 4⟩
          ⟨paged p, 2, 2⟩ 2 = .ok (.ok 4, out') ∧
        out'.toList = [.zero, .ofInt 1, .ofInt 10, .ofInt 3, .ofInt 30, .zero] := by
  have hp : (Partition.even 3).Valid := ⟨by decide, by decide⟩
  have hn : (Array.replicate 6 Word.zero : Words .w32).size < 2 ^ 63 := by decide
  obtain ⟨p, hmake⟩ := Paged.ofWords_eq_ok hp hn (Host.generous_grantsMemory (by decide))
  obtain ⟨hready, -, -, hl⟩ := Paged.ofWords_spec hp hn hmake
  have hout : (paged p).Ready := ⟨⟨hready.wellFormed, hready.size_lt⟩, hready.writable⟩
  have hflat : (paged p).flat = slice (Array.replicate 6 Word.zero) :=
    congrArg (fun l : List (Word .w32) => slice l.toArray) hl
  obtain ⟨⟨r, out', ws, hrun, hrun', -, hwords⟩, -⟩ := unions_eq_flat (τ := Unit) hout
    (a := ⟨window (slice #[.ofInt 9, .ofInt 1, .ofInt 10, .ofInt 3, .ofInt 30]) 1 5, 0, 4⟩) (b := ⟨paged p, 2, 2⟩)
    ⟨(by decide : 5 < 2 ^ 63), by decide, by decide⟩ hout.wellFormed (by decide : 2 < 2 ^ 63) 1 6
  have hslices : (slice (Array.replicate 6 Word.zero) : Store .w32).mergeInto 1 6
      ⟨slice #[.ofInt 1, .ofInt 10, .ofInt 3, .ofInt 30], 0, 4⟩ ⟨slice (Array.replicate 6 Word.zero), 2, 2⟩ 2 =
        .ok (.ok 4, slice #[.zero, .ofInt 1, .ofInt 10, .ofInt 3, .ofInt 30, .zero]) := rfl
  rw [Operand.flat, Operand.flat, hflat] at hrun'
  cases hslices.symm.trans hrun'
  exact ⟨p, hmake, out', hrun, hwords⟩

end Store

end PagedWords
