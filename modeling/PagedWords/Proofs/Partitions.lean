import PagedWords.Proofs.StoreSorts

/-!
# Partitions of stores

The scans of a partition have no bound of their own. They end within the range all the same, and the lower part that
they leave ends before the last record, whatever the keys are and however often they repeat. So the parts are shorter
than the range, and the sort of the parts ends without a count of its steps.
-/
namespace PagedWords
variable {k : Width}

namespace Sorting

/-- A sort of the parts as it runs, in however many steps. -/
inductive PartsRun {σ : Type} [BulkCells σ k] (stride : Nat) : Nat → Nat → σ → σ → Prop
  | done {low high : Nat} {a : σ} (ended : ¬low < high) : PartsRun stride low high a a
  | small {low high : Nat} {a a' : σ} (more : low < high) (few : (high - low) / stride < smallPart)
      (sorted : insertionSortRecords a stride low (high + stride) = .ok a') : PartsRun stride low high a a'
  | lowFirst {low high mid : Nat} {a a₁ a₂ a' : σ} (more : low < high) (many : ¬(high - low) / stride < smallPart)
      (parted : partition a stride low high = .ok (mid, a₁)) (shorter : mid - low < high - mid)
      (first : PartsRun stride low mid a₁ a₂) (rest : PartsRun stride (mid + stride) high a₂ a') :
      PartsRun stride low high a a'
  | highFirst {low high mid : Nat} {a a₁ a₂ a' : σ} (more : low < high) (many : ¬(high - low) / stride < smallPart)
      (parted : partition a stride low high = .ok (mid, a₁)) (shorter : ¬mid - low < high - mid)
      (first : PartsRun stride (mid + stride) high a₁ a₂) (rest : PartsRun stride low mid a₂ a') :
      PartsRun stride low high a a'

end Sorting

namespace Store
variable {s s' : Store k} {stride low high mid : Nat} {pivot : Word k}

/-- The second store is the first with the records `low..high`, both included, in two parts: up to `mid` no key is above
the pivot, and after it none below. -/
structure PartsTo (s s' : Store k) (stride low high : Nat) (pivot : Word k) (mid : Nat) : Prop where
  frame : s.SameFrame s'
  low_le : low ≤ mid
  lt_high : mid < high
  aligned : (mid - low) % stride = 0
  perm : (records s'.toList stride low (high + stride)).Perm (records s.toList stride low (high + stride))
  le : ∀ x ∈ recordKeys s'.toList stride low (mid + stride), x ≤ pivot
  ge : ∀ x ∈ recordKeys s'.toList stride (mid + stride) (high + stride), pivot ≤ x
  before : s'.toList.take low = s.toList.take low
  after : s'.toList.drop (high + stride) = s.toList.drop (high + stride)

private theorem PartsTo.shorter (h : s.PartsTo s' stride low high pivot mid) (hs : 0 < stride)
    (hdvd : stride ∣ high - low) :
    mid - low < high - low ∧ mid + stride ≤ high ∧ high - (mid + stride) < high - low := by
  have hle := h.low_le
  have hlt := h.lt_high
  have hrest : stride ∣ high - mid := by
    have hsum : high - low = mid - low + (high - mid) := by omega
    rw [hsum] at hdvd
    exact (Nat.dvd_add_right (Nat.dvd_of_mod_eq_zero h.aligned)).1 hdvd
  have hnext := Nat.le_of_dvd (by omega) hrest
  omega

section Counted
variable {n m : Nat}

theorem PartsTo.of_patch {lows highs : List (Record k)}
    (hr : RecordRange s.toList stride low (low + n * stride + stride))
    (hparted : Sorting.Parted pivot (records s.toList stride low (low + n * stride + stride)) lows highs)
    (hlows : lows.length = m + 1) (hm : m < n) (hfr : s.SameFrame s')
    (hwords : s'.toList = patch s.toList low (lows ++ highs).flatten) :
    s.PartsTo s' stride low (low + n * stride) pivot (low + m * stride) := by
  have hl := hr.le_length
  have hwidth := hr.length_flatten_of_perm hparted.perm
  have hnext : (m + 1) * stride ≤ n * stride := Nat.mul_le_mul_right stride hm
  have hpos := hr.pos
  have hcut : low + m * stride + stride = low + (m + 1) * stride := by rw [Nat.succ_mul, Nat.add_assoc]
  have hrecords : records s'.toList stride low (low + n * stride + stride) = lows ++ highs := by
    rw [hwords, hr.records_patch hparted.perm]
  have hr' : RecordRange s'.toList stride low (low + n * stride + stride) :=
    ⟨hpos, hr.le, by rw [hwords, length_patch (by omega)]; exact hl, hr.whole⟩
  have hstart : low ≤ low + m * stride + stride := by omega
  obtain ⟨-, -, hkeys⟩ := hr'.split hstart (by rw [hcut]; omega) (by
    rw [hcut, Nat.add_sub_cancel_left, Nat.mul_mod_left])
  rw [recordKeys, hrecords, List.map_append] at hkeys
  have hcount : (recordKeys s'.toList stride low (low + m * stride + stride)).length = (lows.map recordKey).length := by
    rw [length_recordKeys, hcut, Nat.add_sub_cancel_left, Nat.mul_div_cancel _ hpos, List.length_map, hlows]
  obtain ⟨hlow, hhigh⟩ := List.append_inj hkeys hcount.symm
  refine ⟨hfr, Nat.le_add_right _ _, ?_, ?_, ?_, ?_, ?_, ?_, ?_⟩
  · rw [Nat.succ_mul] at hnext
    omega
  · rw [Nat.add_sub_cancel_left, Nat.mul_mod_left]
  · rw [hrecords]
    exact hparted.perm
  · rw [← hlow]
    exact List.forall_mem_map.2 hparted.le
  · rw [← hhigh]
    exact List.forall_mem_map.2 hparted.ge
  · rw [hwords, take_patch (Nat.le_refl _) (by omega)]
  · rw [hwords, drop_patch (by omega) (by omega)]

private theorem recordRange_of_span (hs : s.Ready) (hpos : 0 < stride) (hl : low + n * stride + stride ≤ s.size) :
    low + n * stride + stride - low = (n + 1) * stride ∧
      RecordRange s.toList stride low (low + n * stride + stride) := by
  have hspan : low + n * stride + stride - low = (n + 1) * stride := by
    rw [Nat.succ_mul]
    omega
  exact ⟨hspan, hpos, by omega, by rw [hs.length_toList]; exact hl, by rw [hspan, Nat.mul_mod_left]⟩

/-- Of `n + 1` records the lower part holds `m + 1`, and one at least is left. A fence around the records makes no
difference. -/
theorem partition_partsTo (hs : s.Ready) (hpos : 0 < stride) (hn : 0 < n) (hl : low + n * stride + stride ≤ s.size) :
    ∃ pivot m s', m < n ∧ s.get (low + n / 2 * stride) = .ok pivot ∧
      Sorting.partition s stride low (low + n * stride) = .ok (low + m * stride, s') ∧
      Sorting.partition (Fenced.around stride low (n + 1) s) stride low (low + n * stride) =
        .ok (low + m * stride, Fenced.around stride low (n + 1) s') ∧
      s.PartsTo s' stride low (low + n * stride) pivot (low + m * stride) := by
  obtain ⟨hspan, hr⟩ := recordRange_of_span hs hpos hl
  obtain ⟨us, hus⟩ : ∃ us, us = records s.toList stride low (low + n * stride + stride) := ⟨_, rfl⟩
  have hcount : us.length = n + 1 := by rw [hus, length_records, hspan, Nat.mul_div_cancel _ hpos]
  have huniform : Uniform stride us := hus ▸ fun r => hr.length_of_mem
  obtain ⟨lows, highs, hparted, hparts⟩ := Sorting.partition_parts hpos (by omega : 2 ≤ us.length)
  have hlen := hparted.perm.length_eq
  have hlow := List.length_pos_of_ne_nil hparted.lows_ne
  have hhigh := List.length_pos_of_ne_nil hparted.highs_ne
  rw [List.length_append] at hlen
  obtain ⟨m, hm⟩ : ∃ m, lows.length = m + 1 := ⟨lows.length - 1, by omega⟩
  have hstart : (s.toList.take low).length = low := by
    have hle := hr.le_length
    rw [List.length_take]
    omega
  have hview := (bulkView hs).recordView hpos (s.toList.take low) (s.toList.drop (low + n * stride + stride))
  rw [hstart] at hview
  have hself : s.toList.take low ++ us.flatten ++ s.toList.drop (low + n * stride + stride) = s.toList := by
    rw [hus, hr.flatten]
    exact take_stretch_drop s.toList hr.le
  have hshows : Uniform stride us ∧ s.SameFrame s ∧ s.toList =
      s.toList.take low ++ us.flatten ++ s.toList.drop (low + n * stride + stride) := ⟨huniform, .refl s, hself.symm⟩
  have hlast : low + us.length * stride - stride = low + n * stride := by
    rw [hcount, Nat.succ_mul]
    omega
  have hmid : low + lows.length * stride - stride = low + m * stride := by
    rw [hm, Nat.succ_mul]
    omega
  obtain ⟨s', hrun, -, hfr, hwords⟩ := hparts hview hshows
  obtain ⟨_, hrun', s'', rfl, -, hfr', hwords'⟩ := hparts (Fenced.recordView hpos hview) ⟨s, rfl, hshows⟩
  rw [hfr'.eq_of_toList hfr hs.wellFormed (hwords'.trans hwords.symm)] at hrun'
  have htotal : (lows ++ highs).length = n + 1 := by rw [List.length_append, hlen, hcount]
  rw [hlast, hmid] at hrun hrun'
  rw [htotal, hcount] at hrun'
  have hpatch : s'.toList = patch s.toList low (lows ++ highs).flatten := by
    have hwidth := hr.length_flatten_of_perm (hus ▸ hparted.perm)
    have hend : low + (lows ++ highs).flatten.length = low + n * stride + stride := by omega
    rw [hwords, patch, hend]
  have hpivot : s.get (low + n / 2 * stride) = .ok (recordKey (Sorting.middle us)) := by
    have hmiddle : n / 2 < us.length := by omega
    have hget := hview.keys hshows (n / 2) (by rw [List.length_map]; exact hmiddle)
    rw [List.getElem_map, ← Sorting.middle_eq hcount hmiddle] at hget
    exact hget
  exact ⟨_, m, s', by omega, hpivot, hrun, hrun', .of_patch hr (hus ▸ hparted) hm (by omega) hfr hpatch⟩

private theorem exists_insertionSort (hs : s.Ready) (hpos : 0 < stride) (hl : low + n * stride + stride ≤ s.size) :
    ∃ s', Sorting.insertionSortRecords s stride low (low + n * stride + stride) = .ok s' ∧ s.SameFrame s' := by
  obtain ⟨-, hr⟩ := recordRange_of_span hs hpos hl
  have hlim : stride < 2 ^ 63 := Nat.lt_of_le_of_lt (Nat.le_trans (Nat.le_add_left _ _) hl) (size_lt hs.wellFormed)
  obtain ⟨vs, hvs, hturns⟩ := Sorting.insertionSortRecords_turns hpos hlim (fun r => hr.length_of_mem)
  have hwidth := hr.length_flatten_of_perm (.refl _)
  obtain ⟨s', hrun, hfr, -⟩ := (hturns (Store k) _ (bulkView hs)).run hvs.perm.flatten.length_eq (by omega) hr.le_length
    hr.flatten ⟨SameFrame.refl s, rfl⟩
  exact ⟨s', hrun, hfr⟩

/-- The sort of the parts runs to its end, whatever number of steps it takes; to count them by the records does not cut
it short. -/
theorem exists_partsRun (hpos : 0 < stride) (n : Nat) : ∀ {s : Store k} {low : Nat}, s.Ready →
    low + n * stride + stride ≤ s.size →
    ∃ s', Sorting.PartsRun stride low (low + n * stride) s s' ∧ s.SameFrame s' ∧
      ∀ fuel, n < fuel → Sorting.partsSort stride fuel low (low + n * stride) s = .ok s' := by
  induction n using Nat.strongRecOn with
  | ind n ih =>
    intro s low hs hl
    have hcount : (low + n * stride - low) / stride = n := by
      rw [Nat.add_sub_cancel_left, Nat.mul_div_cancel _ hpos]
    have hsucc : ∀ {fuel}, n < fuel → ∃ fuel', fuel = fuel' + 1 ∧ n ≤ fuel' :=
      fun h => ⟨_, (Nat.sub_add_cancel (Nat.zero_lt_of_lt h)).symm, Nat.le_sub_one_of_lt h⟩
    rcases Nat.eq_zero_or_pos n with rfl | hn
    · have hended : ¬low < low + 0 * stride := by omega
      refine ⟨s, .done hended, .refl s, fun fuel hfuel => ?_⟩
      obtain ⟨fuel, rfl, -⟩ := hsucc hfuel
      rw [Sorting.partsSort, if_neg hended]
    have hmore : low < low + n * stride := Nat.lt_add_of_pos_right (Nat.mul_pos hn hpos)
    by_cases hfew : n < Sorting.smallPart
    · obtain ⟨s', hsorted, hfr⟩ := exists_insertionSort hs hpos hl
      refine ⟨s', .small hmore (by rw [hcount]; exact hfew) hsorted, hfr, fun fuel hfuel => ?_⟩
      obtain ⟨fuel, rfl, -⟩ := hsucc hfuel
      rw [Sorting.partsSort, if_pos hmore, hcount, if_pos hfew]
      exact hsorted
    · obtain ⟨pivot, m, s₁, hm, -, hparted, -, hparts⟩ := partition_partsTo hs hpos hn hl
      have hmany : ¬(low + n * stride - low) / stride < Sorting.smallPart := by rw [hcount]; exact hfew
      have hmiddle : (m + 1) * stride ≤ n * stride := Nat.mul_le_mul_right stride hm
      have hrest : low + m * stride + stride + (n - m - 1) * stride = low + n * stride := by
        have hsum : n = m + (n - m - 1 + 1) := by omega
        have hwords := congrArg (· * stride) hsum
        simp only [Nat.add_mul, Nat.one_mul] at hwords
        omega
      rw [Nat.succ_mul] at hmiddle
      have hlows : ∀ {s₂ : Store k}, s₁.SameFrame s₂ → ∃ s₃, Sorting.PartsRun stride low (low + m * stride) s₂ s₃ ∧
          s₁.SameFrame s₃ ∧ ∀ fuel, m < fuel → Sorting.partsSort stride fuel low (low + m * stride) s₂ = .ok s₃ := by
        intro s₂ hfr
        have hfr₂ := hparts.frame.trans hfr
        have hfits : low + m * stride + stride ≤ s₂.size := by rw [hfr₂.size_eq]; omega
        obtain ⟨s₃, hrun, hfr₃, hsteps⟩ := ih m hm (hs.of_sameFrame hfr₂) hfits
        exact ⟨s₃, hrun, hfr.trans hfr₃, hsteps⟩
      have hhighs : ∀ {s₂ : Store k}, s₁.SameFrame s₂ → ∃ s₃,
          Sorting.PartsRun stride (low + m * stride + stride) (low + n * stride) s₂ s₃ ∧ s₁.SameFrame s₃ ∧
          ∀ fuel, n - m - 1 < fuel →
            Sorting.partsSort stride fuel (low + m * stride + stride) (low + n * stride) s₂ = .ok s₃ := by
        intro s₂ hfr
        have hfr₂ := hparts.frame.trans hfr
        have hfits : low + m * stride + stride + (n - m - 1) * stride + stride ≤ s₂.size := by
          rw [hfr₂.size_eq, hrest]
          exact hl
        obtain ⟨s₃, hrun, hfr₃, hsteps⟩ := ih (n - m - 1) (by omega) (hs.of_sameFrame hfr₂) hfits
        rw [hrest] at hrun hsteps
        exact ⟨s₃, hrun, hfr.trans hfr₃, hsteps⟩
      by_cases hshorter : low + m * stride - low < low + n * stride - (low + m * stride)
      · obtain ⟨s₂, hfirst, hfr₂, hsteps₂⟩ := hlows (.refl s₁)
        obtain ⟨s₃, hlast, hfr₃, hsteps₃⟩ := hhighs hfr₂
        refine ⟨s₃, .lowFirst hmore hmany hparted hshorter hfirst hlast, hparts.frame.trans hfr₃, fun fuel hfuel => ?_⟩
        obtain ⟨fuel, rfl, hle⟩ := hsucc hfuel
        simp only [Sorting.partsSort, if_pos hmore, if_neg hmany, hparted, if_pos hshorter, hsteps₂ fuel (by omega),
          bind, Except.bind]
        exact hsteps₃ fuel (by omega)
      · obtain ⟨s₂, hfirst, hfr₂, hsteps₂⟩ := hhighs (.refl s₁)
        obtain ⟨s₃, hlast, hfr₃, hsteps₃⟩ := hlows hfr₂
        refine ⟨s₃, .highFirst hmore hmany hparted hshorter hfirst hlast, hparts.frame.trans hfr₃, fun fuel hfuel => ?_⟩
        obtain ⟨fuel, rfl, hle⟩ := hsucc hfuel
        simp only [Sorting.partsSort, if_pos hmore, if_neg hmany, hparted, if_neg hshorter, hsteps₂ fuel (by omega),
          bind, Except.bind]
        exact hsteps₃ fuel (by omega)

end Counted

/-- A partition ends, whatever the keys are. It reads keys of the range and exchanges records of the range, and does
nothing else: a fence around the range makes no difference. Both parts that it leaves are shorter than the range, and so
the sort of the parts ends. -/
theorem partition_shrinks (hs : s.Ready) (hpos : 0 < stride) (hlt : low < high) (hdvd : stride ∣ high - low)
    (hl : high + stride ≤ s.size) :
    (∃ pivot mid s', s.get (low + (high - low) / stride / 2 * stride) = .ok pivot ∧
      Sorting.partition s stride low high = .ok (mid, s') ∧
      Sorting.partition (Fenced.mk s stride low (high + stride)) stride low high =
        .ok (mid, Fenced.mk s' stride low (high + stride)) ∧
      s.PartsTo s' stride low high pivot mid ∧
      mid - low < high - low ∧ mid + stride ≤ high ∧ high - (mid + stride) < high - low) ∧
    ∃ s', Sorting.PartsRun stride low high s s' ∧ Sorting.sortParts s stride low high = .ok s' := by
  obtain ⟨n, hn⟩ := hdvd
  have hcount : (high - low) / stride = n := by rw [hn, Nat.mul_div_cancel_left _ hpos]
  have hpositive : 0 < n := Nat.pos_of_ne_zero (by rintro rfl; omega)
  obtain rfl : high = low + n * stride := by
    rw [Nat.mul_comm]
    omega
  have hfence :
      ∀ a : Store k, Fenced.around stride low (n + 1) a = Fenced.mk a stride low (low + n * stride + stride) := by
    intro a
    rw [Fenced.around, Nat.succ_mul, Nat.add_assoc]
  constructor
  · obtain ⟨pivot, m, s', hm, hpivot, hrun, hrun', hparts⟩ := partition_partsTo hs hpos hpositive hl
    rw [hfence, hfence] at hrun'
    refine ⟨pivot, low + m * stride, s', by rw [hcount]; exact hpivot, hrun, hrun', hparts, hparts.shorter hpos ?_⟩
    exact ⟨n, hn⟩
  · obtain ⟨s', hrun, -, hsteps⟩ := exists_partsRun hpos n hs hl
    exact ⟨s', hrun, by rw [Sorting.sortParts, hcount]; exact hsteps _ (Nat.lt_succ_self n)⟩

/-- Three pairs with the same key, from the second word on: no scan passes a record. -/
theorem partition_shrinks_of_equal_keys :
    ∃ s : Store .w32, s = slice #[.ofInt 9, .ofInt 2, .ofInt 0, .ofInt 2, .ofInt 1, .ofInt 2, .ofInt 2] ∧
      (∃ pivot mid s', Sorting.partition s 2 1 5 = .ok (mid, s') ∧ s.PartsTo s' 2 1 5 pivot mid ∧ mid < 5 ∧
        Sorting.partition (Fenced.mk s 2 1 7) 2 1 5 = .ok (mid, Fenced.mk s' 2 1 7)) ∧
      ∃ s', Sorting.PartsRun 2 1 5 s s' := by
  obtain ⟨s, hs⟩ : ∃ s : Store .w32,
    s = slice #[.ofInt 9, .ofInt 2, .ofInt 0, .ofInt 2, .ofInt 1, .ofInt 2, .ofInt 2] := ⟨_, rfl⟩
  have hready : s.Ready := by
    rw [hs]
    exact ⟨(by decide : 7 < 2 ^ 63), rfl⟩
  have hsize : s.size = 7 := by rw [hs]; rfl
  obtain ⟨⟨pivot, mid, s', -, hrun, hrun', hparts, -⟩, s'', hsort, -⟩ :=
    partition_shrinks hready (by decide : 0 < 2) (by decide : 1 < 5) (by decide) (Nat.le_of_eq hsize.symm)
  exact ⟨s, hs, ⟨pivot, mid, s', hrun, hparts, hparts.lt_high, hrun'⟩, s'', hsort⟩

end Store
end PagedWords
