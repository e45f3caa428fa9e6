import PagedWords.Proofs.Runs

/-!
# Merge sort

Chunks are sorted one by one, each as the storage sorts words, and then merged. The limit on the chunks decides
how wide they are, and so in which order records of equal keys come out, but not the order of the keys. Chunks that are
small enough for quicksort to leave them to insertion sort keep the old order of equal keys, and so do the merges.
-/
namespace PagedWords
variable {k : Width}

/-- Storage that also sorts single words in a way of its own, with the result of quicksort. -/
structure Sortable.View {σ : Type} [Sortable σ k] (R : σ → List (Word k) → Prop) : Prop extends
    toBulkView : BulkCells.View R where
  quickSort : ∀ {us vs : List (Record k)}, vs.Perm us →
    (∀ (ρ : Type) [BulkCells ρ k] (Q : ρ → List (Word k) → Prop), BulkCells.View Q →
      Turns Q (fun a start stop => Sorting.quickSort a start stop) us vs) →
    Turns R (fun a start stop => Sortable.quickSort a start stop) us vs

/-- Whatever the storage, as long as it shows a list of words and sorts single words. -/
def OnSortable (P : ∀ {σ : Type} [Sortable σ k], (σ → List (Word k) → Prop) → Prop) : Prop :=
  ∀ (σ : Type) [Sortable σ k] (R : σ → List (Word k) → Prop), Sortable.View R → P R

namespace Sorting

/-- Sorted chunk by chunk, and merged through a scratch array of their length, the records `us` become `vs`. -/
def ChunkSorts (stride limit : Nat) (us vs : List (Record k)) : Prop :=
  OnSortable fun {σ} _ R => ∀ {x y : List (Word k)} {a : σ} {scratch : Words k}, R a (x ++ us.flatten ++ y) →
    scratch.size = us.flatten.length →
    ∃ a₁ a', sortInChunks a stride x.length (x.length + us.flatten.length) limit = .ok a₁ ∧
      mergeChunks a₁ stride x.length (x.length + us.flatten.length) scratch limit = .ok a' ∧
      R a' (x ++ vs.flatten ++ y)

variable {stride : Nat} (hs : 0 < stride) (hlim : stride < 2 ^ 63) {us : List (Record k)}
include hs hlim

theorem sortChunk_turns (hus : Uniform stride us) :
    ∃ vs, QuickSortOf us vs ∧
      OnSortable fun R => Turns R (fun a start stop => sortChunk a stride start stop) us vs := by
  by_cases hone : stride = 1
  · subst hone
    obtain ⟨vs, hvs, hturns⟩ := quickSort_turns hus
    refine ⟨vs, hvs, fun σ _ R hR => ?_⟩
    simp only [sortChunk, if_true]
    exact hR.quickSort hvs.perm hturns
  · obtain ⟨vs, hvs, hturns⟩ := quickSortRecords_turns hs hlim hus
    refine ⟨vs, hvs, fun σ _ R hR => ?_⟩
    simp only [sortChunk, if_neg hone]
    exact hturns σ R hR.toBulkView

theorem sortChunks_turns {w : Nat} (hw : 0 < w) (fuel : Nat) : ∀ {us : List (Record k)}, Uniform stride us →
    us.length ≤ fuel →
    ∃ vs, vs.Perm us ∧ (w ≤ smallPart → KeepsTies us vs) ∧ InRuns w vs ∧ OnSortable fun R =>
      Turns R (fun a start stop => sortChunks stride (w * stride) stop fuel start a) us vs := by
  induction fuel with
  | zero =>
    intro us _ hfuel
    cases List.eq_nil_of_length_eq_zero (Nat.le_zero.1 hfuel)
    exact ⟨[], .refl _, fun _ => .refl _, .nil, fun σ _ R _ x y a ha => ⟨a, rfl, ha⟩⟩
  | succ fuel ih =>
    intro us hus hfuel
    have hsize := length_flatten_records hus
    rcases Nat.eq_zero_or_pos us.length with hzero | hpos
    · cases List.eq_nil_of_length_eq_zero hzero
      refine ⟨[], .refl _, fun _ => .refl _, .nil, fun σ _ R _ x y a ha => ⟨a, ?_, ha⟩⟩
      simp only [sortChunks, List.flatten_nil, List.length_nil, Nat.add_zero, if_neg (Nat.lt_irrefl x.length)]
    obtain ⟨xs, hxs⟩ : ∃ xs, xs = us.take w := ⟨_, rfl⟩
    obtain ⟨ys, hys⟩ : ∃ ys, ys = us.drop w := ⟨_, rfl⟩
    have hsplit : us = xs ++ ys := by rw [hxs, hys, List.take_append_drop]
    have hlenRest : ys.length = us.length - w := by rw [hys, List.length_drop]
    have hlenFirst : xs.length = min w us.length := by rw [hxs, List.length_take]
    obtain ⟨huniform, huniform'⟩ := List.forall_mem_append.1 (hsplit ▸ hus)
    obtain ⟨vs, hvs, hchunk⟩ := sortChunk_turns hs hlim huniform
    obtain ⟨ws, hperm, hties, hruns, hrest⟩ := ih huniform' (by omega)
    refine ⟨vs ++ ws, ?_, ?_, .append hvs.ascending ?_ hruns, ?_⟩
    · rw [hsplit]
      exact hvs.perm.append hperm
    · intro hw
      rw [hsplit]
      exact (hvs.ties (by omega)).append (hties hw)
    · rw [hvs.perm.length_eq, hlenFirst]
      rcases Nat.le_total w us.length with hle | hle
      · exact .inl (Nat.min_eq_left hle)
      · refine .inr ⟨Nat.min_le_left _ _, List.eq_nil_of_length_eq_zero ?_⟩
        rw [hperm.length_eq]
        omega
    · intro σ _ R hR x y a ha
      have hsizeFirst : vs.flatten.length = xs.flatten.length := hvs.perm.flatten.length_eq
      have hsum : us.flatten.length = xs.flatten.length + ys.flatten.length := by
        rw [hsplit, List.flatten_append, List.length_append]
      have hnext : min (x.length + w * stride) (x.length + us.flatten.length) = x.length + xs.flatten.length := by
        rw [hsize, length_flatten_records huniform, hxs]
        exact add_take_mul x.length w us
      obtain ⟨a₁, hfirst, ha₁⟩ := (hchunk σ R hR).before (hsplit ▸ ha)
      obtain ⟨a', hrun, ha'⟩ := (hrest σ R hR).after ha₁
      have hlt : x.length < x.length + us.flatten.length := by
        have := Nat.mul_pos hpos hs
        omega
      refine ⟨a', ?_, ha'⟩
      simp only [sortChunks, if_pos hlt, hnext, hfirst, bind, Except.bind]
      rw [hsizeFirst, Nat.add_assoc, ← hsum] at hrun
      exact hrun

/-- One record, or none, is neither sorted nor merged. No chunk holds more records than the limit, and one at least. -/
theorem chunkSorts_keepsTies (hus : Uniform stride us) (limit : Nat) :
    ∃ vs, SortOf us vs ∧ (limit ≤ smallPart → KeepsTies us vs) ∧ ChunkSorts stride limit us vs := by
  have hcount := hus.count_eq hs
  by_cases hfew : us.length ≤ 1
  · refine ⟨us, ⟨.refl _, .of_short hfew⟩, fun _ => .refl us, fun σ _ R hR x y a scratch ha _ => ⟨a, a, ?_, ?_, ha⟩⟩
    · rw [sortInChunks, Nat.add_sub_cancel_left, hcount, if_pos hfew]
    · rw [mergeChunks, Nat.add_sub_cancel_left, hcount, if_pos hfew]
      rfl
  · obtain ⟨w, hwidth⟩ : ∃ w, w = 1 <<< (min us.length (max limit 1)).log2 := ⟨_, rfl⟩
    have hw : 0 < w := by
      rw [hwidth, Nat.one_shiftLeft]
      exact Nat.two_pow_pos _
    have hchunk : chunkWords us.length limit stride = w * stride := by rw [hwidth, chunkWords]
    have hsmall : limit ≤ smallPart → w ≤ smallPart := by
      intro hlimit
      have hpow : w ≤ min us.length (max limit 1) := by
        rw [hwidth, Nat.one_shiftLeft]
        exact Nat.log2_self_le (by omega)
      have hone : 1 ≤ smallPart := by decide
      omega
    obtain ⟨us₁, hperm, hties, hruns, hchunks⟩ := sortChunks_turns hs hlim hw us.length hus (Nat.le_refl _)
    have henough : us₁.length ≤ w * 2 ^ us.length := by
      rw [hperm.length_eq]
      exact Nat.le_trans (Nat.le_of_lt Nat.lt_two_pow_self) (Nat.le_mul_of_pos_left _ hw)
    obtain ⟨vs, hvs, hpasses⟩ := mergePasses_turns hs us.length hw (Uniform.of_perm hus hperm) hruns henough
    have hsize₁ : us₁.flatten.length = us.flatten.length := hperm.flatten.length_eq
    refine ⟨vs, ⟨hvs.perm.trans hperm, hvs.ascending⟩, fun hlimit => (hties (hsmall hlimit)).trans hvs.ties, ?_⟩
    intro σ _ R hR x y a scratch ha hscratch
    obtain ⟨a₁, hsort, ha₁⟩ := hchunks σ R hR ha
    obtain ⟨a', scratch', hmerge, ha'⟩ := hpasses σ R hR.toBulkView ha₁ (hscratch.trans hsize₁.symm)
    refine ⟨a₁, a', ?_, ?_, ha'⟩
    · rw [sortInChunks, Nat.add_sub_cancel_left, hcount, if_neg hfew, hchunk]
      exact hsort
    · rw [hsize₁] at hmerge
      rw [mergeChunks, Nat.add_sub_cancel_left, hcount, if_neg hfew, hchunk]
      simp only [hmerge, bind, Except.bind, pure, Except.pure]

theorem exists_chunkSorts (hus : Uniform stride us) (limit : Nat) :
    ∃ vs, SortOf us vs ∧ ChunkSorts stride limit us vs := by
  obtain ⟨vs, hvs, -, h⟩ := chunkSorts_keepsTies hs hlim hus limit
  exact ⟨vs, hvs, h⟩

namespace ChunkSorts
variable {limit : Nat} {vs : List (Record k)}

omit hlim in
/-- The scratch array may be longer than the range, and what it holds before does not matter. -/
theorem mergeThrough (hus : Uniform stride us) (hvs : SortOf us vs) (h : ChunkSorts stride limit us vs) :
    OnSortable fun R => ∀ scratch : Words k, us.flatten.length ≤ scratch.size →
      Turns R (fun a start stop => Sorting.mergeThrough a stride start stop scratch limit) us vs := by
  have hcount := hus.count_eq hs
  intro σ _ R hR scratch hscratch x y a ha
  by_cases hfew : us.length ≤ 1
  · refine ⟨a, ?_, by rw [hvs.eq_of_short hfew]; exact ha⟩
    simp only [Sorting.mergeThrough, Nat.add_sub_cancel_left, hcount, if_pos hfew]
  · have hcut : (scratch.extract 0 us.flatten.length).size = us.flatten.length := by
      rw [Array.size_extract]
      omega
    obtain ⟨a₁, a', hchunks, hmerge, ha'⟩ := h σ R hR ha hcut
    refine ⟨a', ?_, ha'⟩
    simp only [Sorting.mergeThrough, Nat.add_sub_cancel_left, hcount, if_neg hfew, if_neg (Nat.not_lt.2 hscratch),
      hchunks, hmerge, bind, Except.bind]

omit hlim in
theorem mergeSortRecords (hus : Uniform stride us) (hvs : SortOf us vs) (h : ChunkSorts stride defaultChunk us vs)
    (hroom : us.flatten.length * k.bytes < 2 ^ 63) :
    OnSortable fun R => Turns R (fun a start stop => Sorting.mergeSortRecords a stride start stop) us vs := by
  intro σ _ R hR x y a ha
  rcases Nat.eq_zero_or_pos us.flatten.length with hzero | hpos
  · have hfew : us.length ≤ 1 := by
      have := length_flatten_records hus ▸ hzero
      have hnone : us.length = 0 := (Nat.mul_eq_zero.1 this).resolve_right (Nat.ne_of_gt hs)
      omega
    refine ⟨a, ?_, by rw [hvs.eq_of_short hfew]; exact ha⟩
    simp only [Sorting.mergeSortRecords]
    rw [if_pos (by omega)]
    rfl
  · have hheap : checkHeap k us.flatten.length = .ok () := if_pos hroom
    obtain ⟨a₁, a', hchunks, hmerge, ha'⟩ := h σ R hR ha
      (Array.size_replicate : (Array.replicate us.flatten.length (Word.zero : Word k)).size = _)
    refine ⟨a', ?_, ha'⟩
    simp only [Sorting.mergeSortRecords]
    rw [if_neg (by omega), Nat.add_sub_cancel_left]
    simp only [hheap, hchunks, hmerge, bind, Except.bind]

end ChunkSorts
end Sorting
end PagedWords
