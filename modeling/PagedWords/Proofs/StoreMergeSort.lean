import PagedWords.Proofs.ScratchFolders

/-!
# Merge sort of stores

The chunks are as wide as the limit allows and need not divide the range, so the last chunk, and the last run of every
pass, may be shorter than the others. The range is sorted all the same, with any scratch array that is long enough. The
loops are counted in steps, and end before the steps run out.
-/
namespace PagedWords
variable {k : Width} {stride start stop : Nat}

namespace Sorting
variable {σ : Type}

private theorem sortChunks_of_le [Sortable σ k] {chunk : Nat} (n : Nat) : ∀ {fuel start : Nat} (a : σ), n ≤ fuel →
    stop ≤ start + n * chunk → sortChunks stride chunk stop fuel start a = sortChunks stride chunk stop n start a := by
  induction n with
  | zero =>
    intro fuel start a _ hstop
    have hend : ¬start < stop := by omega
    cases fuel <;> simp [sortChunks, hend]
  | succ n ih =>
    intro fuel start a hfuel hstop
    obtain ⟨fuel, rfl⟩ : ∃ m, fuel = m + 1 := ⟨fuel - 1, by omega⟩
    rw [Nat.succ_mul] at hstop
    have hrest : ∀ a' : σ, sortChunks stride chunk stop fuel (min (start + chunk) stop) a' =
        sortChunks stride chunk stop n (min (start + chunk) stop) a' := fun a' => ih a' (by omega) (by omega)
    simp [sortChunks, hrest]

private theorem mergePairs_of_le [Cells σ k] {a : σ} {base length width : Nat} (n : Nat) :
    ∀ {fuel left : Nat} (scratch : Words k), n ≤ fuel → length ≤ left + n * (2 * width) →
    mergePairs a stride base length width fuel left scratch = mergePairs a stride base length width n left scratch := by
  induction n with
  | zero =>
    intro fuel left scratch _ hlength
    have hend : ¬left < length := by omega
    cases fuel <;> simp [mergePairs, hend]
  | succ n ih =>
    intro fuel left scratch hfuel hlength
    obtain ⟨fuel, rfl⟩ : ∃ m, fuel = m + 1 := ⟨fuel - 1, by omega⟩
    rw [Nat.succ_mul] at hlength
    have hrest : ∀ scratch', mergePairs a stride base length width fuel (min (left + 2 * width) length) scratch' =
        mergePairs a stride base length width n (min (left + 2 * width) length) scratch' :=
      fun scratch' => ih scratch' (by omega) (by omega)
    simp [mergePairs, hrest]

private theorem mergePasses_of_le [BulkCells σ k] {base length : Nat} (n : Nat) :
    ∀ {fuel width : Nat} (a : σ) (scratch : Words k), n ≤ fuel → length ≤ width * 2 ^ n →
    mergePasses stride base length fuel width a scratch = mergePasses stride base length n width a scratch := by
  induction n with
  | zero =>
    intro fuel width a scratch _ hlength
    have hend : ¬width < length := by omega
    cases fuel <;> simp [mergePasses, hend]
  | succ n ih =>
    intro fuel width a scratch hfuel hlength
    obtain ⟨fuel, rfl⟩ : ∃ m, fuel = m + 1 := ⟨fuel - 1, by omega⟩
    have hwidth : length ≤ 2 * width * 2 ^ n := by
      rw [Nat.mul_comm 2 width, Nat.mul_assoc, ← Nat.pow_succ']
      exact hlength
    have hrest : ∀ a' scratch', mergePasses stride base length fuel (2 * width) a' scratch' =
        mergePasses stride base length n (2 * width) a' scratch' :=
      fun a' scratch' => ih a' scratch' (by omega) hwidth
    simp [mergePasses, hrest]

/-- However many steps the loops of a sort by chunks are allowed beyond those they are given, they take no more. -/
structure LoopsEnd [Sortable σ k] (a : σ) (stride start stop limit : Nat) : Prop where
  chunks : ∀ fuel, (stop - start) / stride ≤ fuel →
    sortChunks stride (chunkWords ((stop - start) / stride) limit stride) stop fuel start a =
      sortChunks stride (chunkWords ((stop - start) / stride) limit stride) stop ((stop - start) / stride) start a
  passes : ∀ fuel (a' : σ) (scratch : Words k), (stop - start) / stride ≤ fuel →
    mergePasses stride start (stop - start) fuel (chunkWords ((stop - start) / stride) limit stride) a' scratch =
      mergePasses stride start (stop - start) ((stop - start) / stride)
        (chunkWords ((stop - start) / stride) limit stride) a' scratch
  pairs : ∀ fuel width (a' : σ) (scratch : Words k), 0 < width → stop - start ≤ fuel →
    mergePairs a' stride start (stop - start) width fuel 0 scratch =
      mergePairs a' stride start (stop - start) width (stop - start) 0 scratch

private theorem le_chunkWords (records limit stride : Nat) : stride ≤ chunkWords records limit stride := by
  rw [chunkWords, Nat.one_shiftLeft]
  exact Nat.le_mul_of_pos_left stride (Nat.two_pow_pos _)

theorem loopsEnd [Sortable σ k] (a : σ) (hle : start ≤ stop) (hdvd : stride ∣ stop - start) (limit : Nat) :
    LoopsEnd a stride start stop limit := by
  obtain ⟨n, hn⟩ : ∃ n, n = (stop - start) / stride := ⟨_, rfl⟩
  have hlength : stop - start = n * stride := by rw [hn, Nat.div_mul_cancel hdvd]
  have hwidth := le_chunkWords n limit stride
  constructor
  · intro fuel hfuel
    rw [← hn] at hfuel ⊢
    have hsteps : n * stride ≤ n * chunkWords n limit stride := Nat.mul_le_mul_left n hwidth
    exact sortChunks_of_le n a hfuel (by omega)
  · intro fuel a' scratch hfuel
    rw [← hn] at hfuel ⊢
    apply mergePasses_of_le n a' scratch hfuel
    calc stop - start = stride * n := by rw [hlength, Nat.mul_comm]
      _ ≤ chunkWords n limit stride * 2 ^ n := Nat.mul_le_mul hwidth (Nat.le_of_lt Nat.lt_two_pow_self)
  · intro fuel width a' scratch hpos hfuel
    apply mergePairs_of_le _ scratch hfuel
    have hsteps : (stop - start) * 1 ≤ (stop - start) * (2 * width) := Nat.mul_le_mul_left _ (by omega)
    omega

end Sorting

namespace Store
variable {s : Store k}

/-- The merge sort of a store, and that of the slice or of the paged array that it is, leave the same store. -/
theorem mergeThrough_spec {vs : List (Record k)} {limit : Nat} (hs : s.Ready)
    (hr : RecordRange s.toList stride start stop) (hvs : SortOf (records s.toList stride start stop) vs)
    (h : Sorting.ChunkSorts stride limit (records s.toList stride start stop) vs) {scratch : Words k}
    (hscratch : stop - start ≤ scratch.size) :
    ∃ s', (Sorting.mergeThrough s stride start stop scratch limit = .ok s' ∧
        (∀ ws, s = slice ws → slice <$> Sorting.mergeThrough ws stride start stop scratch limit = .ok s') ∧
        ∀ a, s = paged a → paged <$> Sorting.mergeThrough a stride start stop scratch limit = .ok s') ∧
      s.SameFrame s' ∧ s'.toList = patch s.toList start vs.flatten := by
  have hle := hr.le
  have hself : s.SameFrame s ∧ s.toList = s.toList := ⟨.refl s, rfl⟩
  obtain ⟨s', hrun, hfr, hwords⟩ := (sortableView hs).mergeThrough hself hr hvs h hscratch
  refine ⟨s', ⟨hrun, ?_, ?_⟩, hfr, hwords⟩
  · rintro ws rfl
    obtain ⟨ws', hrun', hwords', -⟩ := Words.sortableView.mergeThrough ⟨rfl, hs.wellFormed⟩ hr hvs h hscratch
    have hstop : stop ≤ ws.toList.length := hr.le_length
    have hsize : ws'.size = ws.size := by
      rw [← Array.length_toList, hwords', length_patch (by rw [hr.length_flatten_of_perm hvs.perm]; omega)]
      rfl
    have hfr' : SameFrame (slice ws) (slice ws') := .slice hsize
    rw [hrun', hfr.eq_of_toList hfr' hs.wellFormed (hwords.trans hwords'.symm)]
    rfl
  · rintro a rfl
    obtain ⟨a', hrun', hfr', hwords'⟩ := (Paged.sortableView hs.paged).mergeThrough ⟨rfl, rfl⟩ hr hvs h hscratch
    have hfr' : SameFrame (paged a) (paged a') := .paged hfr'
    rw [hrun', hfr.eq_of_toList hfr' hs.wellFormed (hwords.trans hwords'.symm)]
    rfl

/-- Merge sort brings the records of a range into ascending order of their keys and leaves all other words, whatever
the limit on its chunks and whatever the scratch array holds; and it does so whether the array lies on the heap or in a
file. -/
theorem mergeSort_sortsTo (hs : s.Ready) (hsize : s.size < 2 ^ 60) (hstride : stride < 2 ^ 63)
    (hr : RecordRange s.toList stride start stop) (limit : Nat) :
    Sorting.LoopsEnd s stride start stop limit ∧ ∃ s', s.SortsTo s' stride start stop ∧
      (∀ scratch : Words k, stop - start ≤ scratch.size →
        Sorting.mergeThrough s stride start stop scratch limit = .ok s' ∧
        (∀ ws, s = slice ws → slice <$> Sorting.mergeThrough ws stride start stop scratch limit = .ok s') ∧
        ∀ a, s = paged a → paged <$> Sorting.mergeThrough a stride start stop scratch limit = .ok s') ∧
      (∀ folder : Folder, folder.Serves ((stop - start) * k.bytes) → limit ≤ (stop - start) / stride →
        s.sortRecords (.limited limit) folder stride start stop = .ok (.done folder s')) ∧
      (limit = Sorting.defaultChunk → ∀ folder,
        s.sortRecords (.inMemory .merge) folder stride start stop = .ok (.done folder s') ∧
        (folder.Serves ((stop - start) * k.bytes) →
          s.sortRecords .external folder stride start stop = .ok (.done folder s')) ∧
        (stride = 1 → s.sort .merge start stop = .ok s')) := by
  have hle := hr.le
  have hl := hr.le_length
  rw [hs.length_toList] at hl
  have hrange : (stop - start) * k.bytes < 2 ^ 63 := k.mul_bytes_lt (by omega)
  have hus : Uniform stride (records s.toList stride start stop) := fun r => hr.length_of_mem
  refine ⟨Sorting.loopsEnd s hle (Nat.dvd_of_mod_eq_zero hr.whole) limit, ?_⟩
  obtain ⟨vs, hvs, h⟩ := Sorting.exists_chunkSorts hr.pos hstride hus limit
  have hzeros : stop - start ≤ (Array.replicate (stop - start) (Word.zero : Word k)).size := by simp
  obtain ⟨s', -, hfr, hwords⟩ := mergeThrough_spec hs hr hvs h hzeros
  have hsame : ∀ s'', s.SameFrame s'' → s''.toList = patch s.toList start vs.flatten → s'' = s' :=
    fun s'' hfr'' hwords'' => hfr''.eq_of_toList hfr hs.wellFormed (hwords''.trans hwords.symm)
  have hsort : ∀ how, Sorting.Rearranges how stride (records s.toList stride start stop) vs →
      ∀ folder : Folder, folder.Serves ((stop - start) * k.bytes) →
        s.sortRecords how folder stride start stop = .ok (.done folder s') := by
    intro how hhow folder hfolder
    obtain ⟨s'', hrun, hfr'', hwords''⟩ := sortRecords_spec hs hr hvs.perm hhow hrange hfolder
    rw [hrun, hsame s'' hfr'' hwords'']
  refine ⟨s', .of_patch hr hvs hfr hwords, ?_, ?_, ?_⟩
  · intro scratch hscratch
    obtain ⟨s'', hruns, hfr'', hwords''⟩ := mergeThrough_spec hs hr hvs h hscratch
    rw [hsame s'' hfr'' hwords''] at hruns
    exact hruns
  · intro folder hfolder hmany
    have hmany' : limit ≤ (records s.toList stride start stop).length := by rwa [length_records]
    exact hsort _ (h.rearranges_limited hr.pos hus hvs hmany') folder hfolder
  · rintro rfl folder
    have hmerge := h.rearranges_merge hr.pos hus hvs (by rwa [hr.length_flatten_of_perm (.refl _)])
    refine ⟨?_, hsort _ (h.rearranges_external hr.pos hus hvs) folder, ?_⟩
    · have hfolder := Folder.serving_serves "" [] ((stop - start) * k.bytes)
      exact sortRecords_inMemory hrange hfolder hs.wellFormed (hsort _ hmerge _ hfolder) folder
    · rintro rfl
      obtain ⟨s'', hrun, hfr'', hwords''⟩ := sort_spec hs hr hvs.perm hmerge
      rw [hrun, hsame s'' hfr'' hwords'']

/-- Five pairs in chunks of two, with a scratch array that is too long and full of sevens: the last chunk is one pair,
and so is the last run of both passes. -/
theorem mergeSort_sortsTo_of_ragged_pairs :
    ∃ s s' : Store .w32, s = slice #[.ofInt 2, .ofInt 0, .ofInt 1, .ofInt 1, .ofInt 2, .ofInt 2, .ofInt 0, .ofInt 3,
        .ofInt 1, .ofInt 4] ∧
      s.SortsTo s' 2 0 10 ∧ Sorting.LoopsEnd s 2 0 10 3 ∧
      Sorting.mergeThrough s 2 0 10 (Array.replicate 12 (.ofInt 7)) 3 = .ok s' ∧
      s.sortRecords (.limited 3) (.serving "tmp" []) 2 0 10 = .ok (.done (.serving "tmp" []) s') ∧
      ∃ s'', s.sortRecords (.inMemory .merge) (.barring "none" .notFound) 2 0 10 =
          .ok (.done (.barring "none" .notFound) s'') ∧
        s.sortRecords .external (.serving "tmp" []) 2 0 10 = .ok (.done (.serving "tmp" []) s'') := by
  obtain ⟨s, hs⟩ : ∃ s : Store .w32, s = slice #[.ofInt 2, .ofInt 0, .ofInt 1, .ofInt 1, .ofInt 2, .ofInt 2, .ofInt 0,
    .ofInt 3, .ofInt 1, .ofInt 4] := ⟨_, rfl⟩
  have hready : s.Ready := by
    rw [hs]
    exact ⟨(by decide : 10 < 2 ^ 63), rfl⟩
  have hsize : s.size = 10 := by rw [hs]; rfl
  have hpairs : RecordRange s.toList 2 0 10 :=
    ⟨by decide, by decide, Nat.le_of_eq (hready.length_toList.trans hsize).symm, by decide⟩
  have hlt : s.size < 2 ^ 60 := by rw [hsize]; decide
  have hstride : 2 < 2 ^ 63 := by decide
  obtain ⟨hends, s', hs', hthrough, hlimited, -⟩ := mergeSort_sortsTo hready hlt hstride hpairs 3
  obtain ⟨-, s'', -, -, -, hsorts⟩ := mergeSort_sortsTo hready hlt hstride hpairs Sorting.defaultChunk
  have hscratch : 10 - 0 ≤ (Array.replicate 12 (Word.ofInt 7 : Word .w32)).size := by simp
  have hfolder := Folder.serving_serves "tmp" []
  exact ⟨s, s', hs, hs', hends, (hthrough _ hscratch).1, hlimited _ (hfolder _) (by decide), s'', (hsorts rfl _).1,
    (hsorts rfl _).2.1 (hfolder _)⟩

end Store
end PagedWords
