import PagedWords.Sorting.Policy
import PagedWords.Proofs.MergeSort

/-!
# What the sorts on offer do to the records

A sort of records that validates its range and finds a folder that serves it leaves the folder as it was, so what it
does to the storage can be told without the folder.
-/
namespace PagedWords
variable {k : Width}

theorem Width.mul_bytes_lt (k : Width) {n : Nat} (h : n < 2 ^ 60) : n * k.bytes < 2 ^ 63 := by
  have hwidth : k.bytes ≤ 8 := by cases k <;> decide
  have hwords : n * k.bytes ≤ n * 8 := Nat.mul_le_mul_left n hwidth
  omega

private theorem Scratch.create_eq_ok {f : Folder} {start stop : Nat} (h : f.Serves ((stop - start) * k.bytes))
    (hroom : (stop - start) * k.bytes < positionLimit) :
    ∃ (file : Scratch k) (used : Folder), Scratch.create f start stop = (.ok file, used) ∧
      file.words = Array.replicate (stop - start) Word.zero ∧ file.release used = f := by
  refine ⟨⟨f.freshName start stop, Array.replicate (stop - start) Word.zero⟩, f.add (f.freshName start stop), ?_, rfl,
    Folder.remove_add h.unlinks (f.freshName_notMem start stop)⟩
  simp only [Scratch.create, if_neg (Nat.not_le.2 hroom), h.made _ (Nat.le_refl _)]

namespace Sorting
variable {σ : Type} {stride start stop : Nat}

/-- A sort of records, once its range is valid and a scratch file can be had. -/
def rearrange [Sortable σ k] (how : RecordSort) (a : σ) (stride start stop : Nat) : Except Fault σ :=
  let zeros : Words k := Array.replicate (stop - start) Word.zero
  match how with
  | .inMemory algorithm => sortInMemory algorithm a stride start stop
  | .external => mergeThrough a stride start stop zeros defaultChunk
  | .limited memoryLimit =>
      if (stop - start) / stride < memoryLimit then quickSortRecords a stride start stop
      else mergeThrough a stride start stop zeros memoryLimit

private theorem sort_eq_rearrange [Sortable σ k] (algorithm : SortAlgorithm) (a : σ) (start stop : Nat) :
    sort algorithm a start stop = rearrange (.inMemory algorithm) a 1 start stop := by
  cases algorithm <;> rfl

section Outcome
variable [Sortable σ k] {a : σ} {folder : Folder} (hfolder : folder.Serves ((stop - start) * k.bytes))
  (hroom : (stop - start) * k.bytes < 2 ^ 63)
include hfolder hroom

theorem sortThroughFile_eq (chunk : Nat) :
    sortThroughFile chunk folder a stride start stop =
      .done folder <$> mergeThrough a stride start stop (Array.replicate (stop - start) Word.zero) chunk := by
  have hbytes : (stop - start) * k.bytes < positionLimit := Nat.lt_trans hroom (by decide)
  obtain ⟨file, used, hcreate, hwords, hrelease⟩ := Scratch.create_eq_ok (k := k) hfolder hbytes
  rw [sortThroughFile]
  by_cases hfew : (stop - start) / stride ≤ 1
  · simp only [mergeThrough, if_pos hfew]
    rfl
  · simp only [if_neg hfew, hcreate, hwords, hrelease]
    cases mergeThrough a stride start stop (Array.replicate (stop - start) Word.zero) chunk <;> rfl

private theorem sortRecords_eq_rearrange (how : RecordSort)
    (hcheck : checkRecords start stop (Cells.size a) stride = .ok ()) :
    sortRecords how folder a stride start stop = .done folder <$> rearrange how a stride start stop := by
  simp only [sortRecords, hcheck]
  cases how with
  | inMemory algorithm => rfl
  | external => exact sortThroughFile_eq hfolder hroom defaultChunk
  | limited memoryLimit =>
    simp only [rearrange]
    split
    · rfl
    · exact sortThroughFile_eq hfolder hroom memoryLimit

end Outcome

theorem sortRecords_of_error [Sortable σ k] {a : σ} {e : Error} (how : RecordSort) (folder : Folder)
    (hcheck : checkRecords start stop (Cells.size a) stride = .error e) :
    sortRecords how folder a stride start stop = .ok (.refused e a folder) := by
  simp only [sortRecords, hcheck]

/-- On any storage, and anywhere in it, the sort turns the records `us` into `vs`. -/
def Rearranges (how : RecordSort) (stride : Nat) (us vs : List (Record k)) : Prop :=
  ∀ (σ : Type) [Sortable σ k] (R : σ → List (Word k) → Prop), Sortable.View R →
    Turns R (fun a start stop => rearrange how a stride start stop) us vs

section Chunks
variable {us vs : List (Record k)} {chunk : Nat} (hs : 0 < stride) (hus : Uniform stride us) (hvs : SortOf us vs)
include hs hus hvs

theorem ChunkSorts.throughZeros (h : ChunkSorts stride chunk us vs) : OnSortable fun R =>
    Turns R (fun a start stop =>
      Sorting.mergeThrough a stride start stop (Array.replicate (stop - start) Word.zero) chunk) us vs := by
  intro σ _ R hR x y a ha
  refine h.mergeThrough hs hus hvs σ R hR _ (Nat.le_of_eq ?_) ha
  rw [Array.size_replicate, Nat.add_sub_cancel_left]

theorem ChunkSorts.rearranges_limited (h : ChunkSorts stride chunk us vs) (hmany : chunk ≤ us.length) :
    Rearranges (.limited chunk) stride us vs := by
  intro σ _ R hR x y a ha
  have hcount : (x.length + us.flatten.length - x.length) / stride = us.length := by
    rw [Nat.add_sub_cancel_left, hus.count_eq hs]
  simp only [rearrange, hcount, if_neg (Nat.not_lt.2 hmany)]
  exact h.throughZeros hs hus hvs σ R hR ha

theorem ChunkSorts.rearranges_external (h : ChunkSorts stride defaultChunk us vs) : Rearranges .external stride us vs :=
  h.throughZeros hs hus hvs

theorem ChunkSorts.rearranges_merge (h : ChunkSorts stride defaultChunk us vs)
    (hroom : us.flatten.length * k.bytes < 2 ^ 63) : Rearranges (.inMemory .merge) stride us vs :=
  h.mergeSortRecords hs hus hvs hroom

end Chunks

section Stride
variable (hs : 0 < stride) (hlim : stride < 2 ^ 63) {us : List (Record k)} (hus : Uniform stride us)
include hs hlim hus

theorem insertion_rearranges : ∃ vs, StableSortOf us vs ∧ Rearranges (.inMemory .insertion) stride us vs := by
  obtain ⟨vs, hvs, hturns⟩ := insertionSortRecords_turns hs hlim hus
  exact ⟨vs, hvs, fun σ _ R hR => hturns σ R hR.toBulkView⟩

theorem limited_rearranges (memoryLimit : Nat) :
    ∃ vs, SortOf us vs ∧ (memoryLimit ≤ smallPart → KeepsTies us vs) ∧
      Rearranges (.limited memoryLimit) stride us vs := by
  by_cases hfew : us.length < memoryLimit
  · obtain ⟨vs, hvs, hturns⟩ := quickSortRecords_turns hs hlim hus
    refine ⟨vs, hvs.toSortOf, fun hlimit => hvs.ties (by omega), fun σ _ R hR x y a ha => ?_⟩
    have hcount : (x.length + us.flatten.length - x.length) / stride = us.length := by
      rw [Nat.add_sub_cancel_left, hus.count_eq hs]
    simp only [rearrange, hcount, if_pos hfew]
    exact hturns σ R hR.toBulkView ha
  · obtain ⟨vs, hvs, hties, h⟩ := chunkSorts_keepsTies hs hlim hus memoryLimit
    exact ⟨vs, hvs, hties, h.rearranges_limited hs hus hvs (Nat.not_lt.1 hfew)⟩

/-- A sort brings the records into one order whatever the storage, and the keys ascend in it. -/
theorem exists_rearranges (hroom : us.flatten.length * k.bytes < 2 ^ 63) (how : RecordSort) :
    ∃ vs, SortOf us vs ∧ Rearranges how stride us vs := by
  cases how with
  | inMemory algorithm =>
    cases algorithm with
    | insertion =>
      obtain ⟨vs, hvs, h⟩ := insertion_rearranges hs hlim hus
      exact ⟨vs, hvs.toSortOf, h⟩
    | quick =>
      obtain ⟨vs, hvs, hturns⟩ := quickSortRecords_turns hs hlim hus
      exact ⟨vs, hvs.toSortOf, fun σ _ R hR => hturns σ R hR.toBulkView⟩
    | merge =>
      obtain ⟨vs, hvs, h⟩ := exists_chunkSorts hs hlim hus defaultChunk
      exact ⟨vs, hvs, h.rearranges_merge hs hus hvs hroom⟩
  | external =>
    obtain ⟨vs, hvs, h⟩ := exists_chunkSorts hs hlim hus defaultChunk
    exact ⟨vs, hvs, h.rearranges_external hs hus hvs⟩
  | limited memoryLimit =>
    obtain ⟨vs, hvs, -, h⟩ := limited_rearranges hs hlim hus memoryLimit
    exact ⟨vs, hvs, h⟩

/-- Insertion sort leaves the records in the one order in which equal keys stay as they were; so does a sort with a
limit that quicksort leaves to insertion sort. -/
theorem exists_rearranges_stably :
    ∃ vs, StableSortOf us vs ∧ Rearranges (.inMemory .insertion) stride us vs ∧
      ∀ memoryLimit ≤ smallPart, Rearranges (.limited memoryLimit) stride us vs := by
  obtain ⟨vs, hvs, hinsertion⟩ := insertion_rearranges hs hlim hus
  refine ⟨vs, hvs, hinsertion, fun memoryLimit hlimit => ?_⟩
  obtain ⟨ws, hws, hties, h⟩ := limited_rearranges hs hlim hus memoryLimit
  cases hvs.unique ⟨hws, hties hlimit⟩
  exact h

end Stride

end Sorting

/-- The records of a range are brought into one order, wherever the words of the range are kept. -/
theorem RecordRange.exists_rearranges {l : List (Word k)} {stride start stop : Nat}
    (hr : RecordRange l stride start stop)
    (hl : l.length * k.bytes < 2 ^ 63) (hlim : stride < 2 ^ 63) (how : RecordSort) :
    ∃ vs, SortOf (records l stride start stop) vs ∧ Sorting.Rearranges how stride (records l stride start stop) vs := by
  have hroom : (records l stride start stop).flatten.length * k.bytes < 2 ^ 63 := by
    have hle := hr.le
    have hstop := hr.le_length
    rw [hr.flatten, length_stretch (by omega)]
    exact Nat.lt_of_le_of_lt (Nat.mul_le_mul_right _ (by omega)) hl
  exact Sorting.exists_rearranges hr.pos hlim (fun r => hr.length_of_mem) hroom how

namespace Sortable.View
variable {σ : Type} [Sortable σ k] {R : σ → List (Word k) → Prop} {a : σ} {l : List (Word k)} {stride start stop : Nat}
  {how : RecordSort} {vs : List (Record k)} (hR : Sortable.View R) (ha : R a l)
include hR ha

theorem rearrange (hr : RecordRange l stride start stop) (hperm : vs.Perm (records l stride start stop))
    (h : Sorting.Rearranges how stride (records l stride start stop) vs) :
    ∃ a', Sorting.rearrange how a stride start stop = .ok a' ∧ R a' (patch l start vs.flatten) := by
  refine (h σ R hR).run hperm.flatten.length_eq ?_ hr.le_length hr.flatten ha
  rw [hr.flatten, length_stretch (by have := hr.le_length; have := hr.le; omega)]
  exact Nat.add_sub_of_le hr.le

theorem sortRecords (hr : RecordRange l stride start stop) (hperm : vs.Perm (records l stride start stop))
    (h : Sorting.Rearranges how stride (records l stride start stop) vs) (hroom : (stop - start) * k.bytes < 2 ^ 63)
    {folder : Folder} (hfolder : folder.Serves ((stop - start) * k.bytes)) :
    ∃ a', Sorting.sortRecords how folder a stride start stop = .ok (.done folder a') ∧
      R a' (patch l start vs.flatten) := by
  obtain ⟨a', hrun, ha'⟩ := hR.rearrange ha hr hperm h
  refine ⟨a', ?_, ha'⟩
  rw [Sorting.sortRecords_eq_rearrange hfolder hroom how (by rw [(hR.reads ha).size]; exact hr.check), hrun]
  rfl

theorem sort {algorithm : SortAlgorithm} (hr : RecordRange l 1 start stop) (hperm : vs.Perm (records l 1 start stop))
    (h : Sorting.Rearranges (.inMemory algorithm) 1 (records l 1 start stop) vs) :
    ∃ a', Sorting.sort algorithm a start stop = .ok a' ∧ R a' (patch l start vs.flatten) := by
  rw [Sorting.sort_eq_rearrange]
  exact hR.rearrange ha hr hperm h

theorem mergeThrough {limit : Nat} (hr : RecordRange l stride start stop)
    (hvs : SortOf (records l stride start stop) vs)
    (h : Sorting.ChunkSorts stride limit (records l stride start stop) vs) {scratch : Words k}
    (hscratch : stop - start ≤ scratch.size) :
    ∃ a', Sorting.mergeThrough a stride start stop scratch limit = .ok a' ∧ R a' (patch l start vs.flatten) := by
  have hwords : (records l stride start stop).flatten.length = stop - start := hr.length_flatten_of_perm (.refl _)
  have hle := hr.le
  refine (h.mergeThrough hr.pos (fun r => hr.length_of_mem) hvs σ R hR scratch (hwords ▸ hscratch)).run
    hvs.perm.flatten.length_eq ?_ hr.le_length hr.flatten ha
  omega

end Sortable.View

end PagedWords
