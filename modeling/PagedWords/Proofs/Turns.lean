import PagedWords.Proofs.Records
import PagedWords.Proofs.View

/-!
# Operations that turn records into others in place

What a sort makes of the records of a range is told apart from where they lie: the words before and after them
are arbitrary, and so is the storage. A part of a range is then a range, and what is done to the part leaves the
rest alone.
-/
namespace PagedWords
variable {k : Width} {σ : Type}

abbrev Uniform (stride : Nat) (us : List (Record k)) : Prop := ∀ r ∈ us, r.length = stride

/-- No key is below one before it. -/
abbrev Ascending (us : List (Record k)) : Prop := us.Pairwise (fun r s => recordKey r ≤ recordKey s)

theorem Uniform.of_perm {stride : Nat} {us vs : List (Record k)} (h : Uniform stride us) (hp : vs.Perm us) :
    Uniform stride vs := fun r hr => h r (hp.mem_iff.1 hr)

theorem Uniform.count_eq {stride : Nat} (hs : 0 < stride) {us : List (Record k)} (h : Uniform stride us) :
    us.flatten.length / stride = us.length := by
  rw [length_flatten_records h, Nat.mul_div_cancel _ hs]

theorem Ascending.of_short {us : List (Record k)} (h : us.length ≤ 1) : Ascending us := by
  rw [Ascending, List.pairwise_iff_getElem]
  intro i j hi hj hij
  omega

theorem Ascending.concat {us : List (Record k)} {r : Record k} (hus : Ascending us)
    (hlast : ∀ s ∈ us, recordKey s ≤ recordKey r) : Ascending (us ++ [r]) := by
  refine List.pairwise_append.2 ⟨hus, List.pairwise_singleton _ _, ?_⟩
  intro s hs t ht
  cases List.mem_singleton.1 ht
  exact hlast s hs

section Reads
variable [Cells σ k] {a : σ} {stride : Nat} {x y : List (Word k)} {ps qs : List (Record k)} {r : Record k}

theorem Cells.Reads.key (h : Cells.Reads a (x ++ (ps ++ r :: qs).flatten ++ y)) (hps : Uniform stride ps)
    (hr : 0 < r.length) : Cells.get a (x.length + ps.length * stride) = .ok (recordKey r) := by
  obtain ⟨w, ws, rfl⟩ := List.exists_cons_of_length_pos hr
  have hlen : (x ++ ps.flatten).length = x.length + ps.length * stride := by
    rw [List.length_append, length_flatten_records hps]
  have hl : x ++ (ps ++ (w :: ws) :: qs).flatten ++ y = x ++ ps.flatten ++ w :: (ws ++ qs.flatten ++ y) := by
    simp only [List.flatten_append, List.flatten_cons, List.append_assoc, List.cons_append]
  rw [hl] at h
  have hplace : (x ++ ps.flatten).length < (x ++ ps.flatten ++ w :: (ws ++ qs.flatten ++ y)).length := by
    simp only [List.length_append, List.length_cons]
    omega
  rw [← hlen, h.get _ hplace]
  simp only [List.getElem_append_right (Nat.le_refl _), Nat.sub_self, List.getElem_cons_zero]
  rfl

end Reads

/-- Storage that also swaps records that do not overlap, and takes whole ranges of words. No storage holds
`2 ^ 63` words. -/
structure BulkCells.View [BulkCells σ k] (R : σ → List (Word k) → Prop) : Prop extends Cells.View R where
  length_lt : ∀ {a : σ} {l : List (Word k)}, R a l → l.length < 2 ^ 63
  swapRecords : ∀ {a : σ} {l : List (Word k)} (n i j : Nat), R a l → i + n ≤ l.length → j + n ≤ l.length →
    i = j ∨ i + n ≤ j ∨ j + n ≤ i →
    ∃ a', BulkCells.swapRecords a n i j = .ok a' ∧ R a' (swapStretches l n i j)
  writeRange : ∀ {a : σ} {l : List (Word k)} {start : Nat} {ws : Words k}, R a l → start + ws.size ≤ l.length →
    ∃ a', BulkCells.writeRange a start ws = .ok a' ∧ R a' (patch l start ws.toList)

/-- Whatever the storage, as long as it shows a list of words. -/
def OnBulkCells (P : ∀ {σ : Type} [BulkCells σ k], (σ → List (Word k) → Prop) → Prop) : Prop :=
  ∀ (σ : Type) [BulkCells σ k] (R : σ → List (Word k) → Prop), BulkCells.View R → P R

theorem BulkCells.View.addPosition_eq [BulkCells σ k] {R : σ → List (Word k) → Prop} (hR : BulkCells.View R) {a : σ}
    {x l y : List (Word k)} (ha : R a (x ++ l ++ y)) {stride : Nat} (hlim : stride < 2 ^ 63) :
    addPosition x.length stride = .ok (x.length + stride) := by
  have hl := hR.length_lt ha
  have hlim : positionLimit = 2 ^ 64 := rfl
  rw [List.length_append, List.length_append] at hl
  exact addPosition_of_lt (by omega)

/-- Wherever the records `us` lie in the storage, `f` turns them into `vs` and leaves all other words. -/
def Turns (R : σ → List (Word k) → Prop) (f : σ → Nat → Nat → Except Fault σ) (us vs : List (Record k)) : Prop :=
  ∀ ⦃x y : List (Word k)⦄ ⦃a : σ⦄, R a (x ++ us.flatten ++ y) →
    ∃ a', f a x.length (x.length + us.flatten.length) = .ok a' ∧ R a' (x ++ vs.flatten ++ y)

namespace Turns
variable {R : σ → List (Word k) → Prop} {f : σ → Nat → Nat → Except Fault σ} {us vs : List (Record k)}
  {x y : List (Word k)} {a : σ}

theorem before (h : Turns R f us vs) {qs : List (Record k)} (ha : R a (x ++ (us ++ qs).flatten ++ y)) :
    ∃ a', f a x.length (x.length + us.flatten.length) = .ok a' ∧ R a' (x ++ (vs ++ qs).flatten ++ y) := by
  simp only [List.flatten_append, List.append_assoc] at ha ⊢
  simpa only [List.append_assoc] using h (x := x) (y := qs.flatten ++ y) (by simpa only [List.append_assoc] using ha)

theorem after (h : Turns R f us vs) {ps : List (Record k)} (ha : R a (x ++ (ps ++ us).flatten ++ y)) :
    ∃ a', f a (x.length + ps.flatten.length) (x.length + ps.flatten.length + us.flatten.length) = .ok a' ∧
      R a' (x ++ (ps ++ vs).flatten ++ y) := by
  rw [List.flatten_append, ← List.append_assoc] at ha ⊢
  rw [← List.length_append]
  exact h ha

/-- A range of a list of words is turned in its place. -/
theorem run (h : Turns R f us vs) (hlen : vs.flatten.length = us.flatten.length) {l : List (Word k)} {start stop : Nat}
    (hstop : start + us.flatten.length = stop) (hl : stop ≤ l.length)
    (hus : us.flatten = stretch l start (stop - start)) (ha : R a l) :
    ∃ a', f a start stop = .ok a' ∧ R a' (patch l start vs.flatten) := by
  have hstart : (l.take start).length = start := by
    rw [List.length_take]
    omega
  have hsplit : l = l.take start ++ us.flatten ++ l.drop stop := by
    have hpatch := patch_stretch l (by omega : start + (stop - start) ≤ l.length)
    rw [← hus, patch, hstop] at hpatch
    exact hpatch.symm
  obtain ⟨a', hrun, ha'⟩ := h (hsplit ▸ ha)
  rw [hstart, hstop] at hrun
  refine ⟨a', hrun, ?_⟩
  rw [patch, hlen, hstop]
  exact ha'

end Turns

section Swap
variable {stride : Nat} {x y : List (Word k)} {ps ms qs : List (Record k)} {u v : Record k}
  (hus : Uniform stride (ps ++ u :: (ms ++ v :: qs)))
include hus

/-- To swap the stretches of two records is to swap the records. -/
theorem swapStretches_records :
    x.length + ps.length * stride + stride + ms.length * stride + stride ≤
        (x ++ (ps ++ u :: (ms ++ v :: qs)).flatten ++ y).length ∧
      swapStretches (x ++ (ps ++ u :: (ms ++ v :: qs)).flatten ++ y) stride (x.length + ps.length * stride)
          (x.length + ps.length * stride + stride + ms.length * stride) =
        x ++ (ps ++ v :: (ms ++ u :: qs)).flatten ++ y := by
  obtain ⟨hps, hu, hms, hv, -⟩ : Uniform stride ps ∧ u.length = stride ∧ Uniform stride ms ∧ v.length = stride ∧
      Uniform stride qs := by
    simpa only [Uniform, List.forall_mem_append, List.forall_mem_cons] using hus
  have hl : ∀ r s : Record k, x ++ (ps ++ r :: (ms ++ s :: qs)).flatten ++ y =
      x ++ ps.flatten ++ r ++ (ms.flatten ++ s ++ (qs.flatten ++ y)) := by
    intro r s
    simp only [List.flatten_append, List.flatten_cons, List.append_assoc]
  have hplace : x.length + ps.length * stride = (x ++ ps.flatten).length := by
    rw [List.length_append, length_flatten_records hps]
  rw [hl, hl, hplace, ← length_flatten_records hms]
  constructor
  · simp only [List.length_append, hu, hv]
    omega
  · exact swapStretches_append _ _ _ hu hv

variable [BulkCells σ k] {R : σ → List (Word k) → Prop} {a : σ} (hR : BulkCells.View R)
  (ha : R a (x ++ (ps ++ u :: (ms ++ v :: qs)).flatten ++ y))
include hR ha

theorem BulkCells.View.exchange :
    ∃ a', BulkCells.swapRecords a stride (x.length + ps.length * stride)
        (x.length + ps.length * stride + stride + ms.length * stride) = .ok a' ∧
      R a' (x ++ (ps ++ v :: (ms ++ u :: qs)).flatten ++ y) := by
  obtain ⟨hl, hswap⟩ := swapStretches_records (x := x) (y := y) hus
  rw [← hswap]
  exact hR.swapRecords stride _ _ ha (by omega) hl (.inr (.inl (by omega)))

theorem BulkCells.View.exchange_words (hs : stride = 1) :
    ∃ a', Cells.swap a (x.length + ps.length * stride)
        (x.length + ps.length * stride + stride + ms.length * stride) = .ok a' ∧
      R a' (x ++ (ps ++ v :: (ms ++ u :: qs)).flatten ++ y) := by
  obtain ⟨hl, hswap⟩ := swapStretches_records (x := x) (y := y) hus
  rw [← hswap]
  subst hs
  rw [swapStretches_one (by omega) hl]
  exact hR.swap ha (by omega) (by omega)

end Swap
end PagedWords
