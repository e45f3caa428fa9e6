import PagedWords.Proofs.ShownKeys
import PagedWords.Proofs.Turns

/-!
# Storage that shows records

A partition uses a range of records in two ways: it reads keys, and exchanges two records. What it does is told of any
storage that serves these. Such is storage behind a fence, which serves nothing else.
-/
namespace PagedWords
variable {k : Width} {σ : Type}

/-- Two records change places as a partition exchanges them: single words as words. -/
def exchangeRecords [BulkCells σ k] (a : σ) (stride i j : Nat) : Except Fault σ :=
  if stride = 1 then Cells.swap a i j else BulkCells.swapRecords a stride i j

/-- Storage that by `R` shows the records from `start` on: it answers their keys, and any two of them may change
places. -/
structure RecordView [BulkCells σ k] (stride start : Nat) (R : σ → List (Record k) → Prop) : Prop where
  keys : ∀ {a : σ} {us : List (Record k)}, R a us → Cells.ShowsKeys a stride start (us.map recordKey)
  exchange : ∀ {a : σ} {ps ms qs : List (Record k)} {u v : Record k}, R a (ps ++ u :: (ms ++ v :: qs)) →
    ∃ a', exchangeRecords a stride (start + ps.length * stride) (start + (ps ++ u :: ms).length * stride) = .ok a' ∧
      R a' (ps ++ v :: (ms ++ u :: qs))

theorem perm_exchange {α : Type} (u v : α) (ms qs : List α) : (v :: (ms ++ u :: qs)).Perm (u :: (ms ++ v :: qs)) :=
  calc (v :: (ms ++ u :: qs)).Perm (v :: u :: (ms ++ qs)) := List.perm_middle.cons v
    (v :: u :: (ms ++ qs)).Perm (u :: v :: (ms ++ qs)) := .swap ..
    (u :: v :: (ms ++ qs)).Perm (u :: (ms ++ v :: qs)) := List.perm_middle.symm.cons u

/-- Storage that shows words shows the records that they make up, whatever words stand around these. -/
theorem BulkCells.View.recordView [BulkCells σ k] {R : σ → List (Word k) → Prop} (hR : BulkCells.View R) {stride : Nat}
    (hs : 0 < stride) (x y : List (Word k)) :
    RecordView stride x.length (fun a us => Uniform stride us ∧ R a (x ++ us.flatten ++ y)) where
  keys := by
    rintro a us ⟨hus, ha⟩ i hi
    rw [List.length_map] at hi
    have hsplit : us = us.take i ++ us[i] :: us.drop (i + 1) := by
      rw [← List.drop_eq_getElem_cons hi, List.take_append_drop]
    have hkey := (hR.reads (hsplit ▸ ha)).key (fun r hr => hus r (List.mem_of_mem_take hr))
      (hus us[i] (List.getElem_mem hi) ▸ hs)
    rw [List.length_take, Nat.min_eq_left (Nat.le_of_lt hi)] at hkey
    rw [hkey, List.getElem_map]
  exchange := by
    rintro a ps ms qs u v ⟨hus, ha⟩
    have hperm : (ps ++ v :: (ms ++ u :: qs)).Perm (ps ++ u :: (ms ++ v :: qs)) :=
      List.Perm.append_left ps (perm_exchange u v ms qs)
    have hplace : x.length + (ps ++ u :: ms).length * stride =
        x.length + ps.length * stride + stride + ms.length * stride := by
      rw [List.length_append, List.length_cons, Nat.add_mul, Nat.succ_mul]
      omega
    obtain ⟨a', hrun, ha'⟩ : ∃ a', exchangeRecords a stride (x.length + ps.length * stride)
        (x.length + ps.length * stride + stride + ms.length * stride) = .ok a' ∧
        R a' (x ++ (ps ++ v :: (ms ++ u :: qs)).flatten ++ y) := by
      rw [exchangeRecords]
      split
      · next hone => exact BulkCells.View.exchange_words hus hR ha hone
      · exact BulkCells.View.exchange hus hR ha
    exact ⟨a', hplace ▸ hrun, hus.of_perm hperm, ha'⟩

/-- Storage behind a fence: the keys of the records of a range may be read, and the records exchanged as a whole.
Any other access ends the run. -/
structure Fenced (σ : Type) where
  inner : σ
  stride : Nat
  start : Nat
  stop : Nat

namespace Fenced

/-- A record of the range begins there. -/
def Begins (a : Fenced σ) (pos : Nat) : Prop := a.start ≤ pos ∧ pos < a.stop ∧ (pos - a.start) % a.stride = 0

instance (a : Fenced σ) (pos : Nat) : Decidable (a.Begins pos) := inferInstanceAs (Decidable (_ ∧ _ ∧ _))

def withInner (a : Fenced σ) (inner : σ) : Fenced σ := { a with inner }

instance [Cells σ k] : Cells (Fenced σ) k where
  size a := Cells.size a.inner
  get a pos := if a.Begins pos then Cells.get a.inner pos else .error .broken
  set a pos w :=
    if a.stride = 1 ∧ a.Begins pos then a.withInner <$> Cells.set a.inner pos w else .error .broken

instance [BulkCells σ k] : BulkCells (Fenced σ) k where
  swapRecords a n i j :=
    if n = a.stride ∧ a.Begins i ∧ a.Begins j then a.withInner <$> BulkCells.swapRecords a.inner n i j
    else .error .broken
  writeRange _ _ _ := .error .broken

theorem begins_of_lt {a : Fenced σ} {n i : Nat} (hs : 0 < a.stride) (hn : a.start + n * a.stride ≤ a.stop)
    (hi : i < n) : a.Begins (a.start + i * a.stride) := by
  have hnext : (i + 1) * a.stride ≤ n * a.stride := Nat.mul_le_mul_right a.stride hi
  rw [Nat.succ_mul] at hnext
  refine ⟨Nat.le_add_right _ _, by omega, ?_⟩
  rw [Nat.add_sub_cancel_left, Nat.mul_mod_left]

theorem showsKeys [Cells σ k] {a : Fenced σ} {ks : List (Word k)} (hs : 0 < a.stride)
    (hn : a.start + ks.length * a.stride ≤ a.stop) (h : Cells.ShowsKeys a.inner a.stride a.start ks) :
    Cells.ShowsKeys a a.stride a.start ks := by
  intro i hi
  rw [← h i hi]
  exact if_pos (begins_of_lt hs hn hi)

theorem exchangeRecords_eq [BulkCells σ k] {a : Fenced σ} {i j : Nat} (hi : a.Begins i) (hj : a.Begins j) :
    exchangeRecords a a.stride i j = a.withInner <$> exchangeRecords a.inner a.stride i j := by
  have hget : ∀ {pos}, a.Begins pos → Cells.get a pos = Cells.get a.inner pos := fun h => if_pos h
  rw [exchangeRecords, exchangeRecords]
  split
  · next hone =>
    have hset : ∀ b w {pos}, a.Begins pos →
        Cells.set (a.withInner b) pos w = a.withInner <$> Cells.set b pos w := fun _ _ _ h => if_pos ⟨hone, h⟩
    simp only [Cells.swap, hget hi, hget hj]
    cases Cells.get a.inner i with
    | error _ => rfl
    | ok x =>
      cases Cells.get a.inner j with
      | error _ => rfl
      | ok y =>
        show Cells.set (a.withInner a.inner) i y >>= _ = a.withInner <$> (Cells.set a.inner i y >>= _)
        rw [hset _ _ hi]
        cases Cells.set a.inner i y with
        | error _ => rfl
        | ok b => exact hset b x hj
  · exact if_pos ⟨rfl, hi, hj⟩

/-- A fence around `n` records. -/
def around (stride start n : Nat) (a : σ) : Fenced σ := ⟨a, stride, start, start + n * stride⟩

/-- A fence around the records is not noticed where no more than this is done. -/
theorem recordView [BulkCells σ k] {stride start : Nat} (hs : 0 < stride) {R : σ → List (Record k) → Prop}
    (hR : RecordView stride start R) :
    RecordView stride start fun (b : Fenced σ) us => ∃ a, b = around stride start us.length a ∧ R a us where
  keys := by
    rintro _ us ⟨a, rfl, ha⟩
    refine showsKeys (a := around stride start us.length a) hs (Nat.le_of_eq ?_) (hR.keys ha)
    rw [List.length_map]
    rfl
  exchange := by
    rintro _ ps ms qs u v ⟨a, rfl, ha⟩
    obtain ⟨a', hrun, ha'⟩ := hR.exchange ha
    have hlen : (ps ++ v :: (ms ++ u :: qs)).length = (ps ++ u :: (ms ++ v :: qs)).length := by
      simp only [List.length_append, List.length_cons]
    refine ⟨around stride start (ps ++ u :: (ms ++ v :: qs)).length a', ?_, a', by rw [hlen], ha'⟩
    have hbegins : ∀ {i}, i < (ps ++ u :: (ms ++ v :: qs)).length →
        (around stride start (ps ++ u :: (ms ++ v :: qs)).length a).Begins (start + i * stride) :=
      fun hi => begins_of_lt (a := around stride start _ a) hs (Nat.le_refl _) hi
    have hi : ps.length < (ps ++ u :: (ms ++ v :: qs)).length := by
      simp only [List.length_append, List.length_cons]
      omega
    have hj : (ps ++ u :: ms).length < (ps ++ u :: (ms ++ v :: qs)).length := by
      simp only [List.length_append, List.length_cons]
      omega
    exact (exchangeRecords_eq (hbegins hi) (hbegins hj)).trans (congrArg _ hrun)

end Fenced
end PagedWords
