import Mathlib.Data.List.Induction
import PagedWords.Sorting.Insertion
import PagedWords.Proofs.Turns

/-!
# Insertion sort

A record sinks into the ascending records before it, but not past one of its own key. Which list comes out depends on
the records only, so it is named before the storage and the place in it.
-/
namespace PagedWords
variable {k : Width}

/-- The records of any one key stand in the same order in both lists. -/
def KeepsTies (us vs : List (Record k)) : Prop :=
  ∀ x : Word k, vs.filter (recordKey · = x) = us.filter (recordKey · = x)

namespace KeepsTies
variable {us vs ws us' vs' : List (Record k)} {r : Record k}

theorem refl (us : List (Record k)) : KeepsTies us us := fun _ => rfl

theorem trans (h : KeepsTies us vs) (h' : KeepsTies vs ws) : KeepsTies us ws := fun x => (h' x).trans (h x)

theorem append (h : KeepsTies us vs) (h' : KeepsTies us' vs') : KeepsTies (us ++ us') (vs ++ vs') := by
  intro x
  rw [List.filter_append, List.filter_append, h x, h' x]

theorem pass (hne : ∀ s ∈ us, recordKey s ≠ recordKey r) (vs : List (Record k)) :
    KeepsTies (us ++ r :: vs) (r :: (us ++ vs)) := by
  intro x
  by_cases hx : recordKey r = x
  · have hnone : us.filter (recordKey · = x) = [] :=
      List.filter_eq_nil_iff.2 fun s hs hsx => hne s hs ((of_decide_eq_true hsx).trans hx.symm)
    simp only [List.filter_append, List.filter_cons, hnone, hx, decide_true, if_true, List.nil_append]
  · simp only [List.filter_append, List.filter_cons, hx, decide_false, Bool.false_eq_true, if_false]

private theorem eq_of_ascending (h : KeepsTies vs ws) (hvs : Ascending vs) (hws : Ascending ws)
    (hperm : ws.Perm vs) : ws = vs := by
  induction vs generalizing ws with
  | nil => exact hperm.eq_nil
  | cons r vs ih =>
    cases ws with
    | nil => exact absurd hperm.length_eq (by simp)
    | cons s ws =>
      obtain ⟨hr, hvs'⟩ := List.pairwise_cons.1 hvs
      obtain ⟨hs, hws'⟩ := List.pairwise_cons.1 hws
      have hkey : recordKey s = recordKey r := by
        refine Std.le_antisymm ?_ ?_
        · rcases List.mem_cons.1 (hperm.mem_iff.2 List.mem_cons_self) with heq | hmem
          · exact Std.le_of_eq (congrArg recordKey heq.symm)
          · exact hs r hmem
        · rcases List.mem_cons.1 (hperm.mem_iff.1 List.mem_cons_self) with heq | hmem
          · exact Std.le_of_eq (congrArg recordKey heq.symm)
          · exact hr s hmem
      have hhead := h (recordKey r)
      rw [List.filter_cons, List.filter_cons, if_pos (decide_eq_true hkey), if_pos (decide_eq_true rfl)] at hhead
      obtain ⟨rfl, -⟩ := List.cons.inj hhead
      refine congrArg (s :: ·) (ih (fun x => ?_) hvs' hws' hperm.cons_inv)
      have hx := h x
      rw [List.filter_cons, List.filter_cons] at hx
      split at hx
      · exact (List.cons.inj hx).2
      · exact hx

end KeepsTies

/-- The same records, in an order in which no key is below one before it. -/
structure SortOf (us vs : List (Record k)) : Prop where
  perm : vs.Perm us
  ascending : Ascending vs

namespace SortOf
variable {us vs ws : List (Record k)} {r s : Record k}

private theorem stay (hsorted : Ascending (us ++ [s])) (hle : recordKey s ≤ recordKey r) :
    SortOf (us ++ [s] ++ [r]) (us ++ [s] ++ [r]) := by
  refine ⟨.refl _, hsorted.concat ?_⟩
  intro t ht
  rcases List.mem_append.1 ht with ht | ht
  · exact Std.le_trans ((List.pairwise_append.1 hsorted).2.2 t ht s List.mem_cons_self) hle
  · cases List.mem_singleton.1 ht
    exact hle

private theorem sink (h : SortOf (us ++ [r]) vs) (hsorted : Ascending (us ++ [s])) (hlt : recordKey r < recordKey s) :
    SortOf (us ++ [s] ++ [r]) (vs ++ [s]) := by
  constructor
  · calc (vs ++ [s]).Perm (us ++ [r] ++ [s]) := h.perm.append_right [s]
      _ = us ++ ([r] ++ [s]) := List.append_assoc ..
      (us ++ ([r] ++ [s])).Perm (us ++ ([s] ++ [r])) := List.perm_append_comm.append_left us
      _ = us ++ [s] ++ [r] := (List.append_assoc ..).symm
  · refine h.ascending.concat ?_
    intro t ht
    rcases List.mem_append.1 (h.perm.mem_iff.1 ht) with ht | ht
    · exact (List.pairwise_append.1 hsorted).2.2 t ht s List.mem_cons_self
    · cases List.mem_singleton.1 ht
      exact Std.le_of_lt hlt

theorem eq_of_short (h : SortOf us vs) (hlen : us.length ≤ 1) : vs = us := by
  match us, h with
  | [], h => exact h.perm.eq_nil
  | [r], h => exact List.perm_singleton.1 h.perm

theorem keys_eq {vs' : List (Record k)} (h : SortOf us vs) (h' : SortOf us vs') :
    vs.map recordKey = vs'.map recordKey := by
  refine List.Perm.eq_of_pairwise (fun _ _ _ _ => Std.le_antisymm) ?_ ?_ ((h.perm.trans h'.perm.symm).map recordKey)
  · exact List.pairwise_map.2 h.ascending
  · exact List.pairwise_map.2 h'.ascending

private theorem of_perm_append {us' : List (Record k)} (h : SortOf (us' ++ ws) vs) (hp : us'.Perm us) :
    SortOf (us ++ ws) vs :=
  ⟨h.perm.trans (hp.append_right ws), h.ascending⟩

end SortOf

/-- Sorted, and in the old order where keys are equal. -/
structure StableSortOf (us vs : List (Record k)) : Prop extends SortOf us vs where
  ties : KeepsTies us vs

namespace StableSortOf
variable {us vs ws us' : List (Record k)} {r s : Record k}

theorem self (h : Ascending us) : StableSortOf us us := ⟨⟨.refl us, h⟩, .refl us⟩

theorem stay (hsorted : Ascending (us ++ [s])) (hle : recordKey s ≤ recordKey r) :
    StableSortOf (us ++ [s] ++ [r]) (us ++ [s] ++ [r]) := self (SortOf.stay hsorted hle).ascending

theorem sink (h : StableSortOf (us ++ [r]) vs) (hsorted : Ascending (us ++ [s])) (hlt : recordKey r < recordKey s) :
    StableSortOf (us ++ [s] ++ [r]) (vs ++ [s]) := by
  refine ⟨h.toSortOf.sink hsorted hlt, ?_⟩
  have hpass : KeepsTies ([s] ++ [r]) ([r] ++ [s]) := .pass (List.forall_mem_singleton.2 (Std.ne_of_lt hlt).symm) []
  have hback : KeepsTies (us ++ [s] ++ [r]) (us ++ [r] ++ [s]) := by
    rw [List.append_assoc, List.append_assoc]
    exact (KeepsTies.refl us).append hpass
  exact hback.trans (h.ties.append (.refl [s]))

theorem of_append (h : StableSortOf (us' ++ ws) vs) (hus : StableSortOf us us') : StableSortOf (us ++ ws) vs :=
  ⟨h.toSortOf.of_perm_append hus.perm, (hus.ties.append (.refl ws)).trans h.ties⟩

theorem unique (h : StableSortOf us vs) (h' : StableSortOf us ws) : ws = vs := by
  refine KeepsTies.eq_of_ascending (fun x => ?_) h.ascending h'.ascending (h'.perm.trans h.perm.symm)
  rw [h'.ties x, h.ties x]

end StableSortOf

private theorem Cells.View.overwrite {σ : Type} [Cells σ k] {R : σ → List (Word k) → Prop} (hR : Cells.View R) {a : σ}
    {x y : List (Word k)} {ps qs : List (Record k)} {h : Word k} (ha : R a (x ++ (ps ++ [h] :: qs).flatten ++ y))
    (hps : Uniform 1 ps) (w : Word k) :
    ∃ a', Cells.set a (x.length + ps.length) w = .ok a' ∧ R a' (x ++ (ps ++ [w] :: qs).flatten ++ y) := by
  have hl : ∀ v : Word k, x ++ (ps ++ [v] :: qs).flatten ++ y = x ++ ps.flatten ++ [v] ++ (qs.flatten ++ y) := by
    intro v
    simp only [List.flatten_append, List.flatten_cons, List.append_assoc]
  have hplace : x.length + ps.length = (x ++ ps.flatten).length := by
    rw [List.length_append, length_flatten_records hps, Nat.mul_one]
  rw [hl] at ha ⊢
  have hpos : (x ++ ps.flatten).length < (x ++ ps.flatten ++ [h] ++ (qs.flatten ++ y)).length := by
    simp only [List.length_append, List.length_singleton]
    omega
  obtain ⟨a', hset, ha'⟩ := hR.set _ w ha hpos
  rw [set_eq_patch hpos,
    patch_append (x ++ ps.flatten) _ (List.length_singleton.trans List.length_singleton.symm)] at ha'
  exact ⟨a', by rw [hplace]; exact hset, ha'⟩

namespace Sorting
variable {stride : Nat}

/-- Past the larger records, with which it changes places, a record comes to where it belongs. -/
theorem sinkRecord_turns (hs : 0 < stride) {us : List (Record k)} {r : Record k} (hus : Uniform stride us)
    (hr : r.length = stride) (hsorted : Ascending us) :
    ∃ vs, StableSortOf (us ++ [r]) vs ∧ OnBulkCells fun R =>
      Turns R (fun a start _ => sinkRecord stride start us.length a) (us ++ [r]) vs := by
  induction us using List.reverseRecOn with
  | nil => exact ⟨[r], .self (List.pairwise_singleton _ _), fun σ _ R _ x y a ha => ⟨a, rfl, ha⟩⟩
  | append_singleton us s ih =>
    obtain ⟨hus', hlast⟩ := List.forall_mem_append.1 hus
    have hlen : (us ++ [s]).length = us.length + 1 := List.length_append
    have hpair : us ++ [s] ++ [r] = us ++ s :: ([] ++ r :: []) := List.append_assoc ..
    have huniform : Uniform stride (us ++ s :: ([] ++ r :: [])) :=
      hpair ▸ List.forall_mem_append.2 ⟨hus, List.forall_mem_singleton.2 hr⟩
    have hread : ∀ {σ : Type} [BulkCells σ k] {R : σ → List (Word k) → Prop}, BulkCells.View R →
        ∀ {x y : List (Word k)} {a : σ}, R a (x ++ (us ++ [s] ++ [r]).flatten ++ y) →
        Cells.get a (x.length + us.length * stride) = .ok (recordKey s) ∧
          Cells.get a (x.length + us.length * stride + stride) = .ok (recordKey r) := by
      intro σ _ R hR x y a ha
      have hkey := (hR.reads ha).key hus (hr ▸ hs)
      rw [hlen, Nat.succ_mul, ← Nat.add_assoc] at hkey
      have hkey' := (hR.reads (hpair ▸ ha)).key hus' (hlast s List.mem_cons_self ▸ hs)
      exact ⟨hkey', hkey⟩
    by_cases hlt : recordKey r < recordKey s
    · obtain ⟨vs, hvs, hturns⟩ := ih hus' (List.pairwise_append.1 hsorted).1
      refine ⟨vs ++ [s], hvs.sink hsorted hlt, ?_⟩
      intro σ _ R hR x y a ha
      obtain ⟨hkey, hkey'⟩ := hread hR ha
      obtain ⟨a₁, hswap, ha₁⟩ := BulkCells.View.exchange huniform hR (hpair ▸ ha)
      have hpair' : us ++ r :: ([] ++ s :: []) = us ++ [r] ++ [s] := (List.append_assoc us [r] [s]).symm
      rw [hpair'] at ha₁
      rw [List.length_nil, Nat.zero_mul, Nat.add_zero] at hswap
      obtain ⟨a', hrun, ha'⟩ := (hturns σ R hR).before ha₁
      refine ⟨a', ?_, ha'⟩
      simp only [hlen, sinkRecord, hkey, hkey', if_pos hlt, hswap, bind, Except.bind]
      exact hrun
    · refine ⟨us ++ [s] ++ [r], .stay hsorted (Word.not_lt.1 hlt), ?_⟩
      intro σ _ R hR x y a ha
      obtain ⟨hkey, hkey'⟩ := hread hR ha
      refine ⟨a, ?_, ha⟩
      simp only [hlen, sinkRecord, hkey, hkey', if_neg hlt, bind, Except.bind, pure, Except.pure]

theorem sinkRecords_turns (hs : 0 < stride) {ws : List (Record k)} :
    ∀ {us : List (Record k)}, Uniform stride us → Uniform stride ws → Ascending us →
      ∃ vs, StableSortOf (us ++ ws) vs ∧ OnBulkCells fun R =>
        Turns R (fun a start _ => sinkRecords stride start ws.length us.length a) (us ++ ws) vs := by
  induction ws with
  | nil =>
    intro us _ _ hsorted
    rw [List.append_nil]
    exact ⟨us, .self hsorted, fun σ _ R _ x y a ha => ⟨a, rfl, ha⟩⟩
  | cons r ws ih =>
    intro us hus hws hsorted
    obtain ⟨hr, hws⟩ := List.forall_mem_cons.1 hws
    obtain ⟨us₁, hus₁, hsink⟩ := sinkRecord_turns hs hus hr hsorted
    have huniform : Uniform stride (us ++ [r]) := List.forall_mem_append.2 ⟨hus, List.forall_mem_singleton.2 hr⟩
    have hlen₁ : us₁.length = us.length + 1 := by rw [hus₁.perm.length_eq, List.length_append, List.length_singleton]
    obtain ⟨vs, hvs, hturns⟩ := ih (huniform.of_perm hus₁.perm) hws hus₁.ascending
    have happ : us ++ r :: ws = us ++ [r] ++ ws := (List.append_assoc us [r] ws).symm
    rw [happ]
    refine ⟨vs, hvs.of_append hus₁, ?_⟩
    intro σ _ R hR x y a ha
    obtain ⟨a₁, hrun₁, ha₁⟩ := (hsink σ R hR).before ha
    obtain ⟨a', hrun, ha'⟩ := hturns σ R hR ha₁
    refine ⟨a', ?_, ha'⟩
    simp only [List.length_cons, sinkRecords, hrun₁, bind, Except.bind, ← hlen₁]
    exact hrun

/-- The words above the key move up by one, the last of them over what stood after it. -/
theorem insertKey_turns {us : List (Record k)} (hus : Uniform 1 us) (hsorted : Ascending us) (key : Word k) :
    ∃ vs, StableSortOf (us ++ [[key]]) vs ∧ OnBulkCells fun R =>
      ∀ h : Word k, Turns R (fun a start _ => insertKey start key us.length a) (us ++ [[h]]) vs := by
  induction us using List.reverseRecOn with
  | nil =>
    refine ⟨[[key]], .self (List.pairwise_singleton _ _), ?_⟩
    intro σ _ R hR h x y a ha
    exact hR.overwrite ha (fun _ hr => (nomatch hr) : Uniform 1 []) key
  | append_singleton us s ih =>
    obtain ⟨hus', hlast⟩ := List.forall_mem_append.1 hus
    obtain ⟨w, rfl⟩ := List.length_eq_one_iff.1 (hlast s List.mem_cons_self)
    have hlen : (us ++ [[w]]).length = us.length + 1 := List.length_append
    have hread : ∀ {σ : Type} [BulkCells σ k] {R : σ → List (Word k) → Prop}, BulkCells.View R →
        ∀ {x y : List (Word k)} {a : σ} {h : Word k}, R a (x ++ (us ++ [[w]] ++ [[h]]).flatten ++ y) →
        Cells.get a (x.length + us.length) = .ok w := by
      intro σ _ R hR x y a h ha
      have happ : us ++ [[w]] ++ [[h]] = us ++ [w] :: [[h]] := List.append_assoc ..
      rw [happ] at ha
      have hkey := (hR.reads ha).key hus' Nat.one_pos
      rw [Nat.mul_one] at hkey
      exact hkey
    by_cases hle : w ≤ key
    · refine ⟨us ++ [[w]] ++ [[key]], .stay hsorted hle, ?_⟩
      intro σ _ R hR h x y a ha
      obtain ⟨a', hset, ha'⟩ := hR.overwrite ha hus key
      rw [hlen, ← Nat.add_assoc] at hset
      refine ⟨a', ?_, ha'⟩
      simp only [hlen, insertKey, hread hR ha, if_pos hle, bind, Except.bind]
      exact hset
    · obtain ⟨vs, hvs, hturns⟩ := ih hus' (List.pairwise_append.1 hsorted).1
      refine ⟨vs ++ [[w]], hvs.sink hsorted (Word.not_le.1 hle), ?_⟩
      intro σ _ R hR h x y a ha
      obtain ⟨a₁, hset, ha₁⟩ := hR.overwrite ha hus w
      obtain ⟨a', hrun, ha'⟩ := (hturns σ R hR w).before ha₁
      rw [hlen, ← Nat.add_assoc] at hset
      refine ⟨a', ?_, ha'⟩
      simp only [hlen, insertKey, hread hR ha, if_neg hle, hset, bind, Except.bind]
      exact hrun

theorem insertKeys_turns {ws : List (Record k)} :
    ∀ {us : List (Record k)}, Uniform 1 us → Uniform 1 ws → Ascending us →
      ∃ vs, StableSortOf (us ++ ws) vs ∧ OnBulkCells fun R =>
        Turns R (fun a start _ => insertKeys start ws.length us.length a) (us ++ ws) vs := by
  induction ws with
  | nil =>
    intro us _ _ hsorted
    rw [List.append_nil]
    exact ⟨us, .self hsorted, fun σ _ R _ x y a ha => ⟨a, rfl, ha⟩⟩
  | cons r ws ih =>
    intro us hus hws hsorted
    obtain ⟨hr, hws'⟩ := List.forall_mem_cons.1 hws
    obtain ⟨w, rfl⟩ := List.length_eq_one_iff.1 hr
    obtain ⟨us₁, hus₁, hinsert⟩ := insertKey_turns hus hsorted w
    have huniform : Uniform 1 (us ++ [[w]]) := List.forall_mem_append.2 ⟨hus, List.forall_mem_singleton.2 rfl⟩
    have hlen₁ : us₁.length = us.length + 1 := by rw [hus₁.perm.length_eq, List.length_append, List.length_singleton]
    obtain ⟨vs, hvs, hturns⟩ := ih (huniform.of_perm hus₁.perm) hws' hus₁.ascending
    have happ : us ++ [w] :: ws = us ++ [[w]] ++ ws := (List.append_assoc us [[w]] ws).symm
    refine ⟨vs, happ ▸ hvs.of_append hus₁, ?_⟩
    intro σ _ R hR x y a ha
    have hkey := (hR.reads ha).key hus Nat.one_pos
    rw [Nat.mul_one] at hkey
    rw [happ] at ha
    obtain ⟨a₁, hrun₁, ha₁⟩ := (hinsert σ R hR w).before ha
    obtain ⟨a', hrun, ha'⟩ := hturns σ R hR ha₁
    refine ⟨a', ?_, ha'⟩
    simp only [List.length_cons, insertKeys, hkey, recordKey, List.headD_cons, hrun₁, bind, Except.bind, ← hlen₁]
    exact hrun

/-- The first record is sorted by itself, and no record at all makes no round. -/
theorem insertionSortRecords_turns (hs : 0 < stride) (hlim : stride < 2 ^ 63) {us : List (Record k)}
    (hus : Uniform stride us) :
    ∃ vs, StableSortOf us vs ∧ OnBulkCells fun R =>
      Turns R (fun a start stop => insertionSortRecords a stride start stop) us vs := by
  have hspan : ∀ start, start + us.flatten.length - start = us.length * stride := by
    intro start
    rw [Nat.add_sub_cancel_left, length_flatten_records hus]
  have hrun : ∀ {σ : Type} [BulkCells σ k] {R : σ → List (Word k) → Prop}, BulkCells.View R →
      ∀ {x y : List (Word k)} {a : σ}, R a (x ++ us.flatten ++ y) →
      insertionSortRecords a stride x.length (x.length + us.flatten.length) =
        if stride = 1 then insertKeys x.length (us.length - 1) 1 a
        else sinkRecords stride x.length (us.length - 1) 1 a := by
    intro σ _ R hR x y a ha
    rw [insertionSortRecords, insertionSort, hspan, hR.addPosition_eq ha hlim, Nat.mul_div_cancel _ hs]
    split
    · next hone => rw [hone, Nat.mul_one]
    · rfl
  cases us with
  | nil =>
    refine ⟨[], .self .nil, fun σ _ R hR x y a ha => ⟨a, ?_, ha⟩⟩
    show insertionSortRecords a stride x.length (x.length + ([] : List (Record k)).flatten.length) = .ok a
    rw [hrun hR ha]
    split
    · rfl
    · rfl
  | cons r ws =>
    obtain ⟨hr, hws⟩ := List.forall_mem_cons.1 hus
    have hfirst : Uniform stride [r] := List.forall_mem_singleton.2 hr
    by_cases hone : stride = 1
    · subst hone
      obtain ⟨vs, hvs, hturns⟩ := insertKeys_turns hfirst hws (List.pairwise_singleton _ _)
      refine ⟨vs, hvs, fun σ _ R hR x y a ha => ?_⟩
      obtain ⟨a', hkeys, ha'⟩ := hturns σ R hR ha
      exact ⟨a', (hrun hR ha).trans ((if_pos rfl).trans hkeys), ha'⟩
    · obtain ⟨vs, hvs, hturns⟩ := sinkRecords_turns hs hfirst hws (List.pairwise_singleton _ _)
      refine ⟨vs, hvs, fun σ _ R hR x y a ha => ?_⟩
      obtain ⟨a', hsinks, ha'⟩ := hturns σ R hR ha
      exact ⟨a', (hrun hR ha).trans ((if_neg hone).trans hsinks), ha'⟩

end Sorting
end PagedWords
