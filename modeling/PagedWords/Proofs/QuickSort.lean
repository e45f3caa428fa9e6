import PagedWords.Sorting.Quick
import PagedWords.Proofs.InsertionSort
import PagedWords.Proofs.RecordViews

/-!
# Quicksort

A partition holds the records with no larger key than the pivot before those with no smaller key. What lies
between them gets shorter with each exchange. Both scans end within the range: in the first round at the record in
the middle, later at the records exchanged before.
-/
namespace PagedWords
variable {k : Width}

section Split
variable {α : Type} {p : α → Prop} [DecidablePred p]

theorem all_or_first (l : List α) :
    (∀ x ∈ l, p x) ∨ ∃ l₁ u l₂, l = l₁ ++ u :: l₂ ∧ (∀ x ∈ l₁, p x) ∧ ¬p u := by
  induction l with
  | nil => exact .inl (fun _ hx => nomatch hx)
  | cons x l ih =>
    by_cases hx : p x
    · rcases ih with hall | ⟨l₁, u, l₂, rfl, hl, hu⟩
      · exact .inl (List.forall_mem_cons.2 ⟨hx, hall⟩)
      · exact .inr ⟨x :: l₁, u, l₂, rfl, List.forall_mem_cons.2 ⟨hx, hl⟩, hu⟩
    · exact .inr ⟨[], x, l, rfl, (fun _ hx => nomatch hx), hx⟩

private theorem all_or_last (l : List α) :
    (∀ x ∈ l, p x) ∨ ∃ l₁ u l₂, l = l₁ ++ u :: l₂ ∧ ¬p u ∧ ∀ x ∈ l₂, p x := by
  rcases all_or_first (p := p) l.reverse with hall | ⟨l₁, u, l₂, hl, hl₁, hu⟩
  · exact .inl (fun x hx => hall x (List.mem_reverse.2 hx))
  · refine .inr ⟨l₂.reverse, u, l₁.reverse, ?_, hu, fun x hx => hl₁ x (List.mem_reverse.1 hx)⟩
    rw [← List.reverse_reverse l, hl]
    simp

end Split

namespace Sorting
variable {σ : Type} {stride : Nat} {pivot : Word k}

section Scans
variable [BulkCells σ k] {a : σ} {start : Nat} {ps qs ts : List (Record k)} {u : Record k}

private theorem scanUp_eq (ha : Cells.ShowsKeys a stride start ((ps ++ qs ++ u :: ts).map recordKey))
    (hlow : ∀ q ∈ qs, recordKey q < pivot) (hu : pivot ≤ recordKey u) {fuel : Nat} (hfuel : qs.length < fuel) :
    scanUp a stride pivot fuel (start + ps.length * stride) = .ok (start + (ps ++ qs).length * stride) := by
  induction qs generalizing ps fuel with
  | nil =>
    obtain ⟨fuel, rfl⟩ := Nat.exists_eq_add_one_of_ne_zero (Nat.ne_of_gt (Nat.zero_lt_of_lt hfuel))
    rw [List.append_nil] at ha ⊢
    simp only [scanUp, ha.key, if_neg (Word.not_lt.2 hu), bind, Except.bind, pure, Except.pure]
  | cons q qs ih =>
    obtain ⟨fuel, rfl⟩ := Nat.exists_eq_add_one_of_ne_zero (Nat.ne_of_gt (Nat.zero_lt_of_lt hfuel))
    obtain ⟨hq, hlow⟩ := List.forall_mem_cons.1 hlow
    have happ : ps ++ q :: qs = ps ++ [q] ++ qs := (List.append_assoc ps [q] qs).symm
    have hplace : ps ++ q :: qs ++ u :: ts = ps ++ q :: (qs ++ u :: ts) := List.append_assoc ..
    have hkey := (hplace ▸ ha).key
    rw [happ] at ha ⊢
    have hrun := ih ha hlow (Nat.lt_of_succ_lt_succ hfuel)
    rw [List.length_append, List.length_singleton, Nat.succ_mul, ← Nat.add_assoc] at hrun
    simp only [scanUp, hkey, if_pos hq, bind, Except.bind]
    exact hrun

private theorem scanDown_eq (ha : Cells.ShowsKeys a stride start ((ps ++ u :: (qs ++ ts)).map recordKey))
    (hhigh : ∀ q ∈ qs, pivot < recordKey q) (hu : recordKey u ≤ pivot) {fuel : Nat} (hfuel : qs.length < fuel) :
    scanDown a stride pivot fuel (start + (ps ++ qs).length * stride) = .ok (start + ps.length * stride) := by
  induction qs using List.reverseRecOn generalizing ts fuel with
  | nil =>
    obtain ⟨fuel, rfl⟩ := Nat.exists_eq_add_one_of_ne_zero (Nat.ne_of_gt (Nat.zero_lt_of_lt hfuel))
    rw [List.append_nil]
    simp only [scanDown, ha.key, if_neg (Word.not_lt.2 hu), bind, Except.bind, pure, Except.pure]
  | append_singleton qs q ih =>
    obtain ⟨fuel, rfl⟩ := Nat.exists_eq_add_one_of_ne_zero (Nat.ne_of_gt (Nat.zero_lt_of_lt hfuel))
    obtain ⟨hhigh, hq⟩ := List.forall_mem_append.1 hhigh
    have happ : ps ++ u :: (qs ++ [q] ++ ts) = ps ++ u :: (qs ++ q :: ts) := by rw [List.append_assoc]; rfl
    have hplace : ps ++ u :: (qs ++ q :: ts) = (ps ++ u :: qs) ++ q :: ts := by simp
    rw [happ] at ha
    have hkey := (hplace ▸ ha).key
    have hlen : (ps ++ (qs ++ [q])).length = (ps ++ qs).length + 1 := by simp [Nat.add_assoc]
    have hlen' : (ps ++ u :: qs).length = (ps ++ qs).length + 1 := by simp [Nat.add_assoc]
    rw [hlen'] at hkey
    rw [List.length_append, List.length_singleton] at hfuel
    have hrun := ih ha hhigh (Nat.lt_of_succ_lt_succ hfuel)
    have hback : start + ((ps ++ qs).length + 1) * stride - stride = start + (ps ++ qs).length * stride := by
      rw [Nat.succ_mul]
      omega
    have hsub : subPosition (start + ((ps ++ qs).length + 1) * stride) stride =
        .ok (start + (ps ++ qs).length * stride) := by
      rw [subPosition_of_le (by rw [Nat.succ_mul]; omega), hback]
    rw [hlen]
    simp only [scanDown, hkey, if_pos (hq q List.mem_cons_self), hsub, bind, Except.bind]
    exact hrun

end Scans

/-- A list of records in two parts, both with a record in them: no key above the pivot, and none below it. -/
structure Parted (pivot : Word k) (us lows highs : List (Record k)) : Prop where
  perm : (lows ++ highs).Perm us
  lows_ne : lows ≠ []
  highs_ne : highs ≠ []
  le : ∀ r ∈ lows, recordKey r ≤ pivot
  ge : ∀ r ∈ highs, pivot ≤ recordKey r

private theorem Parted.of_perm {us us' lows highs : List (Record k)} (h : Parted pivot us lows highs)
    (hp : us.Perm us') :
    Parted pivot us' lows highs := ⟨h.perm.trans hp, h.lows_ne, h.highs_ne, h.le, h.ge⟩

/-- Between two rounds: the records `ms` have not been scanned. There is a record for each scan to stop at, and
the scan upwards has one before the last of all records. -/
structure Scanning (pivot : Word k) (ps ms qs : List (Record k)) : Prop where
  le : ∀ r ∈ ps, recordKey r ≤ pivot
  ge : ∀ r ∈ qs, pivot ≤ recordKey r
  stopsUp : qs ≠ [] ∨ ∃ r ∈ ms.dropLast, pivot ≤ recordKey r
  stopsDown : ps ≠ [] ∨ ∃ r ∈ ms, recordKey r ≤ pivot

namespace Scanning
variable {ps ms qs : List (Record k)}

private theorem exists_up (h : Scanning pivot ps ms qs) :
    ∃ below u rest, ms ++ qs = below ++ u :: rest ∧ (∀ r ∈ below, recordKey r < pivot) ∧ pivot ≤ recordKey u := by
  rcases all_or_first (p := fun r => recordKey r < pivot) (ms ++ qs) with hall | ⟨below, u, rest, hsplit, hbelow, hu⟩
  · exfalso
    have hge : ∃ r ∈ ms ++ qs, pivot ≤ recordKey r := by
      rcases h.stopsUp with hne | ⟨r, hr, hle⟩
      · obtain ⟨r, hr⟩ := List.exists_mem_of_ne_nil qs hne
        exact ⟨r, List.mem_append_right ms hr, h.ge r hr⟩
      · exact ⟨r, List.mem_append_left qs (List.dropLast_subset ms hr), hle⟩
    obtain ⟨r, hr, hle⟩ := hge
    exact Word.not_lt.2 hle (hall r hr)
  · exact ⟨below, u, rest, hsplit, hbelow, Word.not_lt.1 hu⟩

private theorem exists_down (h : Scanning pivot ps ms qs) :
    ∃ front v above, ps ++ ms = front ++ v :: above ∧ recordKey v ≤ pivot ∧ ∀ r ∈ above, pivot < recordKey r := by
  rcases all_or_last (p := fun r => pivot < recordKey r) (ps ++ ms) with hall | ⟨front, v, above, hsplit, hv, habove⟩
  · exfalso
    have hle : ∃ r ∈ ps ++ ms, recordKey r ≤ pivot := by
      rcases h.stopsDown with hne | ⟨r, hr, hle⟩
      · obtain ⟨r, hr⟩ := List.exists_mem_of_ne_nil ps hne
        exact ⟨r, List.mem_append_left ms hr, h.le r hr⟩
      · exact ⟨r, List.mem_append_right ps hr, hle⟩
    obtain ⟨r, hr, hle⟩ := hle
    exact Word.not_lt.2 hle (hall r hr)
  · exact ⟨front, v, above, hsplit, Word.not_lt.1 hv, habove⟩

variable {below rest front above : List (Record k)} {u v : Record k} (h : Scanning pivot ps ms qs)
  (hup : ms ++ qs = below ++ u :: rest) (hbelow : ∀ r ∈ below, recordKey r < pivot)
  (hdown : ps ++ ms = front ++ v :: above) (hv : recordKey v ≤ pivot) (habove : ∀ r ∈ above, pivot < recordKey r)
include h hup hbelow hdown hv habove

private theorem parted_of_meet (hmeet : front.length ≤ (ps ++ below).length) :
    Parted pivot (ps ++ ms ++ qs) (front ++ [v]) (above ++ qs) := by
  have hall : front ++ (v :: above ++ qs) = ps ++ below ++ (u :: rest) := by
    rw [← List.append_assoc, ← hdown, List.append_assoc, hup, List.append_assoc]
  have hfront : front <+: ps ++ below :=
    List.prefix_of_prefix_length_le ⟨_, rfl⟩ ⟨_, hall.symm⟩ hmeet
  refine ⟨?_, by simp, ?_, ?_, ?_⟩
  · rw [hdown]
    simp
  · intro hempty
    obtain ⟨rfl, rfl⟩ := List.append_eq_nil_iff.1 hempty
    rcases h.stopsUp with hne | ⟨r, hr, hle⟩
    · exact hne rfl
    · have hlen := congrArg List.length hup
      have hlen' := congrArg List.length hdown
      simp only [List.length_append, List.length_cons, List.length_nil] at hlen hlen' hmeet
      have hrest : rest = [] := List.eq_nil_of_length_eq_zero (by omega)
      rw [List.append_nil, hrest] at hup
      rw [hup, List.dropLast_concat] at hr
      exact Word.not_lt.2 hle (hbelow r hr)
  · intro r hr
    rcases List.mem_append.1 hr with hr | hr
    · rcases List.mem_append.1 (hfront.mem hr) with hr | hr
      · exact h.le r hr
      · exact Std.le_of_lt (hbelow r hr)
    · cases List.mem_singleton.1 hr
      exact hv
  · intro r hr
    rcases List.mem_append.1 hr with hr | hr
    · exact Std.le_of_lt (habove r hr)
    · exact h.ge r hr

private theorem exchange_of_apart (hu : pivot ≤ recordKey u) (hapart : (ps ++ below).length < front.length) :
    ∃ mid, front = ps ++ below ++ u :: mid ∧ mid.length + 2 ≤ ms.length ∧
      (ps ++ below ++ [v] ++ mid ++ u :: (above ++ qs)).Perm (ps ++ ms ++ qs) ∧
      Scanning pivot (ps ++ below ++ [v]) mid (u :: (above ++ qs)) := by
  have hall : ps ++ below ++ (u :: rest) = front ++ (v :: above ++ qs) := by
    rw [← List.append_assoc front, ← hdown, List.append_assoc ps ms, hup, List.append_assoc]
  obtain ⟨mid', hfront⟩ := List.prefix_of_prefix_length_le (⟨_, rfl⟩ : ps ++ below <+: _) ⟨_, hall.symm⟩
    (Nat.le_of_lt hapart)
  obtain ⟨mid, hmid⟩ : ∃ mid, mid' = u :: mid := by
    rw [← hfront, List.append_assoc (ps ++ below) mid'] at hall
    have htail := List.append_cancel_left hall
    cases mid' with
    | nil =>
      rw [← hfront, List.append_nil] at hapart
      exact absurd hapart (Nat.lt_irrefl _)
    | cons t mid => exact ⟨mid, by rw [(List.cons.inj htail).1]⟩
  subst hmid
  have hperm : (ps ++ below ++ [v] ++ mid ++ u :: (above ++ qs)).Perm (ps ++ ms ++ qs) := by
    rw [hdown, ← hfront]
    simp only [List.append_assoc, List.cons_append, List.nil_append]
    exact List.Perm.append_left _ (List.Perm.append_left _ (perm_exchange u v mid (above ++ qs)))
  refine ⟨mid, hfront.symm, ?_, hperm, ?_, ?_, .inl (by simp), .inl (by simp)⟩
  · have hlen := congrArg List.length hdown
    have hlen' := congrArg List.length hfront
    simp only [List.length_append, List.length_cons] at hlen hlen'
    omega
  · simp only [List.forall_mem_append, List.forall_mem_singleton]
    exact ⟨⟨h.le, fun r hr => Std.le_of_lt (hbelow r hr)⟩, hv⟩
  · simp only [List.forall_mem_cons, List.forall_mem_append]
    exact ⟨hu, fun r hr => Std.le_of_lt (habove r hr), h.ge⟩

section Round
omit h

variable [BulkCells σ k] {start : Nat} {R : σ → List (Record k) → Prop} {a : σ} {records : Nat}
  (hu : pivot ≤ recordKey u) (hR : RecordView stride start R) (ha : R a (ps ++ ms ++ qs))
  (hrecords : (ps ++ ms ++ qs).length ≤ records)
include hu hR ha hrecords

/-- Both scans of a round end, at a record that each has to stop at. -/
theorem scans_eq :
    scanUp a stride pivot records (start + ps.length * stride) = .ok (start + (ps ++ below).length * stride) ∧
      scanDown a stride pivot records (start + (ps ++ ms).length * stride - stride) =
        .ok (start + front.length * stride) := by
  have hkeys := hR.keys ha
  have hupAll : ps ++ ms ++ qs = ps ++ below ++ u :: rest := by
    rw [List.append_assoc, hup, List.append_assoc]
  have hdownAll : ps ++ ms ++ qs = front ++ v :: (above ++ qs) := by
    rw [hdown, List.append_assoc]
    rfl
  have hlenUp := congrArg List.length hupAll
  have hlenDown := congrArg List.length hdownAll
  simp only [List.length_append, List.length_cons] at hlenUp hlenDown hrecords
  have hlast : start + (ps ++ ms).length * stride - stride = start + (front ++ above).length * stride := by
    rw [hdown, List.length_append, List.length_cons, ← Nat.add_assoc, Nat.succ_mul, List.length_append]
    omega
  rw [hlast]
  exact ⟨scanUp_eq (hupAll ▸ hkeys) hbelow hu (by omega), scanDown_eq (hdownAll ▸ hkeys) habove hv (by omega)⟩

private theorem partitionFrom_of_meet (hmeet : front.length ≤ (ps ++ below).length) (fuel : Nat) :
    partitionFrom stride pivot records (fuel + 1) (start + ps.length * stride)
      (start + (ps ++ ms).length * stride - stride) a = .ok (start + (front ++ [v]).length * stride - stride, a) := by
  obtain ⟨hrunUp, hrunDown⟩ := scans_eq hup hbelow hdown hv habove hu hR ha hrecords
  have hle : start + front.length * stride ≤ start + (ps ++ below).length * stride :=
    Nat.add_le_add_left (Nat.mul_le_mul_right stride hmeet) _
  have hmid : start + (front ++ [v]).length * stride - stride = start + front.length * stride := by
    rw [List.length_append, List.length_singleton, Nat.succ_mul]
    omega
  rw [hmid]
  simp only [partitionFrom, hrunUp, hrunDown, if_pos hle, bind, Except.bind, pure, Except.pure]

private theorem partitionFrom_of_apart (hs : 0 < stride) {mid : List (Record k)}
    (hfront : front = ps ++ below ++ u :: mid) (fuel : Nat) :
    ∃ a', R a' (ps ++ below ++ [v] ++ mid ++ u :: (above ++ qs)) ∧
      partitionFrom stride pivot records (fuel + 1) (start + ps.length * stride)
          (start + (ps ++ ms).length * stride - stride) a =
        partitionFrom stride pivot records fuel (start + (ps ++ below ++ [v]).length * stride)
          (start + (ps ++ below ++ [v] ++ mid).length * stride - stride) a' := by
  obtain ⟨hrunUp, hrunDown⟩ := scans_eq hup hbelow hdown hv habove hu hR ha hrecords
  have hsplit : ps ++ ms ++ qs = ps ++ below ++ u :: (mid ++ v :: (above ++ qs)) := by
    rw [hdown, hfront]
    simp
  have hexchanged : ps ++ below ++ [v] ++ mid ++ u :: (above ++ qs) =
      ps ++ below ++ v :: (mid ++ u :: (above ++ qs)) := by simp
  obtain ⟨a', hswap, ha'⟩ := hR.exchange (hsplit ▸ ha)
  rw [← hfront] at hswap
  obtain ⟨i, hi⟩ : ∃ i, i = start + (ps ++ below).length * stride := ⟨_, rfl⟩
  obtain ⟨j, hj⟩ : ∃ j, j = start + front.length * stride := ⟨_, rfl⟩
  have hplace : i + stride + mid.length * stride = j := by
    have hlen : (ps ++ below ++ u :: mid).length = (ps ++ below).length + (mid.length + 1) := List.length_append
    rw [hi, hj, hfront, hlen, Nat.add_mul, Nat.succ_mul]
    omega
  have hnext : start + (ps ++ below ++ [v]).length * stride = i + stride := by
    have hlen : (ps ++ below ++ [v]).length = (ps ++ below).length + 1 := List.length_append
    rw [hi, hlen, Nat.succ_mul]
    omega
  have hlast : start + (ps ++ below ++ [v] ++ mid).length * stride - stride = j - stride := by
    rw [List.length_append, Nat.add_mul, ← Nat.add_assoc, hnext, hplace]
  refine ⟨a', hexchanged ▸ ha', ?_⟩
  rw [← hi] at hrunUp hswap
  rw [← hj] at hrunDown hswap
  rw [hnext, hlast]
  simp only [partitionFrom, hrunUp, hrunDown, if_neg (by omega : ¬j ≤ i), subPosition_of_le (by omega : stride ≤ j),
    bind, Except.bind]
  rw [exchangeRecords] at hswap
  split
  · next hone =>
    rw [if_pos hone] at hswap
    rw [hswap]
  · next hone =>
    rw [if_neg hone] at hswap
    rw [hswap]

end Round

end Scanning

private theorem partitionFrom_parts (hs : 0 < stride) (records fuel : Nat) : ∀ {ps ms qs : List (Record k)},
    Scanning pivot ps ms qs → ms.length < 2 * fuel → (ps ++ ms ++ qs).length ≤ records →
    ∃ lows highs, Parted pivot (ps ++ ms ++ qs) lows highs ∧
      ∀ {σ : Type} [BulkCells σ k] {start : Nat} {R : σ → List (Record k) → Prop} {a : σ}, RecordView stride start R →
        R a (ps ++ ms ++ qs) →
        ∃ a', partitionFrom stride pivot records fuel (start + ps.length * stride)
            (start + (ps ++ ms).length * stride - stride) a =
              .ok (start + lows.length * stride - stride, a') ∧
          R a' (lows ++ highs) := by
  induction fuel with
  | zero =>
    intro ps ms qs _ hfuel _
    omega
  | succ fuel ih =>
    intro ps ms qs h hfuel hrecords
    obtain ⟨below, u, rest, hup, hbelow, hu⟩ := h.exists_up
    obtain ⟨front, v, above, hdown, hv, habove⟩ := h.exists_down
    rcases Nat.lt_or_ge (ps ++ below).length front.length with hapart | hmeet
    · obtain ⟨mid, hfront, hshort, hperm, hnext⟩ := h.exchange_of_apart hup hbelow hdown hv habove hu hapart
      obtain ⟨lows, highs, hparted, hparts⟩ := ih hnext (by omega) (by rw [hperm.length_eq]; exact hrecords)
      refine ⟨lows, highs, hparted.of_perm hperm, fun hR ha => ?_⟩
      obtain ⟨a₁, ha₁, hround⟩ :=
        Scanning.partitionFrom_of_apart hup hbelow hdown hv habove hu hR ha hrecords hs hfront fuel
      rw [hround]
      exact hparts hR ha₁
    · refine ⟨front ++ [v], above ++ qs, h.parted_of_meet hup hbelow hdown hv habove hmeet, fun {_ _ _ _ a} hR ha => ?_⟩
      refine ⟨a, Scanning.partitionFrom_of_meet hup hbelow hdown hv habove hu hR ha hrecords hmeet fuel, ?_⟩
      have happ : front ++ [v] ++ (above ++ qs) = ps ++ ms ++ qs := by
        rw [hdown]
        simp
      rw [happ]
      exact ha

private theorem scanning_first {front back : List (Record k)} (r : Record k) (hback : back ≠ []) :
    Scanning (recordKey r) [] (front ++ r :: back) [] := by
  refine ⟨fun _ hr => (nomatch hr), fun _ hr => (nomatch hr), .inr ⟨r, ?_, Std.le_refl _⟩,
    .inr ⟨r, List.mem_append_right _ List.mem_cons_self, Std.le_refl _⟩⟩
  rw [List.dropLast_append_of_ne_nil (List.cons_ne_nil r back), List.dropLast_cons_of_ne_nil hback]
  exact List.mem_append_right _ List.mem_cons_self

/-- The record whose key is the pivot of a partition: the one in the middle, or before it. -/
def middle (us : List (Record k)) : Record k := us.getD ((us.length - 1) / 2) []

theorem middle_eq {us : List (Record k)} {m : Nat} (hm : us.length = m + 1) (hmiddle : m / 2 < us.length) :
    middle us = us[m / 2] := by
  have hplace : (us.length - 1) / 2 = m / 2 := by rw [hm, Nat.add_sub_cancel]
  rw [middle, hplace, List.getD_eq_getElem?_getD, List.getElem?_eq_getElem hmiddle, Option.getD_some]

theorem partition_parts (hs : 0 < stride) {us : List (Record k)} (htwo : 2 ≤ us.length) :
    ∃ lows highs, Parted (recordKey (middle us)) us lows highs ∧
      ∀ {σ : Type} [BulkCells σ k] {start : Nat} {R : σ → List (Record k) → Prop} {a : σ}, RecordView stride start R →
        R a us →
        ∃ a', partition a stride start (start + us.length * stride - stride) =
            .ok (start + lows.length * stride - stride, a') ∧
          R a' (lows ++ highs) := by
  obtain ⟨m, hm⟩ : ∃ m, us.length = m + 1 := ⟨us.length - 1, by omega⟩
  have hmiddle : m / 2 < us.length := by omega
  obtain ⟨front, r, back, hsplit, hfront, hr⟩ :
      ∃ front r back, us = front ++ r :: back ∧ front.length = m / 2 ∧ middle us = r := by
    refine ⟨us.take (m / 2), us[m / 2], us.drop (m / 2 + 1), ?_, by rw [List.length_take]; omega, ?_⟩
    · rw [← List.drop_eq_getElem_cons hmiddle, List.take_append_drop]
    · exact middle_eq hm hmiddle
  have hlen := congrArg List.length hsplit
  simp only [List.length_append, List.length_cons] at hlen
  have hback : back ≠ [] := List.ne_nil_of_length_pos (by omega)
  have hfirst : Scanning (recordKey r) [] (front ++ r :: back) [] := scanning_first r hback
  obtain ⟨lows, highs, hparted, hparts⟩ := partitionFrom_parts hs (m + 1) (m + 1) hfirst (by rw [← hsplit]; omega) (by
    rw [List.nil_append, List.append_nil, ← hsplit]
    omega)
  rw [List.nil_append, List.append_nil, ← hsplit] at hparted hparts
  rw [hr]
  refine ⟨lows, highs, hparted, fun {σ _ start R a} hR ha => ?_⟩
  obtain ⟨a', hrun, ha'⟩ := hparts hR ha
  have hkey := (hsplit ▸ hR.keys ha).key
  have hspan : (start + us.length * stride - stride - start) / stride = m := by
    have hbytes : start + us.length * stride - stride - start = m * stride := by
      rw [hm, Nat.succ_mul]
      omega
    rw [hbytes, Nat.mul_div_cancel _ hs]
  rw [hfront] at hkey
  rw [List.length_nil, Nat.zero_mul, Nat.add_zero] at hrun
  refine ⟨a', ?_, ha'⟩
  simp only [partition, hspan, hkey, bind, Except.bind]
  exact hrun

theorem partition_turns (hs : 0 < stride) {us : List (Record k)} (hus : Uniform stride us) (htwo : 2 ≤ us.length) :
    ∃ pivot lows highs, Parted pivot us lows highs ∧
      OnBulkCells fun {σ} _ R =>
        ∀ {x y : List (Word k)} {a : σ}, R a (x ++ us.flatten ++ y) →
        ∃ a', partition a stride x.length (x.length + us.length * stride - stride) =
            .ok (x.length + lows.length * stride - stride, a') ∧
          R a' (x ++ (lows ++ highs).flatten ++ y) := by
  obtain ⟨lows, highs, hparted, hparts⟩ := partition_parts hs htwo
  refine ⟨_, lows, highs, hparted, fun σ _ R hR x y a ha => ?_⟩
  obtain ⟨a', hrun, -, ha'⟩ := hparts (hR.recordView hs x y) ⟨hus, ha⟩
  exact ⟨a', hrun, ha'⟩

theorem count_of_span (hs : 0 < stride) {us : List (Record k)} (hus : Uniform stride us) (start : Nat) :
    (start + us.flatten.length - stride - start) / stride = us.length - 1 := by
  have hwords : start + us.flatten.length - stride - start = (us.length - 1) * stride := by
    rw [length_flatten_records hus, Nat.sub_mul]
    omega
  rw [hwords, Nat.mul_div_cancel _ hs]

/-- What quicksort makes of records: few of them it leaves in the old order where their keys are equal. -/
structure QuickSortOf (us vs : List (Record k)) : Prop extends SortOf us vs where
  ties : us.length ≤ smallPart → KeepsTies us vs

namespace QuickSortOf
variable {us vs : List (Record k)}

theorem of_stable (h : StableSortOf us vs) : QuickSortOf us vs := ⟨h.toSortOf, fun _ => h.ties⟩

private theorem of_many (h : SortOf us vs) (hmany : smallPart ≤ us.length - 1) : QuickSortOf us vs := by
  refine ⟨h, fun hfew => absurd hmany (Nat.not_le.2 ?_)⟩
  have hpos : 0 < smallPart := by decide
  omega

end QuickSortOf

private theorem Parted.sortOf {us lows highs vs ws : List (Record k)} (h : Parted pivot us lows highs)
    (hv : SortOf lows vs) (hw : SortOf highs ws) : SortOf us (vs ++ ws) := by
  refine ⟨(hv.perm.append hw.perm).trans h.perm, List.pairwise_append.2 ⟨hv.ascending, hw.ascending, ?_⟩⟩
  intro r hr s hs
  exact Std.le_trans (h.le r (hv.perm.mem_iff.1 hr)) (h.ge s (hw.perm.mem_iff.1 hs))

/-- Either part may go first, as they do not overlap. -/
theorem Parted.partsSort_turns (hs : 0 < stride) {us lows highs vs ws : List (Record k)} (hus : Uniform stride us)
    (h : Parted pivot us lows highs) (htwo : 2 ≤ us.length) (hlarge : ¬us.length - 1 < smallPart) (hvs : vs.Perm lows)
    {σ : Type} [BulkCells σ k] {R : σ → List (Word k) → Prop} {fuel : Nat}
    (hparts : ∀ {x y : List (Word k)} {a : σ}, R a (x ++ us.flatten ++ y) →
      ∃ a', partition a stride x.length (x.length + us.length * stride - stride) =
          .ok (x.length + lows.length * stride - stride, a') ∧
        R a' (x ++ (lows ++ highs).flatten ++ y))
    (hlow : Turns R (fun a start stop => partsSort stride fuel start (stop - stride) a) lows vs)
    (hhigh : Turns R (fun a start stop => partsSort stride fuel start (stop - stride) a) highs ws) :
    Turns R (fun a start stop => partsSort stride (fuel + 1) start (stop - stride) a) us (vs ++ ws) := by
  intro x y a ha
  obtain ⟨a₁, hrun, ha₁⟩ := hparts ha
  obtain ⟨hlows, hhighs⟩ := List.forall_mem_append.1 (Uniform.of_perm hus h.perm)
  have hlen := h.perm.length_eq
  rw [List.length_append] at hlen
  have hsize := length_flatten_records hus
  have hsizeLow := length_flatten_records hlows
  have hsizeHigh := length_flatten_records hhighs
  have hsizeSorted : vs.flatten.length = lows.flatten.length := hvs.flatten.length_eq
  have hsum : us.flatten.length = lows.flatten.length + highs.flatten.length := by
    rw [hsize, hsizeLow, hsizeHigh, ← Nat.add_mul, hlen]
  have hmul : 2 * stride ≤ us.length * stride := Nat.mul_le_mul_right stride htwo
  have hfirst : 1 * stride ≤ lows.length * stride := Nat.mul_le_mul_right stride (List.length_pos_of_ne_nil h.lows_ne)
  have hmid : x.length + lows.flatten.length - stride + stride = x.length + lows.flatten.length := by omega
  rw [← hsize, ← hsizeLow] at hrun
  simp only [partsSort]
  rw [if_pos (by omega), count_of_span hs hus, if_neg hlarge, hrun]
  simp only [bind, Except.bind, hmid, hsum]
  split
  · obtain ⟨a₂, hrunLow, ha₂⟩ := hlow.before ha₁
    obtain ⟨a₃, hrunHigh, ha₃⟩ := hhigh.after ha₂
    rw [hsizeSorted, Nat.add_assoc] at hrunHigh
    exact ⟨a₃, by rw [hrunLow]; exact hrunHigh, ha₃⟩
  · obtain ⟨a₂, hrunHigh, ha₂⟩ := hhigh.after ha₁
    obtain ⟨a₃, hrunLow, ha₃⟩ := hlow.before ha₂
    rw [Nat.add_assoc] at hrunHigh
    exact ⟨a₃, by rw [hrunHigh]; exact hrunLow, ha₃⟩

/-- Every step parts the records, so there are no more steps than records: with more left over the run is the same. -/
theorem partsSort_turns (hs : 0 < stride) (hlim : stride < 2 ^ 63) (n : Nat) : ∀ {us : List (Record k)},
    Uniform stride us → us.length ≤ n →
    ∃ vs, QuickSortOf us vs ∧ ∀ fuel, n ≤ fuel → OnBulkCells fun R =>
      Turns R (fun a start stop => partsSort stride fuel start (stop - stride) a) us vs := by
  induction n with
  | zero =>
    intro us _ hn
    cases List.eq_nil_of_length_eq_zero (Nat.le_zero.1 hn)
    refine ⟨[], .of_stable (.self .nil), fun fuel _ σ _ R _ x y a ha => ⟨a, ?_, ha⟩⟩
    cases fuel with
    | zero => rfl
    | succ fuel => exact if_neg (Nat.not_lt.2 (Nat.sub_le _ _))
  | succ n ih =>
    intro us hus hn
    have hsize := length_flatten_records hus
    have hsucc : ∀ {fuel}, n + 1 ≤ fuel → ∃ fuel', fuel = fuel' + 1 ∧ n ≤ fuel' :=
      fun h => ⟨_, (Nat.sub_add_cancel (Nat.le_of_add_left_le h)).symm, Nat.le_sub_of_add_le h⟩
    rcases Nat.lt_or_ge us.length 2 with hshort | htwo
    · refine ⟨us, .of_stable (.self (.of_short (by omega))), fun fuel hfuel σ _ R _ x y a ha => ⟨a, ?_, ha⟩⟩
      obtain ⟨fuel, rfl, -⟩ := hsucc hfuel
      have hmul : us.length * stride ≤ 1 * stride := Nat.mul_le_mul_right stride (by omega)
      simp only [partsSort]
      rw [if_neg (by omega)]
    by_cases hsmall : us.length - 1 < smallPart
    · obtain ⟨vs, hvs, hturns⟩ := insertionSortRecords_turns hs hlim hus
      refine ⟨vs, .of_stable hvs, fun fuel hfuel σ _ R hR x y a ha => ?_⟩
      obtain ⟨fuel, rfl, -⟩ := hsucc hfuel
      obtain ⟨a', hrun, ha'⟩ := hturns σ R hR ha
      have hmul : 2 * stride ≤ us.length * stride := Nat.mul_le_mul_right stride htwo
      have hend : x.length + us.flatten.length - stride + stride = x.length + us.flatten.length := by omega
      refine ⟨a', ?_, ha'⟩
      simp only [partsSort]
      rw [if_pos (by omega), count_of_span hs hus, if_pos hsmall, hend]
      exact hrun
    · obtain ⟨pivot, lows, highs, hparted, hparts⟩ := partition_turns hs hus htwo
      obtain ⟨hlows, hhighs⟩ := List.forall_mem_append.1 (Uniform.of_perm hus hparted.perm)
      have hlen := hparted.perm.length_eq
      have hposLow := List.length_pos_of_ne_nil hparted.lows_ne
      have hposHigh := List.length_pos_of_ne_nil hparted.highs_ne
      rw [List.length_append] at hlen
      obtain ⟨vs, hvs, hlow⟩ := ih hlows (by omega)
      obtain ⟨ws, hws, hhigh⟩ := ih hhighs (by omega)
      have hsorted := hparted.sortOf hvs.toSortOf hws.toSortOf
      refine ⟨vs ++ ws, .of_many hsorted (Nat.not_lt.1 hsmall), fun fuel hfuel σ _ R hR => ?_⟩
      obtain ⟨fuel, rfl, hsteps⟩ := hsucc hfuel
      exact hparted.partsSort_turns hs hus htwo hsmall hvs.perm (hparts σ R hR) (hlow fuel hsteps σ R hR)
        (hhigh fuel hsteps σ R hR)

/-- The number of steps that `sortParts` allows is that of the records, and any larger one would do. -/
theorem sortParts_turns (hs : 0 < stride) (hlim : stride < 2 ^ 63) {us : List (Record k)} (hus : Uniform stride us) :
    ∃ vs, QuickSortOf us vs ∧ OnBulkCells fun R =>
      Turns R (fun a start stop => sortParts a stride start (stop - stride)) us vs ∧
      ∀ fuel, us.length ≤ fuel → Turns R (fun a start stop => partsSort stride fuel start (stop - stride) a) us vs := by
  obtain ⟨vs, hvs, hturns⟩ := partsSort_turns hs hlim us.length hus (Nat.le_refl _)
  refine ⟨vs, hvs, fun σ _ R hR => ⟨fun x y a ha => ?_, fun fuel hfuel => hturns fuel hfuel σ R hR⟩⟩
  obtain ⟨a', hrun, ha'⟩ := hturns (us.length - 1 + 1) (by omega) σ R hR ha
  exact ⟨a', by simp only [sortParts, count_of_span hs hus]; exact hrun, ha'⟩

theorem quickSort_turns {us : List (Record k)} (hus : Uniform 1 us) :
    ∃ vs, QuickSortOf us vs ∧ OnBulkCells fun R => Turns R (fun a start stop => quickSort a start stop) us vs := by
  have hsize : us.flatten.length = us.length := by rw [length_flatten_records hus, Nat.mul_one]
  rcases Nat.eq_zero_or_pos us.length with hnil | hpos
  · cases List.eq_nil_of_length_eq_zero hnil
    exact ⟨[], .of_stable (.self .nil), fun σ _ R _ x y a ha => ⟨a, if_pos (Nat.le_refl _), ha⟩⟩
  by_cases hsmall : us.length < insertionLimit
  · obtain ⟨vs, hvs, hturns⟩ := insertionSortRecords_turns Nat.one_pos (by decide) hus
    refine ⟨vs, .of_stable hvs, fun σ _ R hR x y a ha => ?_⟩
    obtain ⟨a', hrun, ha'⟩ := hturns σ R hR ha
    refine ⟨a', ?_, ha'⟩
    simp only [quickSort]
    rw [if_neg (by omega), if_pos (by omega)]
    exact hrun
  · obtain ⟨vs, hvs, hturns⟩ := sortParts_turns Nat.one_pos (by decide) hus
    refine ⟨vs, hvs, fun σ _ R hR x y a ha => ?_⟩
    obtain ⟨a', hrun, ha'⟩ := (hturns σ R hR).1 ha
    refine ⟨a', ?_, ha'⟩
    simp only [quickSort]
    rw [if_neg (by omega), if_neg (by omega)]
    exact hrun

theorem quickSortRecords_turns (hs : 0 < stride) (hlim : stride < 2 ^ 63) {us : List (Record k)}
    (hus : Uniform stride us) :
    ∃ vs, QuickSortOf us vs ∧ OnBulkCells fun R =>
      Turns R (fun a start stop => quickSortRecords a stride start stop) us vs := by
  by_cases hone : stride = 1
  · subst hone
    exact quickSort_turns hus
  cases hcount : us.length with
  | zero =>
    cases List.eq_nil_of_length_eq_zero hcount
    refine ⟨[], .of_stable (.self .nil), fun σ _ R hR x y a ha => ⟨a, ?_, ha⟩⟩
    simp only [quickSortRecords, if_neg hone, hR.addPosition_eq ha hlim, bind, Except.bind]
    exact if_pos (Nat.lt_add_of_pos_right hs)
  | succ n =>
    have hsize := length_flatten_records hus
    obtain ⟨vs, hvs, hturns⟩ := sortParts_turns hs hlim hus
    refine ⟨vs, hvs, fun σ _ R hR x y a ha => ?_⟩
    obtain ⟨a', hrun, ha'⟩ := (hturns σ R hR).1 ha
    refine ⟨a', ?_, ha'⟩
    rw [hcount, Nat.succ_mul] at hsize
    simp only [quickSortRecords, if_neg hone, hR.addPosition_eq ha hlim, bind, Except.bind]
    rw [if_neg (by omega)]
    exact hrun

end Sorting
end PagedWords
