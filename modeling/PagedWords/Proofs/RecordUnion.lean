import PagedWords.Proofs.Records
import Mathlib.Data.List.Dedup

/-!
# The union of two ascending lists of records

The lists are interleaved by key, the first list going before the second, and of the records with one key
the first is taken.
-/
namespace PagedWords.Union
variable {k : Width}

/-- Of two heads with one key the second is passed along with the first. -/
def interleave : List (Record k) → List (Record k) → List (Record k)
  | [], bs => bs
  | a :: as, [] => a :: as
  | a :: as, b :: bs =>
      if recordKey a < recordKey b then a :: interleave as (b :: bs)
      else if recordKey b < recordKey a then b :: interleave (a :: as) bs
      else a :: interleave as bs
termination_by as bs => as.length + bs.length

/-- The records with another key than the record taken before them. -/
def dropRepeats : Option (Word k) → List (Record k) → List (Record k)
  | _, [] => []
  | last, r :: rs => if last = some (recordKey r) then dropRepeats last rs else r :: dropRepeats (some (recordKey r)) rs

/-- The union of two lists of records. -/
def unite (as bs : List (Record k)) : List (Record k) := dropRepeats none (interleave as bs)

/-- Each key of either list stands once, in order, with the first record that has it. -/
structure IsUnion (as bs us : List (Record k)) : Prop where
  ascending : (us.map recordKey).Pairwise (· < ·)
  keys : ∀ key, key ∈ us.map recordKey ↔ key ∈ as.map recordKey ∨ key ∈ bs.map recordKey
  record : ∀ key, us.find? (recordKey · = key) = (as ++ bs).find? (recordKey · = key)

variable {as bs rs : List (Record k)}

theorem mem_of_mem_interleave {r : Record k} (h : r ∈ interleave as bs) : r ∈ as ∨ r ∈ bs := by
  fun_induction interleave as bs with
  | case1 bs => exact .inr h
  | case2 a as => exact .inl h
  | case3 a as b bs hlt ih =>
    rcases List.mem_cons.1 h with rfl | h
    · exact .inl List.mem_cons_self
    · exact (ih h).imp_left (List.mem_cons_of_mem a)
  | case4 a as b bs hnot hlt ih =>
    rcases List.mem_cons.1 h with rfl | h
    · exact .inr List.mem_cons_self
    · exact (ih h).imp_right (List.mem_cons_of_mem b)
  | case5 a as b bs hnot hnot' ih =>
    rcases List.mem_cons.1 h with rfl | h
    · exact .inl List.mem_cons_self
    · exact (ih h).imp (List.mem_cons_of_mem a) (List.mem_cons_of_mem b)

private theorem mem_of_mem_dropRepeats {last : Option (Word k)} {r : Record k} (h : r ∈ dropRepeats last rs) :
    r ∈ rs := by
  induction rs generalizing last with
  | nil => exact h
  | cons s rs ih =>
    rw [dropRepeats] at h
    split at h
    · exact List.mem_cons_of_mem s (ih h)
    · rcases List.mem_cons.1 h with rfl | h
      · exact List.mem_cons_self
      · exact List.mem_cons_of_mem s (ih h)

theorem mem_of_mem_unite {r : Record k} (h : r ∈ unite as bs) : r ∈ as ∨ r ∈ bs :=
  mem_of_mem_interleave (mem_of_mem_dropRepeats h)

private theorem cons_sorted {r : Record k} {rest : List (Record k)} (hrest : (rest.map recordKey).Pairwise (· ≤ ·))
    (h : ∀ s ∈ rest, recordKey r ≤ recordKey s) : ((r :: rest).map recordKey).Pairwise (· ≤ ·) := by
  rw [List.map_cons, List.pairwise_cons]
  refine ⟨?_, hrest⟩
  intro key hkey
  obtain ⟨s, hs, rfl⟩ := List.mem_map.1 hkey
  exact h s hs

theorem le_of_sorted {a r : Record k} (h : ((a :: as).map recordKey).Pairwise (· ≤ ·)) (hr : r ∈ a :: as) :
    recordKey a ≤ recordKey r := by
  rcases List.mem_cons.1 hr with rfl | hr
  · exact Std.le_refl _
  · exact List.rel_of_pairwise_cons h (List.mem_map_of_mem hr)

theorem interleave_sorted (ha : (as.map recordKey).Pairwise (· ≤ ·)) (hb : (bs.map recordKey).Pairwise (· ≤ ·)) :
    ((interleave as bs).map recordKey).Pairwise (· ≤ ·) := by
  fun_induction interleave as bs with
  | case1 bs => exact hb
  | case2 a as => exact ha
  | case3 a as b bs hlt ih =>
    refine cons_sorted (ih ha.of_cons hb) ?_
    intro s hs
    rcases mem_of_mem_interleave hs with hs | hs
    · exact le_of_sorted ha (List.mem_cons_of_mem a hs)
    · exact Std.le_trans (Std.le_of_lt hlt) (le_of_sorted hb hs)
  | case4 a as b bs hnot hlt ih =>
    refine cons_sorted (ih ha hb.of_cons) ?_
    intro s hs
    rcases mem_of_mem_interleave hs with hs | hs
    · exact Std.le_trans (Std.le_of_lt hlt) (le_of_sorted ha hs)
    · exact le_of_sorted hb (List.mem_cons_of_mem b hs)
  | case5 a as b bs hnot hnot' ih =>
    refine cons_sorted (ih ha.of_cons hb.of_cons) ?_
    intro s hs
    rcases mem_of_mem_interleave hs with hs | hs
    · exact le_of_sorted ha (List.mem_cons_of_mem a hs)
    · exact Std.le_trans (Word.not_lt.1 hnot') (le_of_sorted hb (List.mem_cons_of_mem b hs))

private theorem find?_eq_none_of_lt {a : Record k} {key : Word k} (h : ((a :: as).map recordKey).Pairwise (· ≤ ·))
    (hlt : key < recordKey a) : (a :: as).find? (recordKey · = key) = none := by
  rw [List.find?_eq_none]
  intro r hr
  have hle := le_of_sorted h hr
  simp only [decide_eq_true_eq]
  rintro rfl
  exact absurd hle (Word.not_le.2 hlt)

/-- The first record with a key is that of the first list, if it has one. -/
theorem find?_interleave (ha : (as.map recordKey).Pairwise (· ≤ ·)) (hb : (bs.map recordKey).Pairwise (· ≤ ·))
    (key : Word k) :
    (interleave as bs).find? (recordKey · = key) = (as ++ bs).find? (recordKey · = key) := by
  fun_induction interleave as bs with
  | case1 bs => rfl
  | case2 a as => rw [List.append_nil]
  | case3 a as b bs hlt ih =>
    rw [List.cons_append, List.find?_cons, List.find?_cons, ih ha.of_cons hb]
  | case4 a as b bs hnot hlt ih =>
    have hih := ih ha hb.of_cons
    rw [List.find?_append] at hih ⊢
    rw [List.find?_cons, List.find?_cons (a := b)]
    by_cases hkey : recordKey b = key
    · subst hkey
      rw [find?_eq_none_of_lt ha hlt]
      simp
    · simpa [hkey] using hih
  | case5 a as b bs hnot hnot' ih =>
    have hsame : recordKey a = recordKey b := Std.le_antisymm (Word.not_lt.1 hnot') (Word.not_lt.1 hnot)
    have hih := ih ha.of_cons hb.of_cons
    rw [List.cons_append, List.find?_cons, List.find?_cons, hih]
    by_cases hkey : recordKey a = key
    · simp [hkey]
    · have hkey' : recordKey b ≠ key := hsame ▸ hkey
      simp [hkey, hkey', List.find?_append]

theorem find?_dropRepeats {last : Option (Word k)} {key : Word k} (h : last ≠ some key) :
    (dropRepeats last rs).find? (recordKey · = key) = rs.find? (recordKey · = key) := by
  induction rs generalizing last with
  | nil => rfl
  | cons r rs ih =>
    rw [dropRepeats]
    by_cases hkey : recordKey r = key
    · rw [if_neg (by rw [hkey]; exact h)]
      simp [hkey]
    · split
      · rw [ih h, List.find?_cons]
        simp [hkey]
      · rw [List.find?_cons, List.find?_cons, ih (by simpa using hkey)]

theorem dropRepeats_ascending {last : Option (Word k)} (hr : (rs.map recordKey).Pairwise (· ≤ ·))
    (hlast : ∀ key, last = some key → ∀ r ∈ rs, key ≤ recordKey r) :
    ((dropRepeats last rs).map recordKey).Pairwise (· < ·) ∧
      ∀ key, last = some key → ∀ r ∈ dropRepeats last rs, key < recordKey r := by
  induction rs generalizing last with
  | nil => exact ⟨.nil, fun _ _ _ h => nomatch h⟩
  | cons r rs ih =>
    rw [dropRepeats]
    split
    · exact ih hr.of_cons (fun key hkey s hs => hlast key hkey s (List.mem_cons_of_mem r hs))
    · next hne =>
      have hrest : ∀ key, some (recordKey r) = some key → ∀ s ∈ rs, key ≤ recordKey s := by
        rintro key ⟨⟩ s hs
        exact le_of_sorted hr (List.mem_cons_of_mem r hs)
      obtain ⟨hasc, habove⟩ := ih hr.of_cons hrest
      constructor
      · rw [List.map_cons, List.pairwise_cons]
        refine ⟨?_, hasc⟩
        intro key hkey
        obtain ⟨s, hs, rfl⟩ := List.mem_map.1 hkey
        exact habove _ rfl s hs
      · rintro key rfl s hs
        have hle := hlast key rfl r List.mem_cons_self
        have hlt : key < recordKey r := by grind
        rcases List.mem_cons.1 hs with rfl | hs
        · exact hlt
        · exact Std.lt_trans hlt (habove _ rfl s hs)

theorem isUnion_unite (ha : (as.map recordKey).Pairwise (· ≤ ·)) (hb : (bs.map recordKey).Pairwise (· ≤ ·)) :
    IsUnion as bs (unite as bs) := by
  have hrecord : ∀ key, (unite as bs).find? (recordKey · = key) = (as ++ bs).find? (recordKey · = key) := by
    intro key
    rw [unite, find?_dropRepeats (by simp), find?_interleave ha hb]
  refine ⟨(dropRepeats_ascending (interleave_sorted ha hb) (by simp)).1, ?_, hrecord⟩
  intro key
  have hmem : ∀ l : List (Record k), key ∈ l.map recordKey ↔ (l.find? (recordKey · = key)).isSome := by
    intro l
    simp
  rw [hmem, hrecord, ← hmem, List.map_append, List.mem_append]

theorem IsUnion.length_eq {us : List (Record k)} (h : IsUnion as bs us) :
    us.length = ((as ++ bs).map recordKey).dedup.length := by
  have hnodup : (us.map recordKey).Nodup := h.ascending.imp Std.ne_of_lt
  have hperm : (us.map recordKey).Perm ((as ++ bs).map recordKey).dedup := by
    rw [List.perm_ext_iff_of_nodup hnodup (List.nodup_dedup _)]
    intro key
    rw [List.mem_dedup, h.keys, List.map_append, List.mem_append]
  rw [← hperm.length_eq, List.length_map]

end PagedWords.Union
