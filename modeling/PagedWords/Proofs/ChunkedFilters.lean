import PagedWords.Batches
import PagedWords.Proofs.Filtering

/-!
# Filtering a long list chunk by chunk

A candidate list may be filtered against a posting list one chunk of records after the other. A chunk that is
held down to its last key leaves every larger candidate to the next one, which takes up where it stopped.
-/
namespace PagedWords
variable {k : Width}

/-- Places between two records of `start..stop` where it is cut into chunks. -/
structure Cuts (stride start stop : Nat) (cuts : List Nat) : Prop where
  ascending : (start :: (cuts ++ [stop])).Pairwise (· < ·)
  whole : ∀ cut ∈ cuts, (cut - start) % stride = 0

namespace Cuts
variable {stride start stop cut : Nat} {cuts : List Nat}

theorem between (h : Cuts stride start stop cuts) (hmem : cut ∈ cuts) : start < cut ∧ cut < stop := by
  obtain ⟨hfirst, hrest⟩ := List.pairwise_cons.1 h.ascending
  exact ⟨hfirst cut (List.mem_append_left _ hmem),
    (List.pairwise_append.1 hrest).2.2 cut hmem stop List.mem_cons_self⟩

private theorem tail (h : Cuts stride start stop (cut :: cuts)) : Cuts stride cut stop cuts := by
  refine ⟨h.ascending.of_cons, ?_⟩
  intro next hnext
  have hlt : cut < next := List.rel_of_pairwise_cons h.ascending.of_cons (List.mem_append_left _ hnext)
  have hcut := (h.between List.mem_cons_self).1
  have hwhole := Nat.dvd_of_mod_eq_zero (h.whole cut List.mem_cons_self)
  have hreach := Nat.dvd_of_mod_eq_zero (h.whole next (List.mem_cons_of_mem cut hnext))
  have hsum : next - start = next - cut + (cut - start) := by omega
  rw [hsum] at hreach
  exact Nat.mod_eq_zero_of_dvd ((Nat.dvd_add_left hwhole).1 hreach)

end Cuts

namespace Store
variable {s : Store k}

variable {how : Membership} {boundary : Word k} {stride start stop : Nat} {c : Candidates k}

private theorem filterRecords_eq_ok (hs : s.WellFormed) (hr : RecordRange s.toList stride start stop)
    (hc : c.WellFormed) (how : Membership) (boundary : Word k) :
    ∃ c', s.filterRecords how stride boundary start stop c = .ok (.ok c') := by
  obtain ⟨bs, hfew, hrun⟩ := filterRecords_visits hs hr hc boundary
  obtain ⟨c', hvisits, -⟩ := Filter.visitAll_spec how hc hfew
  exact ⟨c', by rw [hrun, hvisits]; rfl⟩

section Sorted
variable (hs : s.WellFormed) (hr : RecordRange s.toList stride start stop)
  (hkeys : (recordKeys s.toList stride start stop).Pairwise (· ≤ ·))
include hs hr hkeys

theorem get_last (hlt : start < stop) :
    ∃ last, s.get (stop - stride) = .ok last ∧ last ∈ recordKeys s.toList stride start stop ∧
      ∀ x ∈ recordKeys s.toList stride start stop, x ≤ last := by
  have hpos := hr.pos
  have hl := hr.le_length
  have hplace : stop - stride < s.toList.length := by omega
  exact ⟨s.toList[stop - stride], (reads hs).get _ hplace, hr.last_key hlt hplace hkeys⟩

/-- The first chunk stops where the second can resume: it visits no candidate above its last key, and of the
others only that last key can be a key of the second chunk, too. -/
theorem filterRecords_split (how : Membership) (boundary : Word k) (hc : c.WellFormed) {cut : Nat} (hcut : start < cut)
    (hstop : cut < stop) (hwhole : (cut - start) % stride = 0) :
    ∃ last c₁, s.get (cut - stride) = .ok last ∧
      s.filterRecords how stride (Word.min boundary last) start cut c = .ok (.ok c₁) ∧ c₁.WellFormed ∧
      s.filterRecords how stride boundary cut stop c₁ = s.filterRecords how stride boundary start stop c := by
  obtain ⟨hfirst, hsecond, hsplit⟩ := hr.split (Nat.le_of_lt hcut) (Nat.le_of_lt hstop) hwhole
  rw [hsplit] at hkeys
  obtain ⟨last, hget, hlast, hle⟩ := get_last hs hfirst (List.pairwise_append.1 hkeys).1 hcut
  obtain ⟨c₁, hvisits, -, hc₁, -, hun⟩ := Filter.visitAll_spec how hc (Filter.length_verdicts_le
    (Word.min boundary last) (recordKeys s.toList stride start cut) c.unvisited)
  refine ⟨last, c₁, hget, ?_, hc₁, ?_⟩
  · rw [filterRecords_eq hs hfirst hcut hc, hvisits]
    rfl
  · rw [filterRecords_eq hs hsecond hstop hc₁, filterRecords_eq hs hr (Nat.lt_trans hcut hstop) hc, hsplit,
      Filter.verdicts_append hlast hle, Filter.visitAll_append, hvisits, hun]
    rfl

private theorem last_le_of_cut {cut : Nat} (hcut : start < cut) (hstop : cut < stop)
    (hwhole : (cut - start) % stride = 0) {key last : Word k} (hkey : s.get (cut - stride) = .ok key)
    (hlast : ∀ x ∈ recordKeys s.toList stride start stop, x ≤ last) : key ≤ last := by
  obtain ⟨hfirst, -, hsplit⟩ := hr.split (Nat.le_of_lt hcut) (Nat.le_of_lt hstop) hwhole
  rw [hsplit] at hkeys hlast
  obtain ⟨key', hget, hmem, -⟩ := get_last hs hfirst (List.pairwise_append.1 hkeys).1 hcut
  obtain rfl : key' = key := Except.ok.inj (hget.symm.trans hkey)
  exact hlast key' (List.mem_append_left _ hmem)

end Sorted

private theorem filterChunks_eq (hs : s.WellFormed) (how : Membership) (boundary : Word k) {cuts : List Nat} :
    ∀ {start : Nat} {c : Candidates k}, RecordRange s.toList stride start stop →
      (recordKeys s.toList stride start stop).Pairwise (· ≤ ·) → c.WellFormed → Cuts stride start stop cuts →
      s.filterChunks how stride (Word.min boundary) boundary stop start cuts c =
        s.filterRecords how stride boundary start stop c := by
  induction cuts with
  | nil =>
    intro start c hr hkeys hc hcuts
    rfl
  | cons cut cuts ih =>
    intro start c hr hkeys hc hcuts
    obtain ⟨hcut, hstop⟩ := hcuts.between List.mem_cons_self
    have hwhole := hcuts.whole cut List.mem_cons_self
    obtain ⟨last, c₁, hget, hfirst, hc₁, hrest⟩ := filterRecords_split hs hr hkeys how boundary hc hcut hstop hwhole
    obtain ⟨-, hsecond, hsplit⟩ := hr.split (Nat.le_of_lt hcut) (Nat.le_of_lt hstop) hwhole
    rw [hsplit] at hkeys
    simp only [filterChunks, hget, hfirst, bind, Except.bind]
    rw [ih hsecond (List.pairwise_append.1 hkeys).2.1 hc₁ hcuts.tail, hrest]

private theorem filterChunks_congr {bound bound' : Word k → Word k} {cuts : List Nat}
    (h : ∀ cut ∈ cuts, ∀ key, s.get (cut - stride) = .ok key → bound key = bound' key) :
    ∀ {start : Nat} {c : Candidates k}, s.filterChunks how stride bound boundary stop start cuts c =
      s.filterChunks how stride bound' boundary stop start cuts c := by
  induction cuts with
  | nil =>
    intro start c
    rfl
  | cons cut cuts ih =>
    intro start c
    have hrest : ∀ c', s.filterChunks how stride bound boundary stop cut cuts c' =
        s.filterChunks how stride bound' boundary stop cut cuts c' :=
      fun _ => ih (fun next hnext => h next (List.mem_cons_of_mem cut hnext))
    cases hget : s.get (cut - stride) with
    | error e => simp only [filterChunks, hget, bind, Except.bind]
    | ok key => simp only [filterChunks, hget, h cut List.mem_cons_self key hget, hrest, bind, Except.bind]

/-- Filtering in chunks is filtering in one pass, to the last field of the candidate list, be the last chunk held
down to any boundary or to its last key, too. -/
theorem filterRecords_in_chunks (hs : s.WellFormed) (hr : RecordRange s.toList stride start stop)
    (hkeys : (recordKeys s.toList stride start stop).Pairwise (· ≤ ·)) (hc : c.WellFormed) (how : Membership) :
    (∀ boundary, ∃ c', s.filterRecords how stride boundary start stop c = .ok (.ok c') ∧
      (∀ cut, start < cut → cut < stop → (cut - start) % stride = 0 →
        ∃ last c₁, s.get (cut - stride) = .ok last ∧
          s.filterRecords how stride (Word.min boundary last) start cut c = .ok (.ok c₁) ∧
          s.filterRecords how stride boundary cut stop c₁ = .ok (.ok c')) ∧
      ∀ cuts, Cuts stride start stop cuts →
        s.filterChunks how stride (Word.min boundary) boundary stop start cuts c = .ok (.ok c')) ∧
    (start < stop → ∃ last c', s.get (stop - stride) = .ok last ∧
      s.filterRecords how stride last start stop c = .ok (.ok c') ∧
      ∀ cuts, Cuts stride start stop cuts → s.filterChunks how stride id last stop start cuts c = .ok (.ok c')) := by
  constructor
  · intro boundary
    obtain ⟨c', hpass⟩ := filterRecords_eq_ok hs hr hc how boundary
    refine ⟨c', hpass, ?_, ?_⟩
    · intro cut hcut hstop hwhole
      obtain ⟨last, c₁, hget, hfirst, -, hrest⟩ := filterRecords_split hs hr hkeys how boundary hc hcut hstop hwhole
      exact ⟨last, c₁, hget, hfirst, hrest.trans hpass⟩
    · intro cuts hcuts
      rw [filterChunks_eq hs how boundary hr hkeys hc hcuts, hpass]
  · intro hlt
    obtain ⟨last, hget, -, hle⟩ := get_last hs hr hkeys hlt
    obtain ⟨c', hpass⟩ := filterRecords_eq_ok hs hr hc how last
    refine ⟨last, c', hget, hpass, ?_⟩
    intro cuts hcuts
    have hown : ∀ cut ∈ cuts, ∀ key, s.get (cut - stride) = .ok key → id key = Word.min last key := by
      intro cut hmem key hkey
      obtain ⟨hcut, hstop⟩ := hcuts.between hmem
      exact (Word.min_eq_right_of_le (last_le_of_cut hs hr hkeys hcut hstop (hcuts.whole cut hmem) hkey hle)).symm
    rw [filterChunks_congr hown, filterChunks_eq hs how last hr hkeys hc hcuts, hpass]

/-- The key `3` stands on both sides of the cut. The candidate `4` is above the last key of the first chunk, which
leaves it to the second. -/
theorem filterRecords_in_chunks_of_two :
    ∃ c', (slice #[.ofInt 1, .ofInt 7, .ofInt 3, .ofInt 7, .ofInt 3, .ofInt 8] : Store .w32).filterRecords .reject 2
        (.ofInt 4) 0 6 (.ofWords #[.ofInt 2, .ofInt 3, .ofInt 3, .ofInt 4]) = .ok (.ok c') ∧
      (slice #[.ofInt 1, .ofInt 7, .ofInt 3, .ofInt 7, .ofInt 3, .ofInt 8] : Store .w32).filterChunks .reject 2
        (Word.min (.ofInt 4)) (.ofInt 4) 6 0 [4] (.ofWords #[.ofInt 2, .ofInt 3, .ofInt 3, .ofInt 4]) =
          .ok (.ok c') := by
  obtain ⟨c', hpass, -, hchunks⟩ := (filterRecords_in_chunks (k := .w32)
    (s := slice #[.ofInt 1, .ofInt 7, .ofInt 3, .ofInt 7, .ofInt 3, .ofInt 8])
    (c := .ofWords #[.ofInt 2, .ofInt 3, .ofInt 3, .ofInt 4]) (by decide : 6 < 2 ^ 63)
    (⟨by decide, by decide, by decide, by decide⟩ : RecordRange _ 2 0 6) (by decide) ⟨by decide, by decide, by decide⟩
    .reject).1 (.ofInt 4)
  exact ⟨c', hpass, hchunks [4] ⟨by decide, by decide⟩⟩

end Store
end PagedWords
