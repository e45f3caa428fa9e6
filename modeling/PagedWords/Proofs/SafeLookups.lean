import PagedWords.Proofs.AscendingSearches
import PagedWords.Proofs.LookupLoops
import PagedWords.Proofs.RecordViews

/-!
# Searches and filters of keys in any order

Keys in no order lead a search astray, but not out of the range: it ends, with a hit where a record has the key or a
miss where a record begins. A filter ends too, and does no more than drop candidates up to the boundary. Both read
nothing but the keys of the range.
-/
namespace PagedWords
variable {k : Width}

/-- The storage holds a range of records with the keys `ks`. No more is known of it; off the keys it may answer with
faults. -/
structure Cells.HoldsKeys {σ : Type} [Cells σ k] (a : σ) (stride start stop : Nat) (ks : List (Word k)) : Prop where
  keys : Cells.ShowsKeys a stride start ks
  le_size : stop ≤ Cells.size a

namespace Finding

/-- What a search may answer on the keys `ks`: a record that has the key, or a place up to the end. -/
inductive Within (stride start : Nat) (key : Word k) (ks : List (Word k)) : Finding → Prop
  | found {i : Nat} (h : ks[i]? = some key) : Within stride start key ks (.found (start + i * stride))
  | missing {i : Nat} (h : i ≤ ks.length) : Within stride start key ks (.missing (start + i * stride))

theorem atFirst_within (stride start : Nat) (key : Word k) (ks : List (Word k)) :
    (atFirst stride start key ks).Within stride start key ks := by
  rw [atFirst]
  split
  · next h => exact .found h
  · exact .missing List.findIdx_le_length

private theorem Within.of_stretch {stride start low n : Nat} {key : Word k} {ks : List (Word k)} {r : Finding}
    (h : r.Within stride (start + low * stride) key (stretch ks low n)) (hn : low + n ≤ ks.length) :
    r.Within stride start key ks := by
  have hplace : ∀ i, start + low * stride + i * stride = start + (low + i) * stride := by
    intro i
    rw [Nat.add_mul, Nat.add_assoc]
  cases h with
  | @found i h =>
    rw [getElem?_stretch] at h
    split at h
    · exact hplace i ▸ .found h
    · cases h
  | @missing i h =>
    rw [length_stretch hn] at h
    exact hplace i ▸ .missing (by omega)

/-- The finding is told at a record of the range or at its end, and a hit at a record with the key. -/
structure Sound (l : List (Word k)) (stride start stop : Nat) (key : Word k) (r : Finding) : Prop where
  start_le : start ≤ r.pos
  le_stop : r.pos ≤ stop
  whole : (r.pos - start) % stride = 0
  keyAt : ∀ pos, r = .found pos → KeyAt l stride start stop key pos

private theorem Within.sound {l : List (Word k)} {stride start stop : Nat} {key : Word k} {r : Finding}
    (h : r.Within stride start key (recordKeys l stride start stop)) (hr : RecordRange l stride start stop) :
    r.Sound l stride start stop key := by
  cases h with
  | @found i h =>
    have hkey : KeyAt l stride start stop key (start + i * stride) := .of_key hr h
    refine ⟨hkey.start_le, Nat.le_of_lt hkey.lt_stop, hkey.whole, ?_⟩
    rintro _ ⟨⟩
    exact hkey
  | @missing i h =>
    have hcount := hr.add_count
    rw [length_recordKeys] at h
    have hspan : i * stride ≤ (stop - start) / stride * stride := Nat.mul_le_mul_right stride h
    refine ⟨Nat.le_add_right _ _, ?_, ?_, fun _ hf => nomatch hf⟩
    · show start + i * stride ≤ stop
      omega
    · show (start + i * stride - start) % stride = 0
      rw [Nat.add_sub_cancel_left, Nat.mul_mod_left]

end Finding

namespace Search
variable {stride start stop : Nat}

private theorem bisectFrom_within (stride start : Nat) (key : Word k) (ks : List (Word k)) (fuel : Nat) :
    ∀ low high, low ≤ high → high ≤ ks.length → ∃ r : Finding, r.Within stride start key ks ∧
      ∀ {σ : Type} [Cells σ k] {a : σ}, Cells.ShowsKeys a stride start ks →
        bisectFrom a stride key start fuel low high = .ok r := by
  have hscan : ∀ {low high : Nat}, low ≤ high → high ≤ ks.length → ∃ r : Finding, r.Within stride start key ks ∧
      ∀ {σ : Type} [Cells σ k] {a : σ}, Cells.ShowsKeys a stride start ks →
        scanBetween a stride key start low high = .ok r :=
    fun hle hl => ⟨_, (Finding.atFirst_within _ _ _ _).of_stretch (by omega), fun ha => scanBetween_eq key ha hle hl⟩
  induction fuel with
  | zero =>
    intro low high hle hl
    exact hscan hle hl
  | succ fuel ih =>
    intro low high hle hl
    simp only [bisectFrom]
    by_cases hlong : k.linearCutoff ≤ high - low
    · have hcut := k.linearCutoff_pos
      have hmid : low + (high - low) / 2 < ks.length := by omega
      simp only [if_pos hlong]
      by_cases hbelow : ks[low + (high - low) / 2] < key
      · obtain ⟨r, hr, hrun⟩ := ih (low + (high - low) / 2 + 1) high (by omega) hl
        refine ⟨r, hr, fun ha => ?_⟩
        simp only [ha _ hmid, bind, Except.bind, if_pos hbelow, hrun ha]
      by_cases habove : key < ks[low + (high - low) / 2]
      · obtain ⟨r, hr, hrun⟩ := ih low (low + (high - low) / 2) (by omega) (by omega)
        refine ⟨r, hr, fun ha => ?_⟩
        simp only [ha _ hmid, bind, Except.bind, if_neg hbelow, if_pos habove, hrun ha]
      · have heq : ks[low + (high - low) / 2] = key := Std.le_antisymm (Word.not_lt.1 habove) (Word.not_lt.1 hbelow)
        refine ⟨_, .found (by rw [List.getElem?_eq_getElem hmid, heq]), fun ha => ?_⟩
        simp only [ha _ hmid, bind, Except.bind, if_neg hbelow, if_neg habove, pure, Except.pure]
    · simp only [if_neg hlong]
      exact hscan hle hl

private theorem boundFrom_within (stride start : Nat) (key : Word k) (ks : List (Word k)) (fuel : Nat) :
    ∀ low high, low ≤ high → high ≤ ks.length → ∃ i ≤ ks.length,
      ∀ {σ : Type} [Cells σ k] {a : σ}, Cells.ShowsKeys a stride start ks →
        boundFrom a stride key start fuel low high = .ok i := by
  have hskip : ∀ {low high : Nat}, low ≤ high → high ≤ ks.length → ∃ i ≤ ks.length,
      ∀ {σ : Type} [Cells σ k] {a : σ}, Cells.ShowsKeys a stride start ks →
        skipBelow a stride key start (high - low) low = .ok i := by
    intro low high hle hl
    have hfirst : (stretch ks low (high - low)).findIdx (key ≤ ·) ≤ (stretch ks low (high - low)).length :=
      List.findIdx_le_length
    rw [length_stretch (by omega)] at hfirst
    exact ⟨_, by omega, fun ha => skipBetween_eq key ha hle hl⟩
  induction fuel with
  | zero =>
    intro low high hle hl
    exact hskip hle hl
  | succ fuel ih =>
    intro low high hle hl
    simp only [boundFrom]
    by_cases hlong : k.linearCutoff ≤ high - low
    · have hcut := k.linearCutoff_pos
      have hmid : low + (high - low) / 2 < ks.length := by omega
      simp only [if_pos hlong]
      by_cases hbelow : ks[low + (high - low) / 2] < key
      · obtain ⟨i, hi, hrun⟩ := ih (low + (high - low) / 2 + 1) high (by omega) hl
        refine ⟨i, hi, fun ha => ?_⟩
        simp only [ha _ hmid, bind, Except.bind, if_pos hbelow, hrun ha]
      · obtain ⟨i, hi, hrun⟩ := ih low (low + (high - low) / 2) (by omega) (by omega)
        refine ⟨i, hi, fun ha => ?_⟩
        simp only [ha _ hmid, bind, Except.bind, if_neg hbelow, hrun ha]
    · simp only [if_neg hlong]
      exact hskip hle hl

/-- On all storage that holds the keys the search answers `r`, and its loop ends with it. -/
def Finds (how : Strategy) (stride start stop : Nat) (key : Word k) (ks : List (Word k)) (r : Finding) : Prop :=
  ∀ {σ : Type} [Cells σ k] {a : σ}, Cells.HoldsKeys a stride start stop ks →
    searchRecords how a stride key start stop = .ok (.ok r) ∧
    (stride = 1 → search how a key start stop = .ok r) ∧
    Loop (seekRound a stride key start) (.first stride start stop how) r

/-- On all storage that holds the keys the bisection for the bound answers where record `i` begins. -/
def Bounds (stride start stop : Nat) (key : Word k) (ks : List (Word k)) (i : Nat) : Prop :=
  ∀ {σ : Type} [Cells σ k] {a : σ}, Cells.HoldsKeys a stride start stop ks →
    boundRecords a stride key start stop = .ok (.ok (start + i * stride)) ∧
    (stride = 1 → bound .bisect a key start stop = .ok (start + i * stride)) ∧
    Loop (boundRound a stride key start) (.halving 0 ((stop - start) / stride)) i

/-- On all storage that holds the words the search for the bound from word to word answers `p`. -/
def FirstBounds (start stop : Nat) (key : Word k) (ks : List (Word k)) (p : Nat) : Prop :=
  ∀ {σ : Type} [Cells σ k] {a : σ}, Cells.HoldsKeys a 1 start stop ks →
    bound .linear a key start stop = .ok p ∧ Loop (firstRound a key stop) start p

section Range
variable {ks : List (Word k)} (hs : 0 < stride) (hstop : start + ks.length * stride = stop)
include hs hstop

theorem count_eq : (stop - start) / stride = ks.length := by
  rw [← hstop, Nat.add_sub_cancel_left, Nat.mul_div_cancel _ hs]

theorem check_of_keys {size : Nat} (hl : stop ≤ size) : checkRecords start stop size stride = .ok () := by
  refine checkRecords_eq_ok_iff.2 ⟨by omega, hl, hs, ?_⟩
  rw [← hstop, Nat.add_sub_cancel_left, Nat.mul_mod_left]

private theorem search_within (how : Strategy) (key : Word k) :
    ∃ r : Finding, r.Within stride start key ks ∧ Finds how stride start stop key ks r := by
  have hcount := count_eq hs hstop
  cases how with
  | linear =>
    refine ⟨_, Finding.atFirst_within _ _ _ _, fun ha => ?_⟩
    have hscan := scan_eq key ha.keys hstop
    rw [← hcount] at hscan
    refine ⟨?_, ?_, scan_loop hs (by rw [hcount]; exact hstop) hscan⟩
    · rw [searchRecords, check_of_keys hs hstop ha.le_size, whenValid_ok]
      exact congrArg (Except.map Except.ok) hscan
    · rintro rfl
      rw [Nat.div_one] at hscan
      exact hscan
  | bisect =>
    obtain ⟨r, hr, hrun⟩ := bisectFrom_within stride start key ks ks.length 0 ks.length (Nat.zero_le _)
      (Nat.le_refl _)
    refine ⟨r, hr, fun {σ} _ {a} ha => ?_⟩
    have hfrom := hrun ha.keys
    rw [← hcount] at hfrom
    have hbisect : bisect a stride key start stop = .ok r := by
      rw [bisect]
      split
      · next hempty =>
        rw [Nat.sub_eq_zero_of_le hempty, Nat.zero_div, bisectFrom, scanBetween, scan, Nat.zero_mul] at hfrom
        exact hfrom
      · exact hfrom
    refine ⟨?_, ?_, bisectFrom_loop hs (Nat.zero_le _) (Nat.le_refl _) hfrom⟩
    · rw [searchRecords, check_of_keys hs hstop ha.le_size, whenValid_ok]
      exact congrArg (Except.map Except.ok) hbisect
    · rintro rfl
      exact hbisect

private theorem bound_within (key : Word k) : ∃ i ≤ ks.length, Bounds stride start stop key ks i := by
  have hcount := count_eq hs hstop
  obtain ⟨i, hi, hrun⟩ := boundFrom_within stride start key ks ks.length 0 ks.length (Nat.zero_le _)
    (Nat.le_refl _)
  refine ⟨i, hi, fun {σ} _ {a} ha => ?_⟩
  have hfrom := hrun ha.keys
  rw [← hcount] at hfrom hi
  have hbound : lowerBound a stride key start stop = .ok (start + i * stride) := by
    rw [lowerBound]
    split
    · next hempty =>
      rw [Nat.sub_eq_zero_of_le hempty, Nat.zero_div] at hi
      rw [Nat.le_zero.1 hi, Nat.zero_mul, Nat.add_zero]
    · simp only [hfrom, bind, Except.bind, pure, Except.pure]
      split
      · next hend => rw [hend, hcount, hstop]
      · rfl
  refine ⟨?_, ?_, boundFrom_loop (Nat.zero_le _) (Nat.le_refl _) hfrom⟩
  · rw [boundRecords, check_of_keys hs hstop ha.le_size, whenValid_ok]
    exact congrArg (Except.map Except.ok) hbound
  · rintro rfl
    exact hbound

end Range

private theorem firstBound_within {ks : List (Word k)} (hstop : start + ks.length = stop) (key : Word k) :
    ∃ i ≤ ks.length, FirstBounds start stop key ks (start + i) := by
  refine ⟨ks.findIdx (key ≤ ·), List.findIdx_le_length, fun ha => ?_⟩
  have hfirst := firstNotBelow_eq key ha.keys hstop
  have hcount : ks.length = stop - start := by omega
  rw [hcount] at hfirst
  exact ⟨hfirst, firstNotBelow_loop (by omega) hfirst⟩

end Search

namespace Candidates
variable {c c' : Candidates k} {boundary : Word k}

/-- Of the candidates up to the boundary some first ones, `visited`, have been visited, and those of them that are in
`stayed` were kept. -/
structure Thins (boundary : Word k) (c c' : Candidates k) (visited stayed : List (Word k)) : Prop where
  wellFormed : c'.WellFormed
  stop_eq : c'.stop = c.stop
  unvisited_eq : c.unvisited = visited ++ c'.unvisited
  kept_eq : c'.kept = c.kept ++ stayed
  stayed_sublist : stayed.Sublist visited
  le : ∀ u ∈ visited, u ≤ boundary

/-- No more has become of the candidates than that some first ones up to the boundary were kept or dropped. -/
def ThinsTo (boundary : Word k) (c c' : Candidates k) : Prop := ∃ visited stayed, Thins boundary c c' visited stayed

theorem ThinsTo.refl (hc : c.WellFormed) (boundary : Word k) : ThinsTo boundary c c :=
  ⟨[], [], hc, rfl, rfl, (List.append_nil _).symm, .slnil, fun _ hu => nomatch hu⟩

end Candidates

namespace Filter
variable {c : Candidates k} {how : Membership} {boundary : Word k}

private theorem staying_sublist (how : Membership) (bs : List Bool) (us : List (Word k)) :
    (staying how bs us).Sublist (us.take bs.length) := by
  induction bs generalizing us with
  | nil => simp [staying]
  | cons b bs ih =>
    cases us with
    | nil => exact .slnil
    | cons u us =>
      have hrest := ih us
      simp only [staying, List.zip_cons_cons, List.filter_cons] at hrest ⊢
      cases how.keeps b with
      | false => exact .cons u hrest
      | true => exact .cons_cons u hrest

theorem visitAll_thins (how : Membership) (hc : c.WellFormed) {bs : List Bool} (hb : bs.length ≤ c.unvisited.length)
    (hle : ∀ u ∈ c.unvisited.take bs.length, u ≤ boundary) :
    ∃ c', visitAll how bs c = .ok c' ∧ c.ThinsTo boundary c' := by
  obtain ⟨c', hrun, hstop, hc', hkept, hun⟩ := visitAll_spec how hc hb
  refine ⟨c', hrun, c.unvisited.take bs.length, staying how bs c.unvisited, hc', hstop, ?_, hkept,
    staying_sublist how bs _, hle⟩
  rw [hun, List.take_append_drop]

/-- On all storage that holds the keys the filter makes `c'` of the candidates, and if there are records its loop ends
with it. -/
def Leaves (how : Membership) (stride start stop : Nat) (boundary : Word k) (ks : List (Word k))
    (c c' : Candidates k) : Prop :=
  ∀ {σ : Type} [Cells σ k] {a : σ}, Cells.HoldsKeys a stride start stop ks →
    filterRecords a how stride boundary start stop c = .ok (.ok c') ∧
    (stride = 1 → filter a how boundary start stop c = .ok c') ∧
    (start < stop → ∃ first, Cells.get a start = .ok first ∧
      Loop (walkRound a how stride boundary stop) (.walking start first c) c')

theorem filter_thins {stride start stop : Nat} {ks : List (Word k)} (hs : 0 < stride)
    (hstop : start + ks.length * stride = stop) (hc : c.WellFormed) (how : Membership) (boundary : Word k) :
    ∃ c', c.ThinsTo boundary c' ∧ Leaves how stride start stop boundary ks c c' := by
  obtain ⟨c', hthins, hwalk⟩ : ∃ c', c.ThinsTo boundary c' ∧
      ∀ {σ : Type} [Cells σ k] {a : σ}, Cells.HoldsKeys a stride start stop ks →
        walkRange a how stride boundary start stop c = .ok c' := by
    by_cases hlt : start < stop
    · obtain ⟨c', hvisits, hthins⟩ := visitAll_thins how hc (length_verdicts_le boundary ks c.unvisited)
        (fun u hu => le_of_judged hu)
      exact ⟨c', hthins, fun ha => (walkRange_of_shows hs ha.keys hstop hlt hc).trans hvisits⟩
    · exact ⟨c, .refl hc boundary, fun _ => if_pos (Nat.le_of_not_lt hlt)⟩
  refine ⟨c', hthins, fun {σ} _ {a} ha => ⟨?_, ?_, ?_⟩⟩
  · rw [filterRecords, Search.check_of_keys hs hstop ha.le_size, whenValid_ok]
    exact congrArg (Except.map Except.ok) (hwalk ha)
  · rintro rfl
    exact hwalk ha
  · intro hlt
    have hrun := hwalk ha
    rw [walkRange, if_neg (Nat.not_le.2 hlt)] at hrun
    obtain ⟨first, hget, hrun⟩ := bind_eq_ok_iff.1 hrun
    exact ⟨first, hget, walk_loop hs (Nat.le_refl _) hrun⟩

end Filter

namespace Store
variable {s : Store k} {stride start stop : Nat} {c : Candidates k}

theorem holdsKeys (hr : RecordRange s.toList stride start stop) :
    Cells.HoldsKeys (s.toList.toArray : Words k) stride start stop (recordKeys s.toList stride start stop) :=
  ⟨(Words.reads _).showsRange hr, hr.le_length⟩

section Range
variable (hs : s.WellFormed) (hr : RecordRange s.toList stride start stop)
include hs hr

theorem search_sound (how : Strategy) (key : Word k) : ∃ r : Finding, r.Sound s.toList stride start stop key ∧
    s.searchRecords how stride key start stop = .ok (.ok r) ∧
    (stride = 1 → s.search how key start stop = .ok r) ∧
    Search.Finds how stride start stop key (recordKeys s.toList stride start stop) r := by
  obtain ⟨r, hwithin, hrun⟩ := Search.search_within hr.pos hr.add_keys how key
  obtain ⟨hflat, -, -⟩ := hrun (holdsKeys hr)
  obtain ⟨_, hrecords, -, hflat'⟩ := searchRecords_flat hs how stride key start stop
  cases hflat'.symm.trans hflat
  exact ⟨r, hwithin.sound hr, hrecords, fun hone => search_of_records hs hr hone hrecords, hrun⟩

theorem bound_sound (key : Word k) : ∃ i p, p = start + i * stride ∧ p ≤ stop ∧
    s.boundRecords stride key start stop = .ok (.ok p) ∧
    (stride = 1 → s.bound .bisect key start stop = .ok p) ∧
    Search.Bounds stride start stop key (recordKeys s.toList stride start stop) i := by
  obtain ⟨i, -, hrun⟩ := Search.bound_within hr.pos hr.add_keys key
  obtain ⟨hflat, hflat₁, -⟩ := hrun (holdsKeys hr)
  obtain ⟨_, hrecords, hle, hflat'⟩ := boundRecords_flat hs stride key start stop
  cases hflat'.symm.trans hflat
  refine ⟨i, _, rfl, hle _ rfl, hrecords, fun hone => ?_, hrun⟩
  obtain ⟨_, hbound, -, hflat'⟩ := bound_flat hs .bisect key hr.le (length_toList hs ▸ hr.le_length)
  cases hflat'.symm.trans (hflat₁ hone)
  exact hbound

theorem filterRecords_thins (hc : c.WellFormed) (how : Membership) (boundary : Word k) : ∃ c', c.ThinsTo boundary c' ∧
    s.filterRecords how stride boundary start stop c = .ok (.ok c') ∧
    Filter.Leaves how stride start stop boundary (recordKeys s.toList stride start stop) c c' := by
  obtain ⟨c', hthins, hrun⟩ := Filter.filter_thins hr.pos hr.add_keys hc how boundary
  obtain ⟨hflat, -, -⟩ := hrun (holdsKeys hr)
  refine ⟨c', hthins, ?_, hrun⟩
  rw [← hflat]
  rcases Nat.eq_or_lt_of_le hr.le with rfl | hlt
  · have hl := hr.le_length
    rw [filterRecords_of_empty hs hr.pos (length_toList hs ▸ hl), Filter.filterRecords_of_empty hr.pos hl]
  · rw [filterRecords_eq hs hr hlt hc, Filter.filterRecords_eq (Words.reads _) hr hlt hc]

end Range

theorem firstBound_sound (hs : s.WellFormed) (hr : RecordRange s.toList 1 start stop) (key : Word k) : ∃ p,
    start ≤ p ∧ p ≤ stop ∧ s.bound .linear key start stop = .ok p ∧
    Search.FirstBounds start stop key (recordKeys s.toList 1 start stop) p := by
  have hstop := hr.add_keys
  rw [Nat.mul_one] at hstop
  obtain ⟨i, hi, hrun⟩ := Search.firstBound_within hstop key
  obtain ⟨hflat, -⟩ := hrun (holdsKeys hr)
  obtain ⟨_, hbound, -, hflat'⟩ := bound_flat hs .linear key hr.le (length_toList hs ▸ hr.le_length)
  cases hflat'.symm.trans hflat
  exact ⟨start + i, Nat.le_add_right _ _, by omega, hbound, hrun⟩

/-- A filter by words goes page by page: the words of the range decide, and the pages that they are on. -/
theorem filter_thins (hs : s.WellFormed) (hr : RecordRange s.toList 1 start stop) (hc : c.WellFormed)
    (how : Membership) (boundary : Word k) : ∃ c', c.ThinsTo boundary c' ∧
    s.filter how boundary start stop c = .ok c' ∧
    (∀ s', s'.WellFormed → s.SameLayout s' → recordKeys s'.toList 1 start stop = recordKeys s.toList 1 start stop →
      s'.filter how boundary start stop c = .ok c') ∧
    ∀ a, s = paged a → start < stop → Loop (a.pageRound how boundary stop) (start, c) c' := by
  have hl := hr.le_length
  rw [length_toList hs] at hl
  obtain ⟨c', hthins, hrun⟩ : ∃ c', c.ThinsTo boundary c' ∧
      ∀ s', s'.WellFormed → s.SameLayout s' → recordKeys s'.toList 1 start stop = recordKeys s.toList 1 start stop →
        s'.filter how boundary start stop c = .ok c' := by
    rcases Nat.eq_or_lt_of_le hr.le with rfl | hlt
    · refine ⟨c, .refl hc boundary, fun s' hs' hsame _ => filter_of_empty hs' ?_⟩
      rw [hsame.size_eq]
      exact hl
    · obtain ⟨bs, hbs, hjudges⟩ := filter_decided hs hlt hl boundary c.unvisited
      obtain ⟨c', hvisits, hthins⟩ := Filter.visitAll_thins how hc (hjudges s hs (.refl s) rfl).length_le hbs.le
      refine ⟨c', hthins, fun s' hs' hsame hkeys => ?_⟩
      rw [recordKeys_one hr.le (hsame.le_length hs' hl), recordKeys_one hr.le hr.le_length] at hkeys
      exact ((hjudges s' hs' hsame hkeys).run_eq how c hc rfl).trans hvisits
  have hfilter := hrun s hs (.refl s) rfl
  refine ⟨c', hthins, hfilter, hrun, ?_⟩
  rintro a rfl hlt
  have hfits : stop ≤ a.size := hl
  rw [filter, Paged.filter, if_neg (Nat.not_le.2 hlt), if_neg (Nat.not_lt.2 hfits)] at hfilter
  exact Paged.filterFrom_loop hs.1.partition (Nat.le_trans hfits (Nat.le_of_lt hs.2)) (Nat.le_refl _) hfilter

/-- On keys in any order all searches and filters end with an answer that the keys alone decide. A search answers with a
record of the range or its end, and a hit has the key. A filter keeps or drops some first candidates, none of them above
the boundary; if it goes page by page, the pages decide with the keys. -/
theorem lookups_safe_in_any_order (hs : s.WellFormed) (hr : RecordRange s.toList stride start stop) (hc : c.WellFormed)
    (key boundary : Word k) :
    (∀ how, ∃ r : Finding, r.Sound s.toList stride start stop key ∧
      s.searchRecords how stride key start stop = .ok (.ok r) ∧
      (stride = 1 → s.search how key start stop = .ok r) ∧
      Search.Finds how stride start stop key (recordKeys s.toList stride start stop) r) ∧
    (∃ i p, p = start + i * stride ∧ p ≤ stop ∧
      s.boundRecords stride key start stop = .ok (.ok p) ∧
      (stride = 1 → s.bound .bisect key start stop = .ok p) ∧
      Search.Bounds stride start stop key (recordKeys s.toList stride start stop) i) ∧
    (stride = 1 → ∃ p, start ≤ p ∧ p ≤ stop ∧ s.bound .linear key start stop = .ok p ∧
      Search.FirstBounds start stop key (recordKeys s.toList 1 start stop) p) ∧
    (∀ how, ∃ c', c.ThinsTo boundary c' ∧
      s.filterRecords how stride boundary start stop c = .ok (.ok c') ∧
      Filter.Leaves how stride start stop boundary (recordKeys s.toList stride start stop) c c') ∧
    (stride = 1 → ∀ how, ∃ c', c.ThinsTo boundary c' ∧
      s.filter how boundary start stop c = .ok c' ∧
      (∀ s', s'.WellFormed → s.SameLayout s' → recordKeys s'.toList 1 start stop = recordKeys s.toList 1 start stop →
        s'.filter how boundary start stop c = .ok c') ∧
      ∀ a, s = paged a → start < stop → Loop (a.pageRound how boundary stop) (start, c) c') := by
  refine ⟨fun how => search_sound hs hr how key, bound_sound hs hr key, ?_,
    fun how => filterRecords_thins hs hr hc how boundary, ?_⟩
  · rintro rfl
    exact firstBound_sound hs hr key
  · rintro rfl how
    exact filter_thins hs hr hc how boundary

/-- Words in no order on two pages. A search is led astray by the `5` and misses the `4`, and does so behind a fence. -/
theorem lookups_safe_in_any_order_on_two_pages :
    ∃ a, Paged.ofWords .generous (.even 2) (#[.ofInt 5, .ofInt 1, .ofInt 4, .ofInt 2] : Words .w32) = .ok (.ok a) ∧
      (paged a).search .linear (.ofInt 4) 0 4 = .ok (.missing 0) ∧
      Search.search .linear (Fenced.around 1 0 4 (a.toList.toArray : Words .w32)) (.ofInt 4) 0 4 = .ok (.missing 0) ∧
      (∃ p ≤ 4, (paged a).bound .linear (.ofInt 4) 0 4 = .ok p) ∧
      ∃ c', (paged a).filter .retain (.ofInt 4) 0 4 (.ofWords #[.ofInt 4, .ofInt 5]) = .ok c' ∧
        (Candidates.ofWords #[.ofInt 4, .ofInt 5]).ThinsTo (.ofInt 4) c' ∧
        Loop (a.pageRound .retain (.ofInt 4) 4) (0, .ofWords #[.ofInt 4, .ofInt 5]) c' := by
  have hp : (Partition.even 2).Valid := ⟨by decide, by decide⟩
  have hn : (#[.ofInt 5, .ofInt 1, .ofInt 4, .ofInt 2] : Words .w32).size < 2 ^ 63 := by decide
  obtain ⟨a, ha⟩ := Paged.ofWords_eq_ok hp hn (Host.generous_grantsMemory (by decide))
  obtain ⟨hready, -, hsize, hl⟩ := Paged.ofWords_spec hp hn ha
  have hlen : 4 ≤ (paged a).toList.length := by
    show 4 ≤ a.toList.length
    rw [hl]
    decide
  have hr : RecordRange (paged a).toList 1 0 4 := .one (by decide) hlen
  have hc : (Candidates.ofWords (k := .w32) #[.ofInt 4, .ofInt 5]).WellFormed := ⟨by decide, by decide, by decide⟩
  obtain ⟨hsearch, -, hbound, -, hfilter⟩ := lookups_safe_in_any_order (s := paged a)
    ⟨hready.wellFormed, hready.size_lt⟩ hr hc (.ofInt 4) (.ofInt 4)
  obtain ⟨r, -, -, hone, hrun⟩ := hsearch .linear
  have hfenced : Cells.HoldsKeys (Fenced.around 1 0 4 (a.toList.toArray : Words .w32)) 1 0 4
      (recordKeys (paged a).toList 1 0 4) :=
    ⟨Fenced.showsKeys (a := Fenced.around 1 0 4 _) Nat.one_pos (Nat.le_of_eq hr.add_keys) (holdsKeys hr).keys, hlen⟩
  have hmiss : Search.search .linear (a.toList.toArray : Words .w32) (.ofInt 4) 0 4 = .ok (.missing 0) := by
    rw [hl]
    rfl
  cases ((hrun (holdsKeys hr)).2.1 rfl).symm.trans hmiss
  obtain ⟨p, -, hp, hfirst, -⟩ := hbound rfl
  obtain ⟨c', hthins, hrun', -, hloop⟩ := hfilter rfl .retain
  exact ⟨a, ha, hone rfl, (hrun hfenced).2.1 rfl, ⟨p, hp, hfirst⟩, c', hrun', hthins, hloop a rfl (by decide)⟩

end Store
end PagedWords
