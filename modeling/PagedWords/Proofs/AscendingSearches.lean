import PagedWords.Proofs.ShownKeys
import PagedWords.Proofs.StoreSearches

/-!
# Searches of records in ascending order

A scan finds the first key that is not below the one searched for, in any order of the keys. A bisection knows of the
records before `low` that they are below and of those from `high` on that they are not, so what the scan of the records
between them finds is what a scan of all the records finds, unless a record with the key was met on the way.
-/
namespace PagedWords
variable {k : Width}

/-- Where the first record begins whose key is as `p` says; the end of the range, if there is none. -/
def firstRecord (l : List (Word k)) (stride start stop : Nat) (p : Word k → Bool) : Nat :=
  start + (recordKeys l stride start stop).findIdx p * stride

/-- At `pos` begins a record of the range, and it has the key. -/
structure KeyAt (l : List (Word k)) (stride start stop : Nat) (key : Word k) (pos : Nat) : Prop where
  start_le : start ≤ pos
  lt_stop : pos < stop
  whole : (pos - start) % stride = 0
  word : l[pos]? = some key

section Keys
variable {l : List (Word k)} {stride : Nat}

private theorem getElem?_keysFrom (hs : 0 < stride) {n pos i : Nat} (hi : i < n) (hl : pos + n * stride ≤ l.length) :
    ((recordsFrom l stride n pos).map recordKey)[i]? = l[pos + i * stride]? := by
  obtain ⟨m, rfl⟩ : ∃ m, n = i + (m + 1) := ⟨n - i - 1, by omega⟩
  rw [Nat.add_mul, Nat.succ_mul] at hl
  have hlt : pos + i * stride < l.length := by omega
  rw [recordsFrom_add, List.map_append, List.getElem?_append_right (by simp), List.length_map, length_recordsFrom,
    Nat.sub_self, recordsFrom, List.map_cons, recordKey_stretch hs hlt, List.getElem?_eq_getElem hlt]
  rfl

end Keys

theorem findIdx_cons_of_le {key w : Word k} (h : key ≤ w) (ks : List (Word k)) :
    (w :: ks).findIdx (key ≤ ·) = 0 := by
  simp [List.findIdx_cons, h]

theorem findIdx_cons_of_lt {key w : Word k} (h : w < key) (ks : List (Word k)) :
    (w :: ks).findIdx (key ≤ ·) = ks.findIdx (key ≤ ·) + 1 := by
  simp [List.findIdx_cons, Word.not_le.2 h]

theorem le_getElem_of_sorted {ks : List (Word k)} (hsorted : ks.Pairwise (· ≤ ·)) {i : Nat} (hi : i < ks.length) :
    (∀ x ∈ ks.take i, x ≤ ks[i]) ∧ ∀ x ∈ ks.drop i, ks[i] ≤ x := by
  have hsplit := hsorted
  rw [← List.take_append_drop i ks, List.drop_eq_getElem_cons hi, List.pairwise_append] at hsplit
  obtain ⟨-, hdrop, hcross⟩ := hsplit
  refine ⟨fun x hx => hcross x hx _ List.mem_cons_self, ?_⟩
  intro x hx
  rw [List.drop_eq_getElem_cons hi] at hx
  rcases List.mem_cons.1 hx with rfl | hx
  · exact Std.le_refl _
  · exact List.rel_of_pairwise_cons hdrop hx

/-- The keys `ks` before number `low` are below `key`, and those from number `high` on are not. -/
structure Narrowed (ks : List (Word k)) (key : Word k) (low high : Nat) : Prop where
  le : low ≤ high
  le_length : high ≤ ks.length
  below : ∀ x ∈ ks.take low, x < key
  above : ∀ x ∈ ks.drop high, key ≤ x

namespace Narrowed
variable {ks : List (Word k)} {key : Word k} {low mid high : Nat}

theorem all (ks : List (Word k)) (key : Word k) : Narrowed ks key 0 ks.length where
  le := Nat.zero_le _
  le_length := Nat.le_refl _
  below := by simp
  above := by simp

theorem findIdx_eq (h : Narrowed ks key low high) :
    ks.findIdx (key ≤ ·) = low + (stretch ks low (high - low)).findIdx (key ≤ ·) := by
  have hle := h.le
  have hlen := h.le_length
  have hlow : (ks.take low).length = low := by
    rw [List.length_take]
    omega
  have hbelow : (ks.take low).findIdx (key ≤ ·) = low := by
    rw [List.findIdx_eq_length_of_false, hlow]
    intro x hx
    exact decide_eq_false (Word.not_le.2 (h.below x hx))
  have habove : (ks.drop high).findIdx (key ≤ ·) = 0 := by
    cases hdrop : ks.drop high with
    | nil => rfl
    | cons x xs =>
      have hx : key ≤ x := h.above x (hdrop ▸ List.mem_cons_self)
      exact findIdx_cons_of_le hx xs
  have hmid : (stretch ks low (high - low)).findIdx (key ≤ ·) ≤ (stretch ks low (high - low)).length :=
    List.findIdx_le_length
  conv => lhs; rw [← take_stretch_drop ks hle]
  rw [List.append_assoc, List.findIdx_append, hbelow, hlow, if_neg (Nat.lt_irrefl _), List.findIdx_append, habove]
  split
  · omega
  · omega

section Step
variable (h : Narrowed ks key low high) (hsorted : ks.Pairwise (· ≤ ·))
include h hsorted

private theorem raise (hmid : mid < ks.length) (hhigh : mid < high) (hlt : ks[mid] < key) :
    Narrowed ks key (mid + 1) high := by
  refine ⟨hhigh, h.le_length, ?_, h.above⟩
  intro x hx
  rw [List.take_succ_eq_append_getElem hmid] at hx
  rcases List.mem_append.1 hx with hx | hx
  · exact Std.lt_of_le_of_lt ((le_getElem_of_sorted hsorted hmid).1 x hx) hlt
  · rw [List.mem_singleton.1 hx]
    exact hlt

private theorem lower (hmid : mid < ks.length) (hlow : low ≤ mid) (hle : key ≤ ks[mid]) : Narrowed ks key low mid :=
  ⟨hlow, Nat.le_of_lt hmid, h.below, fun x hx => Std.le_trans hle ((le_getElem_of_sorted hsorted hmid).2 x hx)⟩

theorem halve (hlt : low < high) : ∃ hmid : low + (high - low) / 2 < ks.length,
    (ks[low + (high - low) / 2] < key → Narrowed ks key (low + (high - low) / 2 + 1) high) ∧
    (key ≤ ks[low + (high - low) / 2] → Narrowed ks key low (low + (high - low) / 2)) := by
  have hlen := h.le_length
  have hhigh : low + (high - low) / 2 < high := by omega
  have hmid := Nat.lt_of_lt_of_le hhigh hlen
  exact ⟨hmid, h.raise hsorted hmid hhigh, h.lower hsorted hmid (Nat.le_add_right _ _)⟩

end Step

end Narrowed

/-- What is found at the first of the keys `ks` that is not below `key`, where the records begin at `start`. -/
def Finding.atFirst (stride start : Nat) (key : Word k) (ks : List (Word k)) : Finding :=
  if ks[ks.findIdx (key ≤ ·)]? = some key then .found (start + ks.findIdx (key ≤ ·) * stride)
  else .missing (start + ks.findIdx (key ≤ ·) * stride)

private theorem Finding.atFirst_cons (stride start : Nat) (key w : Word k) (ks : List (Word k)) :
    atFirst stride start key (w :: ks) =
      if w = key then .found start else if key < w then .missing start else atFirst stride (start + stride) key ks := by
  by_cases hle : key ≤ w
  · rw [atFirst, findIdx_cons_of_le hle, List.getElem?_cons_zero, Nat.zero_mul, Nat.add_zero]
    by_cases heq : w = key
    · rw [heq, if_pos rfl, if_pos rfl]
    · have hlt : key < w := by grind
      rw [if_neg heq, if_neg (fun h => heq (Option.some.inj h)), if_pos hlt]
  · have hplace : start + (ks.findIdx (key ≤ ·) + 1) * stride = start + stride + ks.findIdx (key ≤ ·) * stride := by
      rw [Nat.succ_mul]
      omega
    have hlt : w < key := Word.not_le.1 hle
    rw [if_neg (Std.ne_of_lt hlt), if_neg (Word.not_lt.2 (Std.le_of_lt hlt)), atFirst, atFirst,
      findIdx_cons_of_lt hlt, List.getElem?_cons_succ, hplace]

private theorem Narrowed.atFirst_eq {ks : List (Word k)} {key : Word k} {low high : Nat} (h : Narrowed ks key low high)
    (habsent : key ∉ ks.drop high) (stride start : Nat) :
    Finding.atFirst stride (start + low * stride) key (stretch ks low (high - low)) =
      Finding.atFirst stride start key ks := by
  obtain ⟨i, hi⟩ : ∃ i, i = (stretch ks low (high - low)).findIdx (key ≤ ·) := ⟨_, rfl⟩
  have hall : ks.findIdx (key ≤ ·) = low + i := by rw [hi, h.findIdx_eq]
  have hplace : start + low * stride + i * stride = start + (low + i) * stride := by rw [Nat.add_mul, Nat.add_assoc]
  have hword : (stretch ks low (high - low))[i]? = some key ↔ ks[low + i]? = some key := by
    rw [getElem?_stretch]
    by_cases hlt : i < high - low
    · rw [if_pos hlt]
    · rw [if_neg hlt]
      refine ⟨fun hnone => (nomatch hnone), fun hkey => absurd ?_ habsent⟩
      have hle := h.le
      rw [List.mem_iff_getElem?]
      refine ⟨low + i - high, ?_⟩
      rw [List.getElem?_drop, ← hkey]
      congr 1
      omega
  rw [Finding.atFirst, Finding.atFirst, hall, ← hi, hplace]
  simp only [hword]

namespace Search
variable {σ : Type} [Cells σ k] {a : σ} {stride start stop : Nat} {ks : List (Word k)}

section Scans
variable (key : Word k)

theorem scan_eq {pos : Nat} (hks : Cells.ShowsKeys a stride pos ks) (hstop : pos + ks.length * stride = stop) :
    scan a stride key stop ks.length pos = .ok (.atFirst stride pos key ks) := by
  induction ks generalizing pos with
  | nil =>
    rw [← hstop]
    rfl
  | cons w ks ih =>
    rw [List.length_cons, Nat.succ_mul] at hstop
    simp only [List.length_cons, scan, hks.head, bind, Except.bind, pure, Except.pure, Finding.atFirst_cons]
    by_cases heq : w = key
    · rw [if_pos heq, if_pos heq]
    rw [if_neg heq, if_neg heq]
    by_cases hgt : key < w
    · rw [if_pos hgt, if_pos hgt]
    · rw [if_neg hgt, if_neg hgt]
      exact ih hks.tail (by omega)

theorem firstNotBelow_eq {pos : Nat} (hks : Cells.ShowsKeys a 1 pos ks) (hstop : pos + ks.length = stop) :
    firstNotBelow a key stop ks.length pos = .ok (pos + ks.findIdx (key ≤ ·)) := by
  induction ks generalizing pos with
  | nil =>
    rw [← hstop]
    rfl
  | cons w ks ih =>
    rw [List.length_cons] at hstop
    simp only [List.length_cons, firstNotBelow, hks.head, bind, Except.bind, pure, Except.pure]
    by_cases hbelow : w < key
    · rw [if_pos hbelow, findIdx_cons_of_lt hbelow, ih hks.tail (by omega), Nat.add_right_comm, Nat.add_assoc]
    · rw [if_neg hbelow, findIdx_cons_of_le (Word.not_lt.1 hbelow), Nat.add_zero]

private theorem skipBelow_eq {low : Nat} (hks : Cells.ShowsKeys a stride (start + low * stride) ks) :
    skipBelow a stride key start ks.length low = .ok (low + ks.findIdx (key ≤ ·)) := by
  induction ks generalizing low with
  | nil => rfl
  | cons w ks ih =>
    have hnext : start + low * stride + stride = start + (low + 1) * stride := by rw [Nat.succ_mul, Nat.add_assoc]
    simp only [List.length_cons, skipBelow, hks.head, bind, Except.bind, pure, Except.pure]
    by_cases hbelow : w < key
    · rw [if_pos hbelow, findIdx_cons_of_lt hbelow, ih (hnext ▸ hks.tail), Nat.add_right_comm, Nat.add_assoc]
    · rw [if_neg hbelow, findIdx_cons_of_le (Word.not_lt.1 hbelow), Nat.add_zero]

variable (hks : Cells.ShowsKeys a stride start ks) {low high : Nat} (hle : low ≤ high) (hl : high ≤ ks.length)
include hks hle hl

theorem scanBetween_eq : scanBetween a stride key start low high =
    .ok (.atFirst stride (start + low * stride) key (stretch ks low (high - low))) := by
  have hlen : (stretch ks low (high - low)).length = high - low := length_stretch (by omega)
  have hspan : low * stride + (high - low) * stride = high * stride := by rw [← Nat.add_mul, Nat.add_sub_of_le hle]
  have hend : start + low * stride + (stretch ks low (high - low)).length * stride = start + high * stride := by
    rw [hlen]
    omega
  have hscan := scan_eq key (hks.between hle hl) hend
  rwa [hlen] at hscan

theorem skipBetween_eq : skipBelow a stride key start (high - low) low =
    .ok (low + (stretch ks low (high - low)).findIdx (key ≤ ·)) := by
  have hlen : (stretch ks low (high - low)).length = high - low := length_stretch (by omega)
  have hskip := skipBelow_eq key (hks.between hle hl)
  rwa [hlen] at hskip

end Scans

section Halving
variable {key : Word k} (hks : Cells.ShowsKeys a stride start ks) (hsorted : ks.Pairwise (· ≤ ·))
include hks hsorted

private theorem bisectFrom_cases (fuel : Nat) : ∀ {low high : Nat}, Narrowed ks key low high → key ∉ ks.drop high →
    bisectFrom a stride key start fuel low high = .ok (.atFirst stride start key ks) ∨
      ∃ i, ks[i]? = some key ∧ bisectFrom a stride key start fuel low high = .ok (.found (start + i * stride)) := by
  have hscan : ∀ {low high : Nat}, Narrowed ks key low high → key ∉ ks.drop high →
      scanBetween a stride key start low high = .ok (.atFirst stride start key ks) := by
    intro low high h habsent
    rw [scanBetween_eq key hks h.le h.le_length, h.atFirst_eq habsent]
  induction fuel with
  | zero =>
    intro low high h habsent
    exact .inl (hscan h habsent)
  | succ fuel ih =>
    intro low high h habsent
    rw [bisectFrom]
    by_cases hlong : k.linearCutoff ≤ high - low
    · have hcut := k.linearCutoff_pos
      obtain ⟨hmid, hraise, hlower⟩ := h.halve hsorted (by omega)
      rw [if_pos hlong]
      simp only [hks _ hmid, bind, Except.bind, pure, Except.pure]
      by_cases hbelow : ks[low + (high - low) / 2] < key
      · rw [if_pos hbelow]
        exact ih (hraise hbelow) habsent
      rw [if_neg hbelow]
      by_cases habove : key < ks[low + (high - low) / 2]
      · rw [if_pos habove]
        refine ih (hlower (Std.le_of_lt habove)) ?_
        intro hmem
        exact Word.not_le.2 habove ((le_getElem_of_sorted hsorted hmid).2 key hmem)
      · rw [if_neg habove]
        have heq : ks[low + (high - low) / 2] = key := Std.le_antisymm (Word.not_lt.1 habove) (Word.not_lt.1 hbelow)
        exact .inr ⟨_, by rw [List.getElem?_eq_getElem hmid, heq], rfl⟩
    · rw [if_neg hlong]
      exact .inl (hscan h habsent)

private theorem boundFrom_eq (fuel : Nat) : ∀ {low high : Nat}, Narrowed ks key low high →
    boundFrom a stride key start fuel low high = .ok (ks.findIdx (key ≤ ·)) := by
  have hskip : ∀ {low high : Nat}, Narrowed ks key low high →
      skipBelow a stride key start (high - low) low = .ok (ks.findIdx (key ≤ ·)) := by
    intro low high h
    rw [skipBetween_eq key hks h.le h.le_length, ← h.findIdx_eq]
  induction fuel with
  | zero =>
    intro low high h
    exact hskip h
  | succ fuel ih =>
    intro low high h
    rw [boundFrom]
    by_cases hlong : k.linearCutoff ≤ high - low
    · have hcut := k.linearCutoff_pos
      obtain ⟨hmid, hraise, hlower⟩ := h.halve hsorted (by omega)
      rw [if_pos hlong]
      simp only [hks _ hmid, bind, Except.bind]
      by_cases hbelow : ks[low + (high - low) / 2] < key
      · rw [if_pos hbelow]
        exact ih (hraise hbelow)
      · rw [if_neg hbelow]
        exact ih (hlower (Word.not_lt.1 hbelow))
    · rw [if_neg hlong]
      exact hskip h

end Halving

section Ranges
variable {l : List (Word k)} (ha : Cells.Reads a l) (hr : RecordRange l stride start stop)
include ha hr

private theorem searchRecords_one (how : Strategy) (key : Word k) (hone : stride = 1) :
    searchRecords how a stride key start stop = .ok <$> search how a key start stop := by
  subst hone
  unfold searchRecords
  rw [ha.size, hr.check, whenValid_ok]
  cases how with
  | linear => simp only [Nat.div_one]; rfl
  | bisect => rfl

private theorem scanRecords_eq (key : Word k) : searchRecords .linear a stride key start stop =
    .ok (.ok (.atFirst stride start key (recordKeys l stride start stop))) := by
  have hlen : (recordKeys l stride start stop).length = (stop - start) / stride := length_recordKeys start stop
  have hscan := scan_eq key (ha.showsRange hr) hr.add_keys
  rw [hlen] at hscan
  rw [searchRecords, ha.size, hr.check, whenValid_ok]
  exact congrArg (Except.map Except.ok) hscan

variable (hsorted : (recordKeys l stride start stop).Pairwise (· ≤ ·)) (key : Word k)
include hsorted

private theorem bisect_cases :
    bisect a stride key start stop = .ok (.atFirst stride start key (recordKeys l stride start stop)) ∨
      ∃ i, (recordKeys l stride start stop)[i]? = some key ∧
        bisect a stride key start stop = .ok (.found (start + i * stride)) := by
  rw [bisect]
  split
  · next hempty =>
    rw [recordKeys_of_le hempty, Finding.atFirst, List.findIdx_nil, Nat.zero_mul, Nat.add_zero]
    exact .inl rfl
  · have hnone : key ∉ (recordKeys l stride start stop).drop (recordKeys l stride start stop).length := by
      rw [List.drop_length]
      exact List.not_mem_nil
    rw [← length_recordKeys (l := l) start stop]
    exact bisectFrom_cases (ha.showsRange hr) hsorted _ (.all _ key) hnone

private theorem bisectRecords_cases : ∃ r, searchRecords .bisect a stride key start stop = .ok (.ok r) ∧
    (r = .atFirst stride start key (recordKeys l stride start stop) ∨
      ∃ i, (recordKeys l stride start stop)[i]? = some key ∧ r = .found (start + i * stride)) := by
  rw [searchRecords, ha.size, hr.check, whenValid_ok]
  rcases bisect_cases ha hr hsorted key with hrun | ⟨i, hi, hrun⟩
  · exact ⟨_, congrArg (Except.map Except.ok) hrun, .inl rfl⟩
  · exact ⟨_, congrArg (Except.map Except.ok) hrun, .inr ⟨i, hi, rfl⟩⟩

theorem lowerBound_eq : lowerBound a stride key start stop = .ok (firstRecord l stride start stop (key ≤ ·)) := by
  rw [lowerBound, firstRecord]
  split
  · next hempty => rw [recordKeys_of_le hempty, List.findIdx_nil, Nat.zero_mul, Nat.add_zero]
  · have hbound : boundFrom a stride key start ((stop - start) / stride) 0 ((stop - start) / stride) =
        .ok ((recordKeys l stride start stop).findIdx (key ≤ ·)) := by
      rw [← length_recordKeys (l := l) start stop]
      exact boundFrom_eq (ha.showsRange hr) hsorted _ (.all _ key)
    simp only [hbound, bind, Except.bind, pure, Except.pure]
    split
    · next hend => rw [hend, hr.add_count]
    · rfl

private theorem boundRecords_eq :
    boundRecords a stride key start stop = .ok (.ok (firstRecord l stride start stop (key ≤ ·))) := by
  rw [boundRecords, ha.size, hr.check, whenValid_ok, lowerBound_eq ha hr hsorted]
  rfl

private theorem bound_eq (how : Strategy) (hone : stride = 1) :
    bound how a key start stop = .ok (firstRecord l stride start stop (key ≤ ·)) := by
  subst hone
  cases how with
  | bisect => exact lowerBound_eq ha hr hsorted key
  | linear =>
    have hlen : (recordKeys l 1 start stop).length = stop - start := by rw [length_recordKeys, Nat.div_one]
    have hend : start + (recordKeys l 1 start stop).length = stop := by rw [hlen, Nat.add_sub_of_le hr.le]
    have hfirst := firstNotBelow_eq key (ha.showsRange hr) hend
    rw [hlen] at hfirst
    rw [bound, hfirst, firstRecord, Nat.mul_one]

end Ranges

end Search

section Order
variable {ks : List (Word k)} {key : Word k}

theorem findIdx_le_of_mem (hsorted : ks.Pairwise (· ≤ ·)) (hmem : key ∈ ks) :
    ks[ks.findIdx (key ≤ ·)]? = some key ∧ ks.findIdx (key ≤ ·) = ks.findIdx (· = key) := by
  have hlt : ks.findIdx (key ≤ ·) < ks.length :=
    List.findIdx_lt_length.2 ⟨key, hmem, decide_eq_true (Std.le_refl key)⟩
  have hle : key ≤ ks[ks.findIdx (key ≤ ·)] := of_decide_eq_true (List.findIdx_getElem (w := hlt))
  have hbelow : ∀ (j : Nat) (hj : j < ks.findIdx (key ≤ ·)), ks[j] < key :=
    fun j hj => Word.not_le.1 (of_decide_eq_false (List.not_of_lt_findIdx hj))
  have hge : ks[ks.findIdx (key ≤ ·)] ≤ key := by
    obtain ⟨j, hj, hkey⟩ := List.getElem_of_mem hmem
    by_cases hfirst : j < ks.findIdx (key ≤ ·)
    · exact absurd hkey (Std.ne_of_lt (hbelow j hfirst))
    · refine (le_getElem_of_sorted hsorted hlt).2 key ?_
      rw [List.mem_iff_getElem?]
      refine ⟨j - ks.findIdx (key ≤ ·), ?_⟩
      rw [List.getElem?_drop, Nat.add_sub_of_le (Nat.le_of_not_lt hfirst), List.getElem?_eq_getElem hj, hkey]
  have heq : ks[ks.findIdx (key ≤ ·)] = key := Std.le_antisymm hge hle
  refine ⟨by rw [List.getElem?_eq_getElem hlt, heq], Eq.symm ?_⟩
  rw [List.findIdx_eq hlt]
  exact ⟨decide_eq_true heq, fun j hj => decide_eq_false (Std.ne_of_lt (hbelow j hj))⟩

private theorem findIdx_le_of_not_mem (h : key ∉ ks) : ks.findIdx (key ≤ ·) = ks.findIdx (key < ·) := by
  induction ks with
  | nil => rfl
  | cons w ks ih =>
    have hw : key ≤ w ↔ key < w := by
      have hne : key ≠ w := fun heq => h (heq ▸ List.mem_cons_self)
      grind
    rw [List.findIdx_cons, List.findIdx_cons, decide_eq_decide.2 hw, ih (fun hmem => h (List.mem_cons_of_mem w hmem))]

private theorem Finding.atFirst_of_mem (stride start : Nat) (hsorted : ks.Pairwise (· ≤ ·)) (hmem : key ∈ ks) :
    atFirst stride start key ks = .found (start + ks.findIdx (· = key) * stride) ∧
      ks[ks.findIdx (· = key)]? = some key := by
  obtain ⟨hword, hfirst⟩ := findIdx_le_of_mem hsorted hmem
  rw [atFirst, if_pos hword]
  rw [hfirst] at hword ⊢
  exact ⟨rfl, hword⟩

private theorem Finding.atFirst_of_not_mem (stride start : Nat) (h : key ∉ ks) :
    atFirst stride start key ks = .missing (start + ks.findIdx (key < ·) * stride) := by
  rw [atFirst, if_neg (fun hword => h (List.mem_of_getElem? hword)), findIdx_le_of_not_mem h]

end Order

theorem KeyAt.of_key {l : List (Word k)} {stride start stop i : Nat} {key : Word k}
    (hr : RecordRange l stride start stop)
    (h : (recordKeys l stride start stop)[i]? = some key) : KeyAt l stride start stop key (start + i * stride) := by
  have hcount := hr.add_count
  have hstop := hr.le_length
  have hpos := hr.pos
  have hi : i < (stop - start) / stride := by
    rw [← length_recordKeys (l := l) start stop]
    exact (List.getElem?_eq_some_iff.1 h).1
  have hrecord : (i + 1) * stride ≤ (stop - start) / stride * stride := Nat.mul_le_mul_right _ hi
  rw [Nat.succ_mul] at hrecord
  refine ⟨Nat.le_add_right _ _, by omega, ?_, ?_⟩
  · rw [Nat.add_sub_cancel_left, Nat.mul_mod_left]
  · rw [← h, recordKeys, records, getElem?_keysFrom hpos hi (by omega)]

namespace Store
variable {s : Store k} {stride start stop : Nat}

theorem search_of_records (hs : s.WellFormed) (hr : RecordRange s.toList stride start stop) {how : Strategy}
    {key : Word k} {r : Finding} (hone : stride = 1)
    (h : s.searchRecords how stride key start stop = .ok (.ok r)) : s.search how key start stop = .ok r := by
  subst hone
  have hl := hr.le_length
  rw [length_toList hs] at hl
  obtain ⟨r₁, hrecords, -, hflat⟩ := searchRecords_flat hs how 1 key start stop
  obtain ⟨r₂, hsearch, -, hflat'⟩ := search_flat hs how key hr.le hl
  cases Except.ok.inj (hrecords.symm.trans h)
  rw [Search.searchRecords_one (Words.reads s.toList.toArray) hr how key rfl, hflat'] at hflat
  cases Except.ok.inj hflat
  exact hsearch

/-- Where a record has the key the scan finds the first such record and the bisection one of them; where none has it,
both find the first record with a larger key, or the end of the range. -/
theorem searches_find_key (hs : s.WellFormed) (hr : RecordRange s.toList stride start stop)
    (hsorted : (recordKeys s.toList stride start stop).Pairwise (· ≤ ·)) (key : Word k) :
    ∃ scanned bisected : Finding,
      (s.searchRecords .linear stride key start stop = .ok (.ok scanned) ∧
        s.searchRecords .bisect stride key start stop = .ok (.ok bisected)) ∧
      (stride = 1 → s.search .linear key start stop = .ok scanned ∧ s.search .bisect key start stop = .ok bisected) ∧
      (key ∈ recordKeys s.toList stride start stop → ∃ p q, scanned = .found p ∧ bisected = .found q ∧
        p = firstRecord s.toList stride start stop (· = key) ∧ KeyAt s.toList stride start stop key p ∧
        KeyAt s.toList stride start stop key q) ∧
      (key ∉ recordKeys s.toList stride start stop → scanned = bisected ∧
        bisected = .missing (firstRecord s.toList stride start stop (key < ·))) := by
  have hwords : Cells.Reads (s.toList.toArray : Words k) s.toList := Words.reads _
  obtain ⟨r, hscan, -, hflat⟩ := searchRecords_flat hs .linear stride key start stop
  rw [Search.scanRecords_eq hwords hr] at hflat
  cases Except.ok.inj hflat
  obtain ⟨r, hbisect, -, hflat⟩ := searchRecords_flat hs .bisect stride key start stop
  obtain ⟨bisected, hflat', hcases⟩ := Search.bisectRecords_cases hwords hr hsorted key
  cases Except.ok.inj (hflat.symm.trans hflat')
  refine ⟨_, bisected, ⟨hscan, hbisect⟩,
    fun hone => ⟨search_of_records hs hr hone hscan, search_of_records hs hr hone hbisect⟩, ?_, ?_⟩
  · intro hmem
    obtain ⟨hfirst, hword⟩ := Finding.atFirst_of_mem stride start hsorted hmem
    rcases hcases with hsame | ⟨i, hi, hfound⟩
    · exact ⟨_, _, hfirst, hsame.trans hfirst, rfl, .of_key hr hword, .of_key hr hword⟩
    · exact ⟨_, _, hfirst, hfound, rfl, .of_key hr hword, .of_key hr hi⟩
  · intro habsent
    rcases hcases with hsame | ⟨i, hi, -⟩
    · exact ⟨hsame.symm, hsame.trans (Finding.atFirst_of_not_mem stride start habsent)⟩
    · exact absurd (List.mem_of_getElem? hi) habsent

/-- Forty equal words: the scan finds the first of them, the bisection the one in the middle, and neither a larger
word. -/
theorem searches_find_key_of_equal_words :
    ∃ s : Store .w64, s = slice (Array.replicate 40 .zero) ∧
      (s.search .linear .zero 0 40 = .ok (.found 0) ∧ s.search .bisect .zero 0 40 = .ok (.found 20) ∧
        KeyAt s.toList 1 0 40 .zero 20) ∧
      s.searchRecords .linear 1 (.ofInt 1) 0 40 = .ok (.ok (.missing 40)) ∧
      s.searchRecords .bisect 1 (.ofInt 1) 0 40 = .ok (.ok (.missing 40)) := by
  obtain ⟨s, hs⟩ : ∃ s : Store .w64, s = slice (Array.replicate 40 .zero) := ⟨_, rfl⟩
  have hwf : s.WellFormed := by
    rw [hs]
    exact (by decide : 40 < 2 ^ 63)
  have hr : RecordRange s.toList 1 0 40 := .one (by decide) (by rw [hs]; decide)
  have hkeys : recordKeys s.toList 1 0 40 = List.replicate 40 .zero := by
    rw [hs]
    rfl
  have hsorted : (recordKeys s.toList 1 0 40).Pairwise (· ≤ ·) := by
    rw [hkeys]
    exact List.pairwise_replicate.2 (.inr (Std.le_refl _))
  obtain ⟨r, r', -, hone, hmem, -⟩ := searches_find_key hwf hr hsorted .zero
  obtain ⟨hscan, hbisect⟩ := hone rfl
  obtain ⟨p, q, rfl, rfl, rfl, -, hq⟩ := hmem (by rw [hkeys]; decide)
  obtain ⟨r, r', ⟨hscan', hbisect'⟩, -, -, habsent⟩ := searches_find_key hwf hr hsorted (.ofInt 1)
  obtain ⟨rfl, rfl⟩ := habsent (by rw [hkeys]; decide)
  have hmiddle : s.search .bisect .zero 0 40 = .ok (.found 20) := by
    rw [hs]
    rfl
  cases hbisect.symm.trans hmiddle
  have hfirst : firstRecord s.toList 1 0 40 (· = .zero) = 0 := by
    rw [firstRecord, hkeys]
    decide
  have hend : firstRecord s.toList 1 0 40 (.ofInt 1 < ·) = 40 := by
    rw [firstRecord, hkeys]
    decide
  rw [hfirst] at hscan
  rw [hend] at hscan' hbisect'
  exact ⟨s, hs, ⟨hscan, hmiddle, hq⟩, hscan', hbisect'⟩

/-- Of records in ascending order the bound is the first that is not below the key, however many have that key; if all
are below, it is the end of the range. -/
theorem bounds_find_first (hs : s.WellFormed) (hr : RecordRange s.toList stride start stop)
    (hsorted : (recordKeys s.toList stride start stop).Pairwise (· ≤ ·)) (key : Word k) :
    ∃ p, p = firstRecord s.toList stride start stop (key ≤ ·) ∧
      s.boundRecords stride key start stop = .ok (.ok p) ∧
      (stride = 1 → ∀ how, s.bound how key start stop = .ok p) ∧
      ((∀ x ∈ recordKeys s.toList stride start stop, x < key) → p = stop) ∧
      (key ∈ recordKeys s.toList stride start stop →
        p = firstRecord s.toList stride start stop (· = key) ∧ KeyAt s.toList stride start stop key p) := by
  have hwords : Cells.Reads (s.toList.toArray : Words k) s.toList := Words.reads _
  have hl := hr.le_length
  rw [length_toList hs] at hl
  refine ⟨_, rfl, ?_, ?_, ?_, ?_⟩
  · obtain ⟨r, hrun, -, hflat⟩ := boundRecords_flat hs stride key start stop
    rw [Search.boundRecords_eq hwords hr hsorted] at hflat
    cases Except.ok.inj hflat
    exact hrun
  · intro hone how
    obtain ⟨p, hrun, -, hflat⟩ := bound_flat hs how key hr.le hl
    rw [Search.bound_eq hwords hr hsorted key how hone] at hflat
    cases Except.ok.inj hflat
    exact hrun
  · intro hbelow
    have hnone : (recordKeys s.toList stride start stop).findIdx (key ≤ ·) = (stop - start) / stride := by
      rw [List.findIdx_eq_length_of_false, length_recordKeys]
      exact fun x hx => decide_eq_false (Word.not_le.2 (hbelow x hx))
    rw [firstRecord, hnone, hr.add_count]
  · intro hmem
    obtain ⟨hword, hfirst⟩ := findIdx_le_of_mem hsorted hmem
    exact ⟨by rw [firstRecord, firstRecord, hfirst], .of_key hr hword⟩

/-- Forty pairs with the same key: the bound is the first of them, and for a larger key the end of the range. -/
theorem bounds_find_first_of_equal_pairs :
    ∃ s : Store .w64, s = slice (Array.replicate 81 .zero) ∧
      s.boundRecords 2 .zero 1 81 = .ok (.ok 1) ∧ s.boundRecords 2 (.ofInt 1) 1 81 = .ok (.ok 81) := by
  obtain ⟨s, hs⟩ : ∃ s : Store .w64, s = slice (Array.replicate 81 .zero) := ⟨_, rfl⟩
  have hwf : s.WellFormed := by
    rw [hs]
    exact (by decide : 81 < 2 ^ 63)
  have hr : RecordRange s.toList 2 1 81 := ⟨by decide, by decide, by rw [hs]; decide, by decide⟩
  have hkeys : recordKeys s.toList 2 1 81 = List.replicate 40 .zero := by
    rw [hs]
    rfl
  have hsorted : (recordKeys s.toList 2 1 81).Pairwise (· ≤ ·) := by
    rw [hkeys]
    exact List.pairwise_replicate.2 (.inr (Std.le_refl _))
  obtain ⟨p, -, hrun, -, -, hmem⟩ := bounds_find_first hwf hr hsorted .zero
  obtain ⟨rfl, -⟩ := hmem (by rw [hkeys]; decide)
  have hfirst : firstRecord s.toList 2 1 81 (· = .zero) = 1 := by
    rw [firstRecord, hkeys]
    decide
  rw [hfirst] at hrun
  obtain ⟨q, -, hrun', -, hend, -⟩ := bounds_find_first hwf hr hsorted (.ofInt 1)
  have hbelow : ∀ x ∈ recordKeys s.toList 2 1 81, x < .ofInt 1 := by
    rw [hkeys]
    decide
  rw [hend hbelow] at hrun'
  exact ⟨s, hs, hrun, hrun'⟩

end Store

end PagedWords
