import PagedWords.Store.Search
import PagedWords.Proofs.SortedChecks

/-!
# Searches under a shift

Two storages that show the same words at some distance are searched alike, step by step, whether the words
ascend or not: the findings differ by that distance. So a search on one page, or through a window, finds what
a search of all the words in one piece finds.
-/
namespace PagedWords
variable {k : Width}

namespace Cells
variable {σ ρ : Type} [Cells σ k] [Cells ρ k] {a : σ} {b : ρ} {d low high : Nat}

/-- What `b` shows at the positions `low..high`, `a` shows `d` positions further on. -/
def Agree (a : σ) (b : ρ) (d low high : Nat) : Prop :=
  ∀ pos, low ≤ pos → pos < high → ∃ w, Cells.get b pos = .ok w ∧ Cells.get a (d + pos) = .ok w

theorem Agree.of_reads {l m : List (Word k)} (ha : Reads a l) (hb : Reads b m) {n : Nat} (hn : low + n = high)
    (hl : d + high ≤ l.length) (hm : high ≤ m.length) (h : stretch l (d + low) n = stretch m low n) :
    Agree a b d low high := by
  intro pos hlow hhigh
  refine ⟨m[pos], hb.get pos (by omega), ?_⟩
  have hword := congrArg (fun ws : List (Word k) => ws[pos - low]?) h
  have hplace : d + low + (pos - low) = d + pos := by omega
  have hplace' : low + (pos - low) = pos := by omega
  simp only [getElem?_stretch, if_pos (by omega : pos - low < n), hplace, hplace',
    List.getElem?_eq_getElem (by omega : d + pos < l.length), List.getElem?_eq_getElem (by omega : pos < m.length),
    Option.some.injEq] at hword
  rw [ha.get (d + pos) (by omega), hword]

theorem Agree.mono (h : Agree a b d low high) {low' high' : Nat} (hlow : low ≤ low') (hhigh : high' ≤ high) :
    Agree a b d low' high' :=
  fun pos hpos hpos' => h pos (Nat.le_trans hlow hpos) (Nat.lt_of_lt_of_le hpos' hhigh)

theorem Agree.of_same {l : List (Word k)} (ha : Reads a l) (hb : Reads b l) : Agree a b 0 0 l.length :=
  .of_reads ha hb (Nat.zero_add _) (by omega) (Nat.le_refl _) rfl

end Cells

namespace Finding

/-- The finding `d` positions further on. -/
def moved (d : Nat) : Finding → Finding
  | found p => found (d + p)
  | missing p => missing (d + p)

@[simp] theorem moved_zero (r : Finding) : r.moved 0 = r := by
  cases r <;> rw [moved, Nat.zero_add]

@[simp] theorem pos_moved (d : Nat) (r : Finding) : (r.moved d).pos = d + r.pos := by
  cases r <;> rfl

theorem map_moved_zero (r : Except Error Finding) : r.map (moved 0) = r := by
  cases r with
  | error e => rfl
  | ok f => rw [Except.map, moved_zero]

theorem shift_eq {r : Finding} {base : Nat} (h : base + r.pos < positionLimit) : r.shift base = .ok (r.moved base) := by
  cases r with
  | found p => rw [shift, addPosition_of_lt (Nat.add_comm base p ▸ h), Nat.add_comm]; rfl
  | missing p => rw [shift, addPosition_of_lt (Nat.add_comm base p ▸ h), Nat.add_comm]; rfl

theorem shiftBack_moved (d : Nat) (r : Finding) : (r.moved d).shiftBack d = .ok r := by
  cases r with
  | found p => rw [moved, shiftBack, subPosition_of_le (Nat.le_add_right d p), Nat.add_sub_cancel_left]; rfl
  | missing p => rw [moved, shiftBack, subPosition_of_le (Nat.le_add_right d p), Nat.add_sub_cancel_left]; rfl

end Finding

namespace Search
variable {σ ρ : Type} [Cells σ k] [Cells ρ k] {a : σ} {b : ρ} {d low high stride start stop : Nat}

section Agree
variable (h : Cells.Agree a b d low high)
include h

theorem scan_agree (hs : 0 < stride) (key : Word k) (hstop : stop ≤ high) (n : Nat) : ∀ {pos : Nat}, low ≤ pos →
    pos + n * stride ≤ stop →
    ∃ r, scan b stride key stop n pos = .ok r ∧ r.pos ≤ stop ∧
      scan a stride key (d + stop) n (d + pos) = .ok (r.moved d) := by
  induction n with
  | zero =>
    intro pos _ _
    exact ⟨.missing stop, rfl, Nat.le_refl _, rfl⟩
  | succ n ih =>
    intro pos hpos hn
    rw [Nat.succ_mul] at hn
    obtain ⟨w, hb, ha⟩ := h pos hpos (by omega)
    simp only [scan, hb, ha, bind, Except.bind, pure, Except.pure]
    by_cases heq : w = key
    · rw [if_pos heq, if_pos heq]
      exact ⟨.found pos, rfl, by rw [Finding.pos]; omega, rfl⟩
    rw [if_neg heq, if_neg heq]
    by_cases hlt : key < w
    · rw [if_pos hlt, if_pos hlt]
      exact ⟨.missing pos, rfl, by rw [Finding.pos]; omega, rfl⟩
    rw [if_neg hlt, if_neg hlt, Nat.add_assoc]
    exact ih (by omega) (by omega)

theorem scanBetween_agree (hs : 0 < stride) (key : Word k) (hstart : low ≤ start) {m n : Nat} (hmn : m ≤ n)
    (hn : start + n * stride ≤ stop) (hstop : stop ≤ high) :
    ∃ r, scanBetween b stride key start m n = .ok r ∧ r.pos ≤ stop ∧
      scanBetween a stride key (d + start) m n = .ok (r.moved d) := by
  have hspan : start + m * stride + (n - m) * stride = start + n * stride := by
    rw [Nat.add_assoc, ← Nat.add_mul, Nat.add_sub_of_le hmn]
  obtain ⟨r, hb, hr, ha⟩ := scan_agree h hs key (Nat.le_trans hn hstop) (n - m)
    (by omega : low ≤ start + m * stride)
    (Nat.le_of_eq hspan)
  refine ⟨r, hb, Nat.le_trans hr hn, ?_⟩
  rw [scanBetween, Nat.add_assoc, Nat.add_assoc]
  exact ha

theorem bisectFrom_agree (hs : 0 < stride) (key : Word k) (hstart : low ≤ start) (hstop : stop ≤ high) (fuel : Nat) :
    ∀ {m n : Nat}, m ≤ n → start + n * stride ≤ stop →
      ∃ r, bisectFrom b stride key start fuel m n = .ok r ∧ r.pos ≤ stop ∧
        bisectFrom a stride key (d + start) fuel m n = .ok (r.moved d) := by
  induction fuel with
  | zero =>
    intro m n hmn hn
    exact scanBetween_agree h hs key hstart hmn hn hstop
  | succ fuel ih =>
    intro m n hmn hn
    rw [bisectFrom, bisectFrom]
    by_cases hlong : k.linearCutoff ≤ n - m
    · have hcut := k.linearCutoff_pos
      obtain ⟨mid, hmid⟩ : ∃ mid, mid = m + (n - m) / 2 := ⟨_, rfl⟩
      have hbelow : (mid + 1) * stride ≤ n * stride := Nat.mul_le_mul_right _ (by omega)
      rw [Nat.succ_mul] at hbelow
      obtain ⟨w, hb, ha⟩ := h (start + mid * stride) (by omega) (by omega)
      rw [← Nat.add_assoc] at ha
      rw [if_pos hlong, if_pos hlong, ← hmid]
      simp only [hb, ha, bind, Except.bind, pure, Except.pure]
      by_cases hlt : w < key
      · rw [if_pos hlt, if_pos hlt]
        exact ih (by omega) hn
      rw [if_neg hlt, if_neg hlt]
      by_cases hgt : key < w
      · rw [if_pos hgt, if_pos hgt]
        exact ih (by omega) (by omega)
      rw [if_neg hgt, if_neg hgt, Nat.add_assoc]
      exact ⟨.found (start + mid * stride), rfl, by rw [Finding.pos]; omega, rfl⟩
    · rw [if_neg hlong, if_neg hlong]
      exact scanBetween_agree h hs key hstart hmn hn hstop

/-- A reversed range is not looked at. -/
theorem bisect_agree (hs : 0 < stride) (key : Word k) (hstart : low ≤ start) (hstop : stop ≤ high) :
    ∃ r, bisect b stride key start stop = .ok r ∧ r.pos ≤ max start stop ∧
      bisect a stride key (d + start) (d + stop) = .ok (r.moved d) := by
  rw [bisect, bisect, Nat.add_sub_add_left]
  by_cases hempty : stop ≤ start
  · rw [if_pos hempty, if_pos (by omega)]
    exact ⟨.missing start, rfl, Nat.le_max_left _ _, rfl⟩
  · have hwhole := Nat.div_mul_le_self (stop - start) stride
    rw [if_neg hempty, if_neg (by omega)]
    obtain ⟨r, hb, hr, ha⟩ := bisectFrom_agree h hs key hstart hstop ((stop - start) / stride) (Nat.zero_le _)
      (by omega : start + (stop - start) / stride * stride ≤ stop)
    exact ⟨r, hb, by omega, ha⟩

theorem search_agree (how : Strategy) (key : Word k) (hstart : low ≤ start) (hstop : stop ≤ high) :
    ∃ r, search how b key start stop = .ok r ∧ r.pos ≤ max start stop ∧
      search how a key (d + start) (d + stop) = .ok (r.moved d) := by
  cases how with
  | bisect => exact bisect_agree h Nat.one_pos key hstart hstop
  | linear =>
    rw [search, search, Nat.add_sub_add_left]
    by_cases hle : start ≤ stop
    · obtain ⟨r, hb, hr, ha⟩ := scan_agree h Nat.one_pos key hstop (stop - start) hstart (by omega)
      exact ⟨r, hb, by omega, ha⟩
    · rw [Nat.sub_eq_zero_of_le (by omega)]
      exact ⟨.missing stop, rfl, Nat.le_max_right _ _, rfl⟩

theorem skipBelow_agree (hs : 0 < stride) (key : Word k) (hstart : low ≤ start) (hstop : stop ≤ high) (n : Nat) :
    ∀ {m : Nat}, start + (m + n) * stride ≤ stop →
      ∃ i, skipBelow b stride key start n m = .ok i ∧ i ≤ m + n ∧ skipBelow a stride key (d + start) n m = .ok i := by
  induction n with
  | zero =>
    intro m _
    exact ⟨m, rfl, Nat.le_refl _, rfl⟩
  | succ n ih =>
    intro m hm
    have hnext : m + (n + 1) = m + 1 + n := by omega
    have hbelow : (m + 1) * stride ≤ (m + (n + 1)) * stride := Nat.mul_le_mul_right _ (by omega)
    rw [Nat.succ_mul m] at hbelow
    obtain ⟨w, hb, ha⟩ := h (start + m * stride) (by omega) (by omega)
    rw [← Nat.add_assoc] at ha
    simp only [skipBelow, hb, ha, bind, Except.bind, pure, Except.pure]
    by_cases hlt : w < key
    · rw [if_pos hlt, if_pos hlt, hnext]
      exact ih (hnext ▸ hm)
    · rw [if_neg hlt, if_neg hlt]
      exact ⟨m, rfl, Nat.le_add_right _ _, rfl⟩

theorem boundFrom_agree (hs : 0 < stride) (key : Word k) (hstart : low ≤ start) (hstop : stop ≤ high) (fuel : Nat) :
    ∀ {m n : Nat}, m ≤ n → start + n * stride ≤ stop →
      ∃ i, boundFrom b stride key start fuel m n = .ok i ∧ i ≤ n ∧
        boundFrom a stride key (d + start) fuel m n = .ok i := by
  have hskip : ∀ {m n : Nat}, m ≤ n → start + n * stride ≤ stop →
      ∃ i, skipBelow b stride key start (n - m) m = .ok i ∧ i ≤ n ∧
        skipBelow a stride key (d + start) (n - m) m = .ok i := by
    intro m n hmn hn
    have hsum : m + (n - m) = n := Nat.add_sub_of_le hmn
    obtain ⟨i, hb, hi, ha⟩ := skipBelow_agree h hs key hstart hstop (n - m) (m := m) (hsum.symm ▸ hn)
    exact ⟨i, hb, hsum ▸ hi, ha⟩
  induction fuel with
  | zero =>
    intro m n hmn hn
    exact hskip hmn hn
  | succ fuel ih =>
    intro m n hmn hn
    rw [boundFrom, boundFrom]
    by_cases hlong : k.linearCutoff ≤ n - m
    · have hcut := k.linearCutoff_pos
      obtain ⟨mid, hmid⟩ : ∃ mid, mid = m + (n - m) / 2 := ⟨_, rfl⟩
      have hbelow : (mid + 1) * stride ≤ n * stride := Nat.mul_le_mul_right _ (by omega)
      rw [Nat.succ_mul] at hbelow
      obtain ⟨w, hb, ha⟩ := h (start + mid * stride) (by omega) (by omega)
      rw [← Nat.add_assoc] at ha
      rw [if_pos hlong, if_pos hlong, ← hmid]
      simp only [hb, ha, bind, Except.bind]
      by_cases hlt : w < key
      · rw [if_pos hlt, if_pos hlt]
        exact ih (by omega) hn
      · rw [if_neg hlt, if_neg hlt]
        obtain ⟨i, hb', hi, ha'⟩ := ih (m := m) (n := mid) (by omega) (by omega)
        exact ⟨i, hb', by omega, ha'⟩
    · rw [if_neg hlong, if_neg hlong]
      exact hskip hmn hn

theorem lowerBound_agree (hs : 0 < stride) (key : Word k) (hstart : low ≤ start) (hstop : stop ≤ high) :
    ∃ p, lowerBound b stride key start stop = .ok p ∧ p ≤ max start stop ∧
      lowerBound a stride key (d + start) (d + stop) = .ok (d + p) := by
  rw [lowerBound, lowerBound, Nat.add_sub_add_left]
  by_cases hempty : stop ≤ start
  · rw [if_pos hempty, if_pos (by omega)]
    exact ⟨start, rfl, Nat.le_max_left _ _, rfl⟩
  · have hwhole := Nat.div_mul_le_self (stop - start) stride
    obtain ⟨i, hb, hi, ha⟩ := boundFrom_agree h hs key hstart hstop ((stop - start) / stride) (Nat.zero_le _)
      (by omega : start + (stop - start) / stride * stride ≤ stop)
    have hrecord : i * stride ≤ (stop - start) / stride * stride := Nat.mul_le_mul_right _ hi
    rw [if_neg hempty, if_neg (by omega)]
    simp only [hb, ha, bind, Except.bind, pure, Except.pure]
    by_cases hend : i = (stop - start) / stride
    · rw [if_pos hend, if_pos hend]
      exact ⟨stop, rfl, Nat.le_max_right _ _, rfl⟩
    · rw [if_neg hend, if_neg hend, Nat.add_assoc]
      exact ⟨start + i * stride, rfl, by omega, rfl⟩

theorem firstNotBelow_agree (key : Word k) (hstop : stop ≤ high) (n : Nat) : ∀ {pos : Nat}, low ≤ pos → pos + n ≤ stop →
    ∃ p, firstNotBelow b key stop n pos = .ok p ∧ p ≤ stop ∧
      firstNotBelow a key (d + stop) n (d + pos) = .ok (d + p) := by
  induction n with
  | zero =>
    intro pos _ _
    exact ⟨stop, rfl, Nat.le_refl _, rfl⟩
  | succ n ih =>
    intro pos hpos hn
    obtain ⟨w, hb, ha⟩ := h pos hpos (by omega)
    simp only [firstNotBelow, hb, ha, bind, Except.bind, pure, Except.pure]
    by_cases hlt : w < key
    · rw [if_pos hlt, if_pos hlt, Nat.add_assoc]
      exact ih (by omega) (by omega)
    · rw [if_neg hlt, if_neg hlt]
      exact ⟨pos, rfl, by omega, rfl⟩

theorem bound_agree (how : Strategy) (key : Word k) (hstart : low ≤ start) (hstop : stop ≤ high) :
    ∃ p, bound how b key start stop = .ok p ∧ p ≤ max start stop ∧
      bound how a key (d + start) (d + stop) = .ok (d + p) := by
  cases how with
  | bisect => exact lowerBound_agree h Nat.one_pos key hstart hstop
  | linear =>
    rw [bound, bound, Nat.add_sub_add_left]
    by_cases hle : start ≤ stop
    · obtain ⟨p, hb, hp, ha⟩ := firstNotBelow_agree h key hstop (stop - start) hstart (by omega)
      exact ⟨p, hb, by omega, ha⟩
    · rw [Nat.sub_eq_zero_of_le (by omega)]
      exact ⟨stop, rfl, Nat.le_max_right _ _, rfl⟩

end Agree

section Records
variable (hle : start ≤ stop) (hb : stop ≤ Cells.size b) (ha : d + stop ≤ Cells.size a)
  (h : Cells.Agree a b d start stop)
include hle hb ha h

theorem searchRecords_agree (how : Strategy) (stride : Nat) (key : Word k) :
    ∃ r, searchRecords how b stride key start stop = .ok r ∧ (∀ f, r = .ok f → f.pos ≤ stop) ∧
      searchRecords how a stride key (d + start) (d + stop) = .ok (r.map (Finding.moved d)) := by
  unfold searchRecords
  rw [checkRecords_congr hle hb ha (by omega)]
  rcases hcheck : checkRecords start stop (Cells.size b) stride with e | u
  · exact ⟨.error e, rfl, fun _ hf => (nomatch hf), rfl⟩
  · have hs : 0 < stride := (checkRecords_eq_ok_iff.1 hcheck).2.2.1
    have hwhole := Nat.div_mul_le_self (stop - start) stride
    have hwrap : ∀ x y : Except Fault Finding, (∃ r, x = .ok r ∧ r.pos ≤ stop ∧ y = .ok (r.moved d)) →
        ∃ r, whenValid (.ok ()) x = .ok r ∧ (∀ f, r = .ok f → f.pos ≤ stop) ∧
          whenValid (.ok ()) y = .ok (r.map (Finding.moved d)) := by
      rintro x y ⟨r, rfl, hr, rfl⟩
      exact ⟨.ok r, rfl, fun f hf => Except.ok.inj hf ▸ hr, rfl⟩
    apply hwrap
    cases how with
    | linear =>
      simp only [Nat.add_sub_add_left]
      exact scan_agree h hs key (Nat.le_refl stop) _ (Nat.le_refl start) (by omega)
    | bisect =>
      have hrun := bisect_agree h hs key (Nat.le_refl start) (Nat.le_refl stop)
      rw [Nat.max_eq_right hle] at hrun
      exact hrun

theorem boundRecords_agree (stride : Nat) (key : Word k) :
    ∃ r, boundRecords b stride key start stop = .ok r ∧ (∀ p, r = .ok p → p ≤ stop) ∧
      boundRecords a stride key (d + start) (d + stop) = .ok (r.map (d + ·)) := by
  rw [boundRecords, boundRecords, checkRecords_congr hle hb ha (by omega)]
  rcases hcheck : checkRecords start stop (Cells.size b) stride with e | u
  · exact ⟨.error e, rfl, fun _ hf => (nomatch hf), rfl⟩
  · have hs : 0 < stride := (checkRecords_eq_ok_iff.1 hcheck).2.2.1
    obtain ⟨p, hrun, hp, hrun'⟩ := lowerBound_agree h hs key (Nat.le_refl _) (Nat.le_refl _)
    rw [Nat.max_eq_right hle] at hp
    refine ⟨.ok p, ?_, ?_, ?_⟩
    · exact congrArg (Except.map Except.ok) hrun
    · rintro q ⟨⟩
      exact hp
    · exact congrArg (Except.map Except.ok) hrun'

end Records

end Search
end PagedWords
