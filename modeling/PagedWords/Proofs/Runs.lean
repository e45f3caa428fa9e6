import PagedWords.Sorting.Merge
import PagedWords.Proofs.QuickSort

/-!
# Runs, and passes that merge them

A pass merges neighbouring runs into the scratch array, and writes them back as runs of twice the width. On equal
keys the record of the left run goes first.
-/
namespace PagedWords
variable {k : Width}

/-- Every stretch of `w` records that begins at a multiple of `w` is ascending. -/
def InRuns (w : Nat) (us : List (Record k)) : Prop := ∀ i, Ascending (stretch us (i * w) w)

namespace InRuns
variable {w : Nat} {us run rest : List (Record k)}

theorem take (h : InRuns w us) : Ascending (us.take w) := by
  have hfirst := h 0
  rw [Nat.zero_mul, stretch, List.drop_zero] at hfirst
  exact hfirst

private theorem drop (h : InRuns w us) : InRuns w (us.drop w) := by
  intro i
  have hnext := h (i + 1)
  rw [stretch, Nat.succ_mul, Nat.add_comm, ← List.drop_drop] at hnext
  exact hnext

private theorem ascending (h : InRuns w us) (hlen : us.length ≤ w) : Ascending us := by
  have hall := h.take
  rw [List.take_of_length_le hlen] at hall
  exact hall

theorem nil : InRuns w ([] : List (Record k)) := by
  intro i
  rw [stretch, List.drop_nil, List.take_nil]
  exact .nil

theorem append (hrun : Ascending run) (hlen : run.length = w ∨ run.length ≤ w ∧ rest = []) (hrest : InRuns w rest) :
    InRuns w (run ++ rest) := by
  intro i
  rw [stretch]
  rcases hlen with hlen | ⟨hlen, rfl⟩
  · cases i with
    | zero =>
      rw [Nat.zero_mul, List.drop_zero, ← hlen, List.take_left]
      exact hrun
    | succ i =>
      rw [Nat.succ_mul, Nat.add_comm, ← List.drop_drop, ← hlen, List.drop_left, hlen]
      exact hrest i
  · rw [List.append_nil]
    exact hrun.sublist ((List.take_sublist _ _).trans (List.drop_sublist _ _))

end InRuns

/-! ### The order of keys, as the library's merges ask for it -/

theorem decide_recordKey_trans (r s t : Record k) (hrs : decide (recordKey r ≤ recordKey s) = true)
    (hst : decide (recordKey s ≤ recordKey t) = true) : decide (recordKey r ≤ recordKey t) = true :=
  decide_eq_true (Std.le_trans (of_decide_eq_true hrs) (of_decide_eq_true hst))

theorem decide_recordKey_total (r s : Record k) :
    (decide (recordKey r ≤ recordKey s) || decide (recordKey s ≤ recordKey r)) = true := by
  rw [Bool.or_eq_true, decide_eq_true_eq, decide_eq_true_eq]
  exact Std.le_total

/-- The merge of two runs. -/
def mergeRecords (us vs : List (Record k)) : List (Record k) := us.merge vs (fun r s => recordKey r ≤ recordKey s)

theorem mergeRecords_perm (us vs : List (Record k)) : (mergeRecords us vs).Perm (us ++ vs) := List.merge_perm_append _

theorem Ascending.merge {us vs : List (Record k)} (hus : Ascending us) (hvs : Ascending vs) :
    Ascending (mergeRecords us vs) := by
  have hmerge := List.pairwise_merge decide_recordKey_trans decide_recordKey_total us vs (by simpa using hus)
    (by simpa using hvs)
  simp only [decide_eq_true_eq] at hmerge
  exact hmerge

/-- Of equal keys those of the left run go first, as they did before the merge. -/
theorem Ascending.merge_keepsTies {us : List (Record k)} (hus : Ascending us) (vs : List (Record k)) :
    KeepsTies (us ++ vs) (mergeRecords us vs) := by
  induction us generalizing vs with
  | nil =>
    rw [mergeRecords, List.nil_merge]
    exact .refl vs
  | cons r us ih =>
    obtain ⟨hr, htail⟩ := List.pairwise_cons.1 hus
    induction vs with
    | nil =>
      rw [mergeRecords, List.merge_right, List.append_nil]
      exact .refl _
    | cons s vs ihs =>
      rw [mergeRecords, List.cons_merge_cons]
      split
      · exact KeepsTies.append (.refl [r]) (ih htail (s :: vs))
      · next hle =>
        have hlt : recordKey s < recordKey r := Word.not_le.1 (by simpa using hle)
        have hne : ∀ t ∈ r :: us, recordKey t ≠ recordKey s := by
          intro t ht
          refine (Std.ne_of_lt (Std.lt_of_lt_of_le hlt ?_)).symm
          rcases List.mem_cons.1 ht with rfl | ht
          · exact Std.le_refl _
          · exact hr t ht
        exact (KeepsTies.pass hne vs).trans (KeepsTies.append (.refl [s]) ihs)

section Records
variable {l : List (Word k)} {stride : Nat}

private theorem recordsFrom_split {us vs : List (Record k)} {pos : Nat}
    (h : recordsFrom l stride (us ++ vs).length pos = us ++ vs) :
    recordsFrom l stride us.length pos = us ∧ recordsFrom l stride vs.length (pos + us.length * stride) = vs := by
  rw [List.length_append, recordsFrom_add] at h
  exact List.append_inj h (length_recordsFrom _ _)

private theorem recordsFrom_append (x y : List (Word k)) {us : List (Record k)} (hus : Uniform stride us) :
    recordsFrom (x ++ us.flatten ++ y) stride us.length x.length = us := by
  have hpatch : recordsFrom (patch (x ++ us.flatten ++ y) x.length us.flatten) stride us.length x.length = us := by
    apply recordsFrom_patch hus
    rw [← length_flatten_records hus, List.length_append, List.length_append]
    omega
  rw [patch_append x y rfl] at hpatch
  exact hpatch

theorem add_take_mul (left n : Nat) (us : List (Record k)) :
    min (left + n * stride) (left + us.length * stride) = left + (us.take n).length * stride := by
  rw [List.length_take, Nat.add_min_add_left, Nat.mul_min_mul_right]

end Records

namespace Sorting
variable {σ : Type} {stride : Nat}

/-- Two runs that are to be merged: the records `us` from `i` to `mid` and `vs` from `j` to `right`. -/
structure Merging (l : List (Word k)) (stride base mid right i j : Nat) (us vs : List (Record k)) : Prop where
  lefts : recordsFrom l stride us.length (base + i) = us
  lefts_stop : i + us.length * stride = mid
  rights : recordsFrom l stride vs.length (base + j) = vs
  rights_stop : j + vs.length * stride = right
  mid_le : base + mid ≤ l.length
  right_le : base + right ≤ l.length

namespace Merging
variable {l : List (Word k)} {base mid right i j : Nat} {us vs : List (Record k)} {r : Record k}

private theorem tail_left (h : Merging l stride base mid right i j (r :: us) vs) :
    Merging l stride base mid right (i + stride) j us vs := by
  have hstop := h.lefts_stop
  rw [List.length_cons, Nat.succ_mul] at hstop
  refine ⟨?_, by omega, h.rights, h.rights_stop, h.mid_le, h.right_le⟩
  rw [← Nat.add_assoc]
  exact (List.cons.inj h.lefts).2

private theorem tail_right (h : Merging l stride base mid right i j us (r :: vs)) :
    Merging l stride base mid right i (j + stride) us vs := by
  have hstop := h.rights_stop
  rw [List.length_cons, Nat.succ_mul] at hstop
  refine ⟨h.lefts, h.lefts_stop, ?_, by omega, h.mid_le, h.right_le⟩
  rw [← Nat.add_assoc]
  exact (List.cons.inj h.rights).2

theorem add_left_le (h : Merging l stride base mid right i j (r :: us) vs) : base + i + stride ≤ l.length := by
  have hstop := h.lefts_stop
  have hle := h.mid_le
  rw [List.length_cons, Nat.succ_mul] at hstop
  omega

theorem add_right_le (h : Merging l stride base mid right i j us (r :: vs)) : base + j + stride ≤ l.length := by
  have hstop := h.rights_stop
  have hle := h.right_le
  rw [List.length_cons, Nat.succ_mul] at hstop
  omega

end Merging

section Runs
variable [Cells σ k] {a : σ} {l : List (Word k)} (ha : Cells.Reads a l)
include ha

private theorem copyWords_eq (n : Nat) :
    ∀ (pos out : Nat) (scratch : Words k), pos + n ≤ l.length → out + n ≤ scratch.size →
    ∃ scratch', copyWords a n pos out scratch = .ok scratch' ∧
      scratch'.toList = patch scratch.toList out (stretch l pos n) := by
  induction n with
  | zero =>
    intro pos out scratch _ _
    exact ⟨scratch, rfl, by rw [stretch_zero, patch_nil]⟩
  | succ n ih =>
    intro pos out scratch hpos hout
    have hlt : pos < l.length := by omega
    have hplace : out < scratch.size := by omega
    obtain ⟨scratch', hrun, hl⟩ := ih (pos + 1) (out + 1) (Array.set scratch out l[pos] hplace) (by omega)
      (by rw [Array.size_set]; omega)
    rw [Array.toList_set, patch_set (by rw [Array.length_toList]; omega), ← stretch_succ n hlt] at hl
    refine ⟨scratch', ?_, hl⟩
    simp only [copyWords, ha.get pos hlt, Words.set_of_lt _ hplace, bind, Except.bind]
    exact hrun

section Cursor
variable (hs : 0 < stride) {n pos : Nat} {r : Record k} {rs : List (Record k)}
  (hr : recordsFrom l stride (n + 1) pos = r :: rs) (hpos : pos + stride ≤ l.length)
include hs hr hpos

private theorem get_key : Cells.get a pos = .ok (recordKey r) := by
  have hlt : pos < l.length := by omega
  rw [← (List.cons.inj hr).1, recordKey_stretch hs hlt, ha.get pos hlt]

omit hs in
private theorem copyRecord_eq (out : Nat) (scratch : Words k) (hout : out + stride ≤ scratch.size) :
    ∃ scratch₁, copyWords a stride pos out scratch = .ok scratch₁ ∧ scratch₁.size = scratch.size ∧
      ∀ m, patch scratch₁.toList (out + stride) m = patch scratch.toList out (r ++ m) := by
  have hword : stretch l pos stride = r := (List.cons.inj hr).1
  have hlen : r.length = stride := hword ▸ length_stretch hpos
  obtain ⟨scratch₁, hrun, hl⟩ := copyWords_eq ha stride pos out scratch hpos hout
  rw [hword] at hl
  have hplaces : out + stride ≤ scratch.toList.length := hout
  have hsize := congrArg List.length hl
  rw [length_patch (hlen ▸ hplaces)] at hsize
  refine ⟨scratch₁, hrun, hsize, ?_⟩
  intro m
  rw [hl]
  exact patch_patch (by rw [hlen]) hplaces m

end Cursor

private theorem Merging.takesLeft_cases (hs : 0 < stride) {base mid right i j : Nat} {us vs : List (Record k)}
    (h : Merging l stride base mid right i j us vs) (hpos : 0 < us.length + vs.length) :
    (∃ r us', us = r :: us' ∧ takesLeft a base mid right i j = .ok true ∧
      mergeRecords us vs = r :: mergeRecords us' vs) ∨
    ∃ r vs', vs = r :: vs' ∧ takesLeft a base mid right i j = .ok false ∧
      mergeRecords us vs = r :: mergeRecords us vs' := by
  have hmid := h.lefts_stop
  have hright := h.rights_stop
  cases us with
  | nil =>
    cases vs with
    | nil => exact absurd hpos (Nat.lt_irrefl 0)
    | cons s vs =>
      refine .inr ⟨s, vs, rfl, ?_, ?_⟩
      · rw [List.length_nil] at hmid
        rw [takesLeft, if_neg (by omega)]
      · simp only [mergeRecords, List.nil_merge]
  | cons r us =>
    rw [List.length_cons, Nat.succ_mul] at hmid
    cases vs with
    | nil =>
      refine .inl ⟨r, us, rfl, ?_, ?_⟩
      · rw [List.length_nil] at hright
        rw [takesLeft, if_pos (by omega), if_pos (by omega)]
      · simp only [mergeRecords, List.merge_right]
    | cons s vs =>
      rw [List.length_cons, Nat.succ_mul] at hright
      have hkeys : takesLeft a base mid right i j = .ok (decide (recordKey r ≤ recordKey s)) := by
        rw [takesLeft, if_pos (by omega), if_neg (by omega)]
        simp only [get_key ha hs h.lefts h.add_left_le, get_key ha hs h.rights h.add_right_le, bind, Except.bind, pure,
          Except.pure]
      by_cases hle : recordKey r ≤ recordKey s
      · refine .inl ⟨r, us, rfl, by rw [hkeys, decide_eq_true hle], ?_⟩
        simp only [mergeRecords, List.cons_merge_cons, decide_eq_true hle, if_true]
      · refine .inr ⟨s, vs, rfl, by rw [hkeys, decide_eq_false hle], ?_⟩
        simp only [mergeRecords, List.cons_merge_cons, decide_eq_false hle, Bool.false_eq_true, if_false]

private theorem mergeFrom_eq (hs : 0 < stride) {base mid right : Nat} (n : Nat) :
    ∀ {us vs : List (Record k)} {i j : Nat} (out : Nat) (scratch : Words k), Merging l stride base mid right i j us vs →
      us.length + vs.length = n → out + n * stride ≤ scratch.size →
      ∃ scratch', mergeFrom a stride base mid right n i j out scratch = .ok scratch' ∧
        scratch'.toList = patch scratch.toList out (mergeRecords us vs).flatten := by
  induction n with
  | zero =>
    intro us vs i j out scratch _ hn _
    cases List.eq_nil_of_length_eq_zero (by omega : us.length = 0)
    cases List.eq_nil_of_length_eq_zero (by omega : vs.length = 0)
    exact ⟨scratch, rfl, by simp [mergeRecords]⟩
  | succ n ih =>
    intro us vs i j out scratch h hn hout
    rw [Nat.succ_mul] at hout
    rcases h.takesLeft_cases ha hs (by omega) with ⟨r, us, rfl, htakes, hmerge⟩ | ⟨r, vs, rfl, htakes, hmerge⟩
    · rw [List.length_cons] at hn
      obtain ⟨scratch₁, hcopy, hsize, hpatch⟩ := copyRecord_eq ha h.lefts h.add_left_le out scratch (by omega)
      obtain ⟨scratch', hrun, hl⟩ := ih (out + stride) scratch₁ h.tail_left (by omega) (by omega)
      refine ⟨scratch', ?_, by rw [hl, hpatch, hmerge, List.flatten_cons]⟩
      simp only [mergeFrom, htakes, if_true, hcopy, bind, Except.bind]
      exact hrun
    · rw [List.length_cons] at hn
      obtain ⟨scratch₁, hcopy, hsize, hpatch⟩ := copyRecord_eq ha h.rights h.add_right_le out scratch (by omega)
      obtain ⟨scratch', hrun, hl⟩ := ih (out + stride) scratch₁ h.tail_right (by omega) (by omega)
      refine ⟨scratch', ?_, by rw [hl, hpatch, hmerge, List.flatten_cons]⟩
      simp only [mergeFrom, htakes, hcopy, bind, Except.bind, Bool.false_eq_true, if_false]
      exact hrun

theorem mergeTwo_eq (hs : 0 < stride) {base left mid right : Nat} {us vs : List (Record k)}
    (h : Merging l stride base mid right left mid us vs) (scratch : Words k) (hout : right ≤ scratch.size) :
    ∃ scratch', mergeTwo a stride base left mid right scratch = .ok scratch' ∧
      scratch'.toList = patch scratch.toList left (mergeRecords us vs).flatten := by
  have hmid := h.lefts_stop
  have hright := h.rights_stop
  have hcount : (right - left) / stride = us.length + vs.length := by
    have hspan : right - left = (us.length + vs.length) * stride := by
      rw [Nat.add_mul]
      omega
    rw [hspan, Nat.mul_div_cancel _ hs]
  rw [mergeTwo, hcount]
  refine mergeFrom_eq ha hs _ left scratch h rfl ?_
  rw [Nat.add_mul]
  omega

private theorem mergePairs_step (hs : 0 < stride) {w base length left : Nat} {us xs ys zs : List (Record k)}
    (hus : Uniform stride us) (hsplit : us = xs ++ ys ++ zs) (hone : us.take w = xs) (htwo : us.take (2 * w) = xs ++ ys)
    (hpos : 0 < us.length) (hrecords : recordsFrom l stride us.length (base + left) = us)
    (hlength : left + us.length * stride = length) (hl : base + length ≤ l.length) {scratch : Words k}
    (hscratch : length ≤ scratch.size) (fuel : Nat) :
    ∃ right scratch₁, mergePairs a stride base length (w * stride) (fuel + 1) left scratch =
        mergePairs a stride base length (w * stride) fuel right scratch₁ ∧
      recordsFrom l stride zs.length (base + right) = zs ∧ right + zs.length * stride = length ∧
      scratch₁.size = scratch.size ∧
      ∀ m, patch scratch₁.toList right m = patch scratch.toList left ((mergeRecords xs ys).flatten ++ m) := by
  rw [hsplit] at hrecords
  obtain ⟨hfront, hback⟩ := recordsFrom_split hrecords
  obtain ⟨hx, hy⟩ := recordsFrom_split hfront
  obtain ⟨mid, hmid⟩ : ∃ mid, mid = left + xs.length * stride := ⟨_, rfl⟩
  obtain ⟨right, hright⟩ : ∃ right, right = left + (xs ++ ys).length * stride := ⟨_, rfl⟩
  have hmin : min (left + w * stride) length = mid := by
    rw [hmid, ← hone, ← hlength]
    exact add_take_mul left w us
  have hmin' : min (left + 2 * (w * stride)) length = right := by
    rw [hright, ← htwo, ← hlength, ← Nat.mul_assoc]
    exact add_take_mul left (2 * w) us
  have hmid_le : mid ≤ length := hmin ▸ Nat.min_le_right _ _
  have hright_le : right ≤ length := hmin' ▸ Nat.min_le_right _ _
  have hmerging : Merging l stride base mid right left mid xs ys := by
    refine ⟨hx, hmid.symm, ?_, ?_, by omega, by omega⟩
    · rw [hmid, ← Nat.add_assoc]
      exact hy
    · rw [hmid, hright, List.length_append, Nat.add_mul, Nat.add_assoc]
  obtain ⟨scratch₁, hrun, hl₁⟩ := mergeTwo_eq ha hs hmerging scratch (by omega)
  have hwritten : left + (mergeRecords xs ys).flatten.length = right := by
    rw [(mergeRecords_perm xs ys).flatten.length_eq,
      length_flatten_records (List.forall_mem_append.1 (hsplit ▸ hus)).1, hright]
  have hplaces : right ≤ scratch.toList.length := Nat.le_trans hright_le hscratch
  have hsize := congrArg List.length hl₁
  rw [length_patch (by rw [hwritten]; exact hplaces)] at hsize
  have hlt : left < length := by
    have := Nat.mul_pos hpos hs
    omega
  refine ⟨right, scratch₁, ?_, by rw [hright, ← Nat.add_assoc]; exact hback, ?_, hsize, ?_⟩
  · rw [mergePairs, if_pos hlt, hmin, hmin']
    simp only [hrun, bind, Except.bind]
  · have hlen := congrArg List.length hsplit
    rw [List.length_append] at hlen
    rw [hright, Nat.add_assoc, ← Nat.add_mul, ← hlen]
    exact hlength
  · intro m
    rw [hl₁]
    exact patch_patch hwritten hplaces m

end Runs

private theorem mergePairs_turns (hs : 0 < stride) {w : Nat} (hw : 0 < w) (fuel : Nat) : ∀ {us : List (Record k)},
    Uniform stride us → InRuns w us → us.length ≤ fuel →
    ∃ vs, vs.Perm us ∧ KeepsTies us vs ∧ InRuns (2 * w) vs ∧
      ∀ {σ : Type} [Cells σ k] {a : σ} {l : List (Word k)} (base length left : Nat) (scratch : Words k),
        Cells.Reads a l → recordsFrom l stride us.length (base + left) = us → left + us.length * stride = length →
        base + length ≤ l.length → length ≤ scratch.size →
        ∃ scratch', mergePairs a stride base length (w * stride) fuel left scratch = .ok scratch' ∧
          scratch'.toList = patch scratch.toList left vs.flatten := by
  induction fuel with
  | zero =>
    intro us _ _ hfuel
    cases List.eq_nil_of_length_eq_zero (Nat.le_zero.1 hfuel)
    exact ⟨[], .refl _, .refl _, .nil, fun _ _ _ scratch _ _ _ _ _ =>
      ⟨scratch, rfl, by rw [List.flatten_nil, patch_nil]⟩⟩
  | succ fuel ih =>
    intro us hus hruns hfuel
    rcases Nat.eq_zero_or_pos us.length with hzero | hpos
    · cases List.eq_nil_of_length_eq_zero hzero
      refine ⟨[], .refl _, .refl _, .nil, ?_⟩
      intro σ _ a l base length left scratch _ _ hlength _ _
      refine ⟨scratch, ?_, by rw [List.flatten_nil, patch_nil]⟩
      rw [hzero, Nat.zero_mul] at hlength
      rw [mergePairs, if_neg (by omega)]
    obtain ⟨xs, hxs⟩ : ∃ xs, xs = us.take w := ⟨_, rfl⟩
    obtain ⟨ys, hys⟩ : ∃ ys, ys = (us.drop w).take w := ⟨_, rfl⟩
    obtain ⟨zs, hzs⟩ : ∃ zs, zs = (us.drop w).drop w := ⟨_, rfl⟩
    have hsplit : us = xs ++ ys ++ zs := by
      rw [hxs, hys, hzs, List.append_assoc, List.take_append_drop, List.take_append_drop]
    have htwo : us.take (2 * w) = xs ++ ys := by rw [Nat.two_mul, List.take_add, hxs, hys]
    have hlenTwo : (xs ++ ys).length = min (2 * w) us.length := by rw [← htwo, List.length_take]
    obtain ⟨huniform, huniform'⟩ := List.forall_mem_append.1 (hsplit ▸ hus)
    have hlen := congrArg List.length hsplit
    rw [List.length_append] at hlen
    obtain ⟨vs, hperm, hties, hvs, hrest⟩ := ih huniform' (hzs ▸ hruns.drop.drop) (by omega)
    refine ⟨mergeRecords xs ys ++ vs, ?_, ?_, .append ?_ ?_ hvs, ?_⟩
    · rw [hsplit]
      exact (mergeRecords_perm xs ys).append hperm
    · rw [hsplit]
      exact ((hxs ▸ hruns.take).merge_keepsTies ys).append hties
    · exact (hxs ▸ hruns.take).merge (hys ▸ hruns.drop.take)
    · rw [(mergeRecords_perm xs ys).length_eq, hlenTwo]
      rcases Nat.le_total (2 * w) us.length with hle | hle
      · exact .inl (Nat.min_eq_left hle)
      · refine .inr ⟨Nat.min_le_left _ _, List.eq_nil_of_length_eq_zero ?_⟩
        rw [hperm.length_eq]
        omega
    · intro σ _ a l base length left scratch ha hrecords hlength hl hscratch
      obtain ⟨right, scratch₁, hstep, hrecords₁, hlength₁, hsize, hpatch⟩ := mergePairs_step ha hs hus hsplit hxs.symm
        htwo hpos hrecords hlength hl hscratch fuel
      have hscratch₁ : length ≤ scratch₁.size := Nat.le_trans hscratch (Nat.le_of_eq hsize.symm)
      obtain ⟨scratch', hrun, hl'⟩ := hrest base length right scratch₁ ha hrecords₁ hlength₁ hl hscratch₁
      exact ⟨scratch', hstep.trans hrun, by rw [hl', hpatch, List.flatten_append]⟩

/-- Each pass halves the number of runs, until one is left. -/
theorem mergePasses_turns (hs : 0 < stride) (fuel : Nat) : ∀ {w : Nat} {us : List (Record k)}, 0 < w →
    Uniform stride us → InRuns w us → us.length ≤ w * 2 ^ fuel →
    ∃ vs, StableSortOf us vs ∧ OnBulkCells fun {σ} _ R =>
      ∀ {x y : List (Word k)} {a : σ} {scratch : Words k}, R a (x ++ us.flatten ++ y) →
      scratch.size = us.flatten.length →
      ∃ a' scratch', mergePasses stride x.length us.flatten.length fuel (w * stride) a scratch = .ok (a', scratch') ∧
        R a' (x ++ vs.flatten ++ y) := by
  induction fuel with
  | zero =>
    intro w us _ _ hruns hlen
    rw [Nat.pow_zero, Nat.mul_one] at hlen
    exact ⟨us, .self (hruns.ascending hlen), fun σ _ R _ x y a scratch ha _ => ⟨a, scratch, rfl, ha⟩⟩
  | succ fuel ih =>
    intro w us hw hus hruns hlen
    have hsize := length_flatten_records hus
    rcases Nat.lt_or_ge w us.length with hlong | hshort
    · obtain ⟨us₁, hperm, hties, hruns₁, hpairs⟩ := mergePairs_turns hs hw us.flatten.length hus hruns (by
        rw [hsize]
        exact Nat.le_mul_of_pos_right _ hs)
      have hsize₁ : us₁.flatten.length = us.flatten.length := hperm.flatten.length_eq
      obtain ⟨vs, hvs, hpasses⟩ := ih (Nat.mul_pos Nat.two_pos hw) (Uniform.of_perm hus hperm) hruns₁ (by
        rw [hperm.length_eq, Nat.mul_comm 2 w, Nat.mul_assoc, ← Nat.pow_succ']
        exact hlen)
      refine ⟨vs, ⟨⟨hvs.perm.trans hperm, hvs.ascending⟩, hties.trans hvs.ties⟩, ?_⟩
      intro σ _ R hR x y a scratch ha hscratch
      obtain ⟨scratch₁, hrun, hl⟩ := hpairs x.length us.flatten.length 0 scratch (hR.reads ha)
        (recordsFrom_append x y hus) (by rw [Nat.zero_add, hsize])
        (by rw [List.length_append, List.length_append]; omega) (Nat.le_of_eq hscratch.symm)
      have hwords : scratch₁.toList = us₁.flatten := by
        rw [hl, patch_all]
        exact hscratch.trans hsize₁.symm
      have hfits : x.length + scratch₁.size ≤ (x ++ us.flatten ++ y).length := by
        rw [← Array.length_toList, hwords, hsize₁, List.length_append, List.length_append]
        omega
      obtain ⟨a₁, hwrite, ha₁⟩ := hR.writeRange ha hfits
      rw [hwords, patch_append x y hsize₁.symm] at ha₁
      obtain ⟨a', scratch', hrest, ha'⟩ := hpasses σ R hR ha₁ (by rw [← Array.length_toList, hwords])
      refine ⟨a', scratch', ?_, ha'⟩
      have hwidth : w * stride < us.flatten.length := hsize ▸ Nat.mul_lt_mul_of_pos_right hlong hs
      rw [mergePasses, if_pos hwidth]
      rw [hsize₁, Nat.mul_assoc] at hrest
      simp only [hrun, hwrite, bind, Except.bind]
      exact hrest
    · refine ⟨us, .self (hruns.ascending hshort), fun σ _ R _ x y a scratch ha _ => ⟨a, scratch, ?_, ha⟩⟩
      have hwidth := Nat.mul_le_mul_right stride hshort
      rw [mergePasses, if_neg (by omega)]

end Sorting
end PagedWords
