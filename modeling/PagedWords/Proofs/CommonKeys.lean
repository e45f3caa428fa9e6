import PagedWords.Proofs.UnionWalk

/-!
# The walk that combines the values of common keys

What becomes of the pairs of a destination is told on the two lists of pairs. The walk writes the new values one
by one and leaves every other word as it was, so what it meets later is still what the lists say.
-/
namespace PagedWords.Union
variable {σ υ τ : Type} {k : Width} {l ls : List (Word k)} {f : τ → Word k → Word k → Word k × τ}

/-- The value of a (key, value) pair. -/
def recordValue (r : Record k) : Word k := r.getD 1 Word.zero

/-- How many pairs of a destination were combined, what the pairs are then, and the state of the callback. -/
structure Combined (k : Width) (τ : Type) where
  count : Nat
  pairs : List (Record k)
  state : τ

/-- Gives each pair of the first list whose key stands at the head of the second what `f` makes of both values. -/
def combinePairs (f : τ → Word k → Word k → Word k × τ) : List (Record k) → List (Record k) → τ → Combined k τ
  | [], _, t => ⟨0, [], t⟩
  | d :: ds, [], t => ⟨0, d :: ds, t⟩
  | d :: ds, s :: ss, t =>
      if recordKey d < recordKey s then
        let r := combinePairs f ds (s :: ss) t
        { r with pairs := d :: r.pairs }
      else if recordKey s < recordKey d then combinePairs f (d :: ds) ss t
      else
        let (w, t) := f t (recordValue d) (recordValue s)
        let r := combinePairs f ds ss t
        { r with count := r.count + 1, pairs := [recordKey d, w] :: r.pairs }
termination_by ds ss => ds.length + ss.length

@[simp] theorem combinePairs_nil (ds : List (Record k)) (t : τ) : combinePairs f ds [] t = ⟨0, ds, t⟩ := by
  cases ds <;> rw [combinePairs]

theorem map_recordKey_combinePairs (ds ss : List (Record k)) (t : τ) :
    (combinePairs f ds ss t).pairs.map recordKey = ds.map recordKey := by
  fun_induction combinePairs f ds ss t with
  | case1 ss t => rfl
  | case2 d ds t => rfl
  | case3 d ds s ss t hlt r ih => rw [List.map_cons, List.map_cons, ih]
  | case4 d ds s ss t hnot hlt ih => exact ih
  | case5 d ds s ss t hnot hnot' w t' hf r ih =>
    rw [List.map_cons, List.map_cons, ih]
    rfl

theorem length_combinePairs (ds ss : List (Record k)) (t : τ) : (combinePairs f ds ss t).pairs.length = ds.length := by
  simpa using congrArg List.length (map_recordKey_combinePairs (f := f) ds ss t)

theorem length_of_mem_combinePairs {ds : List (Record k)} (hds : ∀ d ∈ ds, d.length = 2) (ss : List (Record k))
    (t : τ) : ∀ r ∈ (combinePairs f ds ss t).pairs, r.length = 2 := by
  fun_induction combinePairs f ds ss t with
  | case1 ss t => exact hds
  | case2 d ds t => exact hds
  | case3 d ds s ss t hlt r ih =>
    obtain ⟨hd, hds⟩ := List.forall_mem_cons.1 hds
    exact List.forall_mem_cons.2 ⟨hd, ih hds⟩
  | case4 d ds s ss t hnot hlt ih => exact ih hds
  | case5 d ds s ss t hnot hnot' w t' hf r ih => exact List.forall_mem_cons.2 ⟨rfl, ih (List.forall_mem_cons.1 hds).2⟩

theorem length_flatten_combinePairs {ds : List (Record k)} (hds : ∀ d ∈ ds, d.length = 2) (ss : List (Record k))
    (t : τ) : (combinePairs f ds ss t).pairs.flatten.length = ds.flatten.length := by
  rw [length_flatten_records (length_of_mem_combinePairs hds ss t), length_flatten_records hds, length_combinePairs]

private theorem recordsFrom_set_of_lt {i pos : Nat} (h : i < pos) (w : Word k) {stride : Nat} (n : Nat) :
    recordsFrom (l.set i w) stride n pos = recordsFrom l stride n pos := by
  induction n generalizing pos with
  | zero => rfl
  | succ n ih => rw [recordsFrom, recordsFrom, stretch_set_of_lt h, ih (by omega)]

private theorem Holds.patch_after {stride pos : Nat} {r : Record k} (h : Holds l stride pos r) (m : List (Word k)) :
    patch l (pos + stride) m = patch l pos (r ++ m) := by
  have hsame : patch l pos r = l := by rw [← h.eq, patch_stretch l h.le]
  have hsplit := patch_patch (congrArg (pos + ·) h.length) h.le m
  rw [hsame] at hsplit
  exact hsplit

section Pair
variable {pos : Nat} {d : Record k} (h : Holds l 2 pos d)
include h

private theorem Holds.getElem_value (hl : pos + 1 < l.length) : l[pos + 1] = recordValue d := by
  rw [← h.eq, stretch_succ 1 (by omega), stretch_succ 0 hl]
  rfl

private theorem Holds.patch_value (w : Word k) (m : List (Word k)) :
    patch (l.set (pos + 1) w) (pos + 2) m = patch l pos ([recordKey d, w] ++ m) := by
  have hl := h.le
  have hkey : l[pos] = recordKey d := by rw [← h.eq, recordKey_stretch Nat.two_pos]
  have hsame := patch_set (by omega : pos < l.length) l[pos] (w :: m)
  rw [List.set_getElem_self, hkey] at hsame
  rw [patch_set (by omega), hsame]
  rfl

end Pair

private theorem combinePairs_of_exhausted {pos posS nD nS : Nat} {t : τ} {r : Combined k τ} (h : nD = 0 ∨ nS = 0)
    (hl : pos + nD * 2 ≤ l.length) (hr : r = combinePairs f (recordsFrom l 2 nD pos) (recordsFrom ls 2 nS posS) t) :
    r.count = 0 ∧ r.state = t ∧ patch l pos r.pairs.flatten = l := by
  have hrest : r = ⟨0, recordsFrom l 2 nD pos, t⟩ := by
    rw [hr]
    rcases h with rfl | rfl
    · rw [recordsFrom, combinePairs]
    · rw [recordsFrom.eq_def ls, combinePairs_nil]
  subst hrest
  exact ⟨rfl, rfl, by rw [flatten_recordsFrom, patch_stretch l hl]⟩

section Walk
variable [Cells υ k] [Cells σ k] {V : υ → List (Word k) → Prop} {source : σ} {stop stopS : Nat}

/-- The fuel counts the pairs that are left on both sides. -/
theorem combineFrom_spec (hV : Cells.View V) (hs : Cells.Reads source ls) (hls : stopS ≤ ls.length) (fuel : Nat) :
    ∀ {pos posS nD nS n : Nat} {dest : υ} {l : List (Word k)} {t : τ} {r : Combined k τ}, V dest l → stop ≤ l.length →
      pos + nD * 2 = stop → posS + nS * 2 = stopS → nD + nS ≤ fuel →
      r = combinePairs f (recordsFrom l 2 nD pos) (recordsFrom ls 2 nS posS) t →
      ∃ dest', combineFrom Cells.get (fun _ => Cells.get source) Cells.set f stop stopS fuel pos posS dest n t =
          .ok (n + r.count, dest', r.state) ∧ V dest' (patch l pos r.pairs.flatten) := by
  induction fuel with
  | zero =>
    intro pos posS nD nS n dest l t r hdest hl hD hS hfuel hr
    obtain ⟨hcount, hstate, hwords⟩ := combinePairs_of_exhausted (by omega) (by omega) hr
    exact ⟨dest, by rw [hcount, hstate]; rfl, by rw [hwords]; exact hdest⟩
  | succ fuel ih =>
    intro pos posS nD nS n dest l t r hdest hl hD hS hfuel hr
    by_cases hmore : pos < stop ∧ posS < stopS
    · obtain ⟨nD, rfl⟩ : ∃ m, nD = m + 1 := ⟨nD - 1, by omega⟩
      obtain ⟨nS, rfl⟩ : ∃ m, nS = m + 1 := ⟨nS - 1, by omega⟩
      have hreads := hV.reads hdest
      obtain ⟨-, hD', d, hd, hget, hds⟩ := head_spec hreads Nat.two_pos hl hD
      obtain ⟨-, hS', s, hs', hgetS, hss⟩ := head_spec hs Nat.two_pos hls hS
      rw [hds, hss, combinePairs] at hr
      simp only [combineFrom, if_pos hmore, hget, hgetS, bind, Except.bind]
      by_cases hlt : recordKey d < recordKey s
      · rw [if_pos hlt, ← hss] at hr
        obtain ⟨dest', hrun, hshows⟩ := ih (n := n) hdest hl hD' hS (by omega) rfl
        subst hr
        refine ⟨dest', by rw [if_pos hlt, hrun], ?_⟩
        rw [List.flatten_cons, ← hd.patch_after]
        exact hshows
      · rw [if_neg hlt] at hr ⊢
        by_cases hgt : recordKey s < recordKey d
        · rw [if_pos hgt] at hr ⊢
          rw [← hds] at hr
          exact ih hdest hl hD hS' (by omega) hr
        · have hvalue : pos + 1 < l.length := by omega
          have hvalueS : posS + 1 < ls.length := by omega
          rw [if_neg hgt] at hr ⊢
          simp only [hreads.get (pos + 1) hvalue, hs.get (posS + 1) hvalueS, hd.getElem_value, hs'.getElem_value]
          rcases hf : f t (recordValue d) (recordValue s) with ⟨w, t'⟩
          obtain ⟨dest₁, hset, hdest₁⟩ := hV.set (pos + 1) w hdest hvalue
          obtain ⟨dest', hrun, hshows⟩ := ih (n := n + 1) (t := t') hdest₁ (by rw [List.length_set]; exact hl) hD' hS'
            (by omega) rfl
          rw [recordsFrom_set_of_lt (by omega)] at hrun hshows
          rw [hf] at hr
          subst hr
          refine ⟨dest', ?_, ?_⟩
          · simp only [hset, hrun, Nat.add_assoc, Nat.add_comm 1]
          · rw [List.flatten_cons, ← hd.patch_value]
            exact hshows
    · obtain ⟨hcount, hstate, hwords⟩ := combinePairs_of_exhausted (by omega) (by omega) hr
      exact ⟨dest, by rw [combineFrom, if_neg hmore, hcount, hstate]; rfl, by rw [hwords]; exact hdest⟩

theorem combine_spec (hV : Cells.View V) {dest : υ} (hdest : V dest l) (hs : Cells.Reads source ls) {start startS : Nat}
    (hD : RecordRange l 2 start stop) (hS : RecordRange ls 2 startS stopS) (t : τ) {r : Combined k τ}
    (hr : r = combinePairs f (records l 2 start stop) (records ls 2 startS stopS) t) :
    ∃ dest', combine dest source f t start stop startS stopS = .ok (r.count, dest', r.state) ∧
      V dest' (patch l start r.pairs.flatten) := by
  obtain ⟨dest', hrun, hshows⟩ := combineFrom_spec hV hs hS.le_length _ (n := 0) hdest hD.le_length hD.add_count
    hS.add_count (Nat.le_refl _) hr
  rw [Nat.zero_add] at hrun
  exact ⟨dest', hrun, hshows⟩

end Walk

end PagedWords.Union
