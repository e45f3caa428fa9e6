import PagedWords.Partition.Pieces
import PagedWords.Proofs.WordFolds

/-!
# How the pieces of a range tile it

Below position `2 ^ 63` no page start overflows, so a range falls into pieces that hold a word each, lie
on one page each and meet end to end. A run over the pieces is judged by what one piece does to it.
-/
namespace PagedWords.Partition
variable {β : Type} {p : Partition}

theorem pageStart_of_lt {i : Nat} (h : i * p.pageSize < positionLimit) :
    p.pageStart i = .ok (i * p.pageSize) := by
  cases p with
  | even n => exact mulPosition_of_lt h
  | pow2 shift =>
    have hs : i <<< shift = i * (pow2 shift).pageSize := by
      rw [pageSize, Nat.shiftLeft_eq, Nat.one_shiftLeft]
    rw [pageStart, hs, Nat.mod_eq_of_lt h]

theorem pageLength_eq {size i : Nat} (hi : i * p.pageSize < positionLimit) :
    p.pageLength i size = .ok (min (size - i * p.pageSize) p.pageSize) := by
  simp only [pageLength, pageStart_of_lt hi, bind, Except.bind, pure, Except.pure]

theorem pageLength_of_lt {size i : Nat} (hsize : size < 2 ^ 63) (hi : i * p.pageSize < size) :
    p.pageLength i size = .ok (min (size - i * p.pageSize) p.pageSize) :=
  pageLength_eq (Nat.lt_trans hi (Nat.lt_trans hsize (by decide)))

private theorem Valid.pageSize_lt (hp : p.Valid) : p.pageSize < positionLimit := by
  cases p with
  | even n => exact hp.2
  | pow2 shift =>
    rw [pageSize, positionLimit, Nat.one_shiftLeft, Nat.one_shiftLeft]
    exact Nat.pow_lt_pow_right (by decide) hp

theorem Valid.start_lt (hp : p.Valid) {i size : Nat} (hi : i < p.pageCount size) : i * p.pageSize < size := by
  have hP := hp.pageSize_pos
  rw [pageCount] at hi
  have hle := (Nat.le_div_iff_mul_le hP).1 hi
  rw [Nat.succ_mul] at hle
  omega

theorem Valid.le_pageCount_mul (hp : p.Valid) (size : Nat) : size ≤ p.pageCount size * p.pageSize := by
  have hP := hp.pageSize_pos
  have hdiv := Nat.lt_mul_div_succ (size + p.pageSize - 1) hP
  rw [pageCount]
  rw [Nat.mul_succ, Nat.mul_comm] at hdiv
  omega

theorem page_mul_le (p : Partition) (pos : Nat) : p.page pos * p.pageSize ≤ pos := by
  rw [page_eq_div]
  exact Nat.div_mul_le_self pos p.pageSize

theorem page_mul_add_offset (p : Partition) (pos : Nat) : p.page pos * p.pageSize + p.offset pos = pos := by
  rw [page_eq_div, offset_eq_mod]
  exact Nat.div_add_mod' pos p.pageSize

theorem Valid.offset_lt (hp : p.Valid) (pos : Nat) : p.offset pos < p.pageSize := by
  rw [offset_eq_mod]
  exact Nat.mod_lt pos hp.pageSize_pos

theorem page_offset_add {pos d : Nat} (h : p.offset pos + d < p.pageSize) :
    p.page (pos + d) = p.page pos ∧ p.offset (pos + d) = p.offset pos + d := by
  have hsplit : pos + d = p.offset pos + d + p.page pos * p.pageSize := by
    have := p.page_mul_add_offset pos
    omega
  have hpos : 0 < p.pageSize := by omega
  constructor
  · rw [page_eq_div, hsplit, Nat.add_mul_div_right _ _ hpos, Nat.div_eq_of_lt h, Nat.zero_add]
  · rw [offset_eq_mod, hsplit, Nat.add_mul_mod_self_right, Nat.mod_eq_of_lt h]

private theorem Valid.nextPage_lt (hp : p.Valid) {pos : Nat} (hpos : pos < 2 ^ 63) :
    (p.page pos + 1) * p.pageSize < positionLimit := by
  have hsize := hp.pageSize_lt
  have hle := p.page_mul_le pos
  have hlim : positionLimit = 2 ^ 64 := rfl
  rw [Nat.succ_mul]
  by_cases hP : p.pageSize ≤ 2 ^ 63
  · omega
  · have h0 : p.page pos = 0 := by
      rw [page_eq_div]
      exact Nat.div_eq_of_lt (by omega)
    rw [h0]
    omega

theorem pageStop_eq (hp : p.Valid) {pos : Nat} (stop : Nat) (hpos : pos < 2 ^ 63) :
    p.pageStop pos stop = .ok (min stop ((p.page pos + 1) * p.pageSize)) := by
  have hnext := hp.nextPage_lt hpos
  have hone : p.page pos + 1 < positionLimit :=
    Nat.lt_of_le_of_lt (Nat.le_mul_of_pos_right _ hp.pageSize_pos) hnext
  simp only [pageStop, addPosition_of_lt hone, pageStart_of_lt hnext, bind, Except.bind, pure, Except.pure]

/-- The piece `c` covers the positions `pos..next` and lies on the page of `pos`. -/
structure IsPiece (p : Partition) (pos next : Nat) (c : Piece) : Prop where
  page : c.page = p.page pos
  start : c.start = p.offset pos
  stop : c.stop = p.offset pos + (next - pos)
  logical : c.logical = pos
  lt : pos < next
  fits : c.stop ≤ p.pageSize

theorem IsPiece.length {pos next : Nat} {c : Piece} (h : IsPiece p pos next c) : c.length = next - pos := by
  rw [Piece.length, h.start, h.stop]
  omega

theorem IsPiece.start_add_length {pos next : Nat} {c : Piece} (h : IsPiece p pos next c) :
    c.start + c.length = c.stop := by
  rw [h.length, h.start, h.stop]

theorem IsPiece.start_le_stop {pos next : Nat} {c : Piece} (h : IsPiece p pos next c) : c.start ≤ c.stop := by
  rw [← h.start_add_length]
  exact Nat.le_add_right _ _

theorem IsPiece.logical_add {pos next : Nat} {c : Piece} (h : IsPiece p pos next c) (i : Nat) :
    c.start + i + (c.logical - c.start) = pos + i := by
  have hle : p.offset pos ≤ pos := by
    have := p.page_mul_add_offset pos
    omega
  rw [h.start, h.logical]
  omega

/-- A piece that begins before a page break does not reach over it. -/
theorem IsPiece.le_break {pos next : Nat} {c : Piece} (h : IsPiece p pos next c) {i : Nat}
    (hpos : pos < i * p.pageSize) :
    next ≤ i * p.pageSize := by
  have hstart := p.page_mul_add_offset pos
  have hfits := h.fits
  have hlt := h.lt
  rw [h.stop] at hfits
  have hpage : p.page pos < i := by
    rw [page_eq_div]
    exact (Nat.div_lt_iff_lt_mul (by omega)).2 hpos
  have hbreak : (p.page pos + 1) * p.pageSize ≤ i * p.pageSize := Nat.mul_le_mul_right _ hpage
  rw [Nat.succ_mul] at hbreak
  omega

theorem piece_eq_ok (hp : p.Valid) {pos stop : Nat} (hpos : pos < stop) (hstop : stop ≤ 2 ^ 63) :
    ∃ c next, p.piece pos stop = .ok (c, next) ∧ IsPiece p pos next c ∧ next ≤ stop := by
  have hoff := hp.offset_lt pos
  have hsplit := p.page_mul_add_offset pos
  obtain ⟨next, hnext⟩ : ∃ next, next = min stop ((p.page pos + 1) * p.pageSize) := ⟨_, rfl⟩
  have hlt : pos < next := by
    rw [hnext, Nat.succ_mul]
    omega
  have hfits : p.offset pos + (next - pos) ≤ p.pageSize := by
    rw [hnext, Nat.succ_mul]
    omega
  have hshort : p.offset pos + (next - 1 - pos) < p.pageSize := by omega
  have hlast := (p.page_offset_add hshort).2
  have hplace : pos + (next - 1 - pos) = next - 1 := by omega
  rw [hplace] at hlast
  refine ⟨⟨p.page pos, p.offset pos, p.offset (next - 1) + 1, pos⟩, next, ?_,
    ⟨rfl, rfl, ?_, rfl, hlt, ?_⟩, by omega⟩
  · simp only [piece, pageStop_eq hp stop (by omega : pos < 2 ^ 63), stopOffset, ← hnext, if_pos hlt, bind,
      Except.bind, pure, Except.pure]
  · simp only [hlast]
    omega
  · simp only [hlast]
    omega

theorem isPiece_of_samePage (hp : p.Valid) {start stop : Nat} (h : p.samePage start stop = true) :
    IsPiece p start stop ⟨p.page start, p.offset start, p.offset (stop - 1) + 1, start⟩ := by
  rw [samePage, Bool.and_eq_true, decide_eq_true_eq, beq_iff_eq] at h
  obtain ⟨hlt, hpage⟩ := h
  have hstart := p.page_mul_add_offset start
  have hstop := p.page_mul_add_offset (stop - 1)
  have hfits := hp.offset_lt (stop - 1)
  rw [← hpage] at hstop
  exact ⟨rfl, rfl, by show _ + 1 = _; omega, rfl, hlt, hfits⟩

section Fold
variable {stop : Nat} {f : β → Piece → Except Fault β} {R : Nat → β → Prop}

private theorem foldFrom_of_step (hp : p.Valid) (hstop : stop ≤ 2 ^ 63)
    (step : ∀ pos next c b, IsPiece p pos next c → next ≤ stop → R pos b →
      ∃ b', f b c = .ok b' ∧ R next b') (fuel : Nat) :
    ∀ pos b, pos ≤ stop → stop - pos ≤ fuel → R pos b →
      ∃ b', p.foldFrom stop f fuel pos b = .ok b' ∧ R stop b' := by
  induction fuel with
  | zero =>
    intro pos b hpos hfuel hR
    have hend : pos = stop := by omega
    exact ⟨b, rfl, hend ▸ hR⟩
  | succ fuel ih =>
    intro pos b hpos hfuel hR
    by_cases hend : stop ≤ pos
    · have hpos : pos = stop := by omega
      exact ⟨b, by rw [foldFrom, if_pos hend], hpos ▸ hR⟩
    · obtain ⟨c, next, hpiece, hc, hnext⟩ := piece_eq_ok hp (Nat.lt_of_not_le hend) hstop
      obtain ⟨b', hb, hR'⟩ := step pos next c b hc hnext hR
      have hlt := hc.lt
      obtain ⟨b'', hb', hR''⟩ := ih next b' hnext (by omega) hR'
      refine ⟨b'', ?_, hR''⟩
      simp only [foldFrom, if_neg hend, hpiece, hb, bind, Except.bind]
      exact hb'

/-- What each piece keeps holds after all of them. -/
theorem foldPieces_of_step (hp : p.Valid) {start : Nat} (hle : start ≤ stop) (hstop : stop ≤ 2 ^ 63)
    (step : ∀ pos next c b, IsPiece p pos next c → next ≤ stop → R pos b →
      ∃ b', f b c = .ok b' ∧ R next b') {b : β} (h : R start b) :
    ∃ b', p.foldPieces start stop f b = .ok b' ∧ R stop b' :=
  foldFrom_of_step hp hstop step (stop - start) start b hle (Nat.le_refl _) h

end Fold

section TryFold
variable {stop : Nat} {f : β → Piece → Except Fault (Except Error Unit × β)} {R : Nat → β → Prop}
  {E : Error → β → Prop}

private theorem tryFoldFrom_of_step (hp : p.Valid) (hstop : stop ≤ 2 ^ 63)
    (step : ∀ pos next c b, IsPiece p pos next c → next ≤ stop → R pos b →
      ∃ r, f b c = .ok r ∧ Ends (R next) E r) (fuel : Nat) :
    ∀ pos b, pos ≤ stop → stop - pos ≤ fuel → R pos b →
      ∃ r, p.tryFoldFrom stop f fuel pos b = .ok r ∧ Ends (R stop) E r := by
  induction fuel with
  | zero =>
    intro pos b hpos hfuel hR
    have hend : pos = stop := by omega
    exact ⟨(.ok (), b), rfl, hend ▸ hR⟩
  | succ fuel ih =>
    intro pos b hpos hfuel hR
    by_cases hend : stop ≤ pos
    · have hpos : pos = stop := by omega
      exact ⟨(.ok (), b), by rw [tryFoldFrom, if_pos hend], hpos ▸ hR⟩
    · obtain ⟨c, next, hpiece, hc, hnext⟩ := piece_eq_ok hp (Nat.lt_of_not_le hend) hstop
      obtain ⟨⟨r, b'⟩, hb, hR'⟩ := step pos next c b hc hnext hR
      have hlt := hc.lt
      cases r with
      | error e =>
        refine ⟨(.error e, b'), ?_, hR'⟩
        simp only [tryFoldFrom, if_neg hend, hpiece, hb, bind, Except.bind, pure, Except.pure]
      | ok u =>
        obtain ⟨r', hb', hR''⟩ := ih next b' hnext (by omega) hR'
        refine ⟨r', ?_, hR''⟩
        simp only [tryFoldFrom, if_neg hend, hpiece, hb, bind, Except.bind]
        exact hb'

/-- What each piece keeps holds after all of them, unless one of them answers an error. -/
theorem tryFoldPieces_of_step (hp : p.Valid) {start : Nat} (hle : start ≤ stop) (hstop : stop ≤ 2 ^ 63)
    (step : ∀ pos next c b, IsPiece p pos next c → next ≤ stop → R pos b →
      ∃ r, f b c = .ok r ∧ Ends (R next) E r) {b : β} (h : R start b) :
    ∃ r, p.tryFoldPieces start stop f b = .ok r ∧ Ends (R stop) E r :=
  tryFoldFrom_of_step hp hstop step (stop - start) start b hle (Nat.le_refl _) h

theorem tryFoldPieces_of_first (hp : p.Valid) {start : Nat} (hlt : start < stop) (hstop : stop ≤ 2 ^ 63) {b : β}
    {x : Except Fault (Except Error Unit × β)} (hx : ∀ b', x ≠ .ok (.ok (), b'))
    (h : ∀ next c, IsPiece p start next c → next ≤ stop → f b c = x) : p.tryFoldPieces start stop f b = x := by
  obtain ⟨c, next, hpiece, hc, hnext⟩ := piece_eq_ok hp hlt hstop
  obtain ⟨fuel, hfuel⟩ := Nat.exists_eq_add_of_lt hlt
  have hspan : stop - start = fuel + 1 := by omega
  simp only [tryFoldPieces, hspan, tryFoldFrom, if_neg (Nat.not_le.2 hlt), hpiece, h next c hc hnext, bind, Except.bind,
    pure, Except.pure]
  rcases x with fault | ⟨e | u, b'⟩
  · rfl
  · rfl
  · exact absurd rfl (hx b')

end TryFold

end PagedWords.Partition
