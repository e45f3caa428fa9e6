import PagedWords.Proofs.Tiling
import Mathlib.Algebra.GroupWithZero.Nat
import Mathlib.Data.Set.Function

/-!
# Positions as places on pages

Each position is a place on a page, and each place on the pages of an array is one of its positions. A range falls
into one piece for every page that it meets. What a partition does depends on its page size alone, not on whether it
divides or shifts.
-/
namespace PagedWords.Partition
variable {p q : Partition} {size start stop : Nat}

/-- The places on the pages of an array of `size` words, told by page and by place on the page. -/
def places (p : Partition) (size : Nat) : Set (Nat × Nat) :=
  {c | c.1 < p.pageCount size ∧ ∃ n, p.pageLength c.1 size = .ok n ∧ c.2 < n}

theorem page_offset_of_place {i o : Nat} (ho : o < p.pageSize) :
    p.page (i * p.pageSize + o) = i ∧ p.offset (i * p.pageSize + o) = o := by
  have hpos : 0 < p.pageSize := Nat.zero_lt_of_lt ho
  rw [page_eq_div, offset_eq_mod, Nat.add_comm]
  constructor
  · rw [Nat.add_mul_div_right _ _ hpos, Nat.div_eq_of_lt ho, Nat.zero_add]
  · rw [Nat.add_mul_mod_self_right, Nat.mod_eq_of_lt ho]

private theorem Valid.lt_pageCount_iff (hp : p.Valid) {i : Nat} : i < p.pageCount size ↔ i * p.pageSize < size := by
  have hP := hp.pageSize_pos
  refine ⟨hp.start_lt, fun h => ?_⟩
  rw [pageCount]
  apply (Nat.le_div_iff_mul_le hP).2
  rw [Nat.succ_mul]
  omega

theorem Valid.mem_places_iff (hp : p.Valid) (hsize : size < positionLimit) {c : Nat × Nat} :
    c ∈ p.places size ↔ c.2 < p.pageSize ∧ c.1 * p.pageSize + c.2 < size := by
  constructor
  · rintro ⟨hi, n, hn, ho⟩
    have hlt := hp.start_lt hi
    rw [pageLength_eq (Nat.lt_trans hlt hsize)] at hn
    cases hn
    omega
  · rintro ⟨ho, hlt⟩
    have hstart : c.1 * p.pageSize < size := by omega
    refine ⟨hp.lt_pageCount_iff.2 hstart, _, pageLength_eq (Nat.lt_trans hstart hsize), ?_⟩
    omega

theorem Valid.bijOn_places (hp : p.Valid) (hsize : size < positionLimit) :
    Set.BijOn (fun pos => (p.page pos, p.offset pos)) {pos | pos < size} (p.places size) := by
  refine ⟨?_, ?_, ?_⟩
  · intro pos (hpos : pos < size)
    refine (hp.mem_places_iff hsize).2 ⟨hp.offset_lt pos, ?_⟩
    rw [p.page_mul_add_offset pos]
    exact hpos
  · intro pos _ pos' _ h
    obtain ⟨hpage, hoffset⟩ := Prod.mk.inj h
    rw [← p.page_mul_add_offset pos, ← p.page_mul_add_offset pos', hpage, hoffset]
  · intro c hc
    obtain ⟨ho, hlt⟩ := (hp.mem_places_iff hsize).1 hc
    obtain ⟨hpage, hoffset⟩ := p.page_offset_of_place (i := c.1) ho
    exact ⟨c.1 * p.pageSize + c.2, hlt, Prod.ext hpage hoffset⟩

private theorem mapM_eq_ok {α β : Type} {f : α → Except Fault β} {g : α → β} {xs : List α}
    (h : ∀ x ∈ xs, f x = .ok (g x)) :
    xs.mapM f = .ok (xs.map g) := by
  induction xs with
  | nil => rfl
  | cons x xs ih =>
    rw [List.mapM_cons, h x List.mem_cons_self, ih (fun y hy => h y (List.mem_cons_of_mem x hy))]
    rfl

private theorem sum_lengths (n size m : Nat) :
    ((List.range m).map (fun i => min (size - i * n) n)).sum = min size (m * n) := by
  induction m with
  | zero => simp
  | succ m ih =>
    rw [List.range_succ, List.map_append, List.sum_append, ih, Nat.succ_mul]
    simp only [List.map_cons, List.map_nil, List.sum_cons, List.sum_nil]
    omega

/-- All pages but the last are full, the last is not empty, and together they hold `size` words. -/
theorem Valid.pageLengths (hp : p.Valid) (hsize : size < positionLimit) :
    ∃ lengths, (List.range (p.pageCount size)).mapM (fun i => p.pageLength i size) = .ok lengths ∧
      lengths.sum = size ∧ (∀ n ∈ lengths.dropLast, n = p.pageSize) ∧ ∀ n ∈ lengths, 0 < n := by
  have hP := hp.pageSize_pos
  have hcover := hp.le_pageCount_mul size
  refine ⟨(List.range (p.pageCount size)).map (fun i => min (size - i * p.pageSize) p.pageSize), ?_, ?_, ?_, ?_⟩
  · apply mapM_eq_ok
    intro i hi
    exact pageLength_eq (Nat.lt_trans (hp.start_lt (List.mem_range.1 hi)) hsize)
  · rw [sum_lengths, Nat.min_eq_left hcover]
  · intro n hn
    rw [← List.map_dropLast, List.dropLast_eq_take, List.length_range, List.take_range] at hn
    obtain ⟨i, hi, rfl⟩ := List.mem_map.1 hn
    have hnext : (i + 1) * p.pageSize < size := hp.start_lt (by have := List.mem_range.1 hi; omega)
    rw [Nat.succ_mul] at hnext
    omega
  · intro n hn
    obtain ⟨i, hi, rfl⟩ := List.mem_map.1 hn
    have hlt := hp.start_lt (List.mem_range.1 hi)
    omega

theorem samePage_iff (p : Partition) (start stop : Nat) : p.samePage start stop = true ↔
    start < stop ∧ ∀ i j, start ≤ i → i < stop → start ≤ j → j < stop → p.page i = p.page j := by
  rw [samePage, Bool.and_eq_true, decide_eq_true_eq, beq_iff_eq]
  refine and_congr_right fun hlt => ⟨?_, fun h => h start (stop - 1) (Nat.le_refl _) hlt (by omega) (by omega)⟩
  intro hends
  have hfirst : ∀ i, start ≤ i → i < stop → p.page i = p.page start := by
    intro i hi hi'
    have hlow : p.page start ≤ p.page i := by
      rw [page_eq_div, page_eq_div]
      exact Nat.div_le_div_right hi
    have hhigh : p.page i ≤ p.page (stop - 1) := by
      rw [page_eq_div, page_eq_div]
      exact Nat.div_le_div_right (by omega)
    omega
  intro i j hi hi' hj hj'
  rw [hfirst i hi hi', hfirst j hj hj']

/-- The pieces are the positions `start..stop` in their order, and one page after the other. -/
structure Tiles (p : Partition) (start stop : Nat) (cs : List Piece) : Prop where
  positions : cs.flatMap (fun c => List.range' c.logical c.length) = List.range' start (stop - start)
  pages : cs.map Piece.page = List.range' (p.page start) cs.length
  nonempty : ∀ c ∈ cs, c.start < c.stop
  places : ∀ c ∈ cs, ∀ i, i < c.length → p.page (c.logical + i) = c.page ∧ p.offset (c.logical + i) = c.start + i

namespace Tiles
variable {pos next : Nat} {c : Piece} {cs : List Piece}

private theorem empty (p : Partition) (h : stop ≤ pos) : Tiles p pos stop [] :=
  ⟨by rw [Nat.sub_eq_zero_of_le h]; rfl, rfl, nofun, nofun⟩

private theorem eq_nil (h : Tiles p pos stop cs) (hstop : stop ≤ pos) : cs = [] := by
  cases cs with
  | nil => rfl
  | cons c cs =>
    have hpositions := congrArg List.length h.positions
    have hlt := h.nonempty c List.mem_cons_self
    rw [Nat.sub_eq_zero_of_le hstop, List.flatMap_cons, List.length_append, List.length_range'] at hpositions
    simp only [List.range'_zero, List.length_nil, Piece.length] at hpositions
    omega

private theorem cons (hc : IsPiece p pos next c) (hstop : next ≤ stop)
    (hpage : next < stop → p.page next = p.page pos + 1)
    (h : Tiles p next stop cs) : Tiles p pos stop (c :: cs) := by
  have hlt := hc.lt
  refine ⟨?_, ?_, ?_, ?_⟩
  · have hsplit : stop - pos = next - pos + (stop - next) := by omega
    have hnext : pos + (next - pos) = next := by omega
    rw [List.flatMap_cons, h.positions, hc.logical, hc.length, hsplit, ← List.range'_append_1, hnext]
  · rw [List.map_cons, List.length_cons, List.range'_succ, hc.page]
    rcases Nat.lt_or_ge next stop with hmore | hend
    · rw [h.pages, hpage hmore]
    · rw [h.eq_nil hend]
      rfl
  · intro d hd
    rcases List.mem_cons.1 hd with rfl | hd
    · rw [hc.start, hc.stop]
      omega
    · exact h.nonempty d hd
  · intro d hd i hi
    rcases List.mem_cons.1 hd with rfl | hd
    · have hfits := hc.fits
      rw [hc.stop] at hfits
      rw [hc.length] at hi
      rw [hc.logical, hc.page, hc.start]
      exact p.page_offset_add (by omega)
    · exact h.places d hd i hi

end Tiles

private theorem piece_stops (hp : p.Valid) {pos next : Nat} {c : Piece} (hpos : pos < 2 ^ 63)
    (h : p.piece pos stop = .ok (c, next)) : next = min stop ((p.page pos + 1) * p.pageSize) := by
  simp only [piece, pageStop_eq hp stop hpos, bind, Except.bind, pure, Except.pure] at h
  split at h
  · cases h
  · cases h
    rfl

private theorem foldFrom_tiles (hp : p.Valid) (hstop : stop ≤ 2 ^ 63) (fuel : Nat) :
    ∀ (pos : Nat) (before : List Piece),
    stop - pos ≤ fuel → ∃ cs, p.foldFrom stop (fun cs c => .ok (cs ++ [c])) fuel pos before = .ok (before ++ cs) ∧
      Tiles p pos stop cs := by
  induction fuel with
  | zero =>
    intro pos before hfuel
    exact ⟨[], by rw [foldFrom, List.append_nil], .empty p (by omega)⟩
  | succ fuel ih =>
    intro pos before hfuel
    rcases Nat.lt_or_ge pos stop with hpos | hend
    · obtain ⟨c, next, hpiece, hc, hnext⟩ := piece_eq_ok hp hpos hstop
      have hlt := hc.lt
      obtain ⟨cs, hrun, hcs⟩ := ih next (before ++ [c]) (by omega)
      refine ⟨c :: cs, ?_, .cons hc hnext (fun hmore => ?_) hcs⟩
      · rw [List.append_assoc] at hrun
        simp only [foldFrom, if_neg (Nat.not_le.2 hpos), hpiece, bind, Except.bind]
        exact hrun
      · have hbreak : next = (p.page pos + 1) * p.pageSize + 0 := by
          have hmin := piece_stops hp (by omega) hpiece
          omega
        rw [hbreak]
        exact (p.page_offset_of_place hp.pageSize_pos).1
    · exact ⟨[], by rw [foldFrom, if_pos hend, List.append_nil], .empty p hend⟩

theorem pieces_tile (hp : p.Valid) (hstop : stop ≤ 2 ^ 63) (start : Nat) :
    ∃ cs, p.pieces start stop = .ok cs ∧ Tiles p start stop cs :=
  foldFrom_tiles hp hstop (stop - start) start [] (Nat.le_refl _)

/-- The partitions tell positions, pages and pieces alike. -/
structure Alike (p q : Partition) : Prop where
  page : ∀ pos, q.page pos = p.page pos
  offset : ∀ pos, q.offset pos = p.offset pos
  pageCount : ∀ size, q.pageCount size = p.pageCount size
  pageStart : ∀ size i, size < positionLimit → i < p.pageCount size → q.pageStart i = p.pageStart i
  pageLength : ∀ size i, size < positionLimit → i < p.pageCount size → q.pageLength i size = p.pageLength i size
  samePage : ∀ start stop, q.samePage start stop = p.samePage start stop
  pieces : ∀ start stop, stop ≤ 2 ^ 63 → q.pieces start stop = p.pieces start stop

private theorem foldFrom_congr {β : Type} {f : β → Piece → Except Fault β}
    (h : ∀ pos, pos < stop → q.piece pos stop = p.piece pos stop) (fuel : Nat) :
    ∀ (pos : Nat) (b : β), q.foldFrom stop f fuel pos b = p.foldFrom stop f fuel pos b := by
  induction fuel with
  | zero =>
    intro pos b
    rfl
  | succ fuel ih =>
    intro pos b
    simp only [foldFrom]
    split
    · rfl
    · next hpos => simp only [h pos (Nat.lt_of_not_le hpos), ih]

theorem Valid.alike (hp : p.Valid) (hq : q.Valid) (hsize : q.pageSize = p.pageSize) : Alike p q := by
  have hpage : ∀ pos, q.page pos = p.page pos := fun pos => by rw [page_eq_div, page_eq_div, hsize]
  have hoffset : ∀ pos, q.offset pos = p.offset pos := fun pos => by rw [offset_eq_mod, offset_eq_mod, hsize]
  have hlt : ∀ {size i : Nat}, size < positionLimit → i < p.pageCount size → i * p.pageSize < positionLimit :=
    fun hlim hi => Nat.lt_trans (hp.start_lt hi) hlim
  refine ⟨hpage, hoffset, fun size => by rw [pageCount, pageCount, hsize], ?_, ?_, ?_, ?_⟩
  · intro size i hlim hi
    rw [pageStart_of_lt (hlt hlim hi), pageStart_of_lt (hsize ▸ hlt hlim hi), hsize]
  · intro size i hlim hi
    rw [pageLength_eq (hlt hlim hi), pageLength_eq (hsize ▸ hlt hlim hi), hsize]
  · intro start stop
    rw [samePage, samePage, hpage, hpage]
  · intro start stop hstop
    refine foldFrom_congr (fun pos hpos => ?_) (stop - start) start []
    have hlow : pos < 2 ^ 63 := by omega
    simp only [piece, pageStop_eq hp stop hlow, pageStop_eq hq stop hlow, stopOffset, hpage, hoffset, hsize]

/-- Positions are the places on pages, the pages of an array are full but for the last, and a range is told piece by
piece, one page after the other. Partitions with one page size do all of this alike. -/
theorem addressing_tiles (hp : p.Valid) :
    (∀ size, size < positionLimit →
      Set.BijOn (fun pos => (p.page pos, p.offset pos)) {pos | pos < size} (p.places size) ∧
      (∀ pos, pos < size → ∃ base, p.pageStart (p.page pos) = .ok base ∧ base + p.offset pos = pos) ∧
      (∀ c ∈ p.places size, ∃ base, p.pageStart c.1 = .ok base ∧ base + c.2 < size ∧
        (p.page (base + c.2), p.offset (base + c.2)) = c) ∧
      ∃ lengths, (List.range (p.pageCount size)).mapM (fun i => p.pageLength i size) = .ok lengths ∧
        lengths.sum = size ∧ (∀ n ∈ lengths.dropLast, n = p.pageSize) ∧ ∀ n ∈ lengths, 0 < n) ∧
    (∀ start stop, p.samePage start stop = true ↔
      start < stop ∧ ∀ i j, start ≤ i → i < stop → start ≤ j → j < stop → p.page i = p.page j) ∧
    (∀ start stop, start ≤ 2 ^ 63 → stop ≤ 2 ^ 63 → ∃ cs, p.pieces start stop = .ok cs ∧ Tiles p start stop cs) ∧
    ∀ q : Partition, q.Valid → q.pageSize = p.pageSize → Alike p q := by
  refine ⟨fun size hsize => ⟨hp.bijOn_places hsize, ?_, ?_, hp.pageLengths hsize⟩, p.samePage_iff,
    fun start stop _ hstop => pieces_tile hp hstop start, fun q hq => hp.alike hq⟩
  · intro pos hpos
    have hle := p.page_mul_le pos
    exact ⟨_, pageStart_of_lt (by omega), p.page_mul_add_offset pos⟩
  · intro c hc
    obtain ⟨ho, hlt⟩ := (hp.mem_places_iff hsize).1 hc
    obtain ⟨hpage, hoffset⟩ := p.page_offset_of_place (i := c.1) ho
    exact ⟨_, pageStart_of_lt (by omega), hlt, Prod.ext hpage hoffset⟩

/-- Ten words on pages of four, told by division and by shifts; their positions from the fourth on lie on three
pages. -/
theorem addressing_tiles_in_fours :
    (even 4).Valid ∧ (pow2 2).Valid ∧ (pow2 2).pageSize = (even 4).pageSize ∧ 10 < positionLimit ∧
      (2, 1) ∈ (even 4).places 10 ∧ (∃ base, (even 4).pageStart 2 = .ok base ∧ base + 1 = 9) ∧
      (List.range ((even 4).pageCount 10)).mapM (fun i => (even 4).pageLength i 10) = .ok [4, 4, 2] ∧
      (∃ cs, (even 4).pieces 3 10 = .ok cs ∧ cs.map Piece.page = [0, 1, 2]) ∧
      (pow2 2).pieces 3 10 = (even 4).pieces 3 10 := by
  have hp : (even 4).Valid := valid_of_evenOf (rfl : evenOf 4 = _)
  have hq : (pow2 2).Valid := valid_of_pow2Of (rfl : pow2Of 4 = _)
  obtain ⟨hplaces, -, htiles, halike⟩ := addressing_tiles hp
  obtain ⟨hbij, hstart, -⟩ := hplaces 10 (by decide)
  obtain ⟨cs, hcs, htile⟩ := htiles 3 10 (by decide) (by decide)
  have hcount : cs.length = 3 := by
    have hrun : (even 4).pieces 3 10 = .ok [⟨0, 3, 4, 3⟩, ⟨1, 0, 4, 4⟩, ⟨2, 0, 2, 8⟩] := by decide
    cases hcs.symm.trans hrun
    rfl
  refine ⟨hp, hq, by decide, by decide, hbij.mapsTo (by decide : 9 < 10), hstart 9 (by decide), by decide,
    ⟨cs, hcs, ?_⟩, (halike _ hq (by decide)).pieces 3 10 (by decide)⟩
  rw [htile.pages, hcount]
  rfl

end PagedWords.Partition
