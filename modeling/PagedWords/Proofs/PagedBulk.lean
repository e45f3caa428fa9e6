import PagedWords.Paged.Bulk
import PagedWords.Proofs.PagedView

/-!
# Range operations on paged arrays, told on the word list

Page by page they come to what they come to on the words in one piece: the pieces of a range meet end to
end, and each works on its own stretch of the list.
-/
namespace PagedWords
variable {k : Width} {τ : Type}

namespace Page
variable {p : Page k}

theorem modify_spec (hw : p.isWritable = true) {f : Words k → Except Fault (Words k)} {l : List (Word k)}
    (hf : ∃ ws, f p.words = .ok ws ∧ ws.toList = l) (hl : l.length = p.size) :
    ∃ p', p.modify f = .ok p' ∧ p'.frame = p.frame ∧ p'.words.toList = l := by
  obtain ⟨ws, hrun, hws⟩ := hf
  refine ⟨⟨ws, p.region⟩, ?_, ?_, hws⟩
  · rw [modify_of_writable hw, hrun]
    rfl
  · have hsize : ws.size = p.size := by rw [← Array.length_toList, hws, hl]
    simp only [frame, size] at hsize ⊢
    rw [hsize]

private theorem modifyWith_of_writable (hw : p.isWritable = true) (f : Words k → Except Fault (Words k × τ)) :
    p.modifyWith f = (fun r => (⟨r.1, p.region⟩, r.2)) <$> f p.words := by
  simp only [modifyWith, hw, if_true]
  cases f p.words <;> rfl

variable {start stop : Nat}

theorem length_patch_words {m : List (Word k)} (h : start + m.length ≤ p.size) :
    (patch p.words.toList start m).length = p.size := by
  rw [length_patch (by rw [length_words]; exact h), length_words]

theorem swap_spec (hw : p.isWritable = true) {i j : Nat} (hi : i < p.words.toList.length)
    (hj : j < p.words.toList.length) :
    ∃ p', p.swap i j = .ok p' ∧ p'.frame = p.frame ∧
      p'.words.toList = (p.words.toList.set i p.words.toList[j]).set j p.words.toList[i] :=
  modify_spec hw (Words.view.swap rfl hi hj) (by rw [List.length_set, List.length_set, length_words])

theorem swapRecords_spec (hw : p.isWritable = true) {n i j : Nat} (hi : i + n ≤ p.size) (hj : j + n ≤ p.size)
    (hij : i = j ∨ i + n ≤ j ∨ j + n ≤ i) :
    ∃ p', p.swapRecords n i j = .ok p' ∧ p'.frame = p.frame ∧
      p'.words.toList = swapStretches p.words.toList n i j := by
  refine modify_spec hw (Words.swapRecords_spec hi hj hij) ?_
  rw [length_swapStretches (by rw [length_words]; exact hi) (by rw [length_words]; exact hj), length_words]

theorem writeRange_spec (hw : p.isWritable = true) {ws : Words k} (h : start + ws.size ≤ p.size) :
    ∃ p', p.writeRange start ws = .ok p' ∧ p'.frame = p.frame ∧
      p'.words.toList = patch p.words.toList start ws.toList :=
  modify_spec hw (Words.writeRange_spec h) (length_patch_words (by simpa using h))

theorem fill_spec (hw : p.isWritable = true) (hs : start ≤ stop) (hl : stop ≤ p.size) (w : Word k) :
    ∃ p', p.fill start stop w = .ok p' ∧ p'.frame = p.frame ∧
      p'.words.toList = patch p.words.toList start (List.replicate (stop - start) w) :=
  modify_spec hw (Words.fill_spec hs hl w) (length_patch_words (by simp; omega))

theorem transform_spec (hw : p.isWritable = true) (f : τ → Nat → Word k → Word k × τ) (hs : start ≤ stop)
    (hl : stop ≤ p.size) (t : τ) :
    ∃ p', p.transform start stop f t =
        .ok (p', (transformWords f start (stretch p.words.toList start (stop - start)) t).2) ∧
      p'.frame = p.frame ∧ p'.words.toList =
        patch p.words.toList start (transformWords f start (stretch p.words.toList start (stop - start)) t).1 := by
  obtain ⟨ws, hrun, hws⟩ := Words.transform_spec f hs hl t
  have hlen := congrArg List.length hws
  rw [length_patch_words (by
    rw [length_transformWords, length_stretch (by rw [length_words]; omega)]; omega), Array.length_toList] at hlen
  refine ⟨⟨ws, p.region⟩, ?_, congrArg (·, p.region) hlen, hws⟩
  rw [transform, modifyWith_of_writable hw, hrun]
  rfl

theorem tryTransform_spec (hw : p.isWritable = true) (f : τ → Nat → Word k → Except Error (Word k) × τ)
    (hs : start ≤ stop) (hl : stop ≤ p.size) (t : τ) :
    ∃ p', p.tryTransform start stop f t =
        .ok ((tryTransformWords f start (stretch p.words.toList start (stop - start)) t).1, p',
          (tryTransformWords f start (stretch p.words.toList start (stop - start)) t).2.2) ∧
      p'.frame = p.frame ∧ p'.words.toList = patch p.words.toList start
        (tryTransformWords f start (stretch p.words.toList start (stop - start)) t).2.1 := by
  obtain ⟨ws, hrun, hws⟩ := Words.tryTransform_spec f hs hl t
  have hle := length_tryTransformWords_le f start (stretch p.words.toList start (stop - start)) t
  rw [length_stretch (by rw [length_words]; omega)] at hle
  have hlen := congrArg List.length hws
  rw [length_patch_words (by omega), Array.length_toList] at hlen
  refine ⟨⟨ws, p.region⟩, ?_, congrArg (·, p.region) hlen, hws⟩
  simp only [tryTransform, hw, if_true, hrun, bind, Except.bind, pure, Except.pure]

end Page

namespace Paged
variable {a : Paged k}

section Read
variable (ha : a.WellFormed) (hs : a.size < 2 ^ 63)
include ha hs

theorem add_length_stretch {start pos : Nat} (hpos : start ≤ pos) (hl : pos ≤ a.size) :
    start + (stretch a.toList start (pos - start)).length = pos := by
  rw [length_stretch (by rw [length_toList ha hs]; omega)]
  omega

section Piece
variable {pos next : Nat} {c : Piece} (hc : a.partition.IsPiece pos next c) (hn : next ≤ a.size)
include hc hn

private theorem readPiece_eq (acc : Words k) :
    (do
      let p ← a.page c.page
      return acc ++ (← p.words.readRange c.start c.length)) =
      (.ok (acc ++ (stretch a.toList pos (next - pos)).toArray) : Except Fault (Words k)) := by
  obtain ⟨p, hp, hstop, hwords⟩ := page_of_piece ha hs hc hn
  have hlen : c.start + c.length ≤ p.words.size := by
    rw [hc.start_add_length]
    exact hstop
  simp only [page_eq_ok hp, Words.readRange_eq hlen, hwords, bind, Except.bind, pure, Except.pure]

private theorem foldPiece_eq (f : τ → Nat → Word k → τ) (t : τ) :
    (do
      let p ← a.page c.page
      p.words.fold c.start c.stop (fun t pos w => f t (pos + (c.logical - c.start)) w) t) =
      .ok (foldWords f pos (stretch a.toList pos (next - pos)) t) := by
  obtain ⟨p, hp, hstop, hwords⟩ := page_of_piece ha hs hc hn
  rw [Piece.length] at hwords
  simp only [page_eq_ok hp, Words.fold_eq _ hc.start_le_stop hstop, hwords, bind, Except.bind]
  rw [foldWords_shift f _ hc.logical_add]

private theorem tryFoldPiece_eq (f : τ → Nat → Word k → Except Error Unit × τ) (t : τ) :
    (do
      let p ← a.page c.page
      p.words.tryFold c.start c.stop (fun t pos w => f t (pos + (c.logical - c.start)) w) t) =
      .ok (tryFoldWords f pos (stretch a.toList pos (next - pos)) t) := by
  obtain ⟨p, hp, hstop, hwords⟩ := page_of_piece ha hs hc hn
  rw [Piece.length] at hwords
  simp only [page_eq_ok hp, Words.tryFold_eq _ hc.start_le_stop hstop, hwords, bind, Except.bind]
  rw [tryFoldWords_shift f _ hc.logical_add]

end Piece

theorem readRange_eq {start n : Nat} (hn : start + n ≤ a.size) :
    a.readRange start n = .ok (stretch a.toList start n).toArray := by
  have hadd : addPosition start n = .ok (start + n) := by
    apply addPosition_of_lt
    have hlim : positionLimit = 2 ^ 64 := rfl
    omega
  suffices h : ∃ acc, a.readRange start n = .ok acc ∧ start ≤ start + n ∧
      acc = (stretch a.toList start (start + n - start)).toArray by
    obtain ⟨acc, hrun, -, hacc⟩ := h
    rw [hrun, hacc, Nat.add_sub_cancel_left]
  rw [readRange, hadd]
  refine Partition.foldPieces_of_step
    (R := fun pos acc => start ≤ pos ∧ acc = (stretch a.toList start (pos - start)).toArray)
    ha.partition (by omega) (by omega) ?_ ⟨Nat.le_refl _, by rw [Nat.sub_self, stretch_zero]⟩
  rintro pos next c acc hc hnext ⟨hpos, rfl⟩
  refine ⟨_, readPiece_eq ha hs hc (by omega) _, Nat.le_trans hpos (Nat.le_of_lt hc.lt), ?_⟩
  rw [List.append_toArray, stretch_split _ hpos (Nat.le_of_lt hc.lt)]

theorem fold_eq (f : τ → Nat → Word k → τ) {start stop : Nat} (hle : start ≤ stop) (hl : stop ≤ a.size) (t : τ) :
    a.fold start stop f t = .ok (foldWords f start (stretch a.toList start (stop - start)) t) := by
  suffices h : ∃ t', a.fold start stop f t = .ok t' ∧ start ≤ stop ∧
      t' = foldWords f start (stretch a.toList start (stop - start)) t by
    obtain ⟨t', hrun, -, ht'⟩ := h
    rw [hrun, ht']
  refine Partition.foldPieces_of_step
    (R := fun pos t' => start ≤ pos ∧ t' = foldWords f start (stretch a.toList start (pos - start)) t)
    ha.partition hle (by omega) ?_ ⟨Nat.le_refl _, by rw [Nat.sub_self, stretch_zero, foldWords]⟩
  rintro pos next c t' hc hnext ⟨hpos, rfl⟩
  have hlt := hc.lt
  refine ⟨_, foldPiece_eq ha hs hc (by omega) f _, by omega, ?_⟩
  rw [stretch_split _ hpos (Nat.le_of_lt hc.lt), foldWords_append, add_length_stretch ha hs hpos (by omega)]

theorem tryFold_eq (f : τ → Nat → Word k → Except Error Unit × τ) {start stop : Nat} (hle : start ≤ stop)
    (hl : stop ≤ a.size) (t : τ) :
    a.tryFold start stop f t = .ok (tryFoldWords f start (stretch a.toList start (stop - start)) t) := by
  suffices h : ∃ r, a.tryFold start stop f t = .ok r ∧ Ends
      (fun t' => start ≤ stop ∧ tryFoldWords f start (stretch a.toList start (stop - start)) t = (.ok (), t'))
      (fun e t' => tryFoldWords f start (stretch a.toList start (stop - start)) t = (.error e, t')) r by
    obtain ⟨⟨e | u, t'⟩, hrun, hend⟩ := h
    · rw [hrun]
      exact congrArg Except.ok (Eq.symm hend)
    · rw [hrun]
      exact congrArg Except.ok hend.2.symm
  refine Partition.tryFoldPieces_of_step
    (R := fun pos t' => start ≤ pos ∧ tryFoldWords f start (stretch a.toList start (pos - start)) t = (.ok (), t'))
    ha.partition hle (by omega) ?_ ⟨Nat.le_refl _, by rw [Nat.sub_self, stretch_zero, tryFoldWords]⟩
  rintro pos next c t₁ hc hnext ⟨hpos, ht₁⟩
  have hlt := hc.lt
  have happ := tryFoldWords_append_of_ok ht₁ (stretch a.toList pos (next - pos))
  rw [add_length_stretch ha hs hpos (by omega), ← stretch_split _ hpos (Nat.le_of_lt hc.lt)] at happ
  refine ⟨_, tryFoldPiece_eq ha hs hc (by omega) f _, ?_⟩
  rcases hr : tryFoldWords f pos (stretch a.toList pos (next - pos)) t₁ with ⟨e | u, t₂⟩
  · rw [hr] at happ
    have hrest : stop - start = next - start + (stop - next) := by omega
    show tryFoldWords f start (stretch a.toList start (stop - start)) t = (.error e, t₂)
    rw [hrest, stretch_add]
    exact tryFoldWords_append_of_error happ _
  · rw [hr] at happ
    exact ⟨by omega, happ⟩

end Read

/-- An array that takes writes at all its positions. -/
structure Ready (a : Paged k) : Prop where
  wellFormed : a.WellFormed
  size_lt : a.size < 2 ^ 63
  writable : a.isWritable = true

theorem Ready.of_frame {a' : Paged k} (ha : a.Ready) (h : a'.frame = a.frame) : a'.Ready :=
  ⟨ha.wellFormed.of_frame h, by rw [size_of_frame h]; exact ha.size_lt, isWritable_of_frame h ha.writable⟩

theorem Ready.length_toList (ha : a.Ready) : a.toList.length = a.size :=
  Paged.length_toList ha.wellFormed ha.size_lt

theorem trySet_spec (ha : a.Ready) {pos : Nat} (hpos : pos < a.size) (w : Word k) :
    ∃ a', a.trySet pos w = .ok (.ok (), a') ∧ a'.frame = a.frame ∧ a'.toList = a.toList.set pos w := by
  obtain ⟨a', hrun, hset⟩ := set_spec ha.wellFormed ha.size_lt ha.writable hpos w
  obtain ⟨p, hp, -⟩ := page_of_piece ha.wellFormed ha.size_lt (isPiece_one ha.wellFormed.partition pos) hpos
  have hpage : a.page (a.partition.page pos) = .ok p := page_eq_ok hp
  refine ⟨a', ?_, hset⟩
  simp only [trySet, if_neg (Nat.not_le.2 hpos), hpage, page_isWritable ha.writable hp, hrun, if_true, bind,
    Except.bind, pure, Except.pure]

section WritePiece
variable {pos next : Nat} {c : Piece}

/-- What happens to the stretch of a piece on its page happens to it in the array. -/
theorem replacePage_spec (ha : a.Ready) (hc : a.partition.IsPiece pos next c) {p p' : Page k}
    (hp : a.pages[c.page]? = some p) (hstop : c.stop ≤ p.size) (hfr : p'.frame = p.frame) {m : List (Word k)}
    (hm : m.length ≤ next - pos) (hp' : p'.words.toList = patch p.words.toList c.start m) :
    ({ a with pages := a.pages.setIfInBounds c.page p' } : Paged k).frame = a.frame ∧
      ({ a with pages := a.pages.setIfInBounds c.page p' } : Paged k).toList = patch a.toList pos m := by
  have hlen := hc.length
  have hsum := hc.start_add_length
  exact ⟨frame_replacePage hp hfr, toList_replacePage ha.wellFormed ha.size_lt hc hp (by omega) hp'⟩

theorem modifyPage_spec (ha : a.Ready) (hc : a.partition.IsPiece pos next c) (hn : next ≤ a.size)
    {f : Page k → Except Fault (Page k)} {m : List (Word k)} (hm : m.length ≤ next - pos)
    (hf : ∀ p : Page k, p.isWritable = true → c.stop ≤ p.size →
      ∃ p', f p = .ok p' ∧ p'.frame = p.frame ∧ p'.words.toList = patch p.words.toList c.start m) :
    ∃ a', a.modifyPage c.page f = .ok a' ∧ a'.frame = a.frame ∧ a'.toList = patch a.toList pos m := by
  obtain ⟨p, hp, hstop, -⟩ := page_of_piece ha.wellFormed ha.size_lt hc hn
  obtain ⟨p', hrun, hfr, hwords⟩ := hf p (page_isWritable ha.writable hp) hstop
  refine ⟨_, ?_, replacePage_spec ha hc hp hstop hfr hm hwords⟩
  simp only [modifyPage, page_eq_ok hp, hrun, bind, Except.bind, pure, Except.pure]

theorem transformPiece_spec (ha : a.Ready) (hc : a.partition.IsPiece pos next c) (hn : next ≤ a.size)
    (f : τ → Nat → Word k → Word k × τ) (t : τ) :
    ∃ a', (do
        let p ← a.page c.page
        let (p, t) ← p.transform c.start c.stop (fun t pos w => f t (pos + (c.logical - c.start)) w) t
        return ({ a with pages := a.pages.setIfInBounds c.page p }, t)) =
        .ok (a', (transformWords f pos (stretch a.toList pos (next - pos)) t).2) ∧
      a'.frame = a.frame ∧
      a'.toList = patch a.toList pos (transformWords f pos (stretch a.toList pos (next - pos)) t).1 := by
  obtain ⟨p, hp, hstop, hstretch⟩ := page_of_piece ha.wellFormed ha.size_lt hc hn
  rw [Piece.length] at hstretch
  obtain ⟨p', hrun, hfr, hwords⟩ := Page.transform_spec (page_isWritable ha.writable hp)
    (fun t pos w => f t (pos + (c.logical - c.start)) w) hc.start_le_stop hstop t
  rw [hstretch, transformWords_shift f _ hc.logical_add] at hrun hwords
  have hm : (transformWords f pos (stretch a.toList pos (next - pos)) t).1.length ≤ next - pos := by
    have hlt := hc.lt
    exact Nat.le_of_eq (by rw [length_transformWords, length_stretch (by rw [ha.length_toList]; omega)])
  refine ⟨_, ?_, replacePage_spec ha hc hp hstop hfr hm hwords⟩
  simp only [page_eq_ok hp, hrun, bind, Except.bind, pure, Except.pure]

theorem tryTransformPiece_spec (ha : a.Ready) (hc : a.partition.IsPiece pos next c) (hn : next ≤ a.size)
    (f : τ → Nat → Word k → Except Error (Word k) × τ) (t : τ) :
    ∃ a', (do
        let p ← a.page c.page
        let (r, p, t) ← p.tryTransform c.start c.stop (fun t pos w => f t (pos + (c.logical - c.start)) w) t
        return (r, { a with pages := a.pages.setIfInBounds c.page p }, t)) =
        .ok ((tryTransformWords f pos (stretch a.toList pos (next - pos)) t).1, a',
          (tryTransformWords f pos (stretch a.toList pos (next - pos)) t).2.2) ∧
      a'.frame = a.frame ∧
      a'.toList = patch a.toList pos (tryTransformWords f pos (stretch a.toList pos (next - pos)) t).2.1 := by
  obtain ⟨p, hp, hstop, hstretch⟩ := page_of_piece ha.wellFormed ha.size_lt hc hn
  rw [Piece.length] at hstretch
  obtain ⟨p', hrun, hfr, hwords⟩ := Page.tryTransform_spec (page_isWritable ha.writable hp)
    (fun t pos w => f t (pos + (c.logical - c.start)) w) hc.start_le_stop hstop t
  rw [hstretch, tryTransformWords_shift f _ hc.logical_add] at hrun hwords
  have hm := length_tryTransformWords_le f pos (stretch a.toList pos (next - pos)) t
  have hlt := hc.lt
  rw [length_stretch (by rw [ha.length_toList]; omega)] at hm
  refine ⟨_, ?_, replacePage_spec ha hc hp hstop hfr hm hwords⟩
  simp only [page_eq_ok hp, hrun, bind, Except.bind, pure, Except.pure]

end WritePiece

section Write
variable (ha : a.Ready) {start stop : Nat}
include ha

/-- A run over the pieces that writes to each its stretch of `m` writes `m`. -/
theorem foldPieces_of_patch {m : List (Word k)} (hm : start + m.length = stop) (hl : stop ≤ a.size)
    {f : Paged k → Piece → Except Fault (Paged k)}
    (step : ∀ (a' : Paged k) (pos next : Nat) (c : Piece), a'.Ready → a'.size = a.size →
      a'.partition.IsPiece pos next c → start ≤ pos → next ≤ stop →
      ∃ a'', f a' c = .ok a'' ∧ a''.frame = a'.frame ∧
        a''.toList = patch a'.toList pos (stretch m (pos - start) (next - pos))) :
    ∃ a', a.partition.foldPieces start stop f a = .ok a' ∧ a'.frame = a.frame ∧
      a'.toList = patch a.toList start m := by
  have hsize := ha.size_lt
  suffices h : ∃ a', a.partition.foldPieces start stop f a = .ok a' ∧ start ≤ stop ∧
      a'.frame = a.frame ∧ a'.toList = patch a.toList start (stretch m 0 (stop - start)) by
    obtain ⟨a', hrun, -, hfr, hl'⟩ := h
    have hlen : stop - start = m.length := by omega
    rw [hlen, stretch_all] at hl'
    exact ⟨a', hrun, hfr, hl'⟩
  refine Partition.foldPieces_of_step (R := fun pos (a' : Paged k) => start ≤ pos ∧ a'.frame = a.frame ∧
      a'.toList = patch a.toList start (stretch m 0 (pos - start)))
    ha.wellFormed.partition (by omega) (by omega) ?_
    ⟨Nat.le_refl _, rfl, by rw [Nat.sub_self, stretch_zero, patch_nil]⟩
  rintro pos next c a' hc hnext ⟨hpos, hfr, hl'⟩
  have hlt := hc.lt
  obtain ⟨a'', hrun, hfr', hl''⟩ := step a' pos next c (ha.of_frame hfr) (size_of_frame hfr)
    (by rw [partition_of_frame hfr]; exact hc) hpos hnext
  refine ⟨a'', hrun, by omega, hfr'.trans hfr, ?_⟩
  have hsum : next - start = pos - start + (next - pos) := by omega
  have hdone : (stretch m 0 (pos - start)).length = pos - start := length_stretch (by omega)
  rw [hl'', hl', patch_patch (by omega) (by rw [ha.length_toList]; omega), hsum, stretch_add, Nat.zero_add]

theorem writeRange_spec {ws : Words k} (hl : start + ws.size ≤ a.size) :
    ∃ a', a.writeRange start ws = .ok a' ∧ a'.frame = a.frame ∧ a'.toList = patch a.toList start ws.toList := by
  have hsize := ha.size_lt
  have hadd : addPosition start ws.size = .ok (start + ws.size) := by
    apply addPosition_of_lt
    have hlim : positionLimit = 2 ^ 64 := rfl
    omega
  have hlen : ws.toList.length = ws.size := Array.length_toList
  rw [writeRange, hadd]
  refine foldPieces_of_patch ha (by rw [hlen]) hl ?_
  intro a' pos next c ha' hsize' hc hpos hnext
  have hlt := hc.lt
  have hpiece : (stretch ws.toList (pos - start) (next - pos)).length = next - pos := length_stretch (by omega)
  have hex : (ws.extract (c.logical - start) (c.logical - start + c.length)).toList =
      stretch ws.toList (pos - start) (next - pos) := by
    rw [Array.toList_extract, List.extract_eq_take_drop, Nat.add_sub_cancel_left, hc.logical, hc.length, stretch]
  refine modifyPage_spec ha' hc (by omega) (by omega) ?_
  intro p hw hstop
  rw [← hex]
  refine Page.writeRange_spec hw ?_
  rw [← Array.length_toList, hex, hpiece, ← hc.length, hc.start_add_length]
  exact hstop

theorem fill_spec (hle : start ≤ stop) (hl : stop ≤ a.size) (w : Word k) :
    ∃ a', a.fill start stop w = .ok a' ∧ a'.frame = a.frame ∧
      a'.toList = patch a.toList start (List.replicate (stop - start) w) := by
  refine foldPieces_of_patch ha (by simp; omega) hl ?_
  intro a' pos next c ha' hsize' hc hpos hnext
  have hm : stretch (List.replicate (stop - start) w) (pos - start) (next - pos) = List.replicate (next - pos) w := by
    have hlt := hc.lt
    rw [stretch, List.drop_replicate, List.take_replicate]
    congr 1
    omega
  rw [hm]
  refine modifyPage_spec ha' hc (by omega) (Nat.le_of_eq List.length_replicate) ?_
  intro p hw hstop
  rw [← hc.length]
  exact Page.fill_spec hw hc.start_le_stop hstop w

theorem transform_spec (f : τ → Nat → Word k → Word k × τ) (hle : start ≤ stop) (hl : stop ≤ a.size) (t : τ) :
    ∃ a', a.transform start stop f t =
        .ok (a', (transformWords f start (stretch a.toList start (stop - start)) t).2) ∧ a'.frame = a.frame ∧
      a'.toList = patch a.toList start (transformWords f start (stretch a.toList start (stop - start)) t).1 := by
  have hsize := ha.size_lt
  suffices h : ∃ r : Paged k × τ, a.transform start stop f t = .ok r ∧ start ≤ stop ∧ r.1.frame = a.frame ∧
      r.1.toList = patch a.toList start (transformWords f start (stretch a.toList start (stop - start)) t).1 ∧
      r.2 = (transformWords f start (stretch a.toList start (stop - start)) t).2 by
    obtain ⟨⟨a', t'⟩, hrun, -, hfr, hl', ht'⟩ := h
    exact ⟨a', by rw [hrun, ← ht'], hfr, hl'⟩
  refine Partition.foldPieces_of_step (R := fun pos (r : Paged k × τ) => start ≤ pos ∧ r.1.frame = a.frame ∧
      r.1.toList = patch a.toList start (transformWords f start (stretch a.toList start (pos - start)) t).1 ∧
      r.2 = (transformWords f start (stretch a.toList start (pos - start)) t).2)
    ha.wellFormed.partition hle (by omega) ?_
    ⟨Nat.le_refl _, rfl, by rw [Nat.sub_self, stretch_zero, transformWords, patch_nil],
      by rw [Nat.sub_self, stretch_zero, transformWords]⟩
  rintro pos next c ⟨a', t'⟩ hc hnext ⟨hpos, hfr, hl', ht'⟩
  have hlt := hc.lt
  have hdone : start + (transformWords f start (stretch a.toList start (pos - start)) t).1.length = pos := by
    rw [length_transformWords]
    exact add_length_stretch ha.wellFormed hsize hpos (by omega)
  have hsame : stretch a'.toList pos (next - pos) = stretch a.toList pos (next - pos) := by
    have hl' : a'.toList = _ := hl'
    rw [hl', stretch_patch_after hdone (by rw [ha.length_toList]; omega)]
  obtain ⟨a'', hrun, hfr', hl''⟩ := transformPiece_spec (ha.of_frame hfr)
    (by rw [partition_of_frame hfr]; exact hc) (by rw [size_of_frame hfr]; omega) f t'
  rw [hsame] at hrun hl''
  have happ := transformWords_append f start (stretch a.toList start (pos - start))
    (stretch a.toList pos (next - pos)) t
  rw [← stretch_split _ hpos (Nat.le_of_lt hc.lt), add_length_stretch ha.wellFormed hsize hpos (by omega),
    ← ht'] at happ
  refine ⟨_, hrun, by omega, hfr'.trans hfr, ?_, ?_⟩
  · have hl' : a'.toList = _ := hl'
    rw [hl'', hl', patch_patch hdone (by rw [ha.length_toList]; omega), happ]
  · rw [happ]

theorem tryTransform_spec (f : τ → Nat → Word k → Except Error (Word k) × τ) (hle : start ≤ stop)
    (hl : stop ≤ a.size) (t : τ) :
    ∃ a', a.tryTransform start stop f t =
        .ok ((tryTransformWords f start (stretch a.toList start (stop - start)) t).1, a',
          (tryTransformWords f start (stretch a.toList start (stop - start)) t).2.2) ∧ a'.frame = a.frame ∧
      a'.toList =
        patch a.toList start (tryTransformWords f start (stretch a.toList start (stop - start)) t).2.1 := by
  have hsize := ha.size_lt
  suffices h : ∃ r : Except Error Unit × Paged k × τ, a.tryTransform start stop f t = .ok r ∧ Ends
      (fun s => start ≤ stop ∧ s.1.frame = a.frame ∧ ∃ m, s.1.toList = patch a.toList start m ∧
        tryTransformWords f start (stretch a.toList start (stop - start)) t = (.ok (), m, s.2))
      (fun e s => s.1.frame = a.frame ∧ ∃ m, s.1.toList = patch a.toList start m ∧
        tryTransformWords f start (stretch a.toList start (stop - start)) t = (.error e, m, s.2)) r by
    obtain ⟨⟨e | u, a', t'⟩, hrun, hend⟩ := h
    · obtain ⟨hfr, m, hl', hm⟩ := hend
      exact ⟨a', by rw [hrun, hm], hfr, by rw [hm]; exact hl'⟩
    · obtain ⟨-, hfr, m, hl', hm⟩ := hend
      exact ⟨a', by rw [hrun, hm], hfr, by rw [hm]; exact hl'⟩
  refine Partition.tryFoldPieces_of_step
    (R := fun pos (s : Paged k × τ) => start ≤ pos ∧ s.1.frame = a.frame ∧ ∃ m, s.1.toList = patch a.toList start m ∧
      tryTransformWords f start (stretch a.toList start (pos - start)) t = (.ok (), m, s.2))
    ha.wellFormed.partition hle (by omega) ?_
    ⟨Nat.le_refl _, rfl, [], by rw [patch_nil], by rw [Nat.sub_self, stretch_zero, tryTransformWords]⟩
  rintro pos next c ⟨a', t'⟩ hc hnext ⟨hpos, hfr, m, hl', hm⟩
  have hlt := hc.lt
  have hlen := add_length_stretch ha.wellFormed hsize hpos (by omega)
  have hdone : start + m.length = pos := by
    rw [length_of_tryTransformWords hm]
    exact hlen
  have hl' : a'.toList = patch a.toList start m := hl'
  have hsame : stretch a'.toList pos (next - pos) = stretch a.toList pos (next - pos) := by
    rw [hl', stretch_patch_after hdone (by rw [ha.length_toList]; omega)]
  obtain ⟨a'', hrun, hfr', hl''⟩ := tryTransformPiece_spec (ha.of_frame hfr)
    (by rw [partition_of_frame hfr]; exact hc) (by rw [size_of_frame hfr]; omega) f t'
  rw [hsame] at hrun hl''
  rw [hl', patch_patch hdone (by rw [ha.length_toList]; omega)] at hl''
  have happ := tryTransformWords_append_of_ok hm (stretch a.toList pos (next - pos))
  rw [hlen, ← stretch_split _ hpos (Nat.le_of_lt hc.lt)] at happ
  refine ⟨_, hrun, ?_⟩
  rcases hr : tryTransformWords f pos (stretch a.toList pos (next - pos)) t' with ⟨e | u, m', t''⟩
  · rw [hr] at happ hl''
    have hrest : stop - start = next - start + (stop - next) := by omega
    refine ⟨hfr'.trans hfr, m ++ m', hl'', ?_⟩
    rw [hrest, stretch_add]
    exact tryTransformWords_append_of_error happ _
  · rw [hr] at happ hl''
    exact ⟨by omega, hfr'.trans hfr, m ++ m', hl'', happ⟩

end Write
end Paged
end PagedWords
