import PagedWords.Words
import PagedWords.Proofs.Stretch
import PagedWords.Proofs.WordFolds

/-!
# Storage that shows a list of words

What the operations of `Cells` do is told on the list alone, so it is the same for all storage that
shows the same words.
-/
namespace PagedWords
variable {σ τ : Type} {k : Width}

namespace Cells
variable [Cells σ k] {a : σ} {l : List (Word k)}

/-- The storage has the words `l` at its positions. -/
structure Reads (a : σ) (l : List (Word k)) : Prop where
  size : Cells.size a = l.length
  get : ∀ (pos : Nat) (h : pos < l.length), Cells.get a pos = .ok l[pos]

/-- Storage that shows `l` by `R` takes every write to it, and then shows the list after that write. -/
structure View (R : σ → List (Word k) → Prop) : Prop where
  reads : ∀ {a : σ} {l : List (Word k)}, R a l → Reads a l
  set : ∀ {a : σ} {l : List (Word k)} (pos : Nat) (w : Word k), R a l → pos < l.length →
    ∃ a', Cells.set a pos w = .ok a' ∧ R a' (l.set pos w)

namespace Reads

private theorem readFrom (h : Reads a l) (n : Nat) : ∀ (pos : Nat) (acc : Words k), pos + n ≤ l.length →
    Cells.readFrom a n pos acc = .ok (acc ++ (stretch l pos n).toArray) := by
  induction n with
  | zero =>
    intro pos acc _
    rw [Cells.readFrom, stretch_zero, Array.append_empty]
  | succ n ih =>
    intro pos acc hn
    have hpos : pos < l.length := by omega
    simp only [Cells.readFrom, h.get pos hpos, bind, Except.bind]
    rw [ih (pos + 1) _ (by omega), stretch_succ n hpos]
    simp

theorem readRange (h : Reads a l) {start n : Nat} (hn : start + n ≤ l.length) :
    Cells.readRange a start n = .ok (stretch l start n).toArray := by
  rw [Cells.readRange, h.readFrom n start _ hn, Array.empty_append]

private theorem foldFrom (h : Reads a l) (f : τ → Nat → Word k → τ) (n : Nat) :
    ∀ (pos : Nat) (t : τ), pos + n ≤ l.length →
      Cells.foldFrom a f n pos t = .ok (foldWords f pos (stretch l pos n) t) := by
  induction n with
  | zero =>
    intro pos t _
    rw [Cells.foldFrom, stretch_zero, foldWords]
  | succ n ih =>
    intro pos t hn
    have hpos : pos < l.length := by omega
    simp only [Cells.foldFrom, h.get pos hpos, bind, Except.bind]
    rw [ih (pos + 1) _ (by omega), stretch_succ n hpos, foldWords]

theorem fold (h : Reads a l) (f : τ → Nat → Word k → τ) {start stop : Nat} (hs : start ≤ stop)
    (hl : stop ≤ l.length) (t : τ) :
    Cells.fold a start stop f t = .ok (foldWords f start (stretch l start (stop - start)) t) :=
  h.foldFrom f (stop - start) start t (by omega)

private theorem tryFoldFrom (h : Reads a l) (f : τ → Nat → Word k → Except Error Unit × τ) (n : Nat) :
    ∀ (pos : Nat) (t : τ), pos + n ≤ l.length →
      Cells.tryFoldFrom a f n pos t = .ok (tryFoldWords f pos (stretch l pos n) t) := by
  induction n with
  | zero =>
    intro pos t _
    rw [Cells.tryFoldFrom, stretch_zero, tryFoldWords]
  | succ n ih =>
    intro pos t hn
    have hpos : pos < l.length := by omega
    simp only [Cells.tryFoldFrom, h.get pos hpos, bind, Except.bind, stretch_succ n hpos, tryFoldWords]
    rcases f t pos l[pos] with ⟨e | u, t₁⟩
    · rfl
    · exact ih (pos + 1) t₁ (by omega)

theorem tryFold (h : Reads a l) (f : τ → Nat → Word k → Except Error Unit × τ) {start stop : Nat}
    (hs : start ≤ stop) (hl : stop ≤ l.length) (t : τ) :
    Cells.tryFold a start stop f t = .ok (tryFoldWords f start (stretch l start (stop - start)) t) :=
  h.tryFoldFrom f (stop - start) start t (by omega)

theorem tryGet (h : Reads a l) {pos : Nat} (hpos : pos < l.length) : Cells.tryGet a pos = .ok (.ok l[pos]) := by
  rw [Cells.tryGet, if_pos (by rw [h.size]; exact hpos), h.get pos hpos]
  rfl

end Reads

namespace View
variable {R : σ → List (Word k) → Prop}

theorem trySet (hR : View R) (h : R a l) {pos : Nat} (hpos : pos < l.length) (w : Word k) :
    ∃ a', Cells.trySet a pos w = .ok (.ok (), a') ∧ R a' (l.set pos w) := by
  obtain ⟨a', hset, ha'⟩ := hR.set pos w h hpos
  refine ⟨a', ?_, ha'⟩
  rw [Cells.trySet, if_pos (by rw [(hR.reads h).size]; exact hpos), hset]
  rfl

theorem swap (hR : View R) (h : R a l) {i j : Nat} (hi : i < l.length) (hj : j < l.length) :
    ∃ a', Cells.swap a i j = .ok a' ∧ R a' ((l.set i l[j]).set j l[i]) := by
  obtain ⟨a₁, hset₁, h₁⟩ := hR.set i l[j] h hi
  obtain ⟨a₂, hset₂, h₂⟩ := hR.set j l[i] h₁ (by simpa using hj)
  refine ⟨a₂, ?_, h₂⟩
  simp only [Cells.swap, (hR.reads h).get i hi, (hR.reads h).get j hj, hset₁, hset₂, bind, Except.bind]

theorem swapRecords (hR : View R) (n : Nat) : ∀ {a : σ} {l : List (Word k)} (i j : Nat), R a l →
    i + n ≤ l.length → j + n ≤ l.length → i = j ∨ i + n ≤ j ∨ j + n ≤ i →
    ∃ a', Cells.swapRecords n a i j = .ok a' ∧ R a' (swapStretches l n i j) := by
  induction n with
  | zero =>
    intro a l i j h _ _ _
    refine ⟨a, rfl, ?_⟩
    rw [swapStretches, stretch_zero, stretch_zero, patch_nil, patch_nil]
    exact h
  | succ n ih =>
    intro a l i j h hi hj hij
    obtain ⟨a₁, hswap, h₁⟩ := hR.swap h (i := i) (j := j) (by omega) (by omega)
    have hlen : ((l.set i l[j]).set j l[i]).length = l.length := by simp
    obtain ⟨a', hrun, ha'⟩ := ih (i + 1) (j + 1) h₁ (by omega) (by omega) (by omega)
    refine ⟨a', ?_, ?_⟩
    · simp only [Cells.swapRecords, hswap, bind, Except.bind]
      exact hrun
    · rw [← swapStretches_succ hi hj hij]
      exact ha'

theorem increment (hR : View R) (h : R a l) {pos : Nat} (hpos : pos < l.length) :
    ∃ a', Cells.increment a pos = .ok (l[pos], a') ∧ R a' (l.set pos l[pos].succ) := by
  obtain ⟨a', hset, ha'⟩ := hR.set pos l[pos].succ h hpos
  refine ⟨a', ?_, ha'⟩
  simp only [Cells.increment, (hR.reads h).get pos hpos, hset, bind, Except.bind, pure, Except.pure]

private theorem fillFrom (hR : View R) (w : Word k) (n : Nat) : ∀ {a : σ} {l : List (Word k)} (pos : Nat), R a l →
    pos + n ≤ l.length →
    ∃ a', Cells.fillFrom w n a pos = .ok a' ∧ R a' (patch l pos (List.replicate n w)) := by
  induction n with
  | zero =>
    intro a l pos h _
    exact ⟨a, rfl, by rw [List.replicate_zero, patch_nil]; exact h⟩
  | succ n ih =>
    intro a l pos h hn
    have hpos : pos < l.length := by omega
    obtain ⟨a₁, hset, h₁⟩ := hR.set pos w h hpos
    obtain ⟨a', hrun, ha'⟩ := ih (pos + 1) h₁ (by simp; omega)
    refine ⟨a', ?_, ?_⟩
    · simp only [Cells.fillFrom, hset, bind, Except.bind]
      exact hrun
    · rw [List.replicate_succ, ← patch_set hpos]
      exact ha'

theorem fill (hR : View R) (h : R a l) {start stop : Nat} (hs : start ≤ stop) (hl : stop ≤ l.length)
    (w : Word k) :
    ∃ a', Cells.fill a start stop w = .ok a' ∧ R a' (patch l start (List.replicate (stop - start) w)) :=
  hR.fillFrom w (stop - start) start h (by omega)

theorem writeList (hR : View R) (ws : List (Word k)) : ∀ {a : σ} {l : List (Word k)} (pos : Nat), R a l →
    pos + ws.length ≤ l.length → ∃ a', Cells.writeList ws a pos = .ok a' ∧ R a' (patch l pos ws) := by
  induction ws with
  | nil =>
    intro a l pos h _
    exact ⟨a, rfl, by rw [patch_nil]; exact h⟩
  | cons w ws ih =>
    intro a l pos h hn
    rw [List.length_cons] at hn
    have hpos : pos < l.length := by omega
    obtain ⟨a₁, hset, h₁⟩ := hR.set pos w h hpos
    obtain ⟨a', hrun, ha'⟩ := ih (pos + 1) h₁ (by simp; omega)
    refine ⟨a', ?_, ?_⟩
    · simp only [Cells.writeList, hset, bind, Except.bind]
      exact hrun
    · rw [← patch_set hpos]
      exact ha'

theorem writeRange (hR : View R) (h : R a l) {start : Nat} {ws : Words k} (hl : start + ws.size ≤ l.length) :
    ∃ a', Cells.writeRange a start ws = .ok a' ∧ R a' (patch l start ws.toList) :=
  hR.writeList ws.toList start h (by simpa using hl)

private theorem transformFrom (hR : View R) (f : τ → Nat → Word k → Word k × τ) (n : Nat) :
    ∀ {a : σ} {l : List (Word k)} (pos : Nat) (t : τ), R a l → pos + n ≤ l.length →
      ∃ a', Cells.transformFrom f n a pos t = .ok (a', (transformWords f pos (stretch l pos n) t).2) ∧
        R a' (patch l pos (transformWords f pos (stretch l pos n) t).1) := by
  induction n with
  | zero =>
    intro a l pos t h _
    exact ⟨a, rfl, by rw [stretch_zero, transformWords, patch_nil]; exact h⟩
  | succ n ih =>
    intro a l pos t h hn
    have hpos : pos < l.length := by omega
    rcases hf : f t pos l[pos] with ⟨w, t₁⟩
    obtain ⟨a₁, hset, h₁⟩ := hR.set pos w h hpos
    obtain ⟨a', hrun, ha'⟩ := ih (pos + 1) t₁ h₁ (by simp; omega)
    rw [stretch_set_of_lt (by omega)] at hrun ha'
    simp only [stretch_succ n hpos, transformWords, hf]
    refine ⟨a', ?_, ?_⟩
    · simp only [Cells.transformFrom, (hR.reads h).get pos hpos, hf, hset, bind, Except.bind]
      exact hrun
    · rw [← patch_set hpos]
      exact ha'

theorem transform (hR : View R) (h : R a l) (f : τ → Nat → Word k → Word k × τ) {start stop : Nat}
    (hs : start ≤ stop) (hl : stop ≤ l.length) (t : τ) :
    ∃ a', Cells.transform a start stop f t =
        .ok (a', (transformWords f start (stretch l start (stop - start)) t).2) ∧
      R a' (patch l start (transformWords f start (stretch l start (stop - start)) t).1) :=
  hR.transformFrom f (stop - start) start t h (by omega)

private theorem tryTransformFrom (hR : View R) (f : τ → Nat → Word k → Except Error (Word k) × τ) (n : Nat) :
    ∀ {a : σ} {l : List (Word k)} (pos : Nat) (t : τ), R a l → pos + n ≤ l.length →
      ∃ a', Cells.tryTransformFrom f n a pos t = .ok ((tryTransformWords f pos (stretch l pos n) t).1, a',
          (tryTransformWords f pos (stretch l pos n) t).2.2) ∧
        R a' (patch l pos (tryTransformWords f pos (stretch l pos n) t).2.1) := by
  induction n with
  | zero =>
    intro a l pos t h _
    exact ⟨a, rfl, by rw [stretch_zero, tryTransformWords, patch_nil]; exact h⟩
  | succ n ih =>
    intro a l pos t h hn
    have hpos : pos < l.length := by omega
    rcases hf : f t pos l[pos] with ⟨e | w, t₁⟩
    · simp only [stretch_succ n hpos, tryTransformWords, hf]
      refine ⟨a, ?_, by rw [patch_nil]; exact h⟩
      simp only [Cells.tryTransformFrom, (hR.reads h).get pos hpos, hf, bind, Except.bind, pure, Except.pure]
    · obtain ⟨a₁, hset, h₁⟩ := hR.set pos w h hpos
      obtain ⟨a', hrun, ha'⟩ := ih (pos + 1) t₁ h₁ (by simp; omega)
      rw [stretch_set_of_lt (by omega)] at hrun ha'
      simp only [stretch_succ n hpos, tryTransformWords, hf]
      refine ⟨a', ?_, ?_⟩
      · simp only [Cells.tryTransformFrom, (hR.reads h).get pos hpos, hf, hset, bind, Except.bind]
        exact hrun
      · rw [← patch_set hpos]
        exact ha'

theorem tryTransform (hR : View R) (h : R a l) (f : τ → Nat → Word k → Except Error (Word k) × τ)
    {start stop : Nat} (hs : start ≤ stop) (hl : stop ≤ l.length) (t : τ) :
    ∃ a', Cells.tryTransform a start stop f t =
        .ok ((tryTransformWords f start (stretch l start (stop - start)) t).1, a',
          (tryTransformWords f start (stretch l start (stop - start)) t).2.2) ∧
      R a' (patch l start (tryTransformWords f start (stretch l start (stop - start)) t).2.1) :=
  hR.tryTransformFrom f (stop - start) start t h (by omega)

end View
end Cells

namespace Words
variable {a : Words k}

theorem reads (a : Words k) : Cells.Reads a a.toList :=
  ⟨rfl, fun _ h => get_of_lt (by rw [Array.length_toList] at h; exact h)⟩

theorem view : Cells.View (fun (a : Words k) l => a.toList = l) := by
  refine ⟨fun h => h ▸ reads _, ?_⟩
  rintro a l pos w rfl hpos
  rw [Array.length_toList] at hpos
  exact ⟨_, set_of_lt w hpos, Array.toList_set ..⟩

theorem checkSlice_eq_ok {start stop : Nat} (hs : start ≤ stop) (hl : stop ≤ a.size) :
    a.checkSlice start stop = .ok () := if_pos ⟨hs, hl⟩

theorem readRange_eq {start n : Nat} (h : start + n ≤ a.size) :
    a.readRange start n = .ok (stretch a.toList start n).toArray := by
  rw [readRange, checkSlice_eq_ok (by omega) h]
  exact (reads a).readRange h

theorem fold_eq (f : τ → Nat → Word k → τ) {start stop : Nat} (hs : start ≤ stop) (hl : stop ≤ a.size) (t : τ) :
    a.fold start stop f t = .ok (foldWords f start (stretch a.toList start (stop - start)) t) := by
  rw [fold, checkSlice_eq_ok hs hl]
  exact (reads a).fold f hs hl t

theorem tryFold_eq (f : τ → Nat → Word k → Except Error Unit × τ) {start stop : Nat} (hs : start ≤ stop)
    (hl : stop ≤ a.size) (t : τ) :
    a.tryFold start stop f t = .ok (tryFoldWords f start (stretch a.toList start (stop - start)) t) := by
  rw [tryFold, checkSlice_eq_ok hs hl]
  exact (reads a).tryFold f hs hl t

theorem writeRange_spec {start : Nat} {ws : Words k} (h : start + ws.size ≤ a.size) :
    ∃ a', a.writeRange start ws = .ok a' ∧ a'.toList = patch a.toList start ws.toList := by
  rw [writeRange, checkSlice_eq_ok (by omega) h]
  exact view.writeRange rfl h

theorem fill_spec {start stop : Nat} (hs : start ≤ stop) (hl : stop ≤ a.size) (w : Word k) :
    ∃ a', a.fill start stop w = .ok a' ∧ a'.toList = patch a.toList start (List.replicate (stop - start) w) := by
  rw [fill, checkSlice_eq_ok hs hl]
  exact view.fill rfl hs hl w

theorem transform_spec (f : τ → Nat → Word k → Word k × τ) {start stop : Nat} (hs : start ≤ stop)
    (hl : stop ≤ a.size) (t : τ) :
    ∃ a', a.transform start stop f t =
        .ok (a', (transformWords f start (stretch a.toList start (stop - start)) t).2) ∧
      a'.toList = patch a.toList start (transformWords f start (stretch a.toList start (stop - start)) t).1 := by
  rw [transform, checkSlice_eq_ok hs hl]
  exact view.transform rfl f hs hl t

theorem tryTransform_spec (f : τ → Nat → Word k → Except Error (Word k) × τ) {start stop : Nat}
    (hs : start ≤ stop) (hl : stop ≤ a.size) (t : τ) :
    ∃ a', a.tryTransform start stop f t =
        .ok ((tryTransformWords f start (stretch a.toList start (stop - start)) t).1, a',
          (tryTransformWords f start (stretch a.toList start (stop - start)) t).2.2) ∧
      a'.toList =
        patch a.toList start (tryTransformWords f start (stretch a.toList start (stop - start)) t).2.1 := by
  rw [tryTransform, checkSlice_eq_ok hs hl]
  exact view.tryTransform rfl f hs hl t

/-- The whole of an array is swapped only after a look at its bounds; where the records do not overlap, that
is the same as word by word. -/
theorem swapRecords_spec {n i j : Nat} (hi : i + n ≤ a.size) (hj : j + n ≤ a.size)
    (hij : i = j ∨ i + n ≤ j ∨ j + n ≤ i) :
    ∃ a', a.swapRecords n i j = .ok a' ∧ a'.toList = swapStretches a.toList n i j := by
  by_cases heq : i = j
  · subst heq
    exact ⟨a, by rw [swapRecords, if_pos rfl]; rfl, (swapStretches_self hi).symm⟩
  · have hbounds : max i j ≤ a.size ∧ min i j + n ≤ max i j ∧ max i j + n ≤ a.size := by omega
    rw [swapRecords, if_neg heq, if_pos hbounds]
    exact view.swapRecords n i j rfl hi hj hij

end Words
end PagedWords
