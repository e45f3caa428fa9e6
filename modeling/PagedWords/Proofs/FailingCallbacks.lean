import PagedWords.Proofs.Creation
import PagedWords.Proofs.StoreBulk

/-!
# Callbacks that fail

A callback that may fail is called with one word after the other, up to the first for which it answers an error. What a
transform has written by then stays, and it writes nothing else. If the callback never fails, all is as with a callback
that cannot.
-/
namespace PagedWords
variable {k : Width} {α τ : Type} {f : τ → Nat → Word k → Except Error α × τ} {pos : Nat} {ws : List (Word k)}
  {xs : List α} {t t' : τ}

/-- Called with the words of a list, the first of which has position `pos`, the callback answers `xs` and no error. -/
inductive Accepts (f : τ → Nat → Word k → Except Error α × τ) : Nat → List (Word k) → τ → List α → τ → Prop
  | nil (pos : Nat) (t : τ) : Accepts f pos [] t [] t
  | cons {pos : Nat} {w : Word k} {ws : List (Word k)} {t t₁ t' : τ} {x : α} {xs : List α}
      (first : f t pos w = (.ok x, t₁)) (rest : Accepts f (pos + 1) ws t₁ xs t') :
        Accepts f pos (w :: ws) t (x :: xs) t'

/-- From position `start` of a list on, the callback answers `xs`, and then an error for the word at `p`. -/
structure FailsAt (f : τ → Nat → Word k → Except Error α × τ) (l : List (Word k)) (start : Nat) (t : τ) (p : Nat)
    (xs : List α) (e : Error) (t' : τ) : Prop where
  le : start ≤ p
  fails : ∃ t₁ w, Accepts f start (stretch l start (p - start)) t xs t₁ ∧ l[p]? = some w ∧ f t₁ p w = (.error e, t')

/-- The callback, which also keeps a list of the words that it is called with, and of their positions. -/
def recorded (f : τ → Nat → Word k → Except Error α × τ) (t : τ × List (Word k × Nat)) (pos : Nat) (w : Word k) :
    Except Error α × τ × List (Word k × Nat) :=
  ((f t.1 pos w).1, (f t.1 pos w).2, t.2 ++ [(w, pos)])

namespace Accepts

theorem length_eq (h : Accepts f pos ws t xs t') : xs.length = ws.length := by
  induction h with
  | nil => rfl
  | cons first rest ih => simp [ih]

theorem recorded (h : Accepts f pos ws t xs t') (calls : List (Word k × Nat)) :
    Accepts (recorded f) pos ws (t, calls) xs (t', calls ++ ws.zipIdx pos) := by
  induction h generalizing calls with
  | nil pos t => simpa using Accepts.nil pos (t, calls)
  | @cons pos w ws t t₁ t' x xs first rest ih =>
    have hcall : PagedWords.recorded f (t, calls) pos w = (.ok x, t₁, calls ++ [(w, pos)]) := by
      simp [PagedWords.recorded, first]
    simpa using cons hcall (ih (calls ++ [(w, pos)]))

theorem tryFoldWords_eq {f : τ → Nat → Word k → Except Error Unit × τ} {us : List Unit}
    (h : Accepts f pos ws t us t') : tryFoldWords f pos ws t = (.ok (), t') := by
  induction h with
  | nil => rfl
  | cons first rest ih => simp only [tryFoldWords, first, ih]

theorem tryTransformWords_eq {f : τ → Nat → Word k → Except Error (Word k) × τ} {m : List (Word k)}
    (h : Accepts f pos ws t m t') : tryTransformWords f pos ws t = (.ok (), m, t') := by
  induction h with
  | nil => rfl
  | cons first rest ih => simp only [tryTransformWords, first, ih]

theorem foldWords_eq {f : τ → Nat → Word k → Except Error Unit × τ} {us : List Unit} (h : Accepts f pos ws t us t')
    {g : τ → Nat → Word k → τ} (hg : ∀ t pos w t', f t pos w = (.ok (), t') → g t pos w = t') :
    foldWords g pos ws t = t' := by
  induction h with
  | nil => rfl
  | cons first rest ih => rw [foldWords, hg _ _ _ _ first, ih]

theorem transformWords_eq {f : τ → Nat → Word k → Except Error (Word k) × τ} {m : List (Word k)}
    (h : Accepts f pos ws t m t') {g : τ → Nat → Word k → Word k × τ}
    (hg : ∀ t pos w x t', f t pos w = (.ok x, t') → g t pos w = (x, t')) : transformWords g pos ws t = (m, t') := by
  induction h with
  | nil => rfl
  | cons first rest ih => simp only [transformWords, hg _ _ _ _ _ first, ih]

end Accepts

namespace FailsAt
variable {l : List (Word k)} {start p stop : Nat} {e : Error}

private theorem cons {x : α} {t₁ : τ} {w : Word k} (hw : l[start]? = some w) (first : f t start w = (.ok x, t₁))
    (h : FailsAt f l (start + 1) t₁ p xs e t') : FailsAt f l start t p (x :: xs) e t' := by
  obtain ⟨hle, t₂, w', haccepts, hw', hfails⟩ := h
  obtain ⟨hstart, rfl⟩ := List.getElem?_eq_some_iff.1 hw
  have hspan : p - start = p - (start + 1) + 1 := by omega
  refine ⟨by omega, t₂, w', ?_, hw', hfails⟩
  rw [hspan, stretch_succ _ hstart]
  exact .cons first haccepts

/-- A callback accepts all words of a range, or it fails at one of them. -/
theorem or_accepts (f : τ → Nat → Word k → Except Error α × τ) (hle : start ≤ stop) (hl : stop ≤ l.length) (t : τ) :
    (∃ p xs e t', p < stop ∧ FailsAt f l start t p xs e t') ∨
      ∃ xs t', Accepts f start (stretch l start (stop - start)) t xs t' := by
  obtain ⟨n, rfl⟩ := Nat.exists_eq_add_of_le hle
  rw [Nat.add_sub_cancel_left]
  clear hle
  induction n generalizing start t with
  | zero => exact .inr ⟨[], t, by simpa using Accepts.nil start t⟩
  | succ n ih =>
    have hstart : start < l.length := by omega
    have hw : l[start]? = some l[start] := List.getElem?_eq_getElem hstart
    rcases hcall : f t start l[start] with ⟨e | x, t₁⟩
    · refine .inl ⟨start, [], e, t₁, by omega, Nat.le_refl start, t, l[start], ?_, hw, hcall⟩
      simpa using Accepts.nil start t
    · rcases ih t₁ (show start + 1 + n ≤ l.length by omega) with ⟨p, xs, e, t', hp, hfails⟩ | ⟨xs, t', haccepts⟩
      · exact .inl ⟨p, x :: xs, e, t', by omega, hfails.cons hw hcall⟩
      · refine .inr ⟨x :: xs, t', ?_⟩
        rw [stretch_succ n hstart]
        exact .cons hcall haccepts

theorem lt_length (h : FailsAt f l start t p xs e t') : p < l.length := by
  obtain ⟨hle, t₁, w, haccepts, hw, hfails⟩ := h
  exact (List.getElem?_eq_some_iff.1 hw).1

theorem add_length_stretch (h : FailsAt f l start t p xs e t') : start + (stretch l start (p - start)).length = p := by
  have hlt := h.lt_length
  have hle := h.le
  rw [length_stretch (by omega)]
  omega

private theorem length_eq (h : FailsAt f l start t p xs e t') : xs.length = p - start := by
  have hlt := h.lt_length
  obtain ⟨hle, t₁, w, haccepts, hw, hfails⟩ := h
  rw [haccepts.length_eq, length_stretch (by omega)]

theorem stretch_eq (h : FailsAt f l start t p xs e t') (hp : p < stop) : ∃ t₁ w,
    Accepts f start (stretch l start (p - start)) t xs t₁ ∧ f t₁ p w = (.error e, t') ∧
    stretch l start (stop - start) = stretch l start (p - start) ++ w :: stretch l (p + 1) (stop - (p + 1)) := by
  have hlt := h.lt_length
  obtain ⟨hle, t₁, w, haccepts, hw, hfails⟩ := h
  obtain ⟨_, rfl⟩ := List.getElem?_eq_some_iff.1 hw
  have hrest : stop - p = stop - (p + 1) + 1 := by omega
  refine ⟨t₁, _, haccepts, hfails, ?_⟩
  rw [stretch_split l hle (Nat.le_of_lt hp), hrest, stretch_succ _ hlt]

private theorem recorded (h : FailsAt f l start t p xs e t') (calls : List (Word k × Nat)) :
    FailsAt (recorded f) l start (t, calls) p xs e (t', calls ++ (stretch l start (p + 1 - start)).zipIdx start) := by
  have hlt := h.lt_length
  obtain ⟨hle, t₁, w, haccepts, hw, hfails⟩ := h
  obtain ⟨_, rfl⟩ := List.getElem?_eq_some_iff.1 hw
  have hplace : start + (p - start) = p := Nat.add_sub_of_le hle
  have hcalls : (stretch l start (p + 1 - start)).zipIdx start =
      (stretch l start (p - start)).zipIdx start ++ [(l[p], p)] := by
    rw [Nat.sub_add_comm hle, stretch_add, hplace, stretch_succ 0 hlt, stretch_zero, List.zipIdx_append,
      length_stretch (by omega), hplace]
    rfl
  refine ⟨hle, _, l[p], haccepts.recorded calls, hw, ?_⟩
  simp [PagedWords.recorded, hfails, hcalls]

theorem tryFoldWords_eq {f : τ → Nat → Word k → Except Error Unit × τ} {us : List Unit}
    (h : FailsAt f l start t p us e t')
    (hp : p < stop) : tryFoldWords f start (stretch l start (stop - start)) t = (.error e, t') := by
  obtain ⟨t₁, w, haccepts, hfails, hwords⟩ := h.stretch_eq hp
  rw [hwords, tryFoldWords_append_of_ok haccepts.tryFoldWords_eq, h.add_length_stretch, tryFoldWords]
  simp only [hfails]

theorem tryTransformWords_eq {f : τ → Nat → Word k → Except Error (Word k) × τ} {m : List (Word k)}
    (h : FailsAt f l start t p m e t') (hp : p < stop) :
    tryTransformWords f start (stretch l start (stop - start)) t = (.error e, m, t') := by
  obtain ⟨t₁, w, haccepts, hfails, hwords⟩ := h.stretch_eq hp
  rw [hwords, tryTransformWords_append_of_ok haccepts.tryTransformWords_eq, h.add_length_stretch, tryTransformWords]
  simp only [hfails, List.append_nil]

end FailsAt

namespace Store
variable {s : Store k} {start stop p : Nat} {e : Error}

section Transform
variable {f : τ → Nat → Word k → Except Error (Word k) × τ} {m : List (Word k)}

/-- What a failing transform leaves: the words it has made, and all others as they were. -/
theorem tryTransform_of_fails (hs : s.Ready) (hl : stop ≤ s.size) (h : FailsAt f s.toList start t p m e t')
    (hp : p < stop) : ∃ s', s.tryTransform start stop f t = .ok (.error e, s', t') ∧ s.SameFrame s' ∧
      s'.toList = s.toList.take start ++ m ++ s.toList.drop p := by
  have hle := h.le
  have hmade := h.length_eq
  have hrange : start ≤ stop := by omega
  obtain ⟨s', hrun, hfr, hwords⟩ := tryTransform_spec hs f hrange hl t
  rw [h.tryTransformWords_eq hp] at hrun hwords
  refine ⟨s', hrun, hfr, ?_⟩
  rw [hwords, patch, hmade, Nat.add_sub_of_le hle]

theorem tryTransform_of_accepts (hs : s.Ready) (hle : start ≤ stop) (hl : stop ≤ s.size)
    (h : Accepts f start (stretch s.toList start (stop - start)) t m t') :
    ∃ s', s.tryTransform start stop f t = .ok (.ok (), s', t') ∧
      (∀ g, (∀ t pos w x t', f t pos w = (.ok x, t') → g t pos w = (x, t')) →
        s.transform start stop g t = .ok (s', t')) ∧
      s.SameFrame s' ∧ s'.toList = s.toList.take start ++ m ++ s.toList.drop stop := by
  have hmade := h.length_eq
  rw [length_stretch (by rw [hs.length_toList]; omega)] at hmade
  obtain ⟨s', hrun, hfr, hwords⟩ := tryTransform_spec hs f hle hl t
  rw [h.tryTransformWords_eq] at hrun hwords
  refine ⟨s', hrun, fun g hg => ?_, hfr, ?_⟩
  · obtain ⟨s'', hplain, hfr', hwords'⟩ := transform_spec hs g hle hl t
    rw [h.transformWords_eq hg] at hplain hwords'
    rw [hplain, hfr'.eq_of_toList hfr hs.wellFormed (hwords'.trans hwords.symm)]
  · rw [hwords, patch, hmade, Nat.add_sub_of_le hle]

end Transform

/-- On any store, a transform and a fold whose callback may fail call it with the words of the range in order, each
once, and end with its first error; the transform has then written what the callback made of the words before, and
nothing else. Without an error they end as with a callback that cannot fail. -/
theorem fallible_runs_stop (hs : s.Ready) (hle : start ≤ stop) (hl : stop ≤ s.size) (t : τ) :
    (∀ f : τ → Nat → Word k → Except Error (Word k) × τ,
      (∀ p m e t', p < stop → FailsAt f s.toList start t p m e t' → ∃ s',
        s.tryTransform start stop f t = .ok (.error e, s', t') ∧
        s.tryTransform start stop (recorded f) (t, []) =
          .ok (.error e, s', t', (stretch s.toList start (p + 1 - start)).zipIdx start) ∧
        s.SameFrame s' ∧ s'.toList = s.toList.take start ++ m ++ s.toList.drop p) ∧
      (∀ m t', Accepts f start (stretch s.toList start (stop - start)) t m t' → ∃ s',
        s.tryTransform start stop f t = .ok (.ok (), s', t') ∧
        s.tryTransform start stop (recorded f) (t, []) =
          .ok (.ok (), s', t', (stretch s.toList start (stop - start)).zipIdx start) ∧
        (∀ g, (∀ t pos w x t', f t pos w = (.ok x, t') → g t pos w = (x, t')) →
          s.transform start stop g t = .ok (s', t')) ∧
        s.SameFrame s' ∧ s'.toList = s.toList.take start ++ m ++ s.toList.drop stop) ∧
      ((∃ p m e t', p < stop ∧ FailsAt f s.toList start t p m e t') ∨
        ∃ m t', Accepts f start (stretch s.toList start (stop - start)) t m t')) ∧
    ∀ f : τ → Nat → Word k → Except Error Unit × τ,
      (∀ p us e t', p < stop → FailsAt f s.toList start t p us e t' →
        s.tryFold start stop f t = .ok (.error e, t') ∧
        s.tryFold start stop (recorded f) (t, []) =
          .ok (.error e, t', (stretch s.toList start (p + 1 - start)).zipIdx start)) ∧
      (∀ us t', Accepts f start (stretch s.toList start (stop - start)) t us t' →
        s.tryFold start stop f t = .ok (.ok (), t') ∧
        s.tryFold start stop (recorded f) (t, []) =
          .ok (.ok (), t', (stretch s.toList start (stop - start)).zipIdx start) ∧
        ∀ g, (∀ t pos w t', f t pos w = (.ok (), t') → g t pos w = t') → s.fold start stop g t = .ok t') ∧
      ((∃ p us e t', p < stop ∧ FailsAt f s.toList start t p us e t') ∨
        ∃ us t', Accepts f start (stretch s.toList start (stop - start)) t us t') := by
  have hlen : stop ≤ s.toList.length := by rw [hs.length_toList]; exact hl
  constructor
  · intro f
    refine ⟨?_, ?_, FailsAt.or_accepts f hle hlen t⟩
    · intro p m e t' hp h
      obtain ⟨s', hrun, hfr, hwords⟩ := tryTransform_of_fails hs hl h hp
      obtain ⟨s'', hrun', hfr', hwords'⟩ := tryTransform_of_fails hs hl (h.recorded []) hp
      rw [hfr'.eq_of_toList hfr hs.wellFormed (hwords'.trans hwords.symm)] at hrun'
      exact ⟨s', hrun, hrun', hfr, hwords⟩
    · intro m t' h
      obtain ⟨s', hrun, hplain, hfr, hwords⟩ := tryTransform_of_accepts hs hle hl h
      obtain ⟨s'', hrun', -, hfr', hwords'⟩ := tryTransform_of_accepts hs hle hl (h.recorded [])
      rw [hfr'.eq_of_toList hfr hs.wellFormed (hwords'.trans hwords.symm)] at hrun'
      exact ⟨s', hrun, hrun', hplain, hfr, hwords⟩
  · intro f
    refine ⟨?_, ?_, FailsAt.or_accepts f hle hlen t⟩
    · intro p us e t' hp h
      rw [tryFold_eq hs.wellFormed f hle hl, tryFold_eq hs.wellFormed (recorded f) hle hl, h.tryFoldWords_eq hp,
        (h.recorded []).tryFoldWords_eq hp]
      exact ⟨rfl, rfl⟩
    · intro us t' h
      rw [tryFold_eq hs.wellFormed f hle hl, tryFold_eq hs.wellFormed (recorded f) hle hl, h.tryFoldWords_eq,
        (h.recorded []).tryFoldWords_eq]
      refine ⟨rfl, rfl, fun g hg => ?_⟩
      rw [fold_eq hs.wellFormed g hle hl, h.foldWords_eq hg]

/-- In a window onto four of five words on three pages, the callback counts its calls and fails at the word 4. The
words 2 and 3 are increased, in two calls, and the third call is the last. -/
theorem fallible_runs_stop_across_breaks :
    ∃ p, Paged.ofWords .generous (.even 2) #[.ofInt 1, .ofInt 2, .ofInt 3, .ofInt 4, .ofInt 5] =
      .ok (.ok (p : Paged .w32)) ∧
      ∀ f : Nat → Nat → Word .w32 → Except Error (Word .w32) × Nat,
        (f = fun n _ w => (if w = .ofInt 4 then .error (.readOnly "four") else .ok w.succ, n + 1)) →
        ∃ s', (window (paged p) 1 5).tryTransform 0 4 f 0 = .ok (.error (.readOnly "four"), s', 3) ∧
          (window (paged p) 1 5).tryTransform 0 4 (recorded f) (0, []) =
            .ok (.error (.readOnly "four"), s', 3, [(.ofInt 2, 0), (.ofInt 3, 1), (.ofInt 4, 2)]) ∧
          s'.toList = [.ofInt 3, .ofInt 4, .ofInt 4, .ofInt 5] := by
  have hp : (Partition.even 2).Valid := ⟨by decide, by decide⟩
  have hn : (#[.ofInt 1, .ofInt 2, .ofInt 3, .ofInt 4, .ofInt 5] : Words .w32).size < 2 ^ 63 := by decide
  obtain ⟨p, hmake⟩ := Paged.ofWords_eq_ok hp hn (Host.generous_grantsMemory (by decide))
  obtain ⟨hready, -, hsize, hl⟩ := Paged.ofWords_spec hp hn hmake
  have hfive : p.size = 5 := hsize
  have hs : (window (paged p) 1 5).Ready :=
    ⟨⟨⟨hready.wellFormed, hready.size_lt⟩, by decide, Nat.le_of_eq hfive.symm⟩, hready.writable⟩
  have hwords : (window (paged p) 1 5).toList = [.ofInt 2, .ofInt 3, .ofInt 4, .ofInt 5] := by
    show stretch p.toList 1 (5 - 1) = _
    rw [hl]
    rfl
  refine ⟨p, hmake, ?_⟩
  rintro f rfl
  have hstops := (fallible_runs_stop hs (Nat.zero_le 4) (Nat.le_refl 4) 0).1
    (fun n _ w => (if w = .ofInt 4 then .error (.readOnly "four") else .ok w.succ, n + 1))
  rw [hwords] at hstops
  obtain ⟨s', hrun, hcalls, -, hleft⟩ := hstops.1 2 [.ofInt 3, .ofInt 4] (.readOnly "four") 3 (by decide)
    ⟨by decide, 2, .ofInt 4, .cons rfl (.cons rfl (.nil 2 2)), rfl, rfl⟩
  exact ⟨s', hrun, hcalls, hleft⟩

end Store

end PagedWords
