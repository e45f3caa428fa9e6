import PagedWords.Cells
import Mathlib.Algebra.Group.Nat.Defs
import Mathlib.Tactic.Cases

/-!
# Folds and transforms of word lists

A callback is told each word with its position and hands on a state of its own. A transform answers the
words that were made, so it leaves its list patched with them.
-/
namespace PagedWords
variable {k : Width} {τ : Type}

/-- What `f` makes of the words of a list, the first of which has position `pos`. -/
def foldWords (f : τ → Nat → Word k → τ) : Nat → List (Word k) → τ → τ
  | _, [], t => t
  | pos, w :: ws, t => foldWords f (pos + 1) ws (f t pos w)

def tryFoldWords (f : τ → Nat → Word k → Except Error Unit × τ) :
    Nat → List (Word k) → τ → Except Error Unit × τ
  | _, [], t => (.ok (), t)
  | pos, w :: ws, t =>
      match f t pos w with
      | (.error e, t) => (.error e, t)
      | (.ok (), t) => tryFoldWords f (pos + 1) ws t

def transformWords (f : τ → Nat → Word k → Word k × τ) : Nat → List (Word k) → τ → List (Word k) × τ
  | _, [], t => ([], t)
  | pos, w :: ws, t =>
      let (w, t) := f t pos w
      let (ws, t) := transformWords f (pos + 1) ws t
      (w :: ws, t)

/-- The words that are answered are those that `f` made before it answered an error. -/
def tryTransformWords (f : τ → Nat → Word k → Except Error (Word k) × τ) :
    Nat → List (Word k) → τ → Except Error Unit × List (Word k) × τ
  | _, [], t => (.ok (), [], t)
  | pos, w :: ws, t =>
      match f t pos w with
      | (.error e, t) => (.error e, [], t)
      | (.ok w, t) =>
          let (r, ws, t) := tryTransformWords f (pos + 1) ws t
          (r, w :: ws, t)

/-- What a run that may stop at an error ends with. -/
def Ends (R : τ → Prop) (E : Error → τ → Prop) (r : Except Error Unit × τ) : Prop :=
  match r with
  | (.ok (), t) => R t
  | (.error e, t) => E e t

theorem add_length_cons (pos : Nat) (w : Word k) (ws : List (Word k)) :
    pos + (w :: ws).length = pos + 1 + ws.length := by
  rw [List.length_cons, Nat.add_right_comm, Nat.add_assoc]

theorem foldWords_append (f : τ → Nat → Word k → τ) (pos : Nat) (ws ws' : List (Word k)) (t : τ) :
    foldWords f pos (ws ++ ws') t = foldWords f (pos + ws.length) ws' (foldWords f pos ws t) := by
  induction ws generalizing pos t with
  | nil => rfl
  | cons w ws ih =>
    rw [List.cons_append, foldWords, ih, foldWords, add_length_cons]

theorem tryFoldWords_append_of_ok {f : τ → Nat → Word k → Except Error Unit × τ} {pos : Nat}
    {ws : List (Word k)} {t t' : τ} (h : tryFoldWords f pos ws t = (.ok (), t')) (ws' : List (Word k)) :
    tryFoldWords f pos (ws ++ ws') t = tryFoldWords f (pos + ws.length) ws' t' := by
  induction ws generalizing pos t with
  | nil => cases h; rfl
  | cons w ws ih =>
    rw [tryFoldWords] at h
    rw [List.cons_append, tryFoldWords]
    split at h
    · cases h
    · next u heq =>
      rw [ih h, add_length_cons]

theorem tryFoldWords_append_of_error {f : τ → Nat → Word k → Except Error Unit × τ} {pos : Nat}
    {ws : List (Word k)} {t t' : τ} {e : Error} (h : tryFoldWords f pos ws t = (.error e, t'))
    (ws' : List (Word k)) : tryFoldWords f pos (ws ++ ws') t = (.error e, t') := by
  induction ws generalizing pos t with
  | nil => cases h
  | cons w ws ih =>
    rw [tryFoldWords] at h
    rw [List.cons_append, tryFoldWords]
    split at h
    · exact h
    · exact ih h

theorem transformWords_append (f : τ → Nat → Word k → Word k × τ) (pos : Nat) (ws ws' : List (Word k)) (t : τ) :
    transformWords f pos (ws ++ ws') t =
      ((transformWords f pos ws t).1 ++
          (transformWords f (pos + ws.length) ws' (transformWords f pos ws t).2).1,
        (transformWords f (pos + ws.length) ws' (transformWords f pos ws t).2).2) := by
  induction ws generalizing pos t with
  | nil => rfl
  | cons w ws ih =>
    simp only [List.cons_append, transformWords, ih, add_length_cons]

theorem tryTransformWords_append_of_ok {f : τ → Nat → Word k → Except Error (Word k) × τ} {pos : Nat}
    {ws m : List (Word k)} {t t' : τ} (h : tryTransformWords f pos ws t = (.ok (), m, t'))
    (ws' : List (Word k)) :
    tryTransformWords f pos (ws ++ ws') t =
      ((tryTransformWords f (pos + ws.length) ws' t').1, m ++ (tryTransformWords f (pos + ws.length) ws' t').2.1,
        (tryTransformWords f (pos + ws.length) ws' t').2.2) := by
  induction ws generalizing pos t m with
  | nil => cases h; rfl
  | cons w ws ih =>
    rw [tryTransformWords] at h
    rw [List.cons_append, tryTransformWords]
    split at h
    · cases h
    · next x t₁ heq =>
      rcases hrest : tryTransformWords f (pos + 1) ws t₁ with ⟨r, m₁, t₂⟩
      rw [hrest] at h
      cases h
      rw [ih hrest, add_length_cons]
      rfl

theorem tryTransformWords_append_of_error {f : τ → Nat → Word k → Except Error (Word k) × τ} {pos : Nat}
    {ws m : List (Word k)} {t t' : τ} {e : Error} (h : tryTransformWords f pos ws t = (.error e, m, t'))
    (ws' : List (Word k)) : tryTransformWords f pos (ws ++ ws') t = (.error e, m, t') := by
  induction ws generalizing pos t m with
  | nil => cases h
  | cons w ws ih =>
    rw [tryTransformWords] at h
    rw [List.cons_append, tryTransformWords]
    split at h
    · exact h
    · next x t₁ heq =>
      rcases hrest : tryTransformWords f (pos + 1) ws t₁ with ⟨r, m₁, t₂⟩
      rw [hrest] at h
      cases h
      rw [ih hrest]

@[simp] theorem length_transformWords (f : τ → Nat → Word k → Word k × τ) (pos : Nat) (ws : List (Word k)) (t : τ) :
    (transformWords f pos ws t).1.length = ws.length := by
  induction ws generalizing pos t with
  | nil => rfl
  | cons w ws ih => simp only [transformWords, List.length_cons, ih]

theorem length_tryTransformWords_le (f : τ → Nat → Word k → Except Error (Word k) × τ) (pos : Nat)
    (ws : List (Word k)) (t : τ) : (tryTransformWords f pos ws t).2.1.length ≤ ws.length := by
  induction ws generalizing pos t with
  | nil => exact Nat.le_refl _
  | cons w ws ih =>
    rw [tryTransformWords]
    split
    · exact Nat.zero_le _
    · next x t₁ heq => exact Nat.succ_le_succ (ih (pos + 1) t₁)

theorem length_of_tryTransformWords {f : τ → Nat → Word k → Except Error (Word k) × τ} {pos : Nat}
    {ws m : List (Word k)} {t t' : τ} (h : tryTransformWords f pos ws t = (.ok (), m, t')) :
    m.length = ws.length := by
  induction ws generalizing pos t m with
  | nil => cases h; rfl
  | cons w ws ih =>
    rw [tryTransformWords] at h
    split at h
    · cases h
    · next x t₁ heq =>
      rcases hrest : tryTransformWords f (pos + 1) ws t₁ with ⟨r, m₁, t₂⟩
      rw [hrest] at h
      cases h
      rw [List.length_cons, List.length_cons, ih hrest]

section Shift
variable {g : Nat → Nat} {pos : Nat}

theorem shift_succ {pos' : Nat} (h : ∀ i, g (pos + i) = pos' + i) (i : Nat) : g (pos + 1 + i) = pos' + 1 + i := by
  rw [Nat.add_right_comm, Nat.add_assoc, h, Nat.add_right_comm, Nat.add_assoc]

theorem foldWords_shift (f : τ → Nat → Word k → τ) (pos' : Nat) (h : ∀ i, g (pos + i) = pos' + i)
    (ws : List (Word k)) (t : τ) :
    foldWords (fun t i w => f t (g i) w) pos ws t = foldWords f pos' ws t := by
  induction ws generalizing pos pos' t with
  | nil => rfl
  | cons w ws ih =>
    have h0 : g pos = pos' := h 0
    simp only [foldWords, h0, ih _ (shift_succ h)]

theorem tryFoldWords_shift (f : τ → Nat → Word k → Except Error Unit × τ) (pos' : Nat) (h : ∀ i, g (pos + i) = pos' + i)
    (ws : List (Word k)) (t : τ) :
    tryFoldWords (fun t i w => f t (g i) w) pos ws t = tryFoldWords f pos' ws t := by
  induction ws generalizing pos pos' t with
  | nil => rfl
  | cons w ws ih =>
    have h0 : g pos = pos' := h 0
    simp only [tryFoldWords, h0, ih _ (shift_succ h)]

theorem transformWords_shift (f : τ → Nat → Word k → Word k × τ) (pos' : Nat) (h : ∀ i, g (pos + i) = pos' + i)
    (ws : List (Word k)) (t : τ) :
    transformWords (fun t i w => f t (g i) w) pos ws t = transformWords f pos' ws t := by
  induction ws generalizing pos pos' t with
  | nil => rfl
  | cons w ws ih =>
    have h0 : g pos = pos' := h 0
    simp only [transformWords, h0, ih _ (shift_succ h)]

theorem tryTransformWords_shift (f : τ → Nat → Word k → Except Error (Word k) × τ)
    (pos' : Nat) (h : ∀ i, g (pos + i) = pos' + i) (ws : List (Word k)) (t : τ) :
    tryTransformWords (fun t i w => f t (g i) w) pos ws t = tryTransformWords f pos' ws t := by
  induction ws generalizing pos pos' t with
  | nil => rfl
  | cons w ws ih =>
    have h0 : g pos = pos' := h 0
    simp only [tryTransformWords, h0, ih _ (shift_succ h)]

end Shift

end PagedWords
