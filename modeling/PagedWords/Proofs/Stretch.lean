import Mathlib.Algebra.Group.Nat.Defs
import Mathlib.Data.List.Basic
import Mathlib.Tactic.Cases

/-! # Stretches of a list, and lists with one stretch patched -/
namespace PagedWords
variable {α : Type}

def stretch (l : List α) (pos n : Nat) : List α := (l.drop pos).take n

/-- The list with the entries from `pos` on overwritten by `m`. -/
def patch (l : List α) (pos : Nat) (m : List α) : List α := l.take pos ++ m ++ l.drop (pos + m.length)

theorem getElem?_stretch (l : List α) (pos n i : Nat) :
    (stretch l pos n)[i]? = if i < n then l[pos + i]? else none := by
  simp only [stretch, List.getElem?_take, List.getElem?_drop]

@[simp] theorem stretch_zero (l : List α) (pos : Nat) : stretch l pos 0 = [] := List.take_zero

theorem stretch_succ {l : List α} {pos : Nat} (n : Nat) (h : pos < l.length) :
    stretch l pos (n + 1) = l[pos] :: stretch l (pos + 1) n := by
  rw [stretch, List.drop_eq_getElem_cons h, List.take_succ_cons, stretch]

theorem stretch_add (l : List α) (pos m n : Nat) :
    stretch l pos (m + n) = stretch l pos m ++ stretch l (pos + m) n := by
  rw [stretch, List.take_add, List.drop_drop, stretch, stretch]

theorem stretch_split (l : List α) {start pos stop : Nat} (hpos : start ≤ pos) (hstop : pos ≤ stop) :
    stretch l start (stop - start) = stretch l start (pos - start) ++ stretch l pos (stop - pos) := by
  have hsum : stop - start = pos - start + (stop - pos) := by omega
  have hstart : start + (pos - start) = pos := by omega
  rw [hsum, stretch_add, hstart]

theorem length_stretch {l : List α} {pos n : Nat} (h : pos + n ≤ l.length) : (stretch l pos n).length = n := by
  rw [stretch, List.length_take, List.length_drop]
  omega

theorem stretch_stretch (l : List α) {pos n i m : Nat} (h : i + m ≤ n) :
    stretch (stretch l pos n) i m = stretch l (pos + i) m := by
  apply List.ext_getElem?
  intro j
  simp only [getElem?_stretch]
  by_cases hj : j < m
  · rw [if_pos hj, if_pos (by omega), if_pos hj, Nat.add_assoc]
  · rw [if_neg hj, if_neg hj]

theorem stretch_all (l : List α) : stretch l 0 l.length = l := by
  rw [stretch, List.drop_zero, List.take_length]

theorem take_stretch_drop (l : List α) {low high : Nat} (h : low ≤ high) :
    l.take low ++ stretch l low (high - low) ++ l.drop high = l := by
  rw [stretch, List.append_assoc, ← Nat.add_sub_of_le h, Nat.add_sub_cancel_left, ← List.drop_drop,
    List.take_append_drop, List.take_append_drop]

theorem stretch_append (x p y : List α) : stretch (x ++ p ++ y) x.length p.length = p := by
  rw [stretch, List.append_assoc, List.drop_left, List.take_left]

theorem length_patch {l m : List α} {pos : Nat} (h : pos + m.length ≤ l.length) :
    (patch l pos m).length = l.length := by
  simp only [patch, List.length_append, List.length_take, List.length_drop]
  omega

theorem getElem?_patch {l m : List α} {pos : Nat} (h : pos + m.length ≤ l.length) (i : Nat) :
    (patch l pos m)[i]? =
      if i < pos then l[i]? else if i < pos + m.length then m[i - pos]? else l[i]? := by
  have hp : (l.take pos).length = pos := by rw [List.length_take]; omega
  rw [patch, List.append_assoc, List.getElem?_append, hp]
  by_cases hi : i < pos
  · rw [if_pos hi, if_pos hi, List.getElem?_take, if_pos hi]
  · rw [if_neg hi, if_neg hi, List.getElem?_append, List.getElem?_drop]
    by_cases hm : i < pos + m.length
    · rw [if_pos (by omega), if_pos hm]
    · rw [if_neg (by omega), if_neg hm]
      congr 1
      omega

theorem getElem?_patch_of_outside {l m : List α} {pos i : Nat} (h : pos + m.length ≤ l.length)
    (hi : i < pos ∨ pos + m.length ≤ i) : (patch l pos m)[i]? = l[i]? := by
  rw [getElem?_patch h]
  rcases hi with hi | hi
  · rw [if_pos hi]
  · rw [if_neg (by omega), if_neg (by omega)]

@[simp] theorem patch_nil (l : List α) (pos : Nat) : patch l pos [] = l := by
  rw [patch, List.append_nil, List.length_nil, Nat.add_zero, List.take_append_drop]

theorem patch_all {l m : List α} (h : l.length = m.length) : patch l 0 m = m := by
  rw [patch, List.take_zero, List.nil_append, Nat.zero_add, ← h, List.drop_length, List.append_nil]

theorem set_eq_patch {l : List α} {pos : Nat} (h : pos < l.length) (x : α) : l.set pos x = patch l pos [x] := by
  rw [List.set_eq_take_append_cons_drop, if_pos h, patch, List.append_assoc]
  rfl

theorem stretch_set_of_lt {l : List α} {i pos : Nat} (h : i < pos) (x : α) (n : Nat) :
    stretch (l.set i x) pos n = stretch l pos n := by
  rw [stretch, List.drop_set_of_lt h, stretch]

theorem patch_patch {l m : List α} {pos next : Nat} (hn : pos + m.length = next) (h : next ≤ l.length)
    (m' : List α) : patch (patch l pos m) next m' = patch l pos (m ++ m') := by
  subst hn
  have hp : (l.take pos ++ m).length = pos + m.length := by
    rw [List.length_append, List.length_take]; omega
  rw [patch, patch, patch, List.take_left' hp, ← List.drop_drop, List.drop_left' hp, List.drop_drop,
    List.length_append, List.append_assoc (l.take pos), Nat.add_assoc]

theorem patch_over {l m m' : List α} {pos : Nat} (hm : m'.length = m.length) (h : pos + m.length ≤ l.length) :
    patch (patch l pos m) pos m' = patch l pos m' := by
  have hp : (l.take pos).length = pos := by rw [List.length_take]; omega
  have hnext : (l.take pos ++ m).length = pos + m'.length := by rw [List.length_append, hp, hm]
  rw [patch, patch, List.drop_left' hnext, List.append_assoc (l.take pos), List.take_left' hp, patch, hm]

theorem patch_set {l : List α} {pos : Nat} (h : pos < l.length) (x : α) (m : List α) :
    patch (l.set pos x) (pos + 1) m = patch l pos (x :: m) := by
  rw [set_eq_patch h]
  exact patch_patch rfl h m

theorem stretch_patch_after {l m : List α} {pos next : Nat} (hn : pos + m.length = next) (h : next ≤ l.length)
    (n : Nat) : stretch (patch l pos m) next n = stretch l next n := by
  subst hn
  have hp : (l.take pos ++ m).length = pos + m.length := by
    rw [List.length_append, List.length_take]; omega
  rw [stretch, patch, List.drop_left' hp, stretch]

theorem stretch_patch_of_outside {l m : List α} {pos low n : Nat} (hl : pos + m.length ≤ l.length)
    (h : pos + m.length ≤ low ∨ low + n ≤ pos) : stretch (patch l pos m) low n = stretch l low n := by
  apply List.ext_getElem?
  intro i
  rw [getElem?_stretch, getElem?_stretch]
  by_cases hi : i < n
  · rw [getElem?_patch_of_outside hl (by omega)]
  · rw [if_neg hi, if_neg hi]

theorem stretch_patch_self {l m : List α} {pos n : Nat} (hl : pos + m.length ≤ l.length) (hn : m.length = n) :
    stretch (patch l pos m) pos n = m := by
  have hpos : (l.take pos).length = pos := by
    rw [List.length_take]
    omega
  have hself := stretch_append (l.take pos) m (l.drop (pos + m.length))
  rw [hpos] at hself
  rw [← hn]
  exact hself

theorem patch_stretch (l : List α) {pos n : Nat} (h : pos + n ≤ l.length) : patch l pos (stretch l pos n) = l := by
  rw [patch, length_stretch h, stretch, ← List.drop_drop, List.append_assoc, List.take_append_drop,
    List.take_append_drop]

theorem append_patch (x y : List α) {p m : List α} {pos : Nat} (h : pos + m.length ≤ p.length) :
    x ++ patch p pos m ++ y = patch (x ++ p ++ y) (x.length + pos) m := by
  have ht : (x ++ p ++ y).take (x.length + pos) = x ++ p.take pos := by
    rw [List.append_assoc, List.take_length_add_append, List.take_append_of_le_length (by omega)]
  have hd : (x ++ p ++ y).drop (x.length + pos + m.length) = p.drop (pos + m.length) ++ y := by
    rw [List.append_assoc, Nat.add_assoc, List.drop_length_add_append, List.drop_append_of_le_length h]
  rw [patch, patch, ht, hd]
  simp only [List.append_assoc]

theorem stretch_patch {l m : List α} {low n pos : Nat} (h : pos + m.length ≤ n) (hl : low + n ≤ l.length) :
    stretch (patch l (low + pos) m) low n = patch (stretch l low n) pos m := by
  have hlen : (stretch l low n).length = n := length_stretch hl
  apply List.ext_getElem?
  intro i
  rw [getElem?_stretch, getElem?_patch (by omega), getElem?_patch (by omega), getElem?_stretch]
  grind

theorem patch_stretch_patch {l m : List α} {pos n : Nat} (h : m.length ≤ n) (hl : pos + n ≤ l.length) :
    patch l pos (patch (stretch l pos n) 0 m) = patch l pos m := by
  have hlen : (stretch l pos n).length = n := length_stretch hl
  have hpatch : (patch (stretch l pos n) 0 m).length = n := by rw [length_patch (by omega), hlen]
  apply List.ext_getElem?
  intro i
  rw [getElem?_patch (by omega), getElem?_patch (by omega), getElem?_patch (by omega), getElem?_stretch]
  grind

theorem take_patch {l m : List α} {pos n : Nat} (h : n ≤ pos) (hl : pos ≤ l.length) :
    (patch l pos m).take n = l.take n := by
  rw [patch, List.append_assoc, List.take_append_of_le_length (by rw [List.length_take]; omega), List.take_take,
    Nat.min_eq_left h]

theorem drop_patch {l m : List α} {pos n : Nat} (h : pos + m.length ≤ n) (hl : pos ≤ l.length) :
    (patch l pos m).drop n = l.drop n := by
  have hp : (l.take pos ++ m).length = pos + m.length := by
    rw [List.length_append, List.length_take]; omega
  obtain ⟨d, rfl⟩ := Nat.exists_eq_add_of_le h
  rw [patch, ← List.drop_drop, List.drop_left' hp, List.drop_drop]

/-- The list with the `n` entries from `i` on and those from `j` on exchanged. -/
def swapStretches (l : List α) (n i j : Nat) : List α := patch (patch l i (stretch l j n)) j (stretch l i n)

private theorem getElem?_swapStretches {l : List α} {n i j : Nat} (hi : i + n ≤ l.length)
    (hj : j + n ≤ l.length) (p : Nat) :
    (swapStretches l n i j)[p]? =
      if j ≤ p ∧ p < j + n then l[i + (p - j)]? else if i ≤ p ∧ p < i + n then l[j + (p - i)]? else l[p]? := by
  have hli := length_stretch hi
  have hlj := length_stretch hj
  have hlen : (patch l i (stretch l j n)).length = l.length := length_patch (by omega)
  rw [swapStretches, getElem?_patch (by omega), getElem?_patch (by omega), getElem?_stretch, getElem?_stretch, hli,
    hlj]
  grind

theorem length_swapStretches {l : List α} {n i j : Nat} (hi : i + n ≤ l.length) (hj : j + n ≤ l.length) :
    (swapStretches l n i j).length = l.length := by
  have hli := length_stretch hi
  have hlj := length_stretch hj
  have hlen : (patch l i (stretch l j n)).length = l.length := length_patch (by omega)
  rw [swapStretches, length_patch (by omega), hlen]

theorem swapStretches_self {l : List α} {n i : Nat} (hi : i + n ≤ l.length) : swapStretches l n i i = l := by
  rw [swapStretches, patch_stretch l hi, patch_stretch l hi]

/-- Stretches are exchanged entry by entry; they must not overlap. -/
theorem swapStretches_succ {l : List α} {n i j : Nat} (hi : i + (n + 1) ≤ l.length) (hj : j + (n + 1) ≤ l.length)
    (hij : i = j ∨ i + (n + 1) ≤ j ∨ j + (n + 1) ≤ i) :
    swapStretches ((l.set i l[j]).set j l[i]) n (i + 1) (j + 1) = swapStretches l (n + 1) i j := by
  have hlen : ((l.set i l[j]).set j l[i]).length = l.length := by simp
  apply List.ext_getElem?
  intro p
  rw [getElem?_swapStretches (by omega) (by omega), getElem?_swapStretches hi hj]
  grind

theorem swapStretches_one {l : List α} {i j : Nat} (hi : i < l.length) (hj : j < l.length) :
    swapStretches l 1 i j = (l.set i l[j]).set j l[i] := by
  have hsucc := swapStretches_succ (n := 0) hi hj (by omega)
  rw [← hsucc, swapStretches, stretch_zero, stretch_zero, patch_nil, patch_nil]

theorem patch_append (x y : List α) {p m : List α} (h : p.length = m.length) :
    patch (x ++ p ++ y) x.length m = x ++ m ++ y := by
  have hpatch : x ++ patch p 0 m ++ y = patch (x ++ p ++ y) (x.length + 0) m := append_patch x y (by omega)
  rw [patch_all h, Nat.add_zero] at hpatch
  exact hpatch.symm

theorem swapStretches_append (x m y : List α) {u v : List α} {n : Nat} (hu : u.length = n) (hv : v.length = n) :
    swapStretches (x ++ u ++ (m ++ v ++ y)) n x.length (x.length + n + m.length) = x ++ v ++ (m ++ u ++ y) := by
  have hplace : x.length + n + m.length = (x ++ u ++ m).length := by
    rw [List.length_append, List.length_append, hu]
  have hplace' : x.length + n + m.length = (x ++ v ++ m).length := by
    rw [List.length_append, List.length_append, hv]
  have hi : stretch (x ++ u ++ (m ++ v ++ y)) x.length n = u := by rw [← hu, stretch_append]
  have hj : stretch (x ++ u ++ (m ++ v ++ y)) (x.length + n + m.length) n = v := by
    have hl : x ++ u ++ (m ++ v ++ y) = x ++ u ++ m ++ v ++ y := by simp only [List.append_assoc]
    rw [hplace, hl, ← hv]
    exact stretch_append _ _ _
  have hl : x ++ v ++ (m ++ v ++ y) = x ++ v ++ m ++ v ++ y := by simp only [List.append_assoc]
  rw [swapStretches, hi, hj, patch_append _ _ (hu.trans hv.symm), hplace', hl, patch_append _ _ (hv.trans hu.symm)]
  simp only [List.append_assoc]

end PagedWords
