import PagedWords.Proofs.StoreView

/-!
# Elemental and range operations of stores, told on the word list

Each operation has one equation for all kinds of storage: in pieces, as a whole, word by word or through a
window, it does to the store what it does to the list.
-/
namespace PagedWords.Store
variable {k : Width} {τ : Type} {s : Store k}

section Read
variable (hs : s.WellFormed)
include hs

theorem tryGet_eq {pos : Nat} (hpos : pos < s.toList.length) : s.tryGet pos = .ok (.ok s.toList[pos]) := by
  cases s with
  | paged a =>
    have hget := (reads hs).get pos hpos
    have hlt : pos < a.size := by
      rw [length_toList hs] at hpos
      exact hpos
    show a.tryGet pos = _
    rw [Paged.tryGet, if_pos hlt]
    exact congrArg (Except.map Except.ok) hget
  | _ => exact (reads hs).tryGet hpos

theorem readRange_eq {start n : Nat} (hn : start + n ≤ s.size) :
    s.readRange start n = .ok (stretch s.toList start n).toArray := by
  induction s generalizing start with
  | slice ws => exact Words.readRange_eq hn
  | page p => exact Words.readRange_eq hn
  | paged a => exact Paged.readRange_eq hs.1 hs.2 hn
  | window base low high ih =>
    have hsize : start + n ≤ high - low := hn
    have hhigh := hs.window_le
    have hplace : low + start + n ≤ base.size := by omega
    have hbase := ih hs.1 hplace
    have hlen : low + (start + n) - (low + start) = n := by omega
    rw [readRange, windowSpan_eq (by omega) hsize, toList, stretch_stretch _ hsize]
    simp only [bind, Except.bind, hlen]
    exact hbase
  | elementwise base ih => exact (reads (s := elementwise base) hs).readRange (by rw [length_toList hs]; exact hn)

theorem fold_eq (f : τ → Nat → Word k → τ) {start stop : Nat} (hle : start ≤ stop) (hl : stop ≤ s.size) (t : τ) :
    s.fold start stop f t = .ok (foldWords f start (stretch s.toList start (stop - start)) t) := by
  induction s generalizing start stop f with
  | slice ws => exact Words.fold_eq f hle hl t
  | page p => exact Words.fold_eq f hle hl t
  | paged a => exact Paged.fold_eq hs.1 hs.2 f hle hl t
  | window base low high ih =>
    have hsize : stop ≤ high - low := hl
    have hhigh := hs.window_le
    have hle' : low + start ≤ low + stop := Nat.add_le_add_left hle low
    have hbase := ih hs.1 (fun t pos w => f t (pos - low) w) hle' (by omega)
    have hlen : low + stop - (low + start) = stop - start := by omega
    rw [fold, windowSpan_eq hle hsize, toList, stretch_stretch _ (by omega)]
    rw [hlen, foldWords_shift f start (by omega)] at hbase
    exact hbase
  | elementwise base ih => exact (reads (s := elementwise base) hs).fold f hle (by rw [length_toList hs]; exact hl) t

theorem tryFold_eq (f : τ → Nat → Word k → Except Error Unit × τ) {start stop : Nat} (hle : start ≤ stop)
    (hl : stop ≤ s.size) (t : τ) :
    s.tryFold start stop f t = .ok (tryFoldWords f start (stretch s.toList start (stop - start)) t) := by
  induction s generalizing start stop f with
  | slice ws => exact Words.tryFold_eq f hle hl t
  | page p => exact Words.tryFold_eq f hle hl t
  | paged a => exact Paged.tryFold_eq hs.1 hs.2 f hle hl t
  | window base low high ih =>
    have hsize : stop ≤ high - low := hl
    have hhigh := hs.window_le
    have hle' : low + start ≤ low + stop := Nat.add_le_add_left hle low
    have hbase := ih hs.1 (fun t pos w => f t (pos - low) w) hle' (by omega)
    have hlen : low + stop - (low + start) = stop - start := by omega
    rw [tryFold, windowCheck_eq hle hsize, toList, stretch_stretch _ (by omega)]
    rw [hlen, tryFoldWords_shift f start (by omega)] at hbase
    exact hbase
  | elementwise base ih =>
    exact (reads (s := elementwise base) hs).tryFold f hle (by rw [length_toList hs]; exact hl) t

end Read

section Write
variable (hs : s.Ready)
include hs

theorem trySet_spec {pos : Nat} (hpos : pos < s.size) (w : Word k) :
    ∃ s', s.trySet pos w = .ok (.ok (), s') ∧ s.SameFrame s' ∧ s'.toList = s.toList.set pos w := by
  cases s with
  | paged a => exact lift_paged (fun _ => rfl) (Paged.trySet_spec hs.paged hpos w)
  | _ => exact (view hs).trySet ⟨SameFrame.refl _, rfl⟩ (by rw [hs.length_toList]; exact hpos) w

theorem swap_spec {i j : Nat} (hi : i < s.toList.length) (hj : j < s.toList.length) :
    ∃ s', s.swap i j = .ok s' ∧ s.SameFrame s' ∧
      s'.toList = (s.toList.set i s.toList[j]).set j s.toList[i] := by
  cases s with
  | page p => exact lift_page (fun _ => rfl) (Page.swap_spec hs.page hi hj)
  | _ => exact (view hs).swap ⟨SameFrame.refl _, rfl⟩ hi hj

theorem swapRecords_spec {n i j : Nat} (hi : i + n ≤ s.size) (hj : j + n ≤ s.size)
    (hij : i = j ∨ i + n ≤ j ∨ j + n ≤ i) :
    ∃ s', s.swapRecords n i j = .ok s' ∧ s.SameFrame s' ∧ s'.toList = swapStretches s.toList n i j := by
  have hlen := hs.length_toList
  cases s with
  | slice ws => exact lift_slice (fun _ => rfl) (Words.swapRecords_spec hi hj hij) (length_swapStretches hi hj)
  | page p => exact lift_page (fun _ => rfl) (Page.swapRecords_spec hs.page hi hj hij)
  | _ => exact (view hs).swapRecords n i j ⟨SameFrame.refl _, rfl⟩ (by omega) (by omega) hij

theorem increment_spec {pos : Nat} (hpos : pos < s.toList.length) :
    ∃ s', s.increment pos = .ok (s.toList[pos], s') ∧ s.SameFrame s' ∧
      s'.toList = s.toList.set pos s.toList[pos].succ :=
  (view hs).increment ⟨SameFrame.refl _, rfl⟩ hpos

end Write

theorem writeRange_spec (hs : s.Ready) {start : Nat} {ws : Words k} (hl : start + ws.size ≤ s.size) :
    ∃ s', s.writeRange start ws = .ok s' ∧ s.SameFrame s' ∧ s'.toList = patch s.toList start ws.toList := by
  induction s generalizing start with
  | slice old =>
    exact lift_slice (fun _ => rfl) (Words.writeRange_spec hl) (length_patch hl)
  | page p => exact lift_page (fun _ => rfl) (Page.writeRange_spec hs.page hl)
  | paged a => exact lift_paged (fun _ => rfl) (Paged.writeRange_spec hs.paged hl)
  | window base low high ih =>
    have hsize : start + ws.size ≤ high - low := hl
    have hhigh := hs.wellFormed.window_le
    have hplace : low + start + ws.size ≤ base.size := by omega
    rw [writeRange, windowSpan_bind (by omega) hsize]
    exact lift_window hs (fun _ => rfl) (ih hs.base hplace) hsize
  | elementwise base ih =>
    exact (view hs).writeRange ⟨SameFrame.refl _, rfl⟩ (by rw [hs.length_toList]; exact hl)

theorem fill_spec (hs : s.Ready) {start stop : Nat} (hle : start ≤ stop) (hl : stop ≤ s.size) (w : Word k) :
    ∃ s', s.fill start stop w = .ok s' ∧ s.SameFrame s' ∧
      s'.toList = patch s.toList start (List.replicate (stop - start) w) := by
  induction s generalizing start stop with
  | slice ws =>
    have hsize : stop ≤ (slice ws).toList.length := hl
    exact lift_slice (fun _ => rfl) (Words.fill_spec hle hl w)
      (length_patch (by simp; omega))
  | page p => exact lift_page (fun _ => rfl) (Page.fill_spec hs.page hle hl w)
  | paged a => exact lift_paged (fun _ => rfl) (Paged.fill_spec hs.paged hle hl w)
  | window base low high ih =>
    have hsize : stop ≤ high - low := hl
    have hhigh := hs.wellFormed.window_le
    have hle' : low + start ≤ low + stop := Nat.add_le_add_left hle low
    have hbase := ih hs.base hle' (by omega)
    rw [Nat.add_sub_add_left] at hbase
    rw [fill, windowSpan_bind hle hsize]
    exact lift_window hs (fun _ => rfl) hbase (by simp; omega)
  | elementwise base ih =>
    exact (view hs).fill ⟨SameFrame.refl _, rfl⟩ hle (by rw [hs.length_toList]; exact hl) w

theorem transform_spec (hs : s.Ready) (f : τ → Nat → Word k → Word k × τ) {start stop : Nat} (hle : start ≤ stop)
    (hl : stop ≤ s.size) (t : τ) :
    ∃ s', s.transform start stop f t =
        .ok (s', (transformWords f start (stretch s.toList start (stop - start)) t).2) ∧ s.SameFrame s' ∧
      s'.toList = patch s.toList start (transformWords f start (stretch s.toList start (stop - start)) t).1 := by
  induction s generalizing start stop f with
  | slice ws =>
    have hsize : stop ≤ (slice ws).toList.length := hl
    exact lift_slice (fun _ => rfl) (Words.transform_spec f hle hl t)
      (length_patch (by rw [length_transformWords, length_stretch (by omega)]; omega))
  | page p => exact lift_page (fun _ => rfl) (Page.transform_spec hs.page f hle hl t)
  | paged a => exact lift_paged (fun _ => rfl) (Paged.transform_spec hs.paged f hle hl t)
  | window base low high ih =>
    have hsize : stop ≤ high - low := hl
    have hhigh := hs.wellFormed.window_le
    have hle' : low + start ≤ low + stop := Nat.add_le_add_left hle low
    have hbase := ih hs.base (fun t pos w => f t (pos - low) w) hle' (by omega)
    have hshow : stretch base.toList (low + start) (stop - start) =
        stretch (window base low high).toList start (stop - start) :=
      (stretch_stretch _ (by omega)).symm
    rw [Nat.add_sub_add_left, transformWords_shift f start (by omega), hshow] at hbase
    rw [transform, windowSpan_bind hle hsize]
    refine lift_window hs (fun _ => rfl) hbase ?_
    rw [length_transformWords, length_stretch (by rw [hs.length_toList]; show _ ≤ high - low; omega)]
    omega
  | elementwise base ih =>
    exact (view hs).transform ⟨SameFrame.refl _, rfl⟩ f hle (by rw [hs.length_toList]; exact hl) t

theorem tryTransform_spec (hs : s.Ready) (f : τ → Nat → Word k → Except Error (Word k) × τ) {start stop : Nat}
    (hle : start ≤ stop) (hl : stop ≤ s.size) (t : τ) :
    ∃ s', s.tryTransform start stop f t =
        .ok ((tryTransformWords f start (stretch s.toList start (stop - start)) t).1, s',
          (tryTransformWords f start (stretch s.toList start (stop - start)) t).2.2) ∧ s.SameFrame s' ∧
      s'.toList =
        patch s.toList start (tryTransformWords f start (stretch s.toList start (stop - start)) t).2.1 := by
  have hmade := length_tryTransformWords_le f start (stretch s.toList start (stop - start)) t
  rw [length_stretch (by rw [hs.length_toList]; omega)] at hmade
  induction s generalizing start stop f with
  | slice ws =>
    have hsize : stop ≤ (slice ws).toList.length := hl
    exact lift_slice (fun _ => rfl) (Words.tryTransform_spec f hle hl t)
      (length_patch (Nat.le_trans (Nat.add_le_add_left hmade _) (by omega)))
  | page p => exact lift_page (fun _ => rfl) (Page.tryTransform_spec hs.page f hle hl t)
  | paged a => exact lift_paged (fun _ => rfl) (Paged.tryTransform_spec hs.paged f hle hl t)
  | window base low high ih =>
    have hsize : stop ≤ high - low := hl
    have hhigh := hs.wellFormed.window_le
    have hlen : low + stop - (low + start) = stop - start := by omega
    have hshow : stretch base.toList (low + start) (stop - start) =
        stretch (window base low high).toList start (stop - start) :=
      (stretch_stretch _ (by omega)).symm
    have hshift : tryTransformWords (fun t pos w => f t (pos - low) w) (low + start)
        (stretch base.toList (low + start) (low + stop - (low + start))) t =
        tryTransformWords f start (stretch (window base low high).toList start (stop - start)) t := by
      rw [hlen, tryTransformWords_shift f start (by omega), hshow]
    have hle' : low + start ≤ low + stop := Nat.add_le_add_left hle low
    have hbase := ih hs.base (fun t pos w => f t (pos - low) w) hle' (by omega) (by rw [hshift, hlen]; exact hmade)
    rw [hshift] at hbase
    rw [tryTransform, windowCheck_eq hle hsize]
    exact lift_window hs (fun _ => rfl) hbase (by omega)
  | elementwise base ih =>
    exact (view hs).tryTransform ⟨SameFrame.refl _, rfl⟩ f hle (by rw [hs.length_toList]; exact hl) t

end PagedWords.Store
