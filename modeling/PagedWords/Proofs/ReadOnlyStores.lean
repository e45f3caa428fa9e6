import PagedWords.Proofs.Mappings
import PagedWords.Proofs.Windows

/-!
# Stores that are mapped as read-only

A sort or a transformation that meets a read-only page is refused before it does anything, by pages, by arrays of them
and through windows. A single write has such an answer from arrays of pages alone: a page has only the write that ends
the run, and so has a window, whatever it shows.
-/
namespace PagedWords
variable {k : Width} {τ : Type}

theorem Partition.tryFoldPieces_of_refused {β : Type} {p : Partition} (hp : p.Valid) {start stop : Nat}
    (hlt : start < stop) (hstop : stop ≤ 2 ^ 63) {f : β → Piece → Except Fault (Except Error Unit × β)} {b : β}
    {e : Error} (h : ∀ next c, IsPiece p start next c → next ≤ stop → f b c = .ok (.error e, b)) :
    p.tryFoldPieces start stop f b = .ok (.error e, b) :=
  tryFoldPieces_of_first hp hlt hstop (fun _ h => by cases h) h

namespace Page
variable {p : Page k}

theorem tryTransform_of_locked (h : p.isWritable = false) (start stop : Nat)
    (f : τ → Nat → Word k → Except Error (Word k) × τ) (t : τ) :
    p.tryTransform start stop f t = .ok (.error locked, p, t) := by simp [tryTransform, h]

theorem sortRecords_of_locked (h : p.isWritable = false) (how : RecordSort) (folder : Folder)
    (stride start stop : Nat) :
    p.sortRecords how folder stride start stop = .ok (.refused locked p folder) := by simp [sortRecords, h]

private theorem isWritable_of_map {host : Host} {f : OpenFile} {first n : Nat} {access : Access}
    (h : Page.map host f first n access = .ok (.ok p)) (hsize : 0 < p.size) :
    p.isWritable = (access == .readWrite) := by
  rcases Nat.eq_zero_or_pos n with rfl | hn
  · rw [map, if_pos rfl] at h
    have hempty := size_of_zeroed h
    omega
  · rw [map_of_pos hn, Except.ok.injEq] at h
    simp [isWritable, (view_spec h).2]

end Page

namespace Paged
variable {a : Paged k}

/-- None of the pages takes a write. -/
structure Locked (a : Paged k) : Prop where
  wellFormed : a.WellFormed
  size_lt : a.size < 2 ^ 63
  isWritable : ∀ p ∈ a.pages, p.isWritable = false

section Map
variable {host : Host} {d d' : Directory} {q : Partition} {path : String} {first n : Nat} (hq : q.Valid)
include hq

theorem locked_of_mapOpen {f : OpenFile} (h : mapOpen host d q f first n .readOnly = .ok ⟨.ok a, d'⟩) : a.Locked := by
  obtain ⟨f', hlim, -, -, hmaps⟩ := maps_of_mapOpen hq h
  have hsum := lt_of_bytes hlim
  have hsize := hmaps.size
  exact ⟨hmaps.wellFormed, by omega, fun p hp => hmaps.isWritable hp⟩

theorem locked_of_mapRange (h : mapRange host d q path first n .readOnly = .ok ⟨.ok a, d'⟩) : a.Locked := by
  rw [mapRange] at h
  split at h
  · cases h
  · exact locked_of_mapOpen hq h

theorem locked_of_mapWhole (h : mapWhole host d q path .readOnly = .ok ⟨.ok a, d'⟩) : a.Locked := by
  simp only [mapWhole] at h
  split at h
  · cases h
  split at h
  · cases h
  split at h
  · cases h
  · exact locked_of_mapOpen hq h

end Map

namespace Locked
variable (ha : a.Locked) {start stop : Nat}
include ha

theorem page_of_piece {pos next : Nat} {c : Piece} (hc : a.partition.IsPiece pos next c) (hn : next ≤ a.size) :
    ∃ p, a.pages[c.page]? = some p ∧ a.page c.page = .ok p ∧ p.isWritable = false := by
  obtain ⟨p, hp, -⟩ := Paged.page_of_piece ha.wellFormed ha.size_lt hc hn
  exact ⟨p, hp, page_eq_ok hp, ha.isWritable p (Array.mem_of_getElem? hp)⟩

theorem set_eq {pos : Nat} (hpos : pos < a.size) (w : Word k) : a.set pos w = raise Page.locked := by
  obtain ⟨p, hp, -, hw⟩ := ha.page_of_piece (isPiece_one ha.wellFormed.partition pos) hpos
  simp [set, checkSlot, Nat.not_le.2 hpos, hp, hw, bind, Except.bind]

theorem trySet_eq {pos : Nat} (hpos : pos < a.size) (w : Word k) : a.trySet pos w = .ok (.error Page.locked, a) := by
  obtain ⟨p, -, hp, hw⟩ := ha.page_of_piece (isPiece_one ha.wellFormed.partition pos) hpos
  simp [trySet, Nat.not_le.2 hpos, hp, hw, bind, Except.bind, pure, Except.pure]

variable (hlt : start < stop) (hl : stop ≤ a.size)
include hlt hl

theorem tryTransform_eq (f : τ → Nat → Word k → Except Error (Word k) × τ) (t : τ) :
    a.tryTransform start stop f t = .ok (.error Page.locked, a, t) := by
  have hlim := ha.size_lt
  refine Partition.tryFoldPieces_of_refused ha.wellFormed.partition hlt (by omega) ?_
  intro next c hc hnext
  obtain ⟨p, -, hp, hw⟩ := ha.page_of_piece hc (by omega)
  simp only [hp, Page.tryTransform_of_locked hw, replacePage_self hp, bind, Except.bind, pure, Except.pure]

theorem checkWritable_eq : a.checkWritable start stop = .ok (.error (.readOnly s!"range {start}..{stop}")) := by
  have hlim := ha.size_lt
  rw [checkWritable, Nat.min_eq_left hl, Partition.tryFoldPieces_of_refused ha.wellFormed.partition hlt (by omega)]
  · rfl
  · intro next c hc hnext
    obtain ⟨p, -, hp, hw⟩ := ha.page_of_piece hc (by omega)
    simp only [hp, hw, bind, Except.bind, pure, Except.pure]
    rfl

/-- The page is named where the range lies on one, else the range. -/
theorem sortRecords_eq (how : RecordSort) (folder : Folder) (stride : Nat) :
    ∃ context, a.sortRecords how folder stride start stop = .ok (.refused (.readOnly context) a folder) := by
  rw [sortRecords]
  split
  · next c hconf =>
    obtain ⟨p, -, hp, hw⟩ := ha.page_of_piece (isPiece_of_confined ha.wellFormed hconf).2 hl
    refine ⟨"read-only page", ?_⟩
    simp only [hp, Page.sortRecords_of_locked hw, bind, Except.bind, pure, Except.pure]
    exact congrArg (fun a => Except.ok (SortOutcome.refused Page.locked a folder)) (replacePage_self hp)
  · refine ⟨s!"range {start}..{stop}", ?_⟩
    simp only [ha.checkWritable_eq hlt hl, bind, Except.bind, pure, Except.pure]

end Locked
end Paged

namespace Store
variable {s : Store k}

/-- What a mapping gives that is read-only, and the windows that are opened onto it. -/
inductive MappedReadOnly : Store k → Prop
  | page {host : Host} {f : OpenFile} {first n : Nat} {p : Page k}
      (h : Page.map host f first n .readOnly = .ok (.ok p)) : MappedReadOnly (page p)
  | range {host : Host} {d d' : Directory} {q : Partition} {path : String} {first n : Nat} {a : Paged k} (hq : q.Valid)
      (h : Paged.mapRange host d q path first n .readOnly = .ok ⟨.ok a, d'⟩) : MappedReadOnly (paged a)
  | whole {host : Host} {d d' : Directory} {q : Partition} {path : String} {a : Paged k} (hq : q.Valid)
      (h : Paged.mapWhole host d q path .readOnly = .ok ⟨.ok a, d'⟩) : MappedReadOnly (paged a)
  | window {base v : Store k} {low high : Nat} (hbase : MappedReadOnly base) (h : base.Opened low high v) :
      MappedReadOnly v

/-- None of the words of the store takes a write. -/
inductive Locked : Store k → Prop
  | page {p : Page k} (h : 0 < p.size → p.isWritable = false) : Locked (page p)
  | paged {a : Paged k} (h : a.Locked) : Locked (paged a)
  | window {base : Store k} {low high : Nat} (h : Locked base) (hhigh : high ≤ base.size) :
      Locked (window base low high)

theorem MappedReadOnly.locked (hs : s.MappedReadOnly) : s.Locked := by
  induction hs with
  | page h => exact .page (Page.isWritable_of_map h)
  | range hq h => exact .paged (Paged.locked_of_mapRange hq h)
  | whole hq h => exact .paged (Paged.locked_of_mapWhole hq h)
  | window _ h ih =>
    obtain ⟨rfl, -, hhigh⟩ := h.spec
    exact .window ih hhigh

namespace Locked

theorem set_eq (hs : s.Locked) {pos : Nat} (hpos : pos < s.size) (w : Word k) : s.set pos w = raise Page.locked := by
  induction hs generalizing pos with
  | page h =>
    have hw := h (Nat.zero_lt_of_lt hpos)
    simp [set, Page.set, Page.modify_of_locked hw, bind, Except.bind]
  | paged h => simp [set, h.set_eq hpos, bind, Except.bind]
  | @window base low high h hhigh ih =>
    have hpos : pos < high - low := hpos
    have hbase := ih (by omega : low + pos < base.size)
    simp [set, hpos, hbase, bind, Except.bind]

private theorem trySet_of_default (hs : s.Locked) {pos : Nat} (hpos : pos < s.size) (w : Word k) :
    Cells.trySet s pos w = raise Page.locked := by
  simp [Cells.trySet, hpos, hs.set_eq hpos w, bind, Except.bind]

theorem tryTransform_eq (hs : s.Locked) {start stop : Nat} (hlt : start < stop) (hl : stop ≤ s.size)
    (f : τ → Nat → Word k → Except Error (Word k) × τ) (t : τ) :
    s.tryTransform start stop f t = .ok (.error Page.locked, s, t) := by
  induction hs generalizing start stop f with
  | page h =>
    have hw := h (Nat.zero_lt_of_lt (Nat.lt_of_lt_of_le hlt hl))
    simp [tryTransform, Page.tryTransform_of_locked hw, bind, Except.bind, pure, Except.pure]
  | paged h => simp [tryTransform, h.tryTransform_eq hlt hl, bind, Except.bind, pure, Except.pure]
  | @window base low high h hhigh ih =>
    have hl : stop ≤ high - low := hl
    have hbase := ih (by omega : low + start < low + stop) (by omega) (fun t pos w => f t (pos - low) w)
    simp [tryTransform, windowCheck_eq (Nat.le_of_lt hlt) hl, hbase, bind, Except.bind, pure, Except.pure]

theorem sortRecords_eq (hs : s.Locked) {start stop : Nat} (hlt : start < stop) (hl : stop ≤ s.size) (how : RecordSort)
    (folder : Folder) (stride : Nat) :
    ∃ context, s.sortRecords how folder stride start stop = .ok (.refused (.readOnly context) s folder) := by
  induction hs generalizing start stop with
  | page h =>
    have hw := h (Nat.zero_lt_of_lt (Nat.lt_of_lt_of_le hlt hl))
    refine ⟨"read-only page", ?_⟩
    simp only [sortRecords, Page.sortRecords_of_locked hw, bind, Except.bind]
    rfl
  | paged h =>
    obtain ⟨context, hrun⟩ := h.sortRecords_eq hlt hl how folder stride
    refine ⟨context, ?_⟩
    simp only [sortRecords, hrun, bind, Except.bind]
    rfl
  | @window base low high h hhigh ih =>
    have hl : stop ≤ high - low := hl
    obtain ⟨context, hrun⟩ := ih (by omega : low + start < low + stop) (by omega)
    refine ⟨context, ?_⟩
    simp only [sortRecords, windowCheck_eq (Nat.le_of_lt hlt) hl, hrun, bind, Except.bind]
    rfl

end Locked

/-- What is mapped as read-only refuses every transformation and every sort of words that it holds: no callback is run,
and the store is as it was. A single write is refused so by an array of pages only; by a page, and through any window,
it ends the run. -/
theorem readOnly_refuses_all_but_single_writes (hs : s.MappedReadOnly) :
    (∀ {τ : Type} (f : τ → Nat → Word k → Except Error (Word k) × τ) (t : τ) (start stop : Nat), start < stop →
      stop ≤ s.size → ∃ context, s.tryTransform start stop f t = .ok (.error (.readOnly context), s, t)) ∧
    (∀ (how : RecordSort) (folder : Folder) (stride start stop : Nat), start < stop → stop ≤ s.size →
      ∃ context, s.sortRecords how folder stride start stop = .ok (.refused (.readOnly context) s folder)) ∧
    ∀ (pos : Nat) (w : Word k), pos < s.size →
      (∃ a, s = paged a) ∧ s.trySet pos w = .ok (.error (.readOnly "read-only page"), s) ∨
        (∀ a, s ≠ paged a) ∧ s.trySet pos w = raise (.readOnly "read-only page") := by
  have hlocked := hs.locked
  refine ⟨?_, ?_, ?_⟩
  · intro τ f t start stop hlt hl
    exact ⟨_, hlocked.tryTransform_eq hlt hl f t⟩
  · intro how folder stride start stop hlt hl
    exact hlocked.sortRecords_eq hlt hl how folder stride
  · intro pos w hpos
    cases hlocked with
    | page h => exact .inr ⟨by simp, Locked.trySet_of_default (.page h) hpos w⟩
    | window h hhigh => exact .inr ⟨by simp, Locked.trySet_of_default (.window h hhigh) hpos w⟩
    | paged h =>
      have hrun := h.trySet_eq hpos w
      refine .inl ⟨⟨_, rfl⟩, ?_⟩
      simp [trySet, hrun, Page.locked, bind, Except.bind, pure, Except.pure]

/-- Six words on pages of four, and a window onto the middle of them: the array answers a write to its third word, the
window ends the run at the same word, and refuses to sort its two pairs. -/
theorem readOnly_refuses_all_but_single_writes_of_six :
    ∃ (d d' : Directory) (a : Paged .w32) (v : Store .w32),
      d = Directory.empty.put "a" (Bytes.ofWords (k := .w32) (List.replicate 6 Word.zero)) ∧
      Paged.mapRange .generous d (.even 4) "a" 0 6 .readOnly = .ok ⟨.ok a, d'⟩ ∧ (paged a).window? 1 5 = .ok v ∧
      (paged a).trySet 2 (.ofInt 7) = .ok (.error (.readOnly "read-only page"), paged a) ∧
      v.trySet 1 (.ofInt 7) = raise (.readOnly "read-only page") ∧
      ∃ context, v.sortRecords (.inMemory .quick) (.serving "tmp" []) 2 0 4 =
        .ok (.refused (.readOnly context) v (.serving "tmp" [])) := by
  have hq : (Partition.even 4).Valid := ⟨by decide, by decide⟩
  have hpath : Directory.empty.resolve .find "a" = .ok "a" := Directory.resolve_letter .empty .find
  obtain ⟨bytes, hbytes⟩ : ∃ bytes : Bytes, bytes = Bytes.ofWords (k := .w32) (List.replicate 6 Word.zero) := ⟨_, rfl⟩
  have hlong : (0 + 6) * Width.w32.bytes ≤ bytes.size := by rw [hbytes, Bytes.size_ofWords]; decide
  obtain ⟨a, hmap, ha⟩ := Paged.mapOpen_eq_ok (k := .w32) (Directory.empty.put "a" bytes) hq (by decide)
    (Host.generous_grantsViews "a" .readOnly _)
    (Paged.lengthen_of_le (f := ⟨"a", "a", .ofBytes bytes⟩) .generous .readOnly hlong)
  obtain ⟨d', hrange⟩ : ∃ d', Paged.mapRange .generous (Directory.empty.put "a" bytes) (.even 4) "a" 0 6 .readOnly =
      .ok ⟨.ok a, d'⟩ := by
    have hopen : Directory.openFor .generous (Directory.empty.put "a" bytes) "a" .readOnly = _ :=
      Directory.openFor_eq_ok (Directory.open?_put hpath bytes) rfl
    exact ⟨_, by simp only [Paged.mapRange, hopen, hmap]; rfl⟩
  have hsize : (paged a).size = 6 := ha.size
  have hwindow : (paged a).window? 1 5 = .ok (window (paged a) 1 5) :=
    window?_eq_ok_iff.2 ⟨by decide, by rw [hsize]; decide, rfl⟩
  have hfour : (window (paged a) 1 5).size = 4 := rfl
  have hpaged : (paged a).MappedReadOnly := .range hq hrange
  obtain ⟨-, -, hsingle⟩ := readOnly_refuses_all_but_single_writes hpaged
  obtain ⟨-, hsort, hsingle'⟩ := readOnly_refuses_all_but_single_writes (.window hpaged (.window hwindow))
  have hanswers := (hsingle 2 (.ofInt 7) (by rw [hsize]; decide)).resolve_right (fun h => h.1 a rfl)
  have hends := (hsingle' 1 (.ofInt 7) (by rw [hfour]; decide)).resolve_left (fun h => by simp at h)
  exact ⟨_, d', a, window (paged a) 1 5, by rw [hbytes], hrange, hwindow, hanswers.2, hends.2,
    hsort (.inMemory .quick) _ 2 0 4 (by decide) (Nat.le_of_eq hfour.symm)⟩

end Store
end PagedWords
