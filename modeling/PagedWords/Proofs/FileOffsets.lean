import PagedWords.Proofs.FileLoads

/-!
# Positions in files that are too large

A mapping checks every sum and product of positions before it works with it, so it always has an answer. A load checks
none. It faults if the first byte that it is to read has no position; that a later one has none is never noticed,
because the read before it is refused: no file reaches that far.
-/
namespace PagedWords
variable {k : Width}

private theorem Host.lt_of_read_eq_ok {host : Host} {name : String} {bytes : Bytes} {pos n : Nat} (hn : 0 < n)
    (h : (host.read name bytes pos n).2 = .ok ()) : pos + n < Bytes.offsetLimit := by
  by_contra hlim
  rw [read, if_neg (Nat.ne_of_gt hn)] at h
  split at h
  · rw [Bytes.readAt, if_pos (Nat.le_of_not_lt hlim)] at h
    cases h
  · cases h

private theorem Page.arriving_snd (host : Host) (p : Page k) (name : String) (bytes : Bytes) (first : Nat) (c : Piece) :
    (p.arriving host name bytes first c).2 = (host.read name bytes first (c.length * k.bytes)).2 := by
  simp only [arriving]
  split
  · split <;> rfl
  · rfl

namespace Paged
variable {host : Host} {a : Paged k} {d : Directory} {q : Partition} {path name : String}
  {source start stop pos next : Nat} {c : Piece}

section Map

theorem mapOpen_refuses (hq : q.Valid) (host : Host) (d : Directory) (f : OpenFile) (first size : Nat)
    (access : Access) : ∃ o : FileOutcome (Paged k), mapOpen host d q f first size access = .ok o ∧
      (positionLimit ≤ (first + size) * k.bytes → ∃ e, o.result = .error e) := by
  obtain ⟨o, hmap⟩ := mapOpen_answers (k := k) hq host d f first size access
  refine ⟨o, hmap, fun hlim => ?_⟩
  rw [mapOpen_of_limit_le host d q f access hlim] at hmap
  cases hmap
  exact ⟨_, rfl⟩

theorem mapRange_refuses (hq : q.Valid) (host : Host) (d : Directory) (path : String) (first size : Nat)
    (access : Access) : ∃ o : FileOutcome (Paged k), mapRange host d q path first size access = .ok o ∧
      (positionLimit ≤ (first + size) * k.bytes → ∃ e, o.result = .error e) := by
  rw [mapRange]
  rcases d.openFor host path access with cause | f
  · exact ⟨_, rfl, fun _ => ⟨_, rfl⟩⟩
  · exact mapOpen_refuses hq host d f first size access

theorem mapSized_refuses (hq : q.Valid) (host : Host) (d : Directory) (path : String) (size : Nat) :
    ∃ o : FileOutcome (Paged k), mapSized host d q path size = .ok o ∧
      (positionLimit ≤ size * k.bytes → ∃ e, o.result = .error e) := by
  rw [mapSized]
  rcases d.openOrCreate host path with cause | ⟨f, d'⟩
  · exact ⟨_, rfl, fun _ => ⟨_, rfl⟩⟩
  · obtain ⟨o, hmap, hlim⟩ := mapOpen_refuses (k := k) hq host d' f 0 size .readWrite
    rw [Nat.zero_add] at hlim
    exact ⟨o, hmap, hlim⟩

end Map

section Piece
variable {p : Page k} (hp : a.pages[c.page]? = some p)
include hp

theorem loadPiece_of_locked (hw : p.isWritable = false) :
    loadPiece host d name source start a c = .ok (.error Page.locked, a, d) := by
  simp only [loadPiece, page_eq_ok hp, hw, Bool.not_false, if_true, bind, Except.bind, pure, Except.pure]

private theorem loadPiece_of_limit_le (hstart : c.start ≤ c.stop) (hstop : c.stop ≤ p.size) (hw : p.isWritable = true)
    (hlim : positionLimit ≤ (source + (c.logical - start)) * k.bytes) :
    loadPiece host d name source start a c = .error .overflow := by
  have hslice : p.words.checkSlice c.start c.stop = .ok () := Words.checkSlice_eq_ok hstart hstop
  by_cases hword : source + (c.logical - start) < positionLimit
  · simp only [loadPiece, page_eq_ok hp, hw, hslice, addPosition, mulPosition, if_pos hword, if_neg (Nat.not_lt.2 hlim),
      Bool.not_true, Bool.false_eq_true, if_false, bind, Except.bind]
  · simp only [loadPiece, page_eq_ok hp, hw, hslice, addPosition, if_neg hword, Bool.not_true, Bool.false_eq_true,
      if_false, bind, Except.bind]

end Piece

section Load
variable (ha : a.WellFormed) (hs : a.size < 2 ^ 63)
include ha hs

private theorem loadPiece_answers (hc : a.partition.IsPiece pos next c) (hn : next ≤ a.size) (hpos : start ≤ pos)
    (hlim : (source + (pos - start)) * k.bytes < positionLimit) :
    ∃ r a' d', loadPiece host d name source start a c = .ok (r, a', d') ∧ a'.frame = a.frame ∧
      (r = .ok () → (source + (next - start)) * k.bytes < Bytes.offsetLimit) := by
  obtain ⟨p, hp, hstop, -⟩ := page_of_piece ha hs hc hn
  have hlt := hc.lt
  have hlength := hc.length
  rcases hw : p.isWritable with _ | _
  · exact ⟨_, a, d, loadPiece_of_locked hp hw, rfl, fun h => by cases h⟩
  rcases harrive : p.arriving host name ((d.find? name).getD #[]) ((source + (pos - start)) * k.bytes) c with ⟨found, r⟩
  obtain ⟨p', m, hfr, -, -, hrun⟩ := loadPiece_of_writable hc hp hstop hw rfl hlim harrive
  refine ⟨_, _, _, hrun, frame_replacePage hp hfr, fun hr => ?_⟩
  have hread : (host.read name ((d.find? name).getD #[]) ((source + (pos - start)) * k.bytes) (c.length * k.bytes)).2 =
      .ok () := by
    rw [← Page.arriving_snd host p, harrive]
    cases r with
    | error e => cases hr
    | ok u => rfl
  rw [bytes_of_piece hc hpos]
  exact Host.lt_of_read_eq_ok (Nat.mul_pos (by omega) k.bytes_pos) hread

/-- The words up to `pos` are loaded, so their bytes have positions, and so has the byte after them. -/
structure Reaching (a : Paged k) (source start pos : Nat) (s : Paged k × Directory) : Prop where
  le : start ≤ pos
  frame : s.1.frame = a.frame
  lt : (source + (pos - start)) * k.bytes < positionLimit
  loaded : start < pos → (source + (pos - start)) * k.bytes < Bytes.offsetLimit

theorem Reaching.step (hl : stop ≤ a.size) {s : Paged k × Directory} (h : Reaching a source start pos s)
    (hc : a.partition.IsPiece pos next c) (hn : next ≤ stop) :
    ∃ r, loadPiece host s.2 name source start s.1 c = .ok r ∧
      Ends (Reaching a source start next) (fun _ s => s.1.frame = a.frame) r := by
  obtain ⟨hpos, hfr, hlim, -⟩ := h
  have hlt := hc.lt
  have hoffset : Bytes.offsetLimit < positionLimit := by decide
  obtain ⟨r, a', d', hrun, hfr', hreach⟩ := loadPiece_answers (ha.of_frame hfr) (by rw [size_of_frame hfr]; exact hs)
    (by rw [partition_of_frame hfr]; exact hc) (by rw [size_of_frame hfr]; omega) hpos hlim
  refine ⟨_, hrun, ?_⟩
  rcases r with e | u
  · exact hfr'.trans hfr
  · have hend := hreach rfl
    exact ⟨by omega, hfr'.trans hfr, Nat.lt_trans hend hoffset, fun _ => hend⟩

private theorem loadPieces_answer (hle : start ≤ stop) (hl : stop ≤ a.size) (hlim : source * k.bytes < positionLimit) :
    ∃ r, a.partition.tryFoldPieces start stop (fun s c => loadPiece host s.2 name source start s.1 c) (a, d) = .ok r ∧
      Ends (Reaching a source start stop) (fun _ s => s.1.frame = a.frame) r := by
  refine Partition.tryFoldPieces_of_step (R := Reaching a source start) ha.partition hle (by omega)
    (fun pos next c s hc hn h => h.step ha hs hl hc hn) ⟨Nat.le_refl _, rfl, ?_, fun h => absurd h (Nat.lt_irrefl _)⟩
  rw [Nat.sub_self, Nat.add_zero]
  exact hlim

end Load

/-- The first byte that is to be loaded has no position, and nothing else is wrong with the load. -/
structure LoadOverflows (a : Paged k) (d : Directory) (path : String) (source start stop : Nat) : Prop where
  opens : ∃ f, d.open? path = .ok f
  lt : start < stop
  le : stop ≤ a.size
  writable : ∃ p, a.pages[a.partition.page start]? = some p ∧ p.isWritable = true
  limit_le : positionLimit ≤ source * k.bytes

section LoadFrom
variable (ha : a.WellFormed) (hs : a.size < 2 ^ 63)
include ha hs

theorem loadFrom_of_overflows (h : a.LoadOverflows d path source start stop) :
    a.loadFrom host d path source start stop = .error .overflow := by
  obtain ⟨⟨f, hopen⟩, hlt, hl, ⟨p, hp, hw⟩, hlim⟩ := h
  have hfirst : a.partition.tryFoldPieces start stop (fun s c => loadPiece host s.2 f.name source start s.1 c) (a, d) =
      .error .overflow := by
    refine Partition.tryFoldPieces_of_first ha.partition hlt (by omega) (fun _ h => by cases h) ?_
    intro next c hc hn
    obtain ⟨p', hp', hstop, -⟩ := page_of_piece ha hs hc (Nat.le_trans hn hl)
    cases hp.symm.trans (hc.page ▸ hp')
    refine loadPiece_of_limit_le hp' hc.start_le_stop hstop hw ?_
    rw [hc.logical, Nat.sub_self, Nat.add_zero]
    exact hlim
  rw [loadFrom_of_range hopen host (Nat.le_of_lt hlt) hl, hfirst]
  rfl

theorem loadFrom_answers (h : ¬a.LoadOverflows d path source start stop) :
    ∃ r a', a.loadFrom host d path source start stop = .ok (r, a') ∧ a'.frame = a.frame ∧
      (Bytes.offsetLimit ≤ (source + (stop - start)) * k.bytes → start = stop ∨ ∃ e, r = .error e) := by
  rcases hopen : d.open? path with cause | f
  · exact ⟨_, a, by rw [loadFrom, hopen], rfl, fun _ => .inr ⟨_, rfl⟩⟩
  by_cases hrange : start ≤ stop ∧ stop ≤ a.size
  swap
  · exact ⟨_, a, loadFrom_of_outside hopen host hrange, rfl, fun _ => .inr ⟨_, rfl⟩⟩
  obtain ⟨hle, hl⟩ := hrange
  rcases Nat.eq_or_lt_of_le hle with rfl | hlt
  · exact ⟨_, a, loadFrom_of_empty hopen host hl, rfl, fun _ => .inl rfl⟩
  obtain ⟨p, hp, -⟩ := page_of_piece ha hs (isPiece_one ha.partition start) (Nat.lt_of_lt_of_le hlt hl)
  rcases hw : p.isWritable with _ | _
  · have hfirst :
        a.partition.tryFoldPieces start stop (fun s c => loadPiece host s.2 f.name source start s.1 c) (a, d) =
        .ok (.error Page.locked, a, d) := by
      refine Partition.tryFoldPieces_of_first ha.partition hlt (by omega) (fun _ h => by cases h) ?_
      intro next c hc hn
      exact loadPiece_of_locked (hc.page ▸ hp) hw
    exact ⟨_, a, by rw [loadFrom_of_range hopen host hle hl, hfirst]; rfl, rfl, fun _ => .inr ⟨_, rfl⟩⟩
  have hlim : source * k.bytes < positionLimit := by
    by_contra hlim
    exact h ⟨⟨f, hopen⟩, hlt, hl, ⟨p, hp, hw⟩, Nat.le_of_not_lt hlim⟩
  obtain ⟨⟨r, a', d'⟩, hrun, hend⟩ : ∃ r, a.partition.tryFoldPieces start stop
      (fun s c => loadPiece host s.2 f.name source start s.1 c) (a, d) = .ok r ∧
        Ends (Reaching a source start stop) (fun _ s => s.1.frame = a.frame) r :=
    loadPieces_answer ha hs hle hl hlim
  have hload : a.loadFrom host d path source start stop = .ok (r, a') := by
    rw [loadFrom_of_range hopen host hle hl, hrun]
    rfl
  rcases r with e | u
  · exact ⟨_, a', hload, hend, fun _ => .inr ⟨e, rfl⟩⟩
  · exact ⟨_, a', hload, hend.frame, fun hfar => absurd (hend.loaded hlt) (Nat.not_lt.2 hfar)⟩

end LoadFrom

/-- A mapping of a range, or of the first words of a file that may have to be made, has an answer whatever the numbers
and whatever the system refuses, and it is an error if the bytes lie beyond all positions. A load has one too, and it
is an error if the bytes lie beyond all that a file can have, unless there are none to load. But a load that nothing
else is wrong with faults if its first byte has no position. -/
theorem offsets_are_refused_but_overflow_a_load (hq : q.Valid) (host : Host) (d : Directory) (path : String) :
    (∀ first size access, ∃ o : FileOutcome (Paged k), mapRange host d q path first size access = .ok o ∧
      (positionLimit ≤ (first + size) * k.bytes → ∃ e, o.result = .error e)) ∧
    (∀ size, ∃ o : FileOutcome (Paged k), mapSized host d q path size = .ok o ∧
      (positionLimit ≤ size * k.bytes → ∃ e, o.result = .error e)) ∧
    ∀ a : Paged k, a.WellFormed → a.size < 2 ^ 63 → ∀ source start stop,
      (a.LoadOverflows d path source start stop → a.loadFrom host d path source start stop = .error .overflow) ∧
      (¬a.LoadOverflows d path source start stop →
        ∃ r a', a.loadFrom host d path source start stop = .ok (r, a') ∧ a'.frame = a.frame ∧
          (Bytes.offsetLimit ≤ (source + (stop - start)) * k.bytes → start = stop ∨ ∃ e, r = .error e)) :=
  ⟨mapRange_refuses hq host d path, mapSized_refuses hq host d path, fun _ ha hs _ _ _ =>
    ⟨loadFrom_of_overflows ha hs, loadFrom_answers ha hs⟩⟩

/-- Words of eight bytes at `2 ^ 61`, which is no position of a byte any more, and at `2 ^ 60`, which no file
reaches. -/
theorem offsets_are_refused_but_overflow_a_load_of_long_words :
    ∃ (d : Directory) (a : Paged .w64), d = Directory.empty.put "a" (Bytes.ofWords [.ofInt 1, .ofInt 2] (k := .w64)) ∧
      a = ⟨.even 2, #[.ofWords (.replicate 2 .zero), .ofWords (.replicate 1 .zero)], 3⟩ ∧
      (∃ e d', (mapRange .generous d (.even 2) "a" (2 ^ 61) 1 .readOnly : Except Fault (FileOutcome (Paged .w64))) =
        .ok ⟨.error e, d'⟩) ∧
      a.loadFrom .generous d "a" (2 ^ 61) 0 1 = .error .overflow ∧
      ∃ e a', a.loadFrom .generous d "a" (2 ^ 60) 0 1 = .ok (.error e, a') := by
  refine ⟨_, _, rfl, rfl, ?_⟩
  have hq : (Partition.even 2).Valid := ⟨by decide, by decide⟩
  have hopen := Directory.open?_put (Directory.resolve_letter .empty .find)
    (Bytes.ofWords [.ofInt 1, .ofInt 2] (k := .w64))
  have hwf :
      (⟨.even 2, #[.ofWords (.replicate 2 .zero), .ofWords (.replicate 1 .zero)], 3⟩ : Paged .w64).WellFormed := by
    refine ⟨hq, rfl, fun i p hp => ?_⟩
    rcases i with _ | _ | i
    · cases hp
      rfl
    · cases hp
      rfl
    · cases hp
  obtain ⟨hmap, -, hload⟩ := offsets_are_refused_but_overflow_a_load (k := .w64) hq .generous
    (Directory.empty.put "a" (Bytes.ofWords [.ofInt 1, .ofInt 2] (k := .w64))) "a"
  refine ⟨?_, (hload _ hwf (by decide) (2 ^ 61) 0 1).1 ⟨⟨_, hopen⟩, by decide, by decide, ⟨_, rfl, rfl⟩, by decide⟩, ?_⟩
  · obtain ⟨⟨r, d'⟩, hrun, hfar⟩ := hmap (2 ^ 61) 1 .readOnly
    obtain ⟨e, rfl⟩ := hfar (by decide)
    exact ⟨e, d', hrun⟩
  · obtain ⟨r, a', hrun, -, hfar⟩ := (hload _ hwf (by decide) (2 ^ 60) 0 1).2 (fun h => absurd h.limit_le (by decide))
    obtain ⟨e, rfl⟩ := (hfar (by decide)).resolve_left (by decide)
    exact ⟨e, a', hrun⟩

end Paged
end PagedWords
