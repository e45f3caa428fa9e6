import PagedWords.Files.Transfer
import PagedWords.Proofs.FileRegions

/-!
# Words loaded from a file

A range of an array is loaded piece by piece, and every piece works out for itself where its words begin in the file.
All pieces together come to one read of the file, wherever the pages break, as long as no piece changes what a later
one is to read. If the file ends too early, the pieces before its end are loaded.
-/
namespace PagedWords
variable {k : Width}

namespace Bytes
variable {bytes bytes' new : Bytes} {first pos m n : Nat}

/-- The `n` words from word `first` on. -/
def wordsAt (bytes : Bytes) (first n : Nat) : List (Word k) :=
  Word.decodeCount n (bytes.toList.drop (first * k.bytes))

@[simp] theorem length_wordsAt (bytes : Bytes) (first n : Nat) :
    (bytes.wordsAt first n : List (Word k)).length = n := Word.length_decodeCount _ _

@[simp] theorem wordsAt_zero (bytes : Bytes) (first : Nat) : (bytes.wordsAt first 0 : List (Word k)) = [] := rfl

theorem wordsAt_add (bytes : Bytes) (first m n : Nat) :
    (bytes.wordsAt first (m + n) : List (Word k)) = bytes.wordsAt first m ++ bytes.wordsAt (first + m) n := by
  rw [wordsAt, Word.decodeCount_add, List.drop_drop, ← Nat.add_mul]
  rfl

private theorem stretch_wordsAt (h : pos + n ≤ m) :
    stretch (bytes.wordsAt first m : List (Word k)) pos n = bytes.wordsAt (first + pos) n := by
  obtain ⟨rest, rfl⟩ := Nat.exists_eq_add_of_le h
  rw [Nat.add_assoc, wordsAt_add, wordsAt_add, stretch, List.drop_left' (length_wordsAt _ _ _),
    List.take_left' (length_wordsAt _ _ _)]

private theorem toWords_slice (bytes : Bytes) (first n : Nat) :
    (toWords (slice bytes (first * k.bytes) (n * k.bytes)) n : List (Word k)) = bytes.wordsAt first n := by
  rw [toWords, toList_slice, Word.decodeCount_take n (Nat.le_refl _)]
  rfl

private theorem overwrite_all (h : bytes.size ≤ new.size) : overwrite bytes 0 new = new := by
  apply Array.toList_inj.1
  rw [toList_overwrite, List.take_zero, List.nil_append, Nat.zero_add,
    List.drop_eq_nil_of_le (by rwa [Array.length_toList]), List.append_nil]

private theorem toWords_overwrite_slice {old : Bytes} (hold : old.size = n * k.bytes)
    (hlong : first * k.bytes + n * k.bytes ≤ bytes.size) :
    (toWords (overwrite old 0 (slice bytes (first * k.bytes) (n * k.bytes))) n : List (Word k)) =
      bytes.wordsAt first n := by
  have hfound : (slice bytes (first * k.bytes) (n * k.bytes)).size = n * k.bytes := by
    rw [slice, Array.size_extract, Nat.min_eq_left hlong, Nat.add_sub_cancel_left]
  rw [overwrite_all (Nat.le_of_eq (hold.trans hfound.symm)), toWords_slice]

private theorem readAt_congr {low size : Nat} (hsize : bytes'.size = bytes.size) (hlow : low ≤ pos)
    (hhigh : pos + n ≤ low + size)
    (h : stretch bytes'.toList low size = stretch bytes.toList low size) :
    readAt bytes' pos n = readAt bytes pos n := by
  obtain ⟨d, rfl⟩ := Nat.exists_eq_add_of_le hlow
  have hslice : ∀ bs : Bytes, (slice bs (low + d) n).toList = stretch (stretch bs.toList low size) d n := by
    intro bs
    rw [stretch_stretch _ (by omega), toList_slice, stretch]
  have hsame : slice bytes' (low + d) n = slice bytes (low + d) n :=
    Array.toList_inj.1 (by rw [hslice, hslice, h])
  rw [readAt, readAt, hsize, hsame]

private theorem readAt_of_short (hl : pos + n < offsetLimit) (h : bytes.size < pos + n) :
    readAt bytes pos n = (slice bytes pos n, .error .unexpectedEnd) := by
  rw [readAt, if_neg (Nat.not_le.2 hl), if_pos h]

end Bytes

section Keeps
variable {name : String} {bytes : Bytes} {low n : Nat}

/-- The file is as long as `bytes`, and has the same `n` bytes from `low` on. -/
def Directory.Keeps (d : Directory) (name : String) (bytes : Bytes) (low n : Nat) : Prop :=
  ∃ bytes', d.find? name = some bytes' ∧ bytes'.size = bytes.size ∧
    stretch bytes'.toList low n = stretch bytes.toList low n

private theorem File.bytes_overwrite (f : File) (pos : Nat) (new : Bytes) :
    (f.overwrite pos new).bytes.toList = patch f.bytes.toList pos (new.toList.take (f.bytes.size - pos)) := by
  have hinside : (Bytes.slice new 0 (f.bytes.size - pos)).toList = new.toList.take (f.bytes.size - pos) := by
    rw [Bytes.toList_slice, List.drop_zero]
  have hsize : (Bytes.slice new 0 (f.bytes.size - pos)).size = (new.toList.take (f.bytes.size - pos)).length := by
    rw [← hinside, Array.length_toList]
  rw [overwrite, Bytes.toList_overwrite, hsize, hinside, patch]

private theorem Region.write_keeps {r : Region} {d : Directory} {new : Bytes} (h : d.Keeps r.file bytes low n)
    (hapart : r.offset + new.size ≤ low ∨ low + n ≤ r.offset) : (r.write new d).Keeps r.file bytes low n := by
  obtain ⟨bytes', hfind, hsize, hsame⟩ := h
  obtain ⟨f, hfile, rfl⟩ := Option.map_eq_some_iff.1 hfind
  rcases haccess : r.access with _ | _
  · rw [write, haccess]
    exact ⟨f.bytes, hfind, hsize, hsame⟩
  have hwrite : r.write new d = d.putFile r.file (f.overwrite r.offset new) := by rw [write, haccess, hfile]
  refine ⟨(f.overwrite r.offset new).bytes, ?_, by rw [File.size_bytes_overwrite, hsize], ?_⟩
  · rw [hwrite, Directory.find?, Directory.file?_putFile, Option.map_some]
  rw [File.bytes_overwrite, ← hsame]
  rcases Nat.le_total f.bytes.size r.offset with hbeyond | hinside
  · rw [Nat.sub_eq_zero_of_le hbeyond, List.take_zero, patch_nil]
  · have hnew : new.toList.length = new.size := Array.length_toList
    have hold : f.bytes.toList.length = f.bytes.size := Array.length_toList
    apply stretch_patch_of_outside
    · rw [List.length_take]
      omega
    · rw [List.length_take]
      omega

end Keeps

namespace Page
variable {p p' : Page k} {d : Directory} {name : String} {bytes : Bytes} {low n : Nat}

/-- The page shows none of the `n` bytes of the file from `low` on. -/
def Avoids (p : Page k) (name : String) (low n : Nat) : Prop :=
  ∀ r, p.region = some r → r.file = name → r.offset + p.size * k.bytes ≤ low ∨ low + n ≤ r.offset

theorem Avoids.of_frame (h : p.Avoids name low n) (hfr : p'.frame = p.frame) : p'.Avoids name low n := by
  have hregion : p'.region = p.region := congrArg Prod.snd hfr
  rw [Avoids, hregion, size_of_frame hfr]
  exact h

private theorem Avoids.arriving_eq (h : p.Avoids name low n) {c : Piece} (hc : c.start + c.length ≤ p.size)
    {first : Nat} (hlow : low ≤ first) (hhigh : first + c.length * k.bytes ≤ low + n) (host : Host) :
    p.arriving host name bytes first c = host.read name bytes first (c.length * k.bytes) := by
  rw [arriving, place?]
  rcases hr : p.region with _ | r
  · rfl
  have hpiece : c.start * k.bytes + c.length * k.bytes ≤ p.size * k.bytes := by
    rw [← Nat.add_mul]
    exact Nat.mul_le_mul_right _ hc
  have hapart : ¬(r.file = name ∧ r.offset + c.start * k.bytes ≠ first ∧
      r.offset + c.start * k.bytes < first + c.length * k.bytes ∧
      first < r.offset + c.start * k.bytes + c.length * k.bytes) := by
    rintro ⟨hfile, -, hbefore, hafter⟩
    have haway := h r hr hfile
    omega
  simp only [Option.map_some, if_neg hapart]

private theorem Avoids.keeps (h : p.Avoids name low n) (hd : d.Keeps name bytes low n) :
    (if p.region.any (fun r => r.file == name) then p.writeThrough d else d).Keeps name bytes low n := by
  rcases hr : p.region with _ | r
  · exact hd
  by_cases hfile : r.file = name
  · subst hfile
    have hsize : (Bytes.ofWords p.words.toList).size = p.size * k.bytes := by rw [Bytes.size_ofWords, p.length_words]
    rw [Option.any_some, if_pos (beq_self_eq_true _), writeThrough, hr]
    exact Region.write_keeps hd (by rw [hsize]; exact h r hr rfl)
  · rw [Option.any_some, if_neg (fun heq => hfile (beq_iff_eq.1 heq))]
    exact hd

end Page

namespace Paged
variable {a : Paged k} {d : Directory} {name : String} {bytes : Bytes} {source start stop pos next : Nat} {c : Piece}

/-- No page shows one of the `n` bytes of the file from `low` on. -/
def Avoids (a : Paged k) (name : String) (low n : Nat) : Prop := ∀ p ∈ a.pages, p.Avoids name low n

theorem Avoids.of_frame {a' : Paged k} {low n : Nat} (h : a.Avoids name low n) (hfr : a'.frame = a.frame) :
    a'.Avoids name low n := by
  intro p' hp'
  obtain ⟨i, hi⟩ := Array.mem_iff_getElem?.1 hp'
  obtain ⟨p, hp, hframe⟩ := page_of_frame hfr hi
  exact (h p (Array.mem_of_getElem? hp)).of_frame hframe

theorem bytes_of_piece {q : Partition} (hc : q.IsPiece pos next c) (hpos : start ≤ pos) (source : Nat) :
    (source + (next - start)) * k.bytes = (source + (pos - start)) * k.bytes + c.length * k.bytes := by
  have hlt := hc.lt
  have hsplit : source + (next - start) = source + (pos - start) + (next - pos) := by omega
  rw [hsplit, Nat.add_mul, hc.length]

variable {host : Host}

/-- A piece that may be written takes what arrives from the file, and shows it to the file again if it is mapped
there. -/
theorem loadPiece_of_writable (hc : a.partition.IsPiece pos next c) {p : Page k} (hp : a.pages[c.page]? = some p)
    (hstop : c.stop ≤ p.size) (hw : p.isWritable = true) {first : Nat}
    (hplace : (source + (pos - start)) * k.bytes = first) (hfirst : first < positionLimit) {found : Bytes}
    {r : Except IoCause Unit}
    (harrive : p.arriving host name ((d.find? name).getD #[]) first c = (found, r)) :
    ∃ p' m, p'.frame = p.frame ∧ p'.words.toList = patch p.words.toList c.start m ∧
      m = Bytes.toWords (Bytes.overwrite (Bytes.ofWords (p.words.extract c.start c.stop).toList) 0 found) c.length ∧
      loadPiece host d name source start a c = .ok (r.mapError (Error.io "transfer from file"),
        { a with pages := a.pages.setIfInBounds c.page p' },
        if p'.region.any (fun r => r.file == name) then p'.writeThrough d else d) := by
  obtain ⟨m, hm⟩ : ∃ m : List (Word k),
      m = Bytes.toWords (Bytes.overwrite (Bytes.ofWords (p.words.extract c.start c.stop).toList) 0 found) c.length :=
    ⟨_, rfl⟩
  have hlen : m.length = c.length := by rw [hm, Bytes.toWords, Word.length_decodeCount]
  have hfits : c.start + m.toArray.size ≤ p.size := by
    rw [List.size_toArray, hlen, hc.start_add_length]
    exact hstop
  obtain ⟨p', hwrite, hfr, hwords⟩ := Page.writeRange_spec hw hfits
  refine ⟨p', m, hfr, hwords, hm, ?_⟩
  have hslice : p.words.checkSlice c.start c.stop = .ok () := Words.checkSlice_eq_ok hc.start_le_stop hstop
  have hword : source + (pos - start) < positionLimit :=
    Nat.lt_trans (lt_of_bytes (k := k) (by rw [hplace]; exact hfirst)) (by decide)
  have hmul : mulPosition (source + (pos - start)) k.bytes = .ok first := by
    rw [mulPosition_of_lt (by rw [hplace]; exact hfirst), hplace]
  rw [hm] at hwrite
  simp only [loadPiece, page_eq_ok hp, hw, hslice, hc.logical, addPosition_of_lt hword, hmul, harrive, hwrite,
    Bool.not_true, Bool.false_eq_true, if_false, bind, Except.bind, pure, Except.pure]

/-- What the pages and the files have become when the pieces up to `pos` are loaded. -/
inductive LoadedTo (host : Host) (a : Paged k) (d : Directory) (name : String) (source start stop : Nat) :
    Nat → Paged k × Directory → Prop
  | none : LoadedTo host a d name source start stop start (a, d)
  | piece {pos next : Nat} {c : Piece} {s s' : Paged k × Directory}
      (h : LoadedTo host a d name source start stop pos s) (hc : a.partition.IsPiece pos next c) (hn : next ≤ stop)
      (hrun : loadPiece host s.2 name source start s.1 c = .ok (.ok (), s')) :
      LoadedTo host a d name source start stop next s'

/-- Every read of the load is given what `bytes` holds there, or told that `bytes` ends too early. -/
def ReadsSee (host : Host) (a : Paged k) (d : Directory) (name : String) (bytes : Bytes) (source start stop : Nat) :
    Prop :=
  ∀ pos next c s p, LoadedTo host a d name source start stop pos s → a.partition.IsPiece pos next c → next ≤ stop →
    s.1.pages[c.page]? = some p →
    p.arriving host name ((s.2.find? name).getD #[]) ((source + (pos - start)) * k.bytes) c =
      bytes.readAt ((source + (pos - start)) * k.bytes) (c.length * k.bytes)

section See
variable (ha : a.Ready) (hl : stop ≤ a.size) (hlim : (source + (stop - start)) * k.bytes < Bytes.offsetLimit)
  (haway : a.Avoids name (source * k.bytes) ((stop - start) * k.bytes)) (hfile : d.find? name = some bytes)
include ha hl hlim haway hfile

private theorem LoadedTo.keeps {s : Paged k × Directory} (h : LoadedTo host a d name source start stop pos s) :
    start ≤ pos ∧ s.1.frame = a.frame ∧ s.2.Keeps name bytes (source * k.bytes) ((stop - start) * k.bytes) := by
  induction h with
  | none => exact ⟨Nat.le_refl _, rfl, bytes, hfile, rfl, rfl⟩
  | @piece pos next c s s' _ hc hn hrun ih =>
    obtain ⟨hpos, hfr, hkeeps⟩ := ih
    have hready := ha.of_frame hfr
    have hlt := hc.lt
    have hlimit : Bytes.offsetLimit < positionLimit := by decide
    obtain ⟨p, hp, hstop, -⟩ := page_of_piece hready.wellFormed hready.size_lt
      (by rw [partition_of_frame hfr]; exact hc) (by rw [size_of_frame hfr]; omega : next ≤ s.1.size)
    have hfirst : (source + (pos - start)) * k.bytes < positionLimit :=
      Nat.lt_trans (Nat.lt_of_le_of_lt (Nat.mul_le_mul_right _ (by omega)) hlim) hlimit
    rcases harrive : p.arriving host name ((s.2.find? name).getD #[]) ((source + (pos - start)) * k.bytes) c with
      ⟨found, r⟩
    obtain ⟨p', m, hfr', -, -, hload⟩ := loadPiece_of_writable (a := s.1) (by rw [partition_of_frame hfr]; exact hc) hp
      hstop (page_isWritable hready.writable hp) rfl hfirst harrive
    obtain ⟨-, rfl⟩ := Prod.mk.inj (Except.ok.inj (hrun.symm.trans hload))
    have havoids := (haway.of_frame hfr p (Array.mem_of_getElem? hp)).of_frame hfr'
    exact ⟨by omega, (frame_replacePage hp hfr').trans hfr, havoids.keeps hkeeps⟩

private theorem Avoids.readsSee (hreads : host.GrantsReads name ((source + (stop - start)) * k.bytes)) :
    a.ReadsSee host d name bytes source start stop := by
  intro pos next c s p h hc hn hp
  obtain ⟨hpos, hfr, bytes', hfind, hsize, hsame⟩ := h.keeps ha hl hlim haway hfile
  have hready := ha.of_frame hfr
  have hlt := hc.lt
  obtain ⟨p', hp', hstop, -⟩ := page_of_piece hready.wellFormed hready.size_lt
    (by rw [partition_of_frame hfr]; exact hc) (by rw [size_of_frame hfr]; omega : next ≤ s.1.size)
  cases hp.symm.trans hp'
  have hend : (source + (pos - start)) * k.bytes + c.length * k.bytes ≤ (source + (stop - start)) * k.bytes := by
    rw [← bytes_of_piece hc hpos]
    exact Nat.mul_le_mul_right _ (by omega)
  have hlow : source * k.bytes ≤ (source + (pos - start)) * k.bytes :=
    Nat.mul_le_mul_right _ (Nat.le_add_right _ _)
  have hhigh : (source + (pos - start)) * k.bytes + c.length * k.bytes ≤
      source * k.bytes + (stop - start) * k.bytes := by
    rw [← Nat.add_mul source]
    exact hend
  have hsome : 0 < c.length := by
    have hlength := hc.length
    omega
  have havoids := haway.of_frame hfr p (Array.mem_of_getElem? hp)
  rw [havoids.arriving_eq (by rw [hc.start_add_length]; exact hstop) hlow hhigh, hfind, Option.getD_some,
    Host.read_of_granted (Nat.mul_pos hsome k.bytes_pos) (hreads _ _ hend)]
  exact Bytes.readAt_congr hsize hlow hhigh hsame

end See

/-- A piece is loaded if the file reaches to its end. If it does not, nothing but the words of the piece is lost. -/
theorem loadPiece_spec (ha : a.Ready) (hc : a.partition.IsPiece pos next c) (hn : next ≤ a.size) (hpos : start ≤ pos)
    (hlim : (source + (next - start)) * k.bytes < Bytes.offsetLimit)
    (hsees : ∀ p, a.pages[c.page]? = some p →
      p.arriving host name ((d.find? name).getD #[]) ((source + (pos - start)) * k.bytes) c =
        bytes.readAt ((source + (pos - start)) * k.bytes) (c.length * k.bytes)) :
    ∃ r a' d' m, loadPiece host d name source start a c = .ok (r, a', d') ∧ a'.frame = a.frame ∧
      m.length = next - pos ∧ a'.toList = patch a.toList pos m ∧
      ((source + (next - start)) * k.bytes ≤ bytes.size ∧ r = .ok () ∧
          m = bytes.wordsAt (source + (pos - start)) (next - pos) ∨
        bytes.size < (source + (next - start)) * k.bytes ∧ r = .error (.io "transfer from file" .unexpectedEnd)) := by
  have hlimit : Bytes.offsetLimit < positionLimit := by decide
  have hlength := hc.length
  have hlt := hc.lt
  obtain ⟨first, hfirst⟩ : ∃ first, (source + (pos - start)) * k.bytes = first := ⟨_, rfl⟩
  have hend : (source + (next - start)) * k.bytes = first + c.length * k.bytes := by
    rw [bytes_of_piece hc hpos, hfirst]
  rw [hend] at hlim ⊢
  rw [hfirst] at hsees
  obtain ⟨p, hp, hstop, -⟩ := page_of_piece ha.wellFormed ha.size_lt hc hn
  rcases hread : Bytes.readAt bytes first (c.length * k.bytes) with ⟨found, r⟩
  obtain ⟨p', m, hfr, hwords, hm, hrun⟩ := loadPiece_of_writable hc hp hstop (page_isWritable ha.writable hp) hfirst
    (by omega) ((hsees p hp).trans hread)
  have hlen : m.length = next - pos := by rw [hm, Bytes.toWords, Word.length_decodeCount, hlength]
  obtain ⟨hframe, hl⟩ := replacePage_spec ha hc hp hstop hfr (Nat.le_of_eq hlen) hwords
  refine ⟨_, _, _, m, hrun, hframe, hlen, hl, ?_⟩
  rcases Nat.lt_or_ge bytes.size (first + c.length * k.bytes) with hshort | hlong
  · rw [Bytes.readAt_of_short hlim hshort] at hread
    cases hread
    exact .inr ⟨hshort, rfl⟩
  · rw [Bytes.readAt_of_le hlong hlim] at hread
    cases hread
    have hold : (Bytes.ofWords (p.words.extract c.start c.stop).toList).size = c.length * k.bytes := by
      have hstop : c.stop ≤ p.words.size := hstop
      rw [Bytes.size_ofWords, Array.length_toList, Array.size_extract, Nat.min_eq_left hstop, Piece.length]
    refine .inl ⟨hlong, rfl, ?_⟩
    rw [hm, ← hfirst, Bytes.toWords_overwrite_slice hold (by rw [hfirst]; exact hlong), hlength]

/-- The words from `start` to `pos` are loaded. -/
structure Loading (host : Host) (a : Paged k) (d : Directory) (name : String) (bytes : Bytes)
    (source start stop pos : Nat) (s : Paged k × Directory) : Prop where
  le : start ≤ pos
  loaded : LoadedTo host a d name source start stop pos s
  frame : s.1.frame = a.frame
  reaches : start < pos → (source + (pos - start)) * k.bytes ≤ bytes.size
  words : s.1.toList = patch a.toList start (bytes.wordsAt source (pos - start))

/-- The file ends in a piece of `start..stop`. The words before the piece are loaded, and its own are lost. -/
structure Breaks (a : Paged k) (bytes : Bytes) (source start stop : Nat) (a' : Paged k) : Prop where
  frame : a'.frame = a.frame
  words : ∃ pos next c m, start ≤ pos ∧ a.partition.IsPiece pos next c ∧ next ≤ stop ∧
    bytes.size < (source + (next - start)) * k.bytes ∧ m.length = next - pos ∧
    a'.toList = patch a.toList start (bytes.wordsAt source (pos - start) ++ m)

section Load
variable (ha : a.Ready) (hl : stop ≤ a.size) (hlim : (source + (stop - start)) * k.bytes < Bytes.offsetLimit)
  (hsees : a.ReadsSee host d name bytes source start stop)
include ha hl hlim hsees

theorem Loading.step {s : Paged k × Directory} (h : Loading host a d name bytes source start stop pos s)
    (hc : a.partition.IsPiece pos next c) (hn : next ≤ stop) :
    ∃ r, loadPiece host s.2 name source start s.1 c = .ok r ∧
      Ends (Loading host a d name bytes source start stop next)
        (fun e s => e = .io "transfer from file" .unexpectedEnd ∧ Breaks a bytes source start stop s.1) r := by
  obtain ⟨hpos, hloaded, hfr, -, hwords⟩ := h
  have hlt := hc.lt
  have hpiece : (source + (next - start)) * k.bytes ≤ (source + (stop - start)) * k.bytes :=
    Nat.mul_le_mul_right _ (by omega)
  obtain ⟨r, a', d', m, hrun, hfr', hm, hl', hend⟩ := loadPiece_spec (ha.of_frame hfr)
    (by rw [partition_of_frame hfr]; exact hc) (by rw [size_of_frame hfr]; omega) hpos (Nat.lt_of_le_of_lt hpiece hlim)
    (fun p hp => hsees pos next c s p hloaded hc hn hp)
  have hdone : start + (bytes.wordsAt source (pos - start) : List (Word k)).length = pos := by
    rw [Bytes.length_wordsAt]
    omega
  rw [hwords, patch_patch hdone (by rw [ha.length_toList]; omega)] at hl'
  refine ⟨_, hrun, ?_⟩
  rcases hend with ⟨hlong, rfl, rfl⟩ | ⟨hshort, rfl⟩
  · refine ⟨by omega, hloaded.piece hc hn hrun, hfr'.trans hfr, fun _ => hlong, ?_⟩
    have hsplit : next - start = pos - start + (next - pos) := by omega
    rw [hsplit, Bytes.wordsAt_add]
    exact hl'
  · exact ⟨rfl, hfr'.trans hfr, pos, next, c, m, hpos, hc, hn, hshort, hm, hl'⟩

theorem loadPieces_spec (hle : start ≤ stop) :
    ∃ r, a.partition.tryFoldPieces start stop (fun s c => loadPiece host s.2 name source start s.1 c) (a, d) = .ok r ∧
      Ends (Loading host a d name bytes source start stop stop)
        (fun e s => e = .io "transfer from file" .unexpectedEnd ∧ Breaks a bytes source start stop s.1) r := by
  have hsize := ha.size_lt
  refine Partition.tryFoldPieces_of_step (R := Loading host a d name bytes source start stop) ha.wellFormed.partition
    hle (by omega) (fun pos next c s hc hn h => h.step ha hl hlim hsees hc hn)
    ⟨Nat.le_refl _, .none, rfl, fun h => absurd h (Nat.lt_irrefl _), ?_⟩
  rw [Nat.sub_self, Bytes.wordsAt_zero, patch_nil]

end Load

section Break
variable {a' : Paged k} (h : Breaks a bytes source start stop a') (ha : a.Ready) (hl : stop ≤ a.size)
include h ha hl

private theorem Breaks.getElem?_eq {i : Nat} (hi : i < start ∨ stop ≤ i) : a'.toList[i]? = a.toList[i]? := by
  obtain ⟨-, pos, next, c, m, hpos, hc, hn, -, hm, hwords⟩ := h
  have hlt := hc.lt
  rw [hwords]
  apply getElem?_patch_of_outside
  · rw [List.length_append, Bytes.length_wordsAt, hm, ha.length_toList]
    omega
  · rw [List.length_append, Bytes.length_wordsAt, hm]
    omega

private theorem Breaks.stretch_eq {i low high : Nat} (hlow : low = max start (i * a.partition.pageSize))
    (hhigh : high = min stop ((i + 1) * a.partition.pageSize)) (hlt : low < high)
    (hfits : (source + (high - start)) * k.bytes ≤ bytes.size) :
    stretch a'.toList low (high - low) = bytes.wordsAt (source + (low - start)) (high - low) := by
  obtain ⟨-, pos, next, c, m, hpos, hc, hn, hshort, hm, hwords⟩ := h
  have hpiece := hc.lt
  have hbefore : high ≤ pos := by
    by_contra hafter
    have hbreak : next ≤ (i + 1) * a.partition.pageSize := hc.le_break (by omega)
    have hbytes : (source + (next - start)) * k.bytes ≤ (source + (high - start)) * k.bytes :=
      Nat.mul_le_mul_right _ (by omega)
    omega
  have hloaded : (bytes.wordsAt source (pos - start) ++ m : List (Word k)).length = next - start := by
    rw [List.length_append, Bytes.length_wordsAt, hm]
    omega
  have hplace : low = start + (low - start) := by omega
  have hall : stretch (patch a.toList start (bytes.wordsAt source (pos - start) ++ m)) start (next - start) =
      bytes.wordsAt source (pos - start) ++ m :=
    stretch_patch_self (by rw [hloaded, ha.length_toList]; omega) hloaded
  rw [hwords, hplace, ← stretch_stretch _ (by omega : low - start + (high - (start + (low - start))) ≤ next - start),
    hall, ← hplace, stretch, List.drop_append_of_le_length (by rw [Bytes.length_wordsAt]; omega),
    List.take_append_of_le_length (by rw [List.length_drop, Bytes.length_wordsAt]; omega)]
  exact Bytes.stretch_wordsAt (by omega)

end Break

section LoadFrom
variable {path : String} {f : OpenFile} (hopen : d.open? path = .ok f)
include hopen

theorem loadFrom_of_outside (host : Host) (h : ¬(start ≤ stop ∧ stop ≤ a.size)) :
    a.loadFrom host d path source start stop = .ok (.error (.rangeOutside start stop a.size), a) := by
  simp only [loadFrom, hopen, checkRange, if_neg h]

theorem loadFrom_of_range (host : Host) (hle : start ≤ stop) (hl : stop ≤ a.size) :
    a.loadFrom host d path source start stop = (fun r => (r.1, r.2.1)) <$>
      a.partition.tryFoldPieces start stop (fun s c => loadPiece host s.2 f.name source start s.1 c) (a, d) := by
  simp only [loadFrom, hopen, checkRange, if_pos (And.intro hle hl), bind, Except.bind, pure, Except.pure]
  cases a.partition.tryFoldPieces start stop (fun s c => loadPiece host s.2 f.name source start s.1 c) (a, d) with
  | error e => rfl
  | ok r => rfl

theorem loadFrom_of_empty (host : Host) (hl : start ≤ a.size) :
    a.loadFrom host d path source start start = .ok (.ok (), a) := by
  rw [loadFrom_of_range hopen host (Nat.le_refl _) hl, Partition.tryFoldPieces, Nat.sub_self, Partition.tryFoldFrom]
  rfl

section Pieces
variable (ha : a.Ready) (hl : stop ≤ a.size) (hlim : (source + (stop - start)) * k.bytes < Bytes.offsetLimit)
  (hsees : a.ReadsSee host d f.name bytes source start stop)
include ha hl hlim hsees

theorem loadFrom_spec (hle : start ≤ stop) : ∃ r a' d', a.loadFrom host d path source start stop = .ok (r, a') ∧
    Ends (Loading host a d f.name bytes source start stop stop)
      (fun e s => e = .io "transfer from file" .unexpectedEnd ∧ Breaks a bytes source start stop s.1) (r, a', d') := by
  obtain ⟨⟨r, a', d'⟩, hrun, hend⟩ := loadPieces_spec ha hl hlim hsees hle
  refine ⟨r, a', d', ?_, hend⟩
  rw [loadFrom_of_range hopen host hle hl, hrun]
  rfl

theorem loadFrom_of_le (hle : start ≤ stop) (hlong : (source + (stop - start)) * k.bytes ≤ bytes.size) :
    ∃ a', a.loadFrom host d path source start stop = .ok (.ok (), a') ∧ a'.frame = a.frame ∧
      a'.toList = patch a.toList start (bytes.wordsAt source (stop - start)) := by
  obtain ⟨r, a', d', hrun, hend⟩ := loadFrom_spec hopen ha hl hlim hsees hle
  rcases r with e | u
  · obtain ⟨-, -, pos, next, c, m, -, -, hn, hshort, -⟩ := hend
    have hpiece : (source + (next - start)) * k.bytes ≤ (source + (stop - start)) * k.bytes :=
      Nat.mul_le_mul_right _ (by omega)
    omega
  · exact ⟨a', hrun, hend.frame, hend.words⟩

theorem loadFrom_of_short (hlt : start < stop) (hshort : bytes.size < (source + (stop - start)) * k.bytes) :
    ∃ a', a.loadFrom host d path source start stop = .ok (.error (.io "transfer from file" .unexpectedEnd), a') ∧
      Breaks a bytes source start stop a' := by
  obtain ⟨r, a', d', hrun, hend⟩ := loadFrom_spec hopen ha hl hlim hsees (Nat.le_of_lt hlt)
  rcases r with e | u
  · obtain ⟨rfl, hbreaks⟩ := hend
    exact ⟨a', hrun, hbreaks⟩
  · have hlong := hend.reaches hlt
    omega

end Pieces

theorem mapRange_of_le {q : Partition} (hq : q.Valid) (host : Host) (access : Access) {first n : Nat}
    (hlong : (first + n) * k.bytes ≤ f.content.bytes.size) (hlim : (first + n) * k.bytes < Bytes.offsetLimit) :
    ∃ o : FileOutcome (Paged k), mapRange host d q path first n access = .ok o ∧
      (host.GrantsViews f.name access ((first + n) * k.bytes) → ∃ b, o.result = .ok b) ∧
      ∀ b, o.result = .ok b → b.toList = f.content.bytes.wordsAt first n := by
  have hpos : (first + n) * k.bytes < positionLimit := Nat.lt_trans hlim (by decide)
  have hlength : lengthen host f ((first + n) * k.bytes) access = .ok f := lengthen_of_le host access hlong
  cases hgranted : host.step f.name (.opening access) with
  | error cause =>
    refine ⟨⟨.error (.io path cause), d⟩, ?_, fun hviews => ?_, fun b hb => nomatch hb⟩
    · simp only [mapRange, Directory.openFor, hopen, hgranted, bind, Except.bind]
    · cases hgranted.symm.trans hviews.opening
  | ok u =>
    obtain ⟨⟨r, d'⟩, hmap⟩ := mapOpen_answers (k := k) hq host d f first n access
    refine ⟨⟨r, d'⟩, ?_, fun hviews => ?_, ?_⟩
    · simp only [mapRange, Directory.openFor_eq_ok hopen hgranted, hmap]
    · obtain ⟨b, hb, -⟩ := mapOpen_eq_ok (k := k) d hq hpos hviews hlength
      exact ⟨b, congrArg FileOutcome.result (Except.ok.inj (hmap.symm.trans hb))⟩
    · rintro b ⟨⟩
      obtain ⟨f', -, hlength', -, hmaps⟩ := maps_of_mapOpen hq hmap
      cases hlength.symm.trans hlength'
      rw [hmaps.toList, File.shownWords_of_le (by rw [← Nat.add_mul]; exact hlong)]
      rfl

end LoadFrom

/-- What is loaded from a file whose bytes every read sees are its words from the word asked for on, wherever the pages
break: what any mapping of them shows. If the file ends before the range is full, every page has its words of which the
file holds all. In any case no other word of the array is touched. A range outside of the array is refused, and one
without words needs no file to hold any. The reads see the file if the system grants them and the array, should it show
the file, does not show the words that are read. -/
theorem loadFrom_copies_file_words (host : Host) (ha : a.Ready) {path : String} {f : OpenFile}
    (hopen : d.open? path = .ok f) (hlim : (source + a.size) * k.bytes < 2 ^ 63) {file : Bytes}
    (hfile : file = f.content.bytes) :
    (¬(start ≤ stop ∧ stop ≤ a.size) →
      a.loadFrom host d path source start stop = .ok (.error (.rangeOutside start stop a.size), a)) ∧
    (start = stop → stop ≤ a.size → a.loadFrom host d path source start stop = .ok (.ok (), a)) ∧
    (a.ReadsSee host d f.name file source start stop → start ≤ stop → stop ≤ a.size →
      (source + (stop - start)) * k.bytes ≤ file.size →
      ∃ a', a.loadFrom host d path source start stop = .ok (.ok (), a') ∧ a'.frame = a.frame ∧
        a'.toList = patch a.toList start (file.wordsAt source (stop - start)) ∧
        ∀ (q : Partition) (access : Access), q.Valid → ∃ o : FileOutcome (Paged k),
          mapRange host d q path source (stop - start) access = .ok o ∧
          (host.GrantsViews f.name access ((source + (stop - start)) * k.bytes) → ∃ b, o.result = .ok b) ∧
          ∀ b, o.result = .ok b → b.toList = stretch a'.toList start (stop - start)) ∧
    (a.ReadsSee host d f.name file source start stop → start < stop → stop ≤ a.size →
      file.size < (source + (stop - start)) * k.bytes →
      ∃ a', a.loadFrom host d path source start stop = .ok (.error (.io "transfer from file" .unexpectedEnd), a') ∧
        a'.frame = a.frame ∧ (∀ i, i < start ∨ stop ≤ i → a'.toList[i]? = a.toList[i]?) ∧
        ∀ i low high, low = max start (i * a.partition.pageSize) → high = min stop ((i + 1) * a.partition.pageSize) →
          low < high → (source + (high - start)) * k.bytes ≤ file.size →
          stretch a'.toList low (high - low) = file.wordsAt (source + (low - start)) (high - low)) ∧
    (host.GrantsReads f.name ((source + (stop - start)) * k.bytes) → stop ≤ a.size →
      a.Avoids f.name (source * k.bytes) ((stop - start) * k.bytes) →
      a.ReadsSee host d f.name file source start stop) := by
  subst hfile
  have hrange : stop ≤ a.size → (source + (stop - start)) * k.bytes < Bytes.offsetLimit := fun hl =>
    Nat.lt_of_le_of_lt (Nat.mul_le_mul_right _ (by omega)) hlim
  refine ⟨loadFrom_of_outside hopen host, ?_, fun hsees hle hl hlong => ?_, fun hsees hlt hl hshort => ?_,
    fun hreads hl haway => ?_⟩
  · rintro rfl hl
    exact loadFrom_of_empty hopen host hl
  · obtain ⟨a', hrun, hfr, hwords⟩ := loadFrom_of_le hopen ha hl (hrange hl) hsees hle hlong
    refine ⟨a', hrun, hfr, hwords, fun q access hq => ?_⟩
    obtain ⟨o, hmap, hviews, hshows⟩ := mapRange_of_le (k := k) hopen hq host access hlong (hrange hl)
    refine ⟨o, hmap, hviews, fun b hb => ?_⟩
    rw [hshows b hb, hwords, stretch_patch_self (by rw [Bytes.length_wordsAt, ha.length_toList]; omega)
      (Bytes.length_wordsAt _ _ _)]
  · obtain ⟨a', hrun, hbreaks⟩ := loadFrom_of_short hopen ha hl (hrange hl) hsees hlt hshort
    exact ⟨a', hrun, hbreaks.frame, fun i hi => hbreaks.getElem?_eq ha hl hi,
      fun i low high => hbreaks.stretch_eq ha hl⟩
  · have hfind : d.find? f.name = some f.content.bytes := by
      rw [Directory.find?, (Directory.open?_eq_ok hopen).2.1, Option.map_some]
    exact haway.readsSee ha hl (hrange hl) hfind hreads

/-- Three words of a file of five, mapped onto two pages. The two words behind them are loaded across the break; if two
words are asked for from the last one on, the first page is loaded, and the file ends in the second. -/
theorem loadFrom_copies_file_words_of_five :
    ∃ (d : Directory) (a : Paged .w32),
      d = Directory.empty.put "a" (Bytes.ofWords [.ofInt 1, .ofInt 2, .ofInt 3, .ofInt 4, .ofInt 5] (k := .w32)) ∧
      a = ⟨.even 2,
        #[⟨#[.ofInt 1, .ofInt 2], some ⟨"a", 0, .readWrite⟩⟩, ⟨#[.ofInt 3], some ⟨"a", 8, .readWrite⟩⟩], 3⟩ ∧
      (∃ a', a.loadFrom .generous d "a" 3 1 3 = .ok (.ok (), a') ∧ a'.toList = [.ofInt 1, .ofInt 4, .ofInt 5]) ∧
      ∃ a', a.loadFrom .generous d "a" 4 1 3 = .ok (.error (.io "transfer from file" .unexpectedEnd), a') ∧
        stretch a'.toList 1 1 = [.ofInt 5] := by
  refine ⟨_, _, rfl, rfl, ?_⟩
  generalize ha : (⟨.even 2, #[⟨#[.ofInt 1, .ofInt 2], some ⟨"a", 0, .readWrite⟩⟩,
    ⟨#[.ofInt 3], some ⟨"a", 8, .readWrite⟩⟩], 3⟩ : Paged .w32) = a
  have hready : a.Ready := by
    subst ha
    refine ⟨⟨⟨by decide, by decide⟩, rfl, fun i p hp => ?_⟩, by decide, by simp [isWritable, Page.isWritable]⟩
    rcases i with _ | _ | i
    · cases hp
      rfl
    · cases hp
      rfl
    · cases hp
  have haway : ∀ low n, 12 ≤ low → a.Avoids "a" low n := by
    subst ha
    intro low n hlow p hp r hr _
    rcases List.mem_pair.1 (Array.mem_def.1 hp) with rfl | rfl
    · cases hr
      exact .inl (Nat.le_trans (by decide) hlow)
    · cases hr
      exact .inl (Nat.le_trans (by decide) hlow)
  have hopen := Directory.open?_put (Directory.resolve_letter .empty .find)
    (Bytes.ofWords [.ofInt 1, .ofInt 2, .ofInt 3, .ofInt 4, .ofInt 5] (k := .w32))
  have hsize : a.size = 3 := by rw [← ha]
  have hpart : a.partition = .even 2 := by rw [← ha]
  have hwords : a.toList = [.ofInt 1, .ofInt 2, .ofInt 3] := by
    rw [← ha]
    rfl
  have hlt : (3 + a.size) * Width.w32.bytes < 2 ^ 63 := by
    rw [hsize]
    decide
  have hlt' : (4 + a.size) * Width.w32.bytes < 2 ^ 63 := by
    rw [hsize]
    decide
  have hstop : 3 ≤ a.size := Nat.le_of_eq hsize.symm
  obtain ⟨-, -, hload, -, hsees⟩ := @loadFrom_copies_file_words _ a _ 3 1 3 .generous hready _ _ hopen hlt _ rfl
  obtain ⟨-, -, -, hshort, hsees'⟩ := @loadFrom_copies_file_words _ a _ 4 1 3 .generous hready _ _ hopen hlt' _ rfl
  have hread := hsees (Host.generous_grantsReads _ _) hstop (haway _ _ (by decide))
  have hread' := hsees' (Host.generous_grantsReads _ _) hstop (haway _ _ (by decide))
  obtain ⟨a', hrun, -, hl, -⟩ := hload hread (by decide) hstop (by decide)
  obtain ⟨a'', hrun', -, -, hpages⟩ := hshort hread' (by decide) hstop (by decide)
  rw [hpart] at hpages
  refine ⟨⟨a', hrun, ?_⟩, a'', hrun', hpages 0 1 2 rfl rfl (by decide) (by decide)⟩
  rw [hl, hwords]
  rfl

end Paged
end PagedWords
