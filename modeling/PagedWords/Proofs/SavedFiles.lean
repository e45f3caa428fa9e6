import PagedWords.Files.Transfer
import PagedWords.Proofs.Creation
import PagedWords.Proofs.Mappings

/-!
# What is saved reads back

A file that an array was saved to holds its words, one after the other, and nothing of how they were cut. So it may be
mapped under any partition, as a whole or from any word on.
-/
namespace PagedWords
variable {k : Width}

private theorem getElem?_littleEndian (n v i : Nat) :
    (littleEndian n v)[i]? = if i < n then some (UInt8.ofNat (v / 256 ^ i)) else none := by
  induction n generalizing v i with
  | zero => simp [littleEndian]
  | succ n ih =>
    cases i with
    | zero => simp [littleEndian]
    | succ i => simp [littleEndian, ih, Nat.div_div_eq_div_mul, Nat.pow_succ']

namespace Word

theorem encodeAll_append (us vs : List (Word k)) : encodeAll (us ++ vs) = encodeAll us ++ encodeAll vs :=
  List.flatMap_append

theorem drop_encodeAll {ws : List (Word k)} {pos : Nat} (h : pos ≤ ws.length) :
    (encodeAll ws).drop (pos * k.bytes) = encodeAll (ws.drop pos) := by
  have hlen : (encodeAll (ws.take pos)).length = pos * k.bytes := by
    rw [length_encodeAll, List.length_take, Nat.min_eq_left h]
  have hsplit : encodeAll ws = encodeAll (ws.take pos) ++ encodeAll (ws.drop pos) := by
    rw [← encodeAll_append, List.take_append_drop]
  rw [hsplit, List.drop_left' hlen]

private theorem getElem?_encodeAll {ws : List (Word k)} {pos : Nat} (h : pos < ws.length) {i : Nat} (hi : i < k.bytes) :
    (encodeAll ws)[pos * k.bytes + i]? = some (UInt8.ofNat ((ws[pos].val % k.count).toNat / 256 ^ i)) := by
  have hcons : encodeAll (ws[pos] :: ws.drop (pos + 1)) = ws[pos].encode ++ encodeAll (ws.drop (pos + 1)) := rfl
  rw [← List.getElem?_drop, drop_encodeAll (Nat.le_of_lt h), List.drop_eq_getElem_cons h, hcons,
    List.getElem?_append_left (by rw [length_encode]; exact hi), encode, getElem?_littleEndian, if_pos hi]

end Word

private theorem File.shownWords_ofWords {ws : List (Word k)} {first n : Nat} (h : first + n ≤ ws.length) :
    (File.ofBytes (Bytes.ofWords ws)).shownWords (first * k.bytes) n = stretch ws first n := by
  have himage : (File.ofBytes (Bytes.ofWords ws)).image.toList = Word.encodeAll ws := rfl
  have hlen : ((ws.drop first).take n).length = n := length_stretch h
  have hwords := Word.decodeCount_encodeAll ((ws.drop first).take n) (Word.encodeAll ((ws.drop first).drop n))
  rw [hlen, ← Word.encodeAll_append, List.take_append_drop] at hwords
  rw [shownWords_eq, himage, Word.drop_encodeAll (by omega), hwords, stretch]

private theorem Named.put_put {α : Type} (name : String) (x y : α) (xs : Named α) :
    put name x (put name y xs) = put name x xs := by
  induction xs with
  | nil => simp [put]
  | cons p rest ih =>
    obtain ⟨n, old⟩ := p
    by_cases h : n = name
    · simp [put, h]
    · simp [put, h, ih]

namespace Paged

/-- An array holds the `n` words of another from position `first` on, cut by `q`. -/
structure Copies (q : Partition) (a : Paged k) (first n : Nat) (b : Paged k) : Prop where
  partition : b.partition = q
  size : b.size = n
  wellFormed : b.WellFormed
  toList : b.toList = stretch a.toList first n
  get : ∀ pos, pos < n → b.get pos = a.get (first + pos)

section
variable {host : Host} {a b : Paged k} {d : Directory} {q : Partition} {path name : String} {first n : Nat}
  {access : Access}

private theorem Maps.copies (ha : a.WellFormed) (hs : a.size < 2 ^ 63) (h : first + n ≤ a.size)
    (hb : Maps q ⟨path, name, .ofBytes (Bytes.ofWords a.toList)⟩ first n access b) : Copies q a first n b := by
  have hlen := length_toList ha hs
  have hbs : b.size < 2 ^ 63 := by
    rw [hb.size]
    omega
  have hl : b.toList = stretch a.toList first n := hb.toList.trans (File.shownWords_ofWords (by omega))
  refine ⟨hb.partition, hb.size, hb.wellFormed, hl, ?_⟩
  intro pos hpos
  have hposb : pos < b.toList.length := by rwa [length_toList hb.wellFormed hbs, hb.size]
  have hposa : first + pos < a.toList.length := by omega
  have hword : b.toList[pos] = a.toList[first + pos] := by
    have hget : b.toList[pos]? = a.toList[first + pos]? := by rw [hl, getElem?_stretch, if_pos hpos]
    rwa [List.getElem?_eq_getElem hposb, List.getElem?_eq_getElem hposa, Option.some.injEq] at hget
  calc b.get pos = .ok b.toList[pos] := (reads hb.wellFormed hbs).get pos hposb
    _ = .ok a.toList[first + pos] := by rw [hword]
    _ = a.get (first + pos) := ((reads ha hs).get (first + pos) hposa).symm

theorem saveTo_eq (hpath : d.resolve .make path = .ok name)
    (hsaving : host.GrantsSaving name (Bytes.ofWords a.toList).size) (hapart : a.showsFile name = false) :
    a.saveTo host d path = .ok ⟨.ok (), d.put name (Bytes.ofWords a.toList)⟩ := by
  simp only [saveTo, hpath, hsaving.creating, hsaving.writing, hsaving.syncing, hapart, Bool.false_eq_true, if_false]

theorem saveTo_of_shown (hpath : d.resolve .make path = .ok name)
    (hsaving : host.GrantsSaving name (Bytes.ofWords a.toList).size) (hshown : a.showsFile name = true) :
    a.saveTo host d path = .error .cutOff := by
  simp only [saveTo, hpath, hsaving.creating, hsaving.writing, hshown, if_true]

theorem showsFile_ofWords {p : Partition} {ws : Words k} (hp : p.Valid) (hn : ws.size < 2 ^ 63)
    (h : ofWords host p ws = .ok (.ok a)) (name : String) : a.showsFile name = false := by
  rw [showsFile, Array.any_eq_false']
  intro page hpage
  rw [region_of_ofWords hp hn h hpage]
  exact Bool.false_ne_true

theorem mapOpen_saved (d : Directory) (path : String) (ha : a.WellFormed) (hfits : a.size * k.bytes < positionLimit)
    (hq : q.Valid) (hn : first + n ≤ a.size) (hviews : host.GrantsViews name access ((first + n) * k.bytes)) :
    ∃ b, mapOpen host (d.put name (Bytes.ofWords a.toList)) q ⟨path, name, .ofBytes (Bytes.ofWords a.toList)⟩ first n
        access = .ok ⟨.ok b, d.put name (Bytes.ofWords a.toList)⟩ ∧ Copies q a first n b := by
  have hs := lt_of_bytes hfits
  have hput : (d.put name (Bytes.ofWords a.toList)).putFile name (.ofBytes (Bytes.ofWords a.toList)) =
      d.put name (Bytes.ofWords a.toList) := by
    simp only [Directory.put, Directory.putFile, Named.put_put]
  have hrange : (first + n) * k.bytes ≤ a.size * k.bytes := Nat.mul_le_mul_right _ hn
  have hlong : (first + n) * k.bytes ≤ (Bytes.ofWords a.toList).size := by
    rw [Bytes.size_ofWords, length_toList ha hs]
    exact hrange
  obtain ⟨b, hmap, hb⟩ := mapOpen_eq_ok (k := k) (d.put name (Bytes.ofWords a.toList)) hq
    (Nat.lt_of_le_of_lt hrange hfits) hviews
    (lengthen_of_le (f := ⟨path, name, .ofBytes (Bytes.ofWords a.toList)⟩) host access hlong)
  refine ⟨b, ?_, hb.copies ha hs hn⟩
  rw [hmap, hput]

end

/-- An array of any size under any partition reads back under any other, as a whole and from any word on; its file is
as long as its words, and has the bytes of each from the least significant on. It is assumed that the path leads to a
file, that its length is a position, and that the system grants what it is asked for; and the file must not be the one
that the array shows, which is cut off before the words are read. -/
theorem reads_back_under_any_partition {host : Host} {a : Paged k} (ha : a.WellFormed) {d : Directory}
    {path name : String} (hpath : d.resolve .make path = .ok name) (hfits : a.size * k.bytes < positionLimit)
    (hsaving : host.GrantsSaving name (a.size * k.bytes)) :
    (a.showsFile name = true → a.saveTo host d path = .error .cutOff) ∧
    (a.showsFile name = false → ∃ d', a.saveTo host d path = .ok ⟨.ok (), d'⟩ ∧
      (∃ bytes, d'.find? name = some bytes ∧ bytes.size = a.size * k.bytes ∧
        ∀ (pos : Nat) (h : pos < a.toList.length) (i : Nat), i < k.bytes →
          bytes[pos * k.bytes + i]? = some (UInt8.ofNat ((a.toList[pos].val % k.count).toNat / 256 ^ i))) ∧
      ∀ (host' : Host) (q : Partition), q.Valid →
        (host'.GrantsViews name .readOnly (a.size * k.bytes) →
          ∃ b, mapWhole host' d' q path .readOnly = .ok ⟨.ok b, d'⟩ ∧ Copies q a 0 a.size b) ∧
        ∀ first n access, first + n ≤ a.size → host'.GrantsViews name access ((first + n) * k.bytes) →
          ∃ b, mapRange host' d' q path first n access = .ok ⟨.ok b, d'⟩ ∧ Copies q a first n b) := by
  have hs := lt_of_bytes hfits
  have hopen := Directory.open?_put hpath (Bytes.ofWords a.toList)
  have hsize : (Bytes.ofWords a.toList).size = a.size * k.bytes := by rw [Bytes.size_ofWords, length_toList ha hs]
  rw [← hsize] at hsaving
  refine ⟨saveTo_of_shown hpath hsaving, fun hapart => ⟨_, saveTo_eq hpath hsaving hapart,
    ⟨Bytes.ofWords a.toList, Directory.find?_put _ _ _, hsize, ?_⟩, ?_⟩⟩
  · intro pos h i hi
    rw [Bytes.ofWords, List.getElem?_toArray]
    exact Word.getElem?_encodeAll h hi
  · intro host' q hq
    constructor
    · intro hviews
      obtain ⟨b, hmap, hb⟩ := mapOpen_saved d path ha hfits hq (Nat.le_of_eq (Nat.zero_add a.size))
        ((Nat.zero_add a.size).symm ▸ hviews)
      refine ⟨b, ?_, hb⟩
      have hwhole : a.size * k.bytes / k.bytes = a.size := Nat.mul_div_cancel _ k.bytes_pos
      simp only [mapWhole, Directory.openFor_eq_ok hopen hviews.opening, hviews.measuring, File.bytes_ofBytes, hsize,
        Nat.mul_mod_left, checkArgument, beq_self_eq_true, if_true, hwhole]
      exact hmap
    · intro first n access hn hviews
      obtain ⟨b, hmap, hb⟩ := mapOpen_saved d path ha hfits hq hn hviews
      refine ⟨b, ?_, hb⟩
      simp only [mapRange, Directory.openFor_eq_ok hopen hviews.opening]
      exact hmap

/-- Five words on pages of two are saved, and the last four of them mapped on pages of three. -/
theorem reads_back_under_any_partition_in_threes :
    ∃ a : Paged .w32, a.WellFormed ∧ a.partition = .pow2 1 ∧ Directory.empty.resolve .make "a" = .ok "a" ∧
      a.showsFile "a" = false ∧ a.size * Width.w32.bytes < positionLimit ∧
      ∃ (d' : Directory) (b : Paged .w32), a.saveTo .generous .empty "a" = .ok ⟨.ok (), d'⟩ ∧
        mapRange .generous d' (.even 3) "a" 1 4 .readWrite = .ok ⟨.ok b, d'⟩ ∧ b.partition = .even 3 ∧
        b.toList = [.ofInt (-2), .ofInt 3, .ofInt (-4), .ofInt 5] := by
  have hp : (Partition.pow2 1).Valid := (by decide : 1 < 64)
  have hq : (Partition.even 3).Valid := ⟨by decide, by decide⟩
  obtain ⟨ws, hws⟩ : ∃ ws : Words .w32, ws = #[.ofInt 1, .ofInt (-2), .ofInt 3, .ofInt (-4), .ofInt 5] := ⟨_, rfl⟩
  have hn : ws.size < 2 ^ 63 := by rw [hws]; decide
  obtain ⟨a, hrun⟩ := ofWords_eq_ok hp hn (Host.generous_grantsMemory (by rw [hws]; decide))
  obtain ⟨ha, hpart, hsize, hl⟩ := ofWords_spec hp hn hrun
  have hfive : a.size = 5 := by rw [hsize, hws]; rfl
  have hpath : Directory.empty.resolve .make "a" = .ok "a" := Directory.resolve_letter .empty .make
  have hfits : a.size * Width.w32.bytes < positionLimit := by rw [hfive]; decide
  have hapart := showsFile_ofWords hp hn hrun "a"
  obtain ⟨d', hsave, -, hread⟩ :=
    (reads_back_under_any_partition ha.wellFormed hpath hfits (Host.generous_grantsSaving "a" _)).2 hapart
  obtain ⟨b, hmap, hb⟩ := (hread .generous (.even 3) hq).2 1 4 .readWrite (Nat.le_of_eq hfive.symm)
    (Host.generous_grantsViews "a" _ _)
  refine ⟨a, ha.wellFormed, hpart, hpath, hapart, hfits, d', b, hsave, hmap, hb.partition, ?_⟩
  rw [hb.toList, hl, hws]
  rfl

end Paged
end PagedWords
