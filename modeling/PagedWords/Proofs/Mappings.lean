import PagedWords.Files.Mapping
import PagedWords.Proofs.PagedView

/-!
# Arrays mapped from a file

The words that a file shows from some byte on are a list like any other, and the pages of a mapping cut it as the
partition cuts positions. Each page is mapped for itself, all of them with one access.
-/
namespace PagedWords
variable {k : Width}

namespace Word

private theorem decode_take {m : Nat} (hm : k.bytes ≤ m) (bytes : List UInt8) :
    decode (bytes.take m) = (decode bytes : Word k) := by
  rw [decode, decode, List.take_take, Nat.min_eq_left hm]

theorem decodeCount_take (n : Nat) : ∀ {m : Nat}, n * k.bytes ≤ m → ∀ bytes : List UInt8,
    (decodeCount n (bytes.take m) : List (Word k)) = decodeCount n bytes := by
  induction n with
  | zero =>
    intro m _ bytes
    rfl
  | succ n ih =>
    intro m hm bytes
    rw [Nat.succ_mul] at hm
    rw [decodeCount, decodeCount, decode_take (by omega), List.drop_take, ih (by omega)]

theorem decodeCount_add (m n : Nat) (bytes : List UInt8) :
    (decodeCount (m + n) bytes : List (Word k)) = decodeCount m bytes ++ decodeCount n (bytes.drop (m * k.bytes)) := by
  induction m generalizing bytes with
  | zero => simp [decodeCount]
  | succ m ih =>
    have hdrop : k.bytes + m * k.bytes = (m + 1) * k.bytes := by rw [Nat.succ_mul, Nat.add_comm]
    rw [Nat.add_right_comm, decodeCount, decodeCount, ih, List.drop_drop, hdrop, List.cons_append]

end Word

namespace File
variable (f : File)

theorem shownWords_eq (offset n : Nat) :
    (f.shownWords offset n : List (Word k)) = Word.decodeCount n (f.image.toList.drop offset) := by
  rw [shownWords, Bytes.toWords, Bytes.toList_slice]
  exact Word.decodeCount_take n (Nat.le_refl _) _

@[simp] theorem length_shownWords (offset n : Nat) : (f.shownWords offset n : List (Word k)).length = n := by
  rw [shownWords_eq, Word.length_decodeCount]

private theorem stretch_shownWords {first m pos n : Nat} (h : pos + n ≤ m) :
    stretch (f.shownWords (first * k.bytes) m : List (Word k)) pos n = f.shownWords ((first + pos) * k.bytes) n := by
  obtain ⟨rest, rfl⟩ := Nat.exists_eq_add_of_le h
  have hplace : first * k.bytes + pos * k.bytes = (first + pos) * k.bytes := by rw [Nat.add_mul]
  rw [shownWords_eq, Nat.add_assoc, Word.decodeCount_add, Word.decodeCount_add, List.drop_drop, hplace, stretch,
    List.drop_left' (Word.length_decodeCount _ _), List.take_left' (Word.length_decodeCount _ _), shownWords_eq]

end File

theorem Directory.resolve_letter (d : Directory) (purpose : Purpose) : d.resolve purpose "a" = .ok "a" := by
  have hparts : "a".splitOn "/" = ["a"] := by
    rw [String.splitOn, if_neg (by decide), String.splitOnAux, if_neg (by decide), if_neg (by decide),
      String.splitOnAux, if_pos (by decide)]
    decide
  have hnul : "a".contains '\x00' = false := by simp
  have hroot : "a".startsWith "/" = false := by decide +kernel
  have hshort : "a".utf8ByteSize ≤ nameLimit := by decide
  simp [resolve, hparts, hnul, hroot, nameAt, Nat.not_lt.2 hshort]

namespace Page
variable {host : Host} {f : OpenFile} {first n : Nat} {access : Access}

theorem map_of_pos (hn : 0 < n) :
    map host f first n access = .ok (view host f first n access : Except Error (Page k)) :=
  if_neg (Nat.ne_of_gt hn)

theorem view_eq_ok {m : Nat} (hviews : host.GrantsViews f.name access m) (hle : (first + n) * k.bytes ≤ m)
    (hlim : (first + n) * k.bytes < positionLimit) : ∃ p : Page k, view host f first n access = .ok p := by
  rw [Nat.add_mul] at hle hlim
  simp only [view, if_neg (by omega : ¬positionLimit ≤ first * k.bytes),
    if_neg (by omega : ¬positionLimit ≤ n * k.bytes), hviews.viewing _ _ hle]
  exact ⟨_, rfl⟩

theorem view_spec {p : Page k} (h : view host f first n access = .ok p) :
    p.words.toList = f.content.shownWords (first * k.bytes) n ∧
      p.region = some ⟨f.name, first * k.bytes, access⟩ := by
  simp only [view] at h
  split at h
  · cases h
  split at h
  · cases h
  split at h
  · cases h
  cases h
  exact ⟨rfl, rfl⟩

end Page

namespace Paged

/-- The pages hold the words in the order of the partition. -/
def Cut (q : Partition) (l : List (Word k)) (pages : Array (Page k)) : Prop :=
  ∀ i p, pages[i]? = some p → p.words.toList = stretch l (i * q.pageSize) q.pageSize

namespace Cut
variable {q : Partition} {l : List (Word k)} {pages : Array (Page k)}

private theorem flatMap_take (h : Cut q l pages) (i : Nat) (hi : i ≤ pages.size) :
    (pages.toList.take i).flatMap (fun p => p.words.toList) = l.take (i * q.pageSize) := by
  induction i with
  | zero => simp
  | succ i ih =>
    have hp : pages[i]? = some pages[i] := Array.getElem?_eq_getElem hi
    have htake : pages.toList.take (i + 1) = pages.toList.take i ++ [pages[i]] := by
      rw [List.take_add_one, Array.getElem?_toList, hp]
      rfl
    rw [htake, List.flatMap_append, ih (by omega), List.flatMap_singleton, h i _ hp, Nat.succ_mul, List.take_add,
      stretch]

variable (hq : q.Valid) (h : Cut q l pages) (hcount : pages.size = q.pageCount l.length)
include hq h hcount

theorem wellFormed (hsize : l.length < 2 ^ 63) : (⟨q, pages, l.length⟩ : Paged k).WellFormed := by
  refine ⟨hq, hcount, ?_⟩
  intro i p hp
  have hi : i * q.pageSize < l.length := hq.start_lt (hcount ▸ (Array.getElem?_eq_some_iff.1 hp).1)
  have hlen := congrArg List.length (h i p hp)
  rw [Page.length_words, stretch, List.length_take, List.length_drop] at hlen
  rw [Partition.pageLength_of_lt hsize hi, hlen, Nat.min_comm]

theorem toList_eq : (⟨q, pages, l.length⟩ : Paged k).toList = l := by
  have hall := h.flatMap_take pages.size (Nat.le_refl _)
  have hcover : l.length ≤ pages.size * q.pageSize := by
    rw [hcount]
    exact hq.le_pageCount_mul l.length
  rw [← Array.length_toList, List.take_length, Array.length_toList, List.take_of_length_le hcover] at hall
  exact hall

end Cut

section Pages
variable {host : Host} {q : Partition} (hq : q.Valid) {f : OpenFile} {first size : Nat} (hsize : size < 2 ^ 63)
  {access : Access}
include hq hsize

/-- No page is empty. -/
theorem mapPages_succ {i : Nat} (hi : i < q.pageCount size) (m : Nat) (pages : Array (Page k)) :
    mapPages host q f first size access (m + 1) i pages =
      match Page.view host f (first + i * q.pageSize) (min (size - i * q.pageSize) q.pageSize) access with
      | .error e => .ok (.error e)
      | .ok p => mapPages host q f first size access m (i + 1) (pages.push p) := by
  have hlt := hq.start_lt hi
  have hP := hq.pageSize_pos
  have hlim : size < positionLimit := Nat.lt_trans hsize (by decide)
  have hsome : 0 < min (size - i * q.pageSize) q.pageSize := by omega
  cases hview : (Page.view host f (first + i * q.pageSize) (min (size - i * q.pageSize) q.pageSize) access :
      Except Error (Page k)) <;>
    simp only [mapPages, Partition.pageStart_of_lt (Nat.lt_trans hlt hlim), Partition.pageLength_of_lt hsize hlt,
      Page.map_of_pos hsome, hview, bind, Except.bind, pure, Except.pure]

private theorem mapPages_eq_ok (hviews : host.GrantsViews f.name access ((first + size) * k.bytes))
    (hlim : (first + size) * k.bytes < positionLimit) (m : Nat) :
    ∀ (i : Nat) (pages : Array (Page k)), i + m = q.pageCount size →
      ∃ ps, mapPages host q f first size access m i pages = .ok (.ok ps) := by
  induction m with
  | zero =>
    intro i pages _
    exact ⟨pages, rfl⟩
  | succ m ih =>
    intro i pages hm
    have hi : i < q.pageCount size := by omega
    have hlt := hq.start_lt hi
    have hend :
        (first + i * q.pageSize + min (size - i * q.pageSize) q.pageSize) * k.bytes ≤ (first + size) * k.bytes :=
      Nat.mul_le_mul_right _ (by omega)
    obtain ⟨p, hp⟩ := Page.view_eq_ok hviews hend (Nat.lt_of_le_of_lt hend hlim)
    obtain ⟨ps, hps⟩ := ih (i + 1) (pages.push p) (by omega)
    refine ⟨ps, ?_⟩
    rw [mapPages_succ hq hsize hi, hp]
    exact hps

theorem mapPages_spec (m : Nat) : ∀ {i : Nat} {pages : Array (Page k)}, pages.size = i → i + m = q.pageCount size →
    ∃ r, mapPages host q f first size access m i pages = .ok r ∧
      ∀ ps, r = .ok ps → ps.size = q.pageCount size ∧ ∀ j p, ps[j]? = some p → pages[j]? = some p ∨
        Page.view host f (first + j * q.pageSize) (min (size - j * q.pageSize) q.pageSize) access = .ok p := by
  induction m with
  | zero =>
    intro i pages hcount hm
    refine ⟨.ok pages, rfl, ?_⟩
    rintro ps ⟨⟩
    exact ⟨hcount.trans hm, fun j p hp => .inl hp⟩
  | succ m ih =>
    intro i pages hcount hm
    have hi : i < q.pageCount size := by omega
    rw [mapPages_succ hq hsize hi]
    rcases hp : (Page.view host f (first + i * q.pageSize) (min (size - i * q.pageSize) q.pageSize) access :
      Except Error (Page k)) with e | p
    · exact ⟨.error e, rfl, fun ps h => nomatch h⟩
    obtain ⟨r, hrun, hpages⟩ := ih (by rw [Array.size_push, hcount] : (pages.push p).size = i + 1) (by omega)
    refine ⟨r, hrun, fun ps hr => ?_⟩
    obtain ⟨hsizes, hmapped⟩ := hpages ps hr
    refine ⟨hsizes, fun j p' hp' => ?_⟩
    rcases hmapped j p' hp' with hold | hnew
    · rw [Array.getElem?_push] at hold
      split at hold
      · next heq =>
        cases hold
        rw [heq, hcount]
        exact .inr hp
      · exact .inl hold
    · exact .inr hnew

private theorem mapPages_answers :
    ∃ r : Except Error (Array (Page k)), mapPages host q f first size access (q.pageCount size) 0 #[] = .ok r := by
  obtain ⟨r, hrun, -⟩ := mapPages_spec hq hsize (q.pageCount size) Array.size_empty (Nat.zero_add _)
  exact ⟨r, hrun⟩

variable {ps : Array (Page k)} (h : mapPages host q f first size access (q.pageCount size) 0 #[] = .ok (.ok ps))
include h

theorem page_of_mapPages : ps.size = q.pageCount size ∧ ∀ i p, ps[i]? = some p →
    Page.view host f (first + i * q.pageSize) (min (size - i * q.pageSize) q.pageSize) access = .ok p := by
  obtain ⟨r, hrun, hpages⟩ := mapPages_spec (k := k) hq hsize (q.pageCount size) Array.size_empty (Nat.zero_add _)
  obtain ⟨hcount, hmapped⟩ := hpages ps (Except.ok.inj (hrun.symm.trans h))
  exact ⟨hcount, fun i p hp => (hmapped i p hp).resolve_left (by simp)⟩

private theorem page_spec_of_mapPages {i : Nat} {p : Page k} (hp : ps[i]? = some p) :
    p.words.toList = stretch (f.content.shownWords (first * k.bytes) size) (i * q.pageSize) q.pageSize ∧
      p.region = some ⟨f.name, (first + i * q.pageSize) * k.bytes, access⟩ := by
  obtain ⟨hcount, hmapped⟩ := page_of_mapPages hq hsize h
  have hlt : i * q.pageSize < size := hq.start_lt (hcount ▸ (Array.getElem?_eq_some_iff.1 hp).1)
  obtain ⟨hwords, hregion⟩ := Page.view_spec (hmapped i p hp)
  refine ⟨?_, hregion⟩
  rw [hwords, ← File.stretch_shownWords f.content (m := size) (by omega), stretch, stretch,
    List.take_eq_take_min (i := q.pageSize), List.length_drop, File.length_shownWords, Nat.min_comm]

end Pages

/-- An array shows `n` words of a file from word `first` on, and each of its pages is mapped at its place. -/
structure Maps (q : Partition) (f : OpenFile) (first n : Nat) (access : Access) (a : Paged k) : Prop where
  partition : a.partition = q
  size : a.size = n
  wellFormed : a.WellFormed
  toList : a.toList = f.content.shownWords (first * k.bytes) n
  region : ∀ (i : Nat) (p : Page k), a.pages[i]? = some p →
    p.region = some ⟨f.name, (first + i * q.pageSize) * k.bytes, access⟩

theorem lt_of_bytes {n : Nat} (h : n * k.bytes < positionLimit) : n < 2 ^ 63 := by
  have hbytes : 4 ≤ k.bytes := by cases k <;> decide
  have hlim : positionLimit = 2 ^ 64 := rfl
  have hle : n * 4 ≤ n * k.bytes := Nat.mul_le_mul_left _ hbytes
  omega

theorem Maps.isWritable {q : Partition} {f : OpenFile} {first n : Nat} {access : Access} {a : Paged k}
    (ha : Maps q f first n access a) {p : Page k} (hp : p ∈ a.pages) : p.isWritable = (access == .readWrite) := by
  obtain ⟨i, hi⟩ := Array.mem_iff_getElem?.1 hp
  simp only [Page.isWritable, ha.region i p hi]

section Open
variable {host : Host} {d d' : Directory} {q : Partition} {f f' : OpenFile} {first size required : Nat}
  {access : Access}

theorem maps_of_mapPages (hq : q.Valid) (hsize : size < 2 ^ 63) {ps : Array (Page k)}
    (h : mapPages host q f first size access (q.pageCount size) 0 #[] = .ok (.ok ps)) :
    Maps q f first size access ⟨q, ps, size⟩ := by
  have hcount := (page_of_mapPages hq hsize h).1
  have hcut : Cut q (f.content.shownWords (first * k.bytes) size) ps :=
    fun i p hp => (page_spec_of_mapPages hq hsize h hp).1
  have hlen : (f.content.shownWords (first * k.bytes) size : List (Word k)).length = size :=
    File.length_shownWords _ _ _
  have hall : ps.size = q.pageCount (f.content.shownWords (first * k.bytes) size : List (Word k)).length := by
    rw [hcount, hlen]
  have hwf := hcut.wellFormed hq hall (by rw [hlen]; exact hsize)
  have hl := hcut.toList_eq hq hall
  rw [hlen] at hwf hl
  exact ⟨rfl, rfl, hwf, hl, fun i p hp => (page_spec_of_mapPages hq hsize h hp).2⟩

theorem lengthen_of_le (host : Host) (access : Access) (h : required ≤ f.content.bytes.size) :
    lengthen host f required access = .ok f := if_pos h

theorem lengthen_of_granted (h : host.step f.name (.lengthening required) = .ok ()) :
    ∃ c : File, c.bytes = Bytes.grow f.content.bytes required ∧
      lengthen host f required .readWrite = .ok { f with content := c } := by
  by_cases hle : required ≤ f.content.bytes.size
  · exact ⟨f.content, (Bytes.grow_of_le hle).symm, lengthen_of_le host .readWrite hle⟩
  · exact ⟨f.content.grow required, rfl, by simp only [lengthen, if_neg hle, h]; rfl⟩

/-- A file only grows, and only for a mapping that writes. -/
theorem lengthen_spec (h : lengthen host f required access = .ok f') :
    (∃ c : File, c.bytes = Bytes.grow f.content.bytes required ∧ f' = { f with content := c }) ∧
      (required ≤ f.content.bytes.size ∧ f' = f ∨ access = .readWrite) := by
  by_cases hle : required ≤ f.content.bytes.size
  · rw [lengthen_of_le host access hle] at h
    cases h
    exact ⟨⟨f.content, (Bytes.grow_of_le hle).symm, rfl⟩, .inl ⟨hle, rfl⟩⟩
  · simp only [lengthen, if_neg hle] at h
    split at h
    · cases h
    next haccess =>
    split at h
    · cases h
    cases h
    exact ⟨⟨f.content.grow required, rfl, rfl⟩, .inr (by cases access <;> simp_all)⟩

theorem mapOpen_of_limit_le (host : Host) (d : Directory) (q : Partition) (f : OpenFile) (access : Access)
    (hlim : positionLimit ≤ (first + size) * k.bytes) :
    (mapOpen host d q f first size access : Except Fault (FileOutcome (Paged k))) =
      .ok ⟨.error (.invalidArgument "size" "mapped range overflows u64"), d⟩ := by
  simp only [mapOpen, if_pos hlim, pure, Except.pure]

theorem mapOpen_of_lengthened (hlim : (first + size) * k.bytes < positionLimit)
    (hmeasured : host.step f.name .measuring = .ok ())
    (hlong : lengthen host f ((first + size) * k.bytes) access = .ok f') :
    (mapOpen host d q f first size access : Except Fault (FileOutcome (Paged k))) =
      (fun r => ⟨r.map (fun ps => ⟨q, ps, size⟩), d.putFile f'.name f'.content⟩) <$>
        mapPages host q f' first size access (q.pageCount size) 0 #[] := by
  simp only [mapOpen, if_neg (Nat.not_le.2 hlim), hmeasured, hlong, bind, Except.bind, pure, Except.pure]
  cases mapPages (k := k) host q f' first size access (q.pageCount size) 0 #[] with
  | error e => rfl
  | ok r => cases r <;> rfl

/-- A range is refused with nothing done, or the file is made long enough for it and then shown or not. -/
theorem mapOpen_cases (hq : q.Valid) (host : Host) (d : Directory) (f : OpenFile) (first size : Nat) (access : Access) :
    (∃ e, (mapOpen host d q f first size access : Except Fault (FileOutcome (Paged k))) = .ok ⟨.error e, d⟩) ∨
    ∃ f' r, (first + size) * k.bytes < positionLimit ∧ lengthen host f ((first + size) * k.bytes) access = .ok f' ∧
      (mapOpen host d q f first size access : Except Fault (FileOutcome (Paged k))) =
        .ok ⟨r, d.putFile f'.name f'.content⟩ ∧
      ∀ a, r = .ok a → Maps q f' first size access a := by
  by_cases hlim : positionLimit ≤ (first + size) * k.bytes
  · exact .inl ⟨_, mapOpen_of_limit_le host d q f access hlim⟩
  have hlim' := Nat.lt_of_not_le hlim
  cases hmeasured : host.step f.name .measuring with
  | error cause => exact .inl ⟨_, by simp only [mapOpen, if_neg hlim, hmeasured]; rfl⟩
  | ok u =>
    cases hlong : lengthen host f ((first + size) * k.bytes) access with
    | error e => exact .inl ⟨_, by simp only [mapOpen, if_neg hlim, hmeasured, hlong]; rfl⟩
    | ok f' =>
      have hsize : size < 2 ^ 63 := by
        have hsum := lt_of_bytes hlim'
        omega
      obtain ⟨r, hrun⟩ : ∃ r : Except Error (Array (Page k)),
          mapPages host q f' first size access (q.pageCount size) 0 #[] = .ok r := mapPages_answers hq hsize
      refine .inr ⟨f', r.map (fun ps => ⟨q, ps, size⟩), hlim', rfl, ?_, ?_⟩
      · rw [mapOpen_of_lengthened hlim' hmeasured hlong, hrun]
        rfl
      · intro a ha
        cases r with
        | error e => cases ha
        | ok ps =>
          cases ha
          exact maps_of_mapPages hq hsize hrun

theorem mapOpen_answers (hq : q.Valid) (host : Host) (d : Directory) (f : OpenFile) (first size : Nat)
    (access : Access) : ∃ o : FileOutcome (Paged k), mapOpen host d q f first size access = .ok o := by
  rcases mapOpen_cases (k := k) hq host d f first size access with ⟨e, hrun⟩ | ⟨f', r, -, -, hrun, -⟩
  · exact ⟨_, hrun⟩
  · exact ⟨_, hrun⟩

/-- What is mapped shows the words of the file, once that is long enough. -/
theorem maps_of_mapOpen (hq : q.Valid) {a : Paged k} (h : mapOpen host d q f first size access = .ok ⟨.ok a, d'⟩) :
    ∃ f', (first + size) * k.bytes < positionLimit ∧ lengthen host f ((first + size) * k.bytes) access = .ok f' ∧
      d' = d.putFile f'.name f'.content ∧ Maps q f' first size access a := by
  rcases mapOpen_cases (k := k) hq host d f first size access with ⟨e, hrun⟩ | ⟨f', r, hlim, hlong, hrun, hmaps⟩
  · cases hrun.symm.trans h
  · cases hrun.symm.trans h
    exact ⟨f', hlim, hlong, rfl, hmaps a rfl⟩

theorem mapOpen_eq_ok (d : Directory) (hq : q.Valid) (hlim : (first + size) * k.bytes < positionLimit)
    (hviews : host.GrantsViews f.name access ((first + size) * k.bytes))
    (hlong : lengthen host f ((first + size) * k.bytes) access = .ok f') :
    ∃ a : Paged k, mapOpen host d q f first size access = .ok ⟨.ok a, d.putFile f'.name f'.content⟩ ∧
      Maps q f' first size access a := by
  have hsize : size < 2 ^ 63 := by
    have hsum := lt_of_bytes hlim
    omega
  obtain ⟨⟨c, -, hf'⟩, -⟩ := lengthen_spec hlong
  have hname : f'.name = f.name := by rw [hf']
  obtain ⟨ps, hps⟩ :
      ∃ ps : Array (Page k), mapPages host q f' first size access (q.pageCount size) 0 #[] = .ok (.ok ps) :=
    mapPages_eq_ok hq hsize (hname ▸ hviews) hlim (q.pageCount size) 0 #[] (Nat.zero_add _)
  refine ⟨⟨q, ps, size⟩, ?_, maps_of_mapPages hq hsize hps⟩
  rw [mapOpen_of_lengthened hlim hviews.measuring hlong, hps]
  rfl

end Open

end Paged
end PagedWords
