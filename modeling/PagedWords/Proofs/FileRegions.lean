import PagedWords.Workspace
import PagedWords.Proofs.RecordChecks
import PagedWords.Proofs.SavedFiles
import PagedWords.Proofs.ScratchFolders

/-!
# Regions of files

A mapping that writes makes the file long enough and changes none of its bytes. From then on the array tells what the
file holds: its bytes as they were, and in those of the region the words of the array.
-/
namespace PagedWords
variable {k : Width} {τ : Type}

section Bytes

private theorem ofLittleEndian_lt (bytes : List UInt8) : ofLittleEndian bytes < 256 ^ bytes.length := by
  induction bytes with
  | nil => decide
  | cons b bytes ih =>
    have hb := b.toNat_lt
    rw [ofLittleEndian, List.length_cons, Nat.pow_succ]
    omega

private theorem littleEndian_ofLittleEndian (bytes : List UInt8) :
    littleEndian bytes.length (ofLittleEndian bytes) = bytes := by
  induction bytes with
  | nil => rfl
  | cons b bytes ih =>
    have hb := b.toNat_lt
    have hlow : UInt8.ofNat (b.toNat + 256 * ofLittleEndian bytes) = b := by
      rw [← UInt8.toNat_inj, UInt8.toNat_ofNat']
      omega
    have hhigh : (b.toNat + 256 * ofLittleEndian bytes) / 256 = ofLittleEndian bytes := by omega
    rw [ofLittleEndian, List.length_cons, littleEndian, hlow, hhigh, ih]

namespace Word

private theorem encode_decode {bytes : List UInt8} (h : k.bytes ≤ bytes.length) :
    (decode bytes : Word k).encode = bytes.take k.bytes := by
  have hlen : (bytes.take k.bytes).length = k.bytes := by rw [List.length_take, Nat.min_eq_left h]
  have hlt : ofLittleEndian (bytes.take k.bytes) < k.count := by
    have hbound := ofLittleEndian_lt (bytes.take k.bytes)
    rw [hlen] at hbound
    cases k <;> exact hbound
  have hmod : ((ofLittleEndian (bytes.take k.bytes) : Int) % k.count).toNat = ofLittleEndian (bytes.take k.bytes) := by
    rw [← Int.natCast_emod, Int.toNat_natCast, Nat.mod_eq_of_lt hlt]
  have hround := littleEndian_ofLittleEndian (bytes.take k.bytes)
  rw [hlen] at hround
  rw [decode, encode, val_ofInt, Int.bmod_emod, hmod, hround]

theorem encodeAll_decodeCount (n : Nat) {bytes : List UInt8} (h : n * k.bytes ≤ bytes.length) :
    encodeAll (decodeCount n bytes : List (Word k)) = bytes.take (n * k.bytes) := by
  induction n generalizing bytes with
  | zero =>
    rw [Nat.zero_mul, List.take_zero]
    rfl
  | succ n ih =>
    rw [Nat.succ_mul] at h
    have hcons : encodeAll (decode bytes :: decodeCount n (bytes.drop k.bytes) : List (Word k)) =
        (decode bytes : Word k).encode ++ encodeAll (decodeCount n (bytes.drop k.bytes) : List (Word k)) := rfl
    rw [decodeCount, hcons, encode_decode (by omega), ih (by rw [List.length_drop]; omega), Nat.succ_mul, Nat.add_comm,
      List.take_add]

end Word

theorem File.shownWords_of_le {f : File} {offset n : Nat} (h : offset + n * k.bytes ≤ f.bytes.size) :
    (f.shownWords offset n : List (Word k)) = Word.decodeCount n (f.bytes.toList.drop offset) := by
  have hlen : offset ≤ f.bytes.toList.length := by
    rw [Array.length_toList]
    omega
  rw [shownWords_eq, image_eq_append, Array.toList_append, List.drop_append_of_le_length hlen,
    ← Word.decodeCount_take n (Nat.le_refl _),
    List.take_append_of_le_length (by rw [List.length_drop, Array.length_toList]; omega),
    Word.decodeCount_take n (Nat.le_refl _)]

end Bytes

namespace Region
variable {r : Region} {d : Directory} {new : Bytes}

private theorem find?_write (haccess : r.access = .readWrite) {f : File} (hfile : d.file? r.file = some f)
    (h : r.offset + new.size ≤ f.bytes.size) :
    ((r.write new d).find? r.file).map Array.toList = some (patch f.bytes.toList r.offset new.toList) := by
  have hwrite : r.write new d = d.putFile r.file ⟨Bytes.overwrite f.bytes r.offset new, f.beyond⟩ := by
    rw [write, haccess, hfile, ← File.overwrite_of_le h]
  rw [hwrite, Directory.find?, Directory.file?_putFile, Option.map_some, Option.map_some, Bytes.toList_overwrite]
  rfl

private theorem file?_write_of_ne (haccess : r.access = .readWrite) {other : String} (h : other ≠ r.file) :
    (r.write new d).file? other = d.file? other := by
  rw [write, haccess]
  cases d.file? r.file with
  | none => rfl
  | some f => exact Directory.file?_putFile_of_ne d _ h

end Region

/-- The file to which a page is mapped holds the words of the page in its region. -/
def Page.InFile (p : Page k) (d : Directory) : Prop :=
  ∃ r bytes, p.region = some r ∧ d.find? r.file = some bytes ∧
    stretch bytes.toList r.offset (p.size * k.bytes) = Word.encodeAll p.words.toList

namespace Paged

/-- All files are as in `d₀`, but for one: it holds the bytes `l`, with the words of the array in place of those from
byte `pos` on. Every page is mapped where its words lie among them. -/
structure Mirrors (d₀ : Directory) (name : String) (l : List UInt8) (pos : Nat) (a : Paged k) (d : Directory) :
    Prop where
  bytes : (d.find? name).map Array.toList = some (patch l pos (Word.encodeAll a.toList))
  others : ∀ other, other ≠ name → d.file? other = d₀.file? other
  mapped : ∀ (i : Nat) (p : Page k), a.pages[i]? = some p →
    p.region = some ⟨name, pos + i * a.partition.pageSize * k.bytes, .readWrite⟩

section Mirrors
variable {d₀ d : Directory} {name : String} {l : List UInt8} {pos : Nat} {a a' : Paged k}

/-- The bytes of a page are its words, so no page reaches into what another one shows. -/
theorem Mirrors.inFile (h : Mirrors d₀ name l pos a d) (ha : a.Ready) (hpos : pos ≤ l.length) {p : Page k}
    (hp : p ∈ a.pages) : p.InFile d := by
  obtain ⟨i, hi⟩ := Array.mem_iff_getElem?.1 hp
  obtain ⟨bytes, hfind, hbytes⟩ := Option.map_eq_some_iff.1 h.bytes
  obtain ⟨before, after, hsplit, hbefore, -⟩ := toList_split ha.wellFormed ha.size_lt hi
  have hstart : (l.take pos ++ Word.encodeAll before).length = pos + i * a.partition.pageSize * k.bytes := by
    rw [List.length_append, List.length_take, Nat.min_eq_left hpos, Word.length_encodeAll, hbefore]
  have hlen : (Word.encodeAll p.words.toList).length = p.size * k.bytes := by
    rw [Word.length_encodeAll, p.length_words]
  refine ⟨_, bytes, h.mapped i p hi, hfind, ?_⟩
  show stretch bytes.toList (pos + i * a.partition.pageSize * k.bytes) (p.size * k.bytes) = _
  rw [hbytes, patch, hsplit, Word.encodeAll_append, Word.encodeAll_append, List.append_assoc (Word.encodeAll before),
    ← List.append_assoc, ← List.append_assoc, List.append_assoc _ (Word.encodeAll after), ← hstart, ← hlen,
    stretch_append]

private theorem toList_eq_nil_of_no_page (h : a.pages[0]? = none) : a.toList = [] := by
  have hpages : a.pages = #[] := Array.eq_empty_of_size_eq_zero (Nat.le_zero.1 (Array.getElem?_eq_none_iff.1 h))
  rw [toList, hpages]
  rfl

theorem Mirrors.writeThrough (h : Mirrors d₀ name l pos a d) (ha : a.Ready) (hfr : a'.frame = a.frame)
    (hfits : pos + a.size * k.bytes ≤ l.length) : Mirrors d₀ name l pos a' ((Store.paged a').writeThrough d) := by
  have hmapped : ∀ (i : Nat) (p : Page k), a'.pages[i]? = some p →
      p.region = some ⟨name, pos + i * a'.partition.pageSize * k.bytes, .readWrite⟩ := by
    intro i p' hp'
    obtain ⟨p, hp, hframe⟩ := page_of_frame hfr hp'
    rw [partition_of_frame hfr]
    exact (congrArg Prod.snd hframe).trans (h.mapped i p hp)
  have hlen : a'.toList.length = a.toList.length := by
    rw [(ha.of_frame hfr).length_toList, ha.length_toList, size_of_frame hfr]
  rw [← ha.length_toList] at hfits
  rcases hp : a'.pages[0]? with _ | p
  · have hnil' := toList_eq_nil_of_no_page hp
    have hnil : a.toList = [] := List.eq_nil_of_length_eq_zero (by rw [← hlen, hnil']; rfl)
    have hsame : (Store.paged a').writeThrough d = d := by
      simp only [Store.writeThrough, Store.region?, hp, Option.bind_none]
    rw [hsame]
    exact ⟨by rw [hnil', ← hnil]; exact h.bytes, h.others, hmapped⟩
  obtain ⟨bytes, hfind, hbytes⟩ := Option.map_eq_some_iff.1 h.bytes
  obtain ⟨f, hfile, rfl⟩ := Option.map_eq_some_iff.1 hfind
  have hwrite : (Store.paged a').writeThrough d =
      (⟨name, pos, .readWrite⟩ : Region).write (Bytes.ofWords a'.toList) d := by
    simp only [Store.writeThrough, Store.region?, hp, Option.bind_some, hmapped 0 p hp, Nat.zero_mul, Nat.add_zero]
    rfl
  have hold : (Word.encodeAll a.toList).length = a.toList.length * k.bytes := Word.length_encodeAll _
  have hnew : (Word.encodeAll a'.toList).length = (Word.encodeAll a.toList).length := by
    rw [Word.length_encodeAll, hlen, hold]
  have hlong : pos + (Bytes.ofWords a'.toList).size ≤ f.bytes.size := by
    rw [Bytes.size_ofWords, hlen, ← Array.length_toList, hbytes, length_patch (by omega)]
    exact hfits
  rw [hwrite]
  refine ⟨?_, fun other hother => (Region.file?_write_of_ne rfl hother).trans (h.others other hother), hmapped⟩
  have hput : (Bytes.ofWords a'.toList).toList = Word.encodeAll a'.toList := rfl
  rw [Region.find?_write rfl hfile hlong, hbytes, hput, patch_over hnew (by omega)]

end Mirrors

end Paged

namespace Request

/-- An operation that changes words, at positions below `size`. The second record of an empty range is looked for, so it
has to begin at a position. -/
def Edits (size : Nat) : Request k τ → Prop
  | query _ => False
  | edit e => e.Within size
  | sort _ start stop => start ≤ stop ∧ stop ≤ size
  | sortRecords _ stride start stop =>
      (start ≤ stop ∧ stop ≤ size) ∧ (start = stop → start + stride < positionLimit)

section Edits
variable {a : Paged k} (ha : a.Ready) (hroom : a.size * k.bytes < 2 ^ 63)
include ha hroom

private theorem sortRecords_edits (how : RecordSort) {stride start stop : Nat} (hle : start ≤ stop) (hl : stop ≤ a.size)
    (hsum : start = stop → start + stride < positionLimit) (folder : Folder) :
    ∃ (o : SortOutcome (Paged k)), a.sortRecords how folder stride start stop = .ok o ∧ o.storage.frame = a.frame := by
  rcases hcheck : checkRecords start stop a.size stride with e | u
  · exact ⟨_, Paged.sortRecords_of_error ha how folder hcheck, rfl⟩
  rcases Nat.eq_or_lt_of_le hle with rfl | hlt
  · have hpos := (checkRecords_eq_ok_iff.1 hcheck).2.2.1
    refine ⟨.done folder a, ?_, rfl⟩
    rw [Paged.sortRecords_of_empty ha hl hpos, if_neg (fun h => Nat.not_le.2 (hsum rfl) h.2)]
  have hlen := ha.length_toList
  have hr : RecordRange a.toList stride start stop := .of_check (hlen ▸ hcheck)
  have hrange : (stop - start) * k.bytes < 2 ^ 63 := Nat.lt_of_le_of_lt (Nat.mul_le_mul_right _ (by omega)) hroom
  have hstride : stride < 2 ^ 63 := by
    have hdvd : stride ≤ stop - start := Nat.le_of_dvd (by omega) (Nat.dvd_of_mod_eq_zero hr.whole)
    have hsize := ha.size_lt
    omega
  obtain ⟨vs, hvs, h⟩ := hr.exists_rearranges (by rw [hlen]; exact hroom) hstride how
  have hserves := Folder.serving_serves "" [] ((stop - start) * k.bytes)
  obtain ⟨a', hrun, hfr, -⟩ := Paged.sortRecords_spec ha hr hvs.perm h hrange hserves
  have hmoved : SortOutcome.Moved how ((stop - start) / stride) ((stop - start) * k.bytes) folder a _
      (a.sortRecords how folder stride start stop) :=
    Paged.sortRecords_moved hrange hserves ha.wellFormed ha.size_lt
  rw [hrun] at hmoved
  generalize a.sortRecords how folder stride start stop = r at hmoved ⊢
  cases hmoved with
  | same => exact ⟨_, rfl, hfr⟩
  | visited => exact ⟨_, rfl, hfr⟩
  | refused => exact ⟨_, rfl, rfl⟩

/-- An operation that changes words within the array gives a result, and nothing but words change. -/
theorem run_edits {r : Request k τ} (hr : r.Edits a.size) (u : Caller k τ) :
    ∃ x a' u', r.run (.paged a) u = .ok (x, .paged a', u') ∧ a'.frame = a.frame := by
  have hs : (Store.paged a).Ready := ⟨⟨ha.wellFormed, ha.size_lt⟩, ha.writable⟩
  cases r with
  | query q => exact hr.elim
  | edit e =>
    obtain ⟨s, hrun, hfr, -⟩ := Edit.run_spec hs hr u.state
    cases hfr with
    | @paged _ a' hfr => exact ⟨_, a', _, by rw [run, hrun]; rfl, hfr⟩
  | sort algorithm start stop =>
    obtain ⟨s, hrun, hsorts⟩ := Store.sort_sortsTo hs hroom hr.1 hr.2 algorithm
    cases hsorts.frame with
    | @paged _ a' hfr => exact ⟨_, a', u, by rw [run, hrun]; rfl, hfr⟩
  | sortRecords how stride start stop =>
    obtain ⟨o, hrun, hfr⟩ := sortRecords_edits ha hroom how hr.1.1 hr.1.2 hr.2 u.folder
    exact ⟨_, o.storage, _, by rw [run, Store.sortRecords, hrun]; rfl, hfr⟩

end Edits
end Request

namespace Workspace

/-- Whatever is changed in the array is changed in the bytes of its region, and nothing else in any file. -/
theorem runAll_mirrors {d₀ : Directory} {file : String} {l : List UInt8} {pos : Nat} (w : Workspace k) (name : String)
    (rs : List (Request k τ)) : ∀ {a : Paged k}, a.Ready → a.size * k.bytes < 2 ^ 63 →
      pos + a.size * k.bytes ≤ l.length → a.Mirrors d₀ file l pos w.directory → (∀ r ∈ rs, r.Edits a.size) →
      ∀ u : Caller k τ, ∃ xs a' w' u',
        w.runAll name rs (.paged a) u = .ok (xs, .paged a', w', u') ∧ a'.frame = a.frame ∧
          a'.Mirrors d₀ file l pos w'.directory := by
  induction rs generalizing w with
  | nil =>
    intro a _ _ _ hmirrors _ u
    exact ⟨[], a, w, u, rfl, rfl, hmirrors⟩
  | cons r rs ih =>
    intro a ha hroom hfits hmirrors hrs u
    obtain ⟨x, a₁, u₁, hrun, hfr⟩ := r.run_edits ha hroom (hrs r List.mem_cons_self) u
    have hmirrors₁ := hmirrors.writeThrough ha hfr hfits
    rw [← Paged.size_of_frame hfr] at hroom hfits hrs
    obtain ⟨xs, a', w', u', hruns, hfr', hmirrors'⟩ := ih (w.putArray name (.paged a₁)) (ha.of_frame hfr) hroom hfits
      hmirrors₁ (fun r' hr' => hrs r' (List.mem_cons_of_mem r hr')) u₁
    refine ⟨x :: xs, a', w', u', ?_, hfr'.trans hfr, hmirrors'⟩
    simp only [runAll, hrun, hruns, bind, Except.bind, pure, Except.pure]

end Workspace

namespace Paged
variable {host : Host} {d : Directory} {q : Partition} {f : OpenFile} {path : String} {first size : Nat}

theorem mapSized_eq_mapRange (host : Host) (q : Partition) (size : Nat) (hopen : d.open? path = .ok f) :
    (mapSized host d q path size : Except Fault (FileOutcome (Paged k))) =
      mapRange host d q path 0 size .readWrite := by
  obtain ⟨hname, hfile, rfl⟩ := Directory.open?_eq_ok hopen
  have hmake : d.resolve .make f.path = .ok f.name := Directory.resolve_eq_of_ok hname
  cases hgranted : host.step f.name (.opening .readWrite) with
  | error cause =>
    simp only [mapSized, mapRange, Directory.openOrCreate, Directory.openFor, hmake, hfile, hopen, hgranted, bind,
      Except.bind]
  | ok u =>
    simp only [mapSized, mapRange, Directory.openOrCreate, Directory.openFor, hmake, hfile, hopen, hgranted, bind,
      Except.bind, pure, Except.pure]

/-- A mapping that writes is refused with nothing done, or it is one of the file grown to where the range ends. -/
theorem mapRange_readWrite_cases (hq : q.Valid) (host : Host) (hopen : d.open? path = .ok f) (first size : Nat) :
    (∃ e, (mapRange host d q path first size .readWrite : Except Fault (FileOutcome (Paged k))) = .ok ⟨.error e, d⟩) ∨
    ∃ (c : File) (r : Except Error (Paged k)), c.bytes = Bytes.grow f.content.bytes ((first + size) * k.bytes) ∧
      mapRange host d q path first size .readWrite = .ok ⟨r, d.putFile f.name c⟩ ∧
      ∀ a, r = .ok a → Maps q { f with content := c } first size .readWrite a := by
  cases hgranted : host.step f.name (.opening .readWrite) with
  | error cause =>
    exact .inl ⟨.io path cause, by simp only [mapRange, Directory.openFor, hopen, hgranted, bind, Except.bind]⟩
  | ok u =>
    simp only [mapRange, Directory.openFor_eq_ok hopen hgranted]
    rcases mapOpen_cases (k := k) hq host d f first size .readWrite with ⟨e, hrun⟩ | ⟨f', r, -, hlong, hrun, hmaps⟩
    · exact .inl ⟨e, hrun⟩
    · obtain ⟨⟨c, hc, rfl⟩, -⟩ := lengthen_spec hlong
      exact .inr ⟨c, r, hc, hrun, hmaps⟩

theorem mapRange_readWrite_eq_ok (hq : q.Valid) (hopen : d.open? path = .ok f)
    (hlim : (first + size) * k.bytes < positionLimit)
    (hviews : host.GrantsViews f.name .readWrite ((first + size) * k.bytes))
    (hgrows : f.content.bytes.size < (first + size) * k.bytes →
      host.step f.name (.lengthening ((first + size) * k.bytes)) = .ok ()) :
    ∃ (a : Paged k) (d' : Directory), mapRange host d q path first size .readWrite = .ok ⟨.ok a, d'⟩ := by
  obtain ⟨f', hlong⟩ : ∃ f', lengthen host f ((first + size) * k.bytes) .readWrite = .ok f' := by
    by_cases hle : (first + size) * k.bytes ≤ f.content.bytes.size
    · exact ⟨f, lengthen_of_le host .readWrite hle⟩
    · obtain ⟨c, -, hlong⟩ := lengthen_of_granted (hgrows (Nat.lt_of_not_le hle))
      exact ⟨_, hlong⟩
  obtain ⟨a, hrun, -⟩ := mapOpen_eq_ok (k := k) d hq hlim hviews hlong
  exact ⟨a, _, by simp only [mapRange, Directory.openFor_eq_ok hopen hviews.opening]; exact hrun⟩

theorem mapRange_readOnly_of_short (host : Host) (hopen : d.open? path = .ok f)
    (hlim : (first + size) * k.bytes < positionLimit) (hshort : f.content.bytes.size < (first + size) * k.bytes) :
    ∃ e, (mapRange host d q path first size .readOnly : Except Fault (FileOutcome (Paged k))) = .ok ⟨.error e, d⟩ ∧
      (host.step f.name (.opening .readOnly) = .ok () → host.step f.name .measuring = .ok () →
        e = .invalidArgument "size"
          s!"{path} is {f.content.bytes.size} bytes, {(first + size) * k.bytes} required") := by
  obtain ⟨-, -, rfl⟩ := Directory.open?_eq_ok hopen
  cases hgranted : host.step f.name (.opening .readOnly) with
  | error cause =>
    refine ⟨.io f.path cause, ?_, by rintro ⟨⟩⟩
    simp only [mapRange, Directory.openFor, hopen, hgranted, bind, Except.bind]
  | ok u =>
    simp only [mapRange, Directory.openFor_eq_ok hopen hgranted, mapOpen, if_neg (Nat.not_le.2 hlim), pure, Except.pure]
    cases hmeasured : host.step f.name .measuring with
    | error cause => exact ⟨.io f.path cause, rfl, by rintro - ⟨⟩⟩
    | ok u =>
      simp only [lengthen, if_neg (Nat.not_le.2 hshort), if_true]
      exact ⟨_, rfl, fun _ _ => rfl⟩

section Maps
variable {a : Paged k} (ha : Maps q f first size .readWrite a)
include ha

private theorem Maps.ready (hsize : size < 2 ^ 63) : a.Ready := by
  refine ⟨ha.wellFormed, by rw [ha.size]; exact hsize, Array.all_eq_true_iff_forall_mem.2 fun p hp => ?_⟩
  rw [ha.isWritable hp]
  rfl

variable (hlong : first * k.bytes + size * k.bytes ≤ f.content.bytes.toList.length)
include hlong

theorem Maps.toList_eq : a.toList = Word.decodeCount size (f.content.bytes.toList.drop (first * k.bytes)) := by
  rw [ha.toList, File.shownWords_of_le (by rwa [← Array.length_toList])]

private theorem Maps.mirrors (d : Directory) :
    a.Mirrors d f.name f.content.bytes.toList (first * k.bytes) (d.putFile f.name f.content) := by
  have hencoded :
      Word.encodeAll a.toList = stretch f.content.bytes.toList (first * k.bytes) (size * k.bytes) := by
    rw [ha.toList_eq hlong, Word.encodeAll_decodeCount size (by rw [List.length_drop]; omega), stretch]
  refine ⟨?_, fun other hother => Directory.file?_putFile_of_ne d _ hother, fun i p hp => ?_⟩
  · rw [hencoded, patch_stretch _ hlong, Directory.find?, Directory.file?_putFile]
    rfl
  · rw [ha.region i p hp, ha.partition, Nat.add_mul]

end Maps

/-- A mapping that writes makes a file that is too short as long as the range needs, with zeros, and its words are those
that the file then holds in the range. However they are changed, the file holds them there, and all else as before. A
mapping that is only read refuses a file that is too short, and does not touch it. The system may refuse a mapping that
writes at any step: the file has grown then, or nothing has been done to it. -/
theorem mapping_edits_its_region (hq : q.Valid) (hopen : d.open? path = .ok f)
    (hlim : (first + size) * k.bytes < Bytes.offsetLimit) {bytes : List UInt8}
    (hbytes : bytes = f.content.bytes.toList ++ List.replicate ((first + size) * k.bytes - f.content.bytes.size) 0)
    (host : Host) :
    bytes.length = max f.content.bytes.size ((first + size) * k.bytes) ∧
    (∃ (r : Except Error (Paged k)) (d' : Directory), mapRange host d q path first size .readWrite = .ok ⟨r, d'⟩ ∧
      (first = 0 → mapSized host d q path size = .ok ⟨r, d'⟩) ∧
      ((d'.find? f.name).map Array.toList = some bytes ∨ d' = d ∧ ∀ a, r ≠ .ok a) ∧
      (∀ other, other ≠ f.name → d'.file? other = d.file? other) ∧
      (host.GrantsViews f.name .readWrite ((first + size) * k.bytes) →
        (f.content.bytes.size < (first + size) * k.bytes →
          host.step f.name (.lengthening ((first + size) * k.bytes)) = .ok ()) → ∃ a, r = .ok a) ∧
      ∀ a, r = .ok a → (d'.find? f.name).map Array.toList = some bytes ∧
        a.Ready ∧ a.partition = q ∧ a.size = size ∧ a.toList = Word.decodeCount size (bytes.drop (first * k.bytes)) ∧
        ∀ (w : Workspace k), w.directory = d' → ∀ (name : String) (rs : List (Request k τ)) (u : Caller k τ),
          (∀ r ∈ rs, r.Edits size) → ∃ xs a' w' u',
            w.runAll name rs (.paged a) u = .ok (xs, .paged a', w', u') ∧ a'.frame = a.frame ∧
            a'.Mirrors d f.name bytes (first * k.bytes) w'.directory ∧ ∀ p ∈ a'.pages, p.InFile w'.directory) ∧
    (f.content.bytes.size < (first + size) * k.bytes →
      ∃ e, (mapRange host d q path first size .readOnly : Except Fault (FileOutcome (Paged k))) = .ok ⟨.error e, d⟩ ∧
        (host.step f.name (.opening .readOnly) = .ok () → host.step f.name .measuring = .ok () →
          e = .invalidArgument "size"
            s!"{path} is {f.content.bytes.size} bytes, {(first + size) * k.bytes} required")) := by
  have hpos : (first + size) * k.bytes < positionLimit := Nat.lt_trans hlim (by decide)
  have hlen : bytes.length = max f.content.bytes.size ((first + size) * k.bytes) := by
    rw [hbytes, List.length_append, Array.length_toList, List.length_replicate]
    omega
  refine ⟨hlen, ?_, mapRange_readOnly_of_short host hopen hpos⟩
  rcases mapRange_readWrite_cases (k := k) hq host hopen first size with
    ⟨e, hmap⟩ | ⟨c, r, hc, hmap, hmaps⟩
  · refine ⟨.error e, d, hmap, ?_, .inr ⟨rfl, fun a => nofun⟩, fun _ _ => rfl, fun hviews hgrows => ?_, fun a => nofun⟩
    · rintro rfl
      rw [mapSized_eq_mapRange host q size hopen, hmap]
    · obtain ⟨a, d', hrun⟩ := mapRange_readWrite_eq_ok (k := k) hq hopen hpos hviews hgrows
      cases hmap.symm.trans hrun
  have hlist : c.bytes.toList = bytes := by rw [hc, Bytes.toList_grow, hbytes]
  have hfind : ((d.putFile f.name c).find? f.name).map Array.toList = some bytes := by
    rw [Directory.find?, Directory.file?_putFile, Option.map_some, Option.map_some, hlist]
  refine ⟨r, d.putFile f.name c, hmap, ?_, .inl hfind, fun _ => Directory.file?_putFile_of_ne d c,
    fun hviews hgrows => ?_, fun a har => ⟨hfind, ?_⟩⟩
  · rintro rfl
    rw [mapSized_eq_mapRange host q size hopen, hmap]
  · obtain ⟨a, d', hrun⟩ := mapRange_readWrite_eq_ok (k := k) hq hopen hpos hviews hgrows
    cases hmap.symm.trans hrun
    exact ⟨a, rfl⟩
  have ha := hmaps a har
  have hready : a.Ready := ha.ready (by have := lt_of_bytes hpos; omega)
  have hroom : a.size * k.bytes < 2 ^ 63 := by
    have hlimit : Bytes.offsetLimit = 2 ^ 63 := rfl
    rw [Nat.add_mul] at hlim
    rw [ha.size]
    omega
  have hend : first * k.bytes + size * k.bytes ≤ c.bytes.toList.length := by
    rw [hlist, hlen, ← Nat.add_mul]
    exact Nat.le_max_right _ _
  rw [← hlist]
  refine ⟨hready, ha.partition, ha.size, ha.toList_eq hend, fun w hw name rs u hrs => ?_⟩
  have hmirrors : a.Mirrors d f.name c.bytes.toList (first * k.bytes) w.directory := by
    rw [hw]
    exact ha.mirrors hend d
  rw [← ha.size] at hend hrs
  obtain ⟨xs, a', w', u', hrun, hfr, hmirrors'⟩ := w.runAll_mirrors name rs hready hroom hend hmirrors hrs u
  exact ⟨xs, a', w', u', hrun, hfr, hmirrors', fun p => hmirrors'.inFile (hready.of_frame hfr) (by omega)⟩

/-- Three words from the second on of a file of seven bytes: the file grows, the last word is set, and all are
sorted. -/
theorem mapping_edits_its_region_of_seven_bytes :
    ∃ (d : Directory) (f : OpenFile), d.open? "a" = .ok f ∧ f.content.bytes = #[1, 2, 3, 4, 5, 6, 7] ∧
      (1 + 3) * Width.w32.bytes < Bytes.offsetLimit ∧
      ∃ (a : Paged .w32) (d' : Directory), mapRange .generous d (.even 2) "a" 1 3 .readWrite = .ok ⟨.ok a, d'⟩ ∧
        a.toList = [.ofInt 0x70605, .ofInt 0, .ofInt 0] ∧
        ∃ xs a' w' u', ((Workspace.empty (.serving "tmp" [])).withDirectory d').runAll "words"
            [.edit (.set 2 (.ofInt (-1))), .sort .quick 0 3] (.paged a) ⟨(), .ofWords #[], .serving "tmp" []⟩ =
              .ok (xs, .paged a', w', u') ∧
          (w'.directory.find? f.name).map Array.toList = some ([1, 2, 3, 4] ++ Word.encodeAll a'.toList) := by
  have hq : (Partition.even 2).Valid := ⟨by decide, by decide⟩
  have hopen : (Directory.empty.put "a" #[1, 2, 3, 4, 5, 6, 7]).open? "a" =
      .ok ⟨"a", "a", .ofBytes #[1, 2, 3, 4, 5, 6, 7]⟩ :=
    Directory.open?_put (Directory.resolve_letter .empty .find) _
  have hlim : (1 + 3) * Width.w32.bytes < Bytes.offsetLimit := by decide
  obtain ⟨-, ⟨r, d', hmap, -, -, -, hok, hspec⟩, -⟩ :=
    mapping_edits_its_region (k := .w32) (τ := Unit) hq hopen hlim rfl .generous
  obtain ⟨a, rfl⟩ := hok (Host.generous_grantsViews _ _ _) (fun _ => rfl)
  obtain ⟨-, ha, -, hsize, hwords, hedits⟩ := hspec a rfl
  obtain ⟨xs, a', w', u', hrun, hfr, hmirrors, -⟩ := hedits ((Workspace.empty (.serving "tmp" [])).withDirectory d') rfl
    "words" [.edit (.set 2 (.ofInt (-1))), .sort .quick 0 3] ⟨(), .ofWords #[], .serving "tmp" []⟩
    (by simp [Request.Edits, Edit.Within])
  have hlen : (Word.encodeAll a'.toList).length = 12 := by
    rw [Word.length_encodeAll, (ha.of_frame hfr).length_toList, size_of_frame hfr, hsize]
    rfl
  refine ⟨_, _, hopen, rfl, hlim, a, d', hmap, hwords, xs, a', w', u', hrun, hmirrors.bytes.trans ?_⟩
  rw [patch, hlen]
  exact congrArg some (List.append_nil _)

end Paged

end PagedWords
