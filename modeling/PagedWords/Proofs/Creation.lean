import PagedWords.Proofs.PagedBulk

/-!
# Arrays made on the heap

Each page is asked for beside the memory of those before it. A system that grants the memory of the longest page
grants all of them.
-/
namespace PagedWords
variable {k : Width} {host : Host} {m n held : Nat} {large : Bool}

private theorem Host.le_of_rounded {bytes : Nat} (h : host.rounded large n = .ok bytes) : max n 1 ≤ bytes := by
  have hunit : 0 < host.unit large := by
    rw [Host.unit, Nat.one_shiftLeft]
    exact Nat.two_pow_pos _
  obtain ⟨padded, hpadded, hbytes⟩ := bind_eq_ok_iff.1 h
  have hsum : padded = max n 1 + host.unit large := by
    rw [addPosition] at hpadded
    split at hpadded
    · exact (Except.ok.inj hpadded).symm
    · cases hpadded
  cases Except.ok.inj hbytes
  have hdiv := Nat.lt_mul_div_succ (padded - 1) hunit
  rw [Nat.mul_succ, Nat.mul_comm] at hdiv
  omega

theorem Host.GrantsMemory.mono (hm : host.GrantsMemory m) (hn : n ≤ m) : host.GrantsMemory n where
  rounds large := Nat.lt_of_le_of_lt (by omega) (hm.rounds large)
  regular held l bytes hl := hm.regular held l bytes (Nat.le_trans hl hn)

namespace ByteBuffer
variable {b : ByteBuffer}

/-- A buffer of `n` bytes to which nothing was written. -/
structure New (b : ByteBuffer) (n : Nat) : Prop where
  size : b.size = n
  capacity : n ≤ b.capacity
  written : b.written = ∅

theorem new_of_allocate (h : allocate host held large n = .ok (.ok b)) : b.New n := by
  obtain ⟨capacity, hrounded, hb⟩ := bind_eq_ok_iff.1 h
  have hle := Host.le_of_rounded hrounded
  simp only [pure, Except.pure, Except.ok.injEq] at hb
  cases hmemory : host.memory held ⟨capacity, large⟩ with
  | error cause =>
    rw [hmemory] at hb
    cases hb
  | ok u =>
    rw [hmemory] at hb
    cases hb
    exact ⟨rfl, Nat.le_trans (Nat.le_max_left n 1) hle, rfl⟩

private theorem new_of_allocateLarge (h : allocateLarge host held n = .ok (.ok b)) : b.New n := by
  rw [allocateLarge] at h
  split at h
  · obtain ⟨r, hr, hb⟩ := bind_eq_ok_iff.1 h
    cases r with
    | ok b' =>
      cases hb
      exact new_of_allocate hr
    | error cause => exact new_of_allocate hb
  · exact new_of_allocate h

private theorem new_of_zeroedWords (h : zeroedWords host k held n = .ok (.ok b)) : b.New (n * k.bytes) := by
  rw [zeroedWords] at h
  split at h
  · cases h
  · split at h
    · exact new_of_allocateLarge h
    · exact new_of_allocate h

theorem allocate_eq {bytes : Nat} (hbytes : host.rounded large n = .ok bytes) :
    allocate host held large n = .ok ((host.memory held ⟨bytes, large⟩).map (fun () => ⟨n, bytes, ∅⟩)) := by
  rw [allocate, hbytes]
  rfl

theorem allocate_eq_ok (hm : host.GrantsMemory n) (held : Nat) : ∃ b, allocate host held false n = .ok (.ok b) := by
  obtain ⟨bytes, hbytes⟩ := Host.rounded_of_lt (hm.rounds false)
  rw [allocate_eq hbytes, hm.regular held n bytes (Nat.le_refl n) hbytes]
  exact ⟨_, rfl⟩

private theorem allocateLarge_eq_ok (hm : host.GrantsMemory n) (held : Nat) :
    ∃ b, allocateLarge host held n = .ok (.ok b) := by
  obtain ⟨b, hb⟩ := allocate_eq_ok hm held
  rw [allocateLarge]
  split
  · obtain ⟨bytes, hbytes⟩ := Host.rounded_of_lt (hm.rounds true)
    rw [allocate_eq hbytes]
    cases host.memory held ⟨bytes, true⟩ with
    | ok u => exact ⟨_, rfl⟩
    | error cause => exact ⟨b, hb⟩
  · exact ⟨b, hb⟩

private theorem zeroedWords_eq_ok (hm : host.GrantsMemory (n * k.bytes)) (held : Nat) :
    ∃ b, zeroedWords host k held n = .ok (.ok b) := by
  have hlim : ¬positionLimit ≤ n * k.bytes := by
    have hrounds := hm.rounds false
    omega
  rw [zeroedWords, if_neg hlim]
  split
  · exact allocateLarge_eq_ok hm held
  · exact allocate_eq_ok hm held

theorem New.get_eq (hb : b.New n) {i : Nat} (hi : i < n) : b.get i = .ok 0 := by
  rw [get, if_pos (hb.size ▸ hi), hb.written]
  simp

private theorem mapM_get {is : List Nat} (h : ∀ i ∈ is, b.get i = .ok 0) :
    is.mapM b.get = .ok (List.replicate is.length 0) := by
  induction is with
  | nil => rfl
  | cons i is ih =>
    rw [List.mapM_cons, h i List.mem_cons_self, ih (fun j hj => h j (List.mem_cons_of_mem i hj))]
    rfl

private theorem decode_zeros : Word.decode (List.replicate k.bytes 0) = (Word.zero : Word k) := by
  apply Word.ext
  cases k <;> decide

theorem New.getWord_eq (hb : b.New (n * k.bytes)) (i : Nat) :
    b.getWord k i = if i < n then .ok Word.zero else .error .badIndex := by
  have hwhole : b.wordCount k = .ok n := by
    rw [wordCount, hb.size, Nat.mul_mod_left, if_pos rfl, Nat.mul_div_cancel _ k.bytes_pos]
  have hzeros (hi : i < n) : (List.range' (i * k.bytes) k.bytes).mapM b.get = .ok (List.replicate k.bytes 0) := by
    have hle : i * k.bytes + k.bytes ≤ n * k.bytes := by
      rw [← Nat.succ_mul]
      exact Nat.mul_le_mul_right _ hi
    rw [mapM_get (fun j hj => hb.get_eq (by
      have hrange := List.mem_range'_1.1 hj
      omega)), List.length_range']
  simp only [getWord, hwhole, bind, Except.bind, pure, Except.pure]
  split
  · next hi =>
    rw [hzeros hi]
    exact congrArg Except.ok decode_zeros
  · rfl

end ByteBuffer

namespace Page

theorem size_ofBuffer {b : ByteBuffer} (hb : b.New (n * k.bytes)) : (ofBuffer b : Page k).size = n := by
  rw [ofBuffer, ofWords, size, Array.size_replicate, hb.size, Nat.mul_div_cancel _ k.bytes_pos]

/-- A new page shows the words of its buffer. -/
theorem get_ofBuffer {b : ByteBuffer} (hb : b.New (n * k.bytes)) (pos : Nat) :
    (ofBuffer b : Page k).get pos = b.getWord k pos := by
  have hsize : (ofBuffer b : Page k).words.size = n := size_ofBuffer hb
  rw [hb.getWord_eq, get]
  split
  · next hpos =>
    rw [Words.get_of_lt (hsize ▸ hpos)]
    simp [ofBuffer, ofWords]
  · next hpos => exact dif_neg (hsize ▸ hpos)

theorem new_of_allocate {b : ByteBuffer} (h : allocate host k held n = .ok (.ok b)) : b.New (n * k.bytes) := by
  obtain ⟨r, hr, hb⟩ := bind_eq_ok_iff.1 h
  cases r with
  | error cause => cases hb
  | ok b' =>
    cases hb
    exact ByteBuffer.new_of_zeroedWords hr

theorem size_of_zeroed {p : Page k} (h : zeroed host n = .ok (.ok p)) : p.size = n := by
  obtain ⟨r, hr, hp⟩ := bind_eq_ok_iff.1 h
  cases r with
  | error e => cases hp
  | ok b =>
    cases hp
    exact size_ofBuffer (new_of_allocate hr)

private theorem allocate_eq_ok (hm : host.GrantsMemory (n * k.bytes)) (held : Nat) :
    ∃ b, allocate host k held n = .ok (.ok b) := by
  obtain ⟨b, hb⟩ := ByteBuffer.zeroedWords_eq_ok hm held
  exact ⟨b, by rw [allocate, hb]; rfl⟩

end Page

namespace Paged
variable {p : Partition}

/-- New buffers for the first pages. -/
def Buffers (k : Width) (p : Partition) (n : Nat) (buffers : Array ByteBuffer) : Prop :=
  ∀ (i : Nat) (b : ByteBuffer), buffers[i]? = some b → ∃ len, p.pageLength i n = .ok len ∧ b.New (len * k.bytes)

private theorem buffers_empty : Buffers k p n #[] := by
  intro i b h
  simp at h

private theorem Buffers.push {buffers : Array ByteBuffer} (h : Buffers k p n buffers) {len : Nat}
    (hlen : p.pageLength buffers.size n = .ok len) {b : ByteBuffer} (hb : b.New (len * k.bytes)) :
    Buffers k p n (buffers.push b) := by
  intro i b' hi
  rw [Array.getElem?_push] at hi
  split at hi
  · next heq =>
    cases hi
    rw [heq]
    exact ⟨len, hlen, hb⟩
  · exact h i b' hi

private theorem buffers_of_allocateFrom (m : Nat) : ∀ {i held : Nat} {buffers bs : Array ByteBuffer}, buffers.size = i →
    Buffers k p n buffers → allocateFrom host k p n m i held buffers = .ok (.ok bs) →
    bs.size = i + m ∧ Buffers k p n bs := by
  induction m with
  | zero =>
    intro i held buffers bs hi hbuffers h
    cases h
    exact ⟨hi, hbuffers⟩
  | succ m ih =>
    intro i held buffers bs hi hbuffers h
    obtain ⟨len, hlen, h⟩ := bind_eq_ok_iff.1 h
    obtain ⟨r, hr, h⟩ := bind_eq_ok_iff.1 h
    cases r with
    | error e => cases h
    | ok b =>
      rw [← hi] at hlen
      have hpush := hbuffers.push hlen (Page.new_of_allocate hr)
      obtain ⟨hsize, hbs⟩ := ih (by rw [Array.size_push, hi]) hpush h
      exact ⟨by omega, hbs⟩

private theorem allocateFrom_eq_ok (hn : n < 2 ^ 63) (hm : host.GrantsMemory (min n p.pageSize * k.bytes)) (m : Nat) :
    ∀ (i held : Nat) (buffers : Array ByteBuffer), (∀ j, j < i + m → j * p.pageSize < n) →
    ∃ bs, allocateFrom host k p n m i held buffers = .ok (.ok bs) := by
  induction m with
  | zero =>
    intro i held buffers _
    exact ⟨buffers, rfl⟩
  | succ m ih =>
    intro i held buffers hstart
    have hlen := Partition.pageLength_of_lt hn (hstart i (by omega))
    have hpage : min (n - i * p.pageSize) p.pageSize ≤ min n p.pageSize := by omega
    obtain ⟨b, hb⟩ := Page.allocate_eq_ok (hm.mono (Nat.mul_le_mul_right k.bytes hpage)) held
    obtain ⟨bs, hbs⟩ := ih (i + 1) (held + b.capacity) (buffers.push b) (fun j hj => hstart j (by omega))
    refine ⟨bs, ?_⟩
    simp only [allocateFrom, hlen, hb, bind, Except.bind]
    exact hbs

theorem zeroed_eq_ok (hp : p.Valid) (hn : n < 2 ^ 63) (hm : host.GrantsMemory (min n p.pageSize * k.bytes)) :
    ∃ a : Paged k, zeroed host p n = .ok (.ok a) := by
  have hstart : ∀ j, j < 0 + p.pageCount n → j * p.pageSize < n := by
    intro j hj
    rw [Nat.zero_add] at hj
    exact hp.start_lt hj
  obtain ⟨bs, hbs⟩ := allocateFrom_eq_ok hn hm (p.pageCount n) 0 0 #[] hstart
  refine ⟨⟨p, bs.map Page.ofBuffer, n⟩, ?_⟩
  simp only [zeroed, hbs, bind, Except.bind, pure, Except.pure]

/-- A new array has room for all positions and holds zeros only. -/
theorem zeroed_spec (hp : p.Valid) (hn : n < 2 ^ 63) {a : Paged k} (h : zeroed host p n = .ok (.ok a)) :
    a.Ready ∧ a.partition = p ∧ a.size = n ∧ a.toList = List.replicate n Word.zero := by
  obtain ⟨r, hr, h⟩ := bind_eq_ok_iff.1 h
  cases r with
  | error e => cases h
  | ok bs =>
    cases h
    obtain ⟨hsize, hbs⟩ := buffers_of_allocateFrom (p.pageCount n) rfl buffers_empty hr
    have hwf : (⟨p, bs.map Page.ofBuffer, n⟩ : Paged k).WellFormed := by
      refine ⟨hp, by rw [Array.size_map, hsize]; exact Nat.zero_add _, ?_⟩
      intro i page hpage
      rw [Array.getElem?_map] at hpage
      obtain ⟨b, hb, rfl⟩ := Option.map_eq_some_iff.1 hpage
      obtain ⟨len, hlen, hnew⟩ := hbs i b hb
      rw [Page.size_ofBuffer hnew]
      exact hlen
    refine ⟨⟨hwf, hn, ?_⟩, rfl, rfl, ?_⟩
    · rw [isWritable, Array.all_eq_true_iff_forall_mem]
      intro page hpage
      obtain ⟨b, -, rfl⟩ := Array.mem_map.1 hpage
      rfl
    · refine List.eq_replicate_iff.2 ⟨length_toList hwf hn, ?_⟩
      intro w hw
      rw [toList, List.mem_flatMap] at hw
      obtain ⟨page, hpage, hw⟩ := hw
      obtain ⟨b, -, rfl⟩ := Array.mem_map.1 (Array.mem_toList_iff.1 hpage)
      exact List.eq_of_mem_replicate (by rwa [Page.ofBuffer, Page.ofWords, Array.toList_replicate] at hw)

theorem region_of_zeroed {a : Paged k} (h : zeroed host p n = .ok (.ok a)) {page : Page k} (hpage : page ∈ a.pages) :
    page.region = none := by
  obtain ⟨r, -, h⟩ := bind_eq_ok_iff.1 h
  cases r with
  | error e => cases h
  | ok bs =>
    cases h
    obtain ⟨b, -, rfl⟩ := Array.mem_map.1 hpage
    rfl

variable {ws : Words k}

theorem ofWords_eq_ok (hp : p.Valid) (hn : ws.size < 2 ^ 63)
    (hm : host.GrantsMemory (min ws.size p.pageSize * k.bytes)) : ∃ a, ofWords host p ws = .ok (.ok a) := by
  obtain ⟨a, ha⟩ := zeroed_eq_ok (k := k) hp hn hm
  obtain ⟨hready, -, hsize, -⟩ := zeroed_spec hp hn ha
  have hfits : 0 + ws.size ≤ a.size := by omega
  obtain ⟨a', hrun, -⟩ := writeRange_spec hready hfits
  exact ⟨a', by simp only [ofWords, ha, hrun, bind, Except.bind, Functor.map, Except.map]⟩

section OfWords
variable (hp : p.Valid) (hn : ws.size < 2 ^ 63) {a : Paged k} (h : ofWords host p ws = .ok (.ok a))
include hp hn h

theorem zeroed_of_ofWords :
    ∃ a₀ : Paged k, zeroed host p ws.size = .ok (.ok a₀) ∧ a.frame = a₀.frame ∧ a.toList = ws.toList := by
  obtain ⟨r, hr, h⟩ := bind_eq_ok_iff.1 h
  cases r with
  | error e => cases h
  | ok a₀ =>
    obtain ⟨hready, -, hsize, hzeros⟩ := zeroed_spec hp hn hr
    have hfits : 0 + ws.size ≤ a₀.size := by omega
    obtain ⟨a', hrun, hfr, hl⟩ := writeRange_spec hready hfits
    simp only [hrun, Functor.map, Except.map, Except.ok.injEq] at h
    subst h
    refine ⟨a₀, hr, hfr, ?_⟩
    rw [hl, patch_all]
    rw [hzeros, List.length_replicate, Array.length_toList]

theorem ofWords_spec : a.Ready ∧ a.partition = p ∧ a.size = ws.size ∧ a.toList = ws.toList := by
  obtain ⟨a₀, hzeroed, hfr, hl⟩ := zeroed_of_ofWords hp hn h
  obtain ⟨hready, hpart, hsize, -⟩ := zeroed_spec hp hn hzeroed
  exact ⟨hready.of_frame hfr, (partition_of_frame hfr).trans hpart, (size_of_frame hfr).trans hsize, hl⟩

theorem region_of_ofWords {page : Page k} (hpage : page ∈ a.pages) : page.region = none := by
  obtain ⟨a₀, hzeroed, hfr, -⟩ := zeroed_of_ofWords hp hn h
  obtain ⟨i, hi⟩ := Array.mem_iff_getElem?.1 hpage
  obtain ⟨page₀, hpage₀, hframe⟩ := page_of_frame hfr hi
  rw [show page.region = page₀.region from congrArg Prod.snd hframe]
  exact region_of_zeroed hzeroed (Array.mem_of_getElem? hpage₀)

end OfWords

end Paged
end PagedWords
