import PagedWords.Batches
import PagedWords.Proofs.StoreUnion

/-!
# Merges of segments

A segment is whole records whose keys ascend strictly. It is known once it is known which record it has for each key,
and for each key a merge has the record of its first operand, or else that of the second. The laws of merging are
therefore those of taking the first of several answers.
-/
namespace PagedWords
variable {k : Width} {stride : Nat}

namespace Union
variable {us vs : List (Record k)}

private theorem mem_iff_find? (hu : (us.map recordKey).Pairwise (· < ·)) (r : Record k) :
    r ∈ us ↔ us.find? (recordKey · = recordKey r) = some r := by
  refine ⟨fun hr => ?_, List.mem_of_find?_eq_some⟩
  obtain ⟨front, back, rfl⟩ := List.append_of_mem hr
  refine List.find?_eq_some_iff_append.2 ⟨by simp, front, back, rfl, ?_⟩
  intro s hs
  rw [List.map_append, List.map_cons, List.pairwise_append] at hu
  have hlt := hu.2.2 _ (List.mem_map_of_mem hs) _ List.mem_cons_self
  simpa using Std.ne_of_lt hlt

private theorem eq_of_find? (hu : (us.map recordKey).Pairwise (· < ·)) (hv : (vs.map recordKey).Pairwise (· < ·))
    (h : ∀ key, us.find? (recordKey · = key) = vs.find? (recordKey · = key)) : us = vs := by
  have hmem : ∀ r, r ∈ us ↔ r ∈ vs := fun r => by rw [mem_iff_find? hu, mem_iff_find? hv, h]
  have hnodup : ∀ {ws : List (Record k)}, (ws.map recordKey).Pairwise (· < ·) → ws.Nodup :=
    fun hw => List.Nodup.of_map recordKey (hw.imp Std.ne_of_lt)
  have hperm : us.Perm vs := (List.perm_ext_iff_of_nodup (hnodup hu) (hnodup hv)).2 hmem
  refine hperm.eq_of_pairwise ?_ (List.pairwise_map.1 hu) (List.pairwise_map.1 hv)
  intro r s _ _ hrs hsr
  exact absurd (Std.lt_trans hrs hsr) Std.lt_irrefl

end Union

/-- Words that are the records of a segment: no two have the same key. -/
structure Segment (stride : Nat) (ws : Words k) : Prop where
  whole : ws.size % stride = 0
  ascending : (recordKeys ws.toList stride 0 ws.size).Pairwise (· < ·)

namespace Segment
variable {x y z : Words k}

/-- The record for a key. -/
def lookup (stride : Nat) (ws : Words k) (key : Word k) : Option (Record k) :=
  (records ws.toList stride 0 ws.size).find? (recordKey · = key)

/-- The words of the union of two segments. -/
def union (stride : Nat) (x y : Words k) : Words k :=
  (Union.unite (records x.toList stride 0 x.size) (records y.toList stride 0 y.size)).flatten.toArray

theorem empty (stride : Nat) : Segment stride (#[] : Words k) :=
  ⟨Nat.zero_mod stride, by simp [recordKeys, records, recordsFrom]⟩

theorem lookup_empty (stride : Nat) (key : Word k) : lookup stride #[] key = none := by
  simp [lookup, records, recordsFrom]

section Stride
variable (hs : 0 < stride) (hx : Segment stride x) (hy : Segment stride y)
include hs hx

theorem range : RecordRange x.toList stride 0 x.size :=
  ⟨hs, Nat.zero_le _, Nat.le_of_eq Array.length_toList.symm, hx.whole⟩

theorem flatten : (records x.toList stride 0 x.size).flatten = x.toList := by
  rw [(hx.range hs).flatten, Nat.sub_zero, ← Array.length_toList, stretch_all]

theorem size_eq : x.size = (recordKeys x.toList stride 0 x.size).length * stride := by
  rw [recordKeys, List.length_map, ← length_flatten_records (fun r => (hx.range hs).length_of_mem), hx.flatten hs,
    Array.length_toList]

theorem size_le {keys : List (Word k)} (h : recordKeys x.toList stride 0 x.size ⊆ keys) :
    x.size ≤ keys.length * stride := by
  rw [hx.size_eq hs]
  exact Nat.mul_le_mul_right stride (List.Nodup.length_le_of_subset (hx.ascending.imp Std.ne_of_lt) h)

private theorem length_of_lookup {key : Word k} {r : Record k} (h : lookup stride x key = some r) : r.length = stride :=
  (hx.range hs).length_of_mem (List.mem_of_find?_eq_some h)

include hy

/-- A segment is what it answers for the keys. -/
theorem eq_of_lookup (h : ∀ key, lookup stride x key = lookup stride y key) : x = y := by
  have hrecords := Union.eq_of_find? hx.ascending hy.ascending h
  rw [← Array.toList_inj, ← hx.flatten hs, ← hy.flatten hs, hrecords]

theorem length_of_mem_union {r : Record k}
    (hr : r ∈ Union.unite (records x.toList stride 0 x.size) (records y.toList stride 0 y.size)) :
    r.length = stride := by
  rcases Union.mem_of_mem_unite hr with hr | hr
  · exact (hx.range hs).length_of_mem hr
  · exact (hy.range hs).length_of_mem hr

theorem size_union : (union stride x y).size =
    (Union.unite (records x.toList stride 0 x.size) (records y.toList stride 0 y.size)).length * stride := by
  rw [union, List.size_toArray, length_flatten_records (fun r => length_of_mem_union hs hx hy)]

theorem records_union : records (union stride x y).toList stride 0 (union stride x y).size =
    Union.unite (records x.toList stride 0 x.size) (records y.toList stride 0 y.size) := by
  obtain ⟨us, hus⟩ : ∃ us, us = Union.unite (records x.toList stride 0 x.size) (records y.toList stride 0 y.size) :=
    ⟨_, rfl⟩
  have huniform : ∀ r ∈ us, r.length = stride := fun r hr => length_of_mem_union hs hx hy (hus ▸ hr)
  have hread : recordsFrom (patch us.flatten 0 us.flatten) stride us.length 0 = us :=
    recordsFrom_patch huniform (by rw [length_flatten_records huniform]; omega)
  rw [patch_all rfl] at hread
  rw [records, size_union hs hx hy, Nat.sub_zero, Nat.mul_div_cancel _ hs, union, ← hus]
  exact hread

theorem isUnion_union :
    Union.IsUnion (records x.toList stride 0 x.size) (records y.toList stride 0 y.size)
      (records (union stride x y).toList stride 0 (union stride x y).size) := by
  rw [records_union hs hx hy]
  exact Union.isUnion_unite (hx.ascending.imp Std.le_of_lt) (hy.ascending.imp Std.le_of_lt)

theorem lookup_union (key : Word k) :
    lookup stride (union stride x y) key = (lookup stride x key).or (lookup stride y key) := by
  rw [lookup, (isUnion_union hs hx hy).record, List.find?_append]
  rfl

theorem segment_union : Segment stride (union stride x y) :=
  ⟨by rw [size_union hs hx hy, Nat.mul_mod_left], (isUnion_union hs hx hy).ascending⟩

theorem size_union_le : (union stride x y).size ≤ x.size + y.size := by
  have hunion := Union.isUnion_unite (hx.ascending.imp Std.le_of_lt) (hy.ascending.imp Std.le_of_lt)
  have hlen : (Union.unite (records x.toList stride 0 x.size) (records y.toList stride 0 y.size)).length ≤
      (recordKeys x.toList stride 0 x.size).length + (recordKeys y.toList stride 0 y.size).length := by
    rw [hunion.length_eq, List.map_append, ← List.length_append]
    exact (List.dedup_sublist _).length_le
  calc (union stride x y).size
      ≤ ((recordKeys x.toList stride 0 x.size).length + (recordKeys y.toList stride 0 y.size).length) * stride := by
        rw [size_union hs hx hy]
        exact Nat.mul_le_mul_right stride hlen
    _ = x.size + y.size := by rw [Nat.add_mul, ← hx.size_eq hs, ← hy.size_eq hs]

end Stride

section Laws
variable (hs : 0 < stride) (hx : Segment stride x)
include hs hx

theorem union_assoc (hy : Segment stride y) (hz : Segment stride z) :
    union stride (union stride x y) z = union stride x (union stride y z) := by
  have hxy := segment_union hs hx hy
  have hyz := segment_union hs hy hz
  refine eq_of_lookup hs (segment_union hs hxy hz) (segment_union hs hx hyz) fun key => ?_
  rw [lookup_union hs hxy hz, lookup_union hs hx hy, lookup_union hs hx hyz, lookup_union hs hy hz, Option.or_assoc]

theorem union_self : union stride x x = x :=
  eq_of_lookup hs (segment_union hs hx hx) hx fun key => by rw [lookup_union hs hx hx, Option.or_self]

theorem union_empty : union stride x #[] = x :=
  eq_of_lookup hs (segment_union hs hx (.empty stride)) hx fun key => by
    rw [lookup_union hs hx (.empty stride), lookup_empty, Option.or_none]

theorem empty_union : union stride #[] x = x :=
  eq_of_lookup hs (segment_union hs (.empty stride) hx) hx fun key => by
    rw [lookup_union hs (.empty stride) hx, lookup_empty, Option.none_or]

end Laws

private theorem eq_key_of_lookup (hx : Segment 1 x) {key : Word k} {r : Record k}
    (h : lookup 1 x key = some r) : r = [key] := by
  obtain ⟨w, rfl⟩ := List.length_eq_one_iff.1 (length_of_lookup Nat.one_pos hx h)
  have hkey : recordKey [w] = key := by simpa using List.find?_some h
  exact congrArg (fun w => [w]) hkey

theorem union_comm (hx : Segment 1 x) (hy : Segment 1 y) : union 1 x y = union 1 y x := by
  refine eq_of_lookup Nat.one_pos (segment_union Nat.one_pos hx hy) (segment_union Nat.one_pos hy hx) fun key => ?_
  rw [lookup_union Nat.one_pos hx hy, lookup_union Nat.one_pos hy hx]
  cases hxr : lookup 1 x key with
  | none => rw [Option.none_or, Option.or_none]
  | some r =>
    cases hyr : lookup 1 y key with
    | none => rw [Option.none_or, Option.or_none]
    | some s => rw [eq_key_of_lookup hx hxr, eq_key_of_lookup hy hyr, Option.or_self]

end Segment

/-- The range of an operand shows the words `ws`. -/
structure Operand.Shows (o : Operand k) (ws : Words k) : Prop where
  wellFormed : o.store.WellFormed
  le : o.start ≤ o.stop
  stop_le : o.stop ≤ o.store.size
  words : stretch o.store.toList o.start o.length = ws.toList

namespace Operand.Shows
variable {o : Operand k} {ws : Words k}

private theorem of_whole (h : ws.size < 2 ^ 63) : (Operand.whole ws).Shows ws where
  wellFormed := h
  le := Nat.zero_le _
  stop_le := Nat.le_refl _
  words := by
    show stretch ws.toList 0 (ws.size - 0) = ws.toList
    rw [Nat.sub_zero, ← Array.length_toList, stretch_all]

variable (ho : o.Shows ws)
include ho

theorem length_eq : o.length = ws.size := by
  have hle := ho.le
  have hl := ho.stop_le
  rw [← Array.length_toList, ← ho.words,
    length_stretch (by rw [Store.length_toList ho.wellFormed, Operand.length]; omega)]

theorem size_lt : ws.size < 2 ^ 63 := by
  have hl := ho.stop_le
  have hlt := Store.size_lt ho.wellFormed
  rw [← ho.length_eq, Operand.length]
  omega

theorem records_eq : o.records stride = PagedWords.records ws.toList stride 0 ws.size := by
  have hle := ho.le
  have hstop : o.start + o.length = o.stop := Nat.add_sub_of_le hle
  rw [← ho.words, ← ho.length_eq, records_stretch (Nat.zero_le _) (Nat.le_refl _), Nat.add_zero, hstop, Operand.records]

theorem ascending (hs : 0 < stride) (h : Segment stride ws) : o.Ascending stride where
  wellFormed := ho.wellFormed
  range := by
    refine ⟨hs, ho.le, ?_, ?_⟩
    · rw [Store.length_toList ho.wellFormed]
      exact ho.stop_le
    · rw [← h.whole, ← ho.length_eq, Operand.length]
  sorted := by
    rw [ho.records_eq]
    exact h.ascending.imp Std.le_of_lt

end Operand.Shows

section Merge
variable {x y : Words k} {a b : Operand k} (hs : 0 < stride) (hstride : stride < 2 ^ 63) (hx : Segment stride x)
  (hy : Segment stride y)
include hs hstride hx hy

/-- Whichever stores show two segments, their union is written, if there is room for it and for either of them. -/
theorem Store.mergeInto_segments (ha : a.Shows x) (hb : b.Shows y) {out : Store k} (hout : out.Ready) {start stop : Nat}
    (hle : start ≤ stop) (hl : stop ≤ out.size)
    (hroom : max (Segment.union stride x y).size (max x.size y.size) ≤ stop - start) :
    ∃ out', out.mergeInto start stop a b stride = .ok (.ok (Segment.union stride x y).size, out') ∧ out.SameFrame out' ∧
      out'.toList = patch out.toList start (Segment.union stride x y).toList := by
  have hunion :
      a.union b stride = Union.unite (records x.toList stride 0 x.size) (records y.toList stride 0 y.size) := by
    rw [Operand.union, ha.records_eq, hb.records_eq]
  have hsize := Segment.size_union hs hx hy
  have hlengths : max a.length b.length ≤ stop - start := by
    rw [ha.length_eq, hb.length_eq]
    omega
  obtain ⟨out', hrun, hfr, hl'⟩ :=
    mergeInto_eq hout (ha.ascending hs hx) (hb.ascending hs hy) hstride hle hl hlengths
  have hall : (a.union b stride).length ≤ (stop - start) / stride := by
    rw [hunion]
    exact (Nat.le_div_iff_mul_le hs).2 (by omega)
  rw [if_pos hall, hunion, ← hsize] at hrun
  rw [List.take_of_length_le hall, hunion] at hl'
  exact ⟨out', hrun, hfr, hl'⟩

end Merge

/-- The keys of all segments, each one once. -/
def Bracketing.keys (stride : Nat) (t : Bracketing k) : List (Word k) :=
  (t.segments.flatMap fun ws => recordKeys ws.toList stride 0 ws.size).dedup

private theorem Store.SameFrame.contents_of_slice {ws : Words k} {s : Store k} (h : (Store.slice ws).SameFrame s) :
    s.contents = s.toList := by
  cases h
  rfl

section Laws
variable (hs : 0 < stride) (hstride : stride < 2 ^ 63)
include hs hstride

theorem mergeSegments_eq {x y : Words k} (hx : Segment stride x) (hy : Segment stride y) (hxsize : x.size < 2 ^ 63)
    (hysize : y.size < 2 ^ 63) (hsize : (Segment.union stride x y).size < 2 ^ 63) :
    mergeSegments stride x y = .ok (.ok (Segment.union stride x y)) := by
  have hax := Operand.Shows.of_whole hxsize
  have hby := Operand.Shows.of_whole hysize
  have hcount := Operand.countKeys_eq (hax.ascending hs hx) (hby.ascending hs hy) hstride
  rw [Operand.union, hax.records_eq, hby.records_eq] at hcount
  obtain ⟨room, hroom⟩ : ∃ room, room = max (Segment.union stride x y).size (max x.size y.size) := ⟨_, rfl⟩
  have hzeros : (Store.slice (Array.replicate room Word.zero) : Store k).size = room := Array.size_replicate
  have hready : (Store.slice (Array.replicate room Word.zero) : Store k).Ready :=
    ⟨show (Array.replicate room Word.zero).size < 2 ^ 63 by rw [Array.size_replicate]; omega, rfl⟩
  obtain ⟨out', hrun, hfr, hl⟩ := Store.mergeInto_segments hs hstride hx hy hax hby hready (Nat.zero_le room)
    (Nat.le_of_eq hzeros.symm) (by omega)
  have htake : (out'.contents.take (Segment.union stride x y).size).toArray = Segment.union stride x y := by
    rw [hfr.contents_of_slice, hl, patch, Nat.zero_add, List.take_zero, List.nil_append, ← Array.length_toList,
      List.take_left, Array.toArray_toList]
  simp only [mergeSegments, hcount, ← Segment.size_union hs hx hy, ← hroom, hrun, bind, Except.bind, pure, Except.pure,
    Except.map, htake]

namespace Bracketing

/-- A row of segments merges to the segment that has for each key the record of the first that has one. -/
theorem run_spec {t : Bracketing k} {keys : List (Word k)} (hkeys : keys.length * stride < 2 ^ 63)
    (hsegments : ∀ ws ∈ t.segments, Segment stride ws)
    (hin : ∀ ws ∈ t.segments, recordKeys ws.toList stride 0 ws.size ⊆ keys) :
    ∃ ws, t.run stride = .ok (.ok ws) ∧ Segment stride ws ∧ recordKeys ws.toList stride 0 ws.size ⊆ keys ∧
      ∀ key, Segment.lookup stride ws key = t.segments.findSome? (Segment.lookup stride · key) := by
  have hlt : ∀ {w : Words k}, Segment stride w → recordKeys w.toList stride 0 w.size ⊆ keys → w.size < 2 ^ 63 :=
    fun hw hwin => Nat.lt_of_le_of_lt (hw.size_le hs hwin) hkeys
  induction t with
  | segment ws =>
    refine ⟨ws, rfl, hsegments ws List.mem_cons_self, hin ws List.mem_cons_self, fun key => ?_⟩
    rw [segments, List.findSome?_singleton]
  | merge left right ihl ihr =>
    obtain ⟨hsl, hsr⟩ := List.forall_mem_append.1 hsegments
    obtain ⟨hinl, hinr⟩ := List.forall_mem_append.1 hin
    obtain ⟨x, hrunl, hx, hxin, hxkeys⟩ := ihl hsl hinl
    obtain ⟨y, hrunr, hy, hyin, hykeys⟩ := ihr hsr hinr
    have hz := Segment.segment_union hs hx hy
    have hzin : recordKeys (Segment.union stride x y).toList stride 0 (Segment.union stride x y).size ⊆ keys := by
      intro key hkey
      rcases ((Segment.isUnion_union hs hx hy).keys key).1 hkey with hkey | hkey
      · exact hxin hkey
      · exact hyin hkey
    refine ⟨Segment.union stride x y, ?_, hz, hzin, fun key => ?_⟩
    · simp only [run, hrunl, hrunr, bind, Except.bind]
      exact mergeSegments_eq hs hstride hx hy (hlt hx hxin) (hlt hy hyin) (hlt hz hzin)
    · rw [Segment.lookup_union hs hx hy, hxkeys, hykeys, segments, List.findSome?_append]

theorem run_eq_of_segments_eq {t t' : Bracketing k} (h : t.segments = t'.segments)
    (hsegments : ∀ ws ∈ t.segments, Segment stride ws) (hkeys : (t.keys stride).length * stride < 2 ^ 63) :
    ∃ ws, t.run stride = .ok (.ok ws) ∧ t'.run stride = .ok (.ok ws) ∧ Segment stride ws ∧
      ∀ key, Segment.lookup stride ws key = t.segments.findSome? (Segment.lookup stride · key) := by
  have hin : ∀ ws ∈ t.segments, recordKeys ws.toList stride 0 ws.size ⊆ t.keys stride :=
    fun ws hws key hkey => List.mem_dedup.2 (List.mem_flatMap.2 ⟨ws, hws, hkey⟩)
  obtain ⟨ws, hrun, hws, -, hlookup⟩ := run_spec hs hstride hkeys hsegments hin
  rw [h] at hsegments hin
  obtain ⟨ws', hrun', hws', -, hlookup'⟩ := run_spec hs hstride hkeys hsegments hin
  have hsame : ws' = ws := hws'.eq_of_lookup hs hws fun key => by rw [hlookup, hlookup', h]
  exact ⟨ws, hrun, hsame ▸ hrun', hws, hlookup⟩

end Bracketing

/-- A merge has for each key the record of its first operand, or else that of the second, whichever stores show the
operands and take the records. So merging is associative, a segment merged with itself or with none is the segment,
segments of single words may change places, and a row of segments merges to one and the same, with whatever brackets. -/
theorem merges_associate :
    (∀ x y : Words k, Segment stride x → Segment stride y → x.size < 2 ^ 62 → y.size < 2 ^ 62 →
      ∃ z, mergeSegments stride x y = .ok (.ok z) ∧ Segment stride z ∧
        (∀ key, Segment.lookup stride z key = (Segment.lookup stride x key).or (Segment.lookup stride y key)) ∧
        ∀ (out : Store k) (start stop : Nat) (a b : Operand k), out.Ready → a.Shows x → b.Shows y → start ≤ stop →
          stop ≤ out.size → max z.size (max x.size y.size) ≤ stop - start →
          ∃ out', out.mergeInto start stop a b stride = .ok (.ok z.size, out') ∧ out.SameFrame out' ∧
            out'.toList = patch out.toList start z.toList) ∧
    (∀ a b c : Words k, Segment stride a → Segment stride b → Segment stride c →
      a.size < 2 ^ 58 → b.size < 2 ^ 58 → c.size < 2 ^ 58 →
      ∃ ab bc abc, mergeSegments stride a b = .ok (.ok ab) ∧ mergeSegments stride b c = .ok (.ok bc) ∧
        mergeSegments stride ab c = .ok (.ok abc) ∧ mergeSegments stride a bc = .ok (.ok abc) ∧
        mergeSegments stride a a = .ok (.ok a) ∧ mergeSegments stride a #[] = .ok (.ok a) ∧
        mergeSegments stride #[] a = .ok (.ok a) ∧ (stride = 1 → mergeSegments stride b a = .ok (.ok ab))) ∧
    ∀ t t' : Bracketing k, t.segments = t'.segments → (∀ ws ∈ t.segments, Segment stride ws) →
      (t.keys stride).length * stride < 2 ^ 63 →
      ∃ ws, t.run stride = .ok (.ok ws) ∧ t'.run stride = .ok (.ok ws) ∧ Segment stride ws ∧
        ∀ key, Segment.lookup stride ws key = t.segments.findSome? (Segment.lookup stride · key) := by
  have hmerge : ∀ {x y : Words k}, Segment stride x → Segment stride y → x.size < 2 ^ 62 → y.size < 2 ^ 62 →
      mergeSegments stride x y = .ok (.ok (Segment.union stride x y)) := by
    intro x y hx hy hxsize hysize
    have hle := Segment.size_union_le hs hx hy
    exact mergeSegments_eq hs hstride hx hy (by omega) (by omega) (by omega)
  refine ⟨?_, ?_, fun t t' => Bracketing.run_eq_of_segments_eq hs hstride⟩
  · intro x y hx hy hxsize hysize
    refine ⟨Segment.union stride x y, hmerge hx hy hxsize hysize, Segment.segment_union hs hx hy,
      Segment.lookup_union hs hx hy, ?_⟩
    intro out start stop a b hout ha hb hle hl hroom
    exact Store.mergeInto_segments hs hstride hx hy ha hb hout hle hl hroom
  · intro a b c ha hb hc hasize hbsize hcsize
    have hab := Segment.segment_union hs ha hb
    have hbc := Segment.segment_union hs hb hc
    have hable := Segment.size_union_le hs ha hb
    have hbcle := Segment.size_union_le hs hb hc
    have hsmall : ∀ {x y : Words k}, Segment stride x → Segment stride y → x.size < 2 ^ 60 → y.size < 2 ^ 60 →
        mergeSegments stride x y = .ok (.ok (Segment.union stride x y)) :=
      fun hx hy hxsize hysize => hmerge hx hy (by omega) (by omega)
    have hnone := Segment.empty (k := k) stride
    have hzero : (#[] : Words k).size < 2 ^ 60 := Nat.two_pow_pos 60
    have hself := hsmall ha ha (by omega) (by omega)
    have hright := hsmall ha hnone (by omega) hzero
    have hleft := hsmall hnone ha hzero (by omega)
    have habc := hsmall ha hbc (by omega) (by omega)
    rw [Segment.union_self hs ha] at hself
    rw [Segment.union_empty hs ha] at hright
    rw [Segment.empty_union hs ha] at hleft
    rw [← Segment.union_assoc hs ha hb hc] at habc
    refine ⟨_, _, _, hsmall ha hb (by omega) (by omega), hsmall hb hc (by omega) (by omega),
      hsmall hab hc (by omega) (by omega), habc, hself, hright, hleft, ?_⟩
    rintro rfl
    rw [Segment.union_comm ha hb]
    exact hsmall hb ha (by omega) (by omega)

end Laws

/-- Three segments of pairs, in which the keys `1`, `2` and `3` stand in two each. -/
theorem merges_associate_of_pairs :
    ∃ (a b c ab bc abc : Words .w32), a = #[.ofInt 1, .ofInt 10, .ofInt 3, .ofInt 30] ∧
      b = #[.ofInt 1, .ofInt 11, .ofInt 2, .ofInt 20] ∧ c = #[.ofInt 2, .ofInt 21, .ofInt 3, .ofInt 31] ∧
      mergeSegments 2 a b = .ok (.ok ab) ∧ mergeSegments 2 b c = .ok (.ok bc) ∧
      mergeSegments 2 ab c = .ok (.ok abc) ∧ mergeSegments 2 a bc = .ok (.ok abc) ∧
      Segment.lookup 2 abc (.ofInt 2) = some [.ofInt 2, .ofInt 20] := by
  have ha : Segment 2 (#[.ofInt 1, .ofInt 10, .ofInt 3, .ofInt 30] : Words .w32) := ⟨by decide, by decide⟩
  have hb : Segment 2 (#[.ofInt 1, .ofInt 11, .ofInt 2, .ofInt 20] : Words .w32) := ⟨by decide, by decide⟩
  have hc : Segment 2 (#[.ofInt 2, .ofInt 21, .ofInt 3, .ofInt 31] : Words .w32) := ⟨by decide, by decide⟩
  obtain ⟨-, hlaws, hrows⟩ := merges_associate (k := .w32) (by decide : 0 < 2) (by decide)
  obtain ⟨ab, bc, abc, hab, hbc, habc, habc', -⟩ :=
    hlaws _ _ _ ha hb hc (by decide : 4 < 2 ^ 58) (by decide : 4 < 2 ^ 58) (by decide : 4 < 2 ^ 58)
  obtain ⟨ws, hrun, -, -, hlookup⟩ := hrows (.merge (.merge (.segment _) (.segment _)) (.segment _)) (.merge
    (.segment #[.ofInt 1, .ofInt 10, .ofInt 3, .ofInt 30])
    (.merge (.segment #[.ofInt 1, .ofInt 11, .ofInt 2, .ofInt 20])
      (.segment #[.ofInt 2, .ofInt 21, .ofInt 3, .ofInt 31])))
    rfl (by simp [Bracketing.segments, ha, hb, hc]) (by decide)
  have hsame : ws = abc := by
    simpa [Bracketing.run, hab, habc, bind, Except.bind, eq_comm] using hrun
  exact ⟨_, _, _, ab, bc, abc, rfl, rfl, rfl, hab, hbc, habc, habc', hsame ▸ (hlookup _).trans (by decide)⟩

end PagedWords
