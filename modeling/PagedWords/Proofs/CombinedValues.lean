import PagedWords.Proofs.FlatUnions
import PagedWords.Proofs.MergeCapacity
import Mathlib.Data.Finset.Card
import Mathlib.Data.List.Lattice

/-!
# The values that a value merge combines

Where no range has a key twice, a value merge calls its callback for the keys that both ranges have, in order and for
each of them once. A pair whose key only one range has is passed over. As every other key is met on one side only, the
keys that are combined and those of the union are together as many as there are pairs.
-/
namespace PagedWords
variable {k : Width} {τ : Type}

namespace Union

/-- The keys of the first list that the second has too. -/
def sharedKeys (ds ss : List (Record k)) : List (Word k) := ds.map recordKey ∩ ss.map recordKey

/-- The value that stands with a key. -/
def value? (rs : List (Record k)) (key : Word k) : Option (Word k) := (rs.find? (recordKey · = key)).map recordValue

/-- For one key after the other, the callback is called with the values that stand with it in `ds` and in `ss`, and what
it answers stands with the key in `us`. -/
inductive Combines (f : τ → Word k → Word k → Word k × τ) (ds ss us : List (Record k)) :
    List (Word k) → τ → τ → Prop
  | nil (t : τ) : Combines f ds ss us [] t t
  | cons {key x y w : Word k} {keys : List (Word k)} {t t₁ t' : τ} (left : value? ds key = some x)
      (right : value? ss key = some y) (call : f t x y = (w, t₁)) (made : value? us key = some w)
      (rest : Combines f ds ss us keys t₁ t') : Combines f ds ss us (key :: keys) t t'

variable {f : τ → Word k → Word k → Word k × τ} {ds ss us : List (Record k)} {d s : Record k} {key : Word k}
  {keys : List (Word k)} {t t' : τ}

@[simp] theorem value?_cons_self (d : Record k) (ds : List (Record k)) :
    value? (d :: ds) (recordKey d) = some (recordValue d) := by
  simp [value?]

theorem value?_cons_of_ne (h : recordKey d ≠ key) (ds : List (Record k)) : value? (d :: ds) key = value? ds key := by
  simp [value?, h]

private theorem value?_cons_of_not_mem (h : recordKey d ∉ keys) (ds : List (Record k)) :
    ∀ key ∈ keys, value? (d :: ds) key = value? ds key :=
  fun _ hkey => value?_cons_of_ne (ne_of_mem_of_not_mem hkey h).symm ds

private theorem Combines.congr (h : Combines f ds ss us keys t t') {ds' ss' us' : List (Record k)}
    (hds : ∀ key ∈ keys, value? ds' key = value? ds key) (hss : ∀ key ∈ keys, value? ss' key = value? ss key)
    (hus : ∀ key ∈ keys, value? us' key = value? us key) : Combines f ds' ss' us' keys t t' := by
  induction h with
  | nil t => exact .nil t
  | cons left right call made rest ih =>
    obtain ⟨hd, hds⟩ := List.forall_mem_cons.1 hds
    obtain ⟨hs, hss⟩ := List.forall_mem_cons.1 hss
    obtain ⟨hu, hus⟩ := List.forall_mem_cons.1 hus
    exact .cons (hd.trans left) (hs.trans right) call (hu.trans made) (ih hds hss hus)

private theorem not_mem_of_lt_head (hds : ((d :: ds).map recordKey).Pairwise (· < ·)) (h : key < recordKey d) :
    key ∉ (d :: ds).map recordKey := by
  rw [List.map_cons, List.mem_cons, not_or]
  refine ⟨Std.ne_of_lt h, fun hkey => ?_⟩
  exact Std.lt_irrefl (Std.lt_trans h (List.rel_of_pairwise_cons hds hkey))

private theorem not_mem_tail (hds : ((d :: ds).map recordKey).Pairwise (· < ·)) : recordKey d ∉ ds.map recordKey :=
  fun hkey => Std.lt_irrefl (List.rel_of_pairwise_cons hds hkey)

@[simp] theorem mem_sharedKeys : key ∈ sharedKeys ds ss ↔ key ∈ ds.map recordKey ∧ key ∈ ss.map recordKey := by
  simp [sharedKeys]

theorem sharedKeys_pairwise (hds : (ds.map recordKey).Pairwise (· < ·)) : (sharedKeys ds ss).Pairwise (· < ·) :=
  hds.filter _

private theorem sharedKeys_cons_of_mem (h : recordKey d ∈ ss.map recordKey) :
    sharedKeys (d :: ds) ss = recordKey d :: sharedKeys ds ss :=
  List.inter_cons_of_mem (ds.map recordKey) h

private theorem sharedKeys_cons_of_not_mem (h : recordKey d ∉ ss.map recordKey) :
    sharedKeys (d :: ds) ss = sharedKeys ds ss :=
  List.inter_cons_of_notMem (ds.map recordKey) h

private theorem sharedKeys_cons_right_of_not_mem (h : recordKey s ∉ ds.map recordKey) :
    sharedKeys ds (s :: ss) = sharedKeys ds ss := by
  apply List.filter_congr
  intro key hkey
  have hne : key ≠ recordKey s := ne_of_mem_of_not_mem hkey h
  simp [hne]

/-- The keys that both sides have are those that are combined. -/
theorem combinePairs_combines (hds : (ds.map recordKey).Pairwise (· < ·)) (hss : (ss.map recordKey).Pairwise (· < ·))
    (t : τ) {r : Combined k τ} (hr : r = combinePairs f ds ss t) :
    r.count = (sharedKeys ds ss).length ∧ Combines f ds ss r.pairs (sharedKeys ds ss) t r.state := by
  subst hr
  fun_induction combinePairs f ds ss t with
  | case1 ss t => exact ⟨rfl, .nil t⟩
  | case2 d ds t =>
    have hnone : sharedKeys (d :: ds) [] = [] := List.inter_nil' _
    rw [hnone]
    exact ⟨rfl, .nil t⟩
  | case3 d ds s ss t hlt r ih =>
    obtain ⟨hcount, hcombines⟩ := ih hds.of_cons hss
    have hd : recordKey d ∉ sharedKeys ds (s :: ss) := fun h => not_mem_tail hds (mem_sharedKeys.1 h).1
    rw [sharedKeys_cons_of_not_mem (not_mem_of_lt_head hss hlt)]
    exact ⟨hcount, hcombines.congr (value?_cons_of_not_mem hd _) (fun _ _ => rfl) (value?_cons_of_not_mem hd _)⟩
  | case4 d ds s ss t hnot hlt ih =>
    obtain ⟨hcount, hcombines⟩ := ih hds hss.of_cons
    have hs : recordKey s ∉ sharedKeys (d :: ds) ss := fun h => not_mem_of_lt_head hds hlt (mem_sharedKeys.1 h).1
    rw [sharedKeys_cons_right_of_not_mem (not_mem_of_lt_head hds hlt)]
    exact ⟨hcount, hcombines.congr (fun _ _ => rfl) (value?_cons_of_not_mem hs _) (fun _ _ => rfl)⟩
  | case5 d ds s ss t hnot hnot' w t' hf r ih =>
    obtain ⟨hcount, hcombines⟩ := ih hds.of_cons hss.of_cons
    have hkey : recordKey d = recordKey s := Std.le_antisymm (Word.not_lt.1 hnot') (Word.not_lt.1 hnot)
    have hd : recordKey d ∉ sharedKeys ds ss := fun h => not_mem_tail hds (mem_sharedKeys.1 h).1
    have hs : recordKey s ∉ sharedKeys ds ss := hkey ▸ hd
    have hmem : recordKey d ∈ (s :: ss).map recordKey := by simp [hkey]
    rw [sharedKeys_cons_of_mem hmem, sharedKeys_cons_right_of_not_mem (hkey ▸ not_mem_tail hds)]
    refine ⟨congrArg (· + 1) hcount, .cons (value?_cons_self d ds) ?_ hf (value?_cons_self [recordKey d, w] _) ?_⟩
    · rw [hkey, value?_cons_self]
    · exact hcombines.congr (value?_cons_of_not_mem hd ds) (value?_cons_of_not_mem hs ss)
        (value?_cons_of_not_mem (d := [recordKey d, w]) hd _)

private theorem value?_combinePairs (h : key ∉ ss.map recordKey) (ds : List (Record k)) (t : τ) :
    value? (combinePairs f ds ss t).pairs key = value? ds key := by
  fun_induction combinePairs f ds ss t with
  | case1 ss t => rfl
  | case2 d ds t => rfl
  | case3 d ds s ss t hlt r ih =>
    by_cases hkey : recordKey d = key
    · rw [← hkey, value?_cons_self, value?_cons_self]
    · rw [value?_cons_of_ne hkey, value?_cons_of_ne hkey, ih h]
  | case4 d ds s ss t hnot hlt ih => exact ih (List.not_mem_of_not_mem_cons h)
  | case5 d ds s ss t hnot hnot' w t' hf r ih =>
    have hsame : recordKey d = recordKey s := Std.le_antisymm (Word.not_lt.1 hnot') (Word.not_lt.1 hnot)
    have hkey : recordKey d ≠ key := fun hkey => h (by simp [← hkey, hsame])
    rw [value?_cons_of_ne hkey, value?_cons_of_ne (d := [recordKey d, w]) hkey, ih (List.not_mem_of_not_mem_cons h)]

theorem length_sharedKeys_add (hds : (ds.map recordKey).Pairwise (· < ·)) (hss : (ss.map recordKey).Pairwise (· < ·)) :
    (sharedKeys ds ss).length + ((ds ++ ss).map recordKey).dedup.length = ds.length + ss.length := by
  have hcard : ∀ {keys : List (Word k)}, keys.Pairwise (· < ·) → keys.toFinset.card = keys.length :=
    fun h => List.toFinset_card_of_nodup (h.imp Std.ne_of_lt)
  have hboth : (sharedKeys ds ss).toFinset = (ds.map recordKey).toFinset ∩ (ss.map recordKey).toFinset :=
    List.toFinset_inter _ _
  have hany : ((ds ++ ss).map recordKey).toFinset = (ds.map recordKey).toFinset ∪ (ss.map recordKey).toFinset := by
    rw [List.map_append, List.toFinset_append]
  have hsum := Finset.card_union_add_card_inter (ds.map recordKey).toFinset (ss.map recordKey).toFinset
  rw [← hboth, ← hany, hcard (sharedKeys_pairwise hds), hcard hds, hcard hss, List.card_toFinset, List.length_map,
    List.length_map] at hsum
  rw [Nat.add_comm, hsum]

end Union

theorem Operand.StrictlyAscending.countKeys_add {a b : Operand k} {stride : Nat} (ha : a.StrictlyAscending stride)
    (hb : b.StrictlyAscending stride) (hstride : stride < 2 ^ 63) :
    ∃ u, a.countKeys b stride = .ok (.ok u) ∧
      (Union.sharedKeys (a.records stride) (b.records stride)).length + u = a.length / stride + b.length / stride := by
  have hunion := Union.isUnion_unite ha.ascending.sorted hb.ascending.sorted
  have hsum := Union.length_sharedKeys_add ha.distinct hb.distinct
  rw [← hunion.length_eq] at hsum
  simp only [Operand.records, length_records] at hsum
  exact ⟨_, Operand.countKeys_eq ha.ascending hb.ascending hstride, hsum⟩

namespace Store
variable {dest : Store k} {source : Operand k} {start stop : Nat}

private theorem mergeValues_records (hdest : dest.Ready) (htarget : Operand.Ascending ⟨dest, start, stop⟩ 2)
    (hsource : source.Ascending 2) (f : τ → Word k → Word k → Word k × τ) (t : τ) {r : Union.Combined k τ}
    (hr : r = Union.combinePairs f (records dest.toList 2 start stop) (source.records 2) t) :
    ∃ dest', dest.mergeValues start stop source f t = .ok (.ok r.count, dest', r.state) ∧ dest.SameFrame dest' ∧
      records dest'.toList 2 start stop = r.pairs ∧ ∀ i, i < start ∨ stop ≤ i → dest'.toList[i]? = dest.toList[i]? := by
  obtain ⟨dest', hrun, hfr, hwords⟩ := mergeValues_eq hdest htarget hsource t hr
  have hrange : RecordRange dest.toList 2 start stop := htarget.range
  have hpairs : ∀ d ∈ r.pairs, d.length = 2 := by
    rw [hr]
    exact Union.length_of_mem_combinePairs (fun _ hd => hrange.length_of_mem hd) _ t
  have hcount : r.pairs.length = (stop - start) / 2 := by rw [hr, Union.length_combinePairs, length_records]
  have hstop : start + r.pairs.length * 2 = stop := hcount ▸ hrange.add_count
  have hl : start + r.pairs.length * 2 ≤ dest.toList.length := hstop ▸ hrange.le_length
  have hplace : start + r.pairs.flatten.length = stop := by rw [length_flatten_records hpairs, hstop]
  refine ⟨dest', hrun, hfr, ?_, ?_⟩
  · have hread := records_patch Nat.two_pos hpairs hl
    rwa [hstop, ← hwords] at hread
  · intro i hi
    rw [hwords]
    apply getElem?_patch_of_outside
    · rw [hplace]
      exact hrange.le_length
    · rwa [hplace]

/-- A value merge of pairs whose keys ascend strictly calls its callback for the keys that both sides have, in ascending
order and once for each, with the value of the destination first, and answers their number. Their values become what the
callback answers, and all else in the destination stays as it was. Where a range is no operand, the callback is not
called and the destination stays as it was. -/
theorem mergeValues_shared_keys (hdest : dest.Ready) (hsource : source.store.WellFormed) (start stop : Nat) :
    (Operand.StrictlyAscending ⟨dest, start, stop⟩ 2 → source.StrictlyAscending 2 →
      ∃ keys, keys = Union.sharedKeys (records dest.toList 2 start stop) (source.records 2) ∧
        keys.Pairwise (· < ·) ∧
        (∃ u, Operand.countKeys ⟨dest, start, stop⟩ source 2 = .ok (.ok u) ∧
          keys.length + u = (stop - start) / 2 + source.length / 2) ∧
        ∀ (f : τ → Word k → Word k → Word k × τ) (t : τ), ∃ dest' t',
          dest.mergeValues start stop source f t = .ok (.ok keys.length, dest', t') ∧
          Union.Combines f (records dest.toList 2 start stop) (source.records 2) (records dest'.toList 2 start stop)
            keys t t' ∧
          dest.SameFrame dest' ∧ recordKeys dest'.toList 2 start stop = recordKeys dest.toList 2 start stop ∧
          (∀ key, key ∉ (source.records 2).map recordKey → Union.value? (records dest'.toList 2 start stop) key =
            Union.value? (records dest.toList 2 start stop) key) ∧
          ∀ i, i < start ∨ stop ≤ i → dest'.toList[i]? = dest.toList[i]?) ∧
    (¬(Operand.Ascending ⟨dest, start, stop⟩ 2 ∧ source.Ascending 2) →
      ∃ e, (Operand.Refused ⟨dest, start, stop⟩ 2 e ∨ source.Refused 2 e) ∧
        ∀ (f : τ → Word k → Word k → Word k × τ) (t : τ),
          dest.mergeValues start stop source f t = .ok (.error e, dest, t)) := by
  constructor
  · intro htarget hdistinct
    have hds : ((records dest.toList 2 start stop).map recordKey).Pairwise (· < ·) := htarget.distinct
    have hss := hdistinct.distinct
    refine ⟨_, rfl, Union.sharedKeys_pairwise hds, htarget.countKeys_add hdistinct (by decide), ?_⟩
    intro f t
    obtain ⟨dest', hrun, hfr, hrecords, hrest⟩ :=
      mergeValues_records hdest htarget.ascending hdistinct.ascending f t rfl
    obtain ⟨hcount, hcombines⟩ := Union.combinePairs_combines (f := f) hds hss t rfl
    rw [hcount] at hrun
    refine ⟨dest', _, hrun, hrecords ▸ hcombines, hfr, ?_, ?_, hrest⟩
    · rw [recordKeys, hrecords, Union.map_recordKey_combinePairs, recordKeys]
    · intro key hkey
      rw [hrecords, Union.value?_combinePairs hkey]
  · intro h
    have hready : (⟨dest, start, stop⟩ : Operand k).store.WellFormed := hdest.wellFormed
    rcases Operand.checkInputs_cases hready hsource (by decide : 2 < 2 ^ 63) with ⟨e, he, hcheck⟩ | hasc
    · refine ⟨e, he, fun f t => ?_⟩
      simp only [mergeValues, hcheck]
      rfl
    · exact absurd hasc h

/-- Two of four pairs on three pages have a key that the source has too. The callback, which keeps a list of its calls
and answers its second argument, is called twice. Seven words are no pairs. -/
theorem mergeValues_shared_keys_across_breaks :
    ∃ p, Paged.ofWords .generous (.even 3)
          #[.ofInt 1, .ofInt 10, .ofInt 3, .ofInt 30, .ofInt 5, .ofInt 50, .ofInt 9, .ofInt 90] =
        .ok (.ok (p : Paged .w32)) ∧
      ∀ source : Operand .w32, source = ⟨slice #[.ofInt 3, .ofInt 4, .ofInt 7, .ofInt 8, .ofInt 9, .ofInt 2], 0, 6⟩ →
      ∀ f : List (Word .w32 × Word .w32) → Word .w32 → Word .w32 → Word .w32 × List (Word .w32 × Word .w32),
        (f = fun calls x y => (y, calls ++ [(x, y)])) →
        (∃ dest', (paged p).mergeValues 0 8 source f [] =
            .ok (.ok 2, dest', [(.ofInt 30, .ofInt 4), (.ofInt 90, .ofInt 2)]) ∧
          recordKeys dest'.toList 2 0 8 = [.ofInt 1, .ofInt 3, .ofInt 5, .ofInt 9] ∧
          Union.value? (records dest'.toList 2 0 8) (.ofInt 9) = some (.ofInt 2) ∧
          Union.value? (records dest'.toList 2 0 8) (.ofInt 5) = some (.ofInt 50)) ∧
        Operand.countKeys ⟨paged p, 0, 8⟩ source 2 = .ok (.ok 5) ∧
        ∃ e, (paged p).mergeValues 0 7 source f [] = .ok (.error e, paged p, []) := by
  have hp : (Partition.even 3).Valid := ⟨by decide, by decide⟩
  have hn : (#[.ofInt 1, .ofInt 10, .ofInt 3, .ofInt 30, .ofInt 5, .ofInt 50, .ofInt 9, .ofInt 90] : Words .w32).size <
    2 ^ 63 := by decide
  obtain ⟨p, hmake⟩ := Paged.ofWords_eq_ok hp hn (Host.generous_grantsMemory (by decide))
  obtain ⟨hready, -, -, hl⟩ := Paged.ofWords_spec hp hn hmake
  have hdest : (paged p).Ready := ⟨⟨hready.wellFormed, hready.size_lt⟩, hready.writable⟩
  have hpairs : records (paged p).toList 2 0 8 = [[.ofInt 1, .ofInt 10], [.ofInt 3, .ofInt 30], [.ofInt 5, .ofInt 50],
      [.ofInt 9, .ofInt 90]] := by
    show records p.toList 2 0 8 = _
    rw [hl]
    rfl
  have htarget : Operand.StrictlyAscending ⟨paged p, 0, 8⟩ 2 := by
    refine ⟨hdest.wellFormed, ⟨Nat.two_pos, Nat.zero_le 8, ?_, (by decide : (8 - 0) % 2 = 0)⟩, ?_⟩
    · show 8 ≤ p.toList.length
      rw [hl]
      decide
    · show ((records (paged p).toList 2 0 8).map recordKey).Pairwise (· < ·)
      rw [hpairs]
      decide
  refine ⟨p, hmake, ?_⟩
  rintro source rfl f rfl
  have hsource : Operand.StrictlyAscending
      (⟨slice #[.ofInt 3, .ofInt 4, .ofInt 7, .ofInt 8, .ofInt 9, .ofInt 2], 0, 6⟩ : Operand .w32) 2 :=
    ⟨(by decide : 6 < 2 ^ 63), ⟨by decide, by decide, by decide, by decide⟩, by decide⟩
  have hmerge := mergeValues_shared_keys (τ := List (Word .w32 × Word .w32)) hdest hsource.wellFormed
  obtain ⟨keys, hkeys, -, ⟨u, hcount, hsum⟩, hruns⟩ := (hmerge 0 8).1 htarget hsource
  obtain ⟨dest', calls, hrun, hcombines, -, hsame, hothers, -⟩ := hruns (fun calls x y => (y, calls ++ [(x, y)])) []
  have huneven : ¬Operand.Ascending ⟨paged p, 0, 7⟩ 2 :=
    fun h => absurd h.range.whole (by decide : (7 - 0) % 2 ≠ 0)
  obtain ⟨e, -, hrefused⟩ := (hmerge 0 7).2 (fun h => huneven h.1)
  rw [hpairs] at hkeys hcombines hothers
  rw [recordKeys.eq_def (paged p).toList, hpairs] at hsame
  have hshared : keys = [.ofInt 3, .ofInt 9] := hkeys
  subst hshared
  have hsum : 2 + u = 4 + 3 := hsum
  obtain rfl : u = 5 := by omega
  rcases hcombines with _ | ⟨left, right, call, made, rest⟩
  rcases rest with _ | ⟨left', right', call', made', rest⟩
  cases rest
  cases left
  cases right
  cases call
  cases left'
  cases right'
  cases call'
  exact ⟨⟨dest', hrun, hsame, made', hothers (.ofInt 5) (by decide)⟩, hcount, e, hrefused _ []⟩

end Store
end PagedWords
