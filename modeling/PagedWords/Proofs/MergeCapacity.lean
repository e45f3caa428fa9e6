import PagedWords.Proofs.StoreUnion

/-!
# How much room a union needs

Where no range has a key twice, the room that a union needs is that of its keys. With less room it is refused before a
word is written, or it stops at the first record that does not fit, which need not be where the room ends. A range that
takes no part in a union is refused before the room is looked at.
-/
namespace PagedWords
variable {k : Width} {stride start stop : Nat}

namespace Operand
variable {o a b : Operand k}

/-- The range lies in the store, and its keys ascend strictly. -/
structure StrictlyAscending (o : Operand k) (stride : Nat) : Prop where
  wellFormed : o.store.WellFormed
  range : RecordRange o.store.toList stride o.start o.stop
  distinct : ((o.records stride).map recordKey).Pairwise (· < ·)

theorem StrictlyAscending.ascending (ho : o.StrictlyAscending stride) : o.Ascending stride :=
  ⟨ho.wellFormed, ho.range, ho.distinct.imp Std.le_of_lt⟩

private theorem StrictlyAscending.length_le (ho : o.StrictlyAscending stride) {keys : List (Word k)}
    (h : (o.records stride).map recordKey ⊆ keys) : o.length ≤ stride * keys.length := by
  have hcount : (o.records stride).length ≤ keys.length := by
    simpa using List.Nodup.length_le_of_subset (ho.distinct.imp Std.ne_of_lt) h
  have hwhole : o.length = stride * (o.records stride).length := by
    have hdvd : stride ∣ o.stop - o.start := Nat.dvd_of_mod_eq_zero ho.range.whole
    rw [records, length_records, Nat.mul_div_cancel' hdvd, length]
  rw [hwhole]
  exact Nat.mul_le_mul_left stride hcount

private theorem max_length_le (ha : a.StrictlyAscending stride) (hb : b.StrictlyAscending stride) :
    max a.length b.length ≤ stride * ((a.records stride ++ b.records stride).map recordKey).dedup.length := by
  have hkeys : ∀ {rs : List (Record k)}, rs ⊆ a.records stride ++ b.records stride →
      rs.map recordKey ⊆ ((a.records stride ++ b.records stride).map recordKey).dedup := by
    intro rs hrs key hkey
    exact List.mem_dedup.2 (List.map_subset recordKey hrs hkey)
  exact Nat.max_le.2 ⟨ha.length_le (hkeys (List.subset_append_left _ _)),
    hb.length_le (hkeys (List.subset_append_right _ _))⟩

end Operand

namespace Store
variable {out : Store k} {a b : Operand k}

/-- A union that outgrows its room has written the records that fit, and nothing else. -/
theorem mergeInto_of_overfull (hout : out.Ready) (ha : a.Ascending stride) (hb : b.Ascending stride)
    (hstride : stride < 2 ^ 63) (hle : start ≤ stop) (hl : stop ≤ out.size)
    (hroom : max a.length b.length ≤ stop - start) {room : Nat} (hfit : room = (stop - start) / stride)
    (hmany : room < (a.union b stride).length) :
    ∃ out', out.mergeInto start stop a b stride =
        .ok (.error (.destinationTooSmall ((room + 1) * stride) (stop - start)), out') ∧
      out.SameFrame out' ∧
      records out'.toList stride start (start + room * stride) = (a.union b stride).take room ∧
      ∀ i, i < start ∨ start + room * stride ≤ i → out'.toList[i]? = out.toList[i]? := by
  obtain ⟨out', hrun, hfr, hwords⟩ := mergeInto_eq hout ha hb hstride hle hl hroom
  rw [← hfit] at hrun hwords
  rw [if_neg (Nat.not_le.2 hmany)] at hrun
  have hus : ∀ r ∈ (a.union b stride).take room, r.length = stride :=
    fun r hr => Operand.length_of_mem_union ha hb (List.mem_of_mem_take hr)
  have hcount : ((a.union b stride).take room).length = room := by simp [Nat.le_of_lt hmany]
  have hspan : room * stride ≤ stop - start := hfit ▸ Nat.div_mul_le_self _ _
  have hplace : start + room * stride ≤ out.toList.length := by
    rw [hout.length_toList]
    omega
  refine ⟨out', hrun, hfr, ?_, ?_⟩
  · have hread : records (patch out.toList start ((a.union b stride).take room).flatten) stride start
        (start + ((a.union b stride).take room).length * stride) = (a.union b stride).take room :=
      records_patch ha.range.pos hus (by rwa [hcount])
    rwa [hcount, ← hwords] at hread
  · intro i hi
    have hflat : ((a.union b stride).take room).flatten.length = room * stride := by
      rw [length_flatten_records hus, hcount]
    rw [hwords]
    apply getElem?_patch_of_outside
    · rwa [hflat]
    · rwa [hflat]

/-- The room that a union needs is that of the keys as they are counted beforehand, no more and no less. With less room
the destination is as it was, or it holds the first records of the union and is else as it was. A range that is no
operand is refused for what is wrong with it. -/
theorem mergeInto_capacity (hout : out.Ready) (ha : a.store.WellFormed) (hb : b.store.WellFormed)
    (hstride : stride < 2 ^ 63) (start stop : Nat) :
    (start ≤ stop → stop ≤ out.size → a.StrictlyAscending stride → b.StrictlyAscending stride →
      ∃ u, u = ((a.records stride ++ b.records stride).map recordKey).dedup.length ∧
        a.countKeys b stride = .ok (.ok u) ∧
        ((∃ written out', out.mergeInto start stop a b stride = .ok (.ok written, out')) ↔
          stride * u ≤ stop - start) ∧
        (stop - start < max a.length b.length →
          out.mergeInto start stop a b stride =
            .ok (.error (.destinationTooSmall (max a.length b.length) (stop - start)), out)) ∧
        (max a.length b.length ≤ stop - start → stop - start < stride * u →
          ∃ room out' us, room = (stop - start) / stride ∧
            out.mergeInto start stop a b stride =
              .ok (.error (.destinationTooSmall ((room + 1) * stride) (stop - start)), out') ∧
            out.SameFrame out' ∧ Union.IsUnion (a.records stride) (b.records stride) us ∧
            records out'.toList stride start (start + room * stride) = us.take room ∧
            ∀ i, i < start ∨ start + room * stride ≤ i → out'.toList[i]? = out.toList[i]?)) ∧
    (¬((start ≤ stop ∧ stop ≤ out.size) ∧ a.Ascending stride ∧ b.Ascending stride) →
      ∃ e, out.mergeInto start stop a b stride = .ok (.error e, out) ∧
        (¬(start ≤ stop ∧ stop ≤ out.size) ∧ e = .rangeOutside start stop out.size ∨
          a.Refused stride e ∨ b.Refused stride e)) := by
  constructor
  · intro hle hl hdistinct hdistinct'
    have hasc := hdistinct.ascending
    have hasc' := hdistinct'.ascending
    have hs := hasc.range.pos
    have hunion : Union.IsUnion (a.records stride) (b.records stride) (a.union b stride) :=
      Union.isUnion_unite hasc.sorted hasc'.sorted
    have hlonger := Operand.max_length_le hdistinct hdistinct'
    obtain ⟨u, hu⟩ : ∃ u, u = ((a.records stride ++ b.records stride).map recordKey).dedup.length := ⟨_, rfl⟩
    rw [← hu] at hlonger
    have hcount : (a.union b stride).length = u := by rw [hunion.length_eq, hu]
    have hfits : u ≤ (stop - start) / stride ↔ stride * u ≤ stop - start := by
      rw [Nat.le_div_iff_mul_le hs, Nat.mul_comm]
    have hshort : stop - start < max a.length b.length → out.mergeInto start stop a b stride =
        .ok (.error (.destinationTooSmall (max a.length b.length) (stop - start)), out) :=
      fun h => mergeInto_of_refused (checkMerge_of_short hasc hasc' hstride hle hl h)
    have hover : stop - start < stride * u → (stop - start) / stride < (a.union b stride).length := by
      intro hless
      rw [hcount, ← Nat.not_le, hfits]
      exact Nat.not_le.2 hless
    refine ⟨u, hu, by rw [Operand.countKeys_eq hasc hasc' hstride, hcount], ?_, hshort, ?_⟩
    · constructor
      · rintro ⟨written, out', hrun⟩
        by_contra hless
        rcases Nat.lt_or_ge (stop - start) (max a.length b.length) with htight | hroom
        · cases hrun.symm.trans (hshort htight)
        · obtain ⟨out'', hrun', -⟩ :=
            mergeInto_of_overfull hout hasc hasc' hstride hle hl hroom rfl (hover (Nat.lt_of_not_le hless))
          cases hrun.symm.trans hrun'
      · intro hfit
        obtain ⟨out', hrun, -⟩ := mergeInto_eq hout hasc hasc' hstride hle hl (Nat.le_trans hlonger hfit)
        rw [hcount, if_pos (hfits.2 hfit)] at hrun
        exact ⟨_, out', hrun⟩
    · intro hroom hless
      obtain ⟨out', hrun, hfr, hrecords, hrest⟩ :=
        mergeInto_of_overfull hout hasc hasc' hstride hle hl hroom rfl (hover hless)
      exact ⟨_, out', a.union b stride, rfl, hrun, hfr, hunion, hrecords, hrest⟩
  · intro h
    obtain ⟨e, he, hcheck⟩ := checkMerge_of_refused ha hb hstride h
    exact ⟨e, mergeInto_of_refused hcheck, he⟩

/-- Three keys in two ranges of pairs: six words are room for them, three words are not even room for the longer range,
and in five words there is room for two pairs and a word that stays as it was. Three words are no pairs. -/
theorem mergeInto_capacity_of_pairs :
    ∃ (out : Store .w32) (a b : Operand .w32), out = slice (Array.replicate 6 Word.zero) ∧
      a = ⟨slice #[.ofInt 1, .ofInt 10, .ofInt 3, .ofInt 30], 0, 4⟩ ∧ b = ⟨slice #[.ofInt 2, .ofInt 20], 0, 2⟩ ∧
      a.countKeys b 2 = .ok (.ok 3) ∧
      (∃ written out', out.mergeInto 0 6 a b 2 = .ok (.ok written, out')) ∧
      out.mergeInto 1 4 a b 2 = .ok (.error (.destinationTooSmall 4 3), out) ∧
      (∃ out', out.mergeInto 1 6 a b 2 = .ok (.error (.destinationTooSmall 6 5), out') ∧
        out'.toList[5]? = some .zero) ∧
      ∃ e, out.mergeInto 0 6 { a with stop := 3 } b 2 = .ok (.error e, out) := by
  obtain ⟨out, hout⟩ : ∃ out : Store .w32, out = slice (Array.replicate 6 Word.zero) := ⟨_, rfl⟩
  obtain ⟨a, ha⟩ : ∃ a : Operand .w32, a = ⟨slice #[.ofInt 1, .ofInt 10, .ofInt 3, .ofInt 30], 0, 4⟩ := ⟨_, rfl⟩
  obtain ⟨b, hb⟩ : ∃ b : Operand .w32, b = ⟨slice #[.ofInt 2, .ofInt 20], 0, 2⟩ := ⟨_, rfl⟩
  have hready : out.Ready := by
    rw [hout]
    exact ⟨(by decide : 6 < 2 ^ 63), rfl⟩
  have hsize : out.size = 6 := by rw [hout]; rfl
  have hasc : a.StrictlyAscending 2 := by
    rw [ha]
    exact ⟨(by decide : 4 < 2 ^ 63), ⟨by decide, by decide, by decide, by decide⟩, by decide⟩
  have hasc' : b.StrictlyAscending 2 := by
    rw [hb]
    exact ⟨(by decide : 2 < 2 ^ 63), ⟨by decide, by decide, by decide, by decide⟩, by decide⟩
  have hkeys : ((a.records 2 ++ b.records 2).map recordKey).dedup.length = 3 := by
    rw [ha, hb]
    decide
  have hlonger : max a.length b.length = 4 := by
    rw [ha, hb]
    rfl
  have hcapacity := mergeInto_capacity hready hasc.wellFormed hasc'.wellFormed (by decide : 2 < 2 ^ 63)
  obtain ⟨u, hu, hcount, hfits, -⟩ := (hcapacity 0 6).1 (by decide) (Nat.le_of_eq hsize.symm) hasc hasc'
  obtain ⟨-, -, -, -, hshort, -⟩ := (hcapacity 1 4).1 (by decide) (by rw [hsize]; decide) hasc hasc'
  obtain ⟨v, hv, -, -, -, hover⟩ := (hcapacity 1 6).1 (by decide) (Nat.le_of_eq hsize.symm) hasc hasc'
  rw [hkeys] at hu hv
  rw [hlonger] at hshort hover
  obtain ⟨room, out', -, rfl, hrun, -, -, -, hrest⟩ := hover (by decide) (by rw [hv]; decide)
  have huneven : ¬Operand.Ascending { a with stop := 3 } 2 := fun h => absurd h.range.whole (by rw [ha]; decide)
  obtain ⟨e, hrefused, -⟩ := (mergeInto_capacity (a := { a with stop := 3 }) hready hasc.wellFormed hasc'.wellFormed
    (by decide : 2 < 2 ^ 63) 0 6).2 (fun h => huneven h.2.1)
  subst hu hv
  refine ⟨out, a, b, hout, ha, hb, hcount, hfits.2 (by decide), hshort (by decide), ⟨out', hrun, ?_⟩, e, hrefused⟩
  rw [hrest 5 (.inr (by decide)), hout]
  rfl

end Store
end PagedWords
