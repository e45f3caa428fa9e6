import PagedWords.Proofs.Stretch
import PagedWords.Span
import PagedWords.Word

/-!
# Records and their keys

The records of a range are stretches that follow one another, and the first word of each is its key.
-/
namespace PagedWords
variable {k : Width}

namespace Word

instance : Std.IsLinearOrder (Word k) := Std.IsLinearOrder.of_le
  ⟨fun _ _ hab hba => Word.ext (Int.le_antisymm hab hba)⟩ ⟨fun hab hbc => Int.le_trans hab hbc⟩
  ⟨fun a b => Int.le_total a.val b.val⟩

instance : Std.LawfulOrderLT (Word k) := ⟨fun _ _ => Int.lt_iff_le_and_not_ge⟩

@[simp] theorem not_le {a b : Word k} : ¬a ≤ b ↔ b < a := Std.not_le

@[simp] theorem not_lt {a b : Word k} : ¬a < b ↔ b ≤ a := Std.not_lt

theorem le_min_iff {a b c : Word k} : a ≤ min b c ↔ a ≤ b ∧ a ≤ c := by
  unfold min
  split
  · grind
  · grind

theorem min_eq_right_of_le {a b : Word k} (h : b ≤ a) : min a b = b := by
  unfold min
  split
  · grind
  · rfl

end Word

/-- The words of a record; the first is its key. -/
abbrev Record (k : Width) := List (Word k)

/-- The `n` records from `pos` on. -/
def recordsFrom (l : List (Word k)) (stride : Nat) : Nat → Nat → List (Record k)
  | 0, _ => []
  | n + 1, pos => stretch l pos stride :: recordsFrom l stride n (pos + stride)

/-- The records of a range. -/
def records (l : List (Word k)) (stride start stop : Nat) : List (Record k) :=
  recordsFrom l stride ((stop - start) / stride) start

def recordKey (r : Record k) : Word k := r.headD Word.zero

/-- The keys of the records of a range. -/
def recordKeys (l : List (Word k)) (stride start stop : Nat) : List (Word k) :=
  (records l stride start stop).map recordKey

/-- The range lies in the list and holds whole records. -/
structure RecordRange (l : List (Word k)) (stride start stop : Nat) : Prop where
  pos : 0 < stride
  le : start ≤ stop
  le_length : stop ≤ l.length
  whole : (stop - start) % stride = 0

variable {l : List (Word k)} {stride : Nat}

theorem recordKey_stretch {pos : Nat} (hs : 0 < stride) (h : pos < l.length) :
    recordKey (stretch l pos stride) = l[pos] := by
  obtain ⟨n, rfl⟩ : ∃ n, stride = n + 1 := ⟨stride - 1, by omega⟩
  rw [stretch_succ n h]
  rfl

private theorem recordsFrom_one {pos n : Nat} (h : pos + n ≤ l.length) :
    (recordsFrom l 1 n pos).map recordKey = stretch l pos n := by
  induction n generalizing pos with
  | zero => rfl
  | succ n ih =>
    rw [recordsFrom, List.map_cons, recordKey_stretch Nat.one_pos (by omega), ih (by omega), stretch_succ n (by omega)]

theorem recordKeys_one {start stop : Nat} (hle : start ≤ stop) (hl : stop ≤ l.length) :
    recordKeys l 1 start stop = stretch l start (stop - start) := by
  rw [recordKeys, records, Nat.div_one, recordsFrom_one (by omega)]

theorem recordsFrom_add (m n pos : Nat) :
    recordsFrom l stride (m + n) pos = recordsFrom l stride m pos ++ recordsFrom l stride n (pos + m * stride) := by
  induction m generalizing pos with
  | zero => rw [Nat.zero_add, Nat.zero_mul, Nat.add_zero]; rfl
  | succ m ih =>
    have hplace : pos + stride + m * stride = pos + (m + 1) * stride := by
      rw [Nat.succ_mul]
      omega
    rw [Nat.add_right_comm, recordsFrom, recordsFrom, ih, hplace]
    rfl

private theorem recordsFrom_stretch {low m pos n : Nat} (h : pos + n * stride ≤ m) :
    recordsFrom (stretch l low m) stride n pos = recordsFrom l stride n (low + pos) := by
  induction n generalizing pos with
  | zero => rfl
  | succ n ih =>
    rw [Nat.succ_mul] at h
    rw [recordsFrom, recordsFrom, stretch_stretch l (by omega), ih (by omega), Nat.add_assoc]

theorem records_stretch {low m start stop : Nat} (hle : start ≤ stop) (h : stop ≤ m) :
    records (stretch l low m) stride start stop = records l stride (low + start) (low + stop) := by
  have hwhole := Nat.div_mul_le_self (stop - start) stride
  rw [records, records, recordsFrom_stretch (by omega), Nat.add_sub_add_left]

private theorem records_congr {l' : List (Word k)} {start start' stop stop' n : Nat} (hn : start + n = stop)
    (hn' : start' + n = stop') (h : stretch l start n = stretch l' start' n) :
    records l stride start stop = records l' stride start' stop' := by
  have hl : records (stretch l start n) stride 0 n = records l stride (start + 0) (start + n) :=
    records_stretch (Nat.zero_le n) (Nat.le_refl n)
  have hl' : records (stretch l' start' n) stride 0 n = records l' stride (start' + 0) (start' + n) :=
    records_stretch (Nat.zero_le n) (Nat.le_refl n)
  rw [Nat.add_zero, hn] at hl
  rw [Nat.add_zero, hn'] at hl'
  rw [← hl, h, hl']

@[simp] theorem length_recordsFrom (n pos : Nat) : (recordsFrom l stride n pos).length = n := by
  induction n generalizing pos with
  | zero => rfl
  | succ n ih => rw [recordsFrom, List.length_cons, ih]

@[simp] theorem length_records (start stop : Nat) : (records l stride start stop).length = (stop - start) / stride :=
  length_recordsFrom _ _

@[simp] theorem length_recordKeys (start stop : Nat) :
    (recordKeys l stride start stop).length = (stop - start) / stride := by
  rw [recordKeys, List.length_map, length_records]

theorem recordKeys_of_le {start stop : Nat} (h : stop ≤ start) : recordKeys l stride start stop = [] := by
  apply List.eq_nil_of_length_eq_zero
  rw [length_recordKeys, Nat.sub_eq_zero_of_le h, Nat.zero_div]

namespace RecordRange
variable {start stop : Nat}

theorem check (h : RecordRange l stride start stop) : checkRecords start stop l.length stride = .ok () :=
  checkRecords_eq_ok_iff.2 ⟨h.le, h.le_length, h.pos, h.whole⟩

theorem of_check (h : checkRecords start stop l.length stride = .ok ()) : RecordRange l stride start stop :=
  have ⟨hle, hl, hs, hwhole⟩ := checkRecords_eq_ok_iff.1 h
  ⟨hs, hle, hl, hwhole⟩

theorem one (hle : start ≤ stop) (hl : stop ≤ l.length) : RecordRange l 1 start stop :=
  ⟨Nat.one_pos, hle, hl, Nat.mod_one _⟩

theorem of_stretch {low m : Nat} (h : RecordRange (stretch l low m) stride start stop) (hm : low + m ≤ l.length) :
    RecordRange l stride (low + start) (low + stop) := by
  have hl := h.le_length
  rw [length_stretch hm] at hl
  exact ⟨h.pos, Nat.add_le_add_left h.le low, by omega, by rw [Nat.add_sub_add_left]; exact h.whole⟩

theorem transfer (h : RecordRange l stride start stop) {l' : List (Word k)} {start' stop' : Nat}
    (hsum : start' + (stop - start) = stop') (hl : stop' ≤ l'.length)
    (hwords : stretch l' start' (stop - start) = stretch l start (stop - start)) :
    RecordRange l' stride start' stop' ∧ records l' stride start' stop' = records l stride start stop := by
  have hspan : stop' - start' = stop - start := by omega
  exact ⟨⟨h.pos, by omega, hl, by rw [hspan]; exact h.whole⟩,
    records_congr hsum (Nat.add_sub_of_le h.le) hwords⟩

theorem add_count (h : RecordRange l stride start stop) : start + (stop - start) / stride * stride = stop := by
  have hle := h.le
  rw [Nat.div_mul_cancel (Nat.dvd_of_mod_eq_zero h.whole)]
  omega

theorem add_keys (h : RecordRange l stride start stop) :
    start + (recordKeys l stride start stop).length * stride = stop := by
  rw [length_recordKeys, h.add_count]

theorem add_count_le (h : RecordRange l stride start stop) : start + (stop - start) / stride * stride ≤ l.length := by
  rw [h.add_count]
  exact h.le_length

theorem exists_count (h : RecordRange l stride start stop) (hlt : start < stop) :
    ∃ n, (stop - start) / stride = n + 1 ∧ start + (n + 1) * stride = stop := by
  have hcount := h.add_count
  rcases Nat.eq_zero_or_eq_succ_pred ((stop - start) / stride) with hn | hn
  · rw [hn] at hcount
    omega
  · exact ⟨_, hn, hn ▸ hcount⟩

/-- A range that is cut between two records is two ranges, and their records follow one another. -/
theorem split (h : RecordRange l stride start stop) {cut : Nat} (hcut : start ≤ cut) (hstop : cut ≤ stop)
    (hwhole : (cut - start) % stride = 0) :
    RecordRange l stride start cut ∧ RecordRange l stride cut stop ∧
      recordKeys l stride start stop = recordKeys l stride start cut ++ recordKeys l stride cut stop := by
  have hl := h.le_length
  have hsum : stop - start = cut - start + (stop - cut) := by omega
  have hdvd : stride ∣ cut - start := Nat.dvd_of_mod_eq_zero hwhole
  have hrest : stride ∣ stop - cut := by
    have hall := Nat.dvd_of_mod_eq_zero h.whole
    rw [hsum] at hall
    exact (Nat.dvd_add_right hdvd).1 hall
  have hfirst : RecordRange l stride start cut := ⟨h.pos, hcut, by omega, hwhole⟩
  refine ⟨hfirst, ⟨h.pos, hstop, hl, Nat.mod_eq_zero_of_dvd hrest⟩, ?_⟩
  have hcount : (stop - start) / stride = (cut - start) / stride + (stop - cut) / stride := by
    rw [hsum, ← Nat.div_mul_cancel hdvd, Nat.add_comm, Nat.add_mul_div_right _ _ h.pos, Nat.mul_div_cancel _ h.pos,
      Nat.add_comm]
  rw [recordKeys, records, hcount, recordsFrom_add, hfirst.add_count, List.map_append]
  rfl

theorem last_key (h : RecordRange l stride start stop) (hlt : start < stop) (hl : stop - stride < l.length)
    (hsorted : (recordKeys l stride start stop).Pairwise (· ≤ ·)) :
    l[stop - stride] ∈ recordKeys l stride start stop ∧
      ∀ x ∈ recordKeys l stride start stop, x ≤ l[stop - stride] := by
  obtain ⟨n, -, hn⟩ := h.exists_count hlt
  rw [Nat.succ_mul] at hn
  have hpos := h.pos
  have hwhole : (stop - stride - start) % stride = 0 := by
    have hspan : stop - stride - start = n * stride := by omega
    rw [hspan, Nat.mul_mod_left]
  obtain ⟨-, -, hkeys⟩ := h.split (by omega) (by omega) hwhole
  have hone : recordKeys l stride (stop - stride) stop = [l[stop - stride]] := by
    have hspan : stop - (stop - stride) = stride := by omega
    rw [recordKeys, records, hspan, Nat.div_self hpos, recordsFrom, List.map_cons, recordKey_stretch hpos hl]
    rfl
  rw [hkeys, hone] at hsorted ⊢
  refine ⟨List.mem_append_right _ List.mem_cons_self, ?_⟩
  intro x hx
  rcases List.mem_append.1 hx with hx | hx
  · exact (List.pairwise_append.1 hsorted).2.2 x hx _ List.mem_cons_self
  · exact Std.le_of_eq (List.mem_singleton.1 hx)

end RecordRange

theorem last_of_sorted {pos next : Nat} (hlt : pos < next) (hl : next - 1 < l.length)
    (hsorted : (stretch l pos (next - pos)).Pairwise (· ≤ ·)) :
    l[next - 1] ∈ stretch l pos (next - pos) ∧ ∀ x ∈ stretch l pos (next - pos), x ≤ l[next - 1] := by
  have hle := Nat.le_of_lt hlt
  have hnext : next ≤ l.length := by omega
  rw [← recordKeys_one hle hnext] at hsorted ⊢
  exact RecordRange.last_key (.one hle hnext) hlt hl hsorted

theorem length_of_mem_recordsFrom {pos n : Nat} (h : pos + n * stride ≤ l.length) {r : Record k}
    (hr : r ∈ recordsFrom l stride n pos) : r.length = stride := by
  induction n generalizing pos with
  | zero => cases hr
  | succ n ih =>
    rw [Nat.succ_mul] at h
    rcases List.mem_cons.1 hr with rfl | hr
    · exact length_stretch (by omega)
    · exact ih (by omega) hr

theorem length_flatten_records {us : List (Record k)} (h : ∀ r ∈ us, r.length = stride) :
    us.flatten.length = us.length * stride := by
  induction us with
  | nil => simp
  | cons r us ih =>
    rw [List.flatten_cons, List.length_append, ih (fun s hs => h s (List.mem_cons_of_mem r hs)), h r List.mem_cons_self,
      List.length_cons, Nat.succ_mul, Nat.add_comm]

theorem flatten_recordsFrom (n pos : Nat) : (recordsFrom l stride n pos).flatten = stretch l pos (n * stride) := by
  induction n generalizing pos with
  | zero => rw [Nat.zero_mul, stretch_zero]; rfl
  | succ n ih => rw [recordsFrom, List.flatten_cons, ih, Nat.succ_mul, Nat.add_comm (n * stride), stretch_add]

theorem RecordRange.flatten {start stop : Nat} (h : RecordRange l stride start stop) :
    (records l stride start stop).flatten = stretch l start (stop - start) := by
  rw [records, flatten_recordsFrom, Nat.div_mul_cancel (Nat.dvd_of_mod_eq_zero h.whole)]

theorem RecordRange.length_of_mem {start stop : Nat} (h : RecordRange l stride start stop) {r : Record k}
    (hr : r ∈ records l stride start stop) : r.length = stride :=
  length_of_mem_recordsFrom (Nat.le_trans (Nat.le_of_eq h.add_count) h.le_length) hr

theorem RecordRange.length_flatten_of_perm {start stop : Nat} (h : RecordRange l stride start stop)
    {vs : List (Record k)} (hperm : vs.Perm (records l stride start stop)) : vs.flatten.length = stop - start := by
  have hle := h.le
  have hl := h.le_length
  rw [hperm.flatten.length_eq, h.flatten, length_stretch (by omega)]

theorem recordsFrom_patch {us : List (Record k)} (h : ∀ r ∈ us, r.length = stride) {l : List (Word k)} {pos : Nat}
    (hl : pos + us.length * stride ≤ l.length) : recordsFrom (patch l pos us.flatten) stride us.length pos = us := by
  induction us generalizing l pos with
  | nil => rfl
  | cons r us ih =>
    have hr := h r List.mem_cons_self
    have hus : ∀ s ∈ us, s.length = stride := fun s hs => h s (List.mem_cons_of_mem r hs)
    rw [List.length_cons, Nat.succ_mul] at hl
    have hfirst : stretch (patch l pos (r ++ us.flatten)) pos stride = r := by
      have hlen : (r ++ us.flatten).length = stride + us.length * stride := by
        rw [List.length_append, hr, length_flatten_records hus]
      have hshow : stretch (patch l (pos + 0) (r ++ us.flatten)) pos (r ++ us.flatten).length =
          patch (stretch l pos (r ++ us.flatten).length) 0 (r ++ us.flatten) :=
        stretch_patch (by omega) (by omega)
      rw [Nat.add_zero, patch_all (length_stretch (by omega))] at hshow
      have hhead := congrArg (fun m : List (Word k) => stretch m 0 stride) hshow
      simp only [stretch_stretch _ (by omega : 0 + stride ≤ (r ++ us.flatten).length), Nat.add_zero] at hhead
      rw [hhead, stretch, List.drop_zero, ← hr, List.take_left]
    have hsplit : patch l pos (r ++ us.flatten) = patch (patch l pos r) (pos + stride) us.flatten :=
      (patch_patch (by omega) (by omega) _).symm
    rw [List.length_cons, recordsFrom, List.flatten_cons, hfirst, hsplit,
      ih hus (by rw [length_patch (by omega)]; omega)]

theorem records_patch {us : List (Record k)} (hs : 0 < stride) (hus : ∀ r ∈ us, r.length = stride) {start : Nat}
    (hl : start + us.length * stride ≤ l.length) :
    records (patch l start us.flatten) stride start (start + us.length * stride) = us := by
  rw [records, Nat.add_sub_cancel_left, Nat.mul_div_cancel _ hs]
  exact recordsFrom_patch hus hl

theorem RecordRange.records_patch {start stop : Nat} (h : RecordRange l stride start stop) {vs : List (Record k)}
    (hperm : vs.Perm (records l stride start stop)) : records (patch l start vs.flatten) stride start stop = vs := by
  have hcount := h.add_count
  have hl := h.le_length
  have hlen : vs.length = (stop - start) / stride := by rw [hperm.length_eq, length_records]
  rw [records, ← hlen]
  exact recordsFrom_patch (fun r hr => h.length_of_mem (hperm.mem_iff.1 hr)) (by rw [hlen]; omega)

end PagedWords
