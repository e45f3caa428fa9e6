import PagedWords.Union
import PagedWords.Proofs.RecordUnion
import PagedWords.Proofs.View

/-!
# The walk along two ranges of records

The walk hands on the records of the union, one after the other. What it has written before the range is
full are the first records of the union.
-/
namespace PagedWords.Union
variable {σ ρ υ τ : Type} {k : Width} [Cells σ k] [Cells ρ k] {a : σ} {b : ρ} {la lb : List (Word k)} {stride : Nat}

def side (la lb : List (Word k)) : Side → List (Word k)
  | .first => la
  | .second => lb

private theorem readSide_eq (ha : Cells.Reads a la) (hb : Cells.Reads b lb) (s : Side) (pos : Nat)
    (h : pos < (side la lb s).length) : readSide a b s pos = .ok (side la lb s)[pos] := by
  cases s with
  | first => exact ha.get pos h
  | second => exact hb.get pos h

/-- The record `r` stands at `pos`. -/
structure Holds (l : List (Word k)) (stride pos : Nat) (r : Record k) : Prop where
  le : pos + stride ≤ l.length
  eq : stretch l pos stride = r

theorem Holds.length {l : List (Word k)} {pos : Nat} {r : Record k} (h : Holds l stride pos r) : r.length = stride := by
  rw [← h.eq, length_stretch h.le]

@[simp] theorem interleave_nil (as : List (Record k)) : interleave as [] = as := by
  cases as <;> rw [interleave]

theorem head_spec {l : List (Word k)} {stop pos n : Nat} (ha : Cells.Reads a l) (hs : 0 < stride)
    (hl : stop ≤ l.length) (hn : pos + (n + 1) * stride = stop) :
    pos < stop ∧ pos + stride + n * stride = stop ∧ ∃ r, Holds l stride pos r ∧ Cells.get a pos = .ok (recordKey r) ∧
      recordsFrom l stride (n + 1) pos = r :: recordsFrom l stride n (pos + stride) := by
  rw [Nat.succ_mul] at hn
  have hlt : pos < l.length := by omega
  refine ⟨by omega, by omega, stretch l pos stride, ⟨by omega, rfl⟩, ?_, rfl⟩
  rw [recordKey_stretch hs hlt]
  exact ha.get pos hlt

section Walk
variable (ha : Cells.Reads a la) (hb : Cells.Reads b lb) (hs : 0 < stride) {stopA stopB : Nat}
  (hla : stopA ≤ la.length) (hlb : stopB ≤ lb.length)
include ha hb hs hla hlb

/-- While a record is left the next step is that of the first record of the interleaving. -/
theorem next?_spec {posA posB nA nB : Nat} (hA : posA + nA * stride = stopA) (hB : posB + nB * stride = stopB)
    (hn : 0 < nA + nB) :
    ∃ step r nA' nB', next? (readSide a b) stride stopA stopB posA posB = .ok (some step) ∧
      step.key = recordKey r ∧ Holds (side la lb step.side) stride step.pos r ∧
      interleave (recordsFrom la stride nA posA) (recordsFrom lb stride nB posB) =
        r :: interleave (recordsFrom la stride nA' step.nextA) (recordsFrom lb stride nB' step.nextB) ∧
      step.nextA + nA' * stride = stopA ∧ step.nextB + nB' * stride = stopB ∧ nA' + nB' < nA + nB := by
  cases nA with
  | zero =>
    cases nB with
    | zero => omega
    | succ nB =>
      obtain ⟨hlt, hnext, r, hr, hget, hrecords⟩ := head_spec hb hs hlb hB
      have hend : ¬posA < stopA := by omega
      refine ⟨⟨.second, posB, recordKey r, posA, posB + stride⟩, r, 0, nB, ?_, rfl, hr, ?_, hA, hnext, by omega⟩
      · simp only [next?, readSide, hend, hlt, hget, if_true, if_false, bind, Except.bind, pure, Except.pure]
      · rw [hrecords, recordsFrom, interleave, interleave]
  | succ nA =>
    obtain ⟨hltA, hnextA, x, hx, hgetA, hrecordsA⟩ := head_spec ha hs hla hA
    cases nB with
    | zero =>
      have hend : ¬posB < stopB := by omega
      refine ⟨⟨.first, posA, recordKey x, posA + stride, posB⟩, x, nA, 0, ?_, rfl, hx, ?_, hnextA, hB, by omega⟩
      · simp only [next?, readSide, hltA, hend, hgetA, if_true, if_false, bind, Except.bind, pure, Except.pure]
      · rw [hrecordsA, recordsFrom, interleave_nil, interleave_nil]
    | succ nB =>
      obtain ⟨hltB, hnextB, y, hy, hgetB, hrecordsB⟩ := head_spec hb hs hlb hB
      rw [hrecordsA, hrecordsB, interleave]
      by_cases hxy : recordKey x < recordKey y
      · refine ⟨⟨.first, posA, recordKey x, posA + stride, posB⟩, x, nA, nB + 1, ?_, rfl, hx, ?_, hnextA, hB, by omega⟩
        · simp only [next?, readSide, hltA, hltB, hgetA, hgetB, hxy, if_true, bind, Except.bind, pure, Except.pure]
        · rw [if_pos hxy, hrecordsB]
      · by_cases hyx : recordKey y < recordKey x
        · refine ⟨⟨.second, posB, recordKey y, posA, posB + stride⟩, y, nA + 1, nB, ?_, rfl, hy, ?_, hA, hnextB,
            by omega⟩
          · simp only [next?, readSide, hltA, hltB, hgetA, hgetB, hxy, hyx, if_true, if_false, bind, Except.bind, pure,
              Except.pure]
          · rw [if_neg hxy, if_pos hyx, hrecordsA]
        · refine ⟨⟨.first, posA, recordKey x, posA + stride, posB + stride⟩, x, nA, nB, ?_, rfl, hx, ?_, hnextA, hnextB,
            by omega⟩
          · simp only [next?, readSide, hltA, hltB, hgetA, hgetB, hxy, hyx, if_true, if_false, bind, Except.bind, pure,
              Except.pure]
          · rw [if_neg hxy, if_neg hyx]

variable {emit : τ → Side → Nat → Except Fault (Except Error Unit × τ)} {R : List (Record k) → τ → Prop}
  {E : Error → τ → Prop}

private theorem walkFrom_of_step
    (step : ∀ r rest t s pos, Holds (side la lb s) stride pos r → R (r :: rest) t →
      ∃ res, emit t s pos = .ok res ∧ Ends (R rest) E res) (fuel : Nat) :
    ∀ {posA posB nA nB : Nat} {last : Option (Word k)} {t : τ}, posA + nA * stride = stopA →
      posB + nB * stride = stopB → nA + nB ≤ fuel →
      R (dropRepeats last (interleave (recordsFrom la stride nA posA) (recordsFrom lb stride nB posB))) t →
      ∃ res, walkFrom (fun _ => readSide a b) stride stopA stopB emit fuel posA posB last t = .ok res ∧
        Ends (R []) E res := by
  have hdone : ∀ {nA nB posA posB : Nat} {last : Option (Word k)}, nA + nB = 0 →
      dropRepeats last (interleave (recordsFrom la stride nA posA) (recordsFrom lb stride nB posB)) = [] := by
    intro nA nB posA posB last hzero
    obtain ⟨rfl, rfl⟩ : nA = 0 ∧ nB = 0 := by omega
    rw [recordsFrom, recordsFrom, interleave, dropRepeats]
  induction fuel with
  | zero =>
    intro posA posB nA nB last t hA hB hfuel hR
    rw [hdone (by omega)] at hR
    exact ⟨(.ok (), t), rfl, hR⟩
  | succ fuel ih =>
    intro posA posB nA nB last t hA hB hfuel hR
    rcases Nat.eq_zero_or_pos (nA + nB) with hzero | hpos
    · rw [hdone hzero] at hR
      obtain ⟨rfl, rfl⟩ : nA = 0 ∧ nB = 0 := by omega
      have hendA : ¬posA < stopA := by omega
      have hendB : ¬posB < stopB := by omega
      refine ⟨(.ok (), t), ?_, hR⟩
      simp only [walkFrom, next?, hendA, hendB, if_false, bind, Except.bind, pure, Except.pure]
    · obtain ⟨st, r, nA', nB', hnext, hkey, hr, hrecords, hA', hB', hless⟩ := next?_spec ha hb hs hla hlb hA hB hpos
      rw [hrecords, dropRepeats, ← hkey] at hR
      simp only [walkFrom, hnext, bind, Except.bind]
      by_cases hlast : last = some st.key
      · rw [if_pos hlast] at hR ⊢
        exact ih hA' hB' (by omega) hR
      · rw [if_neg hlast] at hR ⊢
        obtain ⟨⟨res, t'⟩, hemit, hends⟩ := step r _ t st.side st.pos hr hR
        rw [hemit]
        cases res with
        | error e => exact ⟨(.error e, t'), rfl, hends⟩
        | ok u => exact ih hA' hB' (by omega) hends

end Walk

section Ranges
variable (ha : Cells.Reads a la) (hb : Cells.Reads b lb) {startA stopA startB stopB : Nat}
  (hA : RecordRange la stride startA stopA) (hB : RecordRange lb stride startB stopB)
include ha hb hA hB

theorem walk_of_step (emit : τ → Side → Nat → Except Fault (Except Error Unit × τ)) {R : List (Record k) → τ → Prop}
    {E : Error → τ → Prop}
    (step : ∀ r rest t s pos, Holds (side la lb s) stride pos r → R (r :: rest) t →
      ∃ res, emit t s pos = .ok res ∧ Ends (R rest) E res) {t : τ}
    (h : R (unite (records la stride startA stopA) (records lb stride startB stopB)) t) :
    ∃ res, walk (fun _ => readSide a b) stride startA stopA startB stopB emit t = .ok res ∧ Ends (R []) E res :=
  walkFrom_of_step ha hb hA.pos hA.le_length hB.le_length step _ hA.add_count hB.add_count (Nat.le_refl _) h

theorem count_spec : count a b stride startA stopA startB stopB =
    .ok (unite (records la stride startA stopA) (records lb stride startB stopB)).length := by
  obtain ⟨⟨res, n⟩, hrun, hends⟩ := walk_of_step ha hb hA hB (fun n _ _ => .ok (.ok (), n + 1))
    (t := 0) (E := fun _ _ => False)
    (R := fun rest n =>
      n + rest.length = (unite (records la stride startA stopA) (records lb stride startB stopB)).length)
    (by
      intro r rest n s pos hr hR
      refine ⟨(.ok (), n + 1), rfl, ?_⟩
      rw [List.length_cons] at hR
      show n + 1 + rest.length = _
      omega)
    (Nat.zero_add _)
  rw [count, hrun]
  cases res with
  | error e => exact hends.elim
  | ok u => exact congrArg Except.ok hends

end Ranges

private theorem copyRecord_eq [Cells υ k] {l : List (Word k)} {read : Nat → Except Fault (Word k)}
    (hread : ∀ (pos : Nat) (h : pos < l.length), read pos = .ok l[pos]) (n : Nat) :
    ∀ {pos : Nat} (place : Nat) (out : υ), pos + n ≤ l.length →
      copyRecord (fun _ => read) Cells.set n pos place out = Cells.writeList (stretch l pos n) out place := by
  induction n with
  | zero =>
    intro pos place out _
    rfl
  | succ n ih =>
    intro pos place out hn
    have hlt : pos < l.length := by omega
    rw [stretch_succ n hlt]
    simp only [copyRecord, hread pos hlt, Cells.writeList, bind, Except.bind]
    cases Cells.set out place l[pos] with
    | error e => rfl
    | ok out' => exact ih (place + 1) out' (by omega)

/-- Writes the next record of a union at `t.2`, where it fits. -/
def writeNext (read : υ → Side → Nat → Except Fault (Word k)) (write : υ → Nat → Word k → Except Fault υ)
    (stride start stop : Nat) (t : υ × Nat) (s : Side) (pos : Nat) : Except Fault (Except Error Unit × υ × Nat) :=
  if stop < t.2 + stride then
    .ok (.error (.destinationTooSmall (t.2 + stride - start) (stop - start)), t)
  else do
    let out ← copyRecord (fun out => read out s) write stride pos t.2 t.1
    return (.ok (), out, t.2 + stride)

theorem mergeOver_eq (read : υ → Side → Nat → Except Fault (Word k)) (write : υ → Nat → Word k → Except Fault υ)
    (out : υ) (stride start stop startA stopA startB stopB : Nat) :
    mergeOver read write out stride start stop startA stopA startB stopB =
      (walk (fun t => read t.1) stride startA stopA startB stopB (writeNext read write stride start stop)
        (out, start)).map fun res => (res.1.map fun _ => res.2.2 - start, res.2.1) := by
  show (walk (fun t => read t.1) stride startA stopA startB stopB (writeNext read write stride start stop)
    (out, start)).bind _ = _
  cases walk (fun t => read t.1) stride startA stopA startB stopB (writeNext read write stride start stop)
    (out, start) with
  | error e => rfl
  | ok res =>
    obtain ⟨r, out', place⟩ := res
    cases r <;> rfl

section Merge
variable {V : υ → List (Word k) → Prop} {lo : List (Word k)} {start stop : Nat}

/-- The records `done` have been written, and the next one goes to `t.2`. -/
structure Written (V : υ → List (Word k) → Prop) (lo : List (Word k)) (stride start stop : Nat)
    (done : List (Record k)) (t : υ × Nat) : Prop where
  place : t.2 = start + done.length * stride
  fits : t.2 ≤ stop
  words : done.flatten.length = done.length * stride
  shows : V t.1 (patch lo start done.flatten)

/-- Of the records `us`, all but `rest` have been written. -/
def Underway (V : υ → List (Word k) → Prop) (lo : List (Word k)) (stride start stop : Nat) (us rest : List (Record k))
    (t : υ × Nat) : Prop :=
  ∃ done, done ++ rest = us ∧ Written V lo stride start stop done t

/-- Some of the records `us` have been written, and the next one reaches beyond the range. -/
def Overfull (V : υ → List (Word k) → Prop) (lo : List (Word k)) (stride start stop : Nat) (us : List (Record k))
    (e : Error) (t : υ × Nat) : Prop :=
  ∃ done r rest, done ++ r :: rest = us ∧ Written V lo stride start stop done t ∧ stop < t.2 + stride ∧
    e = .destinationTooSmall (t.2 + stride - start) (stop - start)

private theorem Written.length_le {done : List (Record k)} {t : υ × Nat} (h : Written V lo stride start stop done t)
    (hs : 0 < stride) : done.length ≤ (stop - start) / stride := by
  have hplace := h.place
  have hfits := h.fits
  exact (Nat.le_div_iff_mul_le hs).2 (by omega)

variable [Cells υ k]

private theorem Written.push (hV : Cells.View V) (hl : stop ≤ lo.length) (ha : Cells.Reads a la) (hb : Cells.Reads b lb)
    {done : List (Record k)} {out : υ} {place : Nat} (h : Written V lo stride start stop done (out, place)) {s : Side}
    {pos : Nat} {r : Record k} (hr : Holds (side la lb s) stride pos r) (hroom : place + stride ≤ stop) :
    ∃ out', copyRecord (fun _ => readSide a b s) Cells.set stride pos place out = .ok out' ∧
      Written V lo stride start stop (done ++ [r]) (out', place + stride) := by
  have hplace : place = start + done.length * stride := h.place
  have hwords := h.words
  have hlen := hr.length
  have hbound : start + done.flatten.length ≤ lo.length := by omega
  obtain ⟨out', hrun, hout'⟩ := hV.writeList r place h.shows (by rw [length_patch hbound]; omega)
  rw [patch_patch (by omega) (by omega)] at hout'
  have hcount : (done ++ [r]).length * stride = done.length * stride + stride := by
    rw [List.length_append, List.length_singleton, Nat.succ_mul]
  refine ⟨out', ?_, ⟨?_, hroom, ?_, ?_⟩⟩
  · rw [copyRecord_eq (readSide_eq ha hb s) stride place out hr.le, hr.eq, hrun]
  · rw [hcount]
    show place + stride = _
    omega
  · rw [hcount, List.flatten_append, List.length_append, List.flatten_singleton, hlen, hwords]
  · rw [List.flatten_append, List.flatten_singleton]
    exact hout'

theorem writeNext_spec (hV : Cells.View V) (hl : stop ≤ lo.length) (ha : Cells.Reads a la) (hb : Cells.Reads b lb)
    {us rest : List (Record k)} {r : Record k} {t : υ × Nat} (h : Underway V lo stride start stop us (r :: rest) t)
    {s : Side} {pos : Nat} (hr : Holds (side la lb s) stride pos r) :
    ∃ res, writeNext (fun _ => readSide a b) Cells.set stride start stop t s pos = .ok res ∧
      Ends (Underway V lo stride start stop us rest) (Overfull V lo stride start stop us) res := by
  obtain ⟨done, hdone, hw⟩ := h
  obtain ⟨out, place⟩ := t
  by_cases hroom : stop < place + stride
  · exact ⟨_, if_pos hroom, done, r, rest, hdone, hw, hroom, rfl⟩
  · obtain ⟨out', hcopy, hw'⟩ := hw.push hV hl ha hb hr (Nat.le_of_not_lt hroom)
    refine ⟨(.ok (), out', place + stride), ?_, done ++ [r], ?_, hw'⟩
    · simp only [writeNext, if_neg hroom, hcopy, bind, Except.bind, pure, Except.pure]
    · rw [List.append_assoc]
      exact hdone

variable (ha : Cells.Reads a la) (hb : Cells.Reads b lb) {startA stopA startB stopB : Nat}
  (hA : RecordRange la stride startA stopA) (hB : RecordRange lb stride startB stopB) (hV : Cells.View V)
  (hl : stop ≤ lo.length) {us : List (Record k)}
  (hus : us = unite (records la stride startA stopA) (records lb stride startB stopB))
include ha hb hA hB hV hl hus

/-- As many records of the union are written as there is room for; if one is left over, the end of the next is
asked for. -/
theorem merge_spec {out : υ} (hout : V out lo) (hle : start ≤ stop) {room : Nat}
    (hroom : room = (stop - start) / stride) :
    ∃ out', merge out a b stride start stop startA stopA startB stopB =
        .ok (if us.length ≤ room then .ok (us.length * stride)
          else .error (.destinationTooSmall ((room + 1) * stride) (stop - start)), out') ∧
      V out' (patch lo start (us.take room).flatten) := by
  have hstart : Underway V lo stride start stop us
      (unite (records la stride startA stopA) (records lb stride startB stopB)) (out, start) :=
    ⟨[], hus.symm, ⟨by simp, hle, by simp, by simpa using hout⟩⟩
  obtain ⟨⟨res, out', place⟩, hrun, hends⟩ := walk_of_step ha hb hA hB
    (writeNext (fun _ => readSide a b) Cells.set stride start stop) (E := Overfull V lo stride start stop us)
    (fun r rest t s pos hr h => writeNext_spec hV hl ha hb h hr) hstart
  refine ⟨out', ?_⟩
  rw [merge, mergeOver_eq, hrun]
  cases res with
  | ok u =>
    obtain ⟨done, hdone, hw⟩ := hends
    rw [List.append_nil] at hdone
    subst hdone
    have hplace : place = start + done.length * stride := hw.place
    have hfew : done.length ≤ room := hroom ▸ hw.length_le hA.pos
    have hcount : place - start = done.length * stride := by omega
    rw [if_pos hfew, List.take_of_length_le hfew, ← hcount]
    exact ⟨rfl, hw.shows⟩
  | error e =>
    obtain ⟨done, r, rest, hdone, hw, hover, rfl⟩ := hends
    have hplace : place = start + done.length * stride := hw.place
    have hover : stop < place + stride := hover
    have hfull : done.length = room := by
      have hfew : done.length ≤ room := hroom ▸ hw.length_le hA.pos
      have hlt : room < done.length + 1 := by
        rw [hroom]
        exact (Nat.div_lt_iff_lt_mul hA.pos).2 (by rw [Nat.succ_mul]; omega)
      omega
    have hmany : ¬us.length ≤ room := by
      rw [← hdone, List.length_append, List.length_cons]
      omega
    have hneed : place + stride - start = (room + 1) * stride := by
      rw [Nat.succ_mul, ← hfull]
      omega
    rw [if_neg hmany, ← hneed, ← hdone, List.take_left' hfull]
    exact ⟨rfl, hw.shows⟩

end Merge

end PagedWords.Union
