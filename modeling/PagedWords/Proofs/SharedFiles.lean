import PagedWords.Files.Sharing
import PagedWords.Proofs.FlatUnions
import PagedWords.Proofs.Mappings

/-!
# Unions whose outcome lies in a file of their operands

As long as the operands show no place that is written, what is written shows nowhere else, and the union is that of
stores that share nothing.
-/
namespace PagedWords
variable {k : Width}

namespace Union
variable {α τ τ' υ υ' : Type}

/-- Two runs in step: they end alike, the second one in the image of a state that the first one keeps to. -/
inductive InStep (φ : τ → τ') (Keeps : τ → Prop) : Except Fault (α × τ) → Except Fault (α × τ') → Prop
  | error (e : Fault) : InStep φ Keeps (.error e) (.error e)
  | ok (a : α) {t : τ} (h : Keeps t) : InStep φ Keeps (.ok (a, t)) (.ok (a, φ t))

private theorem walkFrom_inStep {φ : τ → τ'} {Keeps : τ → Prop} {read : τ → Side → Nat → Except Fault (Word k)}
    {read' : τ' → Side → Nat → Except Fault (Word k)} {emit : τ → Side → Nat → Except Fault (Except Error Unit × τ)}
    {emit' : τ' → Side → Nat → Except Fault (Except Error Unit × τ')}
    (hread : ∀ t, Keeps t → read' (φ t) = read t)
    (hemit : ∀ t s pos, Keeps t → InStep φ Keeps (emit t s pos) (emit' (φ t) s pos)) (stride stopA stopB fuel : Nat) :
    ∀ (posA posB : Nat) (last : Option (Word k)) {t : τ}, Keeps t →
      InStep φ Keeps (walkFrom read stride stopA stopB emit fuel posA posB last t)
        (walkFrom read' stride stopA stopB emit' fuel posA posB last (φ t)) := by
  induction fuel with
  | zero => exact fun _ _ _ _ ht => .ok _ ht
  | succ fuel ih =>
    intro posA posB last t ht
    simp only [walkFrom, hread t ht]
    cases next? (read t) stride stopA stopB posA posB with
    | error e => exact .error e
    | ok st =>
      cases st with
      | none => exact .ok _ ht
      | some st =>
        by_cases hlast : last = some st.key
        · simp only [if_pos hlast, bind, Except.bind]
          exact ih _ _ _ ht
        · simp only [if_neg hlast, bind, Except.bind]
          have hstep := hemit t st.side st.pos ht
          generalize emit t st.side st.pos = x at hstep
          generalize emit' (φ t) st.side st.pos = x' at hstep
          cases hstep with
          | error e => exact .error e
          | ok r ht' =>
            cases r with
            | error e => exact .ok _ ht'
            | ok u => exact ih _ _ _ ht'

/-- What is written at a place of `start..stop` by the one, is written there by the other. -/
def WritesAlike (φ : υ → υ') (Keeps : υ → Prop) (start stop : Nat) (write : υ → Nat → Word k → Except Fault υ)
    (write' : υ' → Nat → Word k → Except Fault υ') : Prop :=
  ∀ out pos w, Keeps out → start ≤ pos → pos < stop →
    ∃ out', write out pos w = .ok out' ∧ write' (φ out) pos w = .ok (φ out') ∧ Keeps out'

section Embedding
variable {φ : υ → υ'} {Keeps : υ → Prop} {start stop : Nat} {write : υ → Nat → Word k → Except Fault υ}
  {write' : υ' → Nat → Word k → Except Fault υ'} (hwrite : WritesAlike φ Keeps start stop write write')
include hwrite

private theorem copyRecord_inStep (read : υ → Nat → Except Fault (Word k)) (read' : υ' → Nat → Except Fault (Word k))
    (hread : ∀ out, Keeps out → read' (φ out) = read out) (n : Nat) :
    ∀ (pos : Nat) {place : Nat} {out : υ}, Keeps out → start ≤ place → place + n ≤ stop →
      (∃ e, copyRecord read write n pos place out = .error e ∧
        copyRecord read' write' n pos place (φ out) = .error e) ∨
      ∃ out', copyRecord read write n pos place out = .ok out' ∧
        copyRecord read' write' n pos place (φ out) = .ok (φ out') ∧ Keeps out' := by
  induction n with
  | zero => exact fun _ _ out hout _ _ => .inr ⟨out, rfl, rfl, hout⟩
  | succ n ih =>
    intro pos place out hout hstart hstop
    simp only [copyRecord, hread out hout]
    cases read out pos with
    | error e => exact .inl ⟨e, rfl, rfl⟩
    | ok w =>
      obtain ⟨out', hset, hset', hout'⟩ := hwrite out place w hout hstart (by omega)
      simp only [hset, hset', bind, Except.bind]
      exact ih (pos + 1) hout' (by omega) (by omega)

private theorem writeNext_inStep (read : υ → Side → Nat → Except Fault (Word k))
    (read' : υ' → Side → Nat → Except Fault (Word k)) (hread : ∀ out, Keeps out → read' (φ out) = read out)
    (stride : Nat) (t : υ × Nat) (s : Side) (pos : Nat) (ht : Keeps t.1 ∧ start ≤ t.2) :
    InStep (Prod.map φ id) (fun t => Keeps t.1 ∧ start ≤ t.2) (writeNext read write stride start stop t s pos)
      (writeNext read' write' stride start stop (Prod.map φ id t) s pos) := by
  obtain ⟨out, place⟩ := t
  obtain ⟨hout, hplace⟩ := ht
  by_cases hroom : stop < place + stride
  · simp only [writeNext, Prod.map, id, if_pos hroom]
    exact .ok _ ⟨hout, hplace⟩
  · simp only [writeNext, Prod.map, id, if_neg hroom]
    have hside : ∀ out, Keeps out → read' (φ out) s = read out s := fun out hout => congrFun (hread out hout) s
    rcases copyRecord_inStep hwrite (fun out => read out s) (fun out => read' out s) hside stride pos hout hplace
      (by omega) with
      ⟨e, hrun, hrun'⟩ | ⟨out', hrun, hrun', hout'⟩
    · rw [hrun, hrun']
      exact .error e
    · have hnext : Keeps out' ∧ start ≤ place + stride := ⟨hout', Nat.le_add_right_of_le hplace⟩
      rw [hrun, hrun']
      exact InStep.ok (Except.ok () : Except Error Unit) (t := (out', place + stride)) hnext

theorem mergeOver_inStep (read : υ → Side → Nat → Except Fault (Word k))
    (read' : υ' → Side → Nat → Except Fault (Word k)) (hread : ∀ out, Keeps out → read' (φ out) = read out) {out : υ}
    (hout : Keeps out) (stride startA stopA startB stopB : Nat) :
    InStep φ Keeps (mergeOver read write out stride start stop startA stopA startB stopB)
      (mergeOver read' write' (φ out) stride start stop startA stopA startB stopB) := by
  have hwalk : InStep (Prod.map φ id) (fun t : υ × Nat => Keeps t.1 ∧ start ≤ t.2)
      (walk (fun t => read t.1) stride startA stopA startB stopB (writeNext read write stride start stop) (out, start))
      (walk (fun t => read' t.1) stride startA stopA startB stopB (writeNext read' write' stride start stop)
        (φ out, start)) :=
    walkFrom_inStep (fun t ht => hread t.1 ht.1) (writeNext_inStep hwrite read read' hread stride) stride stopA stopB _
      startA startB none ⟨hout, Nat.le_refl start⟩
  rw [mergeOver_eq, mergeOver_eq]
  generalize walk (fun t => read t.1) stride startA stopA startB stopB (writeNext read write stride start stop)
    (out, start) = x at hwalk ⊢
  generalize walk (fun t => read' t.1) stride startA stopA startB stopB (writeNext read' write' stride start stop)
    (φ out, start) = x' at hwalk ⊢
  cases hwalk with
  | error e => exact .error e
  | ok r ht => exact .ok _ ht.1

theorem combineFrom_inStep (readDest readSource : υ → Nat → Except Fault (Word k))
    (readDest' readSource' : υ' → Nat → Except Fault (Word k))
    (hdest : ∀ out, Keeps out → readDest' (φ out) = readDest out)
    (hsource : ∀ out, Keeps out → readSource' (φ out) = readSource out) (f : τ → Word k → Word k → Word k × τ)
    (stopS fuel : Nat) :
    ∀ {pos m : Nat} (posS : Nat) {out : υ} (n : Nat) (t : τ), Keeps out → start ≤ pos → pos + m * 2 = stop →
      InStep (Prod.map φ id) (fun s : υ × τ => Keeps s.1)
        (combineFrom readDest readSource write f stop stopS fuel pos posS out n t)
        (combineFrom readDest' readSource' write' f stop stopS fuel pos posS (φ out) n t) := by
  induction fuel with
  | zero => exact fun _ out n t hout _ _ => InStep.ok n (t := (_, t)) hout
  | succ fuel ih =>
    intro pos m posS out n t hout hpos hm
    by_cases hmore : pos < stop ∧ posS < stopS
    · obtain ⟨m, rfl⟩ : ∃ i, m = i + 1 := ⟨m - 1, by omega⟩
      have hnext : pos + 2 + m * 2 = stop := by omega
      simp only [combineFrom, if_pos hmore, hdest out hout, hsource out hout]
      cases readDest out pos with
      | error e => exact .error e
      | ok x =>
        cases readSource out posS with
        | error e => exact .error e
        | ok y =>
          simp only [bind, Except.bind]
          split
          · exact ih _ n t hout (by omega) hnext
          split
          · exact ih _ n t hout hpos hm
          cases readDest out (pos + 1) with
          | error e => exact .error e
          | ok v =>
            cases readSource out (posS + 1) with
            | error e => exact .error e
            | ok v' =>
              obtain ⟨out', hset, hset', hout'⟩ := hwrite out (pos + 1) (f t v v').1 hout (by omega) (by omega)
              simp only [hset, hset']
              exact ih _ _ _ hout' (by omega) hnext
    · simp only [combineFrom, if_neg hmore]
      exact InStep.ok n (t := (out, t)) hout

end Embedding
end Union

namespace Page
variable {p p' : Page k} {place : FilePlace}

/-- The page shows the place of no word at `place`. -/
def Misses (p : Page k) (place : FilePlace) : Prop :=
  ∀ r, p.region = some r → r.file = place.file → place.offset < r.offset ∨ r.offset + p.size * k.bytes ≤ place.offset

private theorem see_of_misses (h : p.Misses place) (w : Word k) : p.see place w = p := by
  obtain ⟨ws, region⟩ := p
  cases region with
  | none => rfl
  | some r =>
    rw [see]
    split
    · next hplace =>
      have hapart : place.offset < r.offset ∨ r.offset + ws.size * k.bytes ≤ place.offset := h r rfl hplace.1
      have hbeyond : ws.size * k.bytes ≤ place.offset - r.offset := by omega
      have hout : ws.size ≤ (place.offset - r.offset) / k.bytes := (Nat.le_div_iff_mul_le k.bytes_pos).2 hbeyond
      rw [Array.setIfInBounds_eq_of_size_le hout]
    · rfl

end Page

namespace Store
variable {s out out' : Store k} {place : FilePlace}

/-- None of the pages shows a word at `place`. -/
def Misses (place : FilePlace) : Store k → Prop
  | slice _ => True
  | page p => p.Misses place
  | paged a => ∀ p ∈ a.pages, p.Misses place
  | window base _ _ => base.Misses place
  | elementwise base => base.Misses place

private theorem see_of_misses (h : s.Misses place) (w : Word k) : s.see place w = s := by
  induction s with
  | slice ws => rfl
  | page p => rw [see, Page.see_of_misses h]
  | paged a =>
    have hpages : a.pages.map (fun p => p.see place w) = a.pages.map id :=
      Array.map_congr_left fun p hp => Page.see_of_misses (h p hp) w
    rw [see, hpages, Array.map_id]
  | window base low high ih => rw [see, ih h]
  | elementwise base ih => rw [see, ih h]

theorem SameFrame.place?_eq (h : out.SameFrame out') (pos : Nat) : out'.place? pos = out.place? pos := by
  induction h generalizing pos with
  | slice h => rfl
  | @page p p' h =>
    have hregion : p'.region = p.region := congrArg Prod.snd h
    simp only [place?, Page.place?, hregion]
  | @paged a a' h =>
    have hframe : ∀ (a : Paged k) (i offset : Nat), (a.pages[i]?).bind (fun p => p.place? offset) =
        ((a.pages.map Page.frame)[i]?).bind (fun fr => fr.2.map (fun r => ⟨r.file, r.offset + offset * k.bytes⟩)) := by
      intro a i offset
      rw [Array.getElem?_map]
      cases a.pages[i]? <;> rfl
    rw [place?, place?, hframe, hframe, Paged.pages_of_frame h, Paged.partition_of_frame h]
  | window h _ _ ih => exact ih _
  | elementwise h ih => exact ih pos

/-- None of the words at `start..stop` lies where `s` shows it. -/
def Apart (out : Store k) (start stop : Nat) (s : Store k) : Prop :=
  ∀ pos place, start ≤ pos → pos < stop → out.place? pos = some place → s.Misses place

/-- Mappings of ranges that do not meet are apart. -/
theorem apart_of_maps {q q' : Partition} {f f' : OpenFile} {first first' n n' start stop : Nat}
    {access access' : Access} {a b : Paged k} (ha : Paged.Maps q f first n access a)
    (hb : Paged.Maps q' f' first' n' access' b) (hn' : n' < 2 ^ 63)
    (h : f.name ≠ f'.name ∨ first + stop ≤ first' ∨ first' + n' ≤ first + start) :
    (paged a).Apart start stop (paged b) := by
  intro pos place hstart hstop hpos p' hp' r hr hfile
  obtain ⟨p, hp, hplace⟩ := Option.bind_eq_some_iff.1 hpos
  rw [Page.place?, ha.region _ p hp, Option.map_some, Option.some.injEq, ha.partition] at hplace
  have hword : place.offset = (first + pos) * k.bytes := by
    rw [← hplace, ← Nat.add_mul, Nat.add_assoc, Partition.page_mul_add_offset]
  have hname : place.file = f.name := by rw [← hplace]
  obtain ⟨j, hj⟩ := Array.mem_iff_getElem?.1 hp'
  cases hr.symm.trans (hb.region j p' hj)
  have hsize := Paged.page_size hb.wellFormed (by rw [hb.size]; exact hn') hj
  have hpage : j * q'.pageSize < n' := by
    have hlt := Paged.pageStart_lt_size hb.wellFormed (Array.getElem?_eq_some_iff.1 hj).1
    rwa [hb.partition, hb.size] at hlt
  rw [hb.partition, hb.size] at hsize
  rw [hword]
  rcases h with hother | hbefore | hafter
  · exact absurd (hname.symm.trans hfile.symm) hother
  · exact .inl (Nat.mul_lt_mul_of_pos_right (by omega) k.bytes_pos)
  · rw [← Nat.add_mul]
    exact .inr (Nat.mul_le_mul_right _ (by omega))

section Write
variable {stop start : Nat} (hout : out.Ready) (hl : stop ≤ out.size)
include hout hl

theorem write_alike {first second : Store k} (hfirst : out.Apart start stop first)
    (hsecond : out.Apart start stop second) :
    Union.WritesAlike (fun out => (⟨out, first, second⟩ : Joint k)) (fun out' => out.SameFrame out') start stop
      Cells.set Joint.write := by
  intro out' pos w hfr hstart hstop
  obtain ⟨out'', hset, hfr', -⟩ := set_spec (hout.of_sameFrame hfr) (by rw [hfr.size_eq]; omega : pos < out'.size) w
  refine ⟨out'', hset, ?_, hfr.trans hfr'⟩
  have hplace : out''.place? pos = out.place? pos := (hfr.trans hfr').place?_eq pos
  simp only [Joint.write, hset, hplace, bind, Except.bind]
  cases hpos : out.place? pos with
  | none => rfl
  | some place =>
    simp only [see_of_misses (hfirst pos place hstart hstop hpos), see_of_misses (hsecond pos place hstart hstop hpos)]
    rfl

end Write

section Union
variable {a b source : Operand k} {dest : Store k} {stride start stop : Nat}

/-- The union is written as if the operands shared no file with the destination, if they show none of the words that are
written. -/
theorem mergeSharing_eq_mergeInto (hout : out.Ready) (ha : a.store.WellFormed) (hb : b.store.WellFormed)
    (hstride : stride < 2 ^ 63) (hapart : out.Apart start stop a.store) (hapart' : out.Apart start stop b.store) :
    out.mergeSharing start stop a b stride = out.mergeInto start stop a b stride := by
  rw [mergeSharing]
  split
  swap
  · rfl
  rcases checkMerge_cases ha hb hstride out start stop with ⟨e, hcheck⟩ | ⟨⟨hle, hl⟩, hasc, hasc', hroom⟩
  · rw [mergeInto_of_refused hcheck, hcheck]
    rfl
  obtain ⟨out', hrun, hfr, hwords⟩ := mergeInto_eq hout hasc hasc' hstride hle hl hroom
  obtain ⟨out'', hmerge, hfr', hwords'⟩ := merge_eq hout hasc hasc' hle hl
  cases hfr.eq_of_toList hfr' hout.wellFormed (hwords.trans hwords'.symm)
  have hstep : Union.InStep (fun out => (⟨out, a.store, b.store⟩ : Joint k)) (fun s => out.SameFrame s)
      (Union.merge out a.store b.store stride start stop a.start a.stop b.start b.stop)
      (Union.mergeOver Joint.read Joint.write ⟨out, a.store, b.store⟩ stride start stop a.start a.stop b.start
        b.stop) :=
    Union.mergeOver_inStep (write_alike hout hl hapart hapart') (fun _ => Union.readSide a.store b.store) Joint.read
      (fun _ _ => rfl) (.refl out) stride a.start a.stop b.start b.stop
  rw [hmerge] at hstep
  rw [hrun, checkMerge_eq hasc hasc' hstride hle hl hroom]
  simp only [bind, Except.bind]
  generalize Union.mergeOver Joint.read Joint.write ⟨out, a.store, b.store⟩ stride start stop a.start a.stop b.start
    b.stop = x at hstep ⊢
  cases hstep
  rfl

/-- Values are combined as if the source shared no file with the destination, if it shows none of the words that are
written. -/
theorem mergeValuesSharing_eq_mergeValues {τ : Type} (hdest : dest.Ready) (hsource : source.store.WellFormed)
    (hapart : dest.Apart start stop source.store) (f : τ → Word k → Word k → Word k × τ) (t : τ) :
    dest.mergeValuesSharing start stop source f t = dest.mergeValues start stop source f t := by
  rw [mergeValuesSharing]
  split
  swap
  · rfl
  have htarget : (⟨dest, start, stop⟩ : Operand k).store.WellFormed := hdest.wellFormed
  rcases Operand.checkInputs_cases htarget hsource (by decide : 2 < 2 ^ 63) with ⟨e, -, hcheck⟩ | ⟨hasc, hasc'⟩
  · simp only [mergeValues, hcheck, bind, Except.bind, pure, Except.pure]
  obtain ⟨dest', hrun, hfr, hwords⟩ := mergeValues_eq (f := f) hdest hasc hasc' t rfl
  obtain ⟨dest'', hcombine, hfr', hwords'⟩ := combine_eq (f := f) hdest hasc hasc' t rfl
  cases hfr.eq_of_toList hfr' hdest.wellFormed (hwords.trans hwords'.symm)
  have hl : stop ≤ dest.size := hasc.stop_le
  have hstep : Union.InStep (Prod.map (fun dest => (⟨dest, source.store, source.store⟩ : Joint k)) id)
      (fun s => dest.SameFrame s.1)
      (Union.combine dest source.store f t start stop source.start source.stop)
      (Union.combineOver (fun j pos => j.out.get pos) (fun j pos => j.read .second pos) Joint.write
        ⟨dest, source.store, source.store⟩ f t start stop source.start source.stop) :=
    Union.combineFrom_inStep (write_alike hdest hl hapart hapart) Cells.get (fun _ => Cells.get source.store)
      (fun j => j.out.get) (fun j => j.read .second) (fun _ _ => rfl) (fun _ _ => rfl) f source.stop _ source.start 0 t
      (.refl dest) (Nat.le_refl start) hasc.range.add_count
  rw [hcombine] at hstep
  rw [hrun, Operand.checkInputs_eq hasc hasc' (by decide)]
  simp only [bind, Except.bind]
  generalize Union.combineOver (fun (j : Joint k) pos => j.out.get pos) (fun j pos => j.read .second pos) Joint.write
    ⟨dest, source.store, source.store⟩ f t start stop source.start source.stop = x at hstep ⊢
  cases hstep
  rfl

end Union

end Store
end PagedWords
