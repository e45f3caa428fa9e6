import PagedWords.Store.Bulk
import PagedWords.Proofs.PagedBulk

/-!
# The word list of a store

A window shows a stretch of the list of its base. A write through it patches that stretch, and nothing
before or after it.
-/
namespace PagedWords.Store
variable {k : Width} {τ : Type}

/-- The words at the positions of a store. -/
def toList : Store k → List (Word k)
  | slice ws => ws.toList
  | page p => p.words.toList
  | paged a => a.toList
  | window base low high => stretch base.toList low (high - low)
  | elementwise base => base.toList

/-- Pages are as the partition says and windows lie in their base; no memory holds `2 ^ 63` words. -/
def WellFormed : Store k → Prop
  | slice ws => ws.size < 2 ^ 63
  | page p => p.size < 2 ^ 63
  | paged a => a.WellFormed ∧ a.size < 2 ^ 63
  | window base low high => base.WellFormed ∧ low ≤ high ∧ high ≤ base.size
  | elementwise base => base.WellFormed

theorem WellFormed.window_le {base : Store k} {low high : Nat} (hs : (window base low high).WellFormed) :
    low + (high - low) ≤ base.size := by
  have hlow := hs.2.1
  have hhigh := hs.2.2
  omega

theorem windowSpan_eq {low high start stop : Nat} (hs : start ≤ stop) (hl : stop ≤ high - low) :
    windowSpan low high start stop = .ok (low + start, low + stop) := if_pos ⟨hs, hl⟩

theorem windowSpan_bind {low high start stop : Nat} {γ : Type} (hs : start ≤ stop) (hl : stop ≤ high - low)
    (K : Nat × Nat → Except Fault γ) : (windowSpan low high start stop >>= K) = K (low + start, low + stop) := by
  rw [windowSpan_eq hs hl]
  rfl

theorem windowCheck_eq {low high start stop : Nat} (hs : start ≤ stop) (hl : stop ≤ high - low) :
    windowCheck low high start stop = .ok () := if_pos ⟨hs, hl⟩

def isWritable : Store k → Bool
  | slice _ => true
  | page p => p.isWritable
  | paged a => a.isWritable
  | window base _ _ => base.isWritable
  | elementwise base => base.isWritable

/-- The second store is the first with other words to show. -/
inductive SameFrame : Store k → Store k → Prop
  | slice {ws ws' : Words k} (h : ws'.size = ws.size) : SameFrame (slice ws) (slice ws')
  | page {p p' : Page k} (h : p'.frame = p.frame) : SameFrame (page p) (page p')
  | paged {a a' : Paged k} (h : a'.frame = a.frame) : SameFrame (paged a) (paged a')
  | window {base base' : Store k} {low high : Nat} (h : SameFrame base base')
      (before : base'.toList.take low = base.toList.take low)
      (after : base'.toList.drop high = base.toList.drop high) :
      SameFrame (window base low high) (window base' low high)
  | elementwise {base base' : Store k} (h : SameFrame base base') : SameFrame (elementwise base) (elementwise base')

theorem length_toList {s : Store k} (hs : s.WellFormed) : s.toList.length = s.size := by
  induction s with
  | slice ws => exact Array.length_toList
  | page p => exact Array.length_toList
  | paged a => exact Paged.length_toList hs.1 hs.2
  | window base low high ih =>
    have hbase := ih hs.1
    have hhigh := hs.window_le
    exact length_stretch (by omega)
  | elementwise base ih => exact ih hs

theorem size_lt {s : Store k} (hs : s.WellFormed) : s.size < 2 ^ 63 := by
  induction s with
  | slice ws => exact hs
  | page p => exact hs
  | paged a => exact hs.2
  | window base low high ih =>
    have hbase := ih hs.1
    have hhigh := hs.2.2
    show high - low < 2 ^ 63
    omega
  | elementwise base ih => exact ih hs

theorem WellFormed.recordRange_base {base : Store k} {low high stride start stop : Nat}
    (hs : (window base low high).WellFormed) (hr : RecordRange (window base low high).toList stride start stop) :
    stop ≤ high - low ∧ RecordRange base.toList stride (low + start) (low + stop) := by
  have hle := hr.le_length
  have hbase := hs.window_le
  rw [length_toList hs] at hle
  exact ⟨hle, hr.of_stretch (by rw [length_toList hs.1]; exact hbase)⟩

/-- What is refused through a window is refused by the window, or for its stride by the base. -/
theorem WellFormed.refused_base {base : Store k} {low high stride start stop : Nat} {e : Error}
    (hs : (window base low high).WellFormed) (h : checkRecords start stop (high - low) stride = .error e) :
    windowCheck low high start stop = .error e ∨
      windowCheck low high start stop = .ok () ∧
        checkRecords (low + start) (low + stop) base.size stride = .error e := by
  have hhigh := hs.window_le
  by_cases hrange : start ≤ stop ∧ stop ≤ high - low
  · refine .inr ⟨if_pos hrange, ?_⟩
    rw [← h]
    exact checkRecords_congr hrange.1 hrange.2 (by omega) (by omega) stride
  · rw [checkRecords_of_outside hrange] at h
    cases h
    exact .inl (if_neg hrange)

theorem reads {s : Store k} (hs : s.WellFormed) : Cells.Reads s s.toList := by
  refine ⟨(length_toList hs).symm, ?_⟩
  induction s with
  | slice ws => exact (Words.reads ws).get
  | page p => exact (Words.reads p.words).get
  | paged a => exact (Paged.reads hs.1 hs.2).get
  | window base low high ih =>
    intro pos hpos
    have hlen := length_toList hs
    have hbase := length_toList hs.1
    have hhigh := hs.window_le
    have hlt : pos < high - low := by
      rw [hlen] at hpos
      exact hpos
    have hget := ih hs.1 (low + pos) (by omega)
    have hword : (stretch base.toList low (high - low))[pos]? = base.toList[low + pos]? := by
      rw [getElem?_stretch, if_pos hlt]
    show (window base low high).get pos = _
    rw [get, if_pos hlt]
    refine Eq.trans hget (congrArg Except.ok ?_)
    apply Option.some.inj
    rw [← List.getElem?_eq_getElem, ← List.getElem?_eq_getElem]
    exact hword.symm
  | elementwise base ih => exact ih hs

namespace SameFrame
variable {s s' s'' : Store k}

theorem refl (s : Store k) : SameFrame s s := by
  induction s with
  | slice ws => exact .slice rfl
  | page p => exact .page rfl
  | paged a => exact .paged rfl
  | window base low high ih => exact .window ih rfl rfl
  | elementwise base ih => exact .elementwise ih

theorem trans (h : SameFrame s s') (h' : SameFrame s' s'') : SameFrame s s'' := by
  induction h generalizing s'' with
  | slice h => cases h' with | slice h' => exact .slice (h'.trans h)
  | page h => cases h' with | page h' => exact .page (h'.trans h)
  | paged h => cases h' with | paged h' => exact .paged (h'.trans h)
  | window h hl hr ih => cases h' with | window h' hl' hr' => exact .window (ih h') (hl'.trans hl) (hr'.trans hr)
  | elementwise h ih => cases h' with | elementwise h' => exact .elementwise (ih h')

theorem size_eq (h : SameFrame s s') : s'.size = s.size := by
  induction h with
  | slice h => exact h
  | page h => exact Page.size_of_frame h
  | paged h => exact Paged.size_of_frame h
  | window h hl hr ih => rfl
  | elementwise h ih => exact ih

theorem isWritable_eq (h : SameFrame s s') (hw : s.isWritable = true) : s'.isWritable = true := by
  induction h with
  | slice h => rfl
  | page h => exact (Page.isWritable_of_frame h).trans hw
  | paged h => exact Paged.isWritable_of_frame h hw
  | window h hl hr ih => exact ih hw
  | elementwise h ih => exact ih hw

theorem wellFormed (h : SameFrame s s') (hs : s.WellFormed) : s'.WellFormed := by
  induction h with
  | slice h =>
    show _ < _
    rw [h]
    exact hs
  | page h =>
    show _ < _
    rw [Page.size_of_frame h]
    exact hs
  | paged h =>
    refine ⟨hs.1.of_frame h, ?_⟩
    rw [Paged.size_of_frame h]
    exact hs.2
  | window h hl hr ih =>
    refine ⟨ih hs.1, hs.2.1, ?_⟩
    rw [h.size_eq]
    exact hs.2.2
  | elementwise h ih => exact ih hs

/-- Two stores in one frame that show the same words are the same. -/
theorem eq_of_toList (h : SameFrame s s') (h' : SameFrame s s'') (hs : s.WellFormed) (hl : s'.toList = s''.toList) :
    s' = s'' := by
  induction h generalizing s'' with
  | slice h =>
    cases h' with
    | slice h' => exact congrArg Store.slice (Array.toList_inj.1 hl)
  | page h =>
    cases h' with
    | page h' => exact congrArg Store.page (Page.eq_of_frame (h.trans h'.symm) hl)
  | paged h =>
    cases h' with
    | paged h' => exact congrArg Store.paged (Paged.eq_of_toList (h.trans h'.symm) hl)
  | @window base base' low high h before after ih =>
    cases h' with
    | @window _ base'' _ _ h' before' after' =>
      have hbase : base'.toList = base''.toList := by
        rw [← take_stretch_drop base'.toList hs.2.1, ← take_stretch_drop base''.toList hs.2.1, before, before', after,
          after']
        exact congrArg (fun m => base.toList.take low ++ m ++ base.toList.drop high) hl
      rw [ih h' hs.1 hbase]
  | elementwise h ih =>
    cases h' with
    | elementwise h' => rw [ih h' hs hl]

end SameFrame

/-- A store that takes writes at all its positions. -/
structure Ready (s : Store k) : Prop where
  wellFormed : s.WellFormed
  writable : s.isWritable = true

namespace Ready
variable {s : Store k}

theorem of_sameFrame {s' : Store k} (hs : s.Ready) (h : s.SameFrame s') : s'.Ready :=
  ⟨h.wellFormed hs.wellFormed, h.isWritable_eq hs.writable⟩

theorem length_toList (hs : s.Ready) : s.toList.length = s.size := Store.length_toList hs.wellFormed

theorem page {p : Page k} (hs : (Store.page p).Ready) : p.isWritable = true := hs.writable

theorem paged {a : Paged k} (hs : (Store.paged a).Ready) : a.Ready :=
  ⟨hs.wellFormed.1, hs.wellFormed.2, hs.writable⟩

theorem base {base : Store k} {low high : Nat} (hs : (window base low high).Ready) : base.Ready :=
  ⟨hs.wellFormed.1, hs.writable⟩

theorem elementwise {base : Store k} (hs : (Store.elementwise base).Ready) : base.Ready := ⟨hs.wellFormed, hs.writable⟩

end Ready

private theorem patch_window {base base' : Store k} {low high pos : Nat} (hs : (window base low high).Ready)
    (hfr : base.SameFrame base') {m : List (Word k)} (hm : pos + m.length ≤ high - low)
    (hl : base'.toList = patch base.toList (low + pos) m) :
    SameFrame (window base low high) (window base' low high) ∧
      (window base' low high).toList = patch (window base low high).toList pos m := by
  have hlow := hs.wellFormed.2.1
  have hhigh := hs.wellFormed.window_le
  have hlen := hs.base.length_toList
  refine ⟨.window hfr ?_ ?_, ?_⟩
  · rw [hl, take_patch (by omega) (by omega)]
  · rw [hl, drop_patch (by omega) (by omega)]
  · rw [toList, hl, stretch_patch hm (by omega), toList]

/-! What an operation does to a part of a store, the store is rebuilt from. The operation may answer more than
the part: `c` holds the part, and `d` the store, in the answers. -/
section Lift
variable {γ δ : Type} {d : Store k → δ} {pos : Nat} {l m : List (Word k)}

theorem lift_slice {ws : Words k} {r : Except Fault γ} {c : Words k → γ} {K : γ → Except Fault δ}
    (hK : ∀ ws', K (c ws') = .ok (d (slice ws'))) (h : ∃ ws', r = .ok (c ws') ∧ ws'.toList = l)
    (hl : l.length = ws.size) :
    ∃ s', (r >>= K) = .ok (d s') ∧ SameFrame (slice ws) s' ∧ s'.toList = l := by
  obtain ⟨ws', rfl, hl'⟩ := h
  refine ⟨slice ws', hK ws', .slice ?_, hl'⟩
  rw [← Array.length_toList, hl', hl]

theorem lift_page {p : Page k} {r : Except Fault γ} {c : Page k → γ} {K : γ → Except Fault δ}
    (hK : ∀ p', K (c p') = .ok (d (page p'))) (h : ∃ p', r = .ok (c p') ∧ p'.frame = p.frame ∧ p'.words.toList = l) :
    ∃ s', (r >>= K) = .ok (d s') ∧ SameFrame (page p) s' ∧ s'.toList = l := by
  obtain ⟨p', rfl, hfr, hl⟩ := h
  exact ⟨page p', hK p', .page hfr, hl⟩

theorem lift_paged {a : Paged k} {r : Except Fault γ} {c : Paged k → γ} {K : γ → Except Fault δ}
    (hK : ∀ a', K (c a') = .ok (d (paged a'))) (h : ∃ a', r = .ok (c a') ∧ a'.frame = a.frame ∧ a'.toList = l) :
    ∃ s', (r >>= K) = .ok (d s') ∧ SameFrame (paged a) s' ∧ s'.toList = l := by
  obtain ⟨a', rfl, hfr, hl⟩ := h
  exact ⟨paged a', hK a', .paged hfr, hl⟩

theorem lift_window {base : Store k} {low high : Nat} (hs : (window base low high).Ready) {r : Except Fault γ}
    {c : Store k → γ} {K : γ → Except Fault δ} (hK : ∀ base', K (c base') = .ok (d (window base' low high)))
    (h : ∃ base', r = .ok (c base') ∧ base.SameFrame base' ∧ base'.toList = patch base.toList (low + pos) m)
    (hm : pos + m.length ≤ high - low) :
    ∃ s', (r >>= K) = .ok (d s') ∧ SameFrame (window base low high) s' ∧
      s'.toList = patch (window base low high).toList pos m := by
  obtain ⟨base', rfl, hfr, hl⟩ := h
  exact ⟨window base' low high, hK base', patch_window hs hfr hm hl⟩

end Lift

theorem set_spec {s : Store k} (hs : s.Ready) {pos : Nat} (hpos : pos < s.size) (w : Word k) :
    ∃ s', s.set pos w = .ok s' ∧ s.SameFrame s' ∧ s'.toList = s.toList.set pos w := by
  induction s generalizing pos with
  | slice ws =>
    have hset : ∃ ws', ws.set pos w = .ok ws' ∧ ws'.toList = ws.toList.set pos w :=
      ⟨_, Words.set_of_lt w hpos, Array.toList_set ..⟩
    exact lift_slice (fun _ => rfl) hset List.length_set
  | page p =>
    have hset : ∃ ws, p.words.set pos w = .ok ws ∧ ws.toList = p.words.toList.set pos w :=
      ⟨_, Words.set_of_lt w hpos, Array.toList_set ..⟩
    exact lift_page (fun _ => rfl) (Page.modify_spec hs.page hset (List.length_set.trans p.length_words))
  | paged a =>
    exact lift_paged (fun _ => rfl)
      (Paged.set_spec hs.paged.wellFormed hs.paged.size_lt hs.paged.writable hpos w)
  | window base low high ih =>
    have hlt : pos < high - low := hpos
    have hhigh := hs.wellFormed.window_le
    have hlen := hs.base.length_toList
    have hplace : low + pos < base.size := by omega
    have hbase := ih hs.base hplace
    rw [set_eq_patch (by omega)] at hbase
    rw [set, if_pos hlt, set_eq_patch (by rw [hs.length_toList]; exact hpos)]
    exact lift_window hs (fun _ => rfl) hbase hlt
  | elementwise base ih =>
    obtain ⟨base', hrun, hfr, hl⟩ := ih hs.elementwise hpos
    refine ⟨elementwise base', ?_, .elementwise hfr, hl⟩
    rw [set, hrun]
    rfl

/-- A store shows its words, and keeps its frame, whatever is written. -/
theorem view {s : Store k} (hs : s.Ready) : Cells.View (fun (s' : Store k) l => s.SameFrame s' ∧ s'.toList = l) := by
  constructor
  · rintro s' l ⟨hfr, rfl⟩
    exact reads (hfr.wellFormed hs.wellFormed)
  · rintro s' l pos w ⟨hfr, rfl⟩ hpos
    have hs' := hs.of_sameFrame hfr
    rw [hs'.length_toList] at hpos
    obtain ⟨s'', hset, hfr', hl⟩ := set_spec hs' hpos w
    exact ⟨s'', hset, hfr.trans hfr', hl⟩

end PagedWords.Store
