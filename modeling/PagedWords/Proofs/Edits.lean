import PagedWords.Requests
import PagedWords.Proofs.Creation
import PagedWords.Proofs.StoreBulk
import Mathlib.Data.List.GetD

/-!
# Histories of edits

A history is a list of edits whose callbacks share a state. On every store it does what it does to the list
of the words, so an array in pages, the same words in one piece and a store of single words cannot be told
apart.
-/
namespace PagedWords
variable {k : Width} {τ σ : Type}

namespace Edit

/-- Positions lie below `size`, ranges are ranges, and two records are the same or disjoint. -/
def Within (size : Nat) : Edit k τ → Prop
  | set pos _ | trySet pos _ | increment pos | fetchIncrement pos => pos < size
  | swap i j => i < size ∧ j < size
  | swapRecords n i j => i + n ≤ size ∧ j + n ≤ size ∧ (i = j ∨ i + n ≤ j ∨ j + n ≤ i)
  | writeRange start ws => start + ws.size ≤ size
  | fill start stop _ | transform start stop _ | tryTransform start stop _ => start ≤ stop ∧ stop ≤ size

/-- What an edit does to a list of words. -/
def onWords : Edit k τ → List (Word k) → τ → Answer k × List (Word k) × τ
  | set pos w, l, t => (.done, l.set pos w, t)
  | trySet pos w, l, t => (.outcome (.ok ()), l.set pos w, t)
  | swap i j, l, t => (.done, (l.set i (l.getD j Word.zero)).set j (l.getD i Word.zero), t)
  | swapRecords n i j, l, t => (.done, swapStretches l n i j, t)
  | increment pos, l, t => (.done, l.set pos (l.getD pos Word.zero).succ, t)
  | fetchIncrement pos, l, t => (.word (l.getD pos Word.zero), l.set pos (l.getD pos Word.zero).succ, t)
  | writeRange start ws, l, t => (.done, patch l start ws.toList, t)
  | fill start stop w, l, t => (.done, patch l start (List.replicate (stop - start) w), t)
  | transform start stop f, l, t =>
      let (m, t) := transformWords f start (stretch l start (stop - start)) t
      (.done, patch l start m, t)
  | tryTransform start stop f, l, t =>
      let (r, m, t) := tryTransformWords f start (stretch l start (stop - start)) t
      (.outcome r, patch l start m, t)

def allOnWords : List (Edit k τ) → List (Word k) → τ → List (Answer k) × List (Word k) × τ
  | [], l, t => ([], l, t)
  | e :: es, l, t =>
      let (x, l, t) := e.onWords l t
      let (xs, l, t) := allOnWords es l t
      (x :: xs, l, t)

/-- One edit does to a store what it does to the words of the store. -/
theorem run_spec {s : Store k} (hs : s.Ready) {e : Edit k τ} (he : e.Within s.size) (t : τ) :
    ∃ s', e.run s t = .ok ((e.onWords s.toList t).1, s', (e.onWords s.toList t).2.2) ∧ s.SameFrame s' ∧
      s'.toList = (e.onWords s.toList t).2.1 := by
  have hlen := hs.length_toList
  cases e with
  | set pos w =>
    obtain ⟨s', hrun, hs'⟩ := Store.set_spec hs he w
    exact ⟨s', by rw [run, hrun]; rfl, hs'⟩
  | trySet pos w =>
    obtain ⟨s', hrun, hs'⟩ := Store.trySet_spec hs he w
    exact ⟨s', by rw [run, hrun]; rfl, hs'⟩
  | swap i j =>
    have hi : i < s.toList.length := hlen ▸ he.1
    have hj : j < s.toList.length := hlen ▸ he.2
    obtain ⟨s', hrun, hs'⟩ := Store.swap_spec hs hi hj
    rw [← List.getD_eq_getElem _ Word.zero hi, ← List.getD_eq_getElem _ Word.zero hj] at hs'
    exact ⟨s', by rw [run, hrun]; rfl, hs'⟩
  | swapRecords n i j =>
    obtain ⟨s', hrun, hs'⟩ := Store.swapRecords_spec hs he.1 he.2.1 he.2.2
    exact ⟨s', by rw [run, hrun]; rfl, hs'⟩
  | increment pos =>
    have hpos : pos < s.toList.length := hlen ▸ he
    obtain ⟨s', hrun, hs'⟩ := Store.increment_spec hs hpos
    rw [← List.getD_eq_getElem _ Word.zero hpos] at hs'
    exact ⟨s', by rw [run, hrun]; rfl, hs'⟩
  | fetchIncrement pos =>
    have hpos : pos < s.toList.length := hlen ▸ he
    obtain ⟨s', hrun, hs'⟩ := Store.increment_spec hs hpos
    rw [← List.getD_eq_getElem _ Word.zero hpos] at hrun hs'
    exact ⟨s', by rw [run, hrun]; rfl, hs'⟩
  | writeRange start ws =>
    obtain ⟨s', hrun, hs'⟩ := Store.writeRange_spec hs he
    exact ⟨s', by rw [run, hrun]; rfl, hs'⟩
  | fill start stop w =>
    obtain ⟨s', hrun, hs'⟩ := Store.fill_spec hs he.1 he.2 w
    exact ⟨s', by rw [run, hrun]; rfl, hs'⟩
  | transform start stop f =>
    obtain ⟨s', hrun, hs'⟩ := Store.transform_spec hs f he.1 he.2 t
    exact ⟨s', by rw [run, hrun]; rfl, hs'⟩
  | tryTransform start stop f =>
    obtain ⟨s', hrun, hs'⟩ := Store.tryTransform_spec hs f he.1 he.2 t
    exact ⟨s', by rw [run, hrun]; rfl, hs'⟩

/-- A history keeps the frame of the store, so its later edits meet positions as its first ones do. -/
theorem runAll_spec (es : List (Edit k τ)) {s : Store k} (hs : s.Ready) (hes : ∀ e ∈ es, e.Within s.size) (t : τ) :
    ∃ s', runAll es s t = .ok ((allOnWords es s.toList t).1, s', (allOnWords es s.toList t).2.2) ∧ s.SameFrame s' ∧
      s'.toList = (allOnWords es s.toList t).2.1 := by
  induction es generalizing s t with
  | nil => exact ⟨s, rfl, Store.SameFrame.refl s, rfl⟩
  | cons e es ih =>
    obtain ⟨s₁, hrun, hfr, hl⟩ := run_spec hs (hes e List.mem_cons_self) t
    have hrest : ∀ e' ∈ es, e'.Within s₁.size := by
      intro e' he'
      rw [hfr.size_eq]
      exact hes e' (List.mem_cons_of_mem e he')
    obtain ⟨s₂, hruns, hfr', hl'⟩ := ih (hs.of_sameFrame hfr) hrest (e.onWords s.toList t).2.2
    rw [hl] at hruns hl'
    refine ⟨s₂, ?_, hfr.trans hfr', hl'⟩
    simp only [runAll, hrun, hruns, bind, Except.bind, pure, Except.pure, allOnWords]

end Edit

namespace Store

/-- All that can be read of the store is the list. Outside, only the place of the refusal is its own. -/
structure Shows (s : Store k) (l : List (Word k)) : Prop where
  size : s.size = l.length
  get : ∀ (pos : Nat) (h : pos < l.length), s.get pos = .ok l[pos]
  tryGet : ∀ (pos : Nat) (h : pos < l.length), s.tryGet pos = .ok (.ok l[pos])
  outside : ∀ pos, l.length ≤ pos → ∃ page place, s.tryGet pos = .ok (.error (.outOfBounds pos l.length page place))
  readRange : ∀ start n, start + n ≤ l.length → s.readRange start n = .ok (stretch l start n).toArray
  fold : ∀ (σ : Type) (f : σ → Nat → Word k → σ) (start stop : Nat) (t : σ), start ≤ stop → stop ≤ l.length →
    s.fold start stop f t = .ok (foldWords f start (stretch l start (stop - start)) t)
  tryFold : ∀ (σ : Type) (f : σ → Nat → Word k → Except Error Unit × σ) (start stop : Nat) (t : σ), start ≤ stop →
    stop ≤ l.length → s.tryFold start stop f t = .ok (tryFoldWords f start (stretch l start (stop - start)) t)

private theorem tryGet_outside (s : Store k) {pos : Nat} (hpos : s.size ≤ pos) :
    ∃ page place, s.tryGet pos = .ok (.error (.outOfBounds pos s.size page place)) := by
  cases s with
  | paged a => exact ⟨_, _, if_neg (Nat.not_lt.2 hpos)⟩
  | _ => exact ⟨_, _, if_neg (Nat.not_lt.2 hpos)⟩

theorem shows {s : Store k} (hs : s.WellFormed) : s.Shows s.toList := by
  have hlen := length_toList hs
  refine ⟨hlen.symm, (reads hs).get, fun pos => tryGet_eq hs, ?_, ?_, ?_, ?_⟩
  · intro pos hpos
    rw [hlen] at hpos ⊢
    exact tryGet_outside s hpos
  · intro start n hn
    exact readRange_eq hs (hlen ▸ hn)
  · intro σ f start stop t hle hl
    exact fold_eq hs f hle (hlen ▸ hl) t
  · intro σ f start stop t hle hl
    exact tryFold_eq hs f hle (hlen ▸ hl) t

end Store

namespace Paged

/-- The array is new and holds the words `ws`. -/
inductive Starts (host : Host) (p : Partition) : Paged k → Words k → Prop
  | zeroed {n : Nat} {a : Paged k} (h : Paged.zeroed host p n = .ok (.ok a)) :
      Starts host p a (Array.replicate n Word.zero)
  | ofWords {ws : Words k} {a : Paged k} (h : Paged.ofWords host p ws = .ok (.ok a)) : Starts host p a ws

private theorem Starts.spec {host : Host} {p : Partition} (hp : p.Valid) {a : Paged k} {ws : Words k}
    (h : Starts host p a ws) (hn : ws.size < 2 ^ 63) :
    a.Ready ∧ a.partition = p ∧ a.size = ws.size ∧ a.toList = ws.toList := by
  cases h with
  | zeroed h =>
    rw [Array.size_replicate] at hn
    rw [Array.size_replicate, Array.toList_replicate]
    exact zeroed_spec hp hn h
  | ofWords h => exact ofWords_spec hp hn h

end Paged

/-- Each history has the same answers and ends in the same words on pages, on one piece and word by word,
and the pages keep their lengths. Of the system it is assumed only that it grants the memory of the longest page. -/
theorem histories_agree {p : Partition} (hp : p.Valid) {ws : Words k} (hn : ws.size < 2 ^ 63) (host : Host) :
    (host.GrantsMemory (min ws.size p.pageSize * k.bytes) →
      (∃ a : Paged k, Paged.zeroed host p ws.size = .ok (.ok a)) ∧ ∃ a, Paged.ofWords host p ws = .ok (.ok a)) ∧
    ∀ (a : Paged k), a.Starts host p ws → ∀ (es : List (Edit k τ)), (∀ e ∈ es, e.Within ws.size) → ∀ t : τ,
      ∃ answers a' ws' t',
        Edit.runAll es (.paged a) t = .ok (answers, .paged a', t') ∧
        Edit.runAll es (.slice ws) t = .ok (answers, .slice ws', t') ∧
        Edit.runAll es (.elementwise (.slice ws)) t = .ok (answers, .elementwise (.slice ws'), t') ∧
        a'.toList = ws'.toList ∧ ws'.size = ws.size ∧
        a'.partition = p ∧ a'.size = ws.size ∧ a'.WellFormed ∧
        (Store.paged a').Shows ws'.toList ∧ (Store.slice ws').Shows ws'.toList ∧
        (Store.elementwise (.slice ws')).Shows ws'.toList := by
  refine ⟨fun hroom => ⟨Paged.zeroed_eq_ok hp hn hroom, Paged.ofWords_eq_ok hp hn hroom⟩, ?_⟩
  intro a ha es hes t
  obtain ⟨hready, hpart, hsize, hl⟩ := ha.spec hp hn
  have hpaged : (Store.paged a).Ready := ⟨⟨hready.wellFormed, hready.size_lt⟩, hready.writable⟩
  have hslice : (Store.slice ws).Ready := ⟨hn, rfl⟩
  have hcells : (Store.elementwise (.slice ws)).Ready := ⟨hn, rfl⟩
  obtain ⟨s₁, hrun₁, hfr₁, hl₁⟩ := Edit.runAll_spec es hpaged (by rw [Store.size, hsize]; exact hes) t
  obtain ⟨s₂, hrun₂, hfr₂, hl₂⟩ := Edit.runAll_spec es hslice hes t
  obtain ⟨s₃, hrun₃, hfr₃, hl₃⟩ := Edit.runAll_spec es hcells hes t
  have hstart : (Store.paged a).toList = ws.toList := hl
  rw [hstart] at hrun₁ hl₁
  have hwf₁ := hfr₁.wellFormed hpaged.wellFormed
  have hwf₂ := hfr₂.wellFormed hslice.wellFormed
  have hwf₃ := hfr₃.wellFormed hcells.wellFormed
  have hsize₂ := hfr₂.size_eq
  cases hfr₁ with
  | @paged _ a' hfr =>
  cases hfr₂ with
  | @slice _ ws' =>
  cases hfr₃ with
  | @elementwise _ _ hfr₃ =>
  cases hfr₃ with
  | @slice _ ws'' =>
  have hsame : ws'' = ws' := Array.toList_inj.1 (hl₃.trans hl₂.symm)
  subst hsame
  have hlist : a'.toList = ws''.toList := hl₁.trans hl₂.symm
  refine ⟨_, a', ws'', _, hrun₁, hrun₂, hrun₃, hlist, hsize₂, (Paged.partition_of_frame hfr).trans hpart,
    (Paged.size_of_frame hfr).trans hsize, hwf₁.1, ?_, Store.shows hwf₂, Store.shows hwf₃⟩
  rw [← hlist]
  exact Store.shows hwf₁

/-- Three words on two pages: a swap across the pages, a sum of the words, and an increment. -/
theorem histories_agree_on_two_pages :
    ∃ a, Paged.ofWords .generous (.even 2) (#[.ofInt 3, .ofInt 1, .ofInt 2] : Words .w32) = .ok (.ok a) ∧
      ∃ answers a' ws' t',
        Edit.runAll [.swap 0 2, .transform 0 3 (fun t _ w => (w, t + w.val)), .fetchIncrement 1] (.paged a) (0 : Int) =
          .ok (answers, .paged a', t') ∧
        Edit.runAll [.swap 0 2, .transform 0 3 (fun t _ w => (w, t + w.val)), .fetchIncrement 1]
          (.slice #[.ofInt 3, .ofInt 1, .ofInt 2]) (0 : Int) = .ok (answers, .slice ws', t') ∧
        a'.toList = ws'.toList := by
  have hp : (Partition.even 2).Valid := ⟨by decide, by decide⟩
  have hn : (#[.ofInt 3, .ofInt 1, .ofInt 2] : Words .w32).size < 2 ^ 63 := by decide
  obtain ⟨hroom, hagree⟩ := histories_agree hp hn .generous
  obtain ⟨-, a, ha⟩ := hroom (Host.generous_grantsMemory (by decide))
  obtain ⟨answers, a', ws', t', hpaged, hslice, -, hl, -⟩ := hagree a (.ofWords ha)
    [.swap 0 2, .transform 0 3 (fun t _ w => (w, t + w.val)), .fetchIncrement 1] (by simp [Edit.Within]) 0
  exact ⟨a, ha, answers, a', ws', t', hpaged, hslice, hl⟩

end PagedWords
