import PagedWords.Store.Search
import PagedWords.Proofs.Creation
import PagedWords.Proofs.StoreView
import PagedWords.Proofs.Visits

/-!
# What filters do to a candidate list

On ascending keys a walk over some first keys, held down to the last of them, and then over the rest gives
the verdicts of one walk over all: pages may be filtered one after the other. If the candidates ascend too,
the verdicts say which candidates are keys.
-/
namespace PagedWords
variable {k : Width}

namespace Filter
variable {how : Membership} {boundary u : Word k} {keys us : List (Word k)}

private theorem verdicts_of_lt (h : boundary < u) : verdicts boundary keys (u :: us) = [] := by
  cases keys with
  | nil => rw [verdicts, if_pos h]
  | cons key keys => rw [verdicts, if_pos h]

private theorem verdicts_skip {keys' : List (Word k)} (hb : ¬boundary < u) (h : ∀ x ∈ keys, x < u) :
    verdicts boundary (keys ++ keys') (u :: us) = verdicts boundary keys' (u :: us) := by
  induction keys with
  | nil => rfl
  | cons key keys ih =>
    have hkey : key < u := h key List.mem_cons_self
    rw [List.cons_append, verdicts, if_neg hb, if_neg (by grind), if_neg (by grind)]
    exact ih (fun x hx => h x (List.mem_cons_of_mem key hx))

theorem verdicts_append {keys' : List (Word k)} {last : Word k} (hlast : last ∈ keys) (hle : ∀ x ∈ keys, x ≤ last)
    (us : List (Word k)) :
    verdicts boundary (keys ++ keys') us = verdicts (Word.min boundary last) keys us ++
      verdicts boundary keys' (us.drop (verdicts (Word.min boundary last) keys us).length) := by
  fun_induction verdicts (Word.min boundary last) keys us with
  | case1 keys => simp only [verdicts_nil, List.nil_append, List.drop_nil]
  | case2 u us h => cases hlast
  | case3 u us h ih => cases hlast
  | case4 key keys u us h =>
    rw [List.nil_append, List.length_nil, List.drop_zero]
    by_cases hb : boundary < u
    · rw [verdicts_of_lt hb, verdicts_of_lt hb]
    · have hmin : ¬(u ≤ boundary ∧ u ≤ last) := by
        rw [← Word.le_min_iff]
        exact Word.not_le.2 h
      have habove : last < u := by grind
      exact verdicts_skip hb (fun x hx => Std.lt_of_le_of_lt (hle x hx) habove)
  | case5 key keys us h ih =>
    have hmin := Word.le_min_iff.1 (Word.not_lt.1 h)
    rw [List.cons_append, verdicts, if_neg (Word.not_lt.2 hmin.1), if_pos rfl]
    exact congrArg (true :: ·) (ih hlast hle)
  | case6 key keys u us h hne hlt ih =>
    have hmin := Word.le_min_iff.1 (Word.not_lt.1 h)
    rw [List.cons_append, verdicts, if_neg (Word.not_lt.2 hmin.1), if_neg hne, if_pos hlt]
    exact congrArg (false :: ·) (ih hlast hle)
  | case7 key keys u us h hne hlt ih =>
    have hmin := Word.le_min_iff.1 (Word.not_lt.1 h)
    have hbelow : last ≠ key := by grind
    rw [List.cons_append, verdicts, if_neg (Word.not_lt.2 hmin.1), if_neg hne, if_neg hlt]
    exact ih ((List.mem_cons.1 hlast).resolve_left hbelow) (fun x hx => hle x (List.mem_cons_of_mem key hx))

theorem verdicts_eq_map (boundary : Word k) (hk : keys.Pairwise (· ≤ ·)) (hu : us.Pairwise (· ≤ ·)) :
    verdicts boundary keys us = (us.takeWhile (· ≤ boundary)).map (fun u => decide (u ∈ keys)) := by
  fun_induction verdicts boundary keys us with
  | case1 keys => rfl
  | case2 u us h => rw [List.takeWhile_cons_of_neg (by simpa using h)]; rfl
  | case3 u us h ih =>
    rw [ih hk hu.of_cons, List.takeWhile_cons_of_pos (by simpa using h)]
    rfl
  | case4 key keys u us h => rw [List.takeWhile_cons_of_neg (by simpa using h)]; rfl
  | case5 key keys us h ih =>
    rw [ih hk hu.of_cons, List.takeWhile_cons_of_pos (by simpa using h), List.map_cons,
      decide_eq_true List.mem_cons_self]
  | case6 key keys u us h hne hlt ih =>
    have habsent : u ∉ key :: keys := by
      intro hmem
      rcases List.mem_cons.1 hmem with rfl | hmem
      · exact hne rfl
      · exact absurd (List.rel_of_pairwise_cons hk hmem) (Word.not_le.2 hlt)
    rw [ih hk hu.of_cons, List.takeWhile_cons_of_pos (by simpa using h), List.map_cons, decide_eq_false habsent]
  | case7 key keys u us h hne hlt ih =>
    rw [ih hk.of_cons hu]
    apply List.map_congr_left
    intro v hv
    have hle : u ≤ v := by
      rcases List.mem_cons.1 (List.takeWhile_subset _ hv) with rfl | hv
      · exact Std.le_refl v
      · exact List.rel_of_pairwise_cons hu hv
    have hkey : v ≠ key := by grind
    simp only [List.mem_cons, hkey, false_or]

theorem staying_map {p f : Word k → Bool} (us : List (Word k)) :
    staying how ((us.takeWhile p).map f) us = (us.takeWhile p).filter (fun u => how.keeps (f u)) := by
  induction us with
  | nil => rfl
  | cons u us ih =>
    cases hp : p u with
    | false => simp [staying, hp]
    | true =>
      simp only [staying, List.takeWhile_cons, hp, if_true, List.map_cons, List.zip_cons_cons,
        List.filter_cons] at ih ⊢
      cases how.keeps (f u) with
      | false => exact ih
      | true => exact congrArg (u :: ·) ih

/-- The run visits the candidates with these verdicts, whichever verdict is the one to stay. -/
structure Judges (run : Membership → Candidates k → Except Fault (Candidates k)) (us : List (Word k))
    (bs : List Bool) : Prop where
  length_le : bs.length ≤ us.length
  run_eq : ∀ how c, c.WellFormed → c.unvisited = us → run how c = visitAll how bs c

private theorem Judges.append {run first rest : Membership → Candidates k → Except Fault (Candidates k)}
    {bs bs' : List Bool} (h : Judges first us bs) (h' : Judges rest (us.drop bs.length) bs')
    (hrun : ∀ how c, c.WellFormed → c.unvisited = us → run how c = (do rest how (← first how c))) :
    Judges run us (bs ++ bs') := by
  have hfew := h.length_le
  have hrest := h'.length_le
  rw [List.length_drop] at hrest
  refine ⟨by rw [List.length_append]; omega, ?_⟩
  rintro how c hc rfl
  obtain ⟨c', hvisits, -, hc', -, hun⟩ := visitAll_spec how hc hfew
  rw [hrun how c hc rfl, h.run_eq how c hc rfl, visitAll_append, hvisits]
  exact h'.run_eq how c' hc' hun

/-- The run has verdicts on all candidates. If the keys ascend, the verdicts are those of a walk along them. -/
def Judged (run : Membership → Candidates k → Except Fault (Candidates k)) (boundary : Word k)
    (keys : List (Word k)) : Prop :=
  ∀ us, ∃ bs, Judges run us bs ∧ (keys.Pairwise (· ≤ ·) → bs = verdicts boundary keys us)

/-- Verdicts on some first candidates, none of them above the boundary. If the keys ascend, they are those of a walk
along them. -/
structure Bounded (boundary : Word k) (keys us : List (Word k)) (bs : List Bool) : Prop where
  le : ∀ u ∈ us.take bs.length, u ≤ boundary
  eq_verdicts : keys.Pairwise (· ≤ ·) → bs = verdicts boundary keys us

theorem bounded_verdicts (boundary : Word k) (keys us : List (Word k)) :
    Bounded boundary keys us (verdicts boundary keys us) := ⟨fun _ hu => le_of_judged hu, fun _ => rfl⟩

private theorem Bounded.append {last : Word k} {keys' : List (Word k)} {bs : List Bool} (hlast : keys.Pairwise (· ≤ ·) →
      last ∈ keys ∧ ∀ x ∈ keys, x ≤ last)
    (h : Bounded boundary keys' (us.drop (verdicts (Word.min boundary last) keys us).length) bs) :
    Bounded boundary (keys ++ keys') us (verdicts (Word.min boundary last) keys us ++ bs) := by
  constructor
  · intro u hu
    rw [List.length_append, List.take_add] at hu
    rcases List.mem_append.1 hu with hu | hu
    · exact (Word.le_min_iff.1 (le_of_judged hu)).1
    · exact h.le u hu
  · intro hsorted
    obtain ⟨hsorted₁, hsorted₂, -⟩ := List.pairwise_append.1 hsorted
    obtain ⟨hmem, hle⟩ := hlast hsorted₁
    rw [verdicts_append hmem hle, h.eq_verdicts hsorted₂]

section Judged
variable {run : Membership → Candidates k → Except Fault (Candidates k)} {c : Candidates k}

theorem Judged.eq (h : Judged run boundary keys) (hsorted : keys.Pairwise (· ≤ ·)) (hc : c.WellFormed) :
    run how c = visitAll how (verdicts boundary keys c.unvisited) c := by
  obtain ⟨bs, hbs, hverdicts⟩ := h c.unvisited
  rw [hbs.run_eq how c hc rfl, hverdicts hsorted]

end Judged

section Range
variable {σ : Type} [Cells σ k] {a : σ} {l : List (Word k)} {start stop : Nat} {c : Candidates k}

theorem filter_eq (ha : Cells.Reads a l) (hlt : start < stop) (hl : stop ≤ l.length) (hc : c.WellFormed) :
    filter a how boundary start stop c =
      visitAll how (verdicts boundary (stretch l start (stop - start)) c.unvisited) c := by
  have hle := Nat.le_of_lt hlt
  rw [filter, walkRange_eq ha (.one hle hl) hlt hc, recordKeys_one hle hl]

theorem filter_judges (ha : Cells.Reads a l) (hlt : start < stop) (hl : stop ≤ l.length)
    (hkeys : stretch l start (stop - start) = keys) :
    Judges (fun how => filter a how boundary start stop) us (verdicts boundary keys us) := by
  refine ⟨length_verdicts_le _ _ _, ?_⟩
  rintro how c hc rfl
  rw [filter_eq ha hlt hl hc, hkeys]

theorem filterRecords_eq (ha : Cells.Reads a l) {stride : Nat} (hr : RecordRange l stride start stop)
    (hlt : start < stop) (hc : c.WellFormed) :
    filterRecords a how stride boundary start stop c = .ok <$>
      visitAll how (verdicts boundary (recordKeys l stride start stop) c.unvisited) c := by
  rw [filterRecords, ha.size, hr.check, whenValid_ok, walkRange_eq ha hr hlt hc]

theorem filterRecords_of_empty {stride : Nat} (hstride : 0 < stride) (hl : start ≤ Cells.size a) :
    filterRecords a how stride boundary start start c = .ok (.ok c) := by
  have hcheck : checkRecords start start (Cells.size a) stride = .ok () :=
    checkRecords_eq_ok_iff.2 ⟨Nat.le_refl _, hl, hstride, by rw [Nat.sub_self, Nat.zero_mod]⟩
  rw [filterRecords, hcheck, whenValid_ok, walkRange, if_pos (Nat.le_refl _)]
  rfl

end Range

end Filter

theorem takeWhile_le_of_sorted {us : List (Word k)} (hu : us.Pairwise (· ≤ ·)) (boundary : Word k) :
    us.takeWhile (· ≤ boundary) = us.filter (· ≤ boundary) ∧
      us.drop (us.takeWhile (· ≤ boundary)).length = us.filter (boundary < ·) := by
  induction us with
  | nil => exact ⟨rfl, rfl⟩
  | cons u us ih =>
    obtain ⟨htake, hdrop⟩ := ih hu.of_cons
    by_cases h : u ≤ boundary
    · rw [List.takeWhile_cons_of_pos (by simpa using h), List.filter_cons_of_pos (by simpa using h), htake,
        List.filter_cons_of_neg (by simpa using h), ← hdrop, htake]
      exact ⟨rfl, rfl⟩
    · have hall : ∀ v ∈ us, boundary < v := fun v hv =>
        Std.lt_of_lt_of_le (Word.not_le.1 h) (List.rel_of_pairwise_cons hu hv)
      rw [List.takeWhile_cons_of_neg (by simpa using h)]
      constructor
      · symm
        rw [List.filter_eq_nil_iff]
        intro v hv
        rcases List.mem_cons.1 hv with rfl | hv
        · simpa using h
        · simpa using hall v hv
      · symm
        rw [List.length_nil, List.drop_zero, List.filter_eq_self]
        intro v hv
        rcases List.mem_cons.1 hv with rfl | hv
        · simpa using h
        · simpa using hall v hv

namespace Paged
variable {a : Paged k} {how : Membership} {boundary : Word k}

section Piece
variable {pos next : Nat} {piece : Piece}

private theorem filterPiece_judges {p : Page k} (hpiece : a.partition.IsPiece pos next piece)
    (hstop : piece.stop ≤ p.size)
    (hwords : stretch p.words.toList piece.start piece.length = stretch a.toList pos (next - pos)) (boundary : Word k)
    (us : List (Word k)) :
    Filter.Judges (fun how => Filter.filter p.words how boundary piece.start piece.stop) us
      (Filter.verdicts boundary (stretch a.toList pos (next - pos)) us) := by
  have hlt := hpiece.lt
  have hsum := hpiece.start_add_length
  have hlen := hpiece.length
  have hsize : p.words.toList.length = p.size := p.length_words
  exact Filter.filter_judges (Words.reads p.words) (by omega) (by omega) hwords

private theorem get_last_of_piece {p : Page k} (hpiece : a.partition.IsPiece pos next piece)
    (hstop : piece.stop ≤ p.size)
    (hwords : stretch p.words.toList piece.start piece.length = stretch a.toList pos (next - pos))
    (hl : next - 1 < a.toList.length) : p.get (piece.stop - 1) = .ok a.toList[next - 1] := by
  have hlt := hpiece.lt
  have hsum := hpiece.start_add_length
  have hlen := hpiece.length
  have hplace : piece.stop - 1 < p.words.toList.length := by rw [p.length_words]; omega
  have hlast := congrArg (fun ks : List (Word k) => ks[next - pos - 1]?) hwords
  simp only [getElem?_stretch] at hlast
  rw [if_pos (by omega), if_pos (by omega)] at hlast
  have hfrom : piece.start + (next - pos - 1) = piece.stop - 1 := by omega
  have hto : pos + (next - pos - 1) = next - 1 := by omega
  rw [hfrom, hto, List.getElem?_eq_getElem hplace, List.getElem?_eq_getElem hl] at hlast
  have hget := (Words.reads p.words).get (piece.stop - 1) hplace
  rw [Option.some.inj hlast] at hget
  exact hget

end Piece

/-- The second array is cut into pages as the first is, and has the same words in a range. -/
structure SameRange (a a' : Paged k) (start stop : Nat) : Prop where
  wellFormed : a'.WellFormed
  size_lt : a'.size < 2 ^ 63
  le_size : stop ≤ a'.size
  partition_eq : a'.partition = a.partition
  words_eq : stretch a'.toList start (stop - start) = stretch a.toList start (stop - start)

namespace SameRange
variable {a' : Paged k} {start stop : Nat}

private theorem refl (ha : a.WellFormed) (hs : a.size < 2 ^ 63) (hl : stop ≤ a.size) : a.SameRange a start stop :=
  ⟨ha, hs, hl, rfl, rfl⟩

section Part
variable (h : a.SameRange a' start stop)
include h

theorem part_eq {low high : Nat} (hlow : start ≤ low) (hle : low ≤ high) (hhigh : high ≤ stop) :
    stretch a'.toList low (high - low) = stretch a.toList low (high - low) := by
  have hpart := congrArg (fun l => stretch l (low - start) (high - low)) h.words_eq
  simp only [stretch_stretch _ (by omega : low - start + (high - low) ≤ stop - start), Nat.add_sub_of_le hlow] at hpart
  exact hpart

private theorem rest {pos : Nat} (hpos : start ≤ pos) (hstop : pos ≤ stop) : a.SameRange a' pos stop :=
  ⟨h.wellFormed, h.size_lt, h.le_size, h.partition_eq, h.part_eq hpos hstop (Nat.le_refl _)⟩

private theorem page_of_piece {next : Nat} {piece : Piece} (hpiece : a.partition.IsPiece start next piece)
    (hnext : next ≤ stop) :
    ∃ p, a'.pages[piece.page]? = some p ∧ piece.stop ≤ p.size ∧
      stretch p.words.toList piece.start piece.length = stretch a.toList start (next - start) := by
  have hlt := hpiece.lt
  rw [← h.partition_eq] at hpiece
  obtain ⟨p, hp, hfits, hwords⟩ := Paged.page_of_piece h.wellFormed h.size_lt hpiece (Nat.le_trans hnext h.le_size)
  exact ⟨p, hp, hfits, hwords.trans (h.part_eq (Nat.le_refl _) (Nat.le_of_lt hlt) hnext)⟩

end Part

end SameRange

section Pages
variable (ha : a.WellFormed) (hs : a.size < 2 ^ 63) {stop : Nat} (hl : stop ≤ a.size)
include ha hs hl

private theorem filterFrom_decided (boundary : Word k) (fuel : Nat) : ∀ {pos : Nat}, pos < stop → stop - pos ≤ fuel →
    ∀ us, ∃ bs, Filter.Bounded boundary (stretch a.toList pos (stop - pos)) us bs ∧
      ∀ a', a.SameRange a' pos stop → Filter.Judges (fun how => a'.filterFrom how boundary stop fuel pos) us bs := by
  have hlen := length_toList ha hs
  induction fuel with
  | zero =>
    intro pos hpos hfuel
    omega
  | succ fuel ih =>
    intro pos hpos hfuel us
    obtain ⟨piece, next, hrun, hpiece, hnext⟩ := Partition.piece_eq_ok ha.partition hpos (by omega : stop ≤ 2 ^ 63)
    have hlt := hpiece.lt
    cases us with
    | nil =>
      refine ⟨[], ⟨by simp, fun _ => (Filter.verdicts_nil _ _).symm⟩, fun a' ha' => ⟨Nat.le_refl _, ?_⟩⟩
      intro how c hc hus
      simp only [filterFrom, if_neg (Nat.not_le.2 hpos), ha'.partition_eq, hrun, hc.hasUnvisited_of_nil hus,
        Filter.visitAll, bind, Except.bind, pure, Except.pure, Bool.not_false, if_true]
    | cons u us =>
      have hpage : ∀ a', a.SameRange a' pos stop → ∃ p, a'.page piece.page = .ok p ∧
          (∀ b, Filter.Judges (fun how => Filter.filter p.words how b piece.start piece.stop) (u :: us)
            (Filter.verdicts b (stretch a.toList pos (next - pos)) (u :: us))) ∧
          ∀ h : next - 1 < a.toList.length, p.get (piece.stop - 1) = .ok a.toList[next - 1] := by
        intro a' ha'
        obtain ⟨p, hp, hfits, hwords⟩ := ha'.page_of_piece hpiece hnext
        exact ⟨p, page_eq_ok hp, fun b => filterPiece_judges hpiece hfits hwords b (u :: us),
          get_last_of_piece hpiece hfits hwords⟩
      by_cases hmid : next < stop
      · obtain ⟨bs, hbs, hrest⟩ := ih hmid (by omega) ((u :: us).drop (Filter.verdicts
          (Word.min boundary a.toList[next - 1]) (stretch a.toList pos (next - pos)) (u :: us)).length)
        refine ⟨Filter.verdicts (Word.min boundary a.toList[next - 1]) (stretch a.toList pos (next - pos)) (u :: us) ++
          bs, ?_, fun a' ha' => ?_⟩
        · rw [stretch_split a.toList (Nat.le_of_lt hlt) hnext]
          exact .append (last_of_sorted hlt (by omega)) hbs
        · obtain ⟨p, hp, hjudges, hget⟩ := hpage a' ha'
          refine (hjudges _).append (hrest a' (ha'.rest (Nat.le_of_lt hlt) hnext)) ?_
          intro how c hc hus
          simp only [filterFrom, if_neg (Nat.not_le.2 hpos), ha'.partition_eq, hrun, (hc.current_eq hus).1, hp,
            if_pos hmid, hget (by omega), Functor.map, Except.map, bind, Except.bind, Bool.not_true, Bool.false_eq_true,
            if_false]
      · have hend : next = stop := by omega
        subst hend
        refine ⟨_, Filter.bounded_verdicts _ _ _, fun a' ha' => ?_⟩
        obtain ⟨p, hp, hjudges, -⟩ := hpage a' ha'
        have hdone : ∀ how c', a'.filterFrom how boundary next fuel next c' = .ok c' := by
          intro how c'
          cases fuel with
          | zero => rfl
          | succ fuel => rw [filterFrom, if_pos (Nat.le_refl _)]
        refine ⟨(hjudges boundary).length_le, ?_⟩
        intro how c hc hus
        rw [← (hjudges boundary).run_eq how c hc hus]
        simp only [filterFrom, if_neg (Nat.not_le.2 hpos), ha'.partition_eq, hrun, (hc.current_eq hus).1, hp,
          if_neg hmid, hdone, bind, Except.bind, Bool.not_true, Bool.false_eq_true, if_false]
        cases Filter.filter p.words how boundary piece.start piece.stop c <;> rfl

theorem filter_decided (boundary : Word k) {start : Nat} (hlt : start < stop) (us : List (Word k)) :
    ∃ bs, Filter.Bounded boundary (stretch a.toList start (stop - start)) us bs ∧
      ∀ a', a.SameRange a' start stop → Filter.Judges (fun how => a'.filter how boundary start stop) us bs := by
  obtain ⟨bs, hbs, hrun⟩ := filterFrom_decided ha hs hl boundary (stop - start) hlt (Nat.le_refl _) us
  refine ⟨bs, hbs, fun a' ha' => ⟨(hrun a' ha').length_le, ?_⟩⟩
  intro how c hc hus
  rw [filter, if_neg (Nat.not_le.2 hlt), if_neg (Nat.not_lt.2 ha'.le_size)]
  exact (hrun a' ha').run_eq how c hc hus

private theorem filter_judged {start : Nat} (hlt : start < stop) :
    Filter.Judged (fun how => a.filter how boundary start stop) boundary (stretch a.toList start (stop - start)) := by
  intro us
  obtain ⟨bs, hbs, hrun⟩ := filter_decided ha hs hl boundary hlt us
  exact ⟨bs, hrun a (.refl ha hs hl), hbs.eq_verdicts⟩

private theorem filter_eq {start : Nat} (hlt : start < stop) {c : Candidates k} (hc : c.WellFormed)
    (hsorted : (stretch a.toList start (stop - start)).Pairwise (· ≤ ·)) :
    a.filter how boundary start stop c =
      Filter.visitAll how (Filter.verdicts boundary (stretch a.toList start (stop - start)) c.unvisited) c :=
  (filter_judged ha hs hl hlt).eq hsorted hc

end Pages

/-- Filtering page by page is filtering the words in one piece, to the last field of the candidate list. -/
theorem filter_eq_flat (ha : a.WellFormed) (hs : a.size < 2 ^ 63) {start stop : Nat} (hle : start ≤ stop)
    (hl : stop ≤ a.size) (hsorted : (stretch a.toList start (stop - start)).Pairwise (· ≤ ·)) (how : Membership)
    (boundary : Word k) {c : Candidates k} (hc : c.WellFormed) :
    ∃ c', a.filter how boundary start stop c = .ok c' ∧
      Filter.filter (a.toList.toArray : Words k) how boundary start stop c = .ok c' := by
  rcases Nat.eq_or_lt_of_le hle with rfl | hlt
  · exact ⟨c, if_pos (Nat.le_refl _), if_pos (Nat.le_refl _)⟩
  · have hlen := length_toList ha hs
    obtain ⟨c', hvisits, -⟩ := Filter.visitAll_spec how hc
      (Filter.length_verdicts_le boundary (stretch a.toList start (stop - start)) c.unvisited)
    refine ⟨c', by rw [filter_eq ha hs hl hlt hc hsorted, hvisits], ?_⟩
    rw [Filter.filter_eq (Words.reads _) hlt (by rw [hlen]; exact hl) hc]
    exact hvisits

/-- The key `3` stands on both sides of the page break, and the candidates `2` and `4` in no page. -/
theorem filter_eq_flat_across_break :
    ∃ a, Paged.ofWords .generous (.even 2) (#[.ofInt 1, .ofInt 3, .ofInt 3, .ofInt 5] : Words .w64) = .ok (.ok a) ∧
      ∃ c', a.filter .reject (.ofInt 4) 0 4 (.ofWords #[.ofInt 2, .ofInt 3, .ofInt 4, .ofInt 5]) = .ok c' ∧
        Filter.filter (a.toList.toArray : Words .w64) .reject (.ofInt 4) 0 4
          (.ofWords #[.ofInt 2, .ofInt 3, .ofInt 4, .ofInt 5]) = .ok c' := by
  have hp : (Partition.even 2).Valid := ⟨by decide, by decide⟩
  have hn : (#[.ofInt 1, .ofInt 3, .ofInt 3, .ofInt 5] : Words .w64).size < 2 ^ 63 := by decide
  obtain ⟨a, ha⟩ := ofWords_eq_ok hp hn (Host.generous_grantsMemory (by decide))
  obtain ⟨hready, -, hsize, hl⟩ := ofWords_spec hp hn ha
  exact ⟨a, ha, filter_eq_flat hready.wellFormed hready.size_lt (by decide) (by rw [hsize]; decide)
    (by rw [hl]; decide) .reject (.ofInt 4) ⟨by decide, by decide, by decide⟩⟩

private theorem filterRecords_eq (ha : a.WellFormed) (hs : a.size < 2 ^ 63) {stride start stop : Nat}
    (hr : RecordRange a.toList stride start stop) (hlt : start < stop) {c : Candidates k} (hc : c.WellFormed) :
    a.filterRecords how stride boundary start stop c = .ok <$>
      Filter.visitAll how (Filter.verdicts boundary (recordKeys a.toList stride start stop) c.unvisited) c := by
  rw [filterRecords]
  split
  · next piece hconf =>
    obtain ⟨-, -, hsum, -⟩ := page_of_confined ha hs hconf
    obtain ⟨p, hp, -, hrange, hrecords⟩ := records_of_confined ha hs hconf hr
    rw [hp, recordKeys, ← hrecords]
    exact Filter.filterRecords_eq (Words.reads p.words) hrange (by omega) hc
  · exact Filter.filterRecords_eq (reads ha hs) hr hlt hc

end Paged

namespace Store
variable {s : Store k} {how : Membership} {boundary : Word k} {start stop : Nat} {c : Candidates k}

/-- The second store is laid out as the first, with words of its own. -/
inductive SameLayout : Store k → Store k → Prop
  | slice {ws ws' : Words k} (size : ws'.size = ws.size) : SameLayout (slice ws) (slice ws')
  | page {p p' : Page k} (size : p'.size = p.size) : SameLayout (page p) (page p')
  | paged {a a' : Paged k} (size : a'.size = a.size) (partition : a'.partition = a.partition) :
      SameLayout (paged a) (paged a')
  | window {base base' : Store k} {low high : Nat} (h : SameLayout base base') :
      SameLayout (window base low high) (window base' low high)
  | elementwise {base base' : Store k} (h : SameLayout base base') : SameLayout (elementwise base) (elementwise base')

theorem SameLayout.refl (s : Store k) : s.SameLayout s := by
  induction s with
  | slice ws => exact .slice rfl
  | page p => exact .page rfl
  | paged a => exact .paged rfl rfl
  | window base low high ih => exact .window ih
  | elementwise base ih => exact .elementwise ih

theorem SameLayout.size_eq {s' : Store k} (h : s.SameLayout s') : s'.size = s.size := by
  induction h with
  | slice hsize => exact hsize
  | page hsize => exact hsize
  | paged hsize _ => exact hsize
  | window _ _ => rfl
  | elementwise _ ih => exact ih

theorem SameLayout.le_length {s' : Store k} (h : s.SameLayout s') (hs' : s'.WellFormed) (hl : stop ≤ s.size) :
    stop ≤ s'.toList.length := by
  rw [length_toList hs', h.size_eq]
  exact hl

private theorem stretch_window {base : Store k} {low high : Nat} (hl : stop ≤ high - low) :
    stretch (window base low high).toList start (stop - start) =
      stretch base.toList (low + start) (low + stop - (low + start)) := by
  by_cases hle : start ≤ stop
  · rw [toList, stretch_stretch _ (by omega), Nat.add_sub_add_left]
  · rw [Nat.add_sub_add_left, Nat.sub_eq_zero_of_le (by omega), stretch_zero, stretch_zero]

/-- The verdicts of a filter depend on the words of the range and on the layout, as it goes page by page. -/
theorem filter_decided (hs : s.WellFormed) (hlt : start < stop) (hl : stop ≤ s.size) (boundary : Word k)
    (us : List (Word k)) : ∃ bs, Filter.Bounded boundary (stretch s.toList start (stop - start)) us bs ∧
      ∀ s', s'.WellFormed → s.SameLayout s' →
        stretch s'.toList start (stop - start) = stretch s.toList start (stop - start) →
        Filter.Judges (fun how => s'.filter how boundary start stop) us bs := by
  induction s generalizing start stop with
  | slice ws =>
    refine ⟨_, Filter.bounded_verdicts _ _ us, fun s' hs' hsame hwords => ?_⟩
    have hfits := hsame.le_length hs' hl
    cases hsame with
    | slice _ => exact Filter.filter_judges (Words.reads _) hlt hfits hwords
  | page p =>
    refine ⟨_, Filter.bounded_verdicts _ _ us, fun s' hs' hsame hwords => ?_⟩
    have hfits := hsame.le_length hs' hl
    cases hsame with
    | page _ => exact Filter.filter_judges (Words.reads _) hlt hfits hwords
  | paged a =>
    obtain ⟨bs, hbs, hrun⟩ := Paged.filter_decided hs.1 hs.2 hl boundary hlt us
    refine ⟨bs, hbs, fun s' hs' hsame hwords => ?_⟩
    cases hsame with
    | paged hsize hpartition => exact hrun _ ⟨hs'.1, hs'.2, hsize ▸ hl, hpartition, hwords⟩
  | window base low high ih =>
    have hsize : stop ≤ high - low := hl
    have hhigh := hs.window_le
    obtain ⟨bs, hbs, hrun⟩ := ih hs.1 (Nat.add_lt_add_left hlt low) (by omega)
    rw [stretch_window hsize]
    refine ⟨bs, hbs, fun s' hs' hsame hwords => ?_⟩
    cases hsame with
    | window hbase =>
      rw [stretch_window hsize] at hwords
      simp only [filter, windowSpan_eq (Nat.le_of_lt hlt) hsize]
      exact hrun _ hs'.1 hbase hwords
  | elementwise base ih =>
    refine ⟨_, Filter.bounded_verdicts _ _ us, fun s' hs' hsame hwords => ?_⟩
    have hfits := hsame.le_length hs' hl
    cases hsame with
    | elementwise _ => exact Filter.filter_judges (reads hs') hlt hfits hwords

theorem filter_judged (hs : s.WellFormed) (hlt : start < stop) (hl : stop ≤ s.size) :
    Filter.Judged (fun how => s.filter how boundary start stop) boundary (stretch s.toList start (stop - start)) := by
  intro us
  obtain ⟨bs, hbs, hrun⟩ := filter_decided hs hlt hl boundary us
  exact ⟨bs, hrun s hs (.refl s) rfl, hbs.eq_verdicts⟩

theorem filter_eq (hs : s.WellFormed) (hlt : start < stop) (hl : stop ≤ s.size) (hc : c.WellFormed)
    (hsorted : (stretch s.toList start (stop - start)).Pairwise (· ≤ ·)) :
    s.filter how boundary start stop c =
      Filter.visitAll how (Filter.verdicts boundary (stretch s.toList start (stop - start)) c.unvisited) c :=
  (filter_judged hs hlt hl).eq hsorted hc

theorem filterRecords_eq (hs : s.WellFormed) {stride : Nat} (hr : RecordRange s.toList stride start stop)
    (hlt : start < stop) (hc : c.WellFormed) :
    s.filterRecords how stride boundary start stop c = .ok <$>
      Filter.visitAll how (Filter.verdicts boundary (recordKeys s.toList stride start stop) c.unvisited) c := by
  induction s generalizing start stop with
  | slice ws => exact Filter.filterRecords_eq (Words.reads ws) hr hlt hc
  | page p => exact Filter.filterRecords_eq (Words.reads p.words) hr hlt hc
  | paged a => exact Paged.filterRecords_eq hs.1 hs.2 hr hlt hc
  | window base low high ih =>
    obtain ⟨hsize, hbase⟩ := hs.recordRange_base hr
    rw [filterRecords, windowCheck_eq hr.le hsize, toList, recordKeys, records_stretch hr.le hsize]
    exact ih hs.1 hbase (by omega)
  | elementwise base ih => exact Filter.filterRecords_eq (reads (s := elementwise base) hs) hr hlt hc

theorem filter_of_empty (hs : s.WellFormed) (hl : start ≤ s.size) : s.filter how boundary start start c = .ok c := by
  induction s generalizing start with
  | window base low high ih =>
    have hsize : start ≤ high - low := hl
    have hhigh := hs.window_le
    rw [filter, windowSpan_eq (Nat.le_refl _) hsize]
    exact ih hs.1 (by omega)
  | paged a => exact if_pos (Nat.le_refl _)
  | _ => exact if_pos (Nat.le_refl _)

theorem filterRecords_of_empty (hs : s.WellFormed) {stride : Nat} (hstride : 0 < stride) (hl : start ≤ s.size) :
    s.filterRecords how stride boundary start start c = .ok (.ok c) := by
  induction s generalizing start with
  | window base low high ih =>
    have hsize : start ≤ high - low := hl
    have hhigh := hs.window_le
    rw [filterRecords, windowCheck_eq (Nat.le_refl _) hsize]
    exact ih hs.1 (by omega)
  | paged a =>
    have hconf : a.confined? start start = none := by
      rw [Paged.confined?, if_neg]
      simp [Partition.samePage]
    show a.filterRecords how stride boundary start start c = _
    rw [Paged.filterRecords, hconf]
    exact Filter.filterRecords_of_empty hstride hl
  | _ => exact Filter.filterRecords_of_empty hstride hl

/-- Whatever the words of the range, a filter visits some first candidates, the same whether they are to be retained
or to be rejected. -/
theorem filter_visits (hs : s.WellFormed) (hle : start ≤ stop) (hl : stop ≤ s.size) (hc : c.WellFormed)
    (boundary : Word k) :
    ∃ bs : List Bool, bs.length ≤ c.unvisited.length ∧
      ∀ how, s.filter how boundary start stop c = Filter.visitAll how bs c := by
  rcases Nat.eq_or_lt_of_le hle with rfl | hlt
  · exact ⟨[], Nat.zero_le _, fun how => filter_of_empty hs hl⟩
  · obtain ⟨bs, hbs, -⟩ := filter_judged hs hlt hl c.unvisited
    exact ⟨bs, hbs.length_le, fun how => hbs.run_eq how c hc rfl⟩

theorem filterRecords_visits (hs : s.WellFormed) {stride : Nat} (hr : RecordRange s.toList stride start stop)
    (hc : c.WellFormed) (boundary : Word k) :
    ∃ bs : List Bool, bs.length ≤ c.unvisited.length ∧
      ∀ how, s.filterRecords how stride boundary start stop c = .ok <$> Filter.visitAll how bs c := by
  rcases Nat.eq_or_lt_of_le hr.le with rfl | hlt
  · exact ⟨[], Nat.zero_le _, fun how => filterRecords_of_empty hs hr.pos (length_toList hs ▸ hr.le_length)⟩
  · exact ⟨_, Filter.length_verdicts_le boundary (recordKeys s.toList stride start stop) c.unvisited,
      fun how => filterRecords_eq hs hr hlt hc⟩

/-- Of the candidates up to the boundary those that are keys are kept, or those that are none; the others stay
unvisited. -/
theorem filterRecords_spec (hs : s.WellFormed) {stride : Nat} (hstride : 0 < stride) (hle : start ≤ stop)
    (hl : stop ≤ s.size) (hdvd : (stop - start) % stride = 0) (hc : c.WellFormed) (how : Membership)
    (boundary : Word k) :
    (start < stop → (recordKeys s.toList stride start stop).Pairwise (· ≤ ·) → c.unvisited.Pairwise (· ≤ ·) →
      ∃ c', s.filterRecords how stride boundary start stop c = .ok (.ok c') ∧
        (stride = 1 → s.filter how boundary start stop c = .ok c') ∧ c'.WellFormed ∧ c'.stop = c.stop ∧
        c'.kept = c.kept ++ c.unvisited.filter
          (fun u => u ≤ boundary ∧ how.keeps (decide (u ∈ recordKeys s.toList stride start stop))) ∧
        c'.unvisited = c.unvisited.filter (boundary < ·)) ∧
    (start = stop → s.filterRecords how stride boundary start stop c = .ok (.ok c) ∧
      s.filter how boundary start stop c = .ok c) := by
  have hlen := length_toList hs
  have hr : RecordRange s.toList stride start stop := ⟨hstride, hle, by omega, hdvd⟩
  constructor
  · intro hlt hkeys hus
    have hverdicts := Filter.verdicts_eq_map boundary hkeys hus
    obtain ⟨htake, hdrop⟩ := takeWhile_le_of_sorted hus boundary
    obtain ⟨c', hvisits, hstop, hc', hkept, hun⟩ := Filter.visitAll_spec how hc
      (Filter.length_verdicts_le boundary (recordKeys s.toList stride start stop) c.unvisited)
    refine ⟨c', ?_, ?_, hc', hstop, ?_, ?_⟩
    · rw [filterRecords_eq hs hr hlt hc, hvisits]
      rfl
    · rintro rfl
      rw [recordKeys_one hle hr.le_length] at hkeys hvisits
      rw [filter_eq hs hlt hl hc hkeys, hvisits]
    · rw [hkept, hverdicts, Filter.staying_map, htake, List.filter_filter]
      congr 2
      funext u
      simp [Bool.and_comm]
    · rw [hun, hverdicts, List.length_map, hdrop]
  · rintro rfl
    exact ⟨filterRecords_of_empty hs hstride hl, filter_of_empty hs hl⟩

/-- Pairs with the keys `1`, `3` and `3` keep the candidates `1` and `3` up to the boundary; no pairs keep none. -/
theorem filterRecords_spec_on_pairs :
    (∃ c', (slice #[.ofInt 1, .ofInt 7, .ofInt 3, .ofInt 7, .ofInt 3, .ofInt 8] : Store .w32).filterRecords .retain 2
        (.ofInt 3) 0 6 (.ofWords #[.ofInt 1, .ofInt 2, .ofInt 3, .ofInt 3, .ofInt 4]) = .ok (.ok c') ∧
      c'.kept = [.ofInt 1, .ofInt 3, .ofInt 3] ∧ c'.unvisited = [.ofInt 4]) ∧
    (slice #[.ofInt 1, .ofInt 7] : Store .w32).filterRecords .reject 2 (.ofInt 3) 2 2 (.ofWords #[.ofInt 1]) =
      .ok (.ok (.ofWords #[.ofInt 1])) := by
  constructor
  · obtain ⟨c', hrun, -, -, -, hkept, hun⟩ := (filterRecords_spec (k := .w32)
      (s := slice #[.ofInt 1, .ofInt 7, .ofInt 3, .ofInt 7, .ofInt 3, .ofInt 8])
      (c := .ofWords #[.ofInt 1, .ofInt 2, .ofInt 3, .ofInt 3, .ofInt 4]) (by decide : 6 < 2 ^ 63) (by decide : 0 < 2)
      (by decide : 0 ≤ 6) (by decide) (by decide) ⟨by decide, by decide, by decide⟩ .retain (.ofInt 3)).1 (by decide)
      (by decide) (by decide)
    exact ⟨c', hrun, hkept.trans (by decide), hun.trans (by decide)⟩
  · exact ((filterRecords_spec (k := .w32) (s := slice #[.ofInt 1, .ofInt 7]) (c := .ofWords #[.ofInt 1])
      (by decide : 2 < 2 ^ 63) (by decide : 0 < 2) (by decide : 2 ≤ 2) (by decide) (by decide)
      ⟨by decide, by decide, by decide⟩ .reject (.ofInt 3)).2 rfl).1

end Store

end PagedWords
