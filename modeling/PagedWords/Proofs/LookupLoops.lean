import PagedWords.Search
import PagedWords.Proofs.CandidateCursors

/-!
# Searches and filters as loops

The searches and filters count their rounds down. Here each is a loop that goes on until a round ends it. A count that
covers the records, and for a filter the candidates as well, is never used up: what a counted run answers, the loop
answers too, so the loop ends.
-/
namespace PagedWords
variable {k : Width}

/-- A loop as it runs, in however many rounds: each round ends it with an answer or leaves a state for the next. -/
inductive Loop {S R : Type} (round : S → Except Fault (S ⊕ R)) : S → R → Prop
  | done {s : S} {r : R} (h : round s = .ok (.inr r)) : Loop round s r
  | next {s s' : S} {r : R} (h : round s = .ok (.inl s')) (rest : Loop round s' r) : Loop round s r

namespace Search
variable {σ : Type} [Cells σ k] {a : σ} {stride start stop : Nat} {key : Word k}

/-- Where a search stands: it halves the records `low..high`, or looks at those from `pos` on one by one. -/
inductive Seeking | halving (low high : Nat) | scanning (pos stop : Nat)

/-- Where a search begins. -/
def Seeking.first (stride start stop : Nat) : Strategy → Seeking
  | .linear => .scanning start stop
  | .bisect => .halving 0 ((stop - start) / stride)

def seekRound (a : σ) (stride : Nat) (key : Word k) (start : Nat) : Seeking → Except Fault (Seeking ⊕ Finding)
  | .halving low high =>
      if k.linearCutoff ≤ high - low then do
        let mid := low + (high - low) / 2
        let w ← Cells.get a (start + mid * stride)
        if w < key then return .inl (.halving (mid + 1) high)
        else if key < w then return .inl (.halving low mid)
        else return .inr (.found (start + mid * stride))
      else return .inl (.scanning (start + low * stride) (start + high * stride))
  | .scanning pos stop =>
      if pos < stop then do
        let w ← Cells.get a pos
        if w = key then return .inr (.found pos)
        else if key < w then return .inr (.missing pos)
        else return .inl (.scanning (pos + stride) stop)
      else return .inr (.missing stop)

theorem scan_loop (hs : 0 < stride) {n pos : Nat} {r : Finding} (hstop : pos + n * stride = stop)
    (h : scan a stride key stop n pos = .ok r) : Loop (seekRound a stride key start) (.scanning pos stop) r := by
  induction n generalizing pos with
  | zero =>
    cases h
    exact .done (if_neg (by omega))
  | succ n ih =>
    rw [Nat.succ_mul] at hstop
    have hlt : pos < stop := by omega
    obtain ⟨w, hget, h⟩ := bind_eq_ok_iff.1 h
    by_cases heq : w = key
    · rw [if_pos heq] at h
      cases h
      refine .done ?_
      simp only [seekRound, if_pos hlt, hget, if_pos heq, bind, Except.bind, pure, Except.pure]
    rw [if_neg heq] at h
    by_cases hgt : key < w
    · rw [if_pos hgt] at h
      cases h
      refine .done ?_
      simp only [seekRound, if_pos hlt, hget, if_neg heq, if_pos hgt, bind, Except.bind, pure, Except.pure]
    · rw [if_neg hgt] at h
      refine .next ?_ (ih (by omega) h)
      simp only [seekRound, if_pos hlt, hget, if_neg heq, if_neg hgt, bind, Except.bind, pure, Except.pure]

/-- Each round of a bisection leaves fewer records, and one at least is looked at. -/
theorem bisectFrom_loop (hs : 0 < stride) {fuel low high : Nat} {r : Finding} (hle : low ≤ high)
    (hfuel : high - low ≤ fuel) (h : bisectFrom a stride key start fuel low high = .ok r) :
    Loop (seekRound a stride key start) (.halving low high) r := by
  have hcut := k.linearCutoff_pos
  have hscan : ∀ {low high : Nat}, low ≤ high → high - low < k.linearCutoff →
      scanBetween a stride key start low high = .ok r → Loop (seekRound a stride key start) (.halving low high) r := by
    intro low high hle hfew h
    have hspan : low * stride + (high - low) * stride = high * stride := by rw [← Nat.add_mul, Nat.add_sub_of_le hle]
    exact .next (if_neg (by omega)) (scan_loop hs (by omega) h)
  induction fuel generalizing low high with
  | zero => exact hscan hle (by omega) h
  | succ fuel ih =>
    rw [bisectFrom] at h
    by_cases hlong : k.linearCutoff ≤ high - low
    · rw [if_pos hlong] at h
      obtain ⟨w, hget, h⟩ := bind_eq_ok_iff.1 h
      by_cases hbelow : w < key
      · rw [if_pos hbelow] at h
        refine .next ?_ (ih (by omega) (by omega) h)
        simp only [seekRound, if_pos hlong, hget, if_pos hbelow, bind, Except.bind, pure, Except.pure]
      rw [if_neg hbelow] at h
      by_cases habove : key < w
      · rw [if_pos habove] at h
        refine .next ?_ (ih (by omega) (by omega) h)
        simp only [seekRound, if_pos hlong, hget, if_neg hbelow, if_pos habove, bind, Except.bind, pure, Except.pure]
      · rw [if_neg habove] at h
        cases h
        refine .done ?_
        simp only [seekRound, if_pos hlong, hget, if_neg hbelow, if_neg habove, bind, Except.bind, pure, Except.pure]
    · rw [if_neg hlong] at h
      exact hscan hle (by omega) h

/-- Where a search for the bound stands: it halves the records `low..high`, or steps through them. -/
inductive Bounding | halving (low high : Nat) | stepping (low high : Nat)

def boundRound (a : σ) (stride : Nat) (key : Word k) (start : Nat) : Bounding → Except Fault (Bounding ⊕ Nat)
  | .halving low high =>
      if k.linearCutoff ≤ high - low then do
        let mid := low + (high - low) / 2
        let w ← Cells.get a (start + mid * stride)
        if w < key then return .inl (.halving (mid + 1) high) else return .inl (.halving low mid)
      else return .inl (.stepping low high)
  | .stepping low high =>
      if low < high then do
        let w ← Cells.get a (start + low * stride)
        if w < key then return .inl (.stepping (low + 1) high) else return .inr low
      else return .inr low

private theorem skipBelow_loop {n low high i : Nat} (hn : low + n = high)
    (h : skipBelow a stride key start n low = .ok i) :
    Loop (boundRound a stride key start) (.stepping low high) i := by
  induction n generalizing low with
  | zero =>
    cases h
    exact .done (if_neg (by omega))
  | succ n ih =>
    have hlt : low < high := by omega
    obtain ⟨w, hget, h⟩ := bind_eq_ok_iff.1 h
    by_cases hbelow : w < key
    · rw [if_pos hbelow] at h
      refine .next ?_ (ih (by omega) h)
      simp only [boundRound, if_pos hlt, hget, if_pos hbelow, bind, Except.bind, pure, Except.pure]
    · rw [if_neg hbelow] at h
      cases h
      refine .done ?_
      simp only [boundRound, if_pos hlt, hget, if_neg hbelow, bind, Except.bind, pure, Except.pure]

theorem boundFrom_loop {fuel low high i : Nat} (hle : low ≤ high) (hfuel : high - low ≤ fuel)
    (h : boundFrom a stride key start fuel low high = .ok i) :
    Loop (boundRound a stride key start) (.halving low high) i := by
  have hcut := k.linearCutoff_pos
  have hskip : ∀ {low high : Nat}, low ≤ high → high - low < k.linearCutoff →
      skipBelow a stride key start (high - low) low = .ok i →
      Loop (boundRound a stride key start) (.halving low high) i :=
    fun hle hfew h => .next (if_neg (by omega)) (skipBelow_loop (Nat.add_sub_of_le hle) h)
  induction fuel generalizing low high with
  | zero => exact hskip hle (by omega) h
  | succ fuel ih =>
    rw [boundFrom] at h
    by_cases hlong : k.linearCutoff ≤ high - low
    · rw [if_pos hlong] at h
      obtain ⟨w, hget, h⟩ := bind_eq_ok_iff.1 h
      by_cases hbelow : w < key
      · rw [if_pos hbelow] at h
        refine .next ?_ (ih (by omega) (by omega) h)
        simp only [boundRound, if_pos hlong, hget, if_pos hbelow, bind, Except.bind, pure, Except.pure]
      · rw [if_neg hbelow] at h
        refine .next ?_ (ih (by omega) (by omega) h)
        simp only [boundRound, if_pos hlong, hget, if_neg hbelow, bind, Except.bind, pure, Except.pure]
    · rw [if_neg hlong] at h
      exact hskip hle (by omega) h

/-- A search for the bound from word to word. -/
def firstRound (a : σ) (key : Word k) (stop pos : Nat) : Except Fault (Nat ⊕ Nat) :=
  if pos < stop then do
    let w ← Cells.get a pos
    if w < key then return .inl (pos + 1) else return .inr pos
  else return .inr stop

theorem firstNotBelow_loop {n pos p : Nat} (hn : pos + n = stop) (h : firstNotBelow a key stop n pos = .ok p) :
    Loop (firstRound a key stop) pos p := by
  induction n generalizing pos with
  | zero =>
    cases h
    exact .done (if_neg (by omega))
  | succ n ih =>
    have hlt : pos < stop := by omega
    obtain ⟨w, hget, h⟩ := bind_eq_ok_iff.1 h
    by_cases hbelow : w < key
    · rw [if_pos hbelow] at h
      refine .next ?_ (ih (by omega) h)
      simp only [firstRound, if_pos hlt, hget, if_pos hbelow, bind, Except.bind, pure, Except.pure]
    · rw [if_neg hbelow] at h
      cases h
      refine .done ?_
      simp only [firstRound, if_pos hlt, hget, if_neg hbelow, bind, Except.bind, pure, Except.pure]

end Search

namespace Filter
variable {σ : Type} [Cells σ k] {a : σ} {how : Membership} {stride stop : Nat} {boundary : Word k}

/-- Where a filter stands: it walks along candidates and keys, or the keys are used up. -/
inductive Walking (k : Width) | walking (pos : Nat) (key : Word k) (c : Candidates k) | absent (c : Candidates k)

def walkRound (a : σ) (how : Membership) (stride : Nat) (boundary : Word k) (stop : Nat) :
    Walking k → Except Fault (Walking k ⊕ Candidates k)
  | .walking pos key c =>
      if c.hasUnvisited then do
        let w ← c.current
        if boundary < w then return .inr c
        else if w = key then return .inl (.walking pos key (← visit how true c))
        else if w < key then return .inl (.walking pos key (← visit how false c))
        else if stop ≤ pos + stride then return .inl (.absent c)
        else return .inl (.walking (pos + stride) (← Cells.get a (pos + stride)) c)
      else return .inr c
  | .absent c =>
      if c.hasUnvisited then do
        let w ← c.current
        if boundary < w then return .inr c else return .inl (.absent (← visit how false c))
      else return .inr c

theorem visit_cursor {present : Bool} {c c' : Candidates k} (h : visit how present c = .ok c') :
    c'.read = c.read + 1 ∧ c'.stop = c.stop := by
  rw [visit] at h
  split at h
  · obtain ⟨-, -, hread, -, hstop⟩ := Candidates.keep_eq_ok h
    exact ⟨hread, hstop⟩
  · cases h
    exact ⟨rfl, rfl⟩

private theorem visitAbsent_loop {n : Nat} {c c' : Candidates k} (hn : c.stop - c.read ≤ n)
    (h : visitAbsent how boundary n c = .ok c') : Loop (walkRound a how stride boundary stop) (.absent c) c' := by
  have hnone : ∀ {c : Candidates k}, c.hasUnvisited = false →
      Loop (walkRound a how stride boundary stop) (.absent c) c := by
    intro c hno
    refine .done ?_
    simp only [walkRound, hno, Bool.false_eq_true, if_false, pure, Except.pure]
  induction n generalizing c with
  | zero =>
    cases h
    exact hnone (Candidates.hasUnvisited_eq_false_iff.2 (by omega))
  | succ n ih =>
    rw [visitAbsent] at h
    cases hmore : c.hasUnvisited with
    | false =>
      rw [if_neg (by simp [hmore])] at h
      cases h
      exact hnone hmore
    | true =>
      rw [if_pos hmore] at h
      obtain ⟨w, hcur, h⟩ := bind_eq_ok_iff.1 h
      by_cases habove : boundary < w
      · rw [if_pos habove] at h
        cases h
        refine .done ?_
        simp only [walkRound, hmore, if_true, hcur, if_pos habove, bind, Except.bind, pure, Except.pure]
      · rw [if_neg habove] at h
        obtain ⟨c₁, hvisit, h⟩ := bind_eq_ok_iff.1 h
        obtain ⟨hread, hstop⟩ := visit_cursor hvisit
        refine .next ?_ (ih (by omega) h)
        simp only [walkRound, hmore, if_true, hcur, if_neg habove, hvisit, bind, Except.bind, pure, Except.pure]

/-- Each round passes a candidate or a record, so the candidates and words that are left bound the rounds. -/
theorem walk_loop (hs : 0 < stride) {fuel pos : Nat} {key : Word k} {c c' : Candidates k}
    (hfuel : c.stop - c.read + (stop - pos) ≤ fuel) (h : walk a how stride boundary stop fuel pos key c = .ok c') :
    Loop (walkRound a how stride boundary stop) (.walking pos key c) c' := by
  have hnone : ∀ {pos : Nat} {key : Word k} {c : Candidates k}, c.hasUnvisited = false →
      Loop (walkRound a how stride boundary stop) (.walking pos key c) c := by
    intro pos key c hno
    refine .done ?_
    simp only [walkRound, hno, Bool.false_eq_true, if_false, pure, Except.pure]
  induction fuel generalizing pos key c with
  | zero =>
    cases h
    exact hnone (Candidates.hasUnvisited_eq_false_iff.2 (by omega))
  | succ fuel ih =>
    rw [walk] at h
    cases hmore : c.hasUnvisited with
    | false =>
      rw [if_neg (by simp [hmore])] at h
      cases h
      exact hnone hmore
    | true =>
      have hlt : c.read < c.stop := of_decide_eq_true hmore
      rw [if_pos hmore] at h
      obtain ⟨w, hcur, h⟩ := bind_eq_ok_iff.1 h
      by_cases habove : boundary < w
      · rw [if_pos habove] at h
        cases h
        refine .done ?_
        simp only [walkRound, hmore, if_true, hcur, if_pos habove, bind, Except.bind, pure, Except.pure]
      rw [if_neg habove] at h
      by_cases heq : w = key
      · rw [if_pos heq] at h
        obtain ⟨c₁, hvisit, h⟩ := bind_eq_ok_iff.1 h
        obtain ⟨hread, hstop⟩ := visit_cursor hvisit
        refine .next ?_ (ih (by omega) h)
        simp only [walkRound, hmore, if_true, hcur, if_neg habove, if_pos heq, hvisit, bind, Except.bind, pure,
          Except.pure]
      rw [if_neg heq] at h
      by_cases hbelow : w < key
      · rw [if_pos hbelow] at h
        obtain ⟨c₁, hvisit, h⟩ := bind_eq_ok_iff.1 h
        obtain ⟨hread, hstop⟩ := visit_cursor hvisit
        refine .next ?_ (ih (by omega) h)
        simp only [walkRound, hmore, if_true, hcur, if_neg habove, if_neg heq, if_pos hbelow, hvisit, bind, Except.bind,
          pure, Except.pure]
      rw [if_neg hbelow] at h
      by_cases hend : stop ≤ pos + stride
      · rw [if_pos hend] at h
        refine .next ?_ (visitAbsent_loop (Nat.le_refl _) h)
        simp only [walkRound, hmore, if_true, hcur, if_neg habove, if_neg heq, if_neg hbelow, if_pos hend, bind,
          Except.bind, pure, Except.pure]
      · rw [if_neg hend] at h
        obtain ⟨w', hget, h⟩ := bind_eq_ok_iff.1 h
        refine .next ?_ (ih (by omega) h)
        simp only [walkRound, hmore, if_true, hcur, if_neg habove, if_neg heq, if_neg hbelow, if_neg hend, hget, bind,
          Except.bind, pure, Except.pure]

end Filter

namespace Paged
variable {a : Paged k} {how : Membership} {boundary : Word k} {stop : Nat}

/-- A filter from page to page. -/
def pageRound (a : Paged k) (how : Membership) (boundary : Word k) (stop : Nat) :
    Nat × Candidates k → Except Fault ((Nat × Candidates k) ⊕ Candidates k)
  | (pos, c) =>
      if stop ≤ pos then .ok (.inr c)
      else do
        let (piece, next) ← a.partition.piece pos stop
        if !c.hasUnvisited then return .inr c
        let p ← a.page piece.page
        let pageBoundary ←
          if next < stop then Word.min boundary <$> p.get (piece.stop - 1) else .ok boundary
        let c ← Filter.filter p.words how pageBoundary piece.start piece.stop c
        return .inl (next, c)

theorem filterFrom_loop (hp : a.partition.Valid) (hstop : stop ≤ 2 ^ 63) {fuel pos : Nat} {c c' : Candidates k}
    (hfuel : stop - pos ≤ fuel) (h : a.filterFrom how boundary stop fuel pos c = .ok c') :
    Loop (a.pageRound how boundary stop) (pos, c) c' := by
  induction fuel generalizing pos c with
  | zero =>
    cases h
    exact .done (if_pos (by omega))
  | succ fuel ih =>
    rw [filterFrom] at h
    by_cases hend : stop ≤ pos
    · rw [if_pos hend] at h
      cases h
      exact .done (if_pos hend)
    obtain ⟨piece, next, hrun, hpiece, -⟩ := Partition.piece_eq_ok hp (Nat.lt_of_not_le hend) hstop
    have hlt := hpiece.lt
    rw [if_neg hend] at h
    obtain ⟨_, hrun', h⟩ := bind_eq_ok_iff.1 h
    cases hrun.symm.trans hrun'
    cases hmore : c.hasUnvisited with
    | false =>
      simp only [hmore, Bool.not_false, if_true, pure, Except.pure] at h
      cases h
      refine .done ?_
      simp only [pageRound, if_neg hend, hrun, hmore, bind, Except.bind, Bool.not_false, if_true, pure, Except.pure]
    | true =>
      simp only [hmore, Bool.not_true, Bool.false_eq_true, if_false] at h
      obtain ⟨p, hpage, h⟩ := bind_eq_ok_iff.1 h
      by_cases hmid : next < stop
      · simp only [if_pos hmid] at h
        obtain ⟨b, hb, h⟩ := bind_eq_ok_iff.1 h
        obtain ⟨c₁, hfilter, h⟩ := bind_eq_ok_iff.1 h
        refine .next ?_ (ih (by omega) h)
        simp only [pageRound, if_neg hend, hrun, hmore, hpage, if_pos hmid, hb, hfilter, bind, Except.bind,
          Bool.not_true, Bool.false_eq_true, if_false, pure, Except.pure]
      · simp only [if_neg hmid] at h
        obtain ⟨_, ⟨⟩, h⟩ := bind_eq_ok_iff.1 h
        obtain ⟨c₁, hfilter, h⟩ := bind_eq_ok_iff.1 h
        refine .next ?_ (ih (by omega) h)
        simp only [pageRound, if_neg hend, hrun, hmore, hpage, if_neg hmid, hfilter, bind, Except.bind, Bool.not_true,
          Bool.false_eq_true, if_false, pure, Except.pure]

end Paged
end PagedWords
