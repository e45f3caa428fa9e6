import PagedWords.Filter
import PagedWords.Proofs.ShownKeys

/-!
# Filters as lists of verdicts

A walk along candidates and keys decides for each candidate it passes whether it is a key. What it decides
depends on the values alone, and what becomes of the candidates on the verdicts alone.
-/
namespace PagedWords
variable {k : Width}

namespace Candidates

def kept (c : Candidates k) : List (Word k) := c.data.toList.take c.write

def unvisited (c : Candidates k) : List (Word k) := stretch c.data.toList c.read (c.stop - c.read)

structure WellFormed (c : Candidates k) : Prop where
  write_le : c.write ≤ c.read
  read_le : c.read ≤ c.stop
  stop_le : c.stop ≤ c.data.size

variable {c : Candidates k} {u : Word k} {us : List (Word k)}

theorem WellFormed.length_unvisited (hc : c.WellFormed) : c.unvisited.length = c.stop - c.read := by
  have hread := hc.read_le
  have hstop := hc.stop_le
  exact length_stretch (by rw [Array.length_toList]; omega)

theorem WellFormed.hasUnvisited_of_nil (hc : c.WellFormed) (h : c.unvisited = []) : c.hasUnvisited = false := by
  have hlen := hc.length_unvisited
  rw [h, List.length_nil] at hlen
  exact decide_eq_false (by omega)

theorem WellFormed.read_lt (hc : c.WellFormed) (h : c.unvisited = u :: us) : c.read < c.stop := by
  have hlen := hc.length_unvisited
  rw [h, List.length_cons] at hlen
  omega

theorem WellFormed.unvisited_eq_cons (hc : c.WellFormed) (h : c.unvisited = u :: us) :
    c.data[c.read]? = some u ∧ stretch c.data.toList (c.read + 1) (c.stop - (c.read + 1)) = us := by
  have hlt := hc.read_lt h
  have hstop := hc.stop_le
  have hread : c.read < c.data.toList.length := by rw [Array.length_toList]; omega
  have hn : c.stop - c.read = c.stop - (c.read + 1) + 1 := by omega
  rw [unvisited, hn, stretch_succ _ hread] at h
  obtain ⟨hu, hus⟩ := List.cons.inj h
  exact ⟨by rw [← Array.getElem?_toList, List.getElem?_eq_getElem hread, hu], hus⟩

theorem WellFormed.current_eq (hc : c.WellFormed) (h : c.unvisited = u :: us) :
    c.hasUnvisited = true ∧ c.current = .ok u := by
  have hmore : c.hasUnvisited = true := decide_eq_true (hc.read_lt h)
  refine ⟨hmore, ?_⟩
  simp only [current, hmore, if_true, (hc.unvisited_eq_cons h).1]

theorem drop_spec (hc : c.WellFormed) (h : c.unvisited = u :: us) :
    c.drop.WellFormed ∧ c.drop.kept = c.kept ∧ c.drop.unvisited = us := by
  have hlt := hc.read_lt h
  exact ⟨⟨Nat.le_succ_of_le hc.write_le, hlt, hc.stop_le⟩, rfl, (hc.unvisited_eq_cons h).2⟩

/-- The kept word goes down to a place that has been read already. -/
theorem keep_spec (hc : c.WellFormed) (h : c.unvisited = u :: us) :
    ∃ c', c.keep = .ok c' ∧ c'.stop = c.stop ∧ c'.WellFormed ∧ c'.kept = c.kept ++ [u] ∧ c'.unvisited = us := by
  have hlt := hc.read_lt h
  have hwrite : c.write < c.data.size := by
    have := hc.write_le
    have := hc.stop_le
    omega
  obtain ⟨hu, hus⟩ := hc.unvisited_eq_cons h
  refine ⟨{ c with data := Array.set c.data c.write u hwrite, read := c.read + 1, write := c.write + 1 }, ?_, rfl,
    ⟨Nat.succ_le_succ hc.write_le, hlt, ?_⟩, ?_, ?_⟩
  · simp only [keep, hu, dif_pos hwrite]
  · rw [Array.size_set]
    exact hc.stop_le
  · have hlen : c.write < (c.data.toList.set c.write u).length := by
      rw [List.length_set, Array.length_toList]
      exact hwrite
    show (Array.set c.data c.write u hwrite).toList.take (c.write + 1) = c.data.toList.take c.write ++ [u]
    rw [Array.toList_set, List.take_succ_eq_append_getElem hlen, List.take_set_of_le (Nat.le_refl _),
      List.getElem_set_self]
  · show stretch (Array.set c.data c.write u hwrite).toList (c.read + 1) (c.stop - (c.read + 1)) = us
    rw [Array.toList_set, stretch_set_of_lt (Nat.lt_succ_of_le hc.write_le), hus]

end Candidates

namespace Filter
variable {how : Membership} {c : Candidates k}

/-- The candidates that stay, of those that are judged. -/
def staying (how : Membership) (bs : List Bool) (us : List (Word k)) : List (Word k) :=
  ((us.zip bs).filter (fun p => how.keeps p.2)).map Prod.fst

theorem visit_spec (how : Membership) (hc : c.WellFormed) {u : Word k} {us : List (Word k)}
    (h : c.unvisited = u :: us) (b : Bool) :
    ∃ c', visit how b c = .ok c' ∧ c'.stop = c.stop ∧ c'.WellFormed ∧ c'.kept = c.kept ++ staying how [b] [u] ∧
      c'.unvisited = us := by
  cases hk : how.keeps b with
  | true =>
    obtain ⟨c', hkeep, hc'⟩ := Candidates.keep_spec hc h
    refine ⟨c', by rw [visit, if_pos hk, hkeep], ?_⟩
    simpa [staying, hk] using hc'
  | false =>
    obtain ⟨hc', hkept, hus⟩ := Candidates.drop_spec hc h
    refine ⟨c.drop, by rw [visit, if_neg (by simp [hk])], rfl, hc', ?_, hus⟩
    simpa [staying, hk] using hkept

/-- Visits as many candidates as there are verdicts. -/
def visitAll (how : Membership) : List Bool → Candidates k → Except Fault (Candidates k)
  | [], c => .ok c
  | b :: bs, c => do visitAll how bs (← visit how b c)

theorem visitAll_append (bs bs' : List Bool) (c : Candidates k) :
    visitAll how (bs ++ bs') c = (do visitAll how bs' (← visitAll how bs c)) := by
  induction bs generalizing c with
  | nil => rfl
  | cons b bs ih =>
    rw [List.cons_append, visitAll, visitAll]
    cases visit how b c with
    | error e => rfl
    | ok c' => exact ih c'

theorem visitAll_spec (how : Membership) {bs : List Bool} (hc : c.WellFormed) (hb : bs.length ≤ c.unvisited.length) :
    ∃ c', visitAll how bs c = .ok c' ∧ c'.stop = c.stop ∧ c'.WellFormed ∧
      c'.kept = c.kept ++ staying how bs c.unvisited ∧ c'.unvisited = c.unvisited.drop bs.length := by
  induction bs generalizing c with
  | nil => exact ⟨c, rfl, rfl, hc, by simp [staying], rfl⟩
  | cons b bs ih =>
    cases hus : c.unvisited with
    | nil => simp [hus] at hb
    | cons u us =>
      obtain ⟨c₁, hvisit, hstop, hc₁, hkept, hun⟩ := visit_spec how hc hus b
      rw [hus, ← hun, List.length_cons, List.length_cons] at hb
      obtain ⟨c₂, hrest, hstop₂, hc₂, hkept₂, hun₂⟩ := ih hc₁ (by omega)
      refine ⟨c₂, ?_, hstop₂.trans hstop, hc₂, ?_, ?_⟩
      · simp only [visitAll, hvisit, bind, Except.bind, hrest]
      · rw [hkept₂, hkept, hun, List.append_assoc]
        congr 1
        simp only [staying, List.zip_cons_cons, List.zip_nil_right, List.filter_cons, List.filter_nil]
        cases how.keeps b <;> rfl
      · rw [hun₂, hun]
        rfl

/-- Whether the candidates up to the boundary are keys, as a walk along both finds out. Once the keys are
used up no candidate is one. -/
def verdicts (boundary : Word k) : List (Word k) → List (Word k) → List Bool
  | _, [] => []
  | [], u :: us => if boundary < u then [] else false :: verdicts boundary [] us
  | key :: keys, u :: us =>
      if boundary < u then []
      else if u = key then true :: verdicts boundary (key :: keys) us
      else if u < key then false :: verdicts boundary (key :: keys) us
      else verdicts boundary keys (u :: us)
termination_by keys us => keys.length + us.length

@[simp] theorem verdicts_nil (boundary : Word k) (keys : List (Word k)) : verdicts boundary keys [] = [] := by
  cases keys <;> rw [verdicts]

theorem length_verdicts_le (boundary : Word k) (keys us : List (Word k)) :
    (verdicts boundary keys us).length ≤ us.length := by
  fun_induction verdicts boundary keys us <;> simp_all

private theorem visitAbsent_eq {boundary : Word k} (n : Nat) :
    ∀ {c : Candidates k}, c.WellFormed → c.unvisited.length ≤ n →
    visitAbsent how boundary n c = visitAll how (verdicts boundary [] c.unvisited) c := by
  induction n with
  | zero =>
    intro c hc hn
    rw [List.eq_nil_of_length_eq_zero (Nat.le_zero.1 hn), verdicts_nil]
    rfl
  | succ n ih =>
    intro c hc hn
    cases hus : c.unvisited with
    | nil =>
      simp only [visitAbsent, hc.hasUnvisited_of_nil hus, verdicts_nil, visitAll, Bool.false_eq_true, if_false]
    | cons u us =>
      obtain ⟨hmore, hcur⟩ := hc.current_eq hus
      rw [hus, List.length_cons] at hn
      simp only [visitAbsent, hmore, hcur, if_true, bind, Except.bind, pure, Except.pure]
      rw [verdicts]
      by_cases hb : boundary < u
      · rw [if_pos hb, if_pos hb]
        rfl
      · obtain ⟨c', hvisit, -, hc', -, hun⟩ := visit_spec how hc hus false
        rw [if_neg hb, if_neg hb, visitAll, hvisit, ← hun]
        exact ih hc' (by rw [hun]; omega)

theorem le_of_judged {boundary u : Word k} {keys us : List (Word k)}
    (h : u ∈ us.take (verdicts boundary keys us).length) : u ≤ boundary := by
  have hcons : ∀ {v : Word k} {vs : List (Word k)} {n : Nat}, ¬boundary < v → (u ∈ vs.take n → u ≤ boundary) →
      u ∈ (v :: vs).take (n + 1) → u ≤ boundary := by
    intro v vs n hv hrest hu
    rcases List.mem_cons.1 hu with rfl | hu
    · exact Word.not_lt.1 hv
    · exact hrest hu
  fun_induction verdicts boundary keys us with
  | case1 keys => exact nomatch h
  | case2 v vs habove => exact nomatch h
  | case3 v vs hv ih => exact hcons hv ih h
  | case4 key keys v vs habove => exact nomatch h
  | case5 key keys vs hv ih => exact hcons hv ih h
  | case6 key keys v vs hv hne hlt ih => exact hcons hv ih h
  | case7 key keys v vs hv hne hlt ih => exact ih h

variable {σ : Type} [Cells σ k] {a : σ} {stride stop : Nat} {boundary : Word k}

private theorem walk_eq (hs : 0 < stride) (fuel : Nat) :
    ∀ {pos : Nat} {key : Word k} {keys : List (Word k)} {c : Candidates k},
    c.WellFormed → Cells.ShowsKeys a stride pos (key :: keys) → pos + (keys.length + 1) * stride = stop →
    c.unvisited.length + keys.length ≤ fuel →
    walk a how stride boundary stop fuel pos key c = visitAll how (verdicts boundary (key :: keys) c.unvisited) c := by
  induction fuel with
  | zero =>
    intro pos key keys c hc hkeys hpos hfuel
    rw [List.eq_nil_of_length_eq_zero (by omega : c.unvisited.length = 0), verdicts_nil]
    rfl
  | succ fuel ih =>
    intro pos key keys c hc hkeys hpos hfuel
    cases hus : c.unvisited with
    | nil => simp only [walk, hc.hasUnvisited_of_nil hus, verdicts_nil, visitAll, Bool.false_eq_true, if_false]
    | cons u us =>
      obtain ⟨hmore, hcur⟩ := hc.current_eq hus
      have hlen : c.unvisited.length = us.length + 1 := by rw [hus, List.length_cons]
      have hvisited : ∀ b, (do walk a how stride boundary stop fuel pos key (← visit how b c)) =
          (do
            let c ← visit how b c
            visitAll how (verdicts boundary (key :: keys) us) c) := by
        intro b
        obtain ⟨c', hvisit, -, hc', -, hun⟩ := visit_spec how hc hus b
        rw [hvisit, ← hun]
        exact ih hc' hkeys hpos (by rw [hun]; omega)
      simp only [walk, hmore, hcur, if_true, bind, Except.bind, pure, Except.pure]
      rw [verdicts]
      by_cases hb : boundary < u
      · rw [if_pos hb, if_pos hb]
        rfl
      rw [if_neg hb, if_neg hb]
      by_cases heq : u = key
      · rw [if_pos heq, if_pos heq]
        exact hvisited true
      rw [if_neg heq, if_neg heq]
      by_cases hbelow : u < key
      · rw [if_pos hbelow, if_pos hbelow]
        exact hvisited false
      rw [if_neg hbelow, if_neg hbelow, ← hus]
      cases keys with
      | nil =>
        rw [List.length_nil] at hpos
        rw [if_pos (by omega)]
        exact visitAbsent_eq _ hc (Nat.le_of_eq hc.length_unvisited)
      | cons next keys =>
        rw [List.length_cons] at hpos hfuel
        have hnext : pos + stride + (keys.length + 1) * stride = stop := by
          rw [← hpos, Nat.succ_mul (keys.length + 1)]
          omega
        have hrecord : stride ≤ (keys.length + 1) * stride := Nat.le_mul_of_pos_left _ (Nat.succ_pos _)
        rw [if_neg (by omega), hkeys.tail.head]
        exact ih hc hkeys.tail hnext (by omega)

theorem walkRange_of_shows (hs : 0 < stride) {keys : List (Word k)} {start : Nat}
    (hkeys : Cells.ShowsKeys a stride start keys) (hstop : start + keys.length * stride = stop) (hlt : start < stop)
    (hc : c.WellFormed) :
    walkRange a how stride boundary start stop c = visitAll how (verdicts boundary keys c.unvisited) c := by
  cases keys with
  | nil =>
    rw [List.length_nil] at hstop
    omega
  | cons key keys =>
    have hfew : keys.length + 1 ≤ (keys.length + 1) * stride := Nat.le_mul_of_pos_right _ hs
    rw [List.length_cons] at hstop
    rw [walkRange, if_neg (by omega), hkeys.head]
    exact walk_eq hs _ hc hkeys hstop (by rw [hc.length_unvisited]; omega)

theorem walkRange_eq {l : List (Word k)} (ha : Cells.Reads a l) {start : Nat} (hr : RecordRange l stride start stop)
    (hlt : start < stop) (hc : c.WellFormed) :
    walkRange a how stride boundary start stop c =
      visitAll how (verdicts boundary (recordKeys l stride start stop) c.unvisited) c :=
  walkRange_of_shows hr.pos (ha.showsRange hr) hr.add_keys hlt hc

end Filter
end PagedWords
