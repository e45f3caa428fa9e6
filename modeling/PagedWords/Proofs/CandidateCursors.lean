import PagedWords.Proofs.CandidateHistories

/-!
# The cursors of a candidate list

A single step does not ask whether there is a candidate to visit. Taken where none is left, it puts the read cursor
past the end; from there the list cannot be rewound, as the count of what is not yet visited would be negative. Two
actions bring the cursor back, the one that drops the rest and the one that replaces the list.
-/
namespace PagedWords.Candidates
variable {k : Width} {c c' : Candidates k}

/-- What no action loses: the cursors stay within the vector, and as long as a candidate is left they are in order. -/
structure InBounds (c : Candidates k) : Prop where
  write_le : c.write ≤ c.data.size
  stop_le : c.stop ≤ c.data.size
  write_le_read : c.read < c.stop → c.write ≤ c.read

/-- The read cursor has passed the end. -/
def PastEnd (c : Candidates k) : Prop := c.stop < c.read

theorem hasUnvisited_eq_false_iff : c.hasUnvisited = false ↔ c.stop ≤ c.read := by
  rw [hasUnvisited, decide_eq_false_iff_not, Nat.not_lt]

theorem inBounds_ofWords (ws : Words k) : (ofWords ws).InBounds :=
  ⟨Nat.zero_le _, Nat.le_refl _, fun _ => Nat.le_refl _⟩

private theorem not_pastEnd_ofWords (ws : Words k) : ¬(ofWords ws).PastEnd := Nat.not_lt_zero ws.size

/-- A candidate is kept where both cursors are within the vector, whether or not it was still to be visited. -/
theorem keep_eq_ok (h : c.keep = .ok c') :
    c.write < c.data.size ∧ c'.data.size = c.data.size ∧ c'.read = c.read + 1 ∧ c'.write = c.write + 1 ∧
      c'.stop = c.stop := by
  unfold keep at h
  split at h
  · cases h
  split at h
  · next hlt =>
    cases h
    exact ⟨hlt, Array.size_set hlt, rfl, rfl, rfl⟩
  · cases h

theorem finalize_eq_ok (h : c.finalize = .ok c') :
    c.read ≤ c.stop ∧ c' = ⟨c.closeGap, 0, 0, c.write + (c.stop - c.read)⟩ := by
  unfold finalize at h
  split at h
  · cases h
  next hread =>
    split at h
    · cases h
    · cases h
      exact ⟨Nat.le_of_not_lt hread, rfl⟩

private theorem PastEnd.finalize_eq (h : c.PastEnd) : c.finalize = .error .overflow := if_pos h

private theorem size_closeGap (hc : c.InBounds) (hread : c.read ≤ c.stop) : c.closeGap.size = c.data.size := by
  obtain ⟨hwrite, hstop, hordered⟩ := hc
  simp only [closeGap, Array.size_append, Array.size_extract]
  omega

private theorem InBounds.finalize_eq (hc : c.InBounds) (hread : c.read ≤ c.stop) :
    c.finalize = .ok ⟨c.closeGap, 0, 0, c.write + (c.stop - c.read)⟩ := by
  obtain ⟨hwrite, hstop, hordered⟩ := hc
  rw [finalize, if_neg (Nat.not_lt.2 hread), if_neg (by omega)]

namespace InBounds

theorem keep (hc : c.InBounds) (h : c.keep = .ok c') : c'.InBounds := by
  obtain ⟨hlt, hsize, hread, hwrite, hstop⟩ := keep_eq_ok h
  obtain ⟨-, hle, hordered⟩ := hc
  exact ⟨by omega, by omega, by omega⟩

private theorem drop (hc : c.InBounds) : c.drop.InBounds :=
  ⟨hc.write_le, hc.stop_le, fun h => Nat.le_succ_of_le (hc.write_le_read (Nat.lt_of_succ_lt h))⟩

private theorem finalize (hc : c.InBounds) (h : c.finalize = .ok c') : c'.InBounds := by
  obtain ⟨hread, rfl⟩ := finalize_eq_ok h
  have hsize := size_closeGap hc hread
  obtain ⟨hwrite, hstop, hordered⟩ := hc
  refine ⟨Nat.zero_le _, ?_, fun _ => Nat.le_refl _⟩
  show c.write + (c.stop - c.read) ≤ c.closeGap.size
  omega

end InBounds

theorem keepMany_eq_ok (n : Nat) : ∀ {c : Candidates k}, keepMany n c = .ok c' →
    c'.read = c.read + n ∧ c'.stop = c.stop ∧ (c.InBounds → c'.InBounds) := by
  induction n with
  | zero =>
    intro c h
    cases h
    exact ⟨rfl, rfl, id⟩
  | succ n ih =>
    intro c h
    obtain ⟨c₁, hkeep, hrest⟩ := bind_eq_ok_iff.1 h
    obtain ⟨-, -, hread₁, -, hstop₁⟩ := keep_eq_ok hkeep
    obtain ⟨hread, hstop, hinBounds⟩ := ih hrest
    exact ⟨by omega, by omega, fun hc => hinBounds (hc.keep hkeep)⟩

namespace Action

/-- Whether the read cursor is set to a place within the list, wherever it was. -/
def leadsBack : Action k → Bool
  | dropRest | reset _ => true
  | keep | drop | keepRest | finalize => false

/-- A single step is taken with nothing left to visit, and no action after it leads back. -/
def Overrun (acts : List (Action k)) (c : Candidates k) : Prop :=
  ∃ before a after c₁, acts = before ++ a :: after ∧ runAll before c = .ok c₁ ∧ a.fits c₁ = false ∧
    ∀ b ∈ after, b.leadsBack = false

theorem run_inBounds {a : Action k} (hc : c.InBounds) (h : a.run c = .ok c') : c'.InBounds := by
  cases a with
  | keep => exact hc.keep h
  | drop =>
    cases h
    exact hc.drop
  | keepRest => exact (keepMany_eq_ok _ h).2.2 hc
  | dropRest =>
    cases h
    exact ⟨hc.write_le, hc.stop_le, fun h => absurd h (Nat.lt_irrefl _)⟩
  | finalize => exact hc.finalize h
  | reset ws =>
    cases h
    exact inBounds_ofWords ws

/-- A step passes the end if it meets a cursor there, or past it already; nothing else passes it. -/
theorem pastEnd_run_iff {a : Action k} (h : a.run c = .ok c') :
    c'.PastEnd ↔ a.fits c = false ∨ c.PastEnd ∧ a.leadsBack = false := by
  cases a with
  | keep =>
    obtain ⟨-, -, hread, -, hstop⟩ := keep_eq_ok h
    simp only [fits, hasUnvisited_eq_false_iff, leadsBack, PastEnd]
    omega
  | drop =>
    cases h
    simp only [fits, hasUnvisited_eq_false_iff, leadsBack, PastEnd, Candidates.drop]
    omega
  | keepRest =>
    obtain ⟨hread, hstop, -⟩ := keepMany_eq_ok _ h
    simp only [fits, leadsBack, PastEnd, reduceCtorEq, false_or, and_true]
    omega
  | dropRest =>
    cases h
    simp [fits, leadsBack, PastEnd, Candidates.dropRest]
  | finalize =>
    obtain ⟨hread, rfl⟩ := finalize_eq_ok h
    simp only [fits, leadsBack, PastEnd, reduceCtorEq, false_or, and_true]
    omega
  | reset ws =>
    cases h
    simp [fits, leadsBack, PastEnd, ofWords]

theorem runAll_cons_eq_ok {a : Action k} {acts : List (Action k)} (h : runAll (a :: acts) c = .ok c') :
    ∃ c₁, a.run c = .ok c₁ ∧ runAll acts c₁ = .ok c' :=
  bind_eq_ok_iff.1 h

private theorem overrun_cons_iff {a : Action k} {acts : List (Action k)} {c₁ : Candidates k} (ha : a.run c = .ok c₁) :
    Overrun (a :: acts) c ↔ (a.fits c = false ∧ ∀ b ∈ acts, b.leadsBack = false) ∨ Overrun acts c₁ := by
  constructor
  · rintro ⟨before, b, after, c₂, hsplit, hbefore, hfit, hafter⟩
    cases before with
    | nil =>
      cases hbefore
      cases hsplit
      exact .inl ⟨hfit, hafter⟩
    | cons a' before =>
      obtain ⟨rfl, rfl⟩ := List.cons.inj hsplit
      obtain ⟨c₁', ha', hbefore⟩ := runAll_cons_eq_ok hbefore
      cases Except.ok.inj (ha.symm.trans ha')
      exact .inr ⟨before, b, after, c₂, rfl, hbefore, hfit, hafter⟩
  · rintro (⟨hfit, hacts⟩ | ⟨before, b, after, c₂, rfl, hbefore, hfit, hafter⟩)
    · exact ⟨[], a, acts, c, rfl, rfl, hfit, hacts⟩
    · refine ⟨a :: before, b, after, c₂, rfl, ?_, hfit, hafter⟩
      simp only [runAll, ha, bind, Except.bind]
      exact hbefore

/-- The induction is on the actions, from any list: one that is past the end already stays there unless it is led
back. -/
theorem runAll_inBounds (acts : List (Action k)) : ∀ {c : Candidates k}, c.InBounds → runAll acts c = .ok c' →
    c'.InBounds ∧ (c'.PastEnd ↔ Overrun acts c ∨ c.PastEnd ∧ ∀ b ∈ acts, b.leadsBack = false) := by
  induction acts with
  | nil =>
    intro c hc h
    cases h
    refine ⟨hc, ?_⟩
    simp [Overrun]
  | cons a acts ih =>
    intro c hc h
    obtain ⟨c₁, ha, hrest⟩ := runAll_cons_eq_ok h
    obtain ⟨hc', hpast⟩ := ih (run_inBounds hc ha) hrest
    refine ⟨hc', ?_⟩
    rw [hpast, overrun_cons_iff ha, pastEnd_run_iff ha, List.forall_mem_cons]
    tauto

end Action

/-- Whatever is done with a list, its cursors stay within the vector, and are in order as long as a candidate is left;
they are in order throughout if each single step meets one. A step that meets none puts the read cursor past the end. It
is there until the rest is dropped or the list replaced, and so long, and no longer, the list cannot be rewound. -/
theorem cursors_ordered_unless_overrun (ws : Words k) {acts : List (Action k)}
    (hrun : Action.runAll acts (ofWords ws) = .ok c) :
    (c.write ≤ c.data.size ∧ c.stop ≤ c.data.size ∧ (c.hasUnvisited = true → c.write ≤ c.read)) ∧
    (Action.allFit acts (ofWords ws) = true → c.write ≤ c.read ∧ c.read ≤ c.stop) ∧
    (Action.Overrun acts (ofWords ws) → c.stop < c.read ∧ c.finalize = .error .overflow) ∧
    (¬Action.Overrun acts (ofWords ws) → c.read ≤ c.stop ∧ ∃ c', c.finalize = .ok c') := by
  obtain ⟨hc, hpast⟩ := Action.runAll_inBounds acts (inBounds_ofWords ws) hrun
  have hpast : c.PastEnd ↔ Action.Overrun acts (ofWords ws) := by
    rw [hpast]
    exact or_iff_left (fun h => not_pastEnd_ofWords ws h.1)
  refine ⟨⟨hc.write_le, hc.stop_le, fun h => hc.write_le_read (of_decide_eq_true h)⟩, fun hfit => ?_, fun hover => ?_,
    fun hno => ?_⟩
  · obtain ⟨c', hrun', hc', -⟩ := Action.runAll_spec acts (rewound_ofWords ws).wellFormed hfit
    cases Except.ok.inj (hrun.symm.trans hrun')
    exact ⟨hc'.write_le, hc'.read_le⟩
  · exact ⟨hpast.2 hover, (hpast.2 hover).finalize_eq⟩
  · have hread : c.read ≤ c.stop := Nat.le_of_not_lt (fun h => hno (hpast.1 h))
    exact ⟨hread, _, hc.finalize_eq hread⟩

/-- The one candidate is dropped twice: the second step puts the read cursor past it. -/
theorem cursors_ordered_unless_overrun_of_one :
    ∃ c : Candidates .w64, Action.runAll [.drop, .drop] (ofWords #[.ofInt 1]) = .ok c ∧
      Action.Overrun [.drop, .drop] (ofWords (k := .w64) #[.ofInt 1]) ∧ c.stop < c.read ∧
      c.finalize = .error .overflow := by
  have hrun : Action.runAll [.drop, .drop] (ofWords (k := .w64) #[.ofInt 1]) =
      .ok ⟨#[.ofInt 1], 2, 0, 1⟩ := rfl
  have hover : Action.Overrun [.drop, .drop] (ofWords (k := .w64) #[.ofInt 1]) :=
    ⟨[.drop], .drop, [], _, rfl, rfl, rfl, by simp⟩
  obtain ⟨-, -, hpast, -⟩ := cursors_ordered_unless_overrun _ hrun
  exact ⟨_, hrun, hover, hpast hover⟩

end PagedWords.Candidates
