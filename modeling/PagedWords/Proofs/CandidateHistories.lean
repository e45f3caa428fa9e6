import PagedWords.Proofs.FilterPasses

/-!
# Candidate lists as two lists

A candidate list has its two parts in one vector: a kept word is copied down over a word that was visited, and before
the next pass the words not visited are moved down over those that were dropped. Seen from outside there are two lists,
and what was dropped stays away until the whole list is replaced.
-/
namespace PagedWords.Candidates
variable {k : Width}

/-- The candidates that are kept, and those that are not yet visited. -/
structure Parts (k : Width) where
  kept : List (Word k)
  unvisited : List (Word k)

/-- All candidates that are left. -/
def Parts.all (p : Parts k) : List (Word k) := p.kept ++ p.unvisited

def parts (c : Candidates k) : Parts k := ⟨c.kept, c.unvisited⟩

namespace Action

def onParts : Action k → Parts k → Parts k
  | keep, p => ⟨p.kept ++ p.unvisited.take 1, p.unvisited.tail⟩
  | drop, p => ⟨p.kept, p.unvisited.tail⟩
  | keepRest, p => ⟨p.kept ++ p.unvisited, []⟩
  | dropRest, p => ⟨p.kept, []⟩
  | finalize, p => ⟨[], p.all⟩
  | reset ws, _ => ⟨[], ws.toList⟩

/-- A single candidate is kept or dropped only if there is one to visit. -/
def fits : Action k → Candidates k → Bool
  | keep, c | drop, c => c.hasUnvisited
  | _, _ => true

def allOnParts (acts : List (Action k)) (p : Parts k) : Parts k := acts.foldl (fun p a => a.onParts p) p

/-- Each action fits the list that it meets. -/
def allFit : List (Action k) → Candidates k → Bool
  | [], _ => true
  | a :: acts, c => a.fits c && match a.run c with
    | .ok c' => allFit acts c'
    | .error _ => true

end Action

variable {c c' : Candidates k} {p : Parts k}

theorem parts_ofWords (ws : Words k) : (ofWords ws).parts = ⟨[], ws.toList⟩ := by
  have h := rewound_ofWords ws
  have hlive : (ofWords ws).live.toList = ws.toList := by simp [live, ofWords]
  rw [parts, h.kept_eq, h.unvisited_eq, hlive]

theorem WellFormed.hasUnvisited_eq (hc : c.WellFormed) : c.hasUnvisited = !c.unvisited.isEmpty := by
  cases h : c.unvisited with
  | nil => simp [hc.hasUnvisited_of_nil h]
  | cons u us => simp [(hc.current_eq h).1]

theorem keepMany_spec (n : Nat) : ∀ {c : Candidates k}, c.WellFormed → c.unvisited.length = n →
    ∃ c', keepMany n c = .ok c' ∧ c'.WellFormed ∧ c'.parts = ⟨c.kept ++ c.unvisited, []⟩ := by
  induction n with
  | zero =>
    intro c hc hn
    have hnil := List.eq_nil_of_length_eq_zero hn
    exact ⟨c, rfl, hc, by simp [parts, hnil]⟩
  | succ n ih =>
    intro c hc hn
    obtain ⟨u, us, hus⟩ := List.exists_cons_of_length_eq_add_one hn
    obtain ⟨c₁, hkeep, -, hc₁, hkept, hun⟩ := keep_spec hc hus
    obtain ⟨c', hrest, hc', hparts⟩ := ih hc₁ (by simpa [hun, hus] using hn)
    refine ⟨c', ?_, hc', ?_⟩
    · simp only [keepMany, hkeep, bind, Except.bind, hrest]
    · simp [hparts, hkept, hun, hus]

theorem dropRest_spec (hc : c.WellFormed) : c.dropRest.WellFormed ∧ c.dropRest.parts = ⟨c.kept, []⟩ := by
  constructor
  · exact ⟨Nat.le_trans hc.write_le hc.read_le, Nat.le_refl _, hc.stop_le⟩
  · simp [parts, kept, unvisited, dropRest]

namespace Action

/-- No action writes over a word that is still to be read. -/
theorem run_spec (hc : c.WellFormed) {a : Action k} (ha : a.fits c = true) :
    ∃ c', a.run c = .ok c' ∧ c'.WellFormed ∧ c'.parts = a.onParts c.parts := by
  cases a with
  | keep =>
    obtain ⟨u, us, hus⟩ : ∃ u us, c.unvisited = u :: us := by
      rw [fits, hc.hasUnvisited_eq] at ha
      exact List.exists_cons_of_ne_nil (by simpa using ha)
    obtain ⟨c', hkeep, -, hc', hkept, hun⟩ := keep_spec hc hus
    exact ⟨c', hkeep, hc', by simp [parts, onParts, hkept, hun, hus]⟩
  | drop =>
    obtain ⟨u, us, hus⟩ : ∃ u us, c.unvisited = u :: us := by
      rw [fits, hc.hasUnvisited_eq] at ha
      exact List.exists_cons_of_ne_nil (by simpa using ha)
    obtain ⟨hc', hkept, hun⟩ := drop_spec hc hus
    exact ⟨c.drop, rfl, hc', by simp [parts, onParts, hkept, hun, hus]⟩
  | keepRest => exact keepMany_spec _ hc hc.length_unvisited
  | dropRest => exact ⟨_, rfl, dropRest_spec hc⟩
  | finalize =>
    obtain ⟨c', hrun, hc', hlive⟩ := finalize_spec hc
    refine ⟨c', hrun, hc'.wellFormed, ?_⟩
    rw [parts, hc'.kept_eq, hc'.unvisited_eq, hlive]
    rfl
  | reset ws => exact ⟨_, rfl, (rewound_ofWords ws).wellFormed, parts_ofWords ws⟩

/-- The induction is on the actions: what the first one leaves is well formed, and the rest of them fit it. -/
theorem runAll_spec (acts : List (Action k)) : ∀ {c : Candidates k}, c.WellFormed → allFit acts c = true →
    ∃ c', runAll acts c = .ok c' ∧ c'.WellFormed ∧ c'.parts = allOnParts acts c.parts := by
  induction acts with
  | nil =>
    intro c hc _
    exact ⟨c, rfl, hc, rfl⟩
  | cons a acts ih =>
    intro c hc hfit
    rw [allFit, Bool.and_eq_true] at hfit
    obtain ⟨c₁, hrun, hc₁, hparts⟩ := run_spec hc hfit.1
    rw [hrun] at hfit
    obtain ⟨c', hrest, hc', hparts'⟩ := ih hc₁ hfit.2
    refine ⟨c', ?_, hc', ?_⟩
    · simp only [runAll, hrun, bind, Except.bind, hrest]
    · rw [hparts', hparts]
      rfl

theorem runAll_append (before after : List (Action k)) (c : Candidates k) :
    runAll (before ++ after) c = (do runAll after (← runAll before c)) := by
  induction before generalizing c with
  | nil => rfl
  | cons a before ih =>
    rw [List.cons_append, runAll, runAll]
    cases a.run c with
    | error e => rfl
    | ok c' => exact ih c'

private theorem allFit_append {before after : List (Action k)} (h : allFit (before ++ after) c = true)
    (hrun : runAll before c = .ok c') : allFit before c = true ∧ allFit after c' = true := by
  induction before generalizing c with
  | nil =>
    cases hrun
    exact ⟨rfl, h⟩
  | cons a before ih =>
    obtain ⟨c₁, ha, hrest⟩ := bind_eq_ok_iff.1 hrun
    rw [List.cons_append, allFit, Bool.and_eq_true, ha] at h
    rw [allFit, Bool.and_eq_true, ha]
    obtain ⟨hbefore, hafter⟩ := ih h.2 hrest
    exact ⟨⟨h.1, hbefore⟩, hafter⟩

theorem onParts_sublist {a : Action k} (ha : ∀ ws, a ≠ reset ws) (p : Parts k) :
    (a.onParts p).all.Sublist p.all := by
  cases a with
  | keep => cases h : p.unvisited <;> simp [onParts, Parts.all, h]
  | drop => exact (List.tail_sublist _).append_left _
  | keepRest => simp [onParts, Parts.all]
  | dropRest => simp [onParts, Parts.all]
  | finalize => simp [onParts, Parts.all]
  | reset ws => exact absurd rfl (ha ws)

private theorem allOnParts_sublist {acts : List (Action k)} (hacts : ∀ ws, reset ws ∉ acts) (p : Parts k) :
    (allOnParts acts p).all.Sublist p.all := by
  induction acts generalizing p with
  | nil => exact .refl _
  | cons a acts ih =>
    have hrest := ih (fun ws h => hacts ws (List.mem_cons_of_mem a h)) (a.onParts p)
    exact hrest.trans (onParts_sublist (fun ws h => hacts ws (h ▸ List.mem_cons_self)) p)

end Action

/-- What the list shows of its two parts: whether a candidate is left and which is next, and after a rewind all of
them. -/
structure Shows (c : Candidates k) (p : Parts k) : Prop where
  parts : c.parts = p
  hasUnvisited : c.hasUnvisited = !p.unvisited.isEmpty
  current : ∀ u ∈ p.unvisited.head?, c.current = .ok u
  rewind : ∃ c', c.finalize = .ok c' ∧ c'.live.toList = p.all ∧ c'.size = p.all.length

theorem WellFormed.shows (hc : c.WellFormed) : c.Shows c.parts where
  parts := rfl
  hasUnvisited := hc.hasUnvisited_eq
  current u hu := by
    obtain ⟨us, hus⟩ := List.head?_eq_some_iff.1 hu
    exact (hc.current_eq hus).2
  rewind := by
    obtain ⟨c', hrun, hc', hlive⟩ := finalize_spec hc
    refine ⟨c', hrun, hlive, ?_⟩
    have hlen := congrArg List.length hlive
    rw [toList_live, List.length_take, Array.length_toList, Nat.min_eq_left hc'.stop_le] at hlen
    exact hlen

/-- Whatever is done with a list, none of it faults, and the list shows what two separate lists show. At no time has it
candidates that it had not before, unless it was replaced in between. -/
theorem histories_on_parts (ws : Words k) {acts : List (Action k)} (hacts : Action.allFit acts (ofWords ws) = true) :
    ∃ c, Action.runAll acts (ofWords ws) = .ok c ∧ c.Shows (Action.allOnParts acts ⟨[], ws.toList⟩) ∧
      ∀ before after, acts = before ++ after →
        ∃ c₁, Action.runAll before (ofWords ws) = .ok c₁ ∧ c₁.Shows (Action.allOnParts before ⟨[], ws.toList⟩) ∧
          ((∀ vs, .reset vs ∉ after) → c.parts.all.Sublist c₁.parts.all) := by
  have hws := (rewound_ofWords ws).wellFormed
  obtain ⟨c, hrun, hc, hparts⟩ := Action.runAll_spec acts hws hacts
  rw [parts_ofWords] at hparts
  refine ⟨c, hrun, hparts ▸ hc.shows, ?_⟩
  intro before after hsplit
  subst hsplit
  obtain ⟨c₁, hfirst⟩ : ∃ c₁, Action.runAll before (ofWords ws) = .ok c₁ := by
    rw [Action.runAll_append] at hrun
    cases h : Action.runAll before (ofWords ws) with
    | ok c₁ => exact ⟨c₁, rfl⟩
    | error e => simp [h, bind, Except.bind] at hrun
  have hbefore := (Action.allFit_append hacts hfirst).1
  obtain ⟨c₂, hfirst', hc₁, hparts₁⟩ := Action.runAll_spec before hws hbefore
  obtain rfl : c₁ = c₂ := Except.ok.inj (hfirst.symm.trans hfirst')
  rw [parts_ofWords] at hparts₁
  refine ⟨c₁, hfirst, hparts₁ ▸ hc₁.shows, ?_⟩
  intro hafter
  have happend : c.parts = Action.allOnParts after c₁.parts := by
    rw [hparts, hparts₁, Action.allOnParts, Action.allOnParts, Action.allOnParts, List.foldl_append]
  rw [happend]
  exact Action.allOnParts_sublist hafter _

/-- Two passes: the first drops the second candidate, the second keeps the first and drops what is left. -/
theorem histories_on_parts_of_two_passes :
    Action.allFit [.keep, .drop, .finalize, .keep, .dropRest, .finalize]
        (ofWords (k := .w32) #[.ofInt 4, .ofInt 5, .ofInt 6]) = true ∧
      ∃ c, Action.runAll [.keep, .drop, .finalize, .keep, .dropRest, .finalize]
          (ofWords (k := .w32) #[.ofInt 4, .ofInt 5, .ofInt 6]) = .ok c ∧
        c.Shows ⟨[], [.ofInt 4]⟩ := by
  have hfit : Action.allFit [.keep, .drop, .finalize, .keep, .dropRest, .finalize]
      (ofWords (k := .w32) #[.ofInt 4, .ofInt 5, .ofInt 6]) = true := by decide
  obtain ⟨c, hrun, hshows, -⟩ := histories_on_parts #[.ofInt 4, .ofInt 5, .ofInt 6] hfit
  exact ⟨hfit, c, hrun, hshows⟩

end PagedWords.Candidates
