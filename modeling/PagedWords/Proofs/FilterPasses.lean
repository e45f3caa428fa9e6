import PagedWords.Batches
import PagedWords.Proofs.Filtering

/-!
# Filtering candidates in several passes

Between two passes the kept candidates are moved to the front, and the next pass reads them from there. A pass is a
test of each candidate on its own, so neither the order of the passes nor a pass made twice can be told from the
candidates that are left.
-/
namespace PagedWords
variable {k : Width}

namespace Candidates
variable {c : Candidates k}

/-- A list at the start of a pass. -/
structure Rewound (c : Candidates k) : Prop where
  read_eq : c.read = 0
  write_eq : c.write = 0
  stop_le : c.stop ≤ c.data.size

theorem rewound_ofWords (ws : Words k) : (ofWords ws).Rewound := ⟨rfl, rfl, Nat.le_refl _⟩

theorem toList_live (c : Candidates k) : c.live.toList = c.data.toList.take c.stop := by
  rw [live, Array.toList_extract]
  rfl

namespace Rewound

theorem wellFormed (h : c.Rewound) : c.WellFormed :=
  ⟨Nat.le_of_eq (h.write_eq.trans h.read_eq.symm), by rw [h.read_eq]; exact Nat.zero_le _, h.stop_le⟩

theorem kept_eq (h : c.Rewound) : c.kept = [] := by rw [kept, h.write_eq, List.take_zero]

theorem unvisited_eq (h : c.Rewound) : c.unvisited = c.live.toList := by
  rw [unvisited, h.read_eq, stretch, List.drop_zero, Nat.sub_zero, toList_live]

end Rewound

/-- The words left over behind the live ones stay in the data, where no later pass reads them. -/
theorem finalize_spec (hc : c.WellFormed) :
    ∃ c', c.finalize = .ok c' ∧ c'.Rewound ∧ c'.live.toList = c.kept ++ c.unvisited := by
  have hwrite := hc.write_le
  have hread := hc.read_le
  have hstop := hc.stop_le
  have hfits : ¬(c.data.size < c.stop ∨ c.data.size < c.write + (c.stop - c.read)) := by omega
  have hwords : c.closeGap.toList =
      c.kept ++ c.unvisited ++ c.data.toList.drop (c.write + (c.stop - c.read)) := by
    simp only [closeGap, kept, unvisited, stretch, Array.toList_append, Array.toList_extract, List.extract,
      List.drop_zero, Nat.sub_zero, Array.size]
    rw [← List.length_drop, List.take_length]
  have hlen : (c.kept ++ c.unvisited).length = c.write + (c.stop - c.read) := by
    rw [List.length_append, hc.length_unvisited, kept, List.length_take, Array.length_toList]
    omega
  refine ⟨⟨c.closeGap, 0, 0, c.write + (c.stop - c.read)⟩, ?_, ⟨rfl, rfl, ?_⟩, ?_⟩
  · rw [finalize, if_neg (by omega), if_neg hfits]
  · show c.write + (c.stop - c.read) ≤ c.closeGap.size
    rw [← Array.length_toList, hwords, List.length_append, hlen]
    exact Nat.le_add_right _ _
  · rw [toList_live]
    show c.closeGap.toList.take (c.write + (c.stop - c.read)) = _
    rw [hwords, ← hlen, List.take_left]

end Candidates

namespace Pass
variable {p : Pass k} {ps : List (Pass k)} {c : Candidates k} {us : List (Word k)}

def keys (p : Pass k) : List (Word k) := recordKeys p.store.toList (p.stride.getD 1) p.start p.stop

/-- Whether the pass leaves a candidate in the list. -/
def test (p : Pass k) (u : Word k) : Bool := p.how.keeps (decide (u ∈ p.keys))

/-- The pass has ascending keys and visits all the candidates. -/
structure Suits (p : Pass k) (us : List (Word k)) : Prop where
  wellFormed : p.store.WellFormed
  range : RecordRange p.store.toList (p.stride.getD 1) p.start p.stop
  lt : p.start < p.stop
  ascending : p.keys.Pairwise (· ≤ ·)
  boundary_ge : ∀ u ∈ us, u ≤ p.boundary

private theorem Suits.mono (h : p.Suits us) {vs : List (Word k)} (hvs : ∀ u ∈ vs, u ∈ us) : p.Suits vs :=
  { h with boundary_ge := fun u hu => h.boundary_ge u (hvs u hu) }

private theorem filter_eq (h : p.Suits us) (hc : c.WellFormed) :
    p.filter c = .ok <$> Filter.visitAll p.how (Filter.verdicts p.boundary p.keys c.unvisited) c := by
  have hr := h.range
  have hkeys := h.ascending
  rw [filter]
  rw [keys] at hkeys ⊢
  cases hstride : p.stride with
  | none =>
    rw [hstride] at hr hkeys
    have hle := hr.le
    have hl := hr.le_length
    rw [Option.getD_none, recordKeys_one hle hl] at hkeys ⊢
    rw [Store.length_toList h.wellFormed] at hl
    exact congrArg (Except.ok <$> ·) (Store.filter_eq h.wellFormed h.lt hl hc hkeys)
  | some stride =>
    rw [hstride] at hr
    exact Store.filterRecords_eq h.wellFormed hr h.lt hc

theorem run_spec (hc : c.Rewound) (hsorted : c.live.toList.Pairwise (· ≤ ·)) (h : p.Suits c.live.toList) :
    ∃ c', p.run c = .ok (.ok c') ∧ c'.Rewound ∧ c'.live.toList = c.live.toList.filter p.test := by
  have hall : c.live.toList.takeWhile (· ≤ p.boundary) = c.live.toList := by
    rw [(takeWhile_le_of_sorted hsorted p.boundary).1, List.filter_eq_self]
    exact fun u hu => decide_eq_true (h.boundary_ge u hu)
  have hverdicts := Filter.verdicts_eq_map p.boundary h.ascending hsorted
  obtain ⟨c₁, hvisits, -, hc₁, hkept, hun⟩ := Filter.visitAll_spec p.how hc.wellFormed
    (Filter.length_verdicts_le p.boundary p.keys c.unvisited)
  obtain ⟨c₂, hfinal, hc₂, hlive⟩ := Candidates.finalize_spec hc₁
  refine ⟨c₂, ?_, hc₂, ?_⟩
  · rw [run, filter_eq h hc.wellFormed, hvisits]
    simp only [Functor.map, Except.map, bind, Except.bind, hfinal]
  · rw [hlive, hkept, hun, hc.kept_eq, hc.unvisited_eq, hverdicts, Filter.staying_map, hall, List.length_map,
      List.drop_length, List.nil_append, List.append_nil]
    rfl

/-- The induction is on the passes. What a pass leaves is ascending, and the boundaries of the others suit it. -/
theorem runAll_spec : ∀ {c : Candidates k}, c.Rewound → c.live.toList.Pairwise (· ≤ ·) →
    (∀ p ∈ ps, p.Suits c.live.toList) →
    ∃ c', runAll ps c = .ok (.ok c') ∧ c'.live.toList = c.live.toList.filter (fun u => ps.all (·.test u)) := by
  induction ps with
  | nil =>
    intro c hc hsorted hps
    exact ⟨c, rfl, by simp⟩
  | cons p ps ih =>
    intro c hc hsorted hps
    obtain ⟨c₁, hrun, hc₁, hlive⟩ := run_spec hc hsorted (hps p List.mem_cons_self)
    have hleft : ∀ q ∈ ps, q.Suits c₁.live.toList := by
      intro q hq
      rw [hlive]
      exact (hps q (List.mem_cons_of_mem p hq)).mono (fun u hu => List.mem_of_mem_filter hu)
    obtain ⟨c₂, hrest, hlive₂⟩ := ih hc₁ (by rw [hlive]; exact hsorted.filter _) hleft
    refine ⟨c₂, ?_, ?_⟩
    · simp only [runAll, hrun, bind, Except.bind, hrest]
    · rw [hlive₂, hlive, List.filter_filter]
      congr 1
      funext u
      rw [List.all_cons, Bool.and_comm]

/-- Of candidates in ascending order those are left, in order and as often, that pass every test. Passes in another
order, or made more than once, leave the same. -/
theorem runAll_eq_filter (hc : c.Rewound) (hsorted : c.live.toList.Pairwise (· ≤ ·))
    (hps : ∀ p ∈ ps, p.Suits c.live.toList) :
    ∃ c', runAll ps c = .ok (.ok c') ∧
      c'.live.toList = c.live.toList.filter (fun u => ps.all (·.test u)) ∧
      ∀ ps' : List (Pass k), (∀ p, p ∈ ps' ↔ p ∈ ps) →
        ∃ c'', runAll ps' c = .ok (.ok c'') ∧ c''.live = c'.live := by
  obtain ⟨c', hrun, hlive⟩ := runAll_spec hc hsorted hps
  refine ⟨c', hrun, hlive, ?_⟩
  intro ps' hsame
  obtain ⟨c'', hrun', hlive'⟩ := runAll_spec hc hsorted (fun p hp => hps p ((hsame p).1 hp))
  refine ⟨c'', hrun', Array.toList_inj.1 ?_⟩
  rw [hlive, hlive']
  congr 1
  funext u
  rw [Bool.eq_iff_iff, List.all_eq_true, List.all_eq_true]
  exact forall_congr' (fun p => by rw [hsame p])

/-- Pairs with the keys `1`, `3` and `4` retain, and the words `2` and `4` reject. -/
theorem runAll_eq_filter_of_two :
    ∃ p q : Pass .w32, p.how = .retain ∧ p.stride = some 2 ∧ q.how = .reject ∧ q.stride = none ∧
      ∃ c', runAll [p, q] (.ofWords #[.ofInt 1, .ofInt 2, .ofInt 3, .ofInt 3, .ofInt 4]) = .ok (.ok c') ∧
        c'.live.toList = [.ofInt 1, .ofInt 3, .ofInt 3] ∧
        ∃ c'', runAll [q, p, q] (.ofWords #[.ofInt 1, .ofInt 2, .ofInt 3, .ofInt 3, .ofInt 4]) = .ok (.ok c'') ∧
          c''.live = c'.live := by
  have hpairs : Suits ⟨.slice #[.ofInt 1, .ofInt 7, .ofInt 3, .ofInt 7, .ofInt 4, .ofInt 8], .retain, some 2, .ofInt 9,
      0, 6⟩ (Candidates.ofWords (k := .w32) #[.ofInt 1, .ofInt 2, .ofInt 3, .ofInt 3, .ofInt 4]).live.toList :=
    ⟨(by decide : 6 < 2 ^ 63), ⟨by decide, by decide, by decide, by decide⟩, by decide, by decide, by decide⟩
  have hwords : Suits ⟨.slice #[.ofInt 2, .ofInt 4], .reject, none, .ofInt 9, 0, 2⟩
      (Candidates.ofWords (k := .w32) #[.ofInt 1, .ofInt 2, .ofInt 3, .ofInt 3, .ofInt 4]).live.toList :=
    ⟨(by decide : 2 < 2 ^ 63), ⟨by decide, by decide, by decide, by decide⟩, by decide, by decide, by decide⟩
  obtain ⟨c', hrun, hlive, hsame⟩ := runAll_eq_filter (Candidates.rewound_ofWords _) (by decide)
    (List.forall_mem_cons.2 ⟨hpairs, List.forall_mem_singleton.2 hwords⟩)
  refine ⟨_, _, rfl, rfl, rfl, rfl, c', hrun, hlive.trans (by decide), hsame _ ?_⟩
  intro p
  simp only [List.mem_cons, List.not_mem_nil, or_false]
  exact ⟨fun h => h.elim .inr id, fun h => h.elim (.inr ∘ .inl) .inl⟩

end Pass
end PagedWords
