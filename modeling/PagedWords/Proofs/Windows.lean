import PagedWords.Proofs.Edits
import PagedWords.Proofs.StoreFilters
import PagedWords.Proofs.StoreSearches
import PagedWords.Proofs.StoreSorts

/-!
# Windows as arrays of their own

Whatever is asked of two stores that show the same words, both answer alike and show the same words afterwards. A
window shows a stretch of its base, so it answers as an array of those words would, and leaves the base outside the
stretch as it was.
-/
namespace PagedWords
variable {k : Width} {τ : Type}

/-- The folder serves scratch files of up to `n` bytes. -/
structure Caller.Usable (u : Caller k τ) (n : Nat) : Prop where
  candidates : u.candidates.Sound
  folder : u.folder.Serves n

private theorem Store.tryGet_of_unpaged {s : Store k} (hs : ∀ a, s ≠ paged a) {pos : Nat} (hpos : s.size ≤ pos) :
    s.tryGet pos = .ok (.error (.outOfBounds pos s.size 0 pos)) := by
  cases s with
  | paged a => exact absurd rfl (hs a)
  | _ => exact if_neg (Nat.not_lt.2 hpos)

private theorem Store.trySet_of_unpaged {s : Store k} (hs : ∀ a, s ≠ paged a) {pos : Nat} (hpos : s.size ≤ pos)
    (w : Word k) :
    s.trySet pos w = .ok (.error (.outOfBounds pos s.size 0 pos), s) := by
  cases s with
  | paged a => exact absurd rfl (hs a)
  | _ => exact if_neg (Nat.not_lt.2 hpos)

namespace Query

/-- Positions and ranges lie in the list `l`, where that is not for the operation to check; a filter by single
words meets an ascending range. -/
def Within (l : List (Word k)) : Query k τ → Prop
  | size | tryGet _ => True
  | get pos => pos < l.length
  | readRange start n => start + n ≤ l.length
  | fold start stop _ | tryFold start stop _ | search _ _ start stop | bound _ _ start stop | isSorted start stop =>
      start ≤ stop ∧ stop ≤ l.length
  | filter _ _ start stop => (start ≤ stop ∧ stop ≤ l.length) ∧ (stretch l start (stop - start)).Pairwise (· ≤ ·)
  | searchRecords _ stride _ _ _ | boundRecords stride _ _ _ | filterRecords _ stride _ _ _
  | isSortedRecords stride _ _ =>
      stride < 2 ^ 63

/-- Two stores without pages that show the same words give the same replies. -/
theorem run_agree {s t : Store k} (hs : s.WellFormed) (ht : t.WellFormed) (hl : s.toList = t.toList)
    (hs' : ∀ a, s ≠ .paged a) (ht' : ∀ a, t ≠ .paged a) {q : Query k τ} (hq : q.Within s.toList) {u : Caller k τ}
    (hu : u.candidates.Sound) : ∃ y, q.run s u = .ok y ∧ q.run t u = .ok y := by
  have hlen := Store.length_toList hs
  have hlen' : s.toList.length = t.size := by rw [hl, Store.length_toList ht]
  have hshows := Store.shows hs
  have hshows' : t.Shows s.toList := hl ▸ Store.shows ht
  cases q with
  | size => exact ⟨_, rfl, by rw [run, ← hlen', hlen]⟩
  | get pos => exact ⟨_, by rw [run, hshows.get pos hq]; rfl, by rw [run, hshows'.get pos hq]; rfl⟩
  | tryGet pos =>
    by_cases hpos : pos < s.toList.length
    · exact ⟨_, by rw [run, hshows.tryGet pos hpos]; rfl, by rw [run, hshows'.tryGet pos hpos]; rfl⟩
    · refine ⟨_, by rw [run, Store.tryGet_of_unpaged hs' (by omega)]; rfl, ?_⟩
      rw [run, Store.tryGet_of_unpaged ht' (by omega), ← hlen', hlen]
      rfl
  | readRange start n =>
    exact ⟨_, by rw [run, hshows.readRange start n hq]; rfl, by rw [run, hshows'.readRange start n hq]; rfl⟩
  | fold start stop f =>
    exact ⟨_, by rw [run, hshows.fold τ f start stop u.state hq.1 hq.2]; rfl,
      by rw [run, hshows'.fold τ f start stop u.state hq.1 hq.2]; rfl⟩
  | tryFold start stop f =>
    exact ⟨_, by rw [run, hshows.tryFold τ f start stop u.state hq.1 hq.2]; rfl,
      by rw [run, hshows'.tryFold τ f start stop u.state hq.1 hq.2]; rfl⟩
  | search how key start stop =>
    obtain ⟨r, hr, -, hflat⟩ := Store.search_flat hs how key hq.1 (hlen ▸ hq.2)
    obtain ⟨r', hr', -, hflat'⟩ := Store.search_flat ht how key hq.1 (hlen' ▸ hq.2)
    cases Except.ok.inj ((hl ▸ hflat).symm.trans hflat')
    exact ⟨_, by rw [run, hr]; rfl, by rw [run, hr']; rfl⟩
  | searchRecords how stride key start stop =>
    obtain ⟨r, hr, -, hflat⟩ := Store.searchRecords_flat hs how stride key start stop
    obtain ⟨r', hr', -, hflat'⟩ := Store.searchRecords_flat ht how stride key start stop
    cases Except.ok.inj ((hl ▸ hflat).symm.trans hflat')
    exact ⟨_, by rw [run, hr]; rfl, by rw [run, hr']; rfl⟩
  | bound how key start stop =>
    obtain ⟨p, hp, -, hflat⟩ := Store.bound_flat hs how key hq.1 (hlen ▸ hq.2)
    obtain ⟨p', hp', -, hflat'⟩ := Store.bound_flat ht how key hq.1 (hlen' ▸ hq.2)
    cases Except.ok.inj ((hl ▸ hflat).symm.trans hflat')
    exact ⟨_, by rw [run, hp]; rfl, by rw [run, hp']; rfl⟩
  | boundRecords stride key start stop =>
    obtain ⟨p, hp, -, hflat⟩ := Store.boundRecords_flat hs stride key start stop
    obtain ⟨p', hp', -, hflat'⟩ := Store.boundRecords_flat ht stride key start stop
    cases Except.ok.inj ((hl ▸ hflat).symm.trans hflat')
    exact ⟨_, by rw [run, hp]; rfl, by rw [run, hp']; rfl⟩
  | filter how boundary start stop =>
    obtain ⟨c, hc, hflat⟩ := Store.filter_flat hs hu how boundary hq.1.1 (hlen ▸ hq.1.2) hq.2
    obtain ⟨c', hc', hflat'⟩ := Store.filter_flat ht hu how boundary hq.1.1 (hlen' ▸ hq.1.2) (hl ▸ hq.2)
    cases Except.ok.inj ((hl ▸ hflat).symm.trans hflat')
    exact ⟨_, by rw [run, hc]; rfl, by rw [run, hc']; rfl⟩
  | filterRecords how stride boundary start stop =>
    obtain ⟨r, hr, hflat⟩ := Store.filterRecords_flat hs hu how boundary stride start stop
    obtain ⟨r', hr', hflat'⟩ := Store.filterRecords_flat ht hu how boundary stride start stop
    cases Except.ok.inj ((hl ▸ hflat).symm.trans hflat')
    simp only [run, hr, hr', bind, Except.bind]
    cases r with
    | error e => exact ⟨_, rfl, rfl⟩
    | ok c => exact ⟨_, rfl, rfl⟩
  | isSorted start stop =>
    have hs₁ := Store.isSorted_eq hs hq.1 (hlen ▸ hq.2)
    have ht₁ := Store.isSorted_eq ht hq.1 (hlen' ▸ hq.2)
    rw [← hl] at ht₁
    exact ⟨_, by rw [run, hs₁]; rfl, by rw [run, ht₁]; rfl⟩
  | isSortedRecords stride start stop =>
    rcases hcheck : checkRecords start stop s.toList.length stride with e | c
    · have hs₁ := Store.isSortedRecords_of_error hs (hlen ▸ hcheck)
      have ht₁ := Store.isSortedRecords_of_error ht (hlen' ▸ hcheck)
      exact ⟨_, by rw [run, hs₁]; rfl, by rw [run, ht₁]; rfl⟩
    · have hr := RecordRange.of_check hcheck
      have hs₁ := Store.isSortedRecords_eq hs hq hr
      have ht₁ := Store.isSortedRecords_eq ht hq (hl ▸ hr)
      rw [← hl] at ht₁
      exact ⟨_, by rw [run, hs₁]; rfl, by rw [run, ht₁]; rfl⟩

end Query

namespace Request

def Within (l : List (Word k)) : Request k τ → Prop
  | query q => q.Within l
  | edit (.trySet _ _) => True
  | edit e => e.Within l.length
  | sort _ start stop => start ≤ stop ∧ stop ≤ l.length
  | sortRecords _ stride _ _ => stride < 2 ^ 63

/-- The stores answer a request alike and show the same words afterwards. -/
def Agree (r : Request k τ) (s t : Store k) (u : Caller k τ) : Prop :=
  ∃ x s' t' u', r.run s u = .ok (x, s', u') ∧ r.run t u = .ok (x, t', u') ∧ s.SameFrame s' ∧ t.SameFrame t' ∧
    s'.toList = t'.toList

section Agree
variable {s t : Store k} (hs : s.Ready) (ht : t.Ready) (hl : s.toList = t.toList)
include hs ht hl

theorem edit_agree {e : Edit k τ} (he : e.Within s.toList.length) (u : Caller k τ) : Agree (edit e) s t u := by
  obtain ⟨s', hrun, hfr, hs'⟩ := Edit.run_spec hs (hs.length_toList ▸ he) u.state
  obtain ⟨t', hrun', hfr', ht'⟩ := Edit.run_spec ht (ht.length_toList ▸ hl ▸ he) u.state
  rw [← hl] at hrun' ht'
  exact ⟨_, s', t', _, by rw [run, hrun]; rfl, by rw [run, hrun']; rfl, hfr, hfr', hs'.trans ht'.symm⟩

variable (hsize : s.toList.length < 2 ^ 60)
include hsize

theorem sort_agree {start stop : Nat} (hle : start ≤ stop) (hstop : stop ≤ s.toList.length) (algorithm : SortAlgorithm)
    (u : Caller k τ) : Agree (sort algorithm start stop) s t u := by
  have hr : RecordRange s.toList 1 start stop := .one hle hstop
  obtain ⟨vs, hvs, h⟩ := hr.exists_rearranges (k.mul_bytes_lt hsize) (by decide) (.inMemory algorithm)
  obtain ⟨s', hrun, hfr, hs'⟩ := Store.sort_spec hs hr hvs.perm h
  obtain ⟨t', hrun', hfr', ht'⟩ := Store.sort_spec ht (hl ▸ hr) (hl ▸ hvs.perm) (hl ▸ h)
  rw [← hl] at ht'
  exact ⟨_, s', t', _, by rw [run, hrun]; rfl, by rw [run, hrun']; rfl, hfr, hfr', hs'.trans ht'.symm⟩

theorem sortRecords_agree {stride : Nat} (hstride : stride < 2 ^ 63) (how : RecordSort) (start stop : Nat)
    {u : Caller k τ} (hu : u.Usable (s.toList.length * k.bytes)) : Agree (sortRecords how stride start stop) s t u := by
  rcases hcheck : checkRecords start stop s.toList.length stride with e | c
  · have hrun := Store.sortRecords_of_error hs how u.folder (hs.length_toList ▸ hcheck)
    have hrun' := Store.sortRecords_of_error ht how u.folder (ht.length_toList ▸ hl ▸ hcheck)
    exact ⟨_, s, t, _, by rw [run, hrun]; rfl, by rw [run, hrun']; rfl, .refl s, .refl t, hl⟩
  · have hr := RecordRange.of_check hcheck
    have hstop := hr.le_length
    have hroom : (stop - start) * k.bytes < 2 ^ 63 := k.mul_bytes_lt (by omega)
    have hfolder := hu.folder.mono (Nat.mul_le_mul_right k.bytes (by omega : stop - start ≤ s.toList.length))
    obtain ⟨vs, hvs, h⟩ := hr.exists_rearranges (k.mul_bytes_lt hsize) hstride how
    obtain ⟨s', hrun, hfr, hs'⟩ := Store.sortRecords_spec hs hr hvs.perm h hroom hfolder
    obtain ⟨t', hrun', hfr', ht'⟩ := Store.sortRecords_spec ht (hl ▸ hr) (hl ▸ hvs.perm) (hl ▸ h) hroom hfolder
    rw [← hl] at ht'
    exact ⟨_, s', t', _, by rw [run, hrun]; rfl, by rw [run, hrun']; rfl, hfr, hfr', hs'.trans ht'.symm⟩

theorem run_agree (hs' : ∀ a, s ≠ .paged a) (ht' : ∀ a, t ≠ .paged a) {r : Request k τ} (hr : r.Within s.toList)
    {u : Caller k τ} (hu : u.Usable (s.toList.length * k.bytes)) : r.Agree s t u := by
  cases r with
  | query q =>
    obtain ⟨y, hrun, hrun'⟩ := Query.run_agree hs.wellFormed ht.wellFormed hl hs' ht' hr hu.candidates
    exact ⟨_, s, t, _, by rw [run, hrun]; rfl, by rw [run, hrun']; rfl, .refl s, .refl t, hl⟩
  | edit e =>
    cases e with
    | trySet pos w =>
      by_cases hpos : pos < s.toList.length
      · exact edit_agree (e := .trySet pos w) hs ht hl hpos u
      · have hlen := hs.length_toList
        have hlen' : s.toList.length = t.size := by rw [hl, ht.length_toList]
        have hrun := Store.trySet_of_unpaged hs' (by omega : s.size ≤ pos) w
        have hrun' := Store.trySet_of_unpaged ht' (by omega : t.size ≤ pos) w
        rw [← hlen', hlen] at hrun'
        exact ⟨_, s, t, _, by rw [run, Edit.run, hrun]; rfl, by rw [run, Edit.run, hrun']; rfl, .refl s, .refl t, hl⟩
    | _ =>
      refine edit_agree hs ht hl ?_ u
      exact hr
  | sort algorithm start stop => exact sort_agree hs ht hl hsize hr.1 hr.2 algorithm u
  | sortRecords how stride start stop => exact sortRecords_agree hs ht hl hsize hr how start stop hu

end Agree

end Request

namespace Store

/-- The store `v` is a window onto the positions `low..high` of the base, opened there or narrowed down to them. -/
inductive Opened (base : Store k) : Nat → Nat → Store k → Prop
  | window {low high : Nat} {v : Store k} (h : base.window? low high = .ok v) : Opened base low high v
  | narrow {low high start stop : Nat} {v v' : Store k} (hv : Opened base low high v)
      (h : v.narrow? start stop = .ok v') : Opened base (low + start) (low + stop) v'

theorem window?_eq_ok_iff {base v : Store k} {low high : Nat} :
    base.window? low high = .ok v ↔ low ≤ high ∧ high ≤ base.size ∧ v = window base low high := by
  rw [← and_assoc, ← checkRange_eq_ok_iff, window?]
  cases checkRange low high base.size with
  | error e => simp [bind, Except.bind]
  | ok c => simp [bind, Except.bind, pure, Except.pure, eq_comm]

theorem narrow?_eq_ok_iff {base v : Store k} {low high start stop : Nat} :
    (window base low high).narrow? start stop = .ok v ↔
      start ≤ stop ∧ stop ≤ high - low ∧ v = window base (low + start) (low + stop) := by
  rw [← and_assoc, ← checkRange_eq_ok_iff, narrow?]
  cases checkRange start stop (high - low) with
  | error e => simp [bind, Except.bind]
  | ok c => simp [bind, Except.bind, pure, Except.pure, eq_comm]

theorem Opened.spec {base v : Store k} {low high : Nat} (h : base.Opened low high v) :
    v = Store.window base low high ∧ low ≤ high ∧ high ≤ base.size := by
  induction h with
  | window h =>
    obtain ⟨hlow, hhigh, rfl⟩ := window?_eq_ok_iff.1 h
    exact ⟨rfl, hlow, hhigh⟩
  | narrow hv h ih =>
    obtain ⟨rfl, hlow, hhigh⟩ := ih
    obtain ⟨hstart, hstop, rfl⟩ := narrow?_eq_ok_iff.1 h
    exact ⟨rfl, by omega, by omega⟩

/-- A window onto a store is an array of its own: it replies as the words it shows do in one piece, and of the base it
changes those words only, as they are changed there. -/
theorem windows_are_arrays {base : Store k} (hbase : base.Ready) (hsize : base.size < 2 ^ 60) :
    (∀ low high, low ≤ high → high ≤ base.size → ∃ v, base.window? low high = .ok v) ∧
    ∀ (low high : Nat) (v : Store k), base.Opened low high v →
      (∀ start stop, start ≤ stop → stop ≤ high - low → ∃ v', v.narrow? start stop = .ok v') ∧
      ∀ (r : Request k τ) (u : Caller k τ), r.Within (stretch base.toList low (high - low)) →
        u.Usable ((high - low) * k.bytes) → ∃ x base' ws' u', r.run v u = .ok (x, window base' low high, u') ∧
          r.run (slice (stretch base.toList low (high - low)).toArray) u = .ok (x, slice ws', u') ∧
          base.SameFrame base' ∧ base'.toList = base.toList.take low ++ ws'.toList ++ base.toList.drop high := by
  refine ⟨fun low high hlow hhigh => ⟨_, window?_eq_ok_iff.2 ⟨hlow, hhigh, rfl⟩⟩, ?_⟩
  intro low high v hv
  obtain ⟨rfl, hlow, hhigh⟩ := hv.spec
  refine ⟨fun start stop hstart hstop => ⟨_, narrow?_eq_ok_iff.2 ⟨hstart, hstop, rfl⟩⟩, ?_⟩
  intro r u hr hu
  have hlen := hbase.length_toList
  have hlength : (stretch base.toList low (high - low)).length = high - low := length_stretch (by omega)
  have hshort : (stretch base.toList low (high - low)).length < 2 ^ 60 := by omega
  rw [← hlength] at hu
  have hwindow : (window base low high).Ready := ⟨⟨hbase.wellFormed, hlow, hhigh⟩, hbase.writable⟩
  have hslice : (slice (stretch base.toList low (high - low)).toArray : Store k).Ready :=
    ⟨Nat.lt_trans hshort (by decide), rfl⟩
  obtain ⟨x, s', t', u', hrun, hrun', hfr, hfr', hsame⟩ :=
    Request.run_agree hwindow hslice rfl hshort (fun _ => nofun) (fun _ => nofun) hr hu
  cases hfr with
  | @window _ base' _ _ hfr before after =>
    cases hfr' with
    | @slice _ ws' =>
      refine ⟨x, base', ws', u', hrun, hrun', hfr, ?_⟩
      rw [← take_stretch_drop base'.toList hlow, before, after]
      exact congrArg (fun m => base.toList.take low ++ m ++ base.toList.drop high) hsame

/-- The middle two of six words on three pages are sorted through a window that is narrowed down to them. -/
theorem windows_are_arrays_on_three_pages :
    ∃ a, Paged.ofWords .generous (.even 2)
        (#[.ofInt 9, .ofInt 8, .ofInt 7, .ofInt 6, .ofInt 5, .ofInt 4] : Words .w32) = .ok (.ok a) ∧
      ∃ v v', (paged a).window? 1 5 = .ok v ∧ v.narrow? 1 3 = .ok v' ∧
        ∃ x base' ws' u', (Request.sort .quick 0 2).run v' ⟨(), .ofWords #[], .serving "tmp" []⟩ =
            .ok (x, window base' 2 4, u') ∧
          base'.toList = [.ofInt 9, .ofInt 8] ++ ws'.toList ++ [.ofInt 5, .ofInt 4] ∧
          (Request.sort .quick 0 2).run (slice #[.ofInt 7, .ofInt 6])
            ⟨(), .ofWords #[], .serving "tmp" []⟩ = .ok (x, slice ws', u') := by
  have hp : (Partition.even 2).Valid := ⟨by decide, by decide⟩
  have hn : (#[.ofInt 9, .ofInt 8, .ofInt 7, .ofInt 6, .ofInt 5, .ofInt 4] : Words .w32).size < 2 ^ 63 := by decide
  obtain ⟨a, ha⟩ := Paged.ofWords_eq_ok hp hn (Host.generous_grantsMemory (by decide))
  obtain ⟨hready, -, hsize, hl⟩ := Paged.ofWords_spec hp hn ha
  have hbase : (paged a).Ready := ⟨⟨hready.wellFormed, hready.size_lt⟩, hready.writable⟩
  have hlist : (paged a).toList = [.ofInt 9, .ofInt 8, .ofInt 7, .ofInt 6, .ofInt 5, .ofInt 4] := hl
  have hsize : (paged a).size = 6 := hsize
  obtain ⟨hopen, harrays⟩ := windows_are_arrays (τ := Unit) hbase (by rw [hsize]; decide)
  obtain ⟨v, hv⟩ := hopen 1 5 (by decide) (by rw [hsize]; decide)
  obtain ⟨v', hv'⟩ := (harrays 1 5 v (.window hv)).1 1 3 (by decide) (by decide)
  obtain ⟨x, base', ws', u', hrun, hrun', -, hbase'⟩ := (harrays 2 4 v' (.narrow (.window hv) hv')).2 (.sort .quick 0 2)
    ⟨(), .ofWords #[], .serving "tmp" []⟩ ⟨by decide, by rw [hlist]; decide⟩
    ⟨⟨by decide, by decide⟩, Folder.serving_serves _ _ _⟩
  rw [hlist] at hrun' hbase'
  exact ⟨a, ha, v, v', hv, hv', x, base', ws', u', hrun, hbase', hrun'⟩

end Store

end PagedWords
