import PagedWords.Proofs.StoreSorts

/-!
# Sorts and the folder of their scratch files

A sort learns nothing from its folder but whether it gets a scratch file there. What it does to the storage is the same
in two folders, unless one of them refuses the file: then a sort that needs it ends before a word moves.
-/
namespace PagedWords
variable {k : Width} {σ ρ : Type} {stride start stop records : Nat} {how : RecordSort} {folder folder' : Folder}

/-- Whether a sort of so many records works through a scratch file. -/
def RecordSort.NeedsScratch (how : RecordSort) (records : Nat) : Prop :=
  match how with
  | .inMemory _ => False
  | .external => 1 < records
  | .limited memoryLimit => 1 < records ∧ memoryLimit ≤ records

namespace Folder

/-- The folder after a scratch file for the range was there. -/
def visited (f : Folder) (start stop : Nat) : Folder := (f.add (f.freshName start stop)).remove (f.freshName start stop)

theorem visited_eq (h : folder.unlinks = true) (start stop : Nat) : folder.visited start stop = folder :=
  remove_add h (folder.freshName_notMem start stop)

/-- A scratch file of so many bytes is refused, with an error and what is left of the folder. -/
inductive Refuses (f : Folder) (bytes : Nat) : Error → Folder → Prop
  | unmade {cause : IoCause} (h : f.attempt bytes = .unmade cause) : Refuses f bytes (.io f.path cause) f
  | unsized {cause : IoCause} (start stop : Nat) (h : f.attempt bytes = .unsized cause) :
      Refuses f bytes (.io (f.located (f.freshName start stop)) cause) (f.visited start stop)
  | unmapped {cause : IoCause} (start stop : Nat) (h : f.attempt bytes = .unmapped cause) :
      Refuses f bytes (.io (f.located (f.freshName start stop)) cause) (f.visited start stop)

namespace Refuses
variable {bytes : Nat} {e : Error} {left : Folder}

theorem left_eq (h : folder.Refuses bytes e left) (hunlinks : folder.unlinks = true) : left = folder := by
  cases h with
  | unmade => rfl
  | unsized start stop => exact visited_eq hunlinks start stop
  | unmapped start stop => exact visited_eq hunlinks start stop

theorem not_serves (h : folder.Refuses bytes e left) : ¬folder.Serves bytes := by
  intro hserves
  have hmade := hserves.made bytes (Nat.le_refl bytes)
  cases h with
  | unmade h => cases hmade.symm.trans h
  | unsized start stop h => cases hmade.symm.trans h
  | unmapped start stop h => cases hmade.symm.trans h

theorem of_barred (h : folder.Refuses bytes e left) (hbarred : folder.Barred) :
    left = folder ∧ ∃ cause, e = .io folder.path cause := by
  obtain ⟨cause, hunmade⟩ := hbarred bytes
  cases h with
  | unmade h => exact ⟨rfl, _, rfl⟩
  | unsized start stop h => cases hunmade.symm.trans h
  | unmapped start stop h => cases hunmade.symm.trans h

end Refuses
end Folder

private theorem Scratch.create_cases (folder : Folder) (hroom : (stop - start) * k.bytes < positionLimit) :
    (∃ (file : Scratch k) (used : Folder), Scratch.create folder start stop = (.ok file, used) ∧
      file.words = Array.replicate (stop - start) Word.zero ∧ file.release used = folder.visited start stop ∧
      ∀ cause, folder.attempt ((stop - start) * k.bytes) ≠ .unmade cause) ∨
    ∃ e left, folder.Refuses ((stop - start) * k.bytes) e left ∧
      (Scratch.create folder start stop : Except Error (Scratch k) × Folder) = (.error e, left) := by
  have hlim := Nat.not_le.2 hroom
  obtain ⟨file, hfile⟩ :
      ∃ file : Scratch k, file = ⟨folder.freshName start stop, Array.replicate (stop - start) Word.zero⟩ :=
    ⟨_, rfl⟩
  have hwords : file.words = Array.replicate (stop - start) Word.zero := by rw [hfile]
  have hrelease : file.release (folder.add (folder.freshName start stop)) = folder.visited start stop := by
    rw [hfile, Scratch.release, Folder.visited]
  cases hattempt : folder.attempt ((stop - start) * k.bytes) with
  | unmade cause => exact .inr ⟨_, _, .unmade hattempt, by simp only [Scratch.create, if_neg hlim, hattempt]⟩
  | unsized cause =>
    exact .inr ⟨_, _, .unsized start stop hattempt, by simp only [Scratch.create, if_neg hlim, hattempt]; rfl⟩
  | unmapped cause =>
    by_cases hempty : stop - start = 0
    · refine .inl ⟨file, _, ?_, hwords, hrelease, by rintro _ ⟨⟩⟩
      simp only [Scratch.create, if_neg hlim, hattempt, if_pos hempty, hfile]
    · exact .inr ⟨_, _, .unmapped start stop hattempt,
        by simp only [Scratch.create, if_neg hlim, hattempt, if_neg hempty]; rfl⟩
  | made =>
    refine .inl ⟨file, _, ?_, hwords, hrelease, by rintro _ ⟨⟩⟩
    simp only [Scratch.create, if_neg hlim, hattempt, hfile]

namespace SortOutcome

/-- The same outcome, of a sort that was given another folder. -/
def inFolder (folder : Folder) (o : SortOutcome σ) : SortOutcome σ := { o with folder }

/-- What a sort of `a` gives in `folder`, where in a folder that serves it gives `r'`. The sort is one of so many
records; its scratch file, if it needs one, has so many bytes. -/
inductive Moved (how : RecordSort) (records bytes : Nat) (folder : Folder) (a : σ) (r' : Except Fault (SortOutcome σ)) :
    Except Fault (SortOutcome σ) → Prop
  | same (h : ¬how.NeedsScratch records ∨ ∀ o, r' = .ok o → o.result ≠ .ok ()) :
      Moved how records bytes folder a r' (inFolder folder <$> r')
  | visited (start stop : Nat) (needed : how.NeedsScratch records) (h : ∀ cause, folder.attempt bytes ≠ .unmade cause) :
      Moved how records bytes folder a r' (inFolder (folder.visited start stop) <$> r')
  | refused (e : Error) (left : Folder) (needed : how.NeedsScratch records) (h : folder.Refuses bytes e left) :
      Moved how records bytes folder a r' (.ok (.refused e a left))

namespace Moved
variable {bytes : Nat} {a : σ} {r r' : Except Fault (SortOutcome σ)}

theorem lift (h : Moved how records bytes folder a r' r) (f : σ → ρ) :
    Moved how records bytes folder (f a) (r' >>= fun o => .ok (o.map f)) (r >>= fun o => .ok (o.map f)) := by
  cases h with
  | same h =>
    cases r' with
    | error _ => exact .same (.inr (by rintro _ ⟨⟩))
    | ok o =>
      refine .same (h.imp_right fun hrefused => ?_)
      rintro _ ⟨⟩
      exact hrefused o rfl
  | visited start stop needed h =>
    cases r' with
    | error _ => exact .visited start stop needed h
    | ok o => exact .visited start stop needed h
  | refused e left needed h => exact .refused e left needed h

theorem of_refused (e : Error) (hrefused : r' = .ok (.refused e a folder')) :
    Moved how records bytes folder a r' (.ok (.refused e a folder)) := by
  subst hrefused
  refine .same (.inr ?_)
  rintro _ ⟨⟩ ⟨⟩

private theorem of_needless (hneeds : ¬how.NeedsScratch records) (x : Except Fault σ) :
    Moved how records bytes folder a (.done folder' <$> x) (.done folder <$> x) := by
  cases x with
  | error _ => exact .same (.inl hneeds)
  | ok _ => exact .same (.inl hneeds)

private theorem inMemory {algorithm : SortAlgorithm} (h : Moved (.inMemory algorithm) records bytes folder a r' r) :
    r = inFolder folder <$> r' := by
  cases h with
  | same => rfl
  | visited _ _ needed _ => exact needed.elim
  | refused _ _ needed _ => exact needed.elim

end Moved
end SortOutcome

open SortOutcome (Moved)

namespace Sorting
variable [Sortable σ k] {a : σ} (hroom : (stop - start) * k.bytes < 2 ^ 63)
  (hfolder' : folder'.Serves ((stop - start) * k.bytes))
include hroom hfolder'

private theorem sortThroughFile_moved
    (through : how.NeedsScratch ((stop - start) / stride) ↔ 1 < (stop - start) / stride) (chunk : Nat) :
    Moved how ((stop - start) / stride) ((stop - start) * k.bytes) folder a
      (sortThroughFile chunk folder' a stride start stop) (sortThroughFile chunk folder a stride start stop) := by
  by_cases hrecords : (stop - start) / stride ≤ 1
  · simp only [sortThroughFile, if_pos hrecords]
    exact .same (.inl fun needed => Nat.not_le.2 (through.1 needed) hrecords)
  have needed := through.2 (Nat.not_le.1 hrecords)
  rw [sortThroughFile_eq hfolder' hroom]
  rcases Scratch.create_cases (k := k) folder (Nat.lt_trans hroom (by decide)) with
    ⟨file, used, hcreate, hwords, hrelease, hmade⟩ | ⟨e, left, hrefuses, hcreate⟩
  · simp only [sortThroughFile, if_neg hrecords, hcreate, hwords, hrelease]
    cases mergeThrough a stride start stop (Array.replicate (stop - start) Word.zero) chunk with
    | error _ => exact .visited start stop needed hmade
    | ok _ => exact .visited start stop needed hmade
  · simp only [sortThroughFile, if_neg hrecords, hcreate]
    exact .refused e left needed hrefuses

theorem sortRecords_moved (how : RecordSort) :
    Moved how ((stop - start) / stride) ((stop - start) * k.bytes) folder a
      (sortRecords how folder' a stride start stop) (sortRecords how folder a stride start stop) := by
  rcases hcheck : checkRecords start stop (Cells.size a) stride with e | u
  · rw [sortRecords_of_error how folder hcheck]
    exact .of_refused e (sortRecords_of_error how folder' hcheck)
  simp only [sortRecords, hcheck]
  cases how with
  | inMemory algorithm => exact .of_needless id _
  | external => exact sortThroughFile_moved hroom hfolder' Iff.rfl _
  | limited memoryLimit =>
    dsimp only
    split
    · next hfew =>
      have hneeds : ¬(RecordSort.limited memoryLimit).NeedsScratch ((stop - start) / stride) :=
        fun needed => Nat.not_le.2 hfew needed.2
      exact .of_needless hneeds _
    · next hmany =>
      have through : (RecordSort.limited memoryLimit).NeedsScratch ((stop - start) / stride) ↔
          1 < (stop - start) / stride := and_iff_left (Nat.not_lt.1 hmany)
      exact sortThroughFile_moved hroom hfolder' through _

end Sorting

section Storage
variable (hroom : (stop - start) * k.bytes < 2 ^ 63) (hfolder' : folder'.Serves ((stop - start) * k.bytes))
include hroom hfolder'

theorem Page.sortRecords_moved (p : Page k) :
    Moved how ((stop - start) / stride) ((stop - start) * k.bytes) folder p
      (p.sortRecords how folder' stride start stop) (p.sortRecords how folder stride start stop) := by
  cases hw : p.isWritable with
  | true =>
    simp only [sortRecords, hw, if_true]
    exact (Sorting.sortRecords_moved (a := p.words) hroom hfolder' how).lift (fun ws => (⟨ws, p.region⟩ : Page k))
  | false =>
    simp only [sortRecords, hw]
    exact .of_refused _ rfl

theorem Paged.sortRecords_moved {a : Paged k} (ha : a.WellFormed) (hsize : a.size < 2 ^ 63) :
    Moved how ((stop - start) / stride) ((stop - start) * k.bytes) folder a
      (a.sortRecords how folder' stride start stop) (a.sortRecords how folder stride start stop) := by
  simp only [sortRecords]
  split
  · next c hconf =>
    obtain ⟨hl, hlt, hsum, p, hp, hstop, -⟩ := page_of_confined ha hsize hconf
    have hspan : stop - start = c.stop - c.start := by omega
    rw [hspan] at hroom hfolder' ⊢
    have hpage : Moved how ((c.stop - c.start) / stride) ((c.stop - c.start) * k.bytes) folder p
        (p.sortRecords how folder' stride c.start c.stop) (p.sortRecords how folder stride c.start c.stop) :=
      p.sortRecords_moved hroom hfolder'
    have hlift := hpage.lift (fun p => ({ a with pages := a.pages.setIfInBounds c.page p } : Paged k))
    rw [replacePage_self hp] at hlift
    rw [hp]
    exact hlift
  · cases a.checkWritable start stop with
    | error _ => exact .same (.inr (by rintro _ ⟨⟩))
    | ok r =>
      cases r with
      | error e => exact .of_refused e rfl
      | ok _ => exact Sorting.sortRecords_moved hroom hfolder' how

theorem Store.sortRecords_moved {s : Store k} (hs : s.WellFormed) :
    Moved how ((stop - start) / stride) ((stop - start) * k.bytes) folder s
      (s.sortRecords how folder' stride start stop) (s.sortRecords how folder stride start stop) := by
  induction s generalizing start stop with
  | slice ws => exact (Sorting.sortRecords_moved hroom hfolder' how).lift slice
  | page p => exact (p.sortRecords_moved hroom hfolder').lift page
  | paged a => exact (Paged.sortRecords_moved hroom hfolder' hs.1 hs.2).lift paged
  | window base low high ih =>
    simp only [sortRecords]
    split
    · next e _ => exact .of_refused e rfl
    · rw [← Nat.add_sub_add_left low stop start] at hroom hfolder' ⊢
      exact (ih hroom hfolder' hs.1).lift (window · low high)
  | elementwise base ih => exact Sorting.sortRecords_moved hroom hfolder' how

theorem Store.sortRecords_inMemory {s s' : Store k} (hs : s.WellFormed) {algorithm : SortAlgorithm}
    (h : s.sortRecords (.inMemory algorithm) folder' stride start stop = .ok (.done folder' s')) (folder : Folder) :
    s.sortRecords (.inMemory algorithm) folder stride start stop = .ok (.done folder s') := by
  have hmoved : Moved (.inMemory algorithm) ((stop - start) / stride) ((stop - start) * k.bytes) folder s _
      (s.sortRecords (.inMemory algorithm) folder stride start stop) := sortRecords_moved hroom hfolder' hs
  rw [hmoved.inMemory, h]
  rfl

end Storage
end PagedWords
