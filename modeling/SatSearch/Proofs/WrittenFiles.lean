import SatSearch.CommandLine.FileTree

/-!
# Written files are read back

Putting bytes at a place takes no directory away, so a path that led to the place still does. A path
that was written to therefore leads to the bytes that were written, and it can be written to again.
-/

namespace SatSearch.FileTree

variable {t t' : FileTree} {bytes : List UInt8} {place : List String}

theorem isDirectory_put {p : List String} (h : t.isDirectory p = true) :
    (t.put place bytes).isDirectory p = true := by
  have hfiles : (t.files.any fun f => p.isPrefixOf f.1 && p.length < f.1.length) = true →
      ((t.put place bytes).files.any fun f => p.isPrefixOf f.1 && p.length < f.1.length) = true := by
    simp only [List.any_eq_true]
    rintro ⟨f, hf, hp⟩
    rw [put]
    split
    · refine ⟨_, List.mem_map_of_mem hf, ?_⟩
      by_cases hplace : f.1 = place
      · rwa [if_pos hplace, ← hplace]
      · rwa [if_neg hplace]
    · exact ⟨f, List.mem_append_left _ hf, hp⟩
  simp only [isDirectory, Bool.or_eq_true] at h ⊢
  exact h.imp_right hfiles

/-- What is written at a place makes no directory of it. -/
theorem isDirectory_put_self : (t.put place bytes).isDirectory place = t.isDirectory place := by
  have hfiles : ((t.put place bytes).files.any fun f =>
      place.isPrefixOf f.1 && place.length < f.1.length) =
        t.files.any fun f => place.isPrefixOf f.1 && place.length < f.1.length := by
    rw [put]
    split
    · rw [List.any_map]
      congr 1
      funext f
      by_cases hplace : f.1 = place <;> simp [hplace]
    · simp
  rw [isDirectory, isDirectory, hfiles]
  rfl

/-- Replacing what is listed for a place leaves the new bytes there. -/
theorem lookup_map_replace {files : List (List String × List UInt8)}
    (h : (files.lookup place).isSome = true) :
    (files.map fun f => if f.1 = place then (place, bytes) else f).lookup place = some bytes := by
  induction files with
  | nil => cases h
  | cons f files ih =>
    obtain ⟨p, content⟩ := f
    by_cases hplace : p = place
    · simp [hplace]
    · have hne : (place == p) = false := beq_false_of_ne (Ne.symm hplace)
      rw [List.lookup_cons, hne] at h
      rw [List.map_cons, if_neg hplace, List.lookup_cons, hne]
      exact ih h

theorem file?_put (t : FileTree) (place : List String) (bytes : List UInt8) :
    (t.put place bytes).file? place = some bytes := by
  rw [file?, put]
  split
  · rename_i h
    exact lookup_map_replace h
  · rename_i h
    have hnone : t.files.lookup place = none := Option.not_isSome_iff_eq_none.1 h
    simp [List.lookup_append, hnone]

/-- The bytes that were put at a place last are the only ones that matter. -/
theorem put_put (first second : List UInt8) :
    (t.put place first).put place second = t.put place second := by
  have hthere : ((t.put place first).file? place).isSome = true := by
    rw [file?_put]
    rfl
  rw [put, if_pos hthere]
  simp only [put]
  split
  · rw [List.map_map]
    congr 1
    apply List.map_congr_left
    intro f _
    by_cases hplace : f.1 = place <;> simp [hplace]
  · rename_i hnew
    have hnone : t.files.lookup place = none := Option.not_isSome_iff_eq_none.1 hnew
    have hothers : (t.files.map fun f => if f.1 = place then (place, second) else f) = t.files := by
      refine (List.map_congr_left fun f hf => if_neg fun hplace => ?_).trans (List.map_id _)
      simpa [hplace] using List.lookup_eq_none_iff.1 hnone f hf
    rw [List.map_append, hothers]
    simp

/-- With more directories, steps that led somewhere lead to the same place. -/
theorem follow_of_isDirectory (h : ∀ p, t.isDirectory p = true → t'.isDirectory p = true)
    {steps : List String} {start : List String} (hfollow : t.follow start steps = .ok place) :
    t'.follow start steps = .ok place := by
  induction steps generalizing start with
  | nil => exact hfollow
  | cons step rest ih =>
    rw [follow] at hfollow ⊢
    split at hfollow
    · rename_i hstart
      rw [if_pos (h start hstart)]
      split at hfollow
      · rename_i hstay
        rw [if_pos hstay]
        exact ih hfollow
      · rename_i hstay
        rw [if_neg hstay]
        split at hfollow
        · rename_i hup
          rw [if_pos hup]
          exact ih hfollow
        · rename_i hup
          rw [if_neg hup]
          split at hfollow
          · cases hfollow
          · rename_i hlong
            rw [if_neg hlong]
            exact ih hfollow
    · cases hfollow

theorem locate_put {path : String} (h : t.locate path = .ok place) :
    (t.put place bytes).locate path = .ok place := by
  have hsame : (t.put place bytes).here = t.here := rfl
  rw [locate, followFrom] at h ⊢
  split at h
  · cases h
  · rename_i hempty
    rw [if_neg hempty]
    split at h
    · cases h
    · rename_i hlong
      rw [if_neg hlong, hsame]
      exact follow_of_isDirectory (fun p => isDirectory_put) h

theorem locateOutput_eq_ok_iff {path : String} : t.locateOutput path = .ok place ↔
    path.toList.getLast? ≠ some '/' ∧ t.locate path = .ok place ∧
      t.isDirectory place = false := by
  rw [locateOutput]
  split
  · rename_i hslash
    refine iff_of_false (fun h => ?_) fun h => h.1 hslash
    cases hfollow : t.followFrom path (stepsToLastName path) with
    | error e =>
      rw [hfollow] at h
      cases h
    | ok p =>
      rw [hfollow] at h
      cases h
  · rename_i hslash
    rw [and_iff_right hslash]
    cases hlocate : t.locate path with
    | error e => exact iff_of_false nofun nofun
    | ok p =>
      simp only [bind, Except.bind]
      split
      · rename_i hdir
        refine iff_of_false nofun ?_
        rintro ⟨hp, hopen⟩
        cases hp
        cases hdir.symm.trans hopen
      · rename_i hopen
        rw [Bool.not_eq_true] at hopen
        refine ⟨fun h => ⟨h, ?_⟩, And.left⟩
        cases h
        exact hopen

theorem write_eq_ok_iff {path : String} : t.write path bytes = .ok t' ↔
    ∃ place, t.locateOutput path = .ok place ∧ t' = t.put place bytes := by
  rw [write]
  cases t.locateOutput path with
  | error e => exact iff_of_false nofun fun ⟨_, h, _⟩ => nomatch h
  | ok place =>
    constructor
    · intro h
      exact ⟨place, rfl, (Except.ok.inj h).symm⟩
    · rintro ⟨_, ⟨⟩, rfl⟩
      rfl

/-- A path that was written to leads to what was written. -/
theorem read_of_write {path : String} (h : t.write path bytes = .ok t') :
    t'.read path = .ok bytes := by
  obtain ⟨place, hplace, rfl⟩ := write_eq_ok_iff.1 h
  simp only [read, locate_put (locateOutput_eq_ok_iff.1 hplace).2.1, bind, Except.bind, file?_put]

/-- It is the path that decides whether something can be written to it. -/
theorem exists_write {path : String} {first : List UInt8} (h : t.write path first = .ok t')
    (second : List UInt8) : ∃ later, t.write path second = .ok later := by
  obtain ⟨place, hplace, -⟩ := write_eq_ok_iff.1 h
  exact ⟨_, write_eq_ok_iff.2 ⟨place, hplace, rfl⟩⟩

/-- Writing to a path again leaves nothing of what was written first. -/
theorem write_write {path : String} {first second : List UInt8} (h : t.write path first = .ok t') :
    t'.write path second = t.write path second := by
  obtain ⟨place, hplace, rfl⟩ := write_eq_ok_iff.1 h
  obtain ⟨hslash, hlocate, hopen⟩ := locateOutput_eq_ok_iff.1 hplace
  have hagain : (t.put place first).locateOutput path = .ok place :=
    locateOutput_eq_ok_iff.2 ⟨hslash, locate_put hlocate, isDirectory_put_self.trans hopen⟩
  rw [write_eq_ok_iff.2 ⟨place, hagain, rfl⟩, write_eq_ok_iff.2 ⟨place, hplace, rfl⟩, put_put]

end SatSearch.FileTree
