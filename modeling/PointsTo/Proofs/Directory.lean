import PointsTo.Host.Directory
import PointsTo.Proofs.Fault

/-! A file that was written is read back under the same path. -/
namespace PointsTo.Directory

variable {d d' : Directory} {place : List String} {contents : String}

def put (d : Directory) (place : List String) (contents : String) : Directory :=
  ⟨(place, contents) :: d.files.filter (·.1 ≠ place)⟩

theorem file?_put_self : (d.put place contents).file? place = some contents := by
  rw [file?, put, List.lookup_cons_self]

theorem lookup_filter_of_ne {files : List (List String × String)} {other : List String}
    (h : other ≠ place) : (files.filter (·.1 ≠ place)).lookup other = files.lookup other := by
  induction files with
  | nil => rfl
  | cons f fs ih =>
    by_cases hf : f.1 = place
    · have hother : (other == f.1) = false := beq_false_of_ne (hf ▸ h)
      rw [List.filter_cons_of_neg (by simpa using hf), ih, List.lookup_cons, hother]
    · rw [List.filter_cons_of_pos (by simpa using hf), List.lookup_cons, List.lookup_cons, ih]

theorem file?_put_of_ne {other : List String} (h : other ≠ place) :
    (d.put place contents).file? other = d.file? other := by
  have hother : (other == place) = false := beq_false_of_ne h
  rw [file?, put, List.lookup_cons, hother]
  exact lookup_filter_of_ne h

theorem hasDirectory_put {other : List String} (h : d.hasDirectory other = true) :
    (d.put place contents).hasDirectory other = true := by
  simp only [hasDirectory, Bool.or_eq_true, List.any_eq_true] at h ⊢
  refine h.imp_right ?_
  rintro ⟨f, hf, hbelow⟩
  by_cases hplace : f.1 = place
  · exact ⟨(place, contents), List.mem_cons_self, hplace ▸ hbelow⟩
  · exact ⟨f, List.mem_cons_of_mem _ (List.mem_filter.2 ⟨hf, by simpa using hplace⟩), hbelow⟩

/-- No way to anywhere leads over a place without files below it, so a file put there does not
block one. -/
theorem follow_put (hplace : d.hasDirectory place = false) {p q : Place} {name : String}
    (h : d.follow p name = .ok q) : (d.put place contents).follow p name = .ok q := by
  cases p with
  | above => exact h
  | inside names =>
    rw [follow] at h
    split at h
    · cases h
    next hfile =>
    split at h
    · cases h
    next hdirectory =>
    have hthere : d.hasDirectory names = true := by simpa using hdirectory
    have hne : names ≠ place := by
      rintro rfl
      rw [hthere] at hplace
      cases hplace
    rw [follow, file?_put_of_ne hne, if_neg hfile, hasDirectory_put hthere]
    exact h

theorem foldlM_follow_put (hplace : d.hasDirectory place = false) {names : List String}
    {p q : Place} (h : names.foldlM d.follow p = .ok q) :
    names.foldlM (d.put place contents).follow p = .ok q := by
  induction names generalizing p with
  | nil => exact h
  | cons name names ih =>
    rw [List.foldlM_cons] at h ⊢
    obtain ⟨p', hp', hrest⟩ := bind_eq_ok.1 h
    rw [follow_put hplace hp', ok_bind]
    exact ih hrest

/-- A write that succeeds puts the file where its path leads, which is no directory. -/
theorem write_cases {path : String} (h : d.write path contents = .ok d') :
    ∃ start names place, splitPath path = .ok (start, names) ∧
      names.foldlM d.follow start = .ok (.inside place) ∧ d.hasDirectory place = false ∧
      d' = d.put place contents := by
  unfold write at h
  obtain ⟨⟨start, names⟩, hsplit, h⟩ := bind_eq_ok.1 h
  dsimp only at h
  split at h
  · obtain ⟨q, -, h⟩ := bind_eq_ok.1 h
    cases h
  · obtain ⟨q, hq, h⟩ := bind_eq_ok.1 h
    cases q with
    | above => cases h
    | inside place =>
      dsimp only at h
      split at h
      · cases h
      next hfree =>
        exact ⟨start, names, place, hsplit, hq, by simpa using hfree, (pure_eq_ok.1 h).symm⟩

/-- A file that was written is read under the path it was written to. -/
theorem read_of_write {path : String} (h : d.write path contents = .ok d') :
    d'.read path = .ok contents := by
  obtain ⟨start, names, place, hsplit, hplace, hfree, rfl⟩ := write_cases h
  rw [read, hsplit, ok_bind]
  dsimp only
  rw [foldlM_follow_put hfree hplace, ok_bind]
  dsimp only
  rw [file?_put_self]
  rfl

end PointsTo.Directory
