import StateLang.Files.Tree

/-!
# What changes to a file tree leave as it was

A tree changes in two ways only: a directory is made where nothing stood, or a
file is put where no directory stood. Neither takes an entry away or makes it
another kind of thing, so a path that leads somewhere leads there ever after.
-/

namespace StateLang.FileTree

variable {t t' t'' : FileTree} {loc l : Location} {p : Path} {paths ps : List Path}
  {content : ByteArray}

/-- The content of the file at a location. -/
def file? (t : FileTree) (loc : Location) : Option ByteArray :=
  match t.entry? loc with
  | some (.file content) => some content
  | _ => none

/-! ## Entries -/

theorem lookup_filter_ne {entries : List (Location × Entry)} (h : l ≠ loc) :
    (entries.filter fun e => e.1 ≠ loc).lookup l = entries.lookup l := by
  induction entries with
  | nil => rfl
  | cons e entries ih =>
      by_cases he : e.1 = loc
      · have hl : (l == e.1) = false := by simpa [he] using h
        rw [List.filter_cons_of_neg (by simp [he]), List.lookup_cons, hl]
        exact ih
      · rw [List.filter_cons_of_pos (by simp [he]), List.lookup_cons, List.lookup_cons, ih]

theorem ne_root (h : t.entry? loc ≠ some .directory) : loc ≠ [] := by
  rintro rfl
  exact h rfl

theorem entry?_put (hloc : loc ≠ []) (entry : Entry) (l : Location) :
    entry? (t.put loc entry) l = if l = loc then some entry else t.entry? l := by
  by_cases hl : l = loc
  · rw [if_pos hl, hl, entry?, if_neg hloc]
    simp [put]
  · rw [if_neg hl]
    unfold entry?
    by_cases hroot : l = []
    · rw [if_pos hroot, if_pos hroot]
    · have hne : (l == loc) = false := by simpa using hl
      rw [if_neg hroot, if_neg hroot, put, List.lookup_cons, hne]
      exact lookup_filter_ne hl

/-! ## Following a path -/

theorem bind_eq_ok_iff {α β : Type} {x : Except FileError α} {f : α → Except FileError β} {b : β} :
    (x >>= f) = .ok b ↔ ∃ a, x = .ok a ∧ f a = .ok b := by
  cases x with
  | error error =>
      constructor
      · intro h
        cases h
      · rintro ⟨a, h, -⟩
        cases h
  | ok a => simp [bind, Except.bind]

theorem requireDirectory_ok_iff {u : Unit} :
    t.requireDirectory loc = .ok u ↔ t.entry? loc = some .directory := by
  unfold requireDirectory
  cases t.entry? loc with
  | none => simp
  | some entry => cases entry <;> simp

/-- One step along a path. -/
theorem walk_cons_ok_iff {name : String} {rest : List String} :
    t.walk loc (name :: rest) = .ok l ↔ t.entry? loc = some .directory ∧
      if name = "." then t.walk loc rest = .ok l
      else if name = ".." then t.walk loc.dropLast rest = .ok l
      else name.utf8ByteSize ≤ maxNameBytes ∧ t.entry? (loc ++ [name]) ≠ none ∧
        t.walk (loc ++ [name]) rest = .ok l := by
  simp only [walk, bind_eq_ok_iff, requireDirectory_ok_iff, exists_const]
  refine and_congr_right fun _ => ?_
  split
  · rfl
  · split
    · rfl
    · split
      · simp; omega
      · cases t.entry? (loc ++ [name]) with
        | none => simp
        | some entry => simp; omega

theorem walk_append_ok_iff {xs ys : List String} :
    t.walk loc (xs ++ ys) = .ok l ↔ ∃ m, t.walk loc xs = .ok m ∧ t.walk m ys = .ok l := by
  induction xs generalizing loc with
  | nil => simp [walk]
  | cons name xs ih =>
      simp only [List.cons_append, walk_cons_ok_iff, ih]
      split
      · simp only [and_assoc, exists_and_left]
      · split
        · simp only [and_assoc, exists_and_left]
        · simp only [and_assoc, exists_and_left]

theorem locate_ok_iff : t.locate p = .ok loc ↔ checkText p = .ok () ∧
    t.walk (t.origin p) p.names = .ok loc ∧
      (p.endsInSlash = true → t.entry? loc = some .directory) := by
  have hend (l : Location) : (if p.endsInSlash = true then do t.requireDirectory l; pure l
      else pure l) = .ok loc ↔
      l = loc ∧ (p.endsInSlash = true → t.entry? loc = some .directory) := by
    by_cases hslash : p.endsInSlash = true
    · simp only [hslash, if_true, bind_eq_ok_iff, requireDirectory_ok_iff, exists_const,
        true_implies]
      constructor
      · rintro ⟨hl, heq⟩
        cases heq
        exact ⟨rfl, hl⟩
      · rintro ⟨rfl, hl⟩
        exact ⟨hl, rfl⟩
    · simp [hslash, pure, Except.pure]
  simp only [locate, bind_eq_ok_iff, hend]
  constructor
  · rintro ⟨_, hcheck, l, hwalk, rfl, hslash⟩
    exact ⟨hcheck, hwalk, hslash⟩
  · rintro ⟨hcheck, hwalk, hslash⟩
    exact ⟨(), hcheck, loc, hwalk, rfl, hslash⟩

/-- What a place for a new entry is: a name in a directory. -/
theorem place_ok (h : t.place p = .ok loc) : checkText p = .ok () ∧
    ∃ dirs name dir, p.names = dirs ++ [name] ∧ t.walk (t.origin p) dirs = .ok dir ∧
      t.entry? dir = some .directory ∧ name ≠ "." ∧ name ≠ ".." ∧
      name.utf8ByteSize ≤ maxNameBytes ∧ loc = dir ++ [name] := by
  simp only [place, bind_eq_ok_iff] at h
  obtain ⟨_, hcheck, h⟩ := h
  refine ⟨hcheck, ?_⟩
  cases hname : p.names.getLast? with
  | none =>
      rw [hname] at h
      cases h
  | some name =>
      rw [hname] at h
      simp only [bind_eq_ok_iff, requireDirectory_ok_iff, exists_const] at h
      obtain ⟨dir, hwalk, hdir, h⟩ := h
      obtain ⟨dirs, hdirs⟩ := List.getLast?_eq_some_iff.mp hname
      rw [hdirs, List.dropLast_concat] at hwalk
      by_cases hdots : name = "." ∨ name = ".."
      · rw [if_pos (by simpa using hdots)] at h
        cases h
      · rw [if_neg (by simpa using hdots)] at h
        split at h
        · cases h
        · cases h
          exact ⟨dirs, name, dir, hdirs, hwalk, hdir, fun h => hdots (.inl h),
            fun h => hdots (.inr h), by omega, rfl⟩

/-! ## Trees that keep what stands in them -/

/-- No entry is gone, and none has become another kind of thing. -/
structure Keeps (t t' : FileTree) : Prop where
  workingDirectory : t'.workingDirectory = t.workingDirectory
  directory : ∀ {loc}, t.entry? loc = some .directory → t'.entry? loc = some .directory
  file : ∀ {loc content}, t.entry? loc = some (.file content) →
    ∃ content', t'.entry? loc = some (.file content')

namespace Keeps

theorem refl (t : FileTree) : t.Keeps t := ⟨rfl, id, fun h => ⟨_, h⟩⟩

theorem trans (h : t.Keeps t') (h' : t'.Keeps t'') : t.Keeps t'' where
  workingDirectory := h'.workingDirectory.trans h.workingDirectory
  directory hloc := h'.directory (h.directory hloc)
  file hloc := by
    obtain ⟨content, hloc⟩ := h.file hloc
    exact h'.file hloc

theorem entry_ne_none (h : t.Keeps t') (hloc : t.entry? loc ≠ none) : t'.entry? loc ≠ none := by
  cases hentry : t.entry? loc with
  | none => exact absurd hentry hloc
  | some entry =>
      cases entry with
      | directory => simp [h.directory hentry]
      | file content =>
          obtain ⟨content', hentry'⟩ := h.file hentry
          simp [hentry']

/-- The induction is on the names: each step asks only for entries that are kept. -/
theorem walk (h : t.Keeps t') {names : List String} (hwalk : t.walk loc names = .ok l) :
    t'.walk loc names = .ok l := by
  induction names generalizing loc with
  | nil => exact hwalk
  | cons name rest ih =>
      rw [walk_cons_ok_iff] at hwalk ⊢
      refine ⟨h.directory hwalk.1, ?_⟩
      have hstep := hwalk.2
      split
      · next hdot =>
          rw [if_pos hdot] at hstep
          exact ih hstep
      · next hdot =>
          rw [if_neg hdot] at hstep
          split
          · next hup =>
              rw [if_pos hup] at hstep
              exact ih hstep
          · next hup =>
              rw [if_neg hup] at hstep
              exact ⟨hstep.1, h.entry_ne_none hstep.2.1, ih hstep.2.2⟩

theorem origin (h : t.Keeps t') (p : Path) : t'.origin p = t.origin p := by
  simp [FileTree.origin, h.workingDirectory]

/-- A path that leads somewhere leads there ever after. -/
theorem locate (h : t.Keeps t') (hloc : t.locate p = .ok loc) : t'.locate p = .ok loc := by
  rw [locate_ok_iff] at hloc ⊢
  obtain ⟨hcheck, hwalk, hslash⟩ := hloc
  refine ⟨hcheck, ?_, fun hends => h.directory (hslash hends)⟩
  rw [h.origin]
  exact h.walk hwalk

/-- The place of a new entry is where its path leads once the entry is there. -/
theorem locate_of_place (h : t.Keeps t') (hplace : t.place p = .ok loc) {entry : Entry}
    (hentry : t'.entry? loc = some entry) (hslash : p.endsInSlash = true → entry = .directory) :
    t'.locate p = .ok loc := by
  obtain ⟨hcheck, dirs, name, dir, hnames, hwalk, hdir, hdot, hup, hlength, rfl⟩ := place_ok hplace
  refine locate_ok_iff.mpr ⟨hcheck, ?_, fun hends => ?_⟩
  · rw [hnames, h.origin]
    refine walk_append_ok_iff.mpr ⟨dir, h.walk hwalk, walk_cons_ok_iff.mpr ⟨h.directory hdir, ?_⟩⟩
    rw [if_neg hdot, if_neg hup]
    exact ⟨hlength, by simp [hentry], rfl⟩
  · rw [hentry, hslash hends]

theorem put_file (hloc : t.entry? loc ≠ some .directory) (content : ByteArray) :
    t.Keeps (t.put loc (.file content)) where
  workingDirectory := rfl
  directory {l} hl := by
    have hne : l ≠ loc := by
      rintro rfl
      exact hloc hl
    rw [entry?_put (ne_root hloc), if_neg hne]
    exact hl
  file {l content'} hl := by
    rw [entry?_put (ne_root hloc)]
    split
    · exact ⟨content, rfl⟩
    · exact ⟨content', hl⟩

end Keeps

/-! ## Making directories -/

/-- Directories were made at some of the paths, and that is all. -/
structure Made (paths : List Path) (t t' : FileTree) : Prop where
  workingDirectory : t'.workingDirectory = t.workingDirectory
  kept : ∀ {loc entry}, t.entry? loc = some entry → t'.entry? loc = some entry
  made : ∀ {loc entry}, t'.entry? loc = some entry → t.entry? loc = some entry ∨
    entry = .directory ∧ ∃ p ∈ paths, t'.locate p = .ok loc

namespace Made

theorem keeps (h : Made paths t t') : t.Keeps t' :=
  ⟨h.workingDirectory, h.kept, fun hl => ⟨_, h.kept hl⟩⟩

theorem refl (paths : List Path) (t : FileTree) : Made paths t t := ⟨rfl, id, .inl⟩

theorem trans (h : Made paths t t') (h' : Made paths t' t'') : Made paths t t'' where
  workingDirectory := h'.workingDirectory.trans h.workingDirectory
  kept hl := h'.kept (h.kept hl)
  made hl := by
    rcases h'.made hl with hl | hnew
    · rcases h.made hl with hl | ⟨rfl, p, hp, hlocate⟩
      · exact .inl hl
      · exact .inr ⟨rfl, p, hp, h'.keeps.locate hlocate⟩
    · exact .inr hnew

theorem file?_eq (h : Made paths t t') (loc : Location) : t'.file? loc = t.file? loc := by
  unfold file?
  cases hentry : t'.entry? loc with
  | some entry =>
      rcases h.made hentry with hold | ⟨rfl, -⟩
      · rw [hold]
      · cases hold : t.entry? loc with
        | none => rfl
        | some entry =>
            have hsame := h.kept hold
            rw [hentry] at hsame
            cases hsame
            rfl
  | none =>
      cases hold : t.entry? loc with
      | none => rfl
      | some entry =>
          have hsame := h.kept hold
          rw [hentry] at hsame
          cases hsame

theorem createDir (hp : p ∈ paths) (h : t.createDir p = .ok t') : Made paths t t' := by
  simp only [FileTree.createDir, bind_eq_ok_iff] at h
  obtain ⟨loc, hplace, h⟩ := h
  cases hentry : t.entry? loc with
  | some entry =>
      rw [hentry] at h
      cases h
  | none =>
      rw [hentry] at h
      cases h
      have hfree : t.entry? loc ≠ some .directory := by simp [hentry]
      have hput := @entry?_put t loc (ne_root hfree) .directory
      have hkept {l : Location} {entry : Entry} (hl : t.entry? l = some entry) :
          entry? (t.put loc .directory) l = some entry := by
        have hne : l ≠ loc := by
          rintro rfl
          rw [hentry] at hl
          cases hl
        rw [hput, if_neg hne]
        exact hl
      refine ⟨rfl, hkept, fun {l entry} hl => ?_⟩
      rw [hput] at hl
      split at hl
      · next heq =>
          cases hl
          subst heq
          have hkeeps : t.Keeps (t.put l .directory) := ⟨rfl, hkept, fun hl => ⟨_, hkept hl⟩⟩
          refine .inr ⟨rfl, p, hp, hkeeps.locate_of_place hplace ?_ fun _ => rfl⟩
          rw [hput, if_pos rfl]
      · exact .inl hl

theorem createDirs (hps : ps ⊆ paths) : Made paths t (t.createDirs ps).2 := by
  induction ps generalizing t with
  | nil => exact refl paths t
  | cons p ps ih =>
      rw [List.cons_subset] at hps
      unfold FileTree.createDirs
      cases hmake : t.createDir p with
      | ok t' => exact (createDir hps.1 hmake).trans (ih hps.2)
      | error error =>
          simp only []
          split
          · exact ih hps.2
          · exact refl paths t

theorem createFrom {inner outer : List Path} (hinner : inner ⊆ paths) (houter : outer ⊆ paths) :
    Made paths t (t.createFrom inner outer).2 := by
  induction outer generalizing inner with
  | nil => exact createDirs hinner
  | cons p outer ih =>
      rw [List.cons_subset] at houter
      unfold FileTree.createFrom
      cases hmake : t.createDir p with
      | ok t' => exact (createDir houter.1 hmake).trans (createDirs hinner)
      | error error =>
          have hthere : Made paths t
              (if t.isDirectory p then t.createDirs inner else (.error error, t)).2 := by
            split
            · exact createDirs hinner
            · exact refl paths t
          cases error with
          | missing => exact ih (List.cons_subset.mpr ⟨houter.1, hinner⟩) houter.2
          | _ => exact hthere

theorem createDirAll (t : FileTree) (p : Path) :
    Made (p :: p.parents) t (t.createDirAll p).2 := by
  unfold FileTree.createDirAll
  split
  · exact refl _ t
  · exact createFrom (List.nil_subset _) (List.Subset.refl _)

end Made

/-! ## Putting a file in place -/

/-- A file was put at a location, which the path leads to, and that is all. -/
structure Installed (p : Path) (content : ByteArray) (loc : Location) (t t' : FileTree) : Prop where
  locate : t'.locate p = .ok loc
  free : t.entry? loc ≠ some .directory
  keeps : t.Keeps t'
  entries : ∀ l, t'.entry? l = if l = loc then some (.file content) else t.entry? l

theorem install_ok (h : t.install p content = .ok t') : ∃ loc, Installed p content loc t t' := by
  simp only [install, bind_eq_ok_iff] at h
  obtain ⟨loc, hplace, h⟩ := h
  by_cases hslash : p.endsInSlash = true
  · rw [if_pos hslash] at h
    cases h
  · rw [if_neg hslash] at h
    have hfree : t.entry? loc ≠ some .directory ∧ t' = t.put loc (.file content) := by
      cases hentry : t.entry? loc with
      | none =>
          rw [hentry] at h
          cases h
          exact ⟨by simp, rfl⟩
      | some entry =>
          rw [hentry] at h
          cases entry with
          | directory => cases h
          | file old =>
              cases h
              exact ⟨by simp, rfl⟩
    obtain ⟨hloc, rfl⟩ := hfree
    have hkeeps := Keeps.put_file hloc content
    have hput := @entry?_put t loc (ne_root hloc) (.file content)
    have hlocate := hkeeps.locate_of_place hplace (by rw [hput, if_pos rfl]) fun hends =>
      absurd hends hslash
    exact ⟨loc, hlocate, hloc, hkeeps, hput⟩

namespace Installed

theorem entry?_self (h : Installed p content loc t t') : t'.entry? loc = some (.file content) := by
  rw [h.entries, if_pos rfl]

theorem entry?_other (h : Installed p content loc t t') (hl : l ≠ loc) :
    t'.entry? l = t.entry? l := by
  rw [h.entries, if_neg hl]

theorem file?_other (h : Installed p content loc t t') (hl : l ≠ loc) :
    t'.file? l = t.file? l := by
  unfold file?
  rw [h.entry?_other hl]

theorem directory_iff (h : Installed p content loc t t') :
    t'.entry? l = some .directory ↔ t.entry? l = some .directory := by
  constructor
  · intro hl
    rw [h.entries] at hl
    split at hl
    · cases hl
    · exact hl
  · exact h.keeps.directory

end Installed

theorem read_of_locate (hlocate : t.locate p = .ok loc)
    (hentry : t.entry? loc = some (.file content)) : t.read p = .ok content := by
  simp only [read, bind_eq_ok_iff]
  refine ⟨loc, hlocate, ?_⟩
  rw [hentry]
  rfl

end StateLang.FileTree
