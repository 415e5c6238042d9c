import StateLang.Command.Run
import StateLang.Proofs.Files.Tree

/-!
# Writing the documents

Both documents are staged before either is moved, and what is staged is fresh, so
whatever fails no temporary file is left. The writing ends in one of three ways:
before any file is touched, between the two files, or with both in place.
-/

namespace StateLang

/-! ## Temporary files -/

namespace FileStore

variable {s : FileStore} {file other : Staged} {content : ByteArray}

/-- The store with other named files. -/
def withTree (s : FileStore) (tree : FileTree) : FileStore := { s with tree := tree }

/-- The store with one more temporary file. -/
def hold (s : FileStore) (file : Staged) (content : ByteArray) : FileStore :=
  { s with staged := (file, content) :: s.staged }

def Fresh (s : FileStore) (file : Staged) : Prop := ∀ entry ∈ s.staged, entry.1 ≠ file

theorem serial_lt_nextSerial {entry : Staged × ByteArray} (h : entry ∈ s.staged) :
    entry.1.serial < s.nextSerial := by
  have hfold (staged : List (Staged × ByteArray)) (n : Nat) :
      n ≤ staged.foldl (fun n entry => max n (entry.1.serial + 1)) n ∧
        ∀ entry ∈ staged,
          entry.1.serial < staged.foldl (fun n entry => max n (entry.1.serial + 1)) n := by
    induction staged generalizing n with
    | nil => simp
    | cons first rest ih =>
        obtain ⟨hle, hrest⟩ := ih (max n (first.1.serial + 1))
        simp only [List.foldl_cons, List.mem_cons]
        refine ⟨by omega, ?_⟩
        rintro entry (rfl | hentry)
        · omega
        · exact hrest entry hentry
  exact (hfold s.staged 0).2 entry h

/-- Staging fails and does nothing, or holds the content in a file of its own; then its directory
is there. -/
theorem stage_cases (directory : Path) (content : ByteArray) (s : FileStore) :
    (∃ error, s.stage directory content = (.error error, s)) ∨
      s.tree.isDirectory directory = true ∧
        ∃ file, s.Fresh file ∧ s.stage directory content = (.ok file, s.hold file content) := by
  cases hlocate : s.tree.locate directory with
  | error error => exact .inl ⟨error, by simp only [stage, hlocate]⟩
  | ok loc =>
      cases hdirectory : s.tree.requireDirectory loc with
      | error error => exact .inl ⟨error, by simp only [stage, hlocate, hdirectory]⟩
      | ok _ =>
          have hentry := FileTree.requireDirectory_ok_iff.mp hdirectory
          refine .inr ⟨by simp [FileTree.isDirectory, hlocate, hentry], ⟨directory, s.nextSerial⟩,
            fun entry hentry heq => ?_, ?_⟩
          · have hlt := serial_lt_nextSerial hentry
            rw [heq] at hlt
            exact Nat.lt_irrefl _ hlt
          · simp only [stage, hlocate, hdirectory, hold]

theorem discard_hold (h : s.Fresh file) : (s.hold file content).discard file = s := by
  have hkeep : s.staged.filter (fun entry => entry.1 ≠ file) = s.staged :=
    List.filter_eq_self.mpr fun entry hentry => by simpa using h entry hentry
  simp only [discard, hold]
  rw [List.filter_cons_of_neg (by simp), hkeep]

theorem discard_hold_other (h : other ≠ file) :
    (s.hold other content).discard file = (s.discard file).hold other content := by
  simp only [discard, hold]
  rw [List.filter_cons_of_pos (by simpa using h)]

theorem install_of_error {target : Path} {error : FileError}
    (hfile : s.staged.lookup file = some content)
    (htree : s.tree.install target content = .error error) :
    s.install file target = (.error error, s) := by
  simp only [install, hfile, htree]

theorem install_of_ok {target : Path} {tree : FileTree}
    (hfile : s.staged.lookup file = some content)
    (htree : s.tree.install target content = .ok tree) :
    s.install file target = (.ok (), (s.discard file).withTree tree) := by
  simp only [install, hfile, htree, withTree]

theorem lookup_hold : (s.hold file content).staged.lookup file = some content := by
  simp [hold]

theorem lookup_hold_other (h : other ≠ file) :
    (s.hold other content).staged.lookup file = s.staged.lookup file := by
  have hne : (file == other) = false := by simpa using h.symm
  simp only [hold, List.lookup_cons, hne]

end FileStore

namespace Command

open FileStore FileTree

variable {settings : Settings} {documents : Documents} {s : FileStore}

@[simp] theorem bind_apply {α β : Type} (x : StateM FileStore α) (f : α → StateM FileStore β)
    (s : FileStore) : (x >>= f) s = f (x s).1 (x s).2 := rfl

@[simp] theorem pure_apply {α : Type} (a : α) (s : FileStore) :
    (pure a : StateM FileStore α) s = (a, s) := rfl

@[simp] theorem read_apply (p : Path) (s : FileStore) :
    (FileSystem.read p : StateM FileStore _) s = (s.tree.read p, s) := rfl

@[simp] theorem isFile_apply (p : Path) (s : FileStore) :
    (FileSystem.isFile p : StateM FileStore _) s = (s.tree.isFile p, s) := rfl

@[simp] theorem createDirAll_apply (p : Path) (s : FileStore) :
    (FileSystem.createDirAll p : StateM FileStore _) s =
      ((s.tree.createDirAll p).1, s.withTree (s.tree.createDirAll p).2) := rfl

@[simp] theorem stage_apply (directory : Path) (content : ByteArray) (s : FileStore) :
    (FileSystem.stage directory content : StateM FileStore _) s = s.stage directory content := rfl

@[simp] theorem install_apply (file : Staged) (target : Path) (s : FileStore) :
    (FileSystem.install file target : StateM FileStore _) s = s.install file target := rfl

@[simp] theorem discard_apply (file : Staged) (s : FileStore) :
    (FileSystem.discard file : StateM FileStore _) s = ((), s.discard file) := rfl

/-- The error of an implementation that cannot be moved. -/
def headerReplaced (settings : Settings) (cause : FileError) : WriteError :=
  ⟨"Writing " ++ settings.implementationPath.text ++ " (" ++ settings.headerPath.text ++
    " was already replaced)", cause⟩

/-- The implementation cannot be moved when the header has been: the output directory is there or
is made, and so is the directory of the implementation, and the header can be moved. -/
structure StopsBetween (settings : Settings) (documents : Documents) (t made moved : FileTree)
    (cause : FileError) : Prop where
  created : t.createDirAll settings.outputDir = (.ok (), made)
  directory : made.isDirectory settings.implementationPath.directory = true
  header : made.install settings.headerPath documents.header.toUTF8 = .ok moved
  implementation :
    moved.install settings.implementationPath documents.implementation.toUTF8 = .error cause

theorem made_of_created {t made : FileTree}
    (h : t.createDirAll settings.outputDir = (.ok (), made)) :
    Made (settings.outputDir :: settings.outputDir.parents) t made := by
  have hmade := Made.createDirAll t settings.outputDir
  rw [h] at hmade
  exact hmade

/-- The ways in which writing the documents ends: before any file is touched, with only the header
moved, or with both moved. -/
inductive Written (settings : Settings) (documents : Documents) (s : FileStore) :
    Except WriteError Unit × FileStore → Prop
  | untouched {error : WriteError} {tree : FileTree}
      (hmade : Made (settings.outputDir :: settings.outputDir.parents) s.tree tree) :
      Written settings documents s (.error error, s.withTree tree)
  | half {made moved : FileTree} {cause : FileError}
      (hstops : StopsBetween settings documents s.tree made moved cause) :
      Written settings documents s (.error (headerReplaced settings cause), s.withTree moved)
  | both {tree tree' tree'' : FileTree}
      (hcreated : s.tree.createDirAll settings.outputDir = (.ok (), tree))
      (hheader : tree.install settings.headerPath documents.header.toUTF8 = .ok tree')
      (himplementation :
        tree'.install settings.implementationPath documents.implementation.toUTF8 = .ok tree'') :
      Written settings documents s (.ok (), s.withTree tree'')

/-- From both documents staged on. -/
theorem installBoth_written {tree : FileTree} {header implementation : Staged}
    (hcreated : s.tree.createDirAll settings.outputDir = (.ok (), tree))
    (hdirectory : tree.isDirectory settings.implementationPath.directory = true)
    (hheader : (s.withTree tree).Fresh header)
    (himplementation :
      ((s.withTree tree).hold header documents.header.toUTF8).Fresh implementation) :
    Written settings documents s ((installBoth settings header implementation :
      StateM FileStore _) (((s.withTree tree).hold header documents.header.toUTF8).hold
        implementation documents.implementation.toUTF8)) := by
  have hne : implementation ≠ header :=
    (himplementation (header, _) List.mem_cons_self).symm
  have hfresh (tree : FileTree) : (s.withTree tree).Fresh implementation := fun entry hentry =>
    himplementation entry (List.mem_cons_of_mem _ hentry)
  have hlookup : (((s.withTree tree).hold header documents.header.toUTF8).hold implementation
      documents.implementation.toUTF8).staged.lookup header = some documents.header.toUTF8 :=
    (lookup_hold_other hne).trans lookup_hold
  simp only [installBoth, bind_apply, install_apply]
  cases hmove : tree.install settings.headerPath documents.header.toUTF8 with
  | error cause =>
      rw [install_of_error hlookup hmove]
      simp only [bind_apply, discard_apply, pure_apply]
      rw [discard_hold_other hne, discard_hold hheader, discard_hold (hfresh tree)]
      exact .untouched (made_of_created hcreated)
  | ok tree' =>
      rw [install_of_ok hlookup hmove]
      rw [discard_hold_other hne, discard_hold hheader]
      -- the header is moved: what is left is the implementation, staged over the new tree
      change Written settings documents s (((FileSystem.install implementation
        settings.implementationPath >>= _ : StateM FileStore _))
          ((s.withTree tree').hold implementation documents.implementation.toUTF8))
      have hlookup' : ((s.withTree tree').hold implementation
          documents.implementation.toUTF8).staged.lookup implementation =
            some documents.implementation.toUTF8 := lookup_hold
      simp only [bind_apply, install_apply]
      cases hmove' : tree'.install settings.implementationPath
          documents.implementation.toUTF8 with
      | error cause =>
          rw [install_of_error hlookup' hmove']
          simp only [bind_apply, discard_apply, pure_apply]
          rw [discard_hold (hfresh tree')]
          exact .half ⟨hcreated, hdirectory, hmove, hmove'⟩
      | ok tree'' =>
          rw [install_of_ok hlookup' hmove', discard_hold (hfresh tree')]
          exact .both hcreated hmove hmove'

theorem writeDocuments_written (settings : Settings) (documents : Documents) (s : FileStore) :
    Written settings documents s
      ((writeDocuments settings documents : StateM FileStore _) s) := by
  have hmade := Made.createDirAll s.tree settings.outputDir
  simp only [writeDocuments, bind_apply, createDirAll_apply]
  generalize hcreated : s.tree.createDirAll settings.outputDir = created at hmade
  obtain ⟨result, tree⟩ := created
  cases result with
  | error cause => exact .untouched hmade
  | ok _ =>
      simp only [bind_apply, stage_apply]
      rcases stage_cases settings.headerPath.directory documents.header.toUTF8
          (s.withTree tree) with
        ⟨cause, hstage⟩ | ⟨-, header, hheader, hstage⟩
      · rw [hstage]
        exact .untouched hmade
      · rw [hstage]
        simp only [bind_apply, stage_apply]
        rcases stage_cases settings.implementationPath.directory documents.implementation.toUTF8
          ((s.withTree tree).hold header documents.header.toUTF8) with
          ⟨cause, hstage'⟩ | ⟨hdirectory, implementation, himplementation, hstage'⟩
        · rw [hstage']
          simp only [bind_apply, discard_apply, pure_apply]
          rw [discard_hold hheader]
          exact .untouched hmade
        · rw [hstage']
          exact installBoth_written hcreated hdirectory hheader himplementation

/-! ## What writing leaves as it was -/

namespace Written

variable {result : Except WriteError Unit} {s' : FileStore} {loc : Location}

theorem staged_eq (h : Written settings documents s (result, s')) : s'.staged = s.staged := by
  cases h <;> rfl

theorem keeps (h : Written settings documents s (result, s')) : s.tree.Keeps s'.tree := by
  cases h with
  | untouched hmade => exact hmade.keeps
  | half hstops =>
      obtain ⟨_, hheader⟩ := install_ok hstops.header
      exact (made_of_created hstops.created).keeps.trans hheader.keeps
  | both hcreated hheader himplementation =>
      obtain ⟨_, hheader⟩ := install_ok hheader
      obtain ⟨_, himplementation⟩ := install_ok himplementation
      exact ((made_of_created hcreated).keeps.trans hheader.keeps).trans himplementation.keeps

/-- The only directories that can be new are the output directory and its parents. -/
theorem directory_made (h : Written settings documents s (result, s'))
    (hloc : s'.tree.entry? loc = some .directory) :
    s.tree.entry? loc = some .directory ∨
      ∃ p ∈ settings.outputDir :: settings.outputDir.parents, s'.tree.locate p = .ok loc := by
  have hnew {tree : FileTree}
      (hmade : Made (settings.outputDir :: settings.outputDir.parents) s.tree tree)
      (hkeeps : tree.Keeps s'.tree) (hloc : tree.entry? loc = some .directory) :
      s.tree.entry? loc = some .directory ∨
        ∃ p ∈ settings.outputDir :: settings.outputDir.parents, s'.tree.locate p = .ok loc := by
    rcases hmade.made hloc with hloc | ⟨-, p, hp, hlocate⟩
    · exact .inl hloc
    · exact .inr ⟨p, hp, hkeeps.locate hlocate⟩
  cases h with
  | untouched hmade => exact hnew hmade (.refl _) hloc
  | half hstops =>
      obtain ⟨_, hheader⟩ := install_ok hstops.header
      exact hnew (made_of_created hstops.created) hheader.keeps (hheader.directory_iff.mp hloc)
  | both hcreated hheader himplementation =>
      obtain ⟨_, hheader⟩ := install_ok hheader
      obtain ⟨_, himplementation⟩ := install_ok himplementation
      exact hnew (made_of_created hcreated) (hheader.keeps.trans himplementation.keeps)
        (hheader.directory_iff.mp (himplementation.directory_iff.mp hloc))

/-- A failure touches no file, or it comes between the two moves: then the header is the only file
that can have changed. -/
theorem error_cases {error : WriteError} (h : Written settings documents s (.error error, s')) :
    (∀ loc, s'.tree.file? loc = s.tree.file? loc) ∨
      (∃ made cause, StopsBetween settings documents s.tree made s'.tree cause) ∧
      ∀ loc, s'.tree.file? loc ≠ s.tree.file? loc →
        s'.tree.locate settings.headerPath = .ok loc := by
  cases h with
  | untouched hmade => exact .inl hmade.file?_eq
  | half hstops =>
      obtain ⟨place, hheader⟩ := install_ok hstops.header
      refine .inr ⟨⟨_, _, hstops⟩, fun loc hloc => ?_⟩
      by_cases heq : loc = place
      · rw [heq]
        exact hheader.locate
      · refine absurd ?_ hloc
        exact (hheader.file?_other heq).trans ((made_of_created hstops.created).file?_eq loc)

/-- A writing that stops between the moves does not succeed. -/
theorem not_stopsBetween (h : Written settings documents s (.ok (), s')) {made moved : FileTree}
    {cause : FileError} : ¬ StopsBetween settings documents s.tree made moved cause := by
  intro hstops
  cases h with
  | both hcreated hheader himplementation =>
      cases hcreated.symm.trans hstops.created
      cases hheader.symm.trans hstops.header
      cases himplementation.symm.trans hstops.implementation

end Written

/-- Both documents stand in their places, the header unless it has the same place as the
implementation, and no other file has changed. -/
structure Placed (settings : Settings) (documents : Documents) (t t' : FileTree)
    (header implementation : Location) : Prop where
  headerPlace : t'.locate settings.headerPath = .ok header
  implementationPlace : t'.locate settings.implementationPath = .ok implementation
  headerRead : header ≠ implementation →
    t'.read settings.headerPath = .ok documents.header.toUTF8
  implementationRead :
    t'.read settings.implementationPath = .ok documents.implementation.toUTF8
  other : ∀ loc, t'.file? loc ≠ t.file? loc → loc = header ∨ loc = implementation

theorem Written.placed {s' : FileStore} (h : Written settings documents s (.ok (), s')) :
    ∃ header implementation, Placed settings documents s.tree s'.tree header implementation := by
  cases h with
  | both hcreated hheader himplementation =>
      obtain ⟨place, hheader⟩ := install_ok hheader
      obtain ⟨place', himplementation⟩ := install_ok himplementation
      have hlocate := himplementation.keeps.locate hheader.locate
      refine ⟨place, place', hlocate, himplementation.locate, fun hne => ?_, ?_, fun loc hloc => ?_⟩
      · refine read_of_locate hlocate ?_
        exact (himplementation.entry?_other hne).trans hheader.entry?_self
      · exact read_of_locate himplementation.locate himplementation.entry?_self
      · refine Decidable.byContradiction fun hneither => hloc ?_
        obtain ⟨hne, hne'⟩ := not_or.mp hneither
        exact (himplementation.file?_other hne').trans
          ((hheader.file?_other hne).trans ((made_of_created hcreated).file?_eq loc))

end Command

end StateLang
