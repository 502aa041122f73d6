import Arbor.Settings
import Arbor.Proofs.Path

/-!
# The search for settings

Settings are searched from a directory upward, and three things can be found in a directory: that
the name of the settings file leads nowhere, that it leads somewhere, or that this cannot be told.
Only the first sends the search on.

`Settings.find_nearest` says what the search comes to in a file system whose answers do not change
while it is searched, whatever reads the files. The search fails where the current directory is
needed and cannot be told. Else the directories are those on the way up as far as the names tell
(`Path.Ascent`), which ends at the root directory. The first of them where the name does not lead
nowhere decides: its file is loaded, or the search fails and reads nothing. In the end there are the
default settings just if the name leads nowhere in all of them; a file that is loaded is told by its
directory, even if it sets nothing.

The outcome is stated as the computation it is equal to, in any monad, so that it is clear what is
read.
-/

namespace Arbor

/-- Whether a look-up says that a name leads nowhere. -/
def FileError.isAbsent : Except FileError Unit → Bool
  | .ok () => false
  | .error e => e.cause = .notFound

/-- Whether a file system tells the current directory from the root directory on, if it can. -/
def Disk.IsRooted {m : Type → Type} (disk : Disk m) : Prop :=
  ∀ here, disk.current = .ok here → Path.isRooted here = true

namespace Settings

open FileError (isAbsent)

/-- The settings file of a directory. -/
def fileIn (directory : Text) : Text := Path.join directory fileName

theorem isName_fileName : Path.IsName fileName :=
  ⟨by decide, by decide, by decide, by decide⟩

section

variable {m : Type → Type} [Monad m]

/-- **What a search comes to** in some directories, in a file system that answers look-ups by
`stat`. -/
structure Nearest (disk : Disk m) (readers : Readers) (stat : Text → Except FileError Unit)
    (directories : List Text) (outcome : m (Except ProjectError Settings)) : Prop where
  /-- The first file that is there is loaded. -/
  loaded : ∀ nearer directory farther, directories = nearer ++ directory :: farther →
    (∀ d ∈ nearer, isAbsent (stat (fileIn d)) = true) → stat (fileIn directory) = .ok () →
    outcome = load disk (fileIn directory) readers
  /-- The first failure other than that the name leads nowhere is that of the search, and nothing
  is read. -/
  failed : ∀ nearer directory farther e, directories = nearer ++ directory :: farther →
    (∀ d ∈ nearer, isAbsent (stat (fileIn d)) = true) → stat (fileIn directory) = .error e →
    e.cause ≠ .notFound → outcome = pure (.error (.search e))
  /-- If there is no file anywhere, there are the default settings, and nothing is read. -/
  absent : (∀ d ∈ directories, isAbsent (stat (fileIn d)) = true) → outcome = pure (.ok default)

variable [LawfulMonad m] {disk : Disk m} {readers : Readers} {stat : Text → Except FileError Unit}
  {directory : Text} {nearer rest : List Text}

/-- A settings file that is there is loaded. -/
theorem findIn_cons_of_ok (hstat : ∀ name, disk.lookup name = pure (stat name))
    (hs : stat (fileIn directory) = .ok ()) :
    findIn disk readers (directory :: rest) = load disk (fileIn directory) readers := by
  have hlookup : disk.lookup (Path.join directory fileName) = pure (.ok ()) :=
    (hstat _).trans (congrArg pure hs)
  rw [findIn, hlookup, pure_bind]
  rfl

/-- Where there is none, the search goes on if the name leads nowhere. -/
theorem findIn_cons_of_error (hstat : ∀ name, disk.lookup name = pure (stat name)) {e : FileError}
    (hs : stat (fileIn directory) = .error e) :
    findIn disk readers (directory :: rest)
      = if e.cause = .notFound then findIn disk readers rest else pure (.error (.search e)) := by
  have hlookup : disk.lookup (Path.join directory fileName) = pure (.error e) :=
    (hstat _).trans (congrArg pure hs)
  rw [findIn, hlookup, pure_bind]

/-- Directories without a settings file are passed over. -/
theorem findIn_append (hstat : ∀ name, disk.lookup name = pure (stat name))
    (habsent : ∀ d ∈ nearer, isAbsent (stat (fileIn d)) = true) :
    findIn disk readers (nearer ++ rest) = findIn disk readers rest := by
  induction nearer with
  | nil => rfl
  | cons d nearer ih =>
    rw [List.forall_mem_cons] at habsent
    obtain ⟨hd, hnearer⟩ := habsent
    cases hs : stat (fileIn d) with
    | ok u =>
      rw [hs] at hd
      cases hd
    | error e =>
      rw [hs] at hd
      rw [List.cons_append, findIn_cons_of_error hstat hs, if_pos (of_decide_eq_true hd),
        ih hnearer]

theorem nearest_findIn (hstat : ∀ name, disk.lookup name = pure (stat name))
    (directories : List Text) :
    Nearest disk readers stat directories (findIn disk readers directories) where
  loaded nearer directory farther hsplit habsent hs := by
    rw [hsplit, findIn_append hstat habsent, findIn_cons_of_ok hstat hs]
  failed nearer directory farther e hsplit habsent hs he := by
    rw [hsplit, findIn_append hstat habsent, findIn_cons_of_error hstat hs, if_neg he]
  absent habsent := by
    have hfind : findIn disk readers (directories ++ []) = findIn disk readers [] :=
      findIn_append hstat habsent
    rw [List.append_nil] at hfind
    rw [hfind, findIn]

end

/-! ## Loaded settings are told from the default ones -/

/-- Loaded settings know the directory of their file. -/
theorem directory_of_load {disk : Disk Id} {readers : Readers} {file : Text} {s : Settings}
    (h : load disk file readers = .ok s) : s.directory = Path.directory file := by
  unfold load at h
  cases hread : disk.read file with
  | error e =>
    rw [hread] at h
    cases h
  | ok content =>
    replace hread : disk.read file = pure (.ok content) := hread
    rw [hread, pure_bind] at h
    cases hvalue : readers.settings? content with
    | none =>
      simp only [hvalue] at h
      cases h
    | some t =>
      simp only [hvalue] at h
      cases h
      rfl

/-- A settings file that sets nothing is told from none by its directory. -/
theorem load_ne_default (disk : Disk Id) (readers : Readers) {p : Path} (h : p.IsNormal) :
    load disk (fileIn p.render) readers ≠ .ok default := by
  intro hload
  have hdirectory : Path.here = Path.directory (fileIn p.render) := directory_of_load hload
  rw [fileIn, Path.directory_join_render h isName_fileName, Path.render, if_pos h.rooted]
    at hdirectory
  exact absurd (List.cons.inj hdirectory).1 (by decide)

/-! ## The search -/

section

variable {m : Type → Type} {disk : Disk m} {directory start : Text}

/-- A name from the root directory is a written path. -/
theorem exists_absolute (hcurrent : disk.IsRooted) (h : disk.absolute directory = .ok start) :
    ∃ p : Path, p.IsNormal ∧ start = p.render := by
  unfold Disk.absolute at h
  by_cases hrooted : Path.isRooted directory = true
  · rw [if_pos hrooted] at h
    exact ⟨_, Path.isNormal_ofText hrooted, (Except.ok.inj h).symm⟩
  · rw [if_neg hrooted] at h
    cases hhere : disk.current with
    | error c =>
      rw [hhere] at h
      cases h
    | ok here =>
      rw [hhere] at h
      obtain ⟨p, hp, habsolute⟩ := Path.exists_render_absolute (hcurrent here hhere) directory
      exact ⟨p, hp, (Except.ok.inj h).symm.trans habsolute⟩

/-- The directories that are searched are those on the way up. -/
theorem searched_render {p : Path} (hp : p.IsNormal) :
    searched p.render = p.upward.map Path.render := by
  rw [searched, Path.ofText_render hp]

theorem find_of_error [Monad m] {readers : Readers} {e : FileError}
    (h : disk.absolute directory = .error e) :
    find disk directory readers = pure (.error (.search e)) := by
  rw [find, h]

theorem find_of_ok [Monad m] {readers : Readers} (h : disk.absolute directory = .ok start) :
    find disk directory readers = findIn disk readers (searched start) := by
  rw [find, h]

end

/-- **The search finds the nearest settings file.** It fails where the directory cannot be told from
the root directory on. Else there is a way up from it to the root directory. The first directory on
it where the name of the settings file does not lead nowhere decides: the file is loaded, or the
search fails and nothing is read. There are the default settings just if the name leads nowhere in
every directory on the way. -/
theorem find_nearest (readers : Readers) :
    (∀ {m : Type → Type} [Monad m] [LawfulMonad m] (disk : Disk m)
      (stat : Text → Except FileError Unit), (∀ name, disk.lookup name = pure (stat name)) →
      disk.IsRooted → ∀ directory,
        (∀ e, disk.absolute directory = .error e →
          find disk directory readers = pure (.error (.search e)))
        ∧ ∀ start, disk.absolute directory = .ok start → ∃ directories,
          Path.Ascent start directories
            ∧ directories.getLast? = some (utf8 "/")
            ∧ Nearest disk readers stat directories (find disk directory readers))
    ∧ ∀ disk : Disk Id, disk.IsRooted → ∀ directory start directories,
        disk.absolute directory = .ok start → Path.Ascent start directories →
        (find disk directory readers = .ok default
          ↔ ∀ d ∈ directories, isAbsent (disk.lookup (fileIn d)) = true) := by
  constructor
  · intro m _ _ disk stat hstat hcurrent directory
    refine ⟨fun e he => find_of_error he, fun start hstart => ?_⟩
    obtain ⟨p, hp, rfl⟩ := exists_absolute hcurrent hstart
    obtain ⟨hascent, hlast⟩ := Path.ascent_render hp
    rw [find_of_ok hstart, searched_render hp]
    exact ⟨_, hascent, hlast, nearest_findIn hstat _⟩
  · intro disk hcurrent directory start directories hstart hascent
    obtain ⟨p, hp, rfl⟩ := exists_absolute hcurrent hstart
    obtain rfl := hascent.unique (Path.ascent_render hp).1
    have hnearest : Nearest disk readers disk.lookup (p.upward.map Path.render)
        (findIn disk readers (p.upward.map Path.render)) := nearest_findIn (fun _ => rfl) _
    rw [find_of_ok hstart, searched_render hp]
    refine ⟨fun hfind => ?_, hnearest.absent⟩
    by_contra hthere
    -- the first directory where the name does not lead nowhere gives something else
    cases hfirst : (p.upward.map Path.render).find? (fun d => !isAbsent (disk.lookup (fileIn d)))
      with
    | none => exact hthere (by simpa using hfirst)
    | some d =>
      obtain ⟨hd, nearer, farther, hsplit, hnearer⟩ := List.find?_eq_some_iff_append.mp hfirst
      have habsent : ∀ d ∈ nearer, isAbsent (disk.lookup (fileIn d)) = true := by
        simpa using hnearer
      cases hlookup : disk.lookup (fileIn d) with
      | ok u =>
        obtain ⟨q, hq, rfl⟩ := List.mem_map.mp (hsplit ▸ List.mem_append_right nearer
          List.mem_cons_self : d ∈ p.upward.map Path.render)
        rw [hnearest.loaded nearer _ farther hsplit habsent hlookup] at hfind
        exact load_ne_default disk readers (Path.isNormal_of_mem_upward hp hq) hfind
      | error e =>
        have hcause : e.cause ≠ .notFound := by
          rw [hlookup] at hd
          simpa [isAbsent] using hd
        rw [hnearest.failed nearer _ farther e hsplit habsent hlookup hcause] at hfind
        cases hfind

end Settings

namespace Sample

/-- The directory `/a/b` below one with a settings file, and a file `/f`. -/
def files : FileTree :=
  ((FileTree.empty [utf8 "a", utf8 "b"]).addFile [utf8 "a", Settings.fileName] (utf8 "")).addFile
    [utf8 "f"] (utf8 "")

theorem isRooted_files : files.disk.IsRooted := by
  intro here h
  obtain rfl := Except.ok.inj h
  rfl

/-- The same, but the current directory is gone. -/
def adrift : Disk Id := { files.disk with current := .error .notFound }

theorem isRooted_adrift : adrift.IsRooted := by
  intro here h
  cases h

end Sample

/-- From the current directory the file of the directory around it is loaded; from below a file the
search fails; and from a directory that does not even exist there are the default settings. Where
the current directory is gone the search fails, too. -/
theorem Settings.find_nearest_files :
    find Sample.files.disk (utf8 ".") = load Sample.files.disk (utf8 "/a/.cstq.toml")
      ∧ find Sample.files.disk (utf8 "/f/x")
        = .error (.search ⟨.lookup, utf8 "/f/x/.cstq.toml", .notDirectory⟩)
      ∧ find Sample.files.disk (utf8 "/c") = .ok default
      ∧ find Sample.adrift (utf8 ".") = .error (.search ⟨.locating, utf8 ".", .notFound⟩) := by
  obtain ⟨hsearch, hdefault⟩ := find_nearest .standard
  have hfiles := hsearch Sample.files.disk Sample.files.disk.lookup (fun _ => rfl)
    Sample.isRooted_files
  have hadrift := hsearch Sample.adrift Sample.adrift.lookup (fun _ => rfl) Sample.isRooted_adrift
  refine ⟨?_, ?_, ?_, (hadrift (utf8 ".")).1 _ rfl⟩
  · obtain ⟨ds, hascent, -, hnearest⟩ := (hfiles (utf8 ".")).2 (utf8 "/a/b") rfl
    obtain rfl := hascent.unique (.up (by decide) (.up (by decide) (.top (by decide))))
    exact hnearest.loaded [_] _ [_] rfl (List.forall_mem_singleton.mpr rfl) rfl
  · obtain ⟨ds, hascent, -, hnearest⟩ := (hfiles (utf8 "/f/x")).2 (utf8 "/f/x") rfl
    obtain rfl := hascent.unique (.up (by decide) (.up (by decide) (.top (by decide))))
    exact hnearest.failed [] _ [_, _] _ rfl (fun d hd => absurd hd List.not_mem_nil) rfl (by decide)
  · refine (hdefault Sample.files.disk Sample.isRooted_files (utf8 "/c") (utf8 "/c") _ rfl
      (.up (by decide) (.top (by decide)))).mpr ?_
    simp only [List.forall_mem_cons]
    exact ⟨rfl, rfl, fun d hd => absurd hd List.not_mem_nil⟩

end Arbor
