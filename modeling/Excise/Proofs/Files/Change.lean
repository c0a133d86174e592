import Excise.Proofs.Files.Location
import Mathlib.Data.List.Induction

/-!
# What an operation on files changes

In a well-formed file system everything stands below directories, under names (`WellFormed`).
`ChangesOnly` says what a change leaves alone: no directory goes away, and apart from some locations
that the change may write to, it only makes directories, at some locations where nothing stood. Each
operation that succeeds keeps the file system well-formed, and says what it changes:
`write_changes`, `make_directories_changes`, `rename_changes`.
-/

namespace Excise

namespace FileSystem

/-- The working directory is one, all else stands in directories and under names. -/
structure WellFormed (fs : FileSystem) : Prop where
  working : fs.get? fs.workingDirectory = some .directory
  above : ∀ location name content, fs.get? (location ++ [name]) = some content →
    fs.get? location = some .directory
  names : ∀ location content, fs.get? location = some content → ∀ name ∈ location, IsName name

/-- Apart from some locations, all that happens is that directories are made at others, where
nothing stood. None is made anywhere else. -/
structure ChangesOnly (fs fs' : FileSystem) (files directories : Location → Prop) : Prop extends
    KeepsDirectories fs fs' where
  elsewhere : ∀ location, ¬ files location → fs'.get? location = fs.get? location ∨
    directories location ∧ fs.get? location = none ∧ fs'.get? location = some .directory
  made : ∀ location, fs'.get? location = some .directory →
    fs.get? location = some .directory ∨ directories location

variable {fs fs' fs'' : FileSystem} {location target above rest : Location} {path : Path}
  {name : String} {content : Content} {bytes : Bytes}
  {files files' directories directories' : Location → Prop}

@[simp]
theorem get?_root (fs : FileSystem) : fs.get? [] = some .directory := rfl

theorem get?_put (h : location ≠ []) : (fs.put location content).get? target =
    if target = location then some content else fs.get? target := by
  by_cases hroot : target = []
  · subst hroot
    simp [Ne.symm h]
  · by_cases hsame : target = location
    · subst hsame
      simp [get?, put, hroot]
    · simp [get?, put, hroot, hsame, Table.get?_set_of_ne _ _ (Ne.symm hsame)]

theorem get?_remove : (fs.remove location).get? target =
    if target ≠ [] ∧ location <+: target then none else fs.get? target := by
  by_cases hroot : target = []
  · simp [hroot]
  · have hfilter : (fs.remove location).get? target = Table.get?
        (fs.entries.filter fun e => ¬ location <+: e.1) target := by simp [get?, remove, hroot]
    rw [hfilter, Table.get?_filter fs.entries (fun l => ¬ location <+: l)]
    by_cases hbelow : location <+: target <;> simp [hroot, hbelow, get?]

/-- A file is not the root. -/
theorem ne_root (h : fs.get? location ≠ some .directory) : location ≠ [] := by
  rintro rfl
  exact h (get?_root fs)

/-- A file is one of the entries. -/
theorem mem_entries_of_file (h : fs.get? location = some (.file bytes)) :
    (location, .file bytes) ∈ fs.entries := by
  have hno : fs.get? location ≠ some .directory := by simp [h]
  rw [get?, if_neg (ne_root hno)] at h
  exact Table.mem_of_get? h

/-- A directory stays where something is put in the place of a file or of nothing. -/
theorem get?_put_of_directory (h : fs.get? location ≠ some .directory)
    (htarget : fs.get? target = some .directory) :
    (fs.put location content).get? target = some .directory := by
  have hne : target ≠ location := by
    rintro rfl
    exact h htarget
  rw [get?_put (ne_root h), if_neg hne, htarget]

/-- A file system is well-formed if each of its entries is a name in a directory, all of whose
components are names. -/
theorem well_formed_of_entries (hworking : fs.get? fs.workingDirectory = some .directory)
    (hentries : ∀ e ∈ fs.entries, fs.get? e.1.dropLast = some .directory ∧
      ∀ name ∈ e.1, IsName name) : fs.WellFormed := by
  have hentry : ∀ {location content}, location ≠ [] → fs.get? location = some content →
      (location, content) ∈ fs.entries := by
    intro location content hne h
    rw [get?, if_neg hne] at h
    exact Table.mem_of_get? h
  refine ⟨hworking, fun location name content h => ?_, fun location content h name hname => ?_⟩
  · simpa using (hentries _ (hentry (by simp) h)).1
  · exact (hentries _ (hentry (List.ne_nil_of_mem hname) h)).2 name hname

/-- A file system without files, whose working directory is the root, is well-formed. -/
theorem well_formed_bare : (⟨[], []⟩ : FileSystem).WellFormed :=
  well_formed_of_entries rfl fun _ h => absurd h List.not_mem_nil

theorem ChangesOnly.refl (fs : FileSystem) (files directories : Location → Prop) :
    fs.ChangesOnly fs files directories :=
  ⟨KeepsDirectories.refl fs, fun _ _ => .inl rfl, fun _ => .inl⟩

/-- A change may be said to write to more locations than it does. -/
theorem ChangesOnly.mono (h : fs.ChangesOnly fs' files directories)
    (hfiles : ∀ l, files l → files' l) (hdirectories : ∀ l, directories l → directories' l) :
    fs.ChangesOnly fs' files' directories' :=
  ⟨h.toKeepsDirectories, fun l hl =>
    (h.elsewhere l fun hl' => hl (hfiles l hl')).imp_right fun h' => ⟨hdirectories l h'.1, h'.2⟩,
    fun l hl => (h.made l hl).imp_right (hdirectories l)⟩

/-- A change that writes nothing makes directories only where nothing stood. -/
theorem ChangesOnly.restrict (h : fs.ChangesOnly fs' (fun _ => False) directories)
    (hdirectories : ∀ l, directories l → fs.get? l = none → directories' l) :
    fs.ChangesOnly fs' (fun _ => False) directories' := by
  refine ⟨h.toKeepsDirectories, fun l hl =>
    (h.elsewhere l hl).imp_right fun h' => ⟨hdirectories l h'.1 h'.2.1, h'.2⟩, fun l hl => ?_⟩
  rcases h.elsewhere l (fun hl' => hl') with hsame | ⟨hmade, hnone, -⟩
  · exact .inl (hsame ▸ hl)
  · exact .inr (hdirectories l hmade hnone)

/-- Two changes, one after the other. -/
theorem ChangesOnly.trans (h : fs.ChangesOnly fs' files directories)
    (h' : fs'.ChangesOnly fs'' files directories) : fs.ChangesOnly fs'' files directories := by
  refine ⟨h.toKeepsDirectories.trans h'.toKeepsDirectories, fun l hl => ?_,
    fun l hl => (h'.made l hl).elim (h.made l) .inr⟩
  rcases h.elsewhere l hl with hsame | ⟨hmade, hnone, hdirectory⟩
  · rw [← hsame]
    exact h'.elsewhere l hl
  · exact .inr ⟨hmade, hnone, h'.kept l hdirectory⟩

/-- A file stays as it is where nothing is written. -/
theorem ChangesOnly.file (h : fs.ChangesOnly fs' files directories) (hl : ¬ files location)
    (hfile : fs.get? location = some (.file bytes)) : fs'.get? location = some (.file bytes) := by
  rcases h.elsewhere location hl with hsame | ⟨-, hnone, -⟩
  · rw [hsame, hfile]
  · rw [hfile] at hnone
    exact nomatch hnone

/-- A file that stands where nothing is written stood there before. -/
theorem ChangesOnly.file_before (h : fs.ChangesOnly fs' files directories) (hl : ¬ files location)
    (hfile : fs'.get? location = some (.file bytes)) : fs.get? location = some (.file bytes) := by
  rcases h.elsewhere location hl with hsame | ⟨-, -, hdirectory⟩
  · rw [← hsame, hfile]
  · rw [hfile] at hdirectory
    exact nomatch hdirectory

/-- Where no directory is made there is none after a change that was none before. -/
theorem ChangesOnly.free (h : fs.ChangesOnly fs' files directories) (hl : ¬ directories location)
    (hfree : fs.get? location ≠ some .directory) : fs'.get? location ≠ some .directory :=
  fun hdirectory => (h.made location hdirectory).elim hfree hl

/-- A location where nothing is written and no directory is made is as before. -/
theorem ChangesOnly.same (h : fs.ChangesOnly fs' files directories) (hl : ¬ files location)
    (hmade : ¬ directories location) : fs'.get? location = fs.get? location :=
  (h.elsewhere location hl).resolve_right fun h' => hmade h'.1

namespace WellFormed

variable (h : fs.WellFormed)

include h

/-- What something stands below is a directory. -/
theorem directory_of_below (hcontent : fs.get? (location ++ rest) = some content)
    (hrest : rest ≠ []) : fs.get? location = some .directory := by
  induction rest using List.reverseRecOn generalizing content with
  | nil => exact absurd rfl hrest
  | append_singleton front name ih =>
      rw [← List.append_assoc] at hcontent
      have hfront := h.above _ _ _ hcontent
      by_cases hempty : front = []
      · simpa [hempty] using hfront
      · exact ih hfront hempty

/-- Nothing stands below a location that is no directory. -/
theorem nothing_below (hlocation : fs.get? location ≠ some .directory) (hrest : rest ≠ []) :
    fs.get? (location ++ rest) = none :=
  Option.eq_none_iff_forall_ne_some.mpr
    fun _ hcontent => hlocation (h.directory_of_below hcontent hrest)

/-- A path begins at a directory. -/
theorem base_directory (path : Path) : fs.get? (fs.base path) = some .directory := by
  unfold base
  split
  · exact h.working
  · exact get?_root fs

/-- A path that can be followed leads to a directory, or to one of its components in a directory. -/
theorem located (hpath : fs.locate path = .ok location) :
    fs.get? location = some .directory ∨
      ∃ above name, location = above ++ [name] ∧ fs.get? above = some .directory ∧
        name ∈ path.parts ∧ name ≠ ".." ∧ '\x00' ∉ name.toList ∧
        name.utf8ByteSize ≤ nameLimit := by
  obtain ⟨husable, hleads, rfl⟩ := locate_eq_ok_iff.mp hpath
  rcases path.nil_or_child with hempty | ⟨front, name, rfl⟩
  · rw [place, hempty]
    exact .inl (h.base_directory path)
  · obtain ⟨-, hlast⟩ := leads_append_iff.mp hleads
    obtain ⟨hdirectory, hshort, -⟩ := hlast
    have habove : fs.get? (fs.place front) = some .directory := hdirectory
    rw [place_child]
    by_cases hup : name = ".."
    · -- One step up from a directory there is a directory.
      subst hup
      left
      rw [stepTo_up]
      rcases List.eq_nil_or_concat (fs.place front) with hroot | ⟨higher, last, hlast⟩
      · rw [hroot]
        exact get?_root fs
      · rw [hlast, List.concat_eq_append] at habove ⊢
        rw [List.dropLast_concat]
        exact h.above _ _ _ habove
    · rw [stepTo_of_ne hup]
      exact .inr ⟨_, name, rfl, habove, by simp [Path.child], hup,
        husable.1 name (by simp [Path.child]), hshort⟩

/-- Names lead on to what stands there. -/
theorem leads_of_names {components : List String} (hnames : ∀ part ∈ components, IsName part)
    (hcontent : fs.get? (location ++ components) = some content) :
    fs.Leads location components := by
  induction components generalizing location with
  | nil => trivial
  | cons name rest ih =>
      have hname := hnames name List.mem_cons_self
      refine ⟨h.directory_of_below hcontent (by simp), hname.2.2.2, ?_⟩
      rw [stepTo_of_ne hname.2.1]
      refine ih (fun part hpart => hnames part (List.mem_cons_of_mem _ hpart)) ?_
      rwa [List.append_assoc]

/-- A path of names, which can be used, leads to what stands at its place. -/
theorem locate_named (hnames : path.IsNamed) (husable : IsUsable path)
    (hcontent : fs.get? (fs.place path) = some content) :
    fs.locate path = .ok (fs.place path) :=
  locate_eq_ok_iff.mpr
    ⟨husable, h.leads_of_names hnames (place_of_named hnames ▸ hcontent), rfl⟩

/-- The absolute path of what stands at a location leads there, if it can be used. -/
theorem locate_absolute (hcontent : fs.get? location = some content)
    (husable : IsUsable ⟨.absolute, location⟩) :
    fs.locate ⟨.absolute, location⟩ = .ok location := by
  have hnames : Path.IsNamed ⟨.absolute, location⟩ := h.names _ _ hcontent
  have hplace : fs.place ⟨.absolute, location⟩ = location := place_of_named hnames
  have hlocate := h.locate_named hnames husable (hplace.symm ▸ hcontent)
  rwa [hplace] at hlocate

/-- A path that leads to something is plain: what its components lead to on the way is there. -/
theorem is_plain (hpath : fs.locate path = .ok location)
    (hcontent : fs.get? location = some content) : path.IsPlain := by
  obtain ⟨-, hleads, rfl⟩ := locate_eq_ok_iff.mp hpath
  have hplain : ∀ (components : List String) (front : Location), fs.Leads front components →
      fs.get? (components.foldl stepTo front) = some content →
      ∀ part ∈ components, IsPlainPart part := by
    intro components
    induction components with
    | nil => exact fun _ _ _ _ hpart => absurd hpart List.not_mem_nil
    | cons component rest ih =>
        intro front hleads hend part hpart
        rcases List.mem_cons.mp hpart with rfl | hpart
        · by_cases hup : part = ".."
          · exact hup ▸ by decide
          · -- Something stands at the next step, be it the last one or not.
            have hnext : ∃ c, fs.get? (front ++ [part]) = some c := by
              rw [← stepTo_of_ne hup]
              cases rest with
              | nil => exact ⟨content, hend⟩
              | cons => exact ⟨.directory, hleads.2.2.1⟩
            obtain ⟨c, hc⟩ := hnext
            exact (h.names _ _ hc part (by simp)).1
        · exact ih _ hleads.2.2 hend part hpart
  exact hplain path.parts _ hleads hcontent

/-- A file that a path leads to stands under the name of the path. -/
theorem file_name (hpath : fs.locate path = .ok location)
    (hfile : fs.get? location = some (.file bytes)) :
    ∃ above, location = above ++ [path.name] := by
  obtain ⟨-, hleads, rfl⟩ := locate_eq_ok_iff.mp hpath
  rcases path.nil_or_child with hempty | ⟨front, name, rfl⟩
  · rw [place, hempty, List.foldl_nil, h.base_directory path] at hfile
    cases hfile
  · rw [Path.name_child]
    rw [place_child] at hfile ⊢
    by_cases hup : name = ".."
    · subst hup
      have hdirectory := (leads_of_locate_child hpath).2
      rw [stepTo_up] at hfile
      rcases List.eq_nil_or_concat (fs.place front) with hroot | ⟨higher, last, hlast⟩
      · rw [hroot] at hfile
        cases hfile
      · rw [hlast, List.concat_eq_append] at hdirectory
        rw [hlast, List.concat_eq_append, List.dropLast_concat, h.above _ _ _ hdirectory] at hfile
        cases hfile
    · exact ⟨_, stepTo_of_ne hup⟩

/-- What is put under a name in a directory, in the place of a file or of nothing, keeps the file
system well-formed. -/
theorem put (hname : IsName name) (habove : fs.get? above = some .directory)
    (hfree : fs.get? (above ++ [name]) ≠ some .directory) :
    (fs.put (above ++ [name]) content).WellFormed := by
  have hne : above ++ [name] ≠ [] := by simp
  have hdirectory : ∀ l, fs.get? l = some .directory →
      (fs.put (above ++ [name]) content).get? l = some .directory :=
    fun l hl => get?_put_of_directory hfree hl
  refine ⟨hdirectory _ h.working, fun l other c hc => ?_, fun l c hc => ?_⟩
  · rw [get?_put hne] at hc
    split at hc
    · rename_i heq
      obtain ⟨rfl, -⟩ := List.append_singleton_inj.mp heq
      exact hdirectory _ habove
    · exact hdirectory _ (h.above _ _ _ hc)
  · rw [get?_put hne] at hc
    split at hc
    · rename_i heq
      subst heq
      intro part hpart
      rcases List.mem_append.mp hpart with hpart | hpart
      · exact h.names _ _ habove part hpart
      · exact List.mem_singleton.mp hpart ▸ hname
    · exact h.names _ _ hc

/-- Where a file is taken away, nothing else is. -/
theorem get?_remove_file (hfile : fs.get? location = some (.file bytes)) :
    (fs.remove location).get? target = if target = location then none else fs.get? target := by
  have hno : fs.get? location ≠ some .directory := by simp [hfile]
  rw [get?_remove]
  by_cases hsame : target = location
  · subst hsame
    simp [ne_root hno]
  · rw [if_neg hsame]
    split
    · rename_i hbelow
      obtain ⟨rest, rfl⟩ := hbelow.2
      exact (h.nothing_below hno fun hrest => hsame (by simp [hrest])).symm
    · rfl

/-- Where a file is taken away, the directories stay. -/
theorem kept_of_remove_file (hfile : fs.get? location = some (.file bytes)) :
    fs.KeepsDirectories (fs.remove location) := by
  refine ⟨rfl, fun l hl => ?_⟩
  rw [h.get?_remove_file hfile, if_neg ?_, hl]
  rintro rfl
  rw [hl] at hfile
  exact nomatch hfile

/-- Taking a file away keeps the file system well-formed. -/
theorem remove_file (hfile : fs.get? location = some (.file bytes)) :
    (fs.remove location).WellFormed := by
  have hkept := h.kept_of_remove_file hfile
  refine ⟨hkept.kept _ h.working, fun l other c hc => ?_, fun l c hc => ?_⟩
  · rw [h.get?_remove_file hfile] at hc
    split at hc
    · exact nomatch hc
    · exact hkept.kept _ (h.above _ _ _ hc)
  · rw [h.get?_remove_file hfile] at hc
    split at hc
    · exact nomatch hc
    · exact h.names _ _ hc

end WellFormed

/-- A file can be read exactly if a path leads to it. -/
theorem read_eq_ok_iff : fs.read path = .ok bytes ↔
    ∃ location, fs.locate path = .ok location ∧ fs.get? location = some (.file bytes) := by
  unfold read
  cases hlocate : fs.locate path with
  | error cause => simp
  | ok l =>
      cases hget : fs.get? l with
      | none => simp [hget]
      | some content => cases content <;> simp [hget]

/-- What can be read stands at the place of the path. -/
theorem get?_of_read (h : fs.read path = .ok bytes) :
    fs.get? (fs.place path) = some (.file bytes) := by
  obtain ⟨l, hl, hfile⟩ := read_eq_ok_iff.mp h
  rwa [locate_eq_place hl] at hfile

/-- Writing puts a file where the path leads, if no directory stands there. -/
theorem write_eq_ok_iff : fs.write path bytes = .ok fs' ↔
    ∃ location, fs.locate path = .ok location ∧ fs.get? location ≠ some .directory ∧
      fs' = fs.put location (.file bytes) := by
  unfold write
  cases hlocate : fs.locate path with
  | error cause => simp
  | ok l =>
      cases hget : fs.get? l with
      | none => simp [hget, eq_comm]
      | some content => cases content <;> simp [hget, eq_comm]

/-- A file put in the place of a file or of nothing changes no more. -/
theorem put_file_changes (h : fs.get? location ≠ some .directory) :
    fs.ChangesOnly (fs.put location (.file bytes)) (· = location) fun _ => False := by
  refine ⟨⟨rfl, fun l hl => get?_put_of_directory h hl⟩, fun l hl => .inl ?_, fun l hl => .inl ?_⟩
  · rw [get?_put (ne_root h), if_neg hl]
  · rw [get?_put (ne_root h)] at hl
    split at hl
    · exact nomatch hl
    · exact hl

/-- A directory put where nothing stood changes no more. -/
theorem put_directory_changes (h : fs.get? location = none) :
    fs.ChangesOnly (fs.put location .directory) (fun _ => False) (· = location) := by
  have hfree : fs.get? location ≠ some .directory := by simp [h]
  refine ⟨⟨rfl, fun l hl => get?_put_of_directory hfree hl⟩, fun l _ => ?_, fun l hl => ?_⟩
  · by_cases hsame : l = location
    · subst hsame
      exact .inr ⟨rfl, h, by simp [get?_put (ne_root hfree)]⟩
    · exact .inl (by rw [get?_put (ne_root hfree), if_neg hsame])
  · by_cases hsame : l = location
    · exact .inr hsame
    · rw [get?_put (ne_root hfree), if_neg hsame] at hl
      exact .inl hl

/-- A file that was written stands at the place of the path, and nothing else changed. -/
theorem write_changes (hfs : fs.WellFormed)
    (hplain : fs.get? (fs.place path) = none → path.IsPlain)
    (h : fs.write path bytes = .ok fs') :
    fs'.WellFormed ∧ fs.ChangesOnly fs' (· = fs.place path) (fun _ => False) ∧
      fs'.get? (fs.place path) = some (.file bytes) := by
  obtain ⟨l, hlocate, hfree, rfl⟩ := write_eq_ok_iff.mp h
  obtain rfl := locate_eq_place hlocate
  refine ⟨?_, put_file_changes hfree, by simp [get?_put (ne_root hfree)]⟩
  obtain ⟨above, name, hl, habove, hmem, hup, hnull, hshort⟩ :=
    (hfs.located hlocate).resolve_left hfree
  have hname : IsName name := by
    cases hget : fs.get? (fs.place path) with
    | none => exact ⟨hplain hget name hmem, hup, hnull, hshort⟩
    | some content => exact hfs.names _ _ hget name (by simp [hl])
  rw [hl] at hfree ⊢
  exact hfs.put hname habove hfree

/-- A directory that was made stands at the place of the path, and nothing else changed. -/
theorem make_directory_changes (hfs : fs.WellFormed) (hplain : path.IsPlain)
    (h : fs.makeDirectory path = .ok fs') :
    fs'.WellFormed ∧ fs.ChangesOnly fs' (fun _ => False) (· = fs.place path) ∧
      fs'.locate path = .ok (fs.place path) ∧
      fs'.get? (fs.place path) = some .directory := by
  unfold makeDirectory at h
  cases hlocate : fs.locate path with
  | error cause => simp [hlocate] at h
  | ok l =>
      obtain rfl := locate_eq_place hlocate
      cases hget : fs.get? (fs.place path) with
      | none =>
          simp only [hlocate, hget, Except.ok.injEq] at h
          subst h
          have hfree : fs.get? (fs.place path) ≠ some .directory := by simp [hget]
          have hchanges := put_directory_changes hget
          obtain ⟨above, name, hl, habove, hmem, hup, hnull, hshort⟩ :=
            (hfs.located hlocate).resolve_left hfree
          refine ⟨?_, hchanges, locate_of_kept hchanges.toKeepsDirectories hlocate,
            by simp [get?_put (ne_root hfree)]⟩
          rw [hl] at hfree ⊢
          exact hfs.put ⟨hplain name hmem, hup, hnull, hshort⟩ habove hfree
      | some content =>
          cases content with
          | file bytes => simp [hlocate, hget] at h
          | directory =>
              simp only [hlocate, hget, Except.ok.injEq] at h
              subst h
              exact ⟨hfs, .refl _ _ _, hlocate, hget⟩

/-- The location is that of a front of the path. -/
def IsOnWay (fs : FileSystem) (path : Path) (location : Location) : Prop :=
  ∃ front, front <+: path.parts ∧ location = fs.place ⟨path.root, front⟩

/-- A path that does not go up leads only to what its place is below. -/
theorem IsOnWay.prefix_place (h : fs.IsOnWay path location)
    (hup : ∀ part ∈ path.parts, part ≠ "..") :
    location <+: fs.place path := by
  obtain ⟨front, ⟨rest, hparts⟩, rfl⟩ := h
  refine ⟨rest, ?_⟩
  rw [place, place, ← foldl_step_to (fun part hpart => hup part (hparts ▸ by simp [hpart])),
    ← List.foldl_append, hparts]
  rfl

theorem make_directories_from_changes (hfs : fs.WellFormed) (root : PathRoot)
    (components : List String) (hplain : Path.IsPlain ⟨root, components.reverse⟩)
    (h : makeDirectoriesFrom root components fs = .ok fs') :
    fs'.WellFormed ∧
      fs.ChangesOnly fs' (fun _ => False) (fs.IsOnWay ⟨root, components.reverse⟩) ∧
      fs'.locate ⟨root, components.reverse⟩ = .ok (fs.place ⟨root, components.reverse⟩) ∧
      fs'.get? (fs.place ⟨root, components.reverse⟩) = some .directory := by
  have hwhole : ∀ {parts : List String} (l : Location), l = fs.place ⟨root, parts⟩ →
      fs.IsOnWay ⟨root, parts⟩ l := fun l hl => ⟨_, List.prefix_rfl, hl⟩
  induction components generalizing fs' with
  | nil =>
      obtain ⟨hfs', hchanges, hrest⟩ := make_directory_changes hfs hplain h
      exact ⟨hfs', hchanges.mono (fun _ hl => hl) hwhole, hrest⟩
  | cons component components ih =>
      unfold makeDirectoriesFrom at h
      cases hmake : fs.makeDirectory ⟨root, (component :: components).reverse⟩ with
      | ok made =>
          simp only [hmake, Except.ok.injEq] at h
          subst h
          obtain ⟨hfs', hchanges, hrest⟩ := make_directory_changes hfs hplain hmake
          exact ⟨hfs', hchanges.mono (fun _ hl => hl) hwhole, hrest⟩
      | error e =>
          simp only [hmake] at h
          split at h
          · cases habove : makeDirectoriesFrom root components fs with
            | error e' => simp [habove] at h
            | ok made =>
                simp only [habove] at h
                -- First what lies above is made, then the directory itself.
                have hfront : components.reverse <+: (component :: components).reverse := by
                  rw [List.reverse_cons]
                  exact List.prefix_append _ _
                obtain ⟨hmade, hchanges, -⟩ :=
                  ih (fun part hpart => hplain part (hfront.subset hpart)) habove
                obtain ⟨hfs', hchanges', hlocate, hget⟩ := make_directory_changes hmade hplain h
                rw [place_eq hchanges.workingDirectory] at hchanges' hlocate hget
                refine ⟨hfs', ?_, hlocate, hget⟩
                refine (hchanges.mono (fun _ hl => hl) ?_).trans
                  (hchanges'.mono (fun _ hl => hl) hwhole)
                rintro l ⟨front, hprefix, hl⟩
                exact ⟨front, hprefix.trans hfront, hl⟩
          · exact nomatch h

/-- A directory that was made with all above it stands at the place of the path. Nothing else
changed but that directories were made on the way. -/
theorem make_directories_changes (hfs : fs.WellFormed) (hplain : path.IsPlain)
    (h : fs.makeDirectories path = .ok fs') :
    fs'.WellFormed ∧ fs.ChangesOnly fs' (fun _ => False) (fs.IsOnWay path) ∧
      fs'.locate path = .ok (fs.place path) ∧ fs'.get? (fs.place path) = some .directory := by
  have hreverse : (⟨path.root, path.parts.reverse.reverse⟩ : Path) = path := by
    rw [List.reverse_reverse]
  have hchanges := make_directories_from_changes hfs path.root path.parts.reverse
    (by rwa [hreverse]) h
  rwa [hreverse] at hchanges

/-- On the way to a child of a directory that is there, nothing is missing but the child. -/
theorem IsOnWay.eq_child (hway : fs.IsOnWay (path.child name) target)
    (hpath : fs.locate path = .ok location) (hdirectory : fs.get? location = some .directory)
    (hname : name ≠ "..") (hnone : fs.get? target = none) : target = location ++ [name] := by
  obtain ⟨-, hleads, rfl⟩ := locate_eq_ok_iff.mp hpath
  obtain ⟨front, hfront, rfl⟩ := hway
  rcases List.prefix_concat_iff.mp hfront with hwhole | hfront
  · rw [← place_child_of_name path hname, hwhole]
    rfl
  · have hthere : fs.get? (fs.place ⟨path.root, front⟩) = some .directory := by
      by_cases hall : front = path.parts
      · rw [hall]
        exact hdirectory
      · exact hleads.directory_on_way hfront hall
    rw [show fs.place ⟨(path.child name).root, front⟩ = fs.place ⟨path.root, front⟩ from rfl,
      hthere] at hnone
    exact nomatch hnone

/-- Below a directory that is there, making directories makes one. -/
theorem make_directories_child (hfs : fs.WellFormed) (hpath : fs.locate path = .ok location)
    (hdirectory : fs.get? location = some .directory) (hplain : (path.child name).IsPlain)
    (hname : name ≠ "..") (h : fs.makeDirectories (path.child name) = .ok fs') :
    fs'.WellFormed ∧ fs.ChangesOnly fs' (fun _ => False) (· = location ++ [name]) ∧
      fs'.locate (path.child name) = .ok (location ++ [name]) ∧
      fs'.get? (location ++ [name]) = some .directory := by
  obtain ⟨hfs', hchanges, hlocate, hget⟩ := make_directories_changes hfs hplain h
  rw [place_child_of_name path hname, ← locate_eq_place hpath] at hlocate hget
  exact ⟨hfs', hchanges.restrict fun l hway hnone => hway.eq_child hpath hdirectory hname hnone,
    hlocate, hget⟩

/-- A file that was renamed stands at its new place, nothing stands at its old one, and nothing else
changed. -/
theorem rename_changes {source destination : Path} (hfs : fs.WellFormed)
    (hplain : destination.IsPlain) (hne : fs.place source ≠ fs.place destination)
    (h : fs.rename source destination = .ok fs') :
    fs'.WellFormed ∧
      fs.ChangesOnly fs' (fun l => l = fs.place source ∨ l = fs.place destination)
        (fun _ => False) ∧
      fs'.get? (fs.place source) = none ∧
      fs'.get? (fs.place destination) = fs.get? (fs.place source) := by
  unfold rename at h
  cases hsource : fs.locate source with
  | error cause => simp [hsource] at h
  | ok old =>
      cases hdestination : fs.locate destination with
      | error cause => simp [hsource, hdestination] at h
      | ok new =>
          simp only [hsource, hdestination] at h
          obtain rfl := locate_eq_place hsource
          obtain ⟨-, -, hnew⟩ := locate_eq_ok_iff.mp hdestination
          -- Only a file is renamed, and not onto a directory.
          obtain ⟨bytes, hfile, hfree, rfl⟩ : ∃ bytes,
              fs.get? (fs.place source) = some (.file bytes) ∧
                fs.get? new ≠ some .directory ∧
                fs' = (fs.remove (fs.place source)).put new (.file bytes) := by
            split at h
            · rename_i bytes _ hold hthere
              exact ⟨bytes, hold, by simp [hthere], (Except.ok.inj h).symm⟩
            · rename_i bytes hold hthere
              exact ⟨bytes, hold, by simp [hthere], (Except.ok.inj h).symm⟩
            · exact nomatch h
            · exact nomatch h
            · exact nomatch h
          obtain ⟨above, name, hl, habove, hmem, hup, hnull, hshort⟩ :=
            (hfs.located hdestination).resolve_left hfree
          subst hnew
          have hleft : ∀ l, (fs.remove (fs.place source)).get? l =
              if l = fs.place source then none else fs.get? l :=
            fun l => hfs.get?_remove_file hfile
          have hdirectory := (hfs.kept_of_remove_file hfile).kept
          have hfree' : (fs.remove (fs.place source)).get? (fs.place destination) ≠
              some .directory := by
            rwa [hleft, if_neg (Ne.symm hne)]
          refine
            ⟨?_, ⟨⟨rfl, fun l hdir => ?_⟩, fun l hlf => .inl ?_, fun l hdir => .inl ?_⟩, ?_, ?_⟩
          · rw [hl] at hfree' ⊢
            exact (hfs.remove_file hfile).put ⟨hplain name hmem, hup, hnull, hshort⟩
              (hdirectory _ habove) hfree'
          · exact get?_put_of_directory hfree' (hdirectory l hdir)
          · rw [get?_put (ne_root hfree), if_neg fun heq => hlf (.inr heq), hleft,
              if_neg fun heq => hlf (.inl heq)]
          · rw [get?_put (ne_root hfree)] at hdir
            split at hdir
            · exact nomatch hdir
            · rw [hleft] at hdir
              split at hdir
              · exact nomatch hdir
              · exact hdir
          · rw [get?_put (ne_root hfree), if_neg hne, hleft, if_pos rfl]
          · rw [get?_put (ne_root hfree), if_pos rfl, hfile]

/-- The paths of a file that was renamed can be followed. -/
theorem locate_of_rename {source destination : Path} (h : fs.rename source destination = .ok fs') :
    fs.locate source = .ok (fs.place source) ∧
      fs.locate destination = .ok (fs.place destination) := by
  unfold rename at h
  cases hsource : fs.locate source with
  | error cause => simp [hsource] at h
  | ok old =>
      cases hdestination : fs.locate destination with
      | error cause => simp [hsource, hdestination] at h
      | ok new => rw [locate_eq_place hsource, locate_eq_place hdestination]; exact ⟨rfl, rfl⟩

/-- Copying reads one file and writes another. -/
theorem copy_eq_ok_iff {source destination : Path} : fs.copy source destination = .ok fs' ↔
    ¬ (fs.Exists source ∧ (fs.locate source).toOption =
      (fs.locate (fs.copyDestination source destination)).toOption) ∧
    ∃ bytes, fs.read source = .ok bytes ∧
      fs.write (fs.copyDestination source destination) bytes = .ok fs' := by
  simp only [copy]
  split
  · rename_i hsame
    simp [hsame]
  · rename_i hother
    cases hread : fs.read source with
    | error e => simp
    | ok bytes =>
        cases hwrite : fs.write (fs.copyDestination source destination) bytes with
        | error e => simp [hwrite, Except.mapError]
        | ok made => simp [hother, hwrite, Except.mapError]

/-- A copy goes to its destination where no directory stands. -/
theorem copy_destination_of_free {source destination : Path} (h : ¬ fs.HasDirectory destination) :
    fs.copyDestination source destination = destination := if_neg h

/-- A file that was copied where no directory stands is there with its content, and nothing else
changed. -/
theorem copy_changes {source destination : Path} (hfs : fs.WellFormed)
    (hplain : fs.get? (fs.place destination) = none → destination.IsPlain)
    (hfree : ¬ fs.HasDirectory destination) (h : fs.copy source destination = .ok fs') :
    ∃ bytes, fs.read source = .ok bytes ∧ fs'.WellFormed ∧
      fs.ChangesOnly fs' (· = fs.place destination) (fun _ => False) ∧
      fs'.get? (fs.place destination) = some (.file bytes) ∧
      fs.locate destination = .ok (fs.place destination) := by
  obtain ⟨-, bytes, hread, hwrite⟩ := copy_eq_ok_iff.mp h
  rw [copy_destination_of_free hfree] at hwrite
  obtain ⟨hfs', hchanges, hfile⟩ := write_changes hfs hplain hwrite
  obtain ⟨location, hlocate, -, -⟩ := write_eq_ok_iff.mp hwrite
  obtain rfl := locate_eq_place hlocate
  exact ⟨bytes, hread, hfs', hchanges, hfile, hlocate⟩

/-- What stands at a path stands at its place. -/
theorem at?_of_locate (h : fs.locate path = .ok location) : fs.at? path = fs.get? location := by
  rw [at?, h]

/-- A path at which something stands can be followed. -/
theorem exists_iff : fs.Exists path ↔ ∃ content, fs.locate path = .ok (fs.place path) ∧
    fs.get? (fs.place path) = some content := by
  unfold Exists at?
  cases hlocate : fs.locate path with
  | error cause => simp
  | ok location =>
      rw [← locate_eq_place hlocate]
      simp [Option.isSome_iff_exists]

/-- Whether something stands at a path that can be followed can be looked up. -/
theorem look_of_locate (h : fs.locate path = .ok location) :
    fs.look path = .ok (fs.get? location).isSome := by
  have hexists : decide (fs.Exists path) = (fs.get? location).isSome := by
    simp only [Exists, at?_of_locate h, Bool.decide_eq_true]
  rw [look, h, ← hexists]

/-- Something stands at a path where looking finds it. -/
theorem exists_of_look (h : fs.look path = .ok true) : fs.Exists path := by
  unfold look at h
  split at h
  · exact nomatch h
  · exact of_decide_eq_true (Except.ok.inj h)

/-- The absolute path of a path that can be followed is its place. -/
theorem absolute_of_locate (h : fs.locate path = .ok location) :
    fs.absolute path = ⟨.absolute, location⟩ := by
  rw [absolute, h]

/-- A file that can be read at its absolute path too is the same there. -/
theorem read_absolute {bytes' : Bytes} (hfs : fs.WellFormed) (hread : fs.read path = .ok bytes')
    (h : fs.read (fs.absolute path) = .ok bytes) :
    fs.absolute path = ⟨.absolute, fs.place path⟩ ∧ IsUsable ⟨.absolute, fs.place path⟩ ∧
      bytes' = bytes := by
  obtain ⟨l, hlocate, hfile⟩ := read_eq_ok_iff.mp hread
  obtain rfl := locate_eq_place hlocate
  rw [absolute_of_locate hlocate] at h ⊢
  obtain ⟨l, hlocate', hfile'⟩ := read_eq_ok_iff.mp h
  obtain rfl : l = fs.place path := (locate_eq_place hlocate').trans
    (place_absolute fun name hname => (hfs.names _ _ hfile name hname).2.1)
  rw [hfile] at hfile'
  exact ⟨rfl, is_usable_of_locate hlocate', Content.file.inj (Option.some.inj hfile')⟩

end FileSystem

end Excise
