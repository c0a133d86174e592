import Excise.Proofs.Files.Change

/-!
# What succeeds

A directory can be made with all above it whenever its path is made of names, is not too long and
has no file on its way (`make_directories_succeeds`): all that can then be in the way of one
directory is that the one above is missing (`make_directory_error`). So a file can be put where
none of its directories is there yet (`make_parent_succeeds`, `copy_succeeds`).
-/

namespace Excise

namespace FileSystem

variable {fs fs' : FileSystem} {location : Location} {path : Path} {name : String} {bytes : Bytes}

/-- Components of names that cannot be followed miss something, unless a file is on the way. -/
theorem follow_error {components : List String} {cause : FileCause}
    (hnames : ∀ name ∈ components, IsName name)
    (hfree : ∀ front, front <+: components → ∀ bytes,
      fs.get? (location ++ front) ≠ some (.file bytes))
    (h : fs.follow location components = .error cause) : cause = .notFound := by
  induction components generalizing location with
  | nil => exact nomatch h
  | cons component rest ih =>
      have hname := hnames component List.mem_cons_self
      have hbind : fs.follow location (component :: rest) =
          (fs.step location component >>= fun next => fs.follow next rest) := rfl
      rw [hbind] at h
      unfold step at h
      cases hget : fs.get? location with
      | none =>
          rw [hget] at h
          exact (Except.error.inj h).symm
      | some content =>
          cases content with
          | file bytes => exact absurd hget (by simpa using hfree [] List.nil_prefix bytes)
          | directory =>
              rw [hget] at h
              simp only [Nat.not_lt.mpr hname.2.2.2, hname.2.1, if_false] at h
              refine ih (fun name hrest => hnames name (List.mem_cons_of_mem _ hrest)) ?_ h
              intro front hfront bytes
              rw [List.append_assoc]
              exact hfree _ (List.cons_prefix_cons.mpr ⟨rfl, hfront⟩) bytes

/-- The text of a path ends with its last component, after what is the same for all. -/
theorem text_child (path : Path) :
    ∃ front : String, ∀ name, (path.child name).text = front ++ name := by
  by_cases hempty : path.parts = []
  · refine ⟨path.root.text, fun name => ?_⟩
    simp [Path.text, Path.child, hempty]
  · refine ⟨path.root.text ++ ("/".intercalate path.parts ++ "/"), fun name => ?_⟩
    simp only [Path.text, Path.child, List.append_eq_nil_iff, List.cons_ne_self, and_false,
      if_false]
    rw [String.intercalate_append_of_ne_nil hempty (by simp), String.intercalate_singleton]
    simp only [String.append_assoc]

/-- A path with a shorter last component can be used if one with a longer can. -/
theorem IsUsable.of_shorter {name' : String} (h : IsUsable (path.child name))
    (hnull : '\x00' ∉ name'.toList) (hshort : name'.utf8ByteSize ≤ name.utf8ByteSize) :
    IsUsable (path.child name') := by
  refine ⟨fun part hpart => ?_, ?_⟩
  · rcases List.mem_append.mp hpart with hpart | hpart
    · exact h.1 part (List.mem_append_left _ hpart)
    · rwa [List.mem_singleton.mp hpart]
  · obtain ⟨front, hfront⟩ := text_child path
    have hlong := h.2
    rw [hfront, String.utf8ByteSize_append] at hlong ⊢
    omega

/-- A path can be used if one with one more component can. -/
theorem IsUsable.of_child (h : IsUsable (path.child name)) (hname : name ≠ "") : IsUsable path := by
  refine ⟨fun part hpart => h.1 part (List.mem_append_left _ hpart), ?_⟩
  refine Nat.le_trans ?_ h.2
  have hsize : 0 < name.utf8ByteSize :=
    Nat.pos_of_ne_zero fun hzero => hname (String.utf8ByteSize_eq_zero_iff.mp hzero)
  have hchild : (path.child name).text =
      path.root.text ++ "/".intercalate (path.parts ++ [name]) := by
    simp [Path.text, Path.child]
  rw [hchild, Path.text]
  by_cases hempty : path.parts = []
  · rw [hempty, List.nil_append, String.intercalate_singleton, String.utf8ByteSize_append]
    split
    · have hdot : ".".utf8ByteSize = 1 := by decide
      omega
    · rw [String.intercalate_nil, String.utf8ByteSize_append]
      exact Nat.add_le_add_left (Nat.zero_le _) _
  · rw [if_neg fun hnone => hempty hnone.2, String.utf8ByteSize_append, String.utf8ByteSize_append,
      String.intercalate_append_of_ne_nil hempty (by simp), String.utf8ByteSize_append,
      String.utf8ByteSize_append]
    omega

/-- The directory above can be used if a path of names can. -/
theorem IsUsable.parent (h : IsUsable path) (hnames : path.IsNamed) : IsUsable path.parent := by
  by_cases hempty : path.parts = []
  · rwa [Path.parent_of_nil hempty]
  · rw [← Path.parent_child hempty] at h
    exact h.of_child (hnames.name hempty).1.1

/-- A file can be renamed, unless a directory is in its new place. -/
theorem rename_succeeds {source destination : Path} {target : Location}
    (hsource : fs.locate source = .ok location) (hfile : fs.get? location = some (.file bytes))
    (hdestination : fs.locate destination = .ok target) (hfree : fs.get? target ≠ some .directory) :
    ∃ fs', fs.rename source destination = .ok fs' := by
  unfold rename
  rw [hsource, hdestination]
  simp only [hfile]
  cases hget : fs.get? target with
  | none => exact ⟨_, rfl⟩
  | some content =>
      cases content with
      | file other => exact ⟨_, rfl⟩
      | directory => exact absurd hget hfree

/-- A directory can be made below another, unless a file is in its place. -/
theorem make_directory_succeeds (hpath : fs.locate path = .ok location)
    (hfree : ∀ bytes, fs.get? location ≠ some (.file bytes)) :
    ∃ fs', fs.makeDirectory path = .ok fs' := by
  unfold makeDirectory
  rw [hpath]
  cases hget : fs.get? location with
  | none => exact ⟨fs.put location .directory, by simp [hget]⟩
  | some content =>
      cases content with
      | file bytes => exact absurd hget (hfree bytes)
      | directory => exact ⟨fs, by simp [hget]⟩

/-- A directory of names with no file on the way cannot be made only where one above it is
missing. -/
theorem make_directory_error {e : FileError} (hnames : path.IsNamed) (husable : IsUsable path)
    (hfree : ∀ front, front <+: fs.place path → ∀ bytes, fs.get? front ≠ some (.file bytes))
    (h : fs.makeDirectory path = .error e) : e.cause = .notFound := by
  cases hlocate : fs.locate path with
  | ok l =>
      obtain rfl := locate_eq_place hlocate
      obtain ⟨fs', hmade⟩ := make_directory_succeeds hlocate (hfree _ List.prefix_rfl)
      rw [hmade] at h
      exact nomatch h
  | error cause =>
      have hnull : ¬ ∃ part ∈ path.parts, '\x00' ∈ part.toList := by
        rintro ⟨part, hpart, hmem⟩
        exact (hnames part hpart).2.2.1 hmem
      have hfollow : fs.follow (fs.base path) path.parts = .error cause := by
        rw [locate, if_neg hnull, if_neg (Nat.not_lt.mpr husable.2)] at hlocate
        exact hlocate
      have hcause := follow_error hnames (fun front hfront => hfree _ ?_) hfollow
      · simp only [makeDirectory, hlocate, Except.error.injEq] at h
        rw [← h, hcause]
      · rw [place_of_named hnames]
        exact List.prefix_append_right_inj _ |>.mpr hfront

/-- The directory that a path begins at is made without a change. -/
theorem make_base (hfs : fs.WellFormed) (root : PathRoot) :
    fs.makeDirectory ⟨root, []⟩ = .ok fs := by
  have hnames : Path.IsNamed ⟨root, []⟩ := fun _ hpart => absurd hpart List.not_mem_nil
  have husable : IsUsable ⟨root, []⟩ := by cases root <;> decide
  have hbase : fs.get? (fs.place ⟨root, []⟩) = some .directory := hfs.base_directory ⟨root, []⟩
  simp only [makeDirectory, hfs.locate_named hnames husable hbase, hbase]

/-- A directory of names can be made with all above it, unless a file is in its place or on the
way. -/
theorem make_directories_succeeds (hfs : fs.WellFormed) (hnames : path.IsNamed)
    (husable : IsUsable path)
    (hfree : ∀ front, front <+: fs.place path → ∀ bytes, fs.get? front ≠ some (.file bytes)) :
    ∃ fs', fs.makeDirectories path = .ok fs' := by
  obtain ⟨root, parts⟩ := path
  -- The components are taken from the last to the first.
  have hmade : ∀ components : List String, Path.IsNamed ⟨root, components.reverse⟩ →
      IsUsable ⟨root, components.reverse⟩ →
      (∀ front, front <+: fs.place ⟨root, components.reverse⟩ →
        ∀ bytes, fs.get? front ≠ some (.file bytes)) →
      ∃ fs', makeDirectoriesFrom root components fs = .ok fs' := by
    intro components
    induction components with
    | nil => exact fun _ _ _ => ⟨fs, make_base hfs root⟩
    | cons name above ih =>
        intro hnames husable hfree
        unfold makeDirectoriesFrom
        cases hmake : fs.makeDirectory ⟨root, (name :: above).reverse⟩ with
        | ok made => exact ⟨made, by simp only [hmake]⟩
        | error e =>
            have hcause := make_directory_error hnames husable hfree hmake
            have hparts : (⟨root, (name :: above).reverse⟩ : Path) =
                Path.child ⟨root, above.reverse⟩ name := by rw [List.reverse_cons, Path.child]
            rw [hparts] at hnames husable hfree
            have hname : IsName name := hnames name (by simp [Path.child])
            have habove : Path.IsNamed ⟨root, above.reverse⟩ :=
              fun part hpart => hnames part (List.mem_append_left _ hpart)
            rw [place_child_of_name _ hname.2.1] at hfree
            obtain ⟨made, hmakes⟩ := ih habove (husable.of_child hname.1.1)
              fun front hfront => hfree front (hfront.trans (List.prefix_append _ _))
            -- What lies above is there now, so the directory can be made below it.
            obtain ⟨-, hchanges, hlocate, hdirectory⟩ :=
              make_directories_from_changes hfs root above habove.is_plain hmakes
            have hlocated := locate_child hlocate hdirectory hname husable
            have hfile : ∀ bytes, made.get? (fs.place ⟨root, above.reverse⟩ ++ [name]) ≠
                some (.file bytes) :=
              fun bytes hfile => hfree _ List.prefix_rfl bytes
                (hchanges.file_before (fun h => h) hfile)
            obtain ⟨fs', hdone⟩ := make_directory_succeeds hlocated hfile
            rw [← hparts] at hdone
            exact ⟨fs', by simp only [hmake, hcause, hmakes, if_true, hdone]⟩
  have hreverse : (⟨root, parts.reverse.reverse⟩ : Path) = ⟨root, parts⟩ := by
    rw [List.reverse_reverse]
  exact hmade parts.reverse (hreverse ▸ hnames) (hreverse ▸ husable) (hreverse ▸ hfree)

/-- A directory that is there is made without a change. -/
theorem make_directories_of_directory (hpath : fs.locate path = .ok location)
    (hdirectory : fs.get? location = some .directory) : fs.makeDirectories path = .ok fs := by
  have hmake : fs.makeDirectory path = .ok fs := by
    simp only [makeDirectory, hpath, hdirectory]
  unfold makeDirectories
  rcases hparts : path.parts.reverse with _ | ⟨part, above⟩
  · have hempty : path.parts = [] := List.reverse_eq_nil_iff.mp hparts
    rw [makeDirectoriesFrom, ← hempty, hmake]
  · have hwhole : (part :: above).reverse = path.parts := by rw [← hparts, List.reverse_reverse]
    rw [makeDirectoriesFrom, hwhole, hmake]

/-- A directory cannot be made where a file is in its place or on the way. -/
theorem make_directories_error {front : Location} (hfs : fs.WellFormed) (hplain : path.IsPlain)
    (hfront : front <+: fs.place path) (hfile : fs.get? front = some (.file bytes)) :
    ∃ e, fs.makeDirectories path = .error e := by
  cases hmakes : fs.makeDirectories path with
  | error e => exact ⟨e, rfl⟩
  | ok made =>
      obtain ⟨hmade, hchanges, -, hdirectory⟩ := make_directories_changes hfs hplain hmakes
      have hstays := hchanges.file (fun hl => hl) hfile
      obtain ⟨rest, hplace⟩ := hfront
      rw [← hplace] at hdirectory
      by_cases hrest : rest = []
      · rw [hrest, List.append_nil, hstays] at hdirectory
        exact nomatch hdirectory
      · rw [hmade.directory_of_below hdirectory hrest] at hstays
        exact nomatch hstays

/-- The directory of a file can be made, if no file is in its place or on the way. Then the path
of the file leads to its place. -/
theorem make_parent_succeeds (hfs : fs.WellFormed) (hnames : (path.child name).IsNamed)
    (husable : IsUsable (path.child name))
    (hfree : ∀ front, front <+: fs.place path → ∀ bytes, fs.get? front ≠ some (.file bytes)) :
    ∃ made, fs.makeDirectories path = .ok made ∧ made.WellFormed ∧
      fs.ChangesOnly made (fun _ => False) (· <+: fs.place path) ∧
      made.locate (path.child name) = .ok (fs.place path ++ [name]) := by
  have hname : IsName name := hnames name (by simp [Path.child])
  have habove : path.IsNamed := fun part hpart => hnames part (List.mem_append_left _ hpart)
  obtain ⟨made, hmakes⟩ :=
    make_directories_succeeds hfs habove (husable.of_child hname.1.1) hfree
  obtain ⟨hmade, hchanges, hlocate, hdirectory⟩ :=
    make_directories_changes hfs habove.is_plain hmakes
  exact ⟨made, hmakes, hmade,
    hchanges.mono (fun _ hl => hl) fun _ hl => hl.prefix_place habove.ne_up,
    locate_child hlocate hdirectory hname husable⟩

/-- A file is copied to another place, unless a directory is there. -/
theorem copy_succeeds {source destination : Path} {target : Location}
    (hsource : fs.locate source = .ok location) (hfile : fs.get? location = some (.file bytes))
    (hdestination : fs.locate destination = .ok target) (hfree : fs.get? target ≠ some .directory)
    (hne : location ≠ target) :
    fs.copy source destination = .ok (fs.put target (.file bytes)) := by
  have hno : ¬ fs.HasDirectory destination := by
    rw [HasDirectory, at?_of_locate hdestination]
    exact hfree
  refine copy_eq_ok_iff.mpr ⟨fun hsame => ?_, bytes, read_eq_ok_iff.mpr ⟨_, hsource, hfile⟩, ?_⟩
  · rw [copy_destination_of_free hno, hsource, hdestination] at hsame
    exact hne (Option.some.inj hsame.2)
  · rw [copy_destination_of_free hno]
    exact write_eq_ok_iff.mpr ⟨_, hdestination, hfree, rfl⟩

end FileSystem

end Excise
