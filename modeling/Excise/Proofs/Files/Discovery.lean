import Excise.Files.Discovery
import Excise.Proofs.Files.Change
import Mathlib.Data.List.Lex

/-!
# Which files are found

The sources are found in the order of paths, each of them once (`source_files_increasing`). They are
the files that are named, and the supported files that a walk from a named directory comes to by a
way without an excluded name, nor that of the backup directory (`mem_source_files_iff`).

So the backup directory is passed over by its name alone. A file should be found unless it lies in
that directory (`IsWanted`); what is found and what should be agree on it exactly if it lies there
as long as all ways to it pass the name (`found_iff_wanted_iff`). They agree on everything if no
other way passes the name and no named path leads into the backup directory (`found_iff_wanted`).
-/

namespace Excise

namespace Path

variable {p q r : Path} {root : PathRoot}

instance : IsOrderConnected Char fun c d : Char => c.toNat < d.toNat where
  conn _ _ _ h := by omega

instance : Std.Trichotomous fun c d : Char => c.toNat < d.toNat :=
  InvImage.trichotomous (r := (· < ·)) fun _ _ h => Char.toNat_inj.mp h

instance : Std.Asymm fun c d : Char => c.toNat < d.toNat where
  asymm _ _ h := by omega

instance : IsOrderConnected String IsTextBefore where
  conn a b c h := (List.Lex.isOrderConnected _).conn a.toList b.toList c.toList h

instance : Std.Trichotomous IsTextBefore :=
  InvImage.trichotomous (r := List.Lex _) fun _ _ h => String.toList_inj.mp h

instance : Std.Asymm IsTextBefore where
  asymm a b h := Std.Asymm.asymm (r := List.Lex _) a.toList b.toList h

/-- The path comes before another and is not equal to it, component by component. -/
def IsBefore (p q : Path) : Prop := List.Lex IsTextBefore p.keys q.keys

theorem precedes_trans (h : p.Precedes q) (h' : q.Precedes r) : p.Precedes r :=
  IsOrderConnected.neg_trans (r := List.Lex IsTextBefore) h' h

theorem precedes_total (p q : Path) : p.Precedes q ∨ q.Precedes p := by
  by_cases h : q.IsBefore p
  · exact .inr (Std.Asymm.asymm (r := List.Lex IsTextBefore) _ _ h)
  · exact .inl h

/-- What comes before a path comes before what that path precedes. -/
theorem IsBefore.of_precedes (h : p.IsBefore q) (h' : q.Precedes r) : p.IsBefore r :=
  ((List.Lex.isOrderConnected IsTextBefore).conn p.keys r.keys q.keys h).resolve_right h'

/-- No component is spelled like a root. -/
theorem root_text_not_plain (h : root ≠ .relative) : ¬ IsPlainPart root.text := by
  cases root with
  | relative => exact absurd rfl h
  | absolute => decide
  | doubled => decide

/-- A path of plain components shows whether it is relative. -/
theorem relative_of_keys (hp : p.IsPlain) (h : p.keys = q.keys) (hroot : p.root = .relative) :
    q.root = .relative := by
  by_contra hq
  rw [keys, if_pos hroot, keys, if_neg hq] at h
  exact root_text_not_plain hq (hp _ (h ▸ List.mem_cons_self))

/-- Two paths of plain components with the same keys are equal. -/
theorem eq_of_keys (hp : p.IsPlain) (hq : q.IsPlain) (h : p.keys = q.keys) : p = q := by
  have hroots := relative_of_keys hp h
  have hroots' := relative_of_keys hq h.symm
  obtain ⟨root, parts⟩ := p
  obtain ⟨root', parts'⟩ := q
  by_cases hroot : root = .relative
  · obtain rfl := hroot
    obtain rfl : root' = .relative := hroots rfl
    simpa [keys] using h
  · have hroot' : root' ≠ .relative := fun hrelative => hroot (hroots' hrelative)
    simp only [keys, if_neg hroot, if_neg hroot', List.cons.injEq] at h
    obtain ⟨htext, rfl⟩ := h
    have hsame : root = root' := by
      cases root <;> cases root' <;> first | rfl | exact absurd htext (by decide)
    rw [hsame]

/-- Of two different paths of plain components, the one that precedes the other comes before it. -/
theorem Precedes.is_before (h : p.Precedes q) (hp : p.IsPlain) (hq : q.IsPlain) (hne : p ≠ q) :
    p.IsBefore q := by
  by_contra hbefore
  exact hne (eq_of_keys hp hq
    (Std.Trichotomous.trichotomous (r := List.Lex IsTextBefore) _ _ hbefore h))

/-- The path of components below a path. -/
def descend (p : Path) (components : List String) : Path := ⟨p.root, p.parts ++ components⟩

end Path

namespace FileSystem

variable {fs : FileSystem} {paths : List Path} {backups directory p q : Path}
  {components excluded : List String} {location : Location} {l : List Path}

/-- Only repetitions are dropped. -/
@[simp]
theorem mem_drop_repeats : q ∈ dropRepeats l ↔ q ∈ l := by
  induction l with
  | nil => rfl
  | cons p rest ih =>
      rw [dropRepeats]
      split
      · rename_i hhead
        have hp : p ∈ rest := List.mem_of_head? hhead
        rw [ih, List.mem_cons]
        exact ⟨.inr, fun h => h.elim (fun heq => heq ▸ hp) id⟩
      · rw [List.mem_cons, List.mem_cons, ih]

/-- What is left of paths in order, without repetitions, increases. -/
theorem drop_repeats_increasing (hsorted : l.Pairwise Path.Precedes) (hplain : ∀ p ∈ l, p.IsPlain) :
    (dropRepeats l).Pairwise Path.IsBefore := by
  induction l with
  | nil => exact .nil
  | cons p rest ih =>
      obtain ⟨hfirst, hrest⟩ := List.pairwise_cons.mp hsorted
      have hincreasing := ih hrest fun q hq => hplain q (List.mem_cons_of_mem _ hq)
      rw [dropRepeats]
      split
      · exact hincreasing
      · rename_i hhead
        refine List.pairwise_cons.mpr ⟨fun q hq => ?_, hincreasing⟩
        rw [mem_drop_repeats] at hq
        -- The path next to `p` is another, so `p` comes before it and all that follow.
        cases rest with
        | nil => exact absurd hq List.not_mem_nil
        | cons next others =>
            have hne : p ≠ next := fun heq => hhead (by rw [heq]; rfl)
            have hnext : p.IsBefore next := (hfirst next List.mem_cons_self).is_before
              (hplain p List.mem_cons_self)
              (hplain next (List.mem_cons_of_mem _ List.mem_cons_self)) hne
            rcases List.mem_cons.mp hq with rfl | hq
            · exact hnext
            · exact hnext.of_precedes ((List.pairwise_cons.mp hrest).1 q hq)

/-- A directory stands at a path, and a file at components below it. -/
def HasFileBelow (fs : FileSystem) (directory : Path) (components : List String) : Prop :=
  fs.HasDirectory directory ∧
    ∃ bytes, fs.get? (fs.place directory ++ components) = some (.file bytes)

/-- A directory stands at the one path, and the other leads there or below. -/
def LeadsInto (fs : FileSystem) (p directory : Path) : Prop :=
  fs.HasDirectory directory ∧ fs.place directory <+: fs.place p

/-- The paths are followed. -/
instance (p directory : Path) : Decidable (fs.LeadsInto p directory) :=
  inferInstanceAs (Decidable (_ ∧ _))

/-- A directory stands where its path can be followed to. -/
theorem has_directory_iff : fs.HasDirectory directory ↔
    fs.locate directory = .ok (fs.place directory) ∧
      fs.get? (fs.place directory) = some .directory := by
  rw [HasDirectory, at?]
  cases hlocate : fs.locate directory with
  | error cause => simp
  | ok location =>
      obtain rfl := locate_eq_place hlocate
      simp

/-- A file below a directory is at some component there. -/
theorem HasFileBelow.ne_nil (h : fs.HasFileBelow directory components) : components ≠ [] := by
  rintro rfl
  obtain ⟨hdirectory, bytes, hfile⟩ := h
  rw [List.append_nil, (has_directory_iff.mp hdirectory).2] at hfile
  cases hfile

/-- Where no location has two entries, the files below a location are those that stand there. -/
theorem mem_files_below_iff {bytes : Bytes} (hkeys : (Table.keys fs.entries).Nodup) :
    (components, bytes) ∈ fs.filesBelow location ↔
      components ≠ [] ∧ fs.get? (location ++ components) = some (.file bytes) := by
  have hentry : ∀ {target : Location} {content : Content}, target ≠ [] →
      ((target, content) ∈ fs.entries ↔ fs.get? target = some content) := by
    intro target content hne
    rw [get?, if_neg hne]
    exact (Table.get?_eq_some_iff (e := (target, content)) hkeys).symm
  rw [filesBelow, List.mem_filterMap]
  constructor
  · rintro ⟨⟨target, content⟩, hmem, hfound⟩
    cases content with
    | directory => cases hfound
    | file found =>
        simp only [Option.ite_none_right_eq_some, Option.some.injEq, Prod.mk.injEq] at hfound
        obtain ⟨⟨⟨rest, rfl⟩, hne⟩, hdrop, rfl⟩ := hfound
        rw [List.drop_left] at hdrop
        obtain rfl := hdrop
        have hrest : rest ≠ [] := by
          rintro rfl
          exact hne (List.append_nil location).symm
        exact ⟨hrest, (hentry (by simp [hrest])).mp hmem⟩
  · rintro ⟨hne, hfile⟩
    refine ⟨(location ++ components, .file bytes), (hentry (by simp [hne])).mpr hfile, ?_⟩
    simp [hne]

/-- A walk comes to the files below a directory. -/
theorem mem_walk_iff (hkeys : (Table.keys fs.entries).Nodup) :
    components ∈ fs.walk directory ↔ fs.HasFileBelow directory components := by
  constructor
  · intro h
    rw [walk] at h
    split at h
    · exact absurd h List.not_mem_nil
    · rename_i location hlocate
      obtain rfl := locate_eq_place hlocate
      split at h
      · rename_i hdirectory
        obtain ⟨⟨_, bytes⟩, hmem, rfl⟩ := List.mem_map.mp h
        exact ⟨has_directory_iff.mpr ⟨hlocate, hdirectory⟩, bytes,
          ((mem_files_below_iff hkeys).mp hmem).2⟩
      · exact absurd h List.not_mem_nil
  · intro h
    obtain ⟨hdirectory, bytes, hfile⟩ := h
    obtain ⟨hlocate, hget⟩ := has_directory_iff.mp hdirectory
    rw [walk, hlocate]
    dsimp only
    rw [if_pos hget]
    exact List.mem_map_of_mem ((mem_files_below_iff hkeys).mpr
      ⟨HasFileBelow.ne_nil ⟨hdirectory, bytes, hfile⟩, hfile⟩)

/-- The extension of a path is that of the components below a directory. -/
theorem language_descend (hne : components ≠ []) :
    Language.ofPath? (p.descend components) = Language.ofPath? ⟨.relative, components⟩ := by
  have hname : (p.descend components).name = (⟨.relative, components⟩ : Path).name := by
    rw [Path.name, Path.name, Path.descend, List.getLast?_append_of_ne_nil _ hne]
  rw [Language.ofPath?, Language.ofPath?, Path.extension, Path.extension, hname]

/-- A way to a file from a directory among the paths passes components that are not excluded. The
path of the file is that of the directory with the way behind it. -/
structure IsWay (fs : FileSystem) (paths : List Path) (q : Path) (components : List String) :
    Prop where
  start : ∃ directory ∈ paths, fs.HasFileBelow directory components ∧
    directory.descend components = q
  clean : ∀ c ∈ components, c ∉ excludedNames

/-- What one path stands for. -/
theorem mem_sources_at_iff (hkeys : (Table.keys fs.entries).Nodup) :
    q ∈ fs.sourcesAt excluded p ↔ p = q ∧ fs.HasFile p ∨ Language.ofPath? q ≠ none ∧
      ∃ components, fs.HasFileBelow p components ∧ p.descend components = q ∧
        ∀ c ∈ components, c ∉ excluded := by
  have hbelow : fs.HasFile p → ∀ components, ¬ fs.HasFileBelow p components := by
    rintro ⟨bytes, hfile⟩ components ⟨hdirectory, -⟩
    rw [HasDirectory, hfile] at hdirectory
    cases hdirectory
  rw [sourcesAt]
  split
  · rename_i hfile
    rw [List.mem_singleton]
    exact ⟨fun h => .inl ⟨h.symm, hfile⟩, fun h => h.elim (fun h => h.1.symm)
      fun ⟨_, components, hway, _⟩ => absurd hway (hbelow hfile components)⟩
  · rename_i hfile
    simp only [hfile, and_false, false_or, List.mem_map, List.mem_filter, decide_eq_true_eq,
      mem_walk_iff hkeys]
    constructor
    · rintro ⟨components, ⟨hway, hclean, hsupported⟩, rfl⟩
      refine ⟨?_, components, hway, rfl, hclean⟩
      rw [← Path.descend, language_descend hway.ne_nil]
      exact Option.isSome_iff_ne_none.mp hsupported
    · rintro ⟨hsupported, components, hway, rfl, hclean⟩
      rw [language_descend hway.ne_nil] at hsupported
      exact ⟨components, ⟨hway, hclean, Option.isSome_iff_ne_none.mpr hsupported⟩, rfl⟩

/-- The sources are the files among the paths, and the supported files with a way that does not pass
the name of the backup directory. -/
theorem mem_source_files_iff (hkeys : (Table.keys fs.entries).Nodup) :
    q ∈ fs.sourceFiles paths backups ↔ q ∈ paths ∧ fs.HasFile q ∨ Language.ofPath? q ≠ none ∧
      ∃ components, fs.IsWay paths q components ∧ backups.name ∉ components := by
  rw [sourceFiles, mem_drop_repeats, List.mem_mergeSort, List.mem_flatMap]
  constructor
  · rintro ⟨p, hp, hq⟩
    rcases (mem_sources_at_iff hkeys).mp hq with ⟨rfl, hfile⟩ |
      ⟨hsupported, components, hfile, hq, hclean⟩
    · exact .inl ⟨hp, hfile⟩
    · exact .inr ⟨hsupported, components, ⟨⟨p, hp, hfile, hq⟩,
        fun c hc hexcluded => hclean c hc (List.mem_cons_of_mem _ hexcluded)⟩,
        fun hc => hclean _ hc List.mem_cons_self⟩
  · rintro (⟨hq, hfile⟩ | ⟨hsupported, components, ⟨⟨p, hp, hfile, hq⟩, hclean⟩, hname⟩)
    · exact ⟨q, hq, (mem_sources_at_iff hkeys).mpr (.inl ⟨rfl, hfile⟩)⟩
    · refine ⟨p, hp, (mem_sources_at_iff hkeys).mpr
        (.inr ⟨hsupported, components, hfile, hq, fun c hc hexcluded => ?_⟩)⟩
      rcases List.mem_cons.mp hexcluded with rfl | hexcluded
      · exact hname hc
      · exact hclean c hc hexcluded

/-- What is found is plain, as all that stands somewhere is. -/
theorem WellFormed.source_plain (h : fs.WellFormed) (hkeys : (Table.keys fs.entries).Nodup)
    (hq : q ∈ fs.sourceFiles paths backups) : q.IsPlain := by
  rcases (mem_source_files_iff hkeys).mp hq with ⟨-, bytes, hfile⟩ |
    ⟨-, components, ⟨⟨p, -, ⟨hdirectory, bytes, hfile⟩, rfl⟩, -⟩, -⟩
  · rw [at?] at hfile
    split at hfile
    · rename_i location hlocate
      exact h.is_plain hlocate hfile
    · cases hfile
  · obtain ⟨hlocate, hget⟩ := has_directory_iff.mp hdirectory
    intro part hpart
    rcases List.mem_append.mp hpart with hpart | hpart
    · exact h.is_plain hlocate hget part hpart
    · exact (h.names _ _ hfile part (List.mem_append_right _ hpart)).1

/-- The sources come in the order of paths, each of them once. -/
theorem WellFormed.source_files_increasing (h : fs.WellFormed)
    (hkeys : (Table.keys fs.entries).Nodup) (paths : List Path) (backups : Path) :
    (fs.sourceFiles paths backups).Pairwise Path.IsBefore := by
  refine drop_repeats_increasing ?_ fun q hq => ?_
  · refine (List.pairwise_mergeSort (fun a b c hab hbc => ?_) (fun a b => ?_) _).imp
      fun hab => of_decide_eq_true hab
    · exact decide_eq_true (Path.precedes_trans (of_decide_eq_true hab) (of_decide_eq_true hbc))
    · rw [Bool.or_eq_true, decide_eq_true_eq, decide_eq_true_eq]
      exact Path.precedes_total a b
  · exact h.source_plain hkeys (mem_drop_repeats.mpr hq)

/-- Components below a directory, at which a file stands, are names, and lead below its place. -/
theorem WellFormed.place_descend (h : fs.WellFormed)
    (hfile : fs.HasFileBelow directory components) :
    fs.place (directory.descend components) = fs.place directory ++ components := by
  obtain ⟨-, bytes, hfile⟩ := hfile
  have hnames : ∀ name ∈ components, name ≠ ".." := fun name hname =>
    (h.names _ _ hfile name (List.mem_append_right _ hname)).2.1
  have hbase : fs.base (directory.descend components) = fs.base directory := rfl
  rw [place, hbase, Path.descend, List.foldl_append, foldl_step_to hnames]
  rfl

/-- A path whose last component is a name leads to a place of that name. -/
theorem place_of_name (hempty : p.name ≠ "") (hup : p.name ≠ "..") :
    ∃ above, fs.place p = above ++ [p.name] := by
  rcases p.nil_or_child with hnone | ⟨above, name, rfl⟩
  · exact absurd (by rw [Path.name, hnone]; rfl) hempty
  · rw [Path.name_child] at hup ⊢
    exact ⟨_, place_child_of_name above hup⟩

/-- A way into a directory from outside passes its name. -/
theorem WellFormed.passes_name (h : fs.WellFormed) (hempty : backups.name ≠ "")
    (hup : backups.name ≠ "..") (hfile : fs.HasFileBelow directory components)
    (hinto : fs.LeadsInto (directory.descend components) backups)
    (houtside : ¬ fs.LeadsInto directory backups) : backups.name ∈ components := by
  obtain ⟨hbackups, hprefix⟩ := hinto
  rw [h.place_descend hfile] at hprefix
  -- The place of the backups is further down than that of the directory, on the way to the file.
  rcases List.prefix_or_prefix_of_prefix hprefix (List.prefix_append _ _) with habove | hbelow
  · exact absurd ⟨hbackups, habove⟩ houtside
  · obtain ⟨front, hfront⟩ := hbelow
    obtain ⟨above, hname⟩ : ∃ above, fs.place backups = above ++ [backups.name] :=
      place_of_name hempty hup
    have hne : front ≠ [] := by
      rintro rfl
      rw [List.append_nil] at hfront
      exact houtside ⟨hbackups, hfront.symm ▸ List.prefix_rfl⟩
    have hlast : backups.name ∈ front := by
      have hlast := congrArg List.getLast? (hfront.trans hname)
      rw [List.getLast?_append_of_ne_nil _ hne, List.getLast?_concat] at hlast
      exact List.mem_of_getLast? hlast
    rw [← hfront] at hprefix
    exact (List.prefix_append_right_inj _ |>.mp hprefix).subset hlast

/-- What belongs among the sources: the files among the paths, and each supported file that a way
leads to, unless it lies in the backup directory. -/
def IsWanted (fs : FileSystem) (paths : List Path) (backups q : Path) : Prop :=
  q ∈ paths ∧ fs.HasFile q ∨ Language.ofPath? q ≠ none ∧
    (∃ components, fs.IsWay paths q components) ∧ ¬ fs.LeadsInto q backups

/-- If the path of the backup directory ends in a name, nothing in there is found from paths that do
not lead there. -/
theorem stored_not_found (hfs : fs.WellFormed) (hkeys : (Table.keys fs.entries).Nodup)
    (hempty : backups.name ≠ "") (hup : backups.name ≠ "..")
    (houtside : ∀ p ∈ paths, ¬ fs.LeadsInto p backups)
    (hq : q ∈ fs.sourceFiles paths backups) : ¬ fs.LeadsInto q backups := by
  intro hinto
  rcases (mem_source_files_iff hkeys).mp hq with ⟨hpath, -⟩ |
    ⟨-, components, ⟨⟨p, hp, hfile, rfl⟩, -⟩, hname⟩
  · exact houtside q hpath hinto
  · exact hname (hfs.passes_name hempty hup hfile hinto (houtside p hp))

/-- A path that is not among the sources as a file that was named is found exactly if it is wanted,
if and only if this holds: if it is supported and has a way at all, it lies in the backup directory
as long as all ways to it pass the name of that directory. -/
theorem found_iff_wanted_iff (hkeys : (Table.keys fs.entries).Nodup)
    (hnamed : ¬ (q ∈ paths ∧ fs.HasFile q)) :
    (q ∈ fs.sourceFiles paths backups ↔ fs.IsWanted paths backups q) ↔
      (Language.ofPath? q ≠ none → (∃ components, fs.IsWay paths q components) →
        (fs.LeadsInto q backups ↔
          ∀ components, fs.IsWay paths q components → backups.name ∈ components)) := by
  rw [mem_source_files_iff hkeys, IsWanted, or_iff_right hnamed, or_iff_right hnamed]
  constructor
  · intro hiff hsupported hway
    constructor
    · intro hinto components hcomponents
      by_contra hname
      exact (hiff.mp ⟨hsupported, components, hcomponents, hname⟩).2.2 hinto
    · intro hall
      by_contra hinto
      obtain ⟨-, components, hcomponents, hname⟩ := hiff.mpr ⟨hsupported, hway, hinto⟩
      exact hname (hall components hcomponents)
  · intro hiff
    constructor
    · rintro ⟨hsupported, components, hcomponents, hname⟩
      exact ⟨hsupported, ⟨components, hcomponents⟩, fun hinto => hname
        ((hiff hsupported ⟨components, hcomponents⟩).mp hinto components hcomponents)⟩
    · rintro ⟨hsupported, hway, hinto⟩
      by_contra hnone
      refine hinto ((hiff hsupported hway).mpr fun components hcomponents => ?_)
      by_contra hname
      exact hnone ⟨hsupported, components, hcomponents, hname⟩

/-- Exactly what is wanted is found if the path of the backup directory ends in a name, no path
among those named leads there, and every way that passes the name leads there. -/
theorem found_iff_wanted (hfs : fs.WellFormed) (hkeys : (Table.keys fs.entries).Nodup)
    (hempty : backups.name ≠ "") (hup : backups.name ≠ "..")
    (houtside : ∀ p ∈ paths, ¬ fs.LeadsInto p backups)
    (hnamesakes : ∀ q components, fs.IsWay paths q components → backups.name ∈ components →
      fs.LeadsInto q backups) (q : Path) :
    q ∈ fs.sourceFiles paths backups ↔ fs.IsWanted paths backups q := by
  by_cases hnamed : q ∈ paths ∧ fs.HasFile q
  · exact iff_of_true ((mem_source_files_iff hkeys).mpr (.inl hnamed)) (.inl hnamed)
  · refine (found_iff_wanted_iff hkeys hnamed).mpr fun _ ⟨components, hway⟩ =>
      ⟨fun hinto others hothers => ?_, fun hall => hnamesakes q _ hway (hall _ hway)⟩
    obtain ⟨⟨p, hp, hfile, rfl⟩, -⟩ := hothers
    exact hfs.passes_name hempty hup hfile hinto (houtside p hp)

/-- The sources come in the order of paths, each of them once, and the files among the paths are
sources. Any other path is found exactly if it is wanted, if and only if this holds: if it is
supported and has a way at all, it lies in the backup directory as long as all ways to it pass the
name of that directory. If the path of the backup directory ends in a name, nothing in there is
found from paths that do not lead there. -/
theorem source_files_wanted_iff (hfs : fs.WellFormed) (hkeys : (Table.keys fs.entries).Nodup)
    (paths : List Path) (backups : Path) :
    (fs.sourceFiles paths backups).Pairwise Path.IsBefore ∧
      (∀ q ∈ paths, fs.HasFile q → q ∈ fs.sourceFiles paths backups) ∧
      (∀ q, ¬ (q ∈ paths ∧ fs.HasFile q) →
        ((q ∈ fs.sourceFiles paths backups ↔ fs.IsWanted paths backups q) ↔
          (Language.ofPath? q ≠ none → (∃ components, fs.IsWay paths q components) →
            (fs.LeadsInto q backups ↔
              ∀ components, fs.IsWay paths q components → backups.name ∈ components)))) ∧
      (backups.name ≠ "" → backups.name ≠ ".." → (∀ p ∈ paths, ¬ fs.LeadsInto p backups) →
        ∀ q ∈ fs.sourceFiles paths backups, ¬ fs.LeadsInto q backups) :=
  ⟨hfs.source_files_increasing hkeys paths backups,
    fun _ hq hfile => (mem_source_files_iff hkeys).mpr (.inl ⟨hq, hfile⟩),
    fun _ hnamed => found_iff_wanted_iff hkeys hnamed,
    fun hempty hup houtside _ hq => stored_not_found hfs hkeys hempty hup houtside hq⟩

/-- A directory `bak` with a file, another of that name in `lib`, and a file in `src`. -/
def namesakes : FileSystem :=
  ⟨[], [(["bak"], .directory), (["bak", "b.js"], .file []), (["lib"], .directory),
    (["lib", "bak"], .directory), (["lib", "bak", "a.js"], .file []), (["src"], .directory),
    (["src", "c.js"], .file [])]⟩

theorem namesakes_well_formed : namesakes.WellFormed := well_formed_of_entries rfl (by decide)

/-- From the working directory nothing in `bak` is found, which is wanted. -/
theorem stored_file_not_found :
    Path.ofText "bak/b.js" ∉ namesakes.sourceFiles [Path.ofText "."] (Path.ofText "bak") ∧
      ¬ namesakes.IsWanted [Path.ofText "."] (Path.ofText "bak") (Path.ofText "bak/b.js") := by
  obtain ⟨-, -, hwanted, hstored⟩ := source_files_wanted_iff namesakes_well_formed (by decide)
    [Path.ofText "."] (Path.ofText "bak")
  have hinto : namesakes.LeadsInto (Path.ofText "bak/b.js") (Path.ofText "bak") := by decide
  have hnot := fun hfound => hstored (by decide) (by decide) (by decide) _ hfound hinto
  refine ⟨hnot, fun h => hnot (((hwanted _ (by decide)).mpr fun _ _ => ?_).mpr h)⟩
  -- Its one way goes through `bak`.
  refine iff_of_true hinto fun components hway => ?_
  obtain ⟨directory, hdirectory, -, hpath⟩ := hway.start
  obtain rfl := List.mem_singleton.mp hdirectory
  obtain rfl : components = ["bak", "b.js"] := congrArg Path.parts hpath
  decide

/-- From the working directory and `bak` the file in `bak` is found, which lies in the backup
directory, and the file in the other directory of that name is not, which is wanted. -/
theorem namesake_not_found :
    let paths := [Path.ofText ".", Path.ofText "bak"]
    let backups := Path.ofText "bak"
    Path.ofText "bak/b.js" ∈ namesakes.sourceFiles paths backups ∧
      ¬ namesakes.IsWanted paths backups (Path.ofText "bak/b.js") ∧
      Path.ofText "lib/bak/a.js" ∉ namesakes.sourceFiles paths backups ∧
      namesakes.IsWanted paths backups (Path.ofText "lib/bak/a.js") := by
  have hkeys : (Table.keys namesakes.entries).Nodup := by decide
  refine ⟨(mem_source_files_iff hkeys).mpr (.inr ⟨by decide, ["b.js"], ⟨⟨Path.ofText "bak",
    by decide, ⟨by decide, [], by decide⟩, by decide⟩, by decide⟩, by decide⟩), ?_, ?_, ?_⟩
  · rintro (⟨hmem, -⟩ | ⟨-, -, hnot⟩)
    · exact absurd hmem (by decide)
    · exact hnot (by decide)
  · intro hfound
    rcases (mem_source_files_iff hkeys).mp hfound with ⟨hmem, -⟩ | ⟨-, components, hway, hname⟩
    · exact absurd hmem (by decide)
    · obtain ⟨directory, hdirectory, -, hpath⟩ := hway.start
      have hparts := congrArg Path.parts hpath
      rcases List.mem_pair.mp hdirectory with rfl | rfl
      · obtain rfl : components = ["lib", "bak", "a.js"] := hparts
        exact hname (by decide)
      · exact absurd (List.cons.inj hparts).1 (by decide)
  · exact .inr ⟨by decide, ⟨["lib", "bak", "a.js"], ⟨Path.ofText ".", by decide,
      ⟨by decide, [], by decide⟩, by decide⟩, by decide⟩, by decide⟩

end FileSystem

end Excise
