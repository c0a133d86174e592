import Excise.Table
import Excise.Text.Icons

/-!
# Icons are replaced one by one or all at once

The text is rewritten once for each icon of the table. Where no text of the table has an icon in it
(`FeedsNothing`), a later rewriting finds nothing that an earlier one put there, so all of them
together are one pass that puts in the place of each character what stands for it
(`replace_icons_eq`). What holds of that pass holds of the rewritings (`shown_on_substitutes`).
-/

namespace Excise.Text

/-- What stands for a character: its text in the table, or the character itself. -/
def standIn (table : Table Char String) (c : Char) : List Char :=
  ((Table.get? table c).map String.toList).getD [c]

/-- Put in the place of each character what stands for it, from left to right. -/
def substituteIcons (table : Table Char String) : List Char → List Char
  | [] => []
  | c :: rest => standIn table c ++ substituteIcons table rest

/-- No text of the table has an icon of the table in it. -/
def FeedsNothing (table : Table Char String) : Prop :=
  ∀ e ∈ table, ∀ c ∈ e.2.toList, c ∉ Table.keys table

variable {table other : Table Char String} {icon : Char × String} {c : Char} {text : List Char}

/-! ## One pass -/

/-- A character that is no icon stands for itself. -/
theorem stand_in_of_free (h : c ∉ Table.keys table) : standIn table c = [c] := by
  rw [standIn, Table.get?_eq_none_iff.mpr h]
  rfl

/-- Of two texts one behind the other each is replaced by itself. -/
theorem substitute_append (table : Table Char String) (front back : List Char) :
    substituteIcons table (front ++ back) =
      substituteIcons table front ++ substituteIcons table back := by
  induction front with
  | nil => rfl
  | cons c front ih =>
      rw [List.cons_append, substituteIcons, substituteIcons, ih, List.append_assoc]

/-- A text without icons stays as it is. -/
theorem substitute_of_free (h : ∀ c ∈ text, c ∉ Table.keys table) :
    substituteIcons table text = text := by
  induction text with
  | nil => rfl
  | cons c rest ih =>
      obtain ⟨hc, hrest⟩ := List.forall_mem_cons.mp h
      rw [substituteIcons, stand_in_of_free hc, ih hrest]
      rfl

/-- What stands for a character has no icon in it. -/
theorem stand_in_free (h : FeedsNothing table) (c : Char) :
    ∀ d ∈ standIn table c, d ∉ Table.keys table := by
  intro d hd
  unfold standIn at hd
  cases hget : Table.get? table c with
  | none =>
      rw [hget] at hd
      obtain rfl : d = c := List.mem_singleton.mp hd
      exact Table.get?_eq_none_iff.mp hget
  | some text =>
      rw [hget] at hd
      exact h (c, text) (Table.mem_of_get? hget) d hd

/-- The pass leaves no icon. -/
theorem substitute_free (h : FeedsNothing table) (text : List Char) :
    ∀ c ∈ substituteIcons table text, c ∉ Table.keys table := by
  induction text with
  | nil => exact fun c hc => absurd hc List.not_mem_nil
  | cons first rest ih =>
      intro c hc
      rcases List.mem_append.mp hc with hfirst | hrest
      · exact stand_in_free h first c hfirst
      · exact ih c hrest

/-- The pass keeps all other characters, in order. -/
theorem others_sublist_substitute (table : Table Char String) (text : List Char) :
    (text.filter (· ∉ Table.keys table)).Sublist (substituteIcons table text) := by
  induction text with
  | nil => exact List.Sublist.refl _
  | cons c rest ih =>
      by_cases hc : c ∈ Table.keys table
      · rw [List.filter_cons_of_neg (by simpa using hc)]
        exact ih.trans (List.sublist_append_right _ _)
      · rw [List.filter_cons_of_pos (by simpa using hc), substituteIcons, stand_in_of_free hc]
        exact ih.cons_cons c

/-- Another order of the entries has the same icons. -/
theorem keys_perm (hperm : other.Perm table) : (Table.keys other).Perm (Table.keys table) := by
  unfold Table.keys
  exact hperm.map _

/-- The order of the entries does not count where no icon has two. -/
theorem substitute_of_perm (hperm : other.Perm table) (hnodup : (Table.keys table).Nodup) :
    substituteIcons other text = substituteIcons table text := by
  have hkeys : (Table.keys other).Nodup := (keys_perm hperm).nodup_iff.mpr hnodup
  have hget : ∀ c, Table.get? other c = Table.get? table c := by
    intro c
    refine Option.ext fun value => ?_
    rw [Table.get?_eq_some_iff (e := (c, value)) hkeys,
      Table.get?_eq_some_iff (e := (c, value)) hnodup]
    exact hperm.mem_iff
  induction text with
  | nil => rfl
  | cons c rest ih => rw [substituteIcons, substituteIcons, standIn, standIn, hget, ih]

/-! ## One rewriting after the other -/

/-- A rewriting for one icon first leaves to the others what they would find without it. -/
theorem substitute_replace (hfree : ∀ c ∈ icon.2.toList, c ∉ Table.keys table)
    (text : List Char) :
    substituteIcons table (replaceChar text icon) = substituteIcons (icon :: table) text := by
  induction text with
  | nil => rfl
  | cons c rest ih =>
      have hsplit : replaceChar (c :: rest) icon =
          (if c = icon.1 then icon.2.toList else [c]) ++ replaceChar rest icon := rfl
      rw [hsplit, substitute_append, ih, substituteIcons, standIn, Table.get?]
      by_cases hc : c = icon.1
      · rw [if_pos hc, if_pos hc.symm, substitute_of_free hfree]
        rfl
      · rw [if_neg hc, if_neg (Ne.symm hc), substituteIcons, substituteIcons, List.append_nil]
        rfl

/-- Where no text feeds a later rewriting, all rewritings are one pass. -/
theorem replace_icons_eq (h : FeedsNothing table) (text : List Char) :
    replaceIcons table text = substituteIcons table text := by
  induction table generalizing text with
  | nil =>
      show text = substituteIcons [] text
      exact (substitute_of_free fun _ _ => List.not_mem_nil).symm
  | cons icon table ih =>
      have hfree : ∀ e ∈ icon :: table, ∀ c ∈ e.2.toList, c ∉ Table.keys table :=
        fun e he c hc hmem => h e he c hc (List.mem_cons_of_mem _ hmem)
      obtain ⟨hicon, htable⟩ := List.forall_mem_cons.mp hfree
      show replaceIcons table (replaceChar text icon) = _
      rw [ih htable, substitute_replace hicon]

/-- No text that stands for an icon has an icon in it. -/
theorem icons_feed_nothing : FeedsNothing icons := by simp [FeedsNothing, icons, Table.keys]

/-- No icon has two texts. -/
theorem icons_nodup : (Table.keys icons).Nodup := by decide

/-- Another order of the entries feeds nothing, either. -/
theorem feeds_nothing_of_perm (hperm : other.Perm table) (h : FeedsNothing table) :
    FeedsNothing other := by
  intro e he c hc hmem
  exact h e (hperm.mem_iff.mp he) c hc ((keys_perm hperm).mem_iff.mp hmem)

/-- On a terminal that does not show icons, rewriting a text for one icon after the other is one
pass from left to right. So texts can be rewritten piece by piece, twice is the same as once, no
icon is left, all other characters stay in order, and the order of the table does not count. -/
theorem shown_on_substitutes (encoding : String) (locale : Option String)
    (h : ¬ ShowsIcons encoding locale) :
    (∀ text : String,
        shownOn encoding text locale = String.ofList (substituteIcons icons text.toList)) ∧
      (∀ front back : String, shownOn encoding (front ++ back) locale =
        shownOn encoding front locale ++ shownOn encoding back locale) ∧
      (∀ text : String, shownOn encoding (shownOn encoding text locale) locale =
        shownOn encoding text locale) ∧
      (∀ text : String, ∀ c ∈ (shownOn encoding text locale).toList, c ∉ Table.keys icons) ∧
      (∀ text : String, (text.toList.filter (· ∉ Table.keys icons)).Sublist
        (shownOn encoding text locale).toList) ∧
      ∀ other : Table Char String, other.Perm icons →
        ∀ text : String,
          String.ofList (replaceIcons other text.toList) = shownOn encoding text locale := by
  have hpass : ∀ text : String, shownOn encoding text locale =
      String.ofList (substituteIcons icons text.toList) := by
    intro text
    rw [shownOn, if_neg h, withoutIcons, replace_icons_eq icons_feed_nothing]
  have hchars : ∀ text : String,
      (shownOn encoding text locale).toList = substituteIcons icons text.toList := by
    intro text
    rw [hpass, String.toList_ofList]
  refine ⟨hpass, fun front back => ?_, fun text => ?_, fun text => ?_, fun text => ?_,
    fun other hperm text => ?_⟩
  · rw [hpass, hpass, hpass, String.toList_append, substitute_append, String.ofList_append]
  · rw [hpass (shownOn encoding text locale), hchars,
      substitute_of_free (substitute_free icons_feed_nothing _), hpass]
  · rw [hchars]
    exact substitute_free icons_feed_nothing _
  · rw [hchars]
    exact others_sublist_substitute icons _
  · rw [hpass, replace_icons_eq (feeds_nothing_of_perm hperm icons_feed_nothing),
      substitute_of_perm hperm icons_nodup]

/-- A terminal of code page 1252 shows neither the tick nor the arrow, and no icon at all. One whose
output names no encoding shows them only in a locale of UTF-8. -/
theorem icons_shown_in_ascii :
    (¬ ShowsIcons "cp1252" ∧ shownOn "cp1252" "✓ a → b" = "[OK] a -> b" ∧
      ∀ text, ∀ c ∈ (shownOn "cp1252" text).toList, c ∉ Table.keys icons) ∧
    (ShowsIcons "" (some "UTF-8") ∧ ¬ ShowsIcons "" none ∧
      shownOn "" "✓ a → b" none = "[OK] a -> b") := by
  have hencoding : ¬ ShowsIcons "cp1252" := by decide +kernel
  have hnone : ¬ ShowsIcons "" none := by decide +kernel
  obtain ⟨hpass, -, -, hfree, -, -⟩ := shown_on_substitutes "cp1252" (some "utf-8") hencoding
  refine ⟨⟨hencoding, ?_, hfree⟩, by decide +kernel, hnone, ?_⟩
  · rw [hpass]
    decide +kernel
  · rw [(shown_on_substitutes "" none hnone).1]
    decide +kernel

end Excise.Text
