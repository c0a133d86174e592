import Excise.Proofs.Edit.Line
import Excise.Proofs.Edit.Substitution
import Excise.Proofs.Text.Lines

/-!
# Whole lines and parts of lines

The blanks around a statement reach from `blanksBegin` to `blanksEnd`, and what stands before and
behind these decides what the range to delete takes (`extent_case`): the whole line with its end,
the blanks after the statement, or those before it. `line_extent_tight` says this of every
statement, and that the lines above and below stay as they are (`LinesLeft`): the line of the
statement is gone, if it held nothing but blanks besides, or what stands around the statement is one
line as before.
-/

namespace Excise

variable {source : Bytes} {start stop i j : Nat}

/-- Blanks alone stand at the offsets from one up to another. -/
def BlankBetween (source : Bytes) (i j : Nat) : Prop := ∀ k, i ≤ k → k < j → IsBlankAt source k

/-- A line begins at the offset: the source begins there, or a line feed stands before it. -/
def LineBeginsAt (source : Bytes) (i : Nat) : Prop := i = 0 ∨ source[i - 1]? = some Bytes.lineFeed

/-- The text of a line is over at the offset: the source is, or a byte that ends lines stands
there. -/
def LineStopsAt (source : Bytes) (i : Nat) : Prop := i = source.length ∨ IsTerminatorAt source i

/-- The line that begins at an offset holds blanks alone up to another one. -/
structure OpensLine (source : Bytes) (i j : Nat) : Prop where
  le : i ≤ j
  begins : LineBeginsAt source i
  blank : BlankBetween source i j

/-- The text of a line is over at an offset and holds blanks alone from another one on. -/
structure ClosesLine (source : Bytes) (i j : Nat) : Prop where
  le : i ≤ j
  stops : LineStopsAt source j
  blank : BlankBetween source i j

/-- The end of a line stands at the offsets from one up to another: a line feed, a carriage return
without one behind it, or both in turn. -/
inductive IsLineEnd (source : Bytes) (i j : Nat) : Prop where
  | lineFeed (first : source[i]? = some Bytes.lineFeed) (stop : j = i + 1)
  | carriageReturn (first : source[i]? = some Bytes.carriageReturn)
      (alone : source[i + 1]? ≠ some Bytes.lineFeed) (stop : j = i + 1)
  | both (first : source[i]? = some Bytes.carriageReturn)
      (second : source[i + 1]? = some Bytes.lineFeed) (stop : j = i + 2)

/-- Where the blanks before an offset begin. -/
def blanksBegin (source : Bytes) (i : Nat) : Nat := i - blanksAtBack (source.take i)

/-- Where the blanks from an offset on end. -/
def blanksEnd (source : Bytes) (i : Nat) : Nat := i + blanksAtFront (source.drop i)

/-! ## The blanks around a statement -/

/-- The blanks before an offset begin there or before it. -/
theorem blanks_begin_le (source : Bytes) (i : Nat) : blanksBegin source i ≤ i := Nat.sub_le _ _

/-- The blanks from an offset on end there or behind it. -/
theorem le_blanks_end (source : Bytes) (i : Nat) : i ≤ blanksEnd source i := Nat.le_add_right _ _

/-- The blanks at the front end before a byte that is no blank. -/
theorem not_blank_past_front (b : Bytes) : ¬ IsBlankAt b (blanksAtFront b) := by
  induction b with
  | nil =>
      rintro ⟨c, hc, -⟩
      exact nomatch hc
  | cons c rest ih =>
      by_cases hc : IsBlankByte c
      · rw [blanks_at_front_of_blank hc]
        exact ih
      · rw [blanks_at_front_of_not_blank hc]
        rintro ⟨d, hd, hblank⟩
        obtain rfl : c = d := Option.some.inj hd
        exact hc hblank

/-- The first byte behind the blanks at the front. -/
theorem head_past_front (b : Bytes) : (b.dropWhile IsBlankByte).head? = b[blanksAtFront b]? := by
  rw [drop_while_blank, List.head?_drop]

/-- A line feed is no blank. -/
theorem not_blank_of_feed (h : source[i]? = some Bytes.lineFeed) : ¬ IsBlankAt source i := by
  rintro ⟨c, hc, hblank⟩
  obtain rfl : Bytes.lineFeed = c := Option.some.inj (h.symm.trans hc)
  exact absurd hblank (by decide)

/-- A byte that ends lines is no blank. -/
theorem IsTerminatorAt.not_blank (h : IsTerminatorAt source i) : ¬ IsBlankAt source i := by
  obtain ⟨c, hc, hends⟩ := h
  rintro ⟨d, hd, hblank⟩
  obtain rfl : c = d := Option.some.inj (hc.symm.trans hd)
  rcases hends with rfl | rfl <;> exact absurd hblank (by decide)

/-- Where the text of a line is over there is no blank. -/
theorem LineStopsAt.not_blank (h : LineStopsAt source i) : ¬ IsBlankAt source i := by
  rcases h with rfl | hends
  · rintro ⟨c, hc, -⟩
    simp at hc
  · exact hends.not_blank

/-- From an offset up to where the blanks end there are blanks. -/
theorem blank_between_end (source : Bytes) (i : Nat) :
    BlankBetween source i (blanksEnd source i) := by
  intro k hfirst hlast
  unfold blanksEnd at hlast
  obtain ⟨c, hc, hblank⟩ := blank_of_lt_blanks_at_front (b := source.drop i) (i := k - i) (by omega)
  rw [List.getElem?_drop, Nat.add_sub_cancel' hfirst] at hc
  exact ⟨c, hc, hblank⟩

/-- Where the blanks end there is none. -/
theorem not_blank_at_end (source : Bytes) (i : Nat) : ¬ IsBlankAt source (blanksEnd source i) := by
  rintro ⟨c, hc, hblank⟩
  refine not_blank_past_front (source.drop i) ⟨c, ?_, hblank⟩
  rwa [List.getElem?_drop]

/-- The blanks end within the source. -/
theorem blanks_end_le (h : i ≤ source.length) : blanksEnd source i ≤ source.length := by
  rcases Nat.lt_or_ge source.length (blanksEnd source i) with hbeyond | hle
  · -- The byte at the end of the source would be a blank, but there is none.
    obtain ⟨c, hc, -⟩ := blank_between_end source i source.length h hbeyond
    simp at hc
  · exact hle

/-- The byte at the back that has a number of bytes behind it. -/
theorem get_take_reverse {k : Nat} (h : i ≤ source.length) (hk : k < i) :
    (source.take i).reverse[k]? = source[i - k - 1]? := by
  have hlength : (source.take i).length = i := List.length_take_of_le h
  have hindex : i - 1 - k = i - k - 1 := by omega
  rw [List.getElem?_reverse (by omega), hlength, List.getElem?_take_of_lt (by omega), hindex]

/-- From where the blanks begin up to an offset there are blanks. -/
theorem blank_between_begin (h : i ≤ source.length) :
    BlankBetween source (blanksBegin source i) i := by
  intro k hfirst hlast
  unfold blanksBegin at hfirst
  have hlength : (source.take i).length = i := List.length_take_of_le h
  obtain ⟨c, hc, hblank⟩ := blank_of_blanks_at_back (b := source.take i) (i := k)
    (by omega) (by omega)
  rw [List.getElem?_take_of_lt hlast] at hc
  exact ⟨c, hc, hblank⟩

/-- Before the place where the blanks begin there is none. -/
theorem not_blank_before_begin (h : i ≤ source.length) :
    blanksBegin source i = 0 ∨ ¬ IsBlankAt source (blanksBegin source i - 1) := by
  unfold blanksBegin
  rcases Nat.lt_or_ge (blanksAtBack (source.take i)) i with hlt | hge
  · refine .inr ?_
    rintro ⟨c, hc, hblank⟩
    refine not_blank_past_front (source.take i).reverse ⟨c, ?_, hblank⟩
    show (source.take i).reverse[blanksAtBack (source.take i)]? = some c
    rw [get_take_reverse h hlt]
    exact hc
  · exact .inl (Nat.sub_eq_zero_of_le hge)

/-- A statement stands behind its indentation alone if a line begins where the blanks before it
do. -/
theorem ends_in_indentation_iff (h : i ≤ source.length) :
    EndsInIndentation (source.take i) ↔ LineBeginsAt source (blanksBegin source i) := by
  unfold EndsInIndentation LineBeginsAt blanksBegin
  rw [head_past_front]
  show (∀ c ∈ (source.take i).reverse[blanksAtBack (source.take i)]?, c = Bytes.lineFeed) ↔ _
  rcases Nat.lt_or_ge (blanksAtBack (source.take i)) i with hlt | hge
  · rw [get_take_reverse h hlt, List.getElem?_eq_getElem (by omega)]
    constructor
    · intro hfeed
      exact .inr (congrArg some (hfeed _ rfl))
    · rintro (hzero | hfeed) c hc
      · omega
      · exact Option.some.inj (hc.symm.trans hfeed)
  · refine iff_of_true (fun c hc => ?_) (.inl (Nat.sub_eq_zero_of_le hge))
    rw [List.getElem?_eq_none (by rw [List.length_reverse, List.length_take]; omega)] at hc
    exact nomatch hc

/-- The line goes on with blanks alone if its text is over where these end. -/
theorem begins_with_line_end_iff (h : i ≤ source.length) :
    BeginsWithLineEnd (source.drop i) ↔ LineStopsAt source (blanksEnd source i) := by
  have hle := blanks_end_le h
  unfold BeginsWithLineEnd LineStopsAt IsTerminatorAt
  rw [head_past_front, List.getElem?_drop]
  show (∀ c ∈ source[blanksEnd source i]?, IsTerminatorByte c) ↔ _
  rcases Nat.lt_or_ge (blanksEnd source i) source.length with hlt | hge
  · rw [List.getElem?_eq_getElem hlt]
    constructor
    · intro hends
      exact .inr ⟨_, rfl, hends _ rfl⟩
    · rintro (hlast | ⟨c, hc, hends⟩) d hd
      · omega
      · obtain rfl : c = d := Option.some.inj (hc.symm.trans hd)
        exact hends
  · refine iff_of_true (fun c hc => ?_) (.inl (Nat.le_antisymm hle hge))
    rw [List.getElem?_eq_none hge] at hc
    exact nomatch hc

/-- Only where the blanks before an offset begin can its line. -/
theorem OpensLine.eq_begin (h : OpensLine source j i) (hi : i ≤ source.length) :
    j = blanksBegin source i := by
  have hle := h.le
  have hbegin := blanks_begin_le source i
  rcases Nat.lt_trichotomy j (blanksBegin source i) with hlt | heq | hgt
  · rcases not_blank_before_begin hi with hzero | hother
    · omega
    · exact absurd (h.blank _ (by omega) (by omega)) hother
  · exact heq
  · rcases h.begins with hzero | hfeed
    · omega
    · exact absurd (blank_between_begin hi _ (by omega) (by omega)) (not_blank_of_feed hfeed)

/-- Only where the blanks behind an offset end can the text of its line be over. -/
theorem ClosesLine.eq_end (h : ClosesLine source i j) : j = blanksEnd source i := by
  have hend := le_blanks_end source i
  rcases Nat.lt_trichotomy j (blanksEnd source i) with hlt | heq | hgt
  · exact absurd (blank_between_end source i j h.le hlt) h.stops.not_blank
  · exact heq
  · exact absurd (h.blank _ hend hgt) (not_blank_at_end source i)

/-- A line begins before an offset and the blanks there if it begins where they do. -/
theorem opens_line_of_begins (hi : i ≤ source.length)
    (h : LineBeginsAt source (blanksBegin source i)) : OpensLine source (blanksBegin source i) i :=
  ⟨blanks_begin_le source i, h, blank_between_begin hi⟩

/-- The text of a line is over behind an offset and the blanks there if it is where they end. -/
theorem closes_line_of_stops (h : LineStopsAt source (blanksEnd source i)) :
    ClosesLine source i (blanksEnd source i) :=
  ⟨le_blanks_end source i, h, blank_between_end source i⟩

/-! ## What the range takes -/

/-- Where the text of a line is over, its end follows unless the source is over, too. -/
theorem line_end_of_stop (h : LineStopsAt source i) :
    i = source.length ∧ i + terminatorLength (source.drop i) = i ∨
      IsLineEnd source i (i + terminatorLength (source.drop i)) := by
  rcases h with rfl | ⟨c, hc, hends⟩
  · refine .inl ⟨rfl, ?_⟩
    rw [List.drop_length]
    rfl
  · refine .inr ?_
    have hlt : i < source.length := (List.getElem?_eq_some_iff.mp hc).1
    have hfirst : source[i] = c := (List.getElem?_eq_some_iff.mp hc).2
    have hnext : (source.drop (i + 1)).head? = source[i + 1]? := List.head?_drop
    rw [List.drop_eq_getElem_cons hlt, terminatorLength, hfirst, hnext]
    rcases hends with rfl | rfl
    · rw [if_pos rfl]
      by_cases hfeed : source[i + 1]? = some Bytes.lineFeed
      · rw [if_pos hfeed]
        exact .both hc hfeed rfl
      · rw [if_neg hfeed]
        exact .carriageReturn hc hfeed rfl
    · rw [if_neg (by decide), if_pos rfl]
      exact .lineFeed hc rfl

/-- The end of a line lies within the source. -/
theorem IsLineEnd.le_length (h : IsLineEnd source i j) : j ≤ source.length := by
  cases h with
  | lineFeed first stop =>
      have := (List.getElem?_eq_some_iff.mp first).1
      omega
  | carriageReturn first alone stop =>
      have := (List.getElem?_eq_some_iff.mp first).1
      omega
  | both first second stop =>
      have := (List.getElem?_eq_some_iff.mp second).1
      omega

/-- What the range to delete takes: the whole line, the blanks behind the statement that opens a
line, or else the blanks before it. -/
inductive ExtentCase (source : Bytes) (start stop : Nat) : Prop where
  | whole (begins : LineBeginsAt source (blanksBegin source start))
      (stops : LineStopsAt source (blanksEnd source stop))
      (result : lineExtent source start stop = (blanksBegin source start,
        blanksEnd source stop + terminatorLength (source.drop (blanksEnd source stop))))
  | opening (begins : LineBeginsAt source (blanksBegin source start))
      (continues : ¬ LineStopsAt source (blanksEnd source stop))
      (result : lineExtent source start stop = (start, blanksEnd source stop))
  | other (within : ¬ LineBeginsAt source (blanksBegin source start))
      (result : lineExtent source start stop = (blanksBegin source start, stop))

/-- The range to delete takes one of three things. -/
theorem extent_case (hstart : start ≤ source.length) (hstop : stop ≤ source.length) :
    ExtentCase source start stop := by
  have hbegins := ends_in_indentation_iff hstart
  have hstops := begins_with_line_end_iff hstop
  have hterminator : terminatorLength ((source.drop stop).dropWhile IsBlankByte) =
      terminatorLength (source.drop (blanksEnd source stop)) := by
    rw [drop_while_blank, List.drop_drop]
    rfl
  by_cases hopens : EndsInIndentation (source.take start)
  · by_cases hcloses : BeginsWithLineEnd (source.drop stop)
    · refine .whole (hbegins.mp hopens) (hstops.mp hcloses) ?_
      unfold lineExtent
      rw [if_pos ⟨hopens, hcloses⟩, hterminator]
      rfl
    · refine .opening (hbegins.mp hopens) (fun hends => hcloses (hstops.mpr hends)) ?_
      unfold lineExtent
      rw [if_neg fun hboth => hcloses hboth.2, if_pos hopens]
      rfl
  · refine .other (fun hfeed => hopens (hbegins.mpr hfeed)) ?_
    unfold lineExtent
    rw [if_neg fun hboth => hopens hboth.1, if_neg hopens]
    rfl

/-! ## What is left of the lines -/

/-- How the lines of a source without a range are made of those before and behind a statement in the
range: the line of the statement is gone, which held blanks alone besides it; or what is left of
this line is one line, and only bytes at the edges of the statement were taken. -/
inductive LinesLeft (source : Bytes) (start stop s e : Nat) : Prop where
  | line (above below : List Bytes) (before after : Bytes)
      (front : lines (source.take start) = above ++ [before])
      (back : lines (source.drop stop) = after :: below)
      (blank : ∀ c ∈ before ++ after, IsBlankByte c)
      (result : lines (source.take s ++ source.drop e) = above ++ below)
  | part (above below : List Bytes) (left right : Bytes)
      (front : lines (source.take start) = above ++ [left ++ source.slice s start])
      (back : lines (source.drop stop) = (source.slice stop e ++ right) :: below)
      (result : lines (source.take s ++ source.drop e) = above ++ (left ++ right) :: below)

/-- The bytes between two offsets with blanks alone between them are blanks. -/
theorem blank_of_mem_slice (h : BlankBetween source i j) :
    ∀ c ∈ source.slice i j, IsBlankByte c := by
  intro c hc
  obtain ⟨k, hk, hget⟩ := List.mem_iff_getElem.mp hc
  have hlength : k < j - i := Nat.lt_of_lt_of_le hk (List.length_take_le _ _)
  obtain ⟨d, hd, hblank⟩ := h (i + k) (Nat.le_add_right i k) (by omega)
  have hsource : (source.slice i j)[k]? = source[i + k]? := by
    rw [Bytes.slice, List.getElem?_take_of_lt hlength, List.getElem?_drop]
  obtain rfl : c = d := by
    rw [List.getElem?_eq_getElem hk, hget] at hsource
    exact Option.some.inj (hsource.trans hd)
  exact hblank

/-- Blanks are one line. -/
theorem lines_of_blanks (h : BlankBetween source i j) :
    lines (source.slice i j) = [source.slice i j] := by
  refine lines_of_plain fun c hc => ?_
  rcases blank_of_mem_slice h c hc with rfl | rfl <;> decide

/-- What begins with a blank, if it is not empty, does not begin with a line feed. -/
theorem head_of_blanks (h : BlankBetween source i j) :
    (source.slice i j).head? ≠ some Bytes.lineFeed := by
  intro hfeed
  have hblank := blank_of_mem_slice h _ (List.mem_of_mem_head? hfeed)
  exact absurd hblank (by decide)

/-- Blanks do not end with a carriage return. -/
theorem return_behind_blanks (h : BlankBetween source i j) :
    returnBehind false (source.slice i j) = false := by
  rcases List.eq_nil_or_concat' (source.slice i j) with hnil | ⟨front, c, hconcat⟩
  · rw [hnil]
    rfl
  · have hblank := blank_of_mem_slice h c (by rw [hconcat]; simp)
    rw [hconcat, return_behind_concat]
    rcases hblank with rfl | rfl <;> rfl

/-- The lines of the source behind blanks go on from these. -/
theorem lines_drop_of_blanks (hle : i ≤ j) (h : BlankBetween source i j) {after : Bytes}
    {below : List Bytes} (hdrop : lines (source.drop j) = after :: below) :
    lines (source.drop i) = (source.slice i j ++ after) :: below := by
  have hblanks : lines (source.slice i j) = [] ++ [source.slice i j] := lines_of_blanks h
  rw [drop_eq_slice_append hle]
  exact lines_append (.inl (return_behind_blanks h)) hblanks hdrop

/-- The lines of the source before blanks are ended by these. -/
theorem lines_take_of_blanks (hle : i ≤ j) (h : BlankBetween source i j) {before : Bytes}
    {above : List Bytes} (htake : lines (source.take i) = above ++ [before]) :
    lines (source.take j) = above ++ [before ++ source.slice i j] := by
  rw [← take_append_slice hle]
  exact lines_append (.inr (head_of_blanks h)) htake (lines_of_blanks h)

/-- Behind the end of a line the next one begins. -/
theorem IsLineEnd.lines_drop (h : IsLineEnd source i j) :
    lines (source.drop i) = [] :: lines (source.drop j) := by
  unfold lines
  cases h with
  | lineFeed first stop =>
      obtain ⟨hlt, hfirst⟩ := List.getElem?_eq_some_iff.mp first
      rw [List.drop_eq_getElem_cons hlt, hfirst, lines_from_feed, stop]
      rfl
  | carriageReturn first alone stop =>
      obtain ⟨hlt, hfirst⟩ := List.getElem?_eq_some_iff.mp first
      rw [List.drop_eq_getElem_cons hlt, hfirst, lines_from_return, stop, lines_from_behind]
      · rfl
      · rwa [List.head?_drop]
  | both first second stop =>
      obtain ⟨hlt, hfirst⟩ := List.getElem?_eq_some_iff.mp first
      obtain ⟨hnext, hsecond⟩ := List.getElem?_eq_some_iff.mp second
      rw [List.drop_eq_getElem_cons hlt, hfirst, lines_from_return,
        List.drop_eq_getElem_cons hnext, hsecond, lines_from_feed, stop]
      rfl

/-- Where a line begins, the last line before is empty, and its end is no carriage return. -/
theorem LineBeginsAt.lines_take (h : LineBeginsAt source i) (hle : i ≤ source.length) :
    (∃ above, lines (source.take i) = above ++ [[]]) ∧
      returnBehind false (source.take i) = false := by
  rcases h with rfl | hfeed
  · exact ⟨⟨[], rfl⟩, rfl⟩
  · rcases Nat.eq_zero_or_pos i with rfl | hpos
    · exact ⟨⟨[], rfl⟩, rfl⟩
    · have hsplit : source.take i = source.take (i - 1) ++ [Bytes.lineFeed] := by
        have hone : i = i - 1 + 1 := by omega
        rw [hone, List.take_add_one, Nat.add_sub_cancel, hfeed]
        rfl
      rw [hsplit]
      refine ⟨last_line_of_terminator (.inr rfl) _, ?_⟩
      rw [return_behind_concat]
      rfl

/-- A whole line that is taken is gone from the lines. Without an end of its own it leaves an empty
last line. -/
theorem lines_left_of_whole (hstart : start ≤ source.length)
    (hbegins : LineBeginsAt source (blanksBegin source start))
    (hstops : LineStopsAt source (blanksEnd source stop)) :
    LinesLeft source start stop (blanksBegin source start)
      (blanksEnd source stop + terminatorLength (source.drop (blanksEnd source stop))) := by
  have hbegin := blanks_begin_le source start
  have hend := le_blanks_end source stop
  have hbefore := blank_between_begin hstart
  have hafter := blank_between_end source stop
  obtain ⟨⟨above, habove⟩, hnone⟩ := hbegins.lines_take (Nat.le_trans hbegin hstart)
  have hfront := lines_take_of_blanks hbegin hbefore habove
  rcases line_end_of_stop hstops with ⟨hlast, hsame⟩ | hends
  · have hdrop : lines (source.drop (blanksEnd source stop)) = [[]] := by
      rw [hlast, List.drop_length]
      rfl
    rw [hsame]
    exact .part above [] [] [] hfront (lines_drop_of_blanks hend hafter hdrop)
      (lines_append (.inl hnone) habove hdrop)
  · obtain ⟨after, below, hbelow⟩ := exists_first_line
      (source.drop (blanksEnd source stop + terminatorLength (source.drop (blanksEnd source stop))))
    refine .line above (after :: below) _ _ hfront
      (lines_drop_of_blanks hend hafter (hbelow ▸ hends.lines_drop)) ?_
      (lines_append (.inl hnone) habove hbelow)
    intro c hc
    rw [List.nil_append, List.append_nil] at hc
    rcases List.mem_append.mp hc with hc | hc
    · exact blank_of_mem_slice hbefore c hc
    · exact blank_of_mem_slice hafter c hc

/-- Taking the blanks behind a statement that opens a line keeps the lines. -/
theorem lines_left_of_opening (hstart : start ≤ source.length)
    (hbegins : LineBeginsAt source (blanksBegin source start)) :
    LinesLeft source start stop start (blanksEnd source stop) := by
  have hbegin := blanks_begin_le source start
  have hend := le_blanks_end source stop
  have hbefore := blank_between_begin hstart
  have hnone : returnBehind false (source.take start) = false := by
    rw [← take_append_slice hbegin, returnBehind, List.foldl_append]
    show returnBehind (returnBehind false (source.take (blanksBegin source start))) _ = false
    rw [(hbegins.lines_take (Nat.le_trans hbegin hstart)).2]
    exact return_behind_blanks hbefore
  obtain ⟨above, left, hfront⟩ := exists_last_line (source.take start)
  obtain ⟨right, below, hdrop⟩ := exists_first_line (source.drop (blanksEnd source stop))
  refine .part above below left right ?_
    (lines_drop_of_blanks hend (blank_between_end source stop) hdrop)
    (lines_append (.inl hnone) hfront hdrop)
  rw [Bytes.slice_of_le source (Nat.le_refl start), List.append_nil, hfront]

/-- Taking the blanks before a statement keeps the lines, except where these were all that stood
between a carriage return and a line feed. -/
theorem lines_left_of_other (hstart : start ≤ source.length) :
    LinesLeft source start stop (blanksBegin source start) stop := by
  have hbegin := blanks_begin_le source start
  have hbefore := blank_between_begin hstart
  obtain ⟨above, left, htake⟩ := exists_last_line (source.take (blanksBegin source start))
  have hfront := lines_take_of_blanks hbegin hbefore htake
  by_cases hfeed : (source.drop stop).head? = some Bytes.lineFeed
  · cases hbehind : returnBehind false (source.take (blanksBegin source start)) with
    | false =>
        obtain ⟨right, below, hback⟩ := exists_first_line (source.drop stop)
        refine .part above below left right hfront ?_ (lines_append (.inl hbehind) htake hback)
        rw [Bytes.slice_of_le source (Nat.le_refl stop), List.nil_append, hback]
    | true =>
        -- The carriage return and the line feed come to be the end of one line.
        obtain ⟨front, hconcat⟩ := eq_concat_of_return_behind hbehind
        obtain ⟨above', habove⟩ := last_line_of_return front
        rw [← hconcat] at habove
        obtain ⟨rfl, hleft⟩ := List.append_inj' (htake.symm.trans habove) rfl
        obtain rfl : left = [] := (List.cons.inj hleft).1
        obtain ⟨rest, hrest⟩ := List.head?_eq_some_iff.mp hfeed
        obtain ⟨after, below, hbelow⟩ := exists_first_line rest
        refine .line above (after :: below) _ [] hfront ?_ ?_ ?_
        · rw [hrest, lines, lines_from_feed]
          exact congrArg ([] :: ·) hbelow
        · rw [List.nil_append, List.append_nil]
          exact blank_of_mem_slice hbefore
        · rw [hrest, lines, lines_from_append, hbehind, lines_from_feed, if_pos rfl]
          have hfirst : linesFrom false (source.take (blanksBegin source start)) = above ++ [[]] :=
            htake
          have hsecond : linesFrom false rest = after :: below := hbelow
          rw [hfirst, hsecond]
          exact join_lines_eq
  · obtain ⟨right, below, hback⟩ := exists_first_line (source.drop stop)
    refine .part above below left right hfront ?_ (lines_append (.inr hfeed) htake hback)
    rw [Bytes.slice_of_le source (Nat.le_refl stop), List.nil_append, hback]

/-! ## The range to delete -/

/-- The range from `s` up to `e` is the right one to delete for a statement. It takes blanks before
the statement, and blanks and at most one line end behind it, all in the source. If the statement
stands on a line with blanks alone, the range is this line with its end, if it has one. Else it
takes no line end, but all blanks behind the statement if this opens its line, and all blanks before
it if not. The lines above and below stay as they are. -/
structure TightExtent (source : Bytes) (start stop s e : Nat) : Prop where
  start_le : s ≤ start
  le_stop : stop ≤ e
  le_length : e ≤ source.length
  before : BlankBetween source s start
  behind : ∃ c, stop ≤ c ∧ BlankBetween source stop c ∧ (e = c ∨ IsLineEnd source c e)
  whole : ∀ b c, OpensLine source b start → ClosesLine source stop c →
    s = b ∧ (c = source.length ∧ e = c ∨ IsLineEnd source c e)
  part : (¬ ∃ b c, OpensLine source b start ∧ ClosesLine source stop c) →
    BlankBetween source stop e ∧
      ((∃ b, OpensLine source b start) ∧ s = start ∧ ¬ IsBlankAt source e ∨
        (¬ ∃ b, OpensLine source b start) ∧ e = stop ∧ (s = 0 ∨ ¬ IsBlankAt source (s - 1)))
  lines : LinesLeft source start stop s e

/-- No bytes are blanks. -/
theorem blank_between_self (source : Bytes) (i : Nat) : BlankBetween source i i := by
  intro k hfirst hlast
  omega

/-- For a statement on a line with blanks alone the whole line is the right range. -/
theorem tight_of_whole (hstart : start ≤ source.length)
    (hbegins : LineBeginsAt source (blanksBegin source start))
    (hstops : LineStopsAt source (blanksEnd source stop)) :
    TightExtent source start stop (blanksBegin source start)
      (blanksEnd source stop + terminatorLength (source.drop (blanksEnd source stop))) := by
  have hend := le_blanks_end source stop
  have hline := line_end_of_stop hstops
  refine ⟨blanks_begin_le source start, Nat.le_trans hend (Nat.le_add_right _ _), ?_,
    blank_between_begin hstart, ⟨_, hend, blank_between_end source stop, hline.imp_left And.right⟩,
    fun b c hb hc => ⟨(hb.eq_begin hstart).symm, hc.eq_end ▸ hline⟩, fun hnot => ?_,
    lines_left_of_whole hstart hbegins hstops⟩
  · rcases hline with ⟨hlast, hnone⟩ | hends
    · rw [hnone]
      exact Nat.le_of_eq hlast
    · exact hends.le_length
  · exact absurd ⟨_, _, opens_line_of_begins hstart hbegins, closes_line_of_stops hstops⟩ hnot

/-- For a statement that opens a line shared with others the right range goes over the blanks
behind. -/
theorem tight_of_opening (hstart : start ≤ source.length) (hstop : stop ≤ source.length)
    (hbegins : LineBeginsAt source (blanksBegin source start))
    (hcontinues : ¬ LineStopsAt source (blanksEnd source stop)) :
    TightExtent source start stop start (blanksEnd source stop) := by
  have hend := le_blanks_end source stop
  have hbehind := blank_between_end source stop
  refine ⟨Nat.le_refl _, hend, blanks_end_le hstop, blank_between_self source start,
    ⟨_, hend, hbehind, .inl rfl⟩, fun b c _ hc => ?_, fun _ => ⟨hbehind, .inl ⟨?_, rfl, ?_⟩⟩,
    lines_left_of_opening hstart hbegins⟩
  · exact absurd (hc.eq_end ▸ hc.stops) hcontinues
  · exact ⟨_, opens_line_of_begins hstart hbegins⟩
  · exact not_blank_at_end source stop

/-- For another statement the right range goes over the blanks before. -/
theorem tight_of_other (hstart : start ≤ source.length) (hstop : stop ≤ source.length)
    (hwithin : ¬ LineBeginsAt source (blanksBegin source start)) :
    TightExtent source start stop (blanksBegin source start) stop := by
  have hnone : ¬ ∃ b, OpensLine source b start := by
    rintro ⟨b, hb⟩
    exact hwithin (hb.eq_begin hstart ▸ hb.begins)
  have hnothing := blank_between_self source stop
  refine ⟨blanks_begin_le source start, Nat.le_refl _, hstop, blank_between_begin hstart,
    ⟨stop, Nat.le_refl _, hnothing, .inl rfl⟩, fun b c hb _ => ?_,
    fun _ => ⟨hnothing, .inr ⟨hnone, rfl, not_blank_before_begin hstart⟩⟩,
    lines_left_of_other hstart⟩
  exact absurd ⟨b, hb⟩ hnone

/-- The range to delete for a statement in the source is the right one. -/
theorem line_extent_tight (source : Bytes) (start stop : Nat) (horder : start ≤ stop)
    (hstop : stop ≤ source.length) :
    TightExtent source start stop (lineExtent source start stop).1
      (lineExtent source start stop).2 := by
  have hstart : start ≤ source.length := Nat.le_trans horder hstop
  cases extent_case hstart hstop with
  | whole begins stops result =>
      rw [result]
      exact tight_of_whole hstart begins stops
  | opening begins continues result =>
      rw [result]
      exact tight_of_opening hstart hstop begins continues
  | other within result =>
      rw [result]
      exact tight_of_other hstart hstop within

/-- A call alone on the second of three lines goes with its indentation and its line end. -/
theorem call_line_taken :
    lineExtent (Bytes.ofText "a;\n  b(); \r\nc") 5 9 = (3, 12) ∧
      TightExtent (Bytes.ofText "a;\n  b(); \r\nc") 5 9 3 12 := by
  have hresult : lineExtent (Bytes.ofText "a;\n  b(); \r\nc") 5 9 = (3, 12) := by decide +kernel
  have htight := line_extent_tight (Bytes.ofText "a;\n  b(); \r\nc") 5 9 (by decide)
    (by decide +kernel)
  rw [hresult] at htight
  exact ⟨hresult, htight⟩

end Excise
