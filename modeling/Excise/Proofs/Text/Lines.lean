import Excise.Edit.Line
import Mathlib.Data.List.Basic

/-!
# The lines of a source

A line ends with a line feed, a carriage return, or both in turn. `lines` gives the lines without
these, one more than there are line ends. Where two stretches of source meet, the last line of the
first one and the first line of the second one become one line (`lines_append`); but a line feed
behind a carriage return ends no further line, so whether the first stretch ends with a carriage
return counts for the second one.
-/

namespace Excise

/-- The lines of a stretch of source, given whether a carriage return stands before it. -/
def linesFrom (behindReturn : Bool) : Bytes → List Bytes
  | [] => [[]]
  | c :: rest =>
      if c = Bytes.carriageReturn then [] :: linesFrom true rest
      else if c = Bytes.lineFeed then
        if behindReturn then linesFrom false rest else [] :: linesFrom false rest
      else (linesFrom false rest).modifyHead (c :: ·)

/-- The lines of a source without their ends. -/
def lines (source : Bytes) : List Bytes := linesFrom false source

/-- A carriage return stands before what follows a stretch of source. -/
def returnBehind (behindReturn : Bool) (stretch : Bytes) : Bool :=
  stretch.foldl (fun _ c => c = Bytes.carriageReturn) behindReturn

/-- Put lines after others, of which the last is continued by the first of these. -/
def joinLines : List Bytes → List Bytes → List Bytes
  | [], below => below
  | [last], below => below.modifyHead (last ++ ·)
  | first :: next :: above, below => first :: joinLines (next :: above) below

variable {c : UInt8} {rest front back stretch before after : Bytes} {above below : List Bytes}

/-! ## One byte -/

/-- A carriage return ends a line. -/
theorem lines_from_return (behindReturn : Bool) (rest : Bytes) :
    linesFrom behindReturn (Bytes.carriageReturn :: rest) = [] :: linesFrom true rest := by
  rw [linesFrom, if_pos rfl]

/-- A line feed ends a line, unless a carriage return before it has. -/
theorem lines_from_feed (behindReturn : Bool) (rest : Bytes) :
    linesFrom behindReturn (Bytes.lineFeed :: rest) =
      if behindReturn then linesFrom false rest else [] :: linesFrom false rest := by
  rw [linesFrom, if_neg (by decide), if_pos rfl]

/-- Another byte belongs to the line. -/
theorem lines_from_plain (h : ¬ IsTerminatorByte c) (behindReturn : Bool) (rest : Bytes) :
    linesFrom behindReturn (c :: rest) = (linesFrom false rest).modifyHead (c :: ·) := by
  rw [linesFrom, if_neg fun hreturn => h (.inl hreturn), if_neg fun hfeed => h (.inr hfeed)]

/-- A carriage return before a source counts only if it begins with a line feed. -/
theorem lines_from_behind (h : rest.head? ≠ some Bytes.lineFeed) (behindReturn : Bool) :
    linesFrom behindReturn rest = lines rest := by
  cases rest with
  | nil => rfl
  | cons c rest =>
      have hfeed : c ≠ Bytes.lineFeed := fun heq => h (heq ▸ rfl)
      unfold lines
      rw [linesFrom, linesFrom]
      by_cases hreturn : c = Bytes.carriageReturn
      · rw [if_pos hreturn, if_pos hreturn]
      · rw [if_neg hreturn, if_neg hfeed, if_neg hreturn, if_neg hfeed]

/-- There is a line. -/
theorem lines_from_ne_nil (behindReturn : Bool) (source : Bytes) :
    linesFrom behindReturn source ≠ [] := by
  induction source generalizing behindReturn with
  | nil => exact List.cons_ne_nil _ _
  | cons c rest ih =>
      by_cases hreturn : c = Bytes.carriageReturn
      · rw [hreturn, lines_from_return]
        exact List.cons_ne_nil _ _
      · by_cases hfeed : c = Bytes.lineFeed
        · rw [hfeed, lines_from_feed]
          split
          · exact ih false
          · exact List.cons_ne_nil _ _
        · rw [lines_from_plain (not_or.mpr ⟨hreturn, hfeed⟩)]
          intro hnil
          exact ih false (List.modifyHead_eq_nil_iff.mp hnil)

/-! ## Stretches of source -/

/-- Lines that go on below keep the first one where it is. -/
theorem join_lines_cons (h : above ≠ []) (first : Bytes) :
    joinLines (first :: above) below = first :: joinLines above below := by
  cases above with
  | nil => exact absurd rfl h
  | cons next above => rfl

/-- A byte before the first line stays there. -/
theorem join_lines_modify_head (h : above ≠ []) (c : UInt8) :
    joinLines (above.modifyHead (c :: ·)) below = (joinLines above below).modifyHead (c :: ·) := by
  cases above with
  | nil => exact absurd rfl h
  | cons first above =>
      rw [List.modifyHead_cons]
      cases above with
      | nil =>
          show below.modifyHead ((c :: first) ++ ·) =
            (below.modifyHead (first ++ ·)).modifyHead (c :: ·)
          rw [List.modifyHead_modifyHead]
          rfl
      | cons next above =>
          rw [join_lines_cons (List.cons_ne_nil _ _), join_lines_cons (List.cons_ne_nil _ _),
            List.modifyHead_cons]

/-- The last line above and the first one below become one. -/
theorem join_lines_eq : joinLines (above ++ [before]) (after :: below) =
    above ++ (before ++ after) :: below := by
  induction above with
  | nil => rfl
  | cons first above ih =>
      rw [List.cons_append, join_lines_cons (by simp), ih, List.cons_append]

/-- The lines of two stretches of source, one behind the other. -/
theorem lines_from_append (behindReturn : Bool) (front back : Bytes) :
    linesFrom behindReturn (front ++ back) =
      joinLines (linesFrom behindReturn front)
        (linesFrom (returnBehind behindReturn front) back) := by
  induction front generalizing behindReturn with
  | nil =>
      show linesFrom behindReturn back = (linesFrom behindReturn back).modifyHead ([] ++ ·)
      cases linesFrom behindReturn back <;> rfl
  | cons c front ih =>
      have hbehind : returnBehind behindReturn (c :: front) =
          returnBehind (c = Bytes.carriageReturn) front := rfl
      rw [List.cons_append, hbehind]
      by_cases hreturn : c = Bytes.carriageReturn
      · subst hreturn
        rw [lines_from_return, lines_from_return, join_lines_cons (lines_from_ne_nil _ _), ih,
          decide_eq_true rfl]
      · rw [decide_eq_false hreturn]
        by_cases hfeed : c = Bytes.lineFeed
        · subst hfeed
          rw [lines_from_feed, lines_from_feed]
          split
          · exact ih false
          · rw [join_lines_cons (lines_from_ne_nil _ _), ih]
        · have hplain : ¬ IsTerminatorByte c := not_or.mpr ⟨hreturn, hfeed⟩
          rw [lines_from_plain hplain, lines_from_plain hplain,
            join_lines_modify_head (lines_from_ne_nil _ _), ih]

/-- The lines of two stretches of source of which the first does not end with a carriage return, or
the second does not begin with a line feed. -/
theorem lines_append (h : returnBehind false front = false ∨ back.head? ≠ some Bytes.lineFeed)
    (hfront : lines front = above ++ [before]) (hback : lines back = after :: below) :
    lines (front ++ back) = above ++ (before ++ after) :: below := by
  have hbehind : linesFrom (returnBehind false front) back = lines back := by
    rcases h with hnone | hplain
    · rw [hnone]
      rfl
    · exact lines_from_behind hplain _
  unfold lines at hfront ⊢
  rw [lines_from_append, hfront, hbehind, hback, join_lines_eq]

/-- A stretch without line ends is one line. -/
theorem lines_of_plain (h : ∀ c ∈ stretch, ¬ IsTerminatorByte c) : lines stretch = [stretch] := by
  induction stretch with
  | nil => rfl
  | cons c rest ih =>
      obtain ⟨hc, hrest⟩ := List.forall_mem_cons.mp h
      have hlines : linesFrom false rest = [rest] := ih hrest
      unfold lines
      rw [lines_from_plain hc, hlines]
      rfl

/-- Whether a carriage return stands behind is decided by the last byte. -/
theorem return_behind_concat (behindReturn : Bool) (front : Bytes) (c : UInt8) :
    returnBehind behindReturn (front ++ [c]) = decide (c = Bytes.carriageReturn) := by
  unfold returnBehind
  rw [List.foldl_append]
  rfl

/-- A stretch with a carriage return behind it ends with it. -/
theorem eq_concat_of_return_behind (h : returnBehind false stretch = true) :
    ∃ front, stretch = front ++ [Bytes.carriageReturn] := by
  rcases List.eq_nil_or_concat' stretch with rfl | ⟨front, c, rfl⟩
  · exact absurd h (by decide)
  · rw [return_behind_concat] at h
    exact ⟨front, by rw [of_decide_eq_true h]⟩

/-- A source has a last line. -/
theorem exists_last_line (source : Bytes) : ∃ above before, lines source = above ++ [before] :=
  (List.eq_nil_or_concat' (lines source)).resolve_left (lines_from_ne_nil false source)

/-- A source has a first line. -/
theorem exists_first_line (source : Bytes) : ∃ after below, lines source = after :: below :=
  List.exists_cons_of_ne_nil (lines_from_ne_nil false source)

/-- Behind a carriage return the last line is empty. -/
theorem last_line_of_return (front : Bytes) :
    ∃ above, lines (front ++ [Bytes.carriageReturn]) = above ++ [[]] := by
  obtain ⟨above, before, hfront⟩ := exists_last_line front
  refine ⟨above ++ [before ++ []], ?_⟩
  rw [lines_append (.inr (by decide)) hfront (lines_from_return false []), List.append_assoc]
  rfl

/-- Behind the end of a line the last line is empty. -/
theorem last_line_of_terminator (h : IsTerminatorByte c) (front : Bytes) :
    ∃ above, lines (front ++ [c]) = above ++ [[]] := by
  rcases h with rfl | rfl
  · exact last_line_of_return front
  · cases hbehind : returnBehind false front with
    | false =>
        obtain ⟨above, before, hfront⟩ := exists_last_line front
        refine ⟨above ++ [before ++ []], ?_⟩
        rw [lines_append (.inl hbehind) hfront (lines_from_feed false []), List.append_assoc]
        rfl
    | true =>
        -- The line feed only completes the line end that the carriage return before it began.
        obtain ⟨front, rfl⟩ := eq_concat_of_return_behind hbehind
        obtain ⟨above, habove⟩ := last_line_of_return front
        refine ⟨above, ?_⟩
        unfold lines at habove ⊢
        rw [lines_from_append, habove, hbehind, lines_from_feed, if_pos rfl]
        exact join_lines_eq

end Excise
