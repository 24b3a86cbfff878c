import Formula.Position
import Mathlib.Data.List.DropRight
import Mathlib.Data.Prod.Lex
import Mathlib.Order.Monotone.Defs

/-! # Lines and columns

A byte offset between characters of a text is looked up in a table of line beginnings.  What is
found is the place behind the characters before it (`locate_append`): its line counts the line ends
among them, and its column the characters behind the last line end.  So places are in the order of
reading, and no two are the same (`strictMonoOn_locate`).

The search in the table halves a range that keeps the last line beginning up to the offset
(`search_of_splits`).  That the table can be searched at all is what its entries are: one for each
line end, in order.
-/
namespace Formula

/-- The offset is between two characters of the text, or at one of its ends. -/
def IsBoundary (text : List Char) (offset : Nat) : Prop :=
  ∃ front back, text = front ++ back ∧ byteLength front = offset

/-- These are the offsets at which the bytes of the text can be cut so that both parts are texts. -/
theorem isBoundary_iff_isValid (source : String) (offset : Nat) :
    IsBoundary source.toList offset ↔ String.Pos.Raw.IsValid source ⟨offset⟩ := by
  rw [String.Pos.Raw.isValid_iff_exists_append]
  constructor
  · rintro ⟨front, back, htext, rfl⟩
    refine ⟨.ofList front, .ofList back, ?_, ?_⟩
    · rw [← String.ofList_append, ← htext, String.ofList_toList]
    · rw [String.Pos.Raw.ext_iff, String.byteIdx_rawEndPos, ← byteLength_toList,
        String.toList_ofList]
  · rintro ⟨front, back, rfl, hoffset⟩
    refine ⟨front.toList, back.toList, String.toList_append, ?_⟩
    rw [byteLength_toList, ← String.byteIdx_rawEndPos, ← hoffset]

namespace Position

/-- The place behind the characters that a text begins with. -/
def behind (front : List Char) : Position where
  line := 1 + front.count '\n'
  column := 1 + (front.rtakeWhile (· != '\n')).length
  offset := byteLength front

/-! ## The table of line beginnings -/

theorem lineStartsFrom_append (offset : Nat) (front back : List Char) :
    lineStartsFrom offset (front ++ back)
      = lineStartsFrom offset front ++ lineStartsFrom (offset + byteLength front) back := by
  induction front generalizing offset with
  | nil => rfl
  | cons c front ih =>
    rw [List.cons_append, lineStartsFrom, lineStartsFrom, ih, byteLength_cons, Nat.add_assoc]
    split <;> rfl

/-- There is a line beginning for each line end. -/
theorem length_lineStartsFrom (offset : Nat) (text : List Char) :
    (lineStartsFrom offset text).length = text.count '\n' := by
  induction text generalizing offset with
  | nil => rfl
  | cons c text ih =>
    rw [lineStartsFrom, List.count_cons]
    split <;> simp_all

theorem bounds_of_mem_lineStartsFrom {offset start : Nat} {text : List Char}
    (h : start ∈ lineStartsFrom offset text) :
    offset < start ∧ start ≤ offset + byteLength text := by
  induction text generalizing offset with
  | nil => cases h
  | cons c text ih =>
    have hsize := c.utf8Size_pos
    have hlater : start ∈ lineStartsFrom (offset + c.utf8Size) text →
        offset < start ∧ start ≤ offset + byteLength (c :: text) := by
      intro hmem
      have hbounds := ih hmem
      rw [byteLength_cons]
      omega
    rw [lineStartsFrom] at h
    split at h
    · rcases List.mem_cons.mp h with rfl | hmem
      · rw [byteLength_cons]
        omega
      · exact hlater hmem
    · exact hlater h

theorem pairwise_lineStartsFrom (offset : Nat) (text : List Char) :
    (lineStartsFrom offset text).Pairwise (· < ·) := by
  induction text generalizing offset with
  | nil => exact .nil
  | cons c text ih =>
    rw [lineStartsFrom]
    split
    · exact .cons (fun start hmem => (bounds_of_mem_lineStartsFrom hmem).1) (ih _)
    · exact ih _

/-- The last line begins behind the last line end. -/
theorem getLast?_lineStarts (front : List Char) :
    (0 :: lineStartsFrom 0 front).getLast?
      = some (byteLength (front.rdropWhile (· != '\n'))) := by
  induction front using List.reverseRecOn with
  | nil => rfl
  | append_singleton front c ih =>
    rw [lineStartsFrom_append, Nat.zero_add, lineStartsFrom, lineStartsFrom, List.rdropWhile_concat]
    by_cases hc : c = '\n'
    · rw [if_pos hc, if_neg (by simpa using hc), ← List.cons_append, List.getLast?_concat,
        byteLength_append]
      rfl
    · rw [if_neg hc, List.append_nil, ih, if_pos (by simpa using hc)]

/-! ## The search -/

/-- The table is in order, and its first `count` entries are those up to `x`. -/
structure Splits (table : Array Nat) (x count : Nat) : Prop where
  sorted : ∀ i j, (hij : i < j) → (hj : j < table.size) → table[i] < table[j]
  le_size : count ≤ table.size
  below : ∀ i, (hi : i < count) → table[i] ≤ x
  above : ∀ i, count ≤ i → (hi : i < table.size) → x < table[i]

section
variable {table : Array Nat} {x count : Nat} (h : Splits table x count)
include h

/-- **The search finds the last entry up to `x`**, as one that is `x` or in front of the place that
it reports, if that place is in the range. -/
theorem search_of_splits {low high : Nat} (hlow : low ≤ count) (hhigh : count ≤ high)
    (hsize : high ≤ table.size) :
    (∃ i, search table x low high = .ok i ∧ i + 1 = count) ∨
      search table x low high = .error count := by
  fun_induction search table x low high with
  | case1 low high hrange middle y hfound =>
    have hmiddle : middle < table.size := by omega
    have hy : table[middle] = x := by simpa [y, hmiddle] using hfound
    refine .inl ⟨middle, rfl, ?_⟩
    -- an entry that is `x` is one of the first, and those behind it are greater
    by_contra hne
    rcases Nat.lt_or_ge middle count with hlt | hge
    · have hnext := h.below (middle + 1) (by omega)
      have hsorted := h.sorted middle (middle + 1) (Nat.lt_succ_self _) (by omega)
      omega
    · have hgreater := h.above middle hge hmiddle
      omega
  | case2 low high hrange middle y hne hless ih =>
    have hmiddle : middle < table.size := by omega
    have hy : y = table[middle] := by simp [y, hmiddle]
    have hlt : middle < count := by
      by_contra hge
      have hgreater := h.above middle (by omega) hmiddle
      omega
    exact ih (by omega) hhigh hsize
  | case3 low high hrange middle y hne hless ih =>
    have hmiddle : middle < table.size := by omega
    have hy : y = table[middle] := by simp [y, hmiddle]
    have hge : count ≤ middle := by
      by_contra hlt
      have hup := h.below middle (by omega)
      omega
    exact ih hlow hge (by omega)
  | case4 low high hrange =>
    obtain rfl : low = count := by omega
    exact .inr rfl

theorem lineOf_of_splits : lineOf table x = count - 1 := by
  unfold lineOf
  rcases search_of_splits h (Nat.zero_le _) h.le_size (Nat.le_refl _) with ⟨i, hi, hcount⟩ | hnone
  · rw [hi, ← hcount]
    rfl
  · rw [hnone]

end

/-- The lines that begin in `front` are those that begin up to its end. -/
theorem splits_lineStarts (front back : List Char) :
    Splits (lineStarts (front ++ back)) (byteLength front) (front.count '\n' + 1) := by
  let first := 0 :: lineStartsFrom 0 front
  let later := lineStartsFrom (byteLength front) back
  have htable : lineStarts (front ++ back) = (first ++ later).toArray := by
    rw [lineStarts, lineStartsFrom_append, Nat.zero_add]
    rfl
  have hlength : first.length = front.count '\n' + 1 :=
    congrArg (· + 1) (length_lineStartsFrom 0 front)
  have hfirst : ∀ start ∈ first, start ≤ byteLength front := by
    intro start hmem
    rcases List.mem_cons.mp hmem with rfl | hmem
    · exact Nat.zero_le _
    · have hbounds := bounds_of_mem_lineStartsFrom hmem
      omega
  have hsorted : (first ++ later).Pairwise (· < ·) := by
    have hall := pairwise_lineStartsFrom 0 (front ++ back)
    rw [lineStartsFrom_append, Nat.zero_add] at hall
    refine .cons (fun start hmem => ?_) hall
    rcases List.mem_append.mp hmem with hmem | hmem
    · exact (bounds_of_mem_lineStartsFrom hmem).1
    · have hbounds := bounds_of_mem_lineStartsFrom hmem
      omega
  rw [htable, ← hlength]
  refine ⟨fun i j hij hj => ?_, by simp, fun i hi => ?_, fun i hi hi' => ?_⟩
  · exact List.pairwise_iff_getElem.mp hsorted i j _ _ hij
  · have hmem : first[i] ∈ first := List.getElem_mem hi
    simpa [hi] using hfirst _ hmem
  · have hlater : i - first.length < later.length := by
      simp at hi'
      omega
    have hmem : later[i - first.length] ∈ later := List.getElem_mem hlater
    have hgreater := (bounds_of_mem_lineStartsFrom hmem).1
    simpa [List.getElem_append_right hi] using hgreater

/-! ## Slices -/

theorem dropBytes?_append (front back : List Char) :
    dropBytes? (byteLength front) (front ++ back) = some back := by
  induction front with
  | nil =>
    cases back <;> rfl
  | cons c front ih =>
    obtain ⟨n, hn⟩ := Nat.exists_eq_succ_of_ne_zero (Nat.ne_of_gt c.utf8Size_pos)
    have hbytes : byteLength (c :: front) = n + byteLength front + 1 := by
      rw [byteLength_cons]
      omega
    rw [hbytes, List.cons_append, dropBytes?, if_pos (by omega)]
    exact (congrArg (dropBytes? · _) (by omega)).trans ih

theorem takeBytes?_append (front back : List Char) :
    takeBytes? (byteLength front) (front ++ back) = some front := by
  induction front with
  | nil =>
    cases back <;> rfl
  | cons c front ih =>
    obtain ⟨n, hn⟩ := Nat.exists_eq_succ_of_ne_zero (Nat.ne_of_gt c.utf8Size_pos)
    have hbytes : byteLength (c :: front) = n + byteLength front + 1 := by
      rw [byteLength_cons]
      omega
    have hrest : n + byteLength front + 1 - c.utf8Size = byteLength front := by omega
    rw [hbytes, List.cons_append, takeBytes?, if_pos (by omega), hrest, ih]
    rfl

/-- The slice between two places of a text is what stands between them. -/
theorem slice?_append (front middle back : List Char) :
    slice? (front ++ (middle ++ back)) (byteLength front) (byteLength (front ++ middle))
      = some middle := by
  rw [byteLength_append, slice?, if_pos (Nat.le_add_right _ _), dropBytes?_append,
    Nat.add_sub_cancel_left]
  exact takeBytes?_append middle back

/-! ## Places -/

/-- **The place of an offset is the place behind the characters in front of it.** -/
theorem locate_append (front back : List Char) :
    locate (front ++ back) (byteLength front) = behind front := by
  let before := front.rdropWhile (· != '\n')
  let line := front.rtakeWhile (· != '\n')
  have hfront : before ++ line = front := List.rdropWhile_append_rtakeWhile
  have hline : lineOf (lineStarts (front ++ back)) (byteLength front) = front.count '\n' :=
    lineOf_of_splits (splits_lineStarts front back)
  have hstart : (lineStarts (front ++ back))[front.count '\n']?.getD 0 = byteLength before := by
    have hlast := getLast?_lineStarts front
    rw [List.getLast?_eq_getElem?, List.length_cons, length_lineStartsFrom, Nat.add_sub_cancel]
      at hlast
    have hplace : front.count '\n' < (0 :: lineStartsFrom 0 front).length := by
      rw [List.length_cons, length_lineStartsFrom]
      exact Nat.lt_succ_self _
    rw [lineStarts, lineStartsFrom_append, List.getElem?_toArray, ← List.cons_append,
      List.getElem?_append_left hplace, hlast]
    rfl
  have hslice : slice? (front ++ back) (byteLength before) (byteLength front) = some line := by
    have hbetween := slice?_append before line back
    rwa [← List.append_assoc, hfront] at hbetween
  unfold locate
  dsimp only
  rw [hline, hstart, hslice]
  simp only [behind, line, Nat.add_comm]

/-- More characters lead to a later place: to a later line if a line ends among them, and else to a
later column. -/
theorem behind_lt (front : List Char) {more : List Char} (hmore : more ≠ []) :
    toLex ((behind front).line, (behind front).column)
      < toLex ((behind (front ++ more)).line, (behind (front ++ more)).column) := by
  rw [Prod.Lex.toLex_lt_toLex]
  by_cases hend : '\n' ∈ more
  · left
    have hcount := List.count_pos_iff.mpr hend
    simp only [behind, List.count_append]
    omega
  · right
    have hline : ∀ c ∈ more.reverse, (c != '\n') = true := by
      intro c hc
      have hne : c ≠ '\n' := by
        rintro rfl
        exact hend (List.mem_reverse.mp hc)
      simpa using hne
    have hcolumn : (front ++ more).rtakeWhile (· != '\n')
        = front.rtakeWhile (· != '\n') ++ more := by
      rw [List.rtakeWhile, List.reverse_append, List.takeWhile_append_of_pos hline,
        List.reverse_append, List.reverse_reverse]
      rfl
    have hpos := List.length_pos_iff.mpr hmore
    simp only [behind, List.count_append, List.count_eq_zero_of_not_mem hend, hcolumn,
      List.length_append]
    omega

/-- **Places follow each other as their offsets do**, line by line and in a line column by column;
so no two offsets have the same line and column. -/
theorem strictMonoOn_locate (source : List Char) :
    StrictMonoOn (fun offset => toLex ((locate source offset).line, (locate source offset).column))
      {offset | IsBoundary source offset} := by
  rintro _ ⟨front, back, rfl, rfl⟩ _ ⟨front', back', hsame, rfl⟩ hlt
  dsimp only
  obtain ⟨more, rfl⟩ : ∃ more, front' = front ++ more := by
    rcases List.append_eq_append_iff.mp hsame with ⟨more, hmore, -⟩ | ⟨more, hmore, -⟩
    · exact ⟨more, hmore⟩
    · rw [hmore, byteLength_append] at hlt
      omega
  have hmore : more ≠ [] := by
    rintro rfl
    simp at hlt
  rw [locate_append, hsame, locate_append]
  exact behind_lt front hmore

end Position
end Formula
