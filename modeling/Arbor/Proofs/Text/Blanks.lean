import Arbor.Proofs.Text.Lines
import Arbor.Proofs.Word.Text
import Mathlib.Data.List.DropRight

/-!
# Blanks of a text

A text is the trimmed text with blanks around it (`Text.exists_blank_around`), and blanks around a text
make no difference to what is left of it (`Text.trimmed_blank_append`, `Text.trimmed_append_blank`). A
line end is a blank, so what blanks may be cut off may stretch over lines, and a text of one line and
blank lines after it is trimmed to what the line is trimmed to (`Text.exists_rest_of_lines`).
-/

namespace Arbor.Text

/-- There is nothing but blanks. -/
def Blank (cs : List Char) : Prop := ∀ c ∈ cs, isBlank c = true

variable {a b cs : List Char} {c : Char}

/-- Blank texts are blank together. -/
theorem Blank.append (ha : Blank a) (hb : Blank b) : Blank (a ++ b) := by
  intro c hc
  rcases List.mem_append.1 hc with hc | hc
  · exact ha c hc
  · exact hb c hc

theorem blank_cons_iff : Blank (c :: cs) ↔ isBlank c = true ∧ Blank cs := List.forall_mem_cons

/-- Line ends are blank. -/
theorem isBlank_of_isLineEnd (h : isLineEnd c = true) : isBlank c = true := by
  simp only [isLineEnd, isBlank, Bool.or_eq_true, Bool.and_eq_true, decide_eq_true_eq] at h ⊢
  omega

/-! ### Trimming -/

/-- Blanks in front are trimmed away. -/
theorem trimmed_blank_append (h : Blank b) (cs : List Char) : trimmed (b ++ cs) = trimmed cs := by
  rw [trimmed, List.dropWhile_append_of_pos h]
  rfl

/-- Blanks at the end are trimmed away. -/
theorem trimmed_append_blank (h : Blank b) (cs : List Char) : trimmed (cs ++ b) = trimmed cs := by
  rw [trimmed, trimmed, List.dropWhile_append]
  split
  · next hall =>
    rw [List.isEmpty_iff.1 hall, List.dropWhile_eq_nil_iff.2 h]
  · rw [List.reverse_append, List.dropWhile_append_of_pos]
    exact fun c hc => h c (List.mem_reverse.1 hc)

/-- **A text is the trimmed text with blanks around it.** -/
theorem exists_blank_around (cs : List Char) :
    ∃ before after, Blank before ∧ Blank after ∧ cs = before ++ trimmed cs ++ after := by
  refine ⟨cs.takeWhile isBlank, (cs.dropWhile isBlank).rtakeWhile isBlank, fun c hc => ?_,
    fun c hc => List.mem_rtakeWhile_imp hc, ?_⟩
  · exact List.mem_takeWhile_imp hc
  · have htrimmed : trimmed cs = (cs.dropWhile isBlank).rdropWhile isBlank := rfl
    rw [htrimmed, List.append_assoc, List.rdropWhile_append_rtakeWhile,
      List.takeWhile_append_dropWhile]

/-- Nothing is left of a blank text, and of no other. -/
theorem trimmed_eq_nil_iff : trimmed cs = [] ↔ Blank cs := by
  constructor
  · intro h
    obtain ⟨before, after, hbefore, hafter, hcs⟩ := exists_blank_around cs
    rw [hcs, h, List.append_nil]
    exact hbefore.append hafter
  · intro h
    have hnil := trimmed_append_blank h []
    rwa [List.nil_append] at hnil

/-- There is no blank at the ends of a trimmed text. -/
theorem bare_trimmed (cs : List Char) : Bare (trimmed cs) := by
  have htrimmed : trimmed cs = (cs.dropWhile isBlank).rdropWhile isBlank := rfl
  constructor
  · intro c hc
    -- the first character of a part that ends earlier is the first of the whole
    rw [htrimmed] at hc
    obtain ⟨after, hafter⟩ := List.rdropWhile_prefix isBlank (l := cs.dropWhile isBlank)
    have hhead : (cs.dropWhile isBlank).head? = some c := by
      rw [← hafter, List.head?_append, hc, Option.some_or]
    simpa [hhead] using List.head?_dropWhile_not isBlank cs
  · intro c hc
    rw [htrimmed] at hc
    have hne := List.ne_nil_of_mem (List.mem_of_getLast? hc)
    have hlast := List.rdropWhile_last_not isBlank (cs.dropWhile isBlank) hne
    rw [List.getLast?_eq_some_getLast hne] at hc
    rw [Option.some.inj hc] at hlast
    simpa using hlast

/-- What stands between two characters that are no blanks is not trimmed. -/
theorem mem_trimmed (ha : ¬ Blank a) (hb : ¬ Blank b) : c ∈ trimmed (a ++ c :: b) := by
  obtain ⟨before, mid, hbefore, -, hsplit⟩ := exists_blank_around a
  obtain ⟨mid', after, -, hafter, hsplit'⟩ := exists_blank_around b
  have hmiddle : Bare (trimmed a ++ (mid ++ c :: mid') ++ trimmed b) := by
    -- what the trimmed parts have between them begins and ends where they do, with no blank
    constructor
    · intro d hd
      rw [List.append_assoc, List.head?_append_of_ne_nil _ (mt trimmed_eq_nil_iff.1 ha)] at hd
      exact (bare_trimmed a).1 d hd
    · intro d hd
      rw [List.getLast?_append_of_ne_nil _ (mt trimmed_eq_nil_iff.1 hb)] at hd
      exact (bare_trimmed b).2 d hd
  have heq : a ++ c :: b = before ++ ((trimmed a ++ (mid ++ c :: mid') ++ trimmed b) ++ after) := by
    conv_lhs => rw [hsplit, hsplit']
    simp
  rw [heq, trimmed_blank_append hbefore, trimmed_append_blank hafter, hmiddle.trimmed_eq]
  simp

/-! ### Lines -/

/-- The lines of a text are blank if the text is. -/
theorem blank_splitLines_iff : (∀ line ∈ splitLines cs, Blank line) ↔ Blank cs := by
  induction cs using splitLines.induct with
  | case1 => simp [Blank]
  | case2 cs ih =>
    -- a pair of line ends, which is blank
    rw [splitLines_return_lineFeed, List.forall_mem_cons, ih]
    simp [Blank, isBlank]
  | case3 c cs hpair hend ih =>
    rw [splitLines_cons_of_lineEnd hend (fun cs' hc hcs => hpair cs' hc hcs), List.forall_mem_cons,
      ih, blank_cons_iff]
    simp [Blank, isBlank_of_isLineEnd hend]
  | case4 c cs hpair hend hnil ih =>
    have hc : isLineEnd c = false := by simpa using hend
    obtain rfl := splitLines_eq_nil_iff.1 hnil
    simp [splitLines_cons_of_not_lineEnd hc, Blank]
  | case5 c cs hpair hend line rest hlines ih =>
    have hc : isLineEnd c = false := by simpa using hend
    rw [hlines, List.forall_mem_cons] at ih
    rw [splitLines_cons_of_not_lineEnd hc, hlines, List.forall_mem_cons, blank_cons_iff,
      blank_cons_iff, ← ih, List.headD_cons, List.tail_cons, and_assoc]

/-- The first line of a text, and what stands after it: nothing, or a line end and the other lines,
which are blank if what stands there is. -/
theorem exists_rest_of_splitLines (cs : List Char) :
    ∃ rest, cs = (splitLines cs).headD [] ++ rest ∧ (∀ c ∈ rest.head?, isLineEnd c = true) ∧
      ((∀ line ∈ (splitLines cs).tail, Blank line) ↔ Blank rest) := by
  induction cs with
  | nil => exact ⟨[], by simp [Blank]⟩
  | cons c cs ih =>
    cases hc : isLineEnd c with
    | true =>
      -- the text begins with a line end, so that its first line is empty
      obtain ⟨others, hlines⟩ := exists_splitLines_cons hc cs
      refine ⟨c :: cs, by rw [hlines]; rfl, by simpa using hc, ?_⟩
      rw [← blank_splitLines_iff, hlines, List.forall_mem_cons]
      simp [Blank]
    | false =>
      obtain ⟨rest, hcs, hrest, hblank⟩ := ih
      refine ⟨rest, ?_, hrest, ?_⟩
      · rw [splitLines_cons_of_not_lineEnd hc, List.headD_cons, List.cons_append, ← hcs]
      · rw [splitLines_cons_of_not_lineEnd hc, List.tail_cons]
        exact hblank

/-- The first line of a text. -/
def firstLine (s : String) : List Char := (splitLines s.toList).headD []

/-- The same for whole texts. -/
theorem trim_eq_empty_iff {s : String} : trim s = "" ↔ Blank s.toList := by
  rw [trim, ← trimmed_eq_nil_iff]
  simp

/-- The lines of a text after its first are blank if what stands there is. -/
theorem exists_rest_of_lines (s : String) :
    ∃ rest, s.toList = firstLine s ++ rest ∧ (∀ c ∈ rest.head?, isLineEnd c = true) ∧
      ((∀ line ∈ (lines s).tail, trim line = "") ↔ Blank rest) := by
  obtain ⟨rest, hsplit, hhead, hblank⟩ := exists_rest_of_splitLines s.toList
  refine ⟨rest, hsplit, hhead, ?_⟩
  rw [← hblank, lines, ← List.map_tail]
  simp only [List.forall_mem_map, trim_eq_empty_iff, String.toList_ofList]

end Arbor.Text
