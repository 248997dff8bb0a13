import Arbor.Text.Blank

/-!
# Lines of a text

Which lines a text has that is put together from others. Two texts with a line feed between them have
the lines of both (`Text.lines_append`), where the first counts as a line even if it is empty. This
fails for a first text that ends in a line end: if it is a carriage return, then the line feed after
it belongs to it, and if it is another, then the line feed ends an empty line of its own. A text with
no line end in it is one line (`Text.lines_of_single`).
-/

namespace Arbor.Text

/-- Whether a text has no line end in it. -/
def Single (s : String) : Prop := ∀ c ∈ s.toList, isLineEnd c = false

instance (s : String) : Decidable (Single s) :=
  List.decidableBAll (fun c => isLineEnd c = false) s.toList

/-- Whether the last character of a text, if it has one, is no line end. -/
def Unfinished (s : String) : Prop := ∀ c ∈ s.toList.getLast?, isLineEnd c = false

instance (s : String) : Decidable (Unfinished s) :=
  Option.decidableForallMem s.toList.getLast?

/-! ### Lines as lists of characters -/

@[simp] theorem splitLines_nil : splitLines [] = [] := rfl

/-- A line feed closes a line. -/
@[simp] theorem splitLines_lineFeed (cs : List Char) :
    splitLines ('\n' :: cs) = [] :: splitLines cs := by
  rw [splitLines]
  · rfl
  · simp

/-- A carriage return and a line feed close one line. -/
@[simp] theorem splitLines_return_lineFeed (cs : List Char) :
    splitLines ('\r' :: '\n' :: cs) = [] :: splitLines cs := rfl

/-- A line end that is not half of a pair closes a line. -/
theorem splitLines_cons_of_lineEnd {c : Char} {cs : List Char} (h : isLineEnd c = true)
    (hpair : ∀ cs', c = '\r' → cs ≠ '\n' :: cs') : splitLines (c :: cs) = [] :: splitLines cs := by
  rw [splitLines, if_pos h]
  exact fun cs' hc hcs => hpair cs' hc hcs

/-- Before a line end at the start of a text there is an empty line. -/
theorem exists_splitLines_cons {c : Char} (h : isLineEnd c = true) (cs : List Char) :
    ∃ others, splitLines (c :: cs) = [] :: others := by
  by_cases hpair : ∃ cs', c = '\r' ∧ cs = '\n' :: cs'
  · obtain ⟨cs', rfl, rfl⟩ := hpair
    exact ⟨_, splitLines_return_lineFeed cs'⟩
  · exact ⟨_, splitLines_cons_of_lineEnd h fun cs' hc hcs => hpair ⟨cs', hc, hcs⟩⟩

/-- Any other character goes in front of the first line, which it opens if there is none. -/
theorem splitLines_cons_of_not_lineEnd {c : Char} (h : isLineEnd c = false) (cs : List Char) :
    splitLines (c :: cs) = (c :: (splitLines cs).headD []) :: (splitLines cs).tail := by
  rw [splitLines, if_neg (by simp [h])]
  · cases splitLines cs <;> rfl
  · rintro cs' rfl -
    exact absurd h (by decide)

/-- Only an empty text has none. -/
theorem splitLines_eq_nil_iff {cs : List Char} : splitLines cs = [] ↔ cs = [] := by
  constructor
  · intro h
    match cs with
    | [] => rfl
    | c :: cs =>
      rw [splitLines.eq_def] at h
      split at h
      · assumption
      · cases h
      · split at h
        · cases h
        · split at h <;> cases h
  · rintro rfl
    rfl

/-- The lines of a text that a line end follows. An empty text is then a line. -/
def closedLines (cs : List Char) : List (List Char) := if cs = [] then [[]] else splitLines cs

/-- A line feed after a text that does not end a line closes its last line. -/
theorem splitLines_append {a : List Char} (h : ∀ c ∈ a.getLast?, isLineEnd c = false)
    (b : List Char) : splitLines (a ++ '\n' :: b) = closedLines a ++ splitLines b := by
  -- induction along the characters, where a pair of line ends is one step
  induction a using splitLines.induct with
  | case1 => simp [closedLines]
  | case2 cs ih =>
    -- a text that ends in a pair of line ends ends a line
    cases cs with
    | nil => exact absurd (h '\n' rfl) (by decide)
    | cons d cs =>
      have hrest := ih (by simpa using h)
      simpa [closedLines] using hrest
  | case3 c cs hpair hend ih =>
    cases cs with
    | nil => exact absurd (h c rfl) (by simp [hend])
    | cons d cs =>
      have hrest := ih (by simpa using h)
      rw [closedLines, if_neg (by simp)] at hrest ⊢
      rw [List.cons_append, splitLines_cons_of_lineEnd hend, hrest,
        splitLines_cons_of_lineEnd hend, List.cons_append]
      · rintro cs' hc hcs
        exact hpair cs' hc hcs
      · -- the pair is not completed by the line feed, since the text goes on before it
        rintro cs' rfl hcs
        injection hcs with hd
        exact hpair cs rfl (by rw [hd])
  | case4 c cs hpair hend hnil ih =>
    obtain rfl := splitLines_eq_nil_iff.1 hnil
    have hc : isLineEnd c = false := by simpa using hend
    simp [closedLines, splitLines_cons_of_not_lineEnd hc]
  | case5 c cs hpair hend line rest hlines ih =>
    have hc : isLineEnd c = false := by simpa using hend
    -- the first line goes on in the rest
    cases cs with
    | nil => cases hlines
    | cons d cs =>
      have hrest := ih (by simpa using h)
      rw [closedLines, if_neg (by simp)] at hrest ⊢
      rw [List.cons_append, splitLines_cons_of_not_lineEnd hc, hrest,
        splitLines_cons_of_not_lineEnd hc, hlines]
      rfl

/-- A start with no line end in it goes in front of the first line. -/
theorem splitLines_append_of_single {a : List Char} (h : ∀ c ∈ a, isLineEnd c = false) (hne : a ≠ [])
    (b : List Char) :
    splitLines (a ++ b) = (a ++ (splitLines b).headD []) :: (splitLines b).tail := by
  induction a with
  | nil => exact absurd rfl hne
  | cons c a ih =>
    have hc := h c List.mem_cons_self
    rw [List.cons_append, splitLines_cons_of_not_lineEnd hc]
    cases a with
    | nil => rfl
    | cons d a =>
      rw [ih (fun e he => h e (List.mem_cons_of_mem c he)) (List.cons_ne_nil d a)]
      rfl

/-- A text without line ends is one line, or none if it is empty. -/
theorem splitLines_of_single {cs : List Char} (h : ∀ c ∈ cs, isLineEnd c = false) :
    splitLines cs = if cs = [] then [] else [cs] := by
  split
  · next hnil => rw [hnil, splitLines_nil]
  · next hcons => simpa using splitLines_append_of_single h hcons []

/-! ### Lines as texts -/

/-- **Lines of two texts.** The second starts a line of its own. -/
theorem lines_append {s : String} (h : Unfinished s) (t : String) :
    lines (s ++ "\n" ++ t) = (if s = "" then [""] else lines s) ++ lines t := by
  have hlist : (s ++ "\n" ++ t).toList = s.toList ++ '\n' :: t.toList := by simp
  rw [lines, hlist, splitLines_append h, List.map_append, closedLines, ← lines]
  by_cases hempty : s = ""
  · subst hempty
    rfl
  · rw [if_neg hempty, if_neg (by simpa using hempty), ← lines]

/-- A text with no line end in it is one line, or none if it is empty. -/
theorem lines_of_single {s : String} (h : Single s) : lines s = if s = "" then [] else [s] := by
  rw [lines, splitLines_of_single h]
  by_cases hempty : s = ""
  · subst hempty
    rfl
  · rw [if_neg hempty, if_neg (by simpa using hempty), List.map_singleton, String.ofList_toList]

end Arbor.Text
