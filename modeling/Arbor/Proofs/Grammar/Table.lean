import Arbor.Proofs.Grammar.Groups
import Arbor.Proofs.Grammar.Supply
import Arbor.Proofs.Rule.Plain
import Arbor.Proofs.Text.Blanks

/-!
# Tables of rules

A table is meant to have one rule for each of its entries (`Grammar.Meaning`), and so it has if the
entries are plain (`Grammar.PlainEntry`). What an entry is pasted into is not a rule yet but a text of
lines, and two things may happen to it there. If the key is `#`, the line is a comment, and if it is a
blank, the line starts with the arrow, whose first character then is the predecessor. And if there is
a line end in the successor, the row of templates stops there, and what follows is a line of its own.

`Grammar.ofTable_means_iff` says that there is nothing else: a table that can be read means what its
entries mean if and only if all of them are plain. That a key has to be plain is so because the
predecessor of a rule without a left context is the first character of a line
(`Grammar.EntryRules.predecessor`), and that a successor has to be because there is no line end in a row
of templates (`Grammar.blank_of_templates`).
-/

namespace Arbor

open Outcome
open Text (firstLine exists_rest_of_lines)

namespace Grammar

/-! ### One entry -/

/-- The first line of an entry, trimmed. -/
theorem trimmed_entry {p : Char} (hp : Text.isBlank p = false) (cs : List Char) :
    ∃ gap, Text.Blank gap ∧ Text.trimmed (p :: ' ' :: '-' :: '>' :: ' ' :: cs) =
      p :: ' ' :: '-' :: '>' :: (gap ++ Text.trimmed cs) := by
  obtain ⟨before, after, hbefore, hafter, hcs⟩ := Text.exists_blank_around cs
  have hspace : Text.Blank [' '] := by simp [Text.Blank, Text.isBlank]
  by_cases hnil : Text.trimmed cs = []
  · -- the line ends with the arrow
    refine ⟨[], by simp [Text.Blank], ?_⟩
    have hblank := hspace.append (Text.trimmed_eq_nil_iff.1 hnil)
    have harrow : Bare [p, ' ', '-', '>'] := .between hp [' ', '-'] (d := '>') (by decide)
    rw [hnil]
    exact (Text.trimmed_append_blank hblank [p, ' ', '-', '>']).trans harrow.trimmed_eq
  · refine ⟨' ' :: before, hspace.append hbefore, ?_⟩
    have hbare : Bare (p :: ' ' :: '-' :: '>' :: ((' ' :: before) ++ Text.trimmed cs)) := by
      constructor
      · rintro c ⟨⟩
        exact hp
      · intro c hc
        refine (Text.bare_trimmed cs).2 c ?_
        rwa [← List.cons_append, ← List.cons_append, ← List.cons_append, ← List.cons_append,
          List.getLast?_append_of_ne_nil _ hnil] at hc
    have hline : p :: ' ' :: '-' :: '>' :: ' ' :: cs =
        (p :: ' ' :: '-' :: '>' :: ((' ' :: before) ++ Text.trimmed cs)) ++ after := by
      conv_lhs => rw [hcs]
      simp
    rw [hline, Text.trimmed_append_blank hafter, hbare.trimmed_eq]

/-- The lines of an entry: the first is the arrow with the first line of the value, and the others
are those of the value. -/
theorem lines_entry {p : Char} (hp : Text.isBlank p = false) (s : String) :
    Text.lines s!"{symbolName p} -> {s}" =
      String.ofList (p :: ' ' :: '-' :: '>' :: ' ' :: firstLine s) :: (Text.lines s).tail := by
  have hlist : (s!"{symbolName p} -> {s}").toList = [p, ' ', '-', '>', ' '] ++ s.toList := by
    change (symbolName p ++ " -> " ++ s).toList = _
    rw [String.toList_append, String.toList_append, symbolName, String.toList_ofList]
    rfl
  -- a line end would be blank
  have hend : Text.isLineEnd p = false := by
    rw [Bool.eq_false_iff]
    intro hend
    rw [Text.isBlank_of_isLineEnd hend] at hp
    cases hp
  have hsingle : ∀ c ∈ [p, ' ', '-', '>', ' '], Text.isLineEnd c = false :=
    List.forall_mem_cons.2 ⟨hend, by simp [Text.isLineEnd]⟩
  rw [Text.lines, hlist, Text.splitLines_append_of_single hsingle (List.cons_ne_nil _ _),
    Text.lines, ← List.map_tail]
  rfl

/-- The rules of an entry are the plain rule of its first line and those of the lines after it. -/
theorem rules_of_entry {p : Char} (hp : Text.isBlank p = false) (hcomment : p ≠ '#') {s : String}
    {n : Nat} {rules : List Rule}
    (h : rulesOfLines n (Text.lines s!"{symbolName p} -> {s}") = .ok rules) :
    ∃ us source more, Template.ofChars? (Text.trimmed (firstLine s)) = some us ∧
      rules = { predecessor := symbolName p, successor := us, source } :: more ∧
      rulesOfLines (n + 1) (Text.lines s).tail = .ok more := by
  obtain ⟨gap, hgap, htrimmed⟩ := trimmed_entry hp (firstLine s)
  have htrim : Text.trim (String.ofList (p :: ' ' :: '-' :: '>' :: ' ' :: firstLine s)) =
      String.ofList (p :: ' ' :: '-' :: '>' :: (gap ++ Text.trimmed (firstLine s))) := by
    rw [Text.trim, String.toList_ofList, htrimmed]
  -- the line begins with the key, so that it is no comment
  have hholds : HoldsRule (String.ofList (p :: ' ' :: '-' :: '>' :: ' ' :: firstLine s)) := by
    rw [HoldsRule, htrim, String.toList_ofList, Text.isSkipped, decide_eq_false_iff_not]
    exact hcomment
  rw [lines_entry hp, rulesOfLines_cons_of_holdsRule hholds, htrim] at h
  obtain ⟨r, hr, h⟩ := bind_eq_ok_iff.1 h
  obtain ⟨more, hmore, h⟩ := bind_eq_ok_iff.1 h
  obtain ⟨us, source, hus, rfl⟩ := parse_plain hp (mapError_eq_ok_iff.1 hr)
  exact ⟨us, source, more, ofChars?_of_blank_append hgap hus, (Except.ok.inj h).symm, hmore⟩

/-- **A plain entry.** Its key starts no comment and is no blank, and of the lines of its successor all
but the first are blank. -/
structure PlainEntry (entry : String × String) : Prop where
  key : ∀ c ∈ entry.1.toList, c ≠ '#' ∧ Text.isBlank c = false
  successor : ∀ line ∈ (Text.lines entry.2).tail, Text.trim line = ""

/-- **What an entry means**: one rule for its key, without parameters, contexts, condition and weight,
with the successor that the text is. -/
def Meaning (entry : String × String) (group : String × List Rule) : Prop :=
  ∃ us source, Template.ofChars? (Text.trimmed entry.2.toList) = some us ∧
    group = (entry.1, [{ predecessor := entry.1, successor := us, source }])

/-- A group that is meant by an entry has its key for a name. -/
theorem Meaning.name_eq {entry : String × String} {group : String × List Rule}
    (h : Meaning entry group) : group.1 = entry.1 := by
  obtain ⟨us, source, -, rfl⟩ := h
  rfl

/-- Groups that are meant by a table have its keys for names, in their order. -/
theorem map_fst_eq_of_meanings {table : List (String × String)} {groups : List (String × List Rule)}
    (h : List.Forall₂ Meaning table groups) : table.map Prod.fst = groups.map Prod.fst := by
  induction h with
  | nil => rfl
  | cons first _ ih => rw [List.map_cons, List.map_cons, first.name_eq, ih]

/-- A plain entry supplies the rule that it means. -/
theorem PlainEntry.meaning {p : Char} {s : String} (h : PlainEntry (symbolName p, s)) {n : Nat}
    {rules : List Rule} (hrules : rulesOfLines n (Text.lines s!"{symbolName p} -> {s}") = .ok rules) :
    ∃ r, rules = [r] ∧ Meaning (symbolName p, s) (r.predecessor, [r]) := by
  obtain ⟨hcomment, hblank⟩ := h.key p (by simp [symbolName])
  obtain ⟨us, source, more, hus, rfl, hmore⟩ := rules_of_entry hblank hcomment hrules
  -- the lines after the first hold no rule
  rw [rulesOfLines_of_blank h.successor] at hmore
  obtain rfl := Except.ok.inj hmore
  obtain ⟨rest, hsplit, -, htail⟩ := exists_rest_of_lines s
  refine ⟨_, rfl, us, source, ?_, rfl⟩
  rw [hsplit, Text.trimmed_append_blank (htail.1 h.successor), hus]

/-! ### The rules of a table -/

variable {start : String} {table : List (String × String)} {rules : List Rule} {g : Grammar}

/-- What the entries of a table supply, one by one. -/
def EntryRules (entry : String × String) (part : List Rule) : Prop :=
  ∃ n, rulesOfLines n (Text.lines s!"{entry.1} -> {entry.2}") = .ok part

/-- The rules of a table that was read are those that its entries supply. -/
theorem exists_parts_of_ofTable (h : ofTable start table = .ok g) :
    ∃ word parts, List.Forall₂ EntryRules table parts ∧
      g = insertAll { start := word } parts.flatten := by
  obtain ⟨word, -, h⟩ := bind_eq_ok_iff.1 h
  obtain ⟨rules, hrules, h⟩ := bind_eq_ok_iff.1 h
  obtain ⟨parts, hparts, rfl⟩ := exists_parts hrules
  rw [List.forall₂_map_left_iff] at hparts
  exact ⟨word, parts, hparts, (Except.ok.inj h).symm⟩

/-- Each plain entry has one rule, the one that it means. -/
theorem meanings_of_plain {parts : List (List Rule)}
    (hkeys : ∀ entry ∈ table, ∃ p, entry.1 = symbolName p)
    (hplain : ∀ entry ∈ table, PlainEntry entry) (h : List.Forall₂ EntryRules table parts) :
    List.Forall₂ (fun entry r => Meaning entry (r.predecessor, [r])) table parts.flatten := by
  induction h with
  | nil => exact .nil
  | @cons entry part table parts first _ ih =>
    obtain ⟨key, s⟩ := entry
    obtain ⟨p, rfl⟩ := hkeys _ List.mem_cons_self
    obtain ⟨n, hpart⟩ := first
    obtain ⟨r, rfl, hmeaning⟩ := (hplain _ List.mem_cons_self).meaning hpart
    exact .cons hmeaning (ih (fun e he => hkeys e (List.mem_cons_of_mem _ he))
      (fun e he => hplain e (List.mem_cons_of_mem _ he)))

/-! ### What a table cannot mean -/

/-- A rule without a left context that an entry supplies has a predecessor that is no blank and starts no
comment: the predecessor is the first character of a line. -/
theorem EntryRules.predecessor {entry : String × String} {part : List Rule} {r : Rule}
    (h : EntryRules entry part) (hr : r ∈ part) (hleft : r.left = none) :
    ∃ p, r.predecessor = symbolName p ∧ p ≠ '#' ∧ Text.isBlank p = false := by
  obtain ⟨n, h⟩ := h
  obtain ⟨line, -, hholds, hparse⟩ := exists_line_of_mem h hr
  obtain ⟨p, rest, hname, hskip⟩ := predecessor_of_parse hparse hleft
  have hlist : (Text.trim line).toList = Text.trimmed line.toList := String.toList_ofList
  have hbare := Text.bare_trimmed line.toList
  -- a trimmed line has no gap in front, so the predecessor is its first character
  have hline : Text.trimmed line.toList = p :: rest := by
    rw [← hskip, hlist, hbare.skipGaps_eq]
  rw [HoldsRule, hlist, hline] at hholds
  rw [hline] at hbare
  exact ⟨p, hname, by simpa [Text.isSkipped] using hholds, hbare.1 p rfl⟩

/-- What an entry means is read from its first line only if nothing stands in the others. -/
theorem blank_of_templates {s : String} {us : List Template}
    (hfirst : Template.ofChars? (Text.trimmed (firstLine s)) = some us)
    (hwhole : Template.ofChars? (Text.trimmed s.toList) = some us) :
    ∀ line ∈ (Text.lines s).tail, Text.trim line = "" := by
  obtain ⟨rest, hsplit, hend, htail⟩ := exists_rest_of_lines s
  rw [htail]
  by_contra hrest
  cases rest with
  | nil => exact hrest fun c hc => absurd hc List.not_mem_nil
  | cons e rest =>
    have he : Text.isLineEnd e = true := hend e rfl
    have hrest' : ¬ Text.Blank rest := fun hblank =>
      hrest (Text.blank_cons_iff.2 ⟨Text.isBlank_of_isLineEnd he, hblank⟩)
    by_cases hblank : Text.Blank (firstLine s)
    · -- the first line is a row with nothing in it, so the whole is blank
      rw [Text.trimmed_eq_nil_iff.2 hblank] at hfirst
      obtain rfl : [] = us := Option.some.inj hfirst
      have hnil := (Text.bare_trimmed s.toList).eq_nil_of_ofChars? hwhole
      rw [Text.trimmed_eq_nil_iff, hsplit] at hnil
      exact hrest fun c hc => hnil c (List.mem_append_right _ hc)
    · -- the line end would stand in a row
      have hmem : e ∈ Text.trimmed s.toList := by
        rw [hsplit]
        exact Text.mem_trimmed hblank hrest'
      obtain ⟨ts, after, -, hlexes, hafter⟩ := Rule.templates_iff.1 hwhole
      have hgap := isGap_of_lexes hlexes hafter e hmem (Text.isBlank_of_isLineEnd he)
      rw [Token.isGap_eq_false rfl rfl he] at hgap
      cases hgap

/-- Where an entry means what it says, it is plain. -/
theorem plain_of_meaning {parts : List (List Rule)} {p : Char} {s : String}
    {group : String × List Rule} (hparts : List.Forall₂ EntryRules table parts)
    (hentry : (symbolName p, s) ∈ table) (hmeaning : Meaning (symbolName p, s) group)
    (hgroup : parts.flatten.filter (·.predecessor = symbolName p) = group.2) :
    PlainEntry (symbolName p, s) := by
  obtain ⟨us, source, hus, rfl⟩ := hmeaning
  have hsingle : parts.flatten.filter (·.predecessor = symbolName p) =
      [{ predecessor := symbolName p, successor := us, source }] := hgroup
  have hmem : ∀ r, r ∈ parts.flatten ∧ r.predecessor = symbolName p ↔
      r = { predecessor := symbolName p, successor := us, source } := by
    intro r
    have hfilter : r ∈ parts.flatten.filter (·.predecessor = symbolName p) ↔
        r ∈ parts.flatten ∧ r.predecessor = symbolName p := by
      rw [List.mem_filter, decide_eq_true_eq]
    rwa [hsingle, List.mem_singleton, Iff.comm] at hfilter
  -- the rule of the key comes from a line, so the key may start one
  obtain ⟨hr, -⟩ := (hmem _).2 rfl
  obtain ⟨part, hpart, hr⟩ := List.mem_flatten.1 hr
  obtain ⟨entry, -, hsupply⟩ := exists_of_forall₂ hparts.flip hpart
  obtain ⟨q, hq, hcomment, hblank⟩ := EntryRules.predecessor hsupply hr rfl
  obtain rfl : p = q := by simpa [symbolName] using hq
  -- so the first line of the entry supplies a rule, which can only be that one
  obtain ⟨here, hhere, n, hrules⟩ := exists_of_forall₂ hparts hentry
  obtain ⟨us', source', more, hus', rfl, -⟩ := rules_of_entry hblank hcomment hrules
  have heq := (hmem _).1 ⟨List.mem_flatten.2 ⟨_, hhere, List.mem_cons_self⟩, rfl⟩
  obtain rfl : us' = us := congrArg Rule.successor heq
  constructor
  · intro c hc
    obtain rfl : c = p := by simpa [symbolName] using hc
    exact ⟨hcomment, hblank⟩
  · exact blank_of_templates hus' hus

/-! ### What a table means -/

/-- **Tables.** A table that is read has the rules that its entries mean, one for each and in their
order, if and only if the entries are plain. -/
theorem ofTable_means_iff (hkeys : ∀ entry ∈ table, ∃ p, entry.1 = symbolName p)
    (hdistinct : (table.map Prod.fst).Nodup) (h : ofTable start table = .ok g) :
    List.Forall₂ Meaning table g.groups ↔ ∀ entry ∈ table, PlainEntry entry := by
  obtain ⟨word, parts, hparts, rfl⟩ := exists_parts_of_ofTable h
  constructor
  · -- the keys are distinct, so the group of an entry is all that was read for its key
    intro hmeanings entry hentry
    have hnames := map_fst_eq_of_meanings hmeanings
    obtain ⟨⟨name, group⟩, hgroup, hmeaning⟩ := exists_of_forall₂ hmeanings hentry
    obtain ⟨key, s⟩ := entry
    obtain ⟨p, rfl⟩ := hkeys _ hentry
    obtain rfl : name = symbolName p := hmeaning.name_eq
    refine plain_of_meaning hparts hentry hmeaning ?_
    have hrules := rulesFor_of_mem_groups (hnames ▸ hdistinct) hgroup
    rw [rulesFor_insertAll] at hrules
    exact hrules
  · -- every entry supplies one rule, and each rule opens a group
    intro hplain
    have hrow := meanings_of_plain hkeys hplain hparts
    have hnames : table.map Prod.fst = parts.flatten.map Rule.predecessor := by
      have hgroups := map_fst_eq_of_meanings (List.forall₂_map_right_iff.2 hrow)
      rwa [List.map_map] at hgroups
    rw [groups_insertAll_of_nodup (by simpa [← hnames] using hdistinct)]
    exact List.forall₂_map_right_iff.2 hrow

/-- Two plain entries, with a line end at the end of one. -/
theorem ofTable_means_iff_branch :
    let table := [("F", "F[+F]A(1)"), ("A", "F\n")]
    ∃ g, ofTable "FA" table = .ok g ∧ List.Forall₂ Meaning table g.groups := by
  intro table
  have hread : (ofTable "FA" table).toOption.isSome = true := by decide +kernel
  cases hg : ofTable "FA" table with
  | error e =>
    rw [hg] at hread
    cases hread
  | ok g =>
    have hkeys : ∀ entry ∈ table, ∃ p, entry.1 = symbolName p := by
      simpa [table] using ⟨⟨'F', rfl⟩, ⟨'A', rfl⟩⟩
    have hfirst : PlainEntry ("F", "F[+F]A(1)") := ⟨by simp [Text.isBlank], by decide +kernel⟩
    have hsecond : PlainEntry ("A", "F\n") := ⟨by simp [Text.isBlank], by decide +kernel⟩
    refine ⟨g, rfl, (ofTable_means_iff hkeys (by decide) hg).2 ?_⟩
    exact List.forall_mem_cons.2 ⟨hfirst, List.forall_mem_cons.2 ⟨hsecond, by simp⟩⟩

/-- The rule of an entry is lost in a comment. -/
theorem ofTable_comment_not_meant :
    ¬ ∀ (start : String) (table : List (String × String)) (g : Grammar),
      (∀ entry ∈ table, ∃ p, entry.1 = symbolName p) → (table.map Prod.fst).Nodup →
        ofTable start table = .ok g → List.Forall₂ Meaning table g.groups := by
  intro h
  have hread : ofTable "#F" [("#", "F")] =
      .ok { start := [⟨"#", [], false⟩, ⟨"F", [], false⟩], groups := [] } := by decide +kernel
  have hkeys : ∀ entry ∈ [("#", "F")], ∃ p, entry.1 = symbolName p := by
    simpa using ⟨'#', rfl⟩
  cases h _ _ _ hkeys (by decide) hread

end Grammar

end Arbor
