import Arbor.Settings.Basic
import Arbor.Proofs.Numeral.Bits
import Arbor.Proofs.Settings.Requirement

/-!
# The schema of settings

What settings have to be, and what they say where they are so, told without a reader.

* `Settings.requirements`: all that is asked of a value, in the order in which it is looked at. Most
  members may be missing and then have a default, which is put in by `Value.member`. A requirement
  speaks of a member as if all before it were met: of a value of another kind than the one that was
  asked for, `Value.text` and its like give something of no account.
* `Settings.Describes`: the value describes these settings. Every field is what the member holds, or its
  default.

Of a number two things are asked, that it is one (`Settings.isNumber`) and that it has a double
(`Settings.fits`). Only a whole number can fail the second, and none does in a value whose numbers convert
to finite doubles (`Value.Convertible`).
-/

namespace Arbor

open Requirement

/-! ### Parts of a value -/

namespace Value

/-- The members of an object; other values have none. -/
def members : Value → Members
  | object ms => ms
  | _ => []

/-- The member under a key, or a value to take in its place. -/
def member (v : Value) (key : String) (default : Value) : Value := v.members.findD key default

/-- The values in a list; other values have none. -/
def items : Value → List Value
  | list vs => vs
  | _ => []

/-- The text that a value is. -/
def text : Value → String
  | str s => s
  | _ => ""

/-- The whole number that a value is. -/
def whole : Value → Int
  | int n => n
  | _ => 0

/-- The number that a value is, as a double. -/
def double? : Value → Option Float
  | int n => some (Numeral.ofInt n)
  | float x => some x
  | _ => none

/-- A value inside another, at any depth. -/
inductive Inside : Value → Value → Prop
  | self (v : Value) : Inside v v
  | item {w v : Value} {vs : List Value} (mem : v ∈ vs) (inside : Inside w v) : Inside w (list vs)
  | member {w v : Value} {key : String} {ms : Members} (mem : (key, v) ∈ ms) (inside : Inside w v) :
      Inside w (object ms)

/-- All numbers in a value convert to finite doubles. -/
def Convertible (v : Value) : Prop :=
  ∀ w x, Inside w v → w.double? = some x → x.isFinite = true

end Value

namespace Settings

/-! ### What is asked of settings -/

/-- A text stands at a path. -/
def isText (path : String) (v : Value) : Requirement Error := need (∃ s, v = .str s) (.notString path)

/-- An object stands at a path. -/
def isObject (path : String) (v : Value) : Requirement Error :=
  need (∃ ms, v = .object ms) (.notObject path)

/-- A whole number stands at a path. -/
def isWhole (path : String) (v : Value) : Requirement Error := need (∃ n, v = .int n) (.notInteger path)

/-- A number stands at a path. -/
def isNumber (path : String) (v : Value) : Requirement Error :=
  need (∃ x, v.double? = some x) (.notNumber path)

/-- A whole number is not past the largest double. -/
def fits (v : Value) : Requirement Error :=
  need (∀ n, v = .int n → (Numeral.ofInt n).isInf = false) .tooLarge

/-- What is asked of the member under a key, which is to be a number. -/
def numberRequirements (v : Value) (path key : String) (default : Float) : List (Requirement Error) :=
  [isNumber (path ++ key) (v.member key (.float default)), fits (v.member key (.float default))]

/-- What is asked of the rules. -/
def ruleRequirements (v : Value) : List (Requirement Error) :=
  need ((∃ s, v = .str s) ∨ (∃ vs, v = .list vs) ∨ ∃ ms, v = .object ms) (.notObject "rules") ::
    (v.items.zipIdx.map fun (w, i) => isText s!"rules[{i}]" w) ++
    v.members.flatMap fun (key, w) => [need (key.length = 1) .ruleKey, isText s!"rules['{key}']" w]

/-- What is asked of the setup of the turtle. -/
def setupRequirements (v : Value) : List (Requirement Error) :=
  let start := v.member "start" (.object [])
  let width := v.member "line_width" (.float 1.0)
  let palette := v.member "palette_size" .null
  [[isObject "turtle.start" start],
    numberRequirements v "turtle." "step" 1.0,
    numberRequirements v "turtle." "line_width" 1.0,
    [need (∀ x, width.double? = some x → (0.0 : Float) ≤ x) (.negative "turtle.line_width"),
      need (palette = .null ∨ ∃ n, palette = .int n) (.notInteger "turtle.palette_size"),
      need (palette = .null ∨ 1 ≤ palette.whole) .palette],
    numberRequirements start "turtle.start." "x" 0.0,
    numberRequirements start "turtle.start." "y" 0.0,
    numberRequirements start "turtle.start." "z" 0.0,
    numberRequirements start "turtle.start." "heading" 0.0,
    numberRequirements v "turtle." "angle" 0.0,
    numberRequirements v "turtle." "line_width_delta" 0.1].flatten

/-- The members that tell of an operation; a text stands for its type. -/
def operationMembers : Value → Value.Members
  | .str name => [("type", .str name)]
  | v => v.members

/-- What is asked of these members. Only a move may have others beside its type. -/
def memberRequirements (ms : Value.Members) : List (Requirement OperationError) :=
  let type := ms.findD "type" .null
  let extra := (ms.map (·.1)).filter (· ≠ "type")
  [need (∃ name, type = .str name) .noName,
    need (∃ o, (type.text, o) ∈ Operation.named) (.unknown type.text (Operation.named.map (·.1))),
    need (type.text = "forward" ∨ extra = []) (.options (extra.mergeSort (· ≤ ·))),
    need (type.text = "forward" → ∃ b, ms.findD "draw" (.bool true) = .bool b) (.notBool "draw"),
    need (type.text = "forward" → ∃ b, ms.findD "contracting" (.bool false) = .bool b)
      (.notBool "contracting")]

/-- What is asked of an operation. -/
def operationRequirements (v : Value) : List (Requirement OperationError) :=
  need ((∃ name, v = .str name) ∨ ∃ ms, v = .object ms) .shape ::
    memberRequirements (operationMembers v)

/-- What is asked of the table of operations. -/
def tableRequirements (v : Value) : List (Requirement Error) :=
  need (v = .null ∨ ∃ ms, v = .object ms) (.notObject "turtle.commands") ::
    v.members.flatMap fun (key, w) =>
      need (key.length = 1) .operationKey ::
        (operationRequirements w).map (Requirement.map (.operation s!"turtle.commands['{key}']"))

/-- The supplies of rules that a value stands for. -/
def supplies : Value → List Grammar.Supply
  | .str s => [.text s]
  | .list vs => vs.map fun w => .text w.text
  | v => v.members.map fun (key, w) => .text s!"{key} -> {w.text}"

/-- **Requirements** on settings, in the order in which they are looked at. -/
def requirements (v : Value) : List (Requirement Error) :=
  let name := v.member "name" (.str "L-System")
  let start := v.member "axiom" (.str "")
  let depth := v.member "iterations" (.int 0)
  let turtle := v.member "turtle" (.object [])
  let rules := v.member "rules" (.list [])
  [[isObject "root" v,
      isText "name" name,
      isText "axiom" start,
      need (∃ c ∈ start.text.toList, Text.isBlank c = false) .emptyStart,
      isWhole "iterations" depth,
      need (0 ≤ depth.whole) (.negative "iterations"),
      isWhole "seed" (v.member "seed" (.int defaultSeed)),
      isObject "turtle" turtle],
    ruleRequirements rules,
    setupRequirements turtle,
    tableRequirements (turtle.member "commands" .null),
    [(succeeds (Word.parse start.text)).map (.grammar name.text),
      (succeeds (Grammar.suppliedRules 1 (supplies rules))).map (.grammar name.text)]].flatten

/-! ### What settings say -/

/-- A value describes these rules. -/
inductive DescribesRules : Value → RuleTexts → Prop
  | text (s : String) : DescribesRules (.str s) (.texts [s])
  | texts (ss : List String) : DescribesRules (.list (ss.map .str)) (.texts ss)
  | table (entries : List (String × String)) :
      DescribesRules (.object (entries.map fun p => (p.1, .str p.2))) (.table entries)

/-- A value describes this setup. -/
structure DescribesSetup (v : Value) (s : Setup Float) : Prop where
  x : ((v.member "start" (.object [])).member "x" (.float 0.0)).double? = some s.start.x
  y : ((v.member "start" (.object [])).member "y" (.float 0.0)).double? = some s.start.y
  z : ((v.member "start" (.object [])).member "z" (.float 0.0)).double? = some s.start.z
  heading : ((v.member "start" (.object [])).member "heading" (.float 0.0)).double? = some s.heading
  angle : (v.member "angle" (.float 0.0)).double? = some s.angle
  step : (v.member "step" (.float 1.0)).double? = some s.step
  width : (v.member "line_width" (.float 1.0)).double? = some s.width
  widthDelta : (v.member "line_width_delta" (.float 0.1)).double? = some s.widthDelta
  palette : v.member "palette_size" .null = s.palette.elim .null fun n => .int n

/-- A value describes this operation. -/
inductive DescribesOperation : Value → Operation → Prop
  | name {name : String} {o : Operation} (named : (name, o) ∈ Operation.named) :
      DescribesOperation (.str name) o
  | alone {name : String} {o : Operation} {ms : Value.Members} (named : (name, o) ∈ Operation.named)
      (still : name ≠ "forward") (type : ms.findD "type" .null = .str name)
      (others : ∀ p ∈ ms, p.1 = "type") : DescribesOperation (.object ms) o
  | move {draw contracting : Bool} {ms : Value.Members} (type : ms.findD "type" .null = .str "forward")
      (draws : ms.findD "draw" (.bool true) = .bool draw)
      (contracts : ms.findD "contracting" (.bool false) = .bool contracting) :
      DescribesOperation (.object ms) (.forward draw contracting)

/-- A value describes this table, entry by entry; without one it is the customary table. -/
inductive DescribesTable : Value → Table → Prop
  | standard : DescribesTable .null Table.standard
  | entries {ms : Value.Members} {entries : List (String × Operation)}
      (each : List.Forall₂ (fun p q => p.1 = q.1 ∧ DescribesOperation p.2 q.2) ms entries) :
      DescribesTable (.object ms) ⟨entries⟩

/-- **Description.** A value describes these settings. -/
structure Describes (v : Value) (c : Settings) : Prop where
  name : v.member "name" (.str "L-System") = .str c.name
  start : v.member "axiom" (.str "") = .str c.start
  rules : DescribesRules (v.member "rules" (.list [])) c.rules
  depth : v.member "iterations" (.int 0) = .int c.depth
  seed : v.member "seed" (.int defaultSeed) = .int c.seed
  setup : DescribesSetup (v.member "turtle" (.object [])) c.setup
  table : DescribesTable ((v.member "turtle" (.object [])).member "commands" .null) c.table

/-! ### Whole numbers past the doubles -/

/-- The requirement that a whole number inside a value fits, which it does not. -/
def Oversized (v : Value) (r : Requirement Error) : Prop :=
  ∃ n, r = fits (.int n) ∧ (Numeral.ofInt n).isInf = true ∧ Value.Inside (.int n) v

section Oversize

variable {v w : Value} {key : String}

/-- What is inside a member is inside the value, or inside the default. -/
theorem inside_of_member {default : Value} (h : w.Inside (v.member key default)) :
    w.Inside v ∨ w.Inside default := by
  cases v with
  | object ms =>
    rw [Value.member, Value.members, Value.Members.findD] at h
    -- the member is in the value only if the key is there
    cases hlookup : ms.lookup key with
    | none =>
      rw [hlookup] at h
      exact .inr h
    | some v =>
      rw [hlookup] at h
      exact .inl (.member (mem_of_lookup hlookup) h)
  | _ => exact .inr h

/-- What is too large inside of a member is too large inside of the value. -/
theorem oversized_of_member {r : Requirement Error}
    (h : Oversized (v.member key (.object [])) r) : Oversized v r := by
  obtain ⟨n, hr, hinf, hinside⟩ := h
  refine ⟨n, hr, hinf, (inside_of_member hinside).resolve_right ?_⟩
  rintro ⟨⟩
  contradiction

/-- A number is too large if it is a whole number without a double. -/
theorem oversized_of_mem_number {path : String} {default : Float} :
    ∀ r ∈ numberRequirements v path key default, r .tooLarge → Oversized v r := by
  intro r hr h
  rcases List.mem_pair.1 hr with rfl | rfl
  · -- what is no number is reported as that, and not as too large
    exact absurd h (not_need_of_ne (by simp))
  · obtain ⟨n, hn, hinf⟩ : ∃ n, v.member key (.float default) = .int n ∧
        (Numeral.ofInt n).isInf = true := by simpa [fits, need] using h
    have hinside : Value.Inside (.int n) (v.member key (.float default)) := by
      rw [hn]
      exact .self _
    exact ⟨n, by rw [hn], hinf, (inside_of_member hinside).resolve_right (by rintro ⟨⟩)⟩

/-- Of the setup any number may be too large. -/
theorem oversized_of_mem_setup : ∀ r ∈ setupRequirements v, r .tooLarge → Oversized v r := by
  -- the start is a member itself, so what is inside it is inside the value
  have hstart : ∀ {path key default},
      ∀ r ∈ numberRequirements (v.member "start" (.object [])) path key default,
        r .tooLarge → Oversized v r := fun r hr h =>
    oversized_of_member (oversized_of_mem_number r hr h)
  simp only [setupRequirements, isObject, need, List.flatten_cons, List.flatten_nil, List.append_nil,
    List.forall_mem_append, List.forall_mem_cons, List.not_mem_nil, reduceCtorEq, and_false,
    false_imp_iff, implies_true, true_and]
  -- what is left are the numbers, in their order
  exact ⟨oversized_of_mem_number, oversized_of_mem_number, hstart, hstart, hstart, hstart,
    oversized_of_mem_number, oversized_of_mem_number⟩

/-- Rules are never too large. -/
theorem not_tooLarge_of_mem_rule : ∀ r ∈ ruleRequirements v, ¬ r .tooLarge := by
  unfold ruleRequirements
  rw [List.cons_append, List.forall_mem_cons, List.forall_mem_append, List.forall_mem_map,
    List.forall_mem_flatMap]
  refine ⟨not_need_of_ne (by simp), fun _ _ => not_need_of_ne (by simp), fun p _ => ?_⟩
  rw [List.forall_mem_cons, List.forall_mem_singleton]
  exact ⟨not_need_of_ne (by simp), not_need_of_ne (by simp)⟩

/-- Neither are operations. -/
theorem not_tooLarge_of_mem_table : ∀ r ∈ tableRequirements v, ¬ r .tooLarge := by
  unfold tableRequirements
  rw [List.forall_mem_cons, List.forall_mem_flatMap]
  refine ⟨not_need_of_ne (by simp), fun p _ => ?_⟩
  rw [List.forall_mem_cons, List.forall_mem_map]
  exact ⟨not_need_of_ne (by simp), fun r _ ⟨d, _, h⟩ => nomatch h⟩

/-- **A whole number is too large** for the requirements only if it is inside the value and is asked to
fit. -/
theorem oversized_of_mem : ∀ r ∈ requirements v, r .tooLarge → Oversized v r := by
  simp only [requirements, isObject, isText, isWhole, need, Requirement.map, List.flatten_cons,
    List.flatten_nil, List.append_nil, List.forall_mem_append, List.forall_mem_cons,
    List.not_mem_nil, reduceCtorEq, and_false, exists_false, false_imp_iff, implies_true, true_and,
    and_true]
  refine ⟨fun r hr h => absurd h (not_tooLarge_of_mem_rule r hr), fun r hr h => ?_,
    fun r hr h => absurd h (not_tooLarge_of_mem_table r hr)⟩
  exact oversized_of_member (oversized_of_mem_setup r hr h)

/-- In a value whose numbers convert to finite doubles no whole number is too large. -/
theorem not_tooLarge_of_convertible (hv : v.Convertible) : ∀ r ∈ requirements v, ¬ r .tooLarge := by
  intro r hr h
  obtain ⟨n, -, hinf, hinside⟩ := oversized_of_mem r hr h
  have hfinite := hv (.int n) _ hinside rfl
  rw [Numeral.isInf_eq_false hfinite] at hinf
  cases hinf

end Oversize

end Settings

end Arbor
