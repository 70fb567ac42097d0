import Mathlib.Data.List.Basic
import Multipath.Rule.Normal

/-!
The normal form of rules. A rule is normal if no rewriting of `normalize` applies to any part of it:
there are no switches, no sequence stands in a sequence and no alternation in an alternation, none
of them has just one item, and what is optional or repeated is neither empty nor optional or
repeated itself. One pass of `normalize` gets there, whatever an unwrapped group or a resolved
switch brings to light (`Rule.isNormal_normalize`), and the normal rules are just those that it
leaves alone.
-/

namespace Multipath.Rule

def isSequence : Rule → Bool
  | .sequence _ => true
  | _ => false

def isAlternation : Rule → Bool
  | .alternation _ => true
  | _ => false

def isOptional : Rule → Bool
  | .optional _ => true
  | _ => false

def isRepetition : Rule → Bool
  | .repetition _ => true
  | _ => false

/-- What may stand under an optional part or a repetition. -/
def IsPlainBody (body : Rule) : Prop :=
  body.isEmpty = false ∧ body.isOptional = false ∧ body.isRepetition = false

instance (body : Rule) : Decidable body.IsPlainBody := inferInstanceAs (Decidable (_ ∧ _))

/-- Nothing is to be rewritten at the head of the rule. -/
def IsSettled : Rule → Prop
  | .sequence items => items.length ≠ 1 ∧ ∀ r ∈ items, r.isSequence = false
  | .alternation choices => choices.length ≠ 1 ∧ ∀ r ∈ choices, r.isAlternation = false
  | .optional body | .repetition body => body.IsPlainBody
  | .switch _ _ => False
  | .terminal _ | .nonterminal _ => True

instance : ∀ rule : Rule, Decidable rule.IsSettled
  | .sequence _ | .alternation _ => inferInstanceAs (Decidable (_ ∧ _))
  | .optional body | .repetition body => inferInstanceAs (Decidable body.IsPlainBody)
  | .switch _ _ => inferInstanceAs (Decidable False)
  | .terminal _ | .nonterminal _ => inferInstanceAs (Decidable True)

def IsNormal (rule : Rule) : Prop := ∀ part ∈ rule.parts, part.IsSettled

instance (rule : Rule) : Decidable rule.IsNormal :=
  inferInstanceAs (Decidable (∀ part ∈ rule.parts, part.IsSettled))

section Parts

@[simp] theorem isNormal_sequence {items : List Rule} : (sequence items).IsNormal ↔
    (sequence items).IsSettled ∧ ∀ r ∈ items, r.IsNormal := by
  simp only [IsNormal, parts, List.forall_mem_cons, mem_partsAll_iff]
  grind

@[simp] theorem isNormal_alternation {choices : List Rule} : (alternation choices).IsNormal ↔
    (alternation choices).IsSettled ∧ ∀ r ∈ choices, r.IsNormal := by
  simp only [IsNormal, parts, List.forall_mem_cons, mem_partsAll_iff]
  grind

@[simp] theorem isNormal_optional {body : Rule} :
    (optional body).IsNormal ↔ body.IsPlainBody ∧ body.IsNormal :=
  List.forall_mem_cons

@[simp] theorem isNormal_repetition {body : Rule} :
    (repetition body).IsNormal ↔ body.IsPlainBody ∧ body.IsNormal :=
  List.forall_mem_cons

@[simp] theorem not_isNormal_switch {feature : String} {body : Rule} :
    ¬ (switch feature body).IsNormal :=
  fun h => h (.switch feature body) List.mem_cons_self

@[simp] theorem isNormal_terminal {tag : TagId} : (terminal tag).IsNormal := by
  simp [IsNormal, parts, IsSettled]

@[simp] theorem isNormal_nonterminal {rule : RuleId} : (nonterminal rule).IsNormal := by
  simp [IsNormal, parts, IsSettled]

@[simp] theorem isNormal_empty : empty.IsNormal := by
  simp [empty, IsSettled]

end Parts

section Heads

variable {r x body : Rule} {rs : List Rule}

theorem isNormal_of_mem_sequenceItems (h : r.IsNormal) (hx : x ∈ r.sequenceItems) :
    x.IsNormal ∧ x.isSequence = false := by
  cases r with
  | sequence items =>
      rw [isNormal_sequence] at h
      exact ⟨h.2 x hx, h.1.2 x hx⟩
  | _ =>
      cases List.mem_singleton.mp hx
      exact ⟨h, rfl⟩

theorem isNormal_of_mem_alternationChoices (h : r.IsNormal) (hx : x ∈ r.alternationChoices) :
    x.IsNormal ∧ x.isAlternation = false := by
  cases r with
  | alternation choices =>
      rw [isNormal_alternation] at h
      exact ⟨h.2 x hx, h.1.2 x hx⟩
  | _ =>
      cases List.mem_singleton.mp hx
      exact ⟨h, rfl⟩

theorem sequenceOf_of_length_ne (h : rs.length ≠ 1) : sequenceOf rs = .sequence rs := by
  rcases rs with _ | ⟨r, _ | ⟨r', rs⟩⟩
  · rfl
  · exact absurd rfl h
  · rfl

theorem alternationOf_of_length_ne (h : rs.length ≠ 1) : alternationOf rs = .alternation rs := by
  rcases rs with _ | ⟨r, _ | ⟨r', rs⟩⟩
  · rfl
  · exact absurd rfl h
  · rfl

/-- The one item that is unwrapped is no sequence, so that it settles nothing anew. -/
theorem isNormal_sequenceOf (h : ∀ r ∈ rs, r.IsNormal ∧ r.isSequence = false) :
    (sequenceOf rs).IsNormal := by
  by_cases hone : rs.length = 1
  · obtain ⟨r, rfl⟩ := List.length_eq_one_iff.mp hone
    exact (h r List.mem_cons_self).1
  · rw [sequenceOf_of_length_ne hone, isNormal_sequence]
    exact ⟨⟨hone, fun r hr => (h r hr).2⟩, fun r hr => (h r hr).1⟩

theorem isNormal_alternationOf (h : ∀ r ∈ rs, r.IsNormal ∧ r.isAlternation = false) :
    (alternationOf rs).IsNormal := by
  by_cases hone : rs.length = 1
  · obtain ⟨r, rfl⟩ := List.length_eq_one_iff.mp hone
    exact (h r List.mem_cons_self).1
  · rw [alternationOf_of_length_ne hone, isNormal_alternation]
    exact ⟨⟨hone, fun r hr => (h r hr).2⟩, fun r hr => (h r hr).1⟩

theorem isPlainBody_or (body : Rule) : body.IsPlainBody ∨ body = .empty ∨
    (∃ inner, body = .optional inner) ∨ ∃ inner, body = .repetition inner := by
  cases body with
  | sequence items => cases items <;> simp [IsPlainBody, isEmpty, isOptional, isRepetition, empty]
  | optional inner => exact .inr (.inr (.inl ⟨inner, rfl⟩))
  | repetition inner => exact .inr (.inr (.inr ⟨inner, rfl⟩))
  | _ => exact .inl ⟨rfl, rfl, rfl⟩

theorem optionalOf_of_isPlainBody (h : body.IsPlainBody) : optionalOf body = .optional body := by
  obtain ⟨hempty, hoptional, hrepetition⟩ := h
  rcases body with (_ | _) | _ | _ | _ | _ | _ | _ <;> first | rfl | contradiction

theorem repetitionOf_of_isPlainBody (h : body.IsPlainBody) :
    repetitionOf body = .repetition body := by
  obtain ⟨hempty, hoptional, hrepetition⟩ := h
  rcases body with (_ | _) | _ | _ | _ | _ | _ | _ <;> first | rfl | contradiction

theorem isNormal_optionalOf (h : body.IsNormal) : (optionalOf body).IsNormal := by
  obtain hplain | rfl | ⟨inner, rfl⟩ | ⟨inner, rfl⟩ := isPlainBody_or body
  · rw [optionalOf_of_isPlainBody hplain]
    exact isNormal_optional.mpr ⟨hplain, h⟩
  · exact h
  · exact h
  · exact h

/-- An optional body gives its own to the repetition, where it is as plain as it was. -/
theorem isNormal_repetitionOf (h : body.IsNormal) : (repetitionOf body).IsNormal := by
  obtain hplain | rfl | ⟨inner, rfl⟩ | ⟨inner, rfl⟩ := isPlainBody_or body
  · rw [repetitionOf_of_isPlainBody hplain]
    exact isNormal_repetition.mpr ⟨hplain, h⟩
  · exact h
  · exact isNormal_repetition.mpr (isNormal_optional.mp h)
  · exact h

end Heads

mutual

theorem isNormal_normalize (features : Features) : ∀ rule : Rule, (normalize features rule).IsNormal
  | .sequence items => by
      refine isNormal_sequenceOf fun x hx => ?_
      obtain ⟨r, hr, hx⟩ := List.mem_flatMap.mp hx
      exact isNormal_of_mem_sequenceItems (isNormal_of_mem_normalizeAll features items r hr) hx
  | .alternation choices => by
      refine isNormal_alternationOf fun x hx => ?_
      obtain ⟨r, hr, hx⟩ := List.mem_flatMap.mp hx
      exact isNormal_of_mem_alternationChoices
        (isNormal_of_mem_normalizeAll features choices r hr) hx
  | .optional body => isNormal_optionalOf (isNormal_normalize features body)
  | .repetition body => isNormal_repetitionOf (isNormal_normalize features body)
  | .switch feature body => by
      by_cases h : feature ∈ features
      · simpa only [normalize, if_pos h] using isNormal_normalize features body
      · simpa only [normalize, if_neg h] using isNormal_empty
  | .terminal _ => isNormal_terminal
  | .nonterminal _ => isNormal_nonterminal

theorem isNormal_of_mem_normalizeAll (features : Features) :
    ∀ rules : List Rule, ∀ r ∈ normalizeAll features rules, r.IsNormal
  | [] => nofun
  | r :: rules => by
      rw [normalizeAll, List.forall_mem_cons]
      exact ⟨isNormal_normalize features r, isNormal_of_mem_normalizeAll features rules⟩

end

section Fixed

variable {rs : List Rule}

theorem flatMap_sequenceItems (h : ∀ r ∈ rs, r.isSequence = false) :
    rs.flatMap sequenceItems = rs := by
  refine (List.flatMap_congr fun r hr => ?_).trans (List.flatMap_singleton' rs)
  have := h r hr
  cases r <;> first | rfl | contradiction

theorem flatMap_alternationChoices (h : ∀ r ∈ rs, r.isAlternation = false) :
    rs.flatMap alternationChoices = rs := by
  refine (List.flatMap_congr fun r hr => ?_).trans (List.flatMap_singleton' rs)
  have := h r hr
  cases r <;> first | rfl | contradiction

end Fixed

mutual

theorem normalize_of_isNormal (features : Features) :
    ∀ rule : Rule, rule.IsNormal → normalize features rule = rule
  | .sequence items, h => by
      rw [isNormal_sequence] at h
      rw [normalize, normalizeAll_of_isNormal features items h.2, flatMap_sequenceItems h.1.2,
        sequenceOf_of_length_ne h.1.1]
  | .alternation choices, h => by
      rw [isNormal_alternation] at h
      rw [normalize, normalizeAll_of_isNormal features choices h.2,
        flatMap_alternationChoices h.1.2, alternationOf_of_length_ne h.1.1]
  | .optional body, h => by
      rw [isNormal_optional] at h
      rw [normalize, normalize_of_isNormal features body h.2, optionalOf_of_isPlainBody h.1]
  | .repetition body, h => by
      rw [isNormal_repetition] at h
      rw [normalize, normalize_of_isNormal features body h.2, repetitionOf_of_isPlainBody h.1]
  | .switch _ _, h => absurd h not_isNormal_switch
  | .terminal _, _ => rfl
  | .nonterminal _, _ => rfl

theorem normalizeAll_of_isNormal (features : Features) :
    ∀ rules : List Rule, (∀ r ∈ rules, r.IsNormal) → normalizeAll features rules = rules
  | [], _ => rfl
  | r :: rules, h => by
      rw [List.forall_mem_cons] at h
      rw [normalizeAll, normalize_of_isNormal features r h.1,
        normalizeAll_of_isNormal features rules h.2]

end

/-- Every normalisation ends in a normal rule and leaves just the normal rules alone, so that the
first one decides: another one, also for other features, changes nothing. -/
theorem normalize_normal_form :
    (∀ features rule, (normalize features rule).IsNormal) ∧
      (∀ features rule, normalize features rule = rule ↔ rule.IsNormal) ∧
      ∀ features features' rule,
        normalize features' (normalize features rule) = normalize features rule := by
  refine ⟨isNormal_normalize, fun features rule => ⟨fun h => ?_, ?_⟩,
    fun features features' rule => ?_⟩
  · rw [← h]
    exact isNormal_normalize features rule
  · exact normalize_of_isNormal features rule
  · exact normalize_of_isNormal features' _ (isNormal_normalize features rule)

/-- Unwrapping an alternation of one brings to light a sequence in a sequence. -/
example : normalize ∅
      (.sequence [.terminal 0, .alternation [.sequence [.terminal 1, .terminal 2]]]) =
    .sequence [.terminal 0, .terminal 1, .terminal 2] := by
  decide +kernel

end Multipath.Rule
