import Multipath.Proofs.NormalForms
import Multipath.Tree.Extraction

/-!
Closed grammars. If all references in the bodies of a grammar lead somewhere, then nothing that
starts from a rule of the grammar ever asks for a rule that it lacks. With any rules added behind
those it has, unknown ids begin to name something, and still each rule of the grammar is derived
(`Session.derive_extend`) and its branches are built (`Session.branch_extend`) as before, from every
run there may be (`Grammar.Closed.selfContained`).
-/

namespace Multipath

open Search (outputOf)

namespace Rule

/-- If the rule is a reference, it leads to one of so many rules or tags. -/
def Leads (rules tags : Nat) : Rule → Prop
  | .nonterminal id => id < rules
  | .terminal tag => tag < tags
  | _ => True

instance (rules tags : Nat) : ∀ rule : Rule, Decidable (rule.Leads rules tags)
  | .nonterminal id => inferInstanceAs (Decidable (id < rules))
  | .terminal tag => inferInstanceAs (Decidable (tag < tags))
  | .sequence _ | .optional _ | .repetition _ | .alternation _ | .switch _ _ =>
    inferInstanceAs (Decidable True)

/-- All references in the rule lead somewhere, those under switches included. -/
def Within (rules tags : Nat) (rule : Rule) : Prop := ∀ part ∈ rule.parts, part.Leads rules tags

instance (rules tags : Nat) (rule : Rule) : Decidable (rule.Within rules tags) :=
  inferInstanceAs (Decidable (∀ part ∈ rule.parts, part.Leads rules tags))

section Within

variable {rules tags : Nat}

@[simp] theorem within_sequence {items : List Rule} :
    (sequence items).Within rules tags ↔ ∀ r ∈ items, r.Within rules tags := by
  simp only [Within, parts, List.forall_mem_cons, mem_partsAll_iff, Leads]
  grind

@[simp] theorem within_alternation {choices : List Rule} :
    (alternation choices).Within rules tags ↔ ∀ r ∈ choices, r.Within rules tags := by
  simp only [Within, parts, List.forall_mem_cons, mem_partsAll_iff, Leads]
  grind

@[simp] theorem within_optional {body : Rule} :
    (optional body).Within rules tags ↔ body.Within rules tags := by
  simp [Within, parts, Leads]

@[simp] theorem within_repetition {body : Rule} :
    (repetition body).Within rules tags ↔ body.Within rules tags := by
  simp [Within, parts, Leads]

@[simp] theorem within_switch {feature : String} {body : Rule} :
    (switch feature body).Within rules tags ↔ body.Within rules tags := by
  simp [Within, parts, Leads]

@[simp] theorem within_terminal {tag : TagId} : (terminal tag).Within rules tags ↔ tag < tags := by
  simp [Within, parts, Leads]

@[simp] theorem within_nonterminal {rule : RuleId} :
    (nonterminal rule).Within rules tags ↔ rule < rules := by
  simp [Within, parts, Leads]

end Within

section Normalization

variable {rules tags : Nat} {rule : Rule} {rs : List Rule}

theorem within_sequenceOf (h : ∀ r ∈ rs, r.Within rules tags) :
    (sequenceOf rs).Within rules tags := by
  by_cases hone : rs.length = 1
  · obtain ⟨r, rfl⟩ := List.length_eq_one_iff.mp hone
    exact h r List.mem_cons_self
  · rw [sequenceOf_of_length_ne hone]
    exact within_sequence.mpr h

theorem within_alternationOf (h : ∀ r ∈ rs, r.Within rules tags) :
    (alternationOf rs).Within rules tags := by
  by_cases hone : rs.length = 1
  · obtain ⟨r, rfl⟩ := List.length_eq_one_iff.mp hone
    exact h r List.mem_cons_self
  · rw [alternationOf_of_length_ne hone]
    exact within_alternation.mpr h

theorem within_of_mem_sequenceItems (h : rule.Within rules tags) {x : Rule}
    (hx : x ∈ rule.sequenceItems) : x.Within rules tags := by
  cases rule with
  | sequence items => exact within_sequence.mp h x hx
  | _ => exact List.mem_singleton.mp hx ▸ h

theorem within_of_mem_alternationChoices (h : rule.Within rules tags) {x : Rule}
    (hx : x ∈ rule.alternationChoices) : x.Within rules tags := by
  cases rule with
  | alternation choices => exact within_alternation.mp h x hx
  | _ => exact List.mem_singleton.mp hx ▸ h

theorem within_optionalOf (h : rule.Within rules tags) : (optionalOf rule).Within rules tags := by
  obtain hplain | rfl | ⟨inner, rfl⟩ | ⟨inner, rfl⟩ := isPlainBody_or rule
  · rw [optionalOf_of_isPlainBody hplain]
    exact within_optional.mpr h
  · exact h
  · exact h
  · exact h

theorem within_repetitionOf (h : rule.Within rules tags) :
    (repetitionOf rule).Within rules tags := by
  obtain hplain | rfl | ⟨inner, rfl⟩ | ⟨inner, rfl⟩ := isPlainBody_or rule
  · rw [repetitionOf_of_isPlainBody hplain]
    exact within_repetition.mpr h
  · exact h
  · exact within_repetition.mpr (within_optional.mp h)
  · exact h

mutual

/-- Normalising moves and drops parts, and brings in none. -/
theorem within_normalize (features : Features) : ∀ rule : Rule, rule.Within rules tags →
    (normalize features rule).Within rules tags
  | .sequence items, h => by
      refine within_sequenceOf fun x hx => ?_
      obtain ⟨r, hr, hx⟩ := List.mem_flatMap.mp hx
      exact within_of_mem_sequenceItems
        (within_of_mem_normalizeAll features items (within_sequence.mp h) r hr) hx
  | .alternation choices, h => by
      refine within_alternationOf fun x hx => ?_
      obtain ⟨r, hr, hx⟩ := List.mem_flatMap.mp hx
      exact within_of_mem_alternationChoices
        (within_of_mem_normalizeAll features choices (within_alternation.mp h) r hr) hx
  | .optional body, h => within_optionalOf (within_normalize features body (within_optional.mp h))
  | .repetition body, h =>
      within_repetitionOf (within_normalize features body (within_repetition.mp h))
  | .switch feature body, h => by
      by_cases hfeature : feature ∈ features
      · rw [normalize, if_pos hfeature]
        exact within_normalize features body (within_switch.mp h)
      · rw [normalize, if_neg hfeature]
        exact within_sequence.mpr nofun
  | .terminal _, h => h
  | .nonterminal _, h => h

theorem within_of_mem_normalizeAll (features : Features) :
    ∀ rs : List Rule, (∀ r ∈ rs, r.Within rules tags) →
      ∀ r ∈ normalizeAll features rs, r.Within rules tags
  | [], _ => nofun
  | r :: rs, h => by
      rw [List.forall_mem_cons] at h
      rw [normalizeAll, List.forall_mem_cons]
      exact ⟨within_normalize features r h.1, within_of_mem_normalizeAll features rs h.2⟩

end

end Normalization

end Rule

namespace Grammar

def Closed (g : Grammar) : Prop :=
  ∀ d ∈ g.rules, d.body.Within g.rules.length g.lexicon.tags.length

instance (g : Grammar) : Decidable g.Closed :=
  inferInstanceAs (Decidable (∀ d ∈ g.rules, d.body.Within g.rules.length g.lexicon.tags.length))

/-- The grammar with more rules behind its own. -/
def extend (g : Grammar) (extra : List Definition) : Grammar := { g with rules := g.rules ++ extra }

variable {g : Grammar} {r : RuleId}

theorem rule?_extend (hr : r < g.rules.length) (extra : List Definition) :
    (g.extend extra).rule? r = g.rule? r :=
  List.getElem?_append_left hr

theorem name_extend (hr : r < g.rules.length) (extra : List Definition) :
    (g.extend extra).name r = g.name r := by
  rw [name, rule?_extend hr, ← name]

theorem Closed.within (h : g.Closed) {definition : Definition}
    (hdefinition : g.rule? r = some definition) :
    definition.body.Within g.rules.length g.lexicon.tags.length :=
  h definition (List.mem_of_getElem? hdefinition)

end Grammar

namespace Session

/-- The same text read by a grammar that has more rules. -/
def extend (s : Session) (extra : List Grammar.Definition) : Session where
  grammar := s.grammar.extend extra
  source := s.source
  lexicon_eq := s.lexicon_eq
  maxDepth := s.maxDepth

variable {s : Session} {extra : List Grammar.Definition} {tags : Nat}

section Evaluation

variable {resolve resolve' : Resolver}

mutual

/-- A rule asks only for the rules that stand in it. -/
theorem evaluate_extend (h : ∀ r < s.grammar.rules.length, resolve' r = resolve r) :
    ∀ rule : Rule, rule.Within s.grammar.rules.length tags →
      (s.extend extra).evaluate resolve' rule = s.evaluate resolve rule
  | .terminal tag, _ => by
      funext input
      rw [evaluate, evaluate]
      rfl
  | .nonterminal r, hwithin => by
      funext input
      rw [evaluate, evaluate, h r (Rule.within_nonterminal.mp hwithin)]
  | .sequence items, hwithin => by
      funext input
      rw [evaluate, evaluate, evaluateItems_extend h items (Rule.within_sequence.mp hwithin)]
  | .optional body, hwithin => by
      funext input
      rw [evaluate, evaluate, evaluate_extend h body (Rule.within_optional.mp hwithin)]
  | .repetition body, hwithin => by
      funext input
      rw [evaluate, evaluate, evaluate_extend h body (Rule.within_repetition.mp hwithin)]
      rfl
  | .alternation choices, hwithin => by
      funext input
      rw [evaluate, evaluate,
        evaluateChoices_extend h choices (Rule.within_alternation.mp hwithin)]
  | .switch feature body, hwithin => by
      funext input
      rw [evaluate, evaluate, evaluate_extend h body (Rule.within_switch.mp hwithin)]
      rfl

theorem evaluateItems_extend (h : ∀ r < s.grammar.rules.length, resolve' r = resolve r) :
    ∀ items : List Rule, (∀ r ∈ items, r.Within s.grammar.rules.length tags) →
      (s.extend extra).evaluateItems resolve' items = s.evaluateItems resolve items
  | [], _ => by
      funext input
      rw [evaluateItems, evaluateItems]
  | item :: items, hwithin => by
      rw [List.forall_mem_cons] at hwithin
      funext input
      rw [evaluateItems, evaluateItems, evaluate_extend h item hwithin.1,
        evaluateItems_extend h items hwithin.2]

theorem evaluateChoices_extend (h : ∀ r < s.grammar.rules.length, resolve' r = resolve r) :
    ∀ choices : List Rule, (∀ r ∈ choices, r.Within s.grammar.rules.length tags) →
      (s.extend extra).evaluateChoices resolve' choices = s.evaluateChoices resolve choices
  | [], _ => by
      funext input
      rw [evaluateChoices, evaluateChoices]
  | choice :: choices, hwithin => by
      rw [List.forall_mem_cons] at hwithin
      funext input
      rw [evaluateChoices, evaluateChoices, evaluate_extend h choice hwithin.1,
        evaluateChoices_extend h choices hwithin.2]

end

end Evaluation

section Derivation

variable {r : RuleId} {p : Position}

theorem deriveFresh_extend (hclosed : s.grammar.Closed) {resolve resolve' : Resolver}
    (h : ∀ r < s.grammar.rules.length, resolve' r = resolve r) (hr : r < s.grammar.rules.length) :
    (s.extend extra).deriveFresh resolve' r p = s.deriveFresh resolve r p := by
  unfold deriveFresh
  rw [extend, Grammar.rule?_extend hr, ← extend]
  cases hrule : s.grammar.rule? r with
  | none => rfl
  | some definition => simp only [evaluate_extend h definition.body (hclosed.within hrule)]

theorem deriveWithin_extend (hclosed : s.grammar.Closed) (depth : Nat)
    (hr : r < s.grammar.rules.length) :
    (s.extend extra).deriveWithin depth r p = s.deriveWithin depth r p := by
  induction depth generalizing r p with
  | zero => rw [deriveWithin, deriveWithin]
  | succ depth ih =>
      have hresolve : ∀ r < s.grammar.rules.length,
          (fun q => (s.extend extra).deriveWithin depth r q >>= outputOf) =
            fun q => s.deriveWithin depth r q >>= outputOf := by
        intro r hr
        funext q
        rw [ih hr]
      rw [deriveWithin, deriveWithin, deriveFresh_extend hclosed hresolve hr]

theorem derive_extend (hclosed : s.grammar.Closed) (hr : r < s.grammar.rules.length) :
    (s.extend extra).derive r p = s.derive r p := by
  simp only [derive, deriveWithin_extend hclosed _ hr]
  rfl

theorem follow_extend (hclosed : s.grammar.Closed) {rule : Rule}
    (hwithin : rule.Within s.grammar.rules.length tags) :
    (s.extend extra).follow rule = s.follow rule := by
  funext input
  have hevaluate (depth : Nat) :
      (s.extend extra).evaluate
          (fun r q => (s.extend extra).deriveWithin depth r q >>= outputOf) rule =
        s.evaluate (fun r q => s.deriveWithin depth r q >>= outputOf) rule := by
    refine evaluate_extend (fun r hr => ?_) rule hwithin
    funext q
    rw [deriveWithin_extend hclosed depth hr]
  simp only [follow, hevaluate]
  rfl

end Derivation

section Extraction

variable {branch branch' : BranchBuilder}

theorem reach_extend (hclosed : s.grammar.Closed) {rule : Rule}
    (hwithin : rule.Within s.grammar.rules.length tags) :
    (s.extend extra).reach rule = s.reach rule := by
  funext paths stop
  simp only [reach, follow_extend hclosed hwithin]

theorem buildNonterminal_extend (hclosed : s.grammar.Closed)
    (h : ∀ r < s.grammar.rules.length, branch' r = branch r) {r : RuleId}
    (hr : r < s.grammar.rules.length) :
    (s.extend extra).buildNonterminal branch' r = s.buildNonterminal branch r := by
  funext start stop
  simp only [buildNonterminal, derive_extend hclosed hr, h r hr]

mutual

theorem build_extend (hclosed : s.grammar.Closed)
    (h : ∀ r < s.grammar.rules.length, branch' r = branch r) :
    ∀ rule : Rule, rule.Within s.grammar.rules.length tags →
      (s.extend extra).build branch' rule = s.build branch rule
  | .terminal tag, _ => by
      funext start stop
      rw [build, build]
      rfl
  | .nonterminal r, hwithin => by
      funext start stop
      rw [build, build, buildNonterminal_extend hclosed h (Rule.within_nonterminal.mp hwithin)]
  | .sequence items, hwithin => by
      funext start stop
      rw [build, build, fragments_extend hclosed h items (Rule.within_sequence.mp hwithin)]
  | .optional body, hwithin => by
      funext start stop
      rw [build, build, build_extend hclosed h body (Rule.within_optional.mp hwithin)]
  | .repetition body, hwithin => by
      rw [Rule.within_repetition] at hwithin
      funext start stop
      rw [build, build, build_extend hclosed h body hwithin, reach_extend hclosed hwithin]
      rfl
  | .alternation choices, hwithin => by
      funext start stop
      rw [build, build, buildFirst_extend hclosed h choices (Rule.within_alternation.mp hwithin)]
  | .switch feature body, hwithin => by
      funext start stop
      rw [build, build, build_extend hclosed h body (Rule.within_switch.mp hwithin)]
      rfl

theorem buildFirst_extend (hclosed : s.grammar.Closed)
    (h : ∀ r < s.grammar.rules.length, branch' r = branch r) :
    ∀ choices : List Rule, (∀ r ∈ choices, r.Within s.grammar.rules.length tags) →
      (s.extend extra).buildFirst branch' choices = s.buildFirst branch choices
  | [], _ => by
      funext start stop
      rw [buildFirst, buildFirst]
  | choice :: choices, hwithin => by
      rw [List.forall_mem_cons] at hwithin
      funext start stop
      rw [buildFirst, buildFirst, build_extend hclosed h choice hwithin.1,
        buildFirst_extend hclosed h choices hwithin.2]

theorem fragments_extend (hclosed : s.grammar.Closed)
    (h : ∀ r < s.grammar.rules.length, branch' r = branch r) :
    ∀ items : List Rule, (∀ r ∈ items, r.Within s.grammar.rules.length tags) →
      (s.extend extra).fragments branch' items = s.fragments branch items
  | [], _ => by rw [fragments, fragments]
  | item :: items, hwithin => by
      rw [List.forall_mem_cons] at hwithin
      rw [fragments, fragments, build_extend hclosed h item hwithin.1,
        reach_extend hclosed hwithin.1, fragments_extend hclosed h items hwithin.2]

end

theorem branchFresh_extend (hclosed : s.grammar.Closed)
    (h : ∀ r < s.grammar.rules.length, branch' r = branch r) (stretch : Stretch)
    (hr : stretch.rule < s.grammar.rules.length) :
    (s.extend extra).branchFresh branch' stretch = s.branchFresh branch stretch := by
  unfold branchFresh
  rw [extend, Grammar.rule?_extend hr, Grammar.name_extend hr, ← extend]
  cases hrule : s.grammar.rule? stretch.rule with
  | none => rfl
  | some definition => simp only [build_extend hclosed h definition.body (hclosed.within hrule)]

theorem branchWithin_extend (hclosed : s.grammar.Closed) (depth : Nat) {r : RuleId}
    (hr : r < s.grammar.rules.length) :
    (s.extend extra).branchWithin depth r = s.branchWithin depth r := by
  induction depth generalizing r with
  | zero =>
      funext start stop
      rw [branchWithin, branchWithin]
  | succ depth ih =>
      funext start stop
      rw [branchWithin, branchWithin,
        branchFresh_extend hclosed (fun _ hr => ih hr) ⟨r, start, stop⟩ hr]

theorem branch_extend (hclosed : s.grammar.Closed) {r : RuleId}
    (hr : r < s.grammar.rules.length) :
    (s.extend extra).branch r = s.branch r := by
  funext start stop
  simp only [branch, branchWithin_extend hclosed _ hr]
  rfl

end Extraction

end Session

/-- In no run does it matter what unknown ids stand for: deriving rules of the grammar and building
their branches never comes to one. -/
def Grammar.SelfContained (g : Grammar) : Prop :=
  ∀ s : Session, s.grammar = g → ∀ extra r, r < g.rules.length →
    (∀ p, (s.extend extra).derive r p = s.derive r p) ∧ (s.extend extra).branch r = s.branch r

theorem Grammar.Closed.selfContained {g : Grammar} (h : g.Closed) : g.SelfContained := by
  rintro s rfl extra r hr
  exact ⟨fun _ => Session.derive_extend h hr, Session.branch_extend h hr⟩

end Multipath
